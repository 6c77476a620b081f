import Okm.Graph.NodeRef
import Okm.Model.Collection
import Okm.Model.RowWrites

/-!
# Graph edges

The model of `model/graph.rs`. An edge is a row under its id, four traversal entries that
carry both endpoints, the entries its payload declares, and, when it has open attributes,
a dynamic segment. A graph is declared by a document type keyed by the edge id together
with the namespaces its endpoints may come from; the handle holds the store and the cache
of the predicate vocabulary.

Writes are collected in a batch, only a vocabulary writes for itself, so a step of a verb
leaves a store and, when it answers, a batch. Some steps can abort: a body is cut with
`expect`.
-/

namespace Okm.Model

open Lib VirtualStorage

/-- The edge's identity as a key: the id, big-endian. -/
instance edgeKey : KeyEncode UInt64 where
  keyLen := 8
  encode id := beBytes 8 id.toNat
  decode bytes := UInt64.ofNat (beNat (bytes.take 8))
  length_encode id := length_beBytes 8 id.toNat
  decode_encode id := by
    rw [List.take_of_length_le (by rw [length_beBytes]), beNat_beBytes id.toNat_lt,
      UInt64.ofNat_toNat]

/-- The eight bytes of an edge id. -/
def idBe (id : UInt64) : Bytes := beBytes 8 id.toNat

def edgeOutSlot : Slot := ⟨0x06, by decide⟩
def edgeInSlot : Slot := ⟨0x07, by decide⟩
def edgePredicateOutSlot : Slot := ⟨0x08, by decide⟩
def edgePredicateInSlot : Slot := ⟨0x09, by decide⟩

/-- The declaration of a graph: the document its payloads are, and its member set. -/
structure GraphEncode (R : Type) where
  doc : Document UInt64 R
  members : List UInt16

/-- One edge's head: endpoints by reference, predicate by name. -/
structure EdgeHead where
  src : NodeRef
  dst : NodeRef
  predicate : String
  deriving DecidableEq

/-- An edge body, its predicate still a number. -/
structure EdgeBody where
  src : NodeRef
  dst : NodeRef
  predicateVocabId : Nat
  payload : Bytes
  deriving DecidableEq

/-- `edge_body`. -/
def EdgeBody.encode (body : EdgeBody) : Bytes :=
  body.src.encode ++ (body.dst.encode ++ (VocabId.u16.toBe body.predicateVocabId ++ body.payload))

/-- `NodeRef::decode(..).expect(..)`. -/
def expectRef (wire : Bytes) : Except Panic (NodeRef × Nat) :=
  match NodeRef.decode wire with
  | .error p => .error p
  | .ok none => .error .expect
  | .ok (some found) => .ok found

/-- `decode_body`. -/
def decodeBody (bytes : Bytes) : Except Panic EdgeBody := do
  let (src, n1) ← expectRef bytes
  let (dst, n2) ← expectRef (bytes.drop n1)
  let afterDst := n1 + n2
  if bytes.length < afterDst + 2 then .error .slice
  else
    .ok ⟨src, dst, beNat ((bytes.drop afterDst).take 2), bytes.drop (afterDst + 2)⟩

/-- The fixed faces an edge is entered in beside its row. -/
inductive EdgeFace where
  | out
  | into
  | predicateOut
  | predicateInto
  deriving DecidableEq

namespace EdgeFace

def slot : EdgeFace → Slot
  | out => edgeOutSlot
  | into => edgeInSlot
  | predicateOut => edgePredicateOutSlot
  | predicateInto => edgePredicateInSlot

/-- What an entry of the face holds behind its slot. -/
def suffix (src dst : NodeRef) (predicate : Nat) (id : UInt64) : EdgeFace → Bytes
  | out => src.encode ++ (dst.encode ++ idBe id)
  | into => dst.encode ++ (src.encode ++ idBe id)
  | predicateOut => VocabId.u16.toBe predicate ++ (src.encode ++ (dst.encode ++ idBe id))
  | predicateInto => VocabId.u16.toBe predicate ++ (dst.encode ++ (src.encode ++ idBe id))

/-- The faces in the order a write enters them. -/
def all : List EdgeFace := [out, into, predicateOut, predicateInto]

end EdgeFace

/-- A handle: the engine, and the cache over the predicate vocabulary. -/
structure Graph (σ : Type) where
  store : σ
  vocab : VocabCache

/-- `Graph::new`. -/
def Graph.new {σ : Type} (store : σ) : Graph σ := ⟨store, { faces := predicateVocab }⟩

/-- A step of a graph verb. -/
abbrev GraphVerb (σ α : Type) := Run Failure (Graph σ) α

/-- Answer what a part without a state answered. -/
def answer {σ α : Type} : Except Error α → GraphVerb σ α
  | .ok a => fun s => (.ok a, s)
  | .error e => fun s => (.error (.refused e), s)

/-- A part that may abort. -/
def unwrap {σ α : Type} : Except Panic α → GraphVerb σ α
  | .ok a => fun s => (.ok a, s)
  | .error p => fun s => (.error (.panic p), s)

@[simp] theorem answer_ok {σ α : Type} (a : α) (s : Graph σ) :
    (answer (.ok a) : GraphVerb σ α) s = (.ok a, s) := rfl

@[simp] theorem answer_error {σ α : Type} (e : Error) (s : Graph σ) :
    (answer (.error e) : GraphVerb σ α) s = (.error (.refused e), s) := rfl

@[simp] theorem unwrap_ok {σ α : Type} (a : α) (s : Graph σ) :
    (unwrap (.ok a) : GraphVerb σ α) s = (.ok a, s) := rfl

/-- Read something of the store. -/
def look {σ α : Type} (read : σ → Except Error α) : GraphVerb σ α :=
  fun s => answer (read s.store) s

/-- `store.commit_batch`. -/
def commit {σ : Type} [VirtualStorage σ] (batch : Batch) : GraphVerb σ Unit := fun s =>
  match commitBatch s.store batch with
  | (.ok (), store) => (.ok (), ⟨store, s.vocab⟩)
  | (.error e, store) => (.error (.refused e), ⟨store, s.vocab⟩)

/-- One name interned by a cache over a store. -/
def attributeId {σ : Type} [VirtualStorage σ] (header : Bytes) (name : String) :
    Run Error (VocabCache × σ) UInt16 := fun (cache, store) =>
  match VocabCache.idFor .u16 cache store header name with
  | (.error e, cache, store) => (.error e, cache, store)
  | (.ok id, cache, store) => (.ok (UInt16.ofNat id), cache, store)

namespace GraphEncode

variable {R : Type} (g : GraphEncode R)

/-- The key header: the namespace alone. -/
def ns : Bytes := g.doc.nsPrefix

def primaryKey (id : UInt64) : Bytes := faceKey g.ns primarySlot (idBe id)

def dynamicKey (id : UInt64) : Bytes := faceKey g.ns dynamicSlot (idBe id)

/-- The key of an edge on one of its fixed faces. -/
def edgeFaceKey (src dst : NodeRef) (predicate : Nat) (id : UInt64) (face : EdgeFace) : Bytes :=
  faceKey g.ns face.slot (face.suffix src dst predicate id)

/-- `index_entries` under the graph's header. -/
def indexEntries (id : UInt64) (payload : R) : List (Bytes × Bytes) :=
  g.doc.leads.map (fun lead => lead.entryPair g.ns id)
    ++ g.doc.indexes.flatMap fun index => index.entryPairs g.ns id payload

/-- The keys of the entries a payload declares. -/
def declaredKeys (id : UInt64) (payload : R) : List Bytes :=
  (g.indexEntries id payload).map Prod.fst

/-- `check_members`: the first endpoint outside the member set is named. -/
def checkMembers (src dst : NodeRef) : Except Error Unit :=
  if src.ns ∉ g.members then .error (.edgeNotMember "src" src.ns.toNat (beNat (g.ns.take 2)))
  else if dst.ns ∉ g.members then
    .error (.edgeNotMember "dst" dst.ns.toNat (beNat (g.ns.take 2)))
  else .ok ()

/-- What `write_into` adds to its batch. -/
def writeOps (body : EdgeBody) (payload : R) (id : UInt64) : List (Op Bytes Bytes) :=
  [(g.dynamicKey id, none), (g.primaryKey id, some body.encode)]
    ++ (EdgeFace.all.map fun face =>
      (g.edgeFaceKey body.src body.dst body.predicateVocabId id face, some []))
    ++ putOps (g.indexEntries id payload)

/-- What `unlink_into` adds to its batch. -/
def unlinkOps (body : EdgeBody) (payload : R) (id : UInt64) : List (Op Bytes Bytes) :=
  [(g.primaryKey id, none)]
    ++ (EdgeFace.all.map fun face =>
      (g.edgeFaceKey body.src body.dst body.predicateVocabId id face, none))
    ++ delOps (g.declaredKeys id payload)

section

variable {σ : Type} [VirtualStorage σ]

/-! ## The write verbs -/

/-- `predicate_vocab_id`: the predicate's number, given to it here if it has none. -/
def predicateVocabId (predicate : String) : GraphVerb σ Nat := fun s =>
  match VocabCache.idFor .u16 s.vocab s.store g.ns predicate with
  | (.ok id, vocab, store) => (.ok id, ⟨store, vocab⟩)
  | (.error e, vocab, store) => (.error (.refused e), ⟨store, vocab⟩)

/-- `write_into`, which is `link_into`. -/
def writeInto (batch : Batch) (head : EdgeHead) (payload : R) (id : UInt64) :
    GraphVerb σ Batch := do
  answer (g.checkMembers head.src head.dst)
  let predicate ← g.predicateVocabId head.predicate
  pure ⟨batch.ops ++ g.writeOps ⟨head.src, head.dst, predicate, g.doc.encodePayload payload⟩
    payload id⟩

/-- `unlink_into`: the entries are those of the row the store holds. -/
def unlinkInto (batch : Batch) (id : UInt64) : GraphVerb σ Batch := do
  match ← look fun store => get store (g.primaryKey id) with
  | none => answer (.error (.edgeNotFound id.toNat))
  | some bytes => do
    let body ← unwrap (decodeBody bytes)
    answer (g.checkMembers body.src body.dst)
    pure ⟨batch.ops ++ g.unlinkOps body (g.doc.decodePayload body.payload) id⟩

/-- One attribute name interned in the field vocabulary, by the cache the call keeps. -/
def fieldId (name : String) : Run Error (VocabCache × σ) UInt16 := attributeId g.ns name

/-- The frames of an attribute map; the cache is dropped at the end. -/
def attributeBytes (fields : SortedMap String DynamicValue) : GraphVerb σ Bytes := fun s =>
  match putFramesNamed g.fieldId fields.entries ({ faces := fieldVocab }, s.store) with
  | (.ok body, _, store) => (.ok body, ⟨store, s.vocab⟩)
  | (.error e, _, store) => (.error (.refused e), ⟨store, s.vocab⟩)

/-- `replace_into`: the old segment goes, and the new one is written if there are names. -/
def replaceInto (batch : Batch) (id : UInt64) (fields : SortedMap String DynamicValue) :
    GraphVerb σ Batch := do
  let batch := batch.del (g.dynamicKey id)
  if fields.entries = [] then pure batch
  else do
    let body ← g.attributeBytes fields
    pure (batch.put (g.dynamicKey id) body)

/-- `Graph::link`: an id that is taken is refused. -/
def link (head : EdgeHead) (payload : R) (id : UInt64) : GraphVerb σ Unit := do
  match ← look fun store => get store (g.primaryKey id) with
  | some _ => answer (.error (.edgeAlreadyLive id.toNat))
  | none => do
    let batch ← g.writeInto {} head payload id
    commit batch

/-- `Graph::unlink`. -/
def unlink (id : UInt64) : GraphVerb σ Unit := do
  let batch ← g.unlinkInto {} id
  commit batch

/-- A rewrite: the incumbent leaves and its successor enters in one committed batch. -/
def rewrite (head : EdgeHead) (payload : R) (id : UInt64) : GraphVerb σ Unit := do
  let batch ← g.unlinkInto {} id
  let batch ← g.writeInto batch head payload id
  commit batch

/-- Open attributes set in a batch of their own. -/
def replaceAttrs (id : UInt64) (fields : SortedMap String DynamicValue) : GraphVerb σ Unit := do
  let batch ← g.replaceInto {} id fields
  commit batch

/-! ## The reads -/

/-- `get_edge`: a row with an endpoint outside the member set is not this graph's. -/
def getEdge (id : UInt64) : GraphVerb σ (Option EdgeBody) := do
  match ← look fun store => get store (g.primaryKey id) with
  | none => pure none
  | some bytes => do
    let body ← unwrap (decodeBody bytes)
    match g.checkMembers body.src body.dst with
    | .ok () => pure (some body)
    | .error _ => pure none

/-- `ids_after_endpoint`: the id is the last eight bytes behind the other endpoint. -/
def idsAfterEndpoint (suffixes : List Bytes) : List UInt64 :=
  (suffixes.filter fun sfx => 8 < sfx.length).map fun sfx =>
    UInt64.ofNat (beNat (sfx.drop (sfx.length - 8)))

/-- `ids_after_pair`: the suffix is the id. -/
def idsAfterPair (suffixes : List Bytes) : List UInt64 :=
  (suffixes.filter fun sfx => sfx.length = 8).map fun sfx => UInt64.ofNat (beNat sfx)

/-- `traverse`: all edges at one node of a face. -/
def traverse (slot : Slot) (node : NodeRef) : GraphVerb σ (List UInt64) :=
  look fun store => (scanSuffix store (faceKey g.ns slot node.encode)).map idsAfterEndpoint

/-- `traverse_pair`. -/
def traversePair (slot : Slot) (start stop : NodeRef) : GraphVerb σ (List UInt64) :=
  look fun store =>
    (scanSuffix store (faceKey g.ns slot (start.encode ++ stop.encode))).map idsAfterPair

def outEdges (src : NodeRef) : GraphVerb σ (List UInt64) := g.traverse edgeOutSlot src

def inEdges (dst : NodeRef) : GraphVerb σ (List UInt64) := g.traverse edgeInSlot dst

def outEdgesTo (src dst : NodeRef) : GraphVerb σ (List UInt64) := g.traversePair edgeOutSlot src dst

def inEdgesFrom (dst src : NodeRef) : GraphVerb σ (List UInt64) := g.traversePair edgeInSlot dst src

/-- The number of a predicate, if it has one; the cache remembers it. -/
def predicateGet (predicate : String) : GraphVerb σ (Option Nat) := fun s =>
  match VocabCache.idGet .u16 s.vocab s.store g.ns predicate with
  | (.ok found, vocab) => (.ok found, ⟨s.store, vocab⟩)
  | (.error e, vocab) => (.error (.refused e), ⟨s.store, vocab⟩)

/-- A read qualified by a predicate: nothing is scanned for a predicate without a number,
else what lies behind the number and `rest`. -/
def typedScan (slot : Slot) (predicate : String) (rest : Bytes)
    (ids : List Bytes → List UInt64) : GraphVerb σ (List UInt64) := do
  match ← g.predicateGet predicate with
  | none => pure []
  | some found =>
    look fun store => (scanSuffix store (faceKey g.ns slot (VocabId.u16.toBe found ++ rest))).map ids

/-- `typed_edges`. -/
def typedEdges (slot : Slot) (predicate : String) (node : NodeRef) : GraphVerb σ (List UInt64) :=
  g.typedScan slot predicate node.encode idsAfterEndpoint

def typedOut (predicate : String) (src : NodeRef) : GraphVerb σ (List UInt64) :=
  g.typedEdges edgePredicateOutSlot predicate src

def typedIn (predicate : String) (dst : NodeRef) : GraphVerb σ (List UInt64) :=
  g.typedEdges edgePredicateInSlot predicate dst

def typedOutTo (predicate : String) (src dst : NodeRef) : GraphVerb σ (List UInt64) :=
  g.typedScan edgePredicateOutSlot predicate (src.encode ++ dst.encode) idsAfterPair

def typedInFrom (predicate : String) (dst src : NodeRef) : GraphVerb σ (List UInt64) :=
  g.typedScan edgePredicateInSlot predicate (dst.encode ++ src.encode) idsAfterPair

def edgesOfPredicate (predicate : String) : GraphVerb σ (List UInt64) :=
  g.typedScan edgePredicateOutSlot predicate [] idsAfterEndpoint

end

section

variable {σ : Type} [LawfulStorage σ]

/-- One name of the field vocabulary, on an engine whose reads answer. -/
def fieldName (store : σ) (id : UInt16) : Option String :=
  match VocabCache.nameFor .u16 { faces := fieldVocab } store g.ns id.toNat with
  | (.ok name, _) => name
  | (.error _, _) => none

/-- The frames of a segment whose ids have names, as a map. -/
def attributeMap (store : σ) (raw : Bytes) : Option (SortedMap String DynamicValue) :=
  let frames := decodeNamed (g.fieldName store) raw
  if frames.isEmpty then none
  else
    some (frames.foldl (fun out f =>
      match g.fieldName store f.id with
      | some name => out.insert name f.value
      | none => out) SortedMap.empty)

/-- `attrs`: an edge without a segment, or with one of no frames, has none. -/
def attrs (id : UInt64) : GraphVerb σ (Option (SortedMap String DynamicValue)) :=
  look fun store => (get store (g.dynamicKey id)).map fun raw => raw.bind (g.attributeMap store)

end

end GraphEncode

/-! ## A declaration without fields -/

/-- The document of a graph that declares no payload field and no face: its payload is the
header alone, `[version][hot_len 0]`. -/
def bareDocument (ns : UInt16) (version : UInt8) : Document UInt64 Unit where
  partitionPrefix := []
  nsPrefix := beBytes 2 ns.toNat
  leads := []
  indexes := []
  reduces := []
  vocabFields := []
  encodePayload _ := version :: beBytes 2 0
  decodePayload _ := ()
  embedDeref _ payload := .ok payload
  embedEntries _ := []
  embedKeys _ := []
  fields := []
  toMap _ := SortedMap.empty
  tryFromMap _ := .ok ()
  leadSlots := by simp
  indexSlots := by simp
  reduceSlots := by simp
  leadsNodup := by simp
  indexesNodup := by simp
  reducesNodup := by simp
  vocabFaces := by simp
  embedDeref_ok _ r := ⟨r, rfl⟩

def bareGraph (ns : UInt16) (version : UInt8) (members : List UInt16) : GraphEncode Unit :=
  ⟨bareDocument ns version, members⟩

end Okm.Model
