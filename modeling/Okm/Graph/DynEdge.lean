import Okm.Engine.Nest
import Okm.Graph.Edge

/-!
# Dynamic graph edges

The model of `okm-dynamic`'s `graph.rs`: the same faces as the declared form, with
nothing declared. The attributes travel with the edge and are written by `link` itself,
the payload is the bare header, and the member set rides the schema. The handle keeps two
caches, one for predicates and one for attribute names; a failure is told in words.

What the walk over an attribute segment remembers of the names it resolved is left out:
a name once bound is never bound again, so a memo answers what the store answers.
-/

namespace Okm.Model

open Lib VirtualStorage Engine

/-- How a dynamic verb ends when it does not answer. -/
inductive DynFailure where
  | refused (text : String)
  | panic (p : Panic)

/-- One dynamic edge. -/
structure DynEdge where
  src : NodeRef
  dst : NodeRef
  predicate : String
  attrs : SortedMap String DynamicValue

/-- What a dynamic handle is assembled from: the namespace and the exported member set. -/
structure DynSchema where
  ns : UInt16
  members : List UInt16

/-- The handle: the engine, the predicate cache, the cache of attribute names. -/
structure DynGraph (σ : Type) where
  store : σ
  predicates : VocabCache
  fields : VocabCache

def DynGraph.new {σ : Type} (store : σ) : DynGraph σ :=
  ⟨store, { faces := predicateVocab }, { faces := fieldVocab }⟩

abbrev DynVerb (σ α : Type) := Run DynFailure (DynGraph σ) α

/-- Answer what a part without a state answered. -/
def dynAnswer {σ α : Type} : Except String α → DynVerb σ α
  | .ok a => fun d => (.ok a, d)
  | .error text => fun d => (.error (.refused text), d)

def dynUnwrap {σ α : Type} : Except Panic α → DynVerb σ α
  | .ok a => fun d => (.ok a, d)
  | .error p => fun d => (.error (.panic p), d)

@[simp] theorem dynAnswer_ok {σ α : Type} (a : α) (d : DynGraph σ) :
    (dynAnswer (.ok a) : DynVerb σ α) d = (.ok a, d) := rfl

@[simp] theorem dynAnswer_error {σ α : Type} (text : String) (d : DynGraph σ) :
    (dynAnswer (.error text) : DynVerb σ α) d = (.error (.refused text), d) := rfl

@[simp] theorem dynUnwrap_ok {σ α : Type} (a : α) (d : DynGraph σ) :
    (dynUnwrap (.ok a) : DynVerb σ α) d = (.ok a, d) := rfl

/-- Read something of the store, a failure told in words. -/
def dynLook {σ α : Type} (read : σ → Except Error α) : DynVerb σ α :=
  fun d => dynAnswer ((read d.store).mapError errorText) d

namespace DynSchema

variable (c : DynSchema)

def header : Bytes := beBytes 2 c.ns.toNat

def primaryKey (id : UInt64) : Bytes := faceKey c.header primarySlot (idBe id)

/-- `fields_key`: the dynamic segment's entry. -/
def fieldsKey (id : UInt64) : Bytes := faceKey c.header dynamicSlot (idBe id)

/-- The key of an edge on one of its fixed faces. -/
def edgeFaceKey (src dst : NodeRef) (predicate : Nat) (id : UInt64) (face : EdgeFace) : Bytes :=
  faceKey c.header face.slot (face.suffix src dst predicate id)

/-- `check_members`: an empty member set declares nothing. -/
def checkMembers (src dst : NodeRef) : Except String Unit :=
  if c.members = [] then .ok ()
  else if src.ns ∉ c.members then
    .error ("src ns " ++ toString src.ns.toNat ++ " is not a member of this graph")
  else if dst.ns ∉ c.members then
    .error ("dst ns " ++ toString dst.ns.toNat ++ " is not a member of this graph")
  else .ok ()

/-- `body_of`: the payload is the bare header. -/
def bodyOf (edge : DynEdge) (predicate : Nat) : Bytes :=
  EdgeBody.encode ⟨edge.src, edge.dst, predicate, 1 :: beBytes 2 0⟩

/-- The endpoints and the number of a body's head. -/
def parseBodyHead (body : Bytes) : Except Panic (Except String (NodeRef × NodeRef × Nat)) := do
  match ← NodeRef.decode body with
  | none => .ok (.error "edge body: truncated src ref")
  | some (src, n1) =>
    match ← NodeRef.decode (body.drop n1) with
    | none => .ok (.error "edge body: truncated dst ref")
    | some (dst, n2) =>
      let afterDst := n1 + n2
      if body.length < afterDst + 2 then .ok (.error "edge body: truncated predicate_vocab_id")
      else .ok (.ok (src, dst, beNat ((body.drop afterDst).take 2)))

/-- What `write_into` adds to its batch. -/
def writeOps (edge : DynEdge) (predicate : Nat) (wire : Bytes) (id : UInt64) :
    List (Op Bytes Bytes) :=
  [(c.primaryKey id, some (bodyOf edge predicate))]
    ++ (if wire = [] then [] else [(c.fieldsKey id, some wire)])
    ++ EdgeFace.all.map fun face => (c.edgeFaceKey edge.src edge.dst predicate id face, some [])

/-- The batch of `unlink`. -/
def unlinkOps (src dst : NodeRef) (predicate : Nat) (id : UInt64) : List (Op Bytes Bytes) :=
  [(c.primaryKey id, none), (c.fieldsKey id, none)]
    ++ EdgeFace.all.map fun face => (c.edgeFaceKey src dst predicate id face, none)

section

variable {σ : Type} [VirtualStorage σ]

/-- `predicate_vocab_id`. -/
def predicateVocabId (predicate : String) : DynVerb σ Nat := fun d =>
  match VocabCache.idFor .u16 d.predicates d.store c.header predicate with
  | (.ok id, predicates, store) => (.ok id, ⟨store, predicates, d.fields⟩)
  | (.error e, predicates, store) =>
    (.error (.refused (errorText e)), ⟨store, predicates, d.fields⟩)

/-- `attrs_wire`. -/
def attrsWire (attrs : SortedMap String DynamicValue) : DynVerb σ Bytes := fun d =>
  match putFramesNamed (attributeId c.header) attrs.entries (d.fields, d.store) with
  | (.ok body, fields, store) => (.ok body, ⟨store, d.predicates, fields⟩)
  | (.error e, fields, store) => (.error (.refused (errorText e)), ⟨store, d.predicates, fields⟩)

/-- `write_into`, which is `link_into`. -/
def writeInto (batch : Batch) (edge : DynEdge) (id : UInt64) : DynVerb σ Batch := do
  dynAnswer (c.checkMembers edge.src edge.dst)
  let predicate ← c.predicateVocabId edge.predicate
  let wire ← c.attrsWire edge.attrs
  pure ⟨batch.ops ++ c.writeOps edge predicate wire id⟩

/-- `store.commit_batch`, a failure told with the verb it failed in. -/
def dynCommit (verb : String) (batch : Batch) : DynVerb σ Unit := fun d =>
  match commitBatch d.store batch with
  | (.ok (), store) => (.ok (), ⟨store, d.predicates, d.fields⟩)
  | (.error e, store) =>
    (.error (.refused ("dynamic graph " ++ verb ++ " commit failed: " ++ errorText e)),
      ⟨store, d.predicates, d.fields⟩)

/-- `Graph::link`. -/
def link (edge : DynEdge) (id : UInt64) : DynVerb σ Unit := do
  match ← dynLook fun store => get store (c.primaryKey id) with
  | some _ => dynAnswer (.error ("edge_id " ++ toString id.toNat ++ " already live"))
  | none => do
    let batch ← c.writeInto {} edge id
    dynCommit "link" batch

/-- `Graph::unlink`. -/
def unlink (id : UInt64) : DynVerb σ Unit := do
  match ← dynLook fun store => get store (c.primaryKey id) with
  | none => dynAnswer (.error ("unlink: edge_id " ++ toString id.toNat ++ " not found"))
  | some body => do
    let head ← dynUnwrap (parseBodyHead body)
    let (src, dst, predicate) ← dynAnswer head
    dynCommit "unlink" ⟨c.unlinkOps src dst predicate id⟩

/-! ## The reads -/

/-- `traverse`. -/
def traverse (slot : Slot) (node : NodeRef) : DynVerb σ (List UInt64) :=
  dynLook fun store =>
    (scanSuffix store (faceKey c.header slot node.encode)).map GraphEncode.idsAfterEndpoint

def traversePair (slot : Slot) (start stop : NodeRef) : DynVerb σ (List UInt64) :=
  dynLook fun store =>
    (scanSuffix store (faceKey c.header slot (start.encode ++ stop.encode))).map
      GraphEncode.idsAfterPair

def outEdges (src : NodeRef) : DynVerb σ (List UInt64) := c.traverse edgeOutSlot src

def inEdges (dst : NodeRef) : DynVerb σ (List UInt64) := c.traverse edgeInSlot dst

def outEdgesTo (src dst : NodeRef) : DynVerb σ (List UInt64) := c.traversePair edgeOutSlot src dst

def inEdgesFrom (dst src : NodeRef) : DynVerb σ (List UInt64) := c.traversePair edgeInSlot dst src

def predicateGet (predicate : String) : DynVerb σ (Option Nat) := fun d =>
  match VocabCache.idGet .u16 d.predicates d.store c.header predicate with
  | (.ok found, predicates) => (.ok found, ⟨d.store, predicates, d.fields⟩)
  | (.error e, predicates) => (.error (.refused (errorText e)), ⟨d.store, predicates, d.fields⟩)

def typedScan (slot : Slot) (predicate : String) (rest : Bytes)
    (ids : List Bytes → List UInt64) : DynVerb σ (List UInt64) := do
  match ← c.predicateGet predicate with
  | none => pure []
  | some found =>
    dynLook fun store =>
      (scanSuffix store (faceKey c.header slot (VocabId.u16.toBe found ++ rest))).map ids

def typedEdges (slot : Slot) (predicate : String) (node : NodeRef) : DynVerb σ (List UInt64) :=
  c.typedScan slot predicate node.encode GraphEncode.idsAfterEndpoint

def typedOut (predicate : String) (src : NodeRef) : DynVerb σ (List UInt64) :=
  c.typedEdges edgePredicateOutSlot predicate src

def typedIn (predicate : String) (dst : NodeRef) : DynVerb σ (List UInt64) :=
  c.typedEdges edgePredicateInSlot predicate dst

def typedOutTo (predicate : String) (src dst : NodeRef) : DynVerb σ (List UInt64) :=
  c.typedScan edgePredicateOutSlot predicate (src.encode ++ dst.encode) GraphEncode.idsAfterPair

def edgesOfPredicate (predicate : String) : DynVerb σ (List UInt64) :=
  c.typedScan edgePredicateOutSlot predicate [] GraphEncode.idsAfterEndpoint

/-- The name of a predicate; the cache remembers it. -/
def predicateName (id : Nat) : DynVerb σ (Option String) := fun d =>
  match VocabCache.nameFor .u16 d.predicates d.store c.header id with
  | (.ok name, predicates) => (.ok name, ⟨d.store, predicates, d.fields⟩)
  | (.error e, predicates) => (.error (.refused (errorText e)), ⟨d.store, predicates, d.fields⟩)

end

section

variable {σ : Type} [LawfulStorage σ]

/-- One attribute name, on an engine whose reads answer. -/
def fieldName (d : DynGraph σ) (id : UInt16) : Option String :=
  match VocabCache.nameFor .u16 d.fields d.store c.header id.toNat with
  | (.ok name, _) => name
  | (.error _, _) => none

/-- `attrs_from`: the frames whose ids have names, as a map. -/
def attrsFrom (d : DynGraph σ) (wire : Bytes) : SortedMap String DynamicValue :=
  (decodeNamed (c.fieldName d) wire).foldl (fun out f =>
    match c.fieldName d f.id with
    | some name => out.insert name f.value
    | none => out) SortedMap.empty

/-- The attributes stored for an edge, none where there is no segment. -/
def storedAttrs (id : UInt64) : DynVerb σ (SortedMap String DynamicValue) := fun d =>
  dynAnswer (((get d.store (c.fieldsKey id)).mapError errorText).map fun raw =>
    (raw.map (c.attrsFrom d)).getD SortedMap.empty) d

/-- The rest of `get_edge` once both endpoints are read: the number behind them, its name,
the attributes. -/
def describe (id : UInt64) (body : Bytes) (src dst : NodeRef) (afterDst : Nat) :
    DynVerb σ (Option DynEdge) := do
  match c.checkMembers src dst with
  | .error _ => pure none
  | .ok () => do
    let number ← dynUnwrap (if body.length < afterDst + 2 then .error .slice
      else .ok (beNat ((body.drop afterDst).take 2)))
    match ← c.predicateName number with
    | none => pure none
    | some predicate => do
      let attrs ← c.storedAttrs id
      pure (some ⟨src, dst, predicate, attrs⟩)

/-- `get_edge`. -/
def getEdge (id : UInt64) : DynVerb σ (Option DynEdge) := do
  match ← dynLook fun store => get store (c.primaryKey id) with
  | none => pure none
  | some body => do
    match ← dynUnwrap (NodeRef.decode body) with
    | none => pure none
    | some (src, n1) => do
      match ← dynUnwrap (NodeRef.decode (body.drop n1)) with
      | none => pure none
      | some (dst, n2) => c.describe id body src dst (n1 + n2)

end

end DynSchema

end Okm.Model
