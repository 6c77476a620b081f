import Okm.Lib.Run
import Okm.Model.Document

/-!
# The write verbs of a collection

The model of the write path of `model/document.rs`. Every verb collects its
writes in a batch and hands it to the engine as one commit; the reads it makes on
the way go either through the batch view, which sees what the batch already
holds, or past it to the store, and each verb says which. `writeRow` and
`deleteInto` are the two bodies all of them end in.

The changelog, the event sink and the write counter hang off the commit and are
not part of what the store holds.
-/

namespace Okm.Model

open Lib VirtualStorage

/-- A step of a verb. -/
abbrev Verb (σ α : Type) := Run Error σ α

/-! ## Steps over a store -/

section

variable {σ : Type} [VirtualStorage σ]

/-- Read something of the store. -/
def peek {α : Type} (read : σ → Except Error α) : Verb σ α := fun s => (read s, s)

/-- Read something of the store under a batch view. -/
def peekStore {α : Type} (read : σ → Except Error α) : Verb (BatchStore σ) α :=
  fun s => (read s.store, s)

def writeKey (key value : Bytes) : Verb σ Unit := fun s => VirtualStorage.put s key value

def dropKey (key : Bytes) : Verb σ Unit := fun s => VirtualStorage.del s key

def writeAll : List (Bytes × Bytes) → Verb σ Unit
  | [] => pure ()
  | (key, value) :: rest => do
    writeKey key value
    writeAll rest

def dropAll : List Bytes → Verb σ Unit
  | [] => pure ()
  | key :: rest => do
    dropKey key
    dropAll rest

/-- `Collection::commit_batch` of what a view has collected. -/
def commitView (view : BatchStore σ) : Except Error Unit × σ :=
  commitBatch view.store view.batch

/-- One verb, one commit: nothing is written when the body is refused. -/
def commitWrites {α : Type} (store : σ) (body : Verb (BatchStore σ) α) : Except Error α × σ :=
  match body ⟨store, {}⟩ with
  | (.error e, _) => (.error e, store)
  | (.ok a, view) =>
    match commitView view with
    | (.error e, store) => (.error e, store)
    | (.ok (), store) => (.ok a, store)

end

variable {K R : Type} [KeyEncode K]

namespace Document

variable (doc : Document K R)

section

variable {σ : Type} [VirtualStorage σ]

/-! ## The two bodies -/

/-- `__okm_apply_reduces` over the declared reduces. -/
def foldRow (key : K) (document : R) (add : Bool) : Verb σ Unit :=
  Document.applyReduces doc.header key document add doc.reduces

/-- The row a write replaces leaves its groups. -/
def unfoldPrev (key : K) : Option R → Verb σ Unit
  | some old => doc.foldRow key old false
  | none => pure ()

/-- The faces of the old row that the new one does not produce. -/
def staleFaces (key : K) (document : R) : Option R → List Bytes
  | some old =>
    let fresh := (doc.indexEntries key document).map Prod.fst
    ((doc.indexEntries key old).map Prod.fst).filter fun face => face ∉ fresh
  | none => []

/-- The embedded children of the old row that the new one does not point at. -/
def releasedKeys (document : R) : Option R → List Bytes
  | some old => (doc.embedKeys old).filter fun child => child ∉ doc.embedKeys document
  | none => []

/-- What a write does once it has its old row and the interned new one. -/
def writeRow (key : K) (document : R) (prev : Option R) (stale : List Bytes) : Verb σ Unit := do
  doc.unfoldPrev key prev
  writeKey (doc.primaryKey key) (doc.encodePayload document)
  dropAll stale
  writeAll (doc.indexEntries key document)
  writeAll (doc.embedEntries document)
  dropAll (doc.releasedKeys document prev)
  doc.foldRow key document true

/-- `delete_into`. -/
def deleteInto (key : K) (document : R) : Verb σ Unit := do
  dropKey (doc.primaryKey key)
  dropAll ((doc.indexEntries key document).map Prod.fst)
  doc.foldRow key document false

/-- `removal_reads`: the stored document and whether a dynamic segment exists. -/
def removalReads (key : K) (store : σ) : Except Error (Option R × Bool) := do
  let document ← doc.get store key
  let segment ← VirtualStorage.get store (doc.fieldsKey key)
  .ok (document, segment.isSome)

/-- The row a removal found leaves the table. -/
def deletePrev (key : K) : Option R → Verb σ Unit
  | some document => doc.deleteInto key document
  | none => pure ()

/-- The writes of a removal. -/
def removeInto (key : K) (prev : Option R) (segment : Bool) : Verb σ Unit := do
  doc.deletePrev key prev
  if segment then dropKey (doc.fieldsKey key) else pure ()

/-! ## The verbs over a batch -/

/-- The body of `put`. It leaves the faces of the old row alone. -/
def putInto (key : K) (document : R) : Verb (BatchStore σ) Unit := do
  let document ← doc.intern document
  let raw ← peek fun view => VirtualStorage.get view (doc.primaryKey key)
  doc.writeRow key document (raw.map doc.decodePayload) []

/-- The old row of `save_with_prev_into`: the caller's, or the one read through
the batch, its labels named by the store. -/
def prevRow (key : K) : Option R → Verb (BatchStore σ) (Option R)
  | some old => pure (some old)
  | none => do
    let raw ← peek fun view => VirtualStorage.get view (doc.primaryKey key)
    match raw with
    | none => pure none
    | some raw => do
      let old ← peekStore fun store => doc.derefVocab store (doc.decodePayload raw)
      pure (some old)

/-- `save_with_prev_into`. -/
def saveWithPrevInto (key : K) (document : R) (prev : Option R) : Verb (BatchStore σ) Unit := do
  let prev ← doc.prevRow key prev
  let document ← doc.intern document
  doc.writeRow key document prev (doc.staleFaces key document prev)

/-- `purge_into`; `false` when there was nothing to remove. -/
def purgeInto (key : K) : Verb (BatchStore σ) Bool := do
  let (prev, segment) ← peek (doc.removalReads key)
  if prev.isNone && !segment then pure false
  else do
    doc.removeInto key prev segment
    pure true

/-! ## The verbs that commit -/

def put (store : σ) (key : K) (document : R) : Except Error Unit × σ :=
  commitWrites store (doc.putInto key document)

def upsertWith (store : σ) (key : K) (f : Option R → R) : Except Error R × σ :=
  match doc.get store key with
  | .error e => (.error e, store)
  | .ok old =>
    match doc.put store key (f old) with
    | (.error e, store) => (.error e, store)
    | (.ok (), store) => (.ok (f old), store)

def purge (store : σ) (key : K) : Except Error Bool × σ :=
  match doc.removalReads key store with
  | .error e => (.error e, store)
  | .ok (prev, segment) =>
    if prev.isNone && !segment then (.ok false, store)
    else
      commitWrites store do
        doc.removeInto key prev segment
        pure true

end

/-! ## Whole documents

A document map splits into the declared names, which make the row, and the rest,
which is the dynamic segment. The segment's frames carry the ids of the table's
field vocabulary. -/

/-- `split_names`. -/
def splitNames (object : SortedMap String DynamicValue) :
    SortedMap String DynamicValue × SortedMap String DynamicValue :=
  (object.restrict fun name => doc.fields.contains name,
    object.restrict fun name => !doc.fields.contains name)

section

variable {σ : Type} [LawfulStorage σ]

/-- One name of the field vocabulary, on an engine whose reads answer. -/
def fieldName (store : σ) (id : UInt16) : Option String :=
  match VocabCache.nameFor .u16 { faces := fieldVocab } store doc.header id.toNat with
  | (.ok name, _) => name
  | (.error _, _) => none

/-- `slot1_map`. -/
def slot1Map (store : σ) (key : K) : Except Error (Option (SortedMap String DynamicValue)) := do
  match ← VirtualStorage.get store (doc.fieldsKey key) with
  | none => .ok none
  | some raw =>
    let frames := decodeNamed (doc.fieldName store) raw
    if frames = [] then .ok none
    else
      .ok (some (frames.foldl (fun out f =>
        match doc.fieldName store f.id with
        | some name => out.insert name f.value
        | none => out) SortedMap.empty))

/-- One name interned in the field vocabulary, by the cache the call keeps. -/
def fieldId (name : String) : Verb (VocabCache × BatchStore σ) UInt16 := fun (cache, view) =>
  match VocabCache.idFor .u16 cache view doc.header name with
  | (.error e, cache, view) => (.error e, cache, view)
  | (.ok id, cache, view) => (.ok (UInt16.ofNat id), cache, view)

/-- The frames of a segment, the cache dropped at the end. -/
def segmentBytes (variants : SortedMap String DynamicValue) : Verb (BatchStore σ) Bytes :=
  fun view =>
    match putFramesNamed doc.fieldId variants.entries ({ faces := fieldVocab }, view) with
    | (body, _, view) => (body, view)

/-- `slot1_into`: an empty map removes the entry. -/
def slot1Into (key : K) (variants : SortedMap String DynamicValue) : Verb (BatchStore σ) Unit := do
  let body ← doc.segmentBytes variants
  if body = [] then dropKey (doc.fieldsKey key) else writeKey (doc.fieldsKey key) body

/-- The row a `merge` of declared names writes, and the row it replaces. -/
def mergedRow (store : σ) (key : K) (typed : SortedMap String DynamicValue) :
    Except Error (R × Option R) := do
  let prev ← doc.get store key
  let merged := ((prev.map doc.toMap).getD SortedMap.empty).extend typed
  let document ← doc.tryFromMap merged
  .ok (document, prev)

/-- The declared half of `merge`. -/
def mergeTyped (key : K) (typed : SortedMap String DynamicValue) : Verb (BatchStore σ) Unit :=
  if typed.entries = [] then pure ()
  else do
    let (document, prev) ← peekStore fun store => doc.mergedRow store key typed
    doc.saveWithPrevInto key document prev

/-- The dynamic half of `merge`. -/
def mergeDynamic (key : K) (dynamic : SortedMap String DynamicValue) :
    Verb (BatchStore σ) Unit :=
  if dynamic.entries = [] then pure ()
  else do
    let stored ← peekStore fun store => doc.slot1Map store key
    doc.slot1Into key ((stored.getD SortedMap.empty).extend dynamic)

def mergeInto (key : K) (object : SortedMap String DynamicValue) : Verb (BatchStore σ) Unit := do
  doc.mergeTyped key (doc.splitNames object).1
  doc.mergeDynamic key (doc.splitNames object).2

def merge (store : σ) (key : K) (object : SortedMap String DynamicValue) : Except Error Unit × σ :=
  commitWrites store (doc.mergeInto key object)

/-- The row a `replace` writes, and the row it replaces. -/
def replacedRow (store : σ) (key : K) (typed : SortedMap String DynamicValue) :
    Except Error (R × Option R) := do
  let prev ← doc.get store key
  let document ← doc.tryFromMap typed
  .ok (document, prev)

/-- The declared half of `replace`: no declared name deletes the row. -/
def replaceTyped (key : K) (typed : SortedMap String DynamicValue) : Verb (BatchStore σ) Unit :=
  if typed.entries = [] then do
    let prev ← peekStore fun store => doc.get store key
    doc.deletePrev key prev
  else do
    let (document, prev) ← peekStore fun store => doc.replacedRow store key typed
    doc.saveWithPrevInto key document prev

def replaceInto (key : K) (object : SortedMap String DynamicValue) : Verb (BatchStore σ) Unit := do
  doc.replaceTyped key (doc.splitNames object).1
  doc.slot1Into key (doc.splitNames object).2

def replace (store : σ) (key : K) (object : SortedMap String DynamicValue) :
    Except Error Unit × σ :=
  commitWrites store (doc.replaceInto key object)

end

end Document

end Okm.Model
