import Okm.Dynamic.Plan

/-!
# The runtime table over its store

The model of the whole-document verbs of `collection.rs`: each reads what its plan needs, the
row, the segment, the accumulators and the vocabulary, and replays the plan as one commit. A
verb that is refused has written nothing.
-/

namespace Okm.Dynamic

open Lib Model VirtualStorage

variable {σ : Type} [VirtualStorage σ]

/-- `resolve_vocab_labels`, field by field: the bytes of a known id become its label. -/
def resolveVocabLabel (store : σ) (ns : Bytes) (values : ValueMap) (f : FieldSchema) :
    Plan ValueMap :=
  match f.ty, values.get f.name with
  | .vocab idSlot, some (.bytes raw) =>
    match writeSlot ns idSlot with
    | .error _ => abort .assertion
    | .ok face =>
      Guarded.lift ((get store (face ++ raw)).mapError .engine) >>= fun found =>
        answer ((found.bind strOfBytes).elim values fun label => values.insert f.name (.str label))
  | _, _ => answer values

namespace DynamicCollection

variable (t : DynamicCollection)

/-- `stored_document`. -/
def storedDocument (store : σ) (pkey : Bytes) : Plan (Option ValueMap) :=
  Guarded.lift (t.checkKey pkey) >>= fun _ =>
    Guarded.lift ((get store (t.primaryKey pkey)).mapError .engine) >>= fun found =>
      match found with
      | none => answer none
      | some payload =>
        (decodePayload t.schema.toCollectionSchema payload).mapRefuse .codec >>= fun values =>
          t.schema.hotFields.foldlM (resolveVocabLabel store t.ns) values >>= fun values =>
            answer (some values)

/-- `dynamic_map`. -/
def dynamicMap (store : σ) (pkey : Bytes) : Plan (Option ValueMap) :=
  Guarded.lift ((get store (fieldsKey t.ns pkey)).mapError .engine) >>= fun found =>
    match found with
    | none => answer none
    | some raw =>
      Guarded.lift ((VocabMirror.load store t.ns).mapError .engine) >>= fun vocab =>
        answer (some (fieldsFromFrames raw vocab))

/-- `fetch`: a name of both halves is the segment's. -/
def fetch (store : σ) (pkey : Bytes) : Plan (Option ValueMap) :=
  t.storedDocument store pkey >>= fun row =>
    t.dynamicMap store pkey >>= fun dynamic =>
      if row.isNone ∧ dynamic.isNone then answer none
      else answer (some ((row.getD SortedMap.empty).extend (dynamic.getD SortedMap.empty)))

/-- The accumulators as the store has them. -/
def accsOf (store : σ) : AccOf := fun ek => (get store ek).mapError .engine

/-- `replay`: one commit, or none for an empty plan. -/
def replay (store : σ) (ops : List (Op Bytes Bytes)) : Plan Unit × σ :=
  if ops = [] then (answer (), store)
  else
    match commitBatch store ⟨ops⟩ with
    | (.ok (), store) => (answer (), store)
    | (.error e, store) => (refuse (.writeFailed e), store)

/-- Replay what a plan comes to. -/
def replayPlan (store : σ) (plan : Plan PlannedWrite) : Plan Unit × σ :=
  match plan with
  | .answer plan => replay store plan.ops
  | .refuse e => (.refuse e, store)
  | .abort f => (.abort f, store)

/-- The mirror of a write, if it needs one. -/
def loadMirror (store : σ) (needed : Bool) : Plan VocabMirror :=
  if needed then Guarded.lift ((VocabMirror.load store t.ns).mapError .engine) else answer {}

/-- What `merge` plans. -/
def mergePlan (store : σ) (pkey : Bytes) (object : ValueMap) : Plan PlannedWrite :=
  let declared := (t.splitNames object).1
  let dynamic := (t.splitNames object).2
  (if declared.entries = [] then answer none else t.storedDocument store pkey) >>= fun oldRow =>
    (if dynamic.entries = [] then answer none else t.dynamicMap store pkey) >>= fun oldDynamic =>
      t.loadMirror store (dynamic.entries ≠ []) >>= fun vocab =>
        (t.planMerge pkey declared dynamic ⟨oldRow, oldDynamic⟩ (accsOf store) vocab).1

/-- `merge`. -/
def merge (store : σ) (pkey : Bytes) (object : ValueMap) : Plan Unit × σ :=
  replayPlan store (t.mergePlan store pkey object)

/-- What `replace` plans. -/
def replacePlan (store : σ) (pkey : Bytes) (object : ValueMap) : Plan PlannedWrite :=
  t.storedDocument store pkey >>= fun oldRow =>
    (if t.hasPathIndex then t.dynamicMap store pkey else answer none) >>= fun oldDynamic =>
      let declared := (t.splitNames object).1
      let dynamic := (t.splitNames object).2
      t.loadMirror store (dynamic.entries ≠ [] || oldDynamic.isSome) >>= fun vocab =>
        (t.planReplace pkey declared dynamic ⟨oldRow, oldDynamic⟩ (accsOf store) vocab).1

/-- `replace`. -/
def replace (store : σ) (pkey : Bytes) (object : ValueMap) : Plan Unit × σ :=
  replayPlan store (t.replacePlan store pkey object)

/-- What `purge` plans; `none` where there is nothing to remove. -/
def purgePlan (store : σ) (pkey : Bytes) : Plan (Option PlannedWrite) :=
  t.storedDocument store pkey >>= fun oldRow =>
    t.dynamicMap store pkey >>= fun oldDynamic =>
      if oldRow.isNone ∧ oldDynamic.isNone then answer none
      else t.planPurge pkey ⟨oldRow, oldDynamic⟩ (accsOf store) >>= fun plan => answer (some plan)

/-- `purge`: whether there was something to remove. -/
def purge (store : σ) (pkey : Bytes) : Plan Bool × σ :=
  match t.purgePlan store pkey with
  | .answer none => (.answer false, store)
  | .answer (some plan) =>
    let (verdict, store) := replay store plan.ops
    (verdict >>= fun _ => answer true, store)
  | .refuse e => (.refuse e, store)
  | .abort f => (.abort f, store)

end DynamicCollection

end Okm.Dynamic
