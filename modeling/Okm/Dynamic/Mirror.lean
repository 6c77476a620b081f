import Okm.Dynamic.Codec
import Okm.Lib.Bindings
import Okm.Model.DocumentScan
import Okm.Model.FrameGrowth

/-!
# The dynamic segment planned over a mirror

The model of `plan_fields.rs`: a caller without an engine keeps both directions of the field
vocabulary in a mirror, plans a segment's write over it, and ships the operations. What a plan
allocates rides in front of the entry: both directions of each new name, then the cursor.

A mirror denotes a list of labels as the store's faces do, and names a plan did not get to
publish stand at the end of it (`Reflects`).
-/

namespace Okm.Dynamic

open Lib Model VirtualStorage

/-! ## The mirror -/

/-- The field-name vocabulary in the hands of a caller: an id is the number it is, below
`2 ^ 16`. `written` holds what the current plan allocated. -/
structure VocabMirror where
  byName : SortedMap String Nat := SortedMap.empty
  byId : SortedMap Nat String := SortedMap.empty
  nextId : Nat := 0
  written : List (String × Nat) := []

/-- The refusal of a full vocabulary. -/
def exhausted : Error :=
  .engine "vocabulary exhausted: field names fill a 2-byte id (ADR-0032); this name does not fit — model the value as a String field instead"

/-- `claim_id`: the next id and the watermark behind it, or the refusal. -/
def claimId (nextId : Nat) : Except Error (Nat × Nat) :=
  if nextId + 1 < 2 ^ 16 then .ok (nextId, nextId + 1) else .error exhausted

/-- `saturating_add(1)` where the id is not below the watermark. -/
def raised (nextId id : Nat) : Nat := if nextId ≤ id then min (id + 1) 0xFFFF else nextId

namespace VocabMirror

/-- One entry of the id face. -/
def enterName (d : VocabMirror) (entry : Bytes × Bytes) : VocabMirror :=
  match VocabId.u16.fromBe entry.1, strOfBytes entry.2 with
  | some id, some name => { d with byId := d.byId.insert id name }
  | _, _ => d

/-- One entry of the name face. -/
def enterId (d : VocabMirror) (entry : Bytes × Bytes) : VocabMirror :=
  match strOfBytes entry.1, VocabId.u16.fromBe entry.2 with
  | some name, some id => { d with
      byName := d.byName.insert name id
      nextId := raised d.nextId id }
  | _, _ => d

/-- `VocabMirror::load`. -/
def load {σ : Type} [VirtualStorage σ] (store : σ) (ns : Bytes) : Except Error VocabMirror := do
  let names ← VocabCache.scanSuffixKv store (faceKey ns fieldVocabIdSlot [])
  let d := names.foldl enterName {}
  let ids ← VocabCache.scanSuffixKv store (faceKey ns fieldVocabNameSlot [])
  let d := ids.foldl enterId d
  let raw ← get store (VocabCache.cursorKey fieldVocab ns)
  match raw.bind VocabId.u16.fromBe with
  | some cursor => .ok { d with nextId := max d.nextId cursor }
  | none => .ok d

/-- A name claimed. -/
def claimed (d : VocabMirror) (name : String) (id next : Nat) : VocabMirror where
  byName := d.byName.insert name id
  byId := d.byId.insert id name
  nextId := next
  written := d.written ++ [(name, id)]

/-- `adopt`: fold a plan's receipt in. -/
def adopt (d : VocabMirror) (entries : List (String × Nat)) : VocabMirror :=
  entries.foldl (fun d e => { d with
    byName := d.byName.insert e.1 e.2
    byId := d.byId.insert e.2 e.1
    nextId := raised d.nextId e.2 }) d

/-- `name_for`. -/
def nameFor (d : VocabMirror) (id : UInt16) : Option String := d.byId.get id.toNat

end VocabMirror

/-! ## Values -/

mutual

/-- `value_to_dyn_value`: every width of unsigned number is one kind there. -/
def valueToDynValue : Value → DynamicValue
  | .u8 x => .uint x.toUInt64
  | .u16 x => .uint x.toUInt64
  | .u32 x => .uint x.toUInt64
  | .u64 x => .uint x
  | .i64 x => .int x
  | .f64 bits => .f64 bits
  | .bool b => .bool b
  | .str s => .str s
  | .bytes b => .bytes b
  | .null => .null
  | .obj fields => .obj (fieldsToDyn fields)
  | .array items => .array (itemsToDyn items)

def fieldsToDyn : List (String × Value) → List (String × DynamicValue)
  | [] => []
  | (name, v) :: rest => (name, valueToDynValue v) :: fieldsToDyn rest

def itemsToDyn : List Value → List DynamicValue
  | [] => []
  | v :: rest => valueToDynValue v :: itemsToDyn rest

end

mutual

/-- `dyn_value_to_value`. -/
def dynValueToValue : DynamicValue → Value
  | .uint x => .u64 x
  | .int x => .i64 x
  | .f64 bits => .f64 bits
  | .str s => .str s
  | .bytes b => .bytes b
  | .bool b => .bool b
  | .null => .null
  | .obj fields => .obj (fieldsToValue fields)
  | .array items => .array (itemsToValue items)

def fieldsToValue : List (String × DynamicValue) → List (String × Value)
  | [] => []
  | (name, v) :: rest => (name, dynValueToValue v) :: fieldsToValue rest

def itemsToValue : List DynamicValue → List Value
  | [] => []
  | v :: rest => dynValueToValue v :: itemsToValue rest

end

/-! ## Plans -/

/-- `fields_key`. -/
def fieldsKey (ns pkey : Bytes) : Bytes := faceKey ns dynamicSlot pkey

/-- One planned write of a segment. -/
structure PlannedFields where
  ops : List (Op Bytes Bytes)
  newVocabEntries : List (String × Nat)

/-- What the resolver of a plan works on: the mirror, and the operations so far. -/
structure Growth where
  mirror : VocabMirror
  ops : List (Op Bytes Bytes) := []

/-- Both directions of a new name. -/
def nameOps (ns : Bytes) (e : String × Nat) : List (Op Bytes Bytes) :=
  [(VocabCache.idKey fieldVocab .u16 ns e.2, some (strBytes e.1)),
    (VocabCache.nameKey fieldVocab ns e.1, some (VocabId.u16.toBe e.2))]

/-- The resolver of a plan. -/
def resolveGrowing (ns : Bytes) (name : String) : Run Error Growth UInt16 := fun g =>
  match g.mirror.byName.get name with
  | some id => (.ok (UInt16.ofNat id), g)
  | none =>
    match claimId g.mirror.nextId with
    | .error e => (.error e, g)
    | .ok (id, next) => (.ok (UInt16.ofNat id),
        ⟨g.mirror.claimed name id next, g.ops ++ nameOps ns (name, id)⟩)

/-- The named values a segment is written from. -/
def dynFields (fields : ValueMap) : List (String × DynamicValue) :=
  fields.entries.map fun e => (e.1, valueToDynValue e.2)

/-- `plan_put_fields`, and the mirror as the plan leaves it. -/
def planPutFields (ns pkey : Bytes) (fields : ValueMap) (vocab : VocabMirror) :
    Except Error PlannedFields × VocabMirror :=
  match (putFramesNamed (resolveGrowing ns) (dynFields fields)) ⟨vocab, []⟩ with
  | (.error e, g) => (.error e, g.mirror)
  | (.ok body, g) =>
    let cursor := if g.mirror.written = [] then []
      else [(VocabCache.cursorKey fieldVocab ns, some (VocabId.u16.toBe g.mirror.nextId))]
    let entry := if body = [] then none else some body
    (.ok ⟨g.ops ++ cursor ++ [(fieldsKey ns pkey, entry)], g.mirror.written⟩,
      { g.mirror with written := [] })

/-- `plan_delete_fields`. -/
def planDeleteFields (ns pkey : Bytes) : PlannedFields := ⟨[(fieldsKey ns pkey, none)], []⟩

/-- `fields_from_frames`: a frame without a name in the mirror is dropped. -/
def fieldsFromFrames (raw : Bytes) (vocab : VocabMirror) : ValueMap :=
  (decodeNamed vocab.nameFor raw).foldl (fun out f =>
    match vocab.nameFor f.id with
    | none => out
    | some name => out.insert name (dynValueToValue f.value)) SortedMap.empty

end Okm.Dynamic
