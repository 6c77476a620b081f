import Okm.Dynamic.AccessMethod
import Okm.Dynamic.DecodeEnds
import Okm.Dynamic.Mirror
import Okm.Model.KeyAddress

/-!
# Writes of a runtime table, planned

The model of `plan.rs`, of `reduce.rs`, of the path entries of `index.rs` and of
`Path::resolve`. A plan expands one write into the operations it is made of, over state the
caller holds: the stored document, the accumulators, the vocabulary mirror. No engine is
touched; what an operation would read back within the plan, the overlay answers.

The callables of a table are parameters, and so are their refusals. An accumulator is the
bytes they make of it.
-/

namespace Okm.Dynamic

open Lib Model VirtualStorage

export Guarded (answer refuse abort)

/-! ## Errors -/

/-- What a reduce's logic refuses with: a host's own text, or one of the presets'. -/
inductive LogicError where
  | host (text : String)
  | notU64 (field : String) (found : Value)
  | missing (field : String)

/-- The texts of `plan.rs`, `reduce.rs` and `collection.rs`, as the data they are made of. -/
inductive TableError where
  | keyWidth (got declares : Nat)
  | undeclared (name : String)
  | index (e : IndexError)
  | codec (e : CodecError)
  | fields (e : Error)
  | engine (e : Error)
  | writeFailed (e : Error)
  | groupUnknown (name : String)
  | groupMissing (name : String) (fromKey : Bool)
  | groupKind (name : String)
  | logic (e : LogicError)

abbrev Plan := Guarded Abort TableError

/-! ## Reduces -/

/-- The logic of a reduce, the host's own: an accumulator, the decoded key, the document. -/
structure ReduceLogic where
  seed : Bytes
  fold : Bytes → ValueMap → ValueMap → Guarded Abort LogicError Bytes
  unfold : Bytes → ValueMap → ValueMap → Guarded Abort LogicError Bytes

/-- `PresetKind`. -/
inductive PresetKind where
  | count
  | highWater (field : String)
  | lowWater (field : String)

/-- The number of an accumulator; one that is no eight bytes reads as zero. -/
def accNumber (acc : Bytes) : Nat := if acc.length = 8 then beNat acc else 0

/-- `field_u64`. -/
def fieldU64 (document : ValueMap) (field : String) : Except LogicError Nat :=
  match document.get field with
  | some (.u64 v) => .ok v.toNat
  | some other => .error (.notU64 field other)
  | none => .error (.missing field)

/-- `PresetLogic`: a count goes down on unfold, down to zero; a watermark never falls. -/
def PresetKind.logic (preset : PresetKind) : ReduceLogic where
  seed :=
    match preset with
    | .lowWater _ => beBytes 8 (2 ^ 64 - 1)
    | _ => beBytes 8 0
  fold acc _ document :=
    match preset with
    | .count => if accNumber acc + 1 < 2 ^ 64 then answer (beBytes 8 (accNumber acc + 1))
        else abort .overflow
    | .highWater field => Guarded.lift (fieldU64 document field) >>= fun v =>
        answer (beBytes 8 (max (accNumber acc) v))
    | .lowWater field => Guarded.lift (fieldU64 document field) >>= fun v =>
        answer (beBytes 8 (min (accNumber acc) v))
  unfold acc _ _ :=
    match preset with
    | .count => answer (beBytes 8 (accNumber acc - 1))
    | _ => answer acc

/-- A declared reduce. -/
structure BoundReduce where
  slot : Slot
  groupFields : List String
  logic : ReduceLogic

/-- A payload field of the name, a hot one first. -/
def findPayload (schema : CollectionSchema) (name : String) : Option FieldSchema :=
  (schema.hotFields ++ schema.coldFields).find? fun f => f.name = name

/-- The bytes of one group field; a name of both sources is the key's. -/
def groupField (schema : CollectionSchema) (key document : ValueMap) (name : String) :
    Except TableError Bytes :=
  let fromKey := isKeyField schema name
  match (if fromKey then schema.keyFields.find? fun f => f.name = name
      else findPayload schema name) with
  | none => .error (.groupUnknown name)
  | some f =>
    match (if fromKey then key else document).get name with
    | none => .error (.groupMissing name fromKey)
    | some v =>
      match f.ty, v with
      | .u8, .u8 n => .ok [n]
      | .u16, .u16 n => .ok (beBytes 2 n.toNat)
      | .u32, .u32 n => .ok (beBytes 4 n.toNat)
      | .u64, .u64 n => .ok (beBytes 8 n.toNat)
      | .fixedBytes, .bytes b => .ok b
      | _, _ => .error (.groupKind name)

/-- The group fields, one behind the other. -/
def groupFieldsBytes (schema : CollectionSchema) (key document : ValueMap) :
    List String → Except TableError Bytes
  | [] => .ok []
  | name :: names =>
    groupField schema key document name >>= fun bytes =>
      (groupFieldsBytes schema key document names).map (bytes ++ ·)

namespace BoundReduce

/-- `group_bytes`. -/
def groupBytes (r : BoundReduce) (schema : CollectionSchema) (key document : ValueMap) :
    Except TableError Bytes := groupFieldsBytes schema key document r.groupFields

/-- `entry_key`. -/
def entryKey (r : BoundReduce) (schema : CollectionSchema) (ns : Bytes)
    (key document : ValueMap) : Except TableError Bytes :=
  (r.groupBytes schema key document).map (faceKey ns r.slot)

end BoundReduce

/-! ## Paths -/

/-- The name a component looks up in a map; a position finds nothing there. -/
def componentName : Model.Component → Option String
  | .field name => some name
  | .key bytes => strOfBytes bytes
  | .index _ => none

mutual

/-- `flatten_scalars`: the leaves of an array that are no objects, in order. -/
def flattenScalars : Value → List Value
  | .array items => flattenItems items
  | .obj _ => []
  | other => [other]

def flattenItems : List Value → List Value
  | [] => []
  | v :: rest => flattenScalars v ++ flattenItems rest

end

mutual

/-- `walk_value`. -/
def walkValue : Value → List Model.Component → List Value
  | .obj fields, comps =>
    match comps with
    | [] => []
    | head :: rest => (componentName head).elim [] fun name => walkFields fields name rest
  | .array items, comps =>
    match comps with
    | [] => flattenItems items
    | .index i :: rest => walkPinned items i.toNat rest
    | _ => walkItems items comps
  | other, comps => if comps = [] then [other] else []

/-- The field of the name, then the rest of the path. -/
def walkFields : List (String × Value) → String → List Model.Component → List Value
  | [], _, _ => []
  | (n, v) :: more, name, comps => if n = name then walkValue v comps else walkFields more name comps

/-- The pinned element. -/
def walkPinned : List Value → Nat → List Model.Component → List Value
  | [], _, _ => []
  | v :: _, 0, comps => walkValue v comps
  | _ :: rest, i + 1, comps => walkPinned rest i comps

/-- Every element, with the same path. -/
def walkItems : List Value → List Model.Component → List Value
  | [], _ => []
  | v :: rest, comps => walkValue v comps ++ walkItems rest comps

end

/-- `Path::resolve` over a document. -/
def resolvePath (path : List Model.Component) (document : ValueMap) : List Value :=
  walkValue (.obj document.entries) path

/-- The unsigned number of a value, whatever its width. -/
def unsignedOf : Value → Option Nat
  | .u8 n => some n.toNat
  | .u16 n => some n.toNat
  | .u32 n => some n.toNat
  | .u64 n => some n.toNat
  | _ => none

/-- A number in its width, if it fits there. -/
def narrowed (width n : Nat) : Option Bytes := if n < 256 ^ width then some (beBytes width n) else none

/-- `encode_index_value`: the segment of a resolved value, if the declared type takes it. -/
def encodeIndexValue (ty : PathType) (v : Value) : Option Bytes :=
  match ty, v with
  | .u8, v => (unsignedOf v).bind (narrowed 1)
  | .u16, v => (unsignedOf v).bind (narrowed 2)
  | .u32, v => (unsignedOf v).bind (narrowed 4)
  | .u64, v => (unsignedOf v).bind (narrowed 8)
  | .str, .str s => some (strBytes s)
  | .fixedBytes, .bytes b => some b
  | _, _ => none

/-- The segments of a document under one path method. -/
def pathSegments (index : Access) (document : ValueMap) : List Bytes :=
  match index.kind with
  | .path path ty => (resolvePath path document).filterMap (encodeIndexValue ty)
  | _ => []

/-- `path_index_entries`. -/
def pathIndexEntries (ns : Bytes) (indexes : List Access) (pkey : Bytes) (document : ValueMap) :
    List (Bytes × Bytes) :=
  indexes.flatMap fun index => (pathSegments index document).map fun segment =>
    (accessFace ns index ++ (segment ++ pkey), [])

def isPath (index : Access) : Bool :=
  match index.kind with
  | .path _ _ => true
  | _ => false

/-! ## The table -/

/-- A runtime table without its store: the access methods and reduces live in counting slots,
no two in one. -/
structure DynamicCollection where
  table : DeclaredTable
  ns : Bytes
  indexes : List Access
  reduces : List BoundReduce
  indexSlots : ∀ index ∈ indexes, 0x1000 ≤ index.slot.toNat
  reduceSlots : ∀ r ∈ reduces, 0x1000 ≤ r.slot.val
  apart : (indexes.map (fun index => index.slot.toNat) ++ reduces.map fun r => r.slot.val).Nodup

/-- One planned write: operations, accumulators and vocabulary growth. -/
structure PlannedWrite where
  ops : List (Op Bytes Bytes) := []
  newAccs : List (Bytes × Bytes) := []
  newVocabEntries : List (String × Nat) := []

/-- The stored halves of a document. -/
structure Stored where
  row : Option ValueMap := none
  dynamic : Option ValueMap := none

/-- The current accumulator of a group. -/
abbrev AccOf := Bytes → Except TableError (Option Bytes)

/-- What a plan's reduces have come to: operations, receipts, and the overlay. -/
structure Reducing where
  ops : List (Op Bytes Bytes) := []
  newAccs : List (Bytes × Bytes) := []
  written : SortedMap Bytes Bytes := SortedMap.empty

namespace DynamicCollection

variable (t : DynamicCollection)

def schema : ExportedSchema := t.table.schema

def primaryKey (pkey : Bytes) : Bytes := faceKey t.ns primarySlot pkey

/-- `check_key`. -/
def checkKey (pkey : Bytes) : Except TableError Unit :=
  if pkey.length ≠ t.schema.keyLen then .error (.keyWidth pkey.length t.schema.keyLen) else .ok ()

/-- `is_payload_field`. -/
def isPayloadField (name : String) : Bool :=
  (t.schema.hotFields ++ t.schema.coldFields).any fun f => f.name = name

/-- `is_declared`. -/
def isDeclared (name : String) : Bool :=
  (t.schema.keyFields ++ t.schema.hotFields ++ t.schema.coldFields).any fun f => f.name = name

/-- `check_declared`: the first name that is not. -/
def checkDeclared (document : ValueMap) : Except TableError Unit :=
  match document.entries.find? fun e => !t.isDeclared e.1 with
  | some e => .error (.undeclared e.1)
  | none => .ok ()

/-- `split_names`. -/
def splitNames (object : ValueMap) : ValueMap × ValueMap :=
  (object.restrict t.isPayloadField, object.restrict fun name => !t.isPayloadField name)

/-- `row_base`. -/
def rowBase (pkey : Bytes) (carried : List ValueMap) : Plan ValueMap :=
  (decodeKey t.schema.toCollectionSchema pkey).mapRefuse .codec >>= fun key =>
    answer (fillSchemaDefaults t.schema.toCollectionSchema
      ((carried.foldl SortedMap.extend SortedMap.empty).extend key))

/-- `has_path_index`. -/
def hasPathIndex : Bool := t.indexes.any isPath

/-- `path_entry_ops`. -/
def pathEntryOps (pkey : Bytes) (fields : ValueMap) (write : Bool) : List (Op Bytes Bytes) :=
  if t.hasPathIndex then
    (pathIndexEntries t.ns t.indexes pkey fields).map fun e => (e.1, if write then some e.2 else none)
  else []

/-- `index_entries` of this table. -/
def entriesOf (pkey : Bytes) (document : ValueMap) : Except TableError (List (Bytes × Bytes)) :=
  (indexEntries t.schema.toCollectionSchema t.ns t.indexes pkey document).mapError .index

/-- The loop of `plan_reduces`: to fold, a group that has no entry is seeded; to unfold, it
ends the loop. -/
def reduceLoop (accOf : AccOf) (key document : ValueMap) (add : Bool) :
    List BoundReduce → Reducing → Plan Reducing
  | [], st => answer st
  | r :: rest, st =>
    Guarded.lift (r.entryKey t.schema.toCollectionSchema t.ns key document) >>= fun ek =>
      Guarded.lift ((st.written.get ek).elim (accOf ek) fun acc => .ok (some acc)) >>= fun found =>
        if found = none ∧ add = false then answer st
        else
          let acc := found.getD r.logic.seed
          ((if add then r.logic.fold acc key document
            else r.logic.unfold acc key document).mapRefuse .logic) >>= fun acc =>
              reduceLoop accOf key document add rest {
                ops := st.ops ++ [(ek, some acc)]
                newAccs := st.newAccs ++ [(ek, acc)]
                written := st.written.insert ek acc }

/-- `plan_reduces`. -/
def planReduces (accOf : AccOf) (pkey : Bytes) (document : ValueMap) (add : Bool) (st : Reducing) :
    Plan Reducing :=
  (decodeKey t.schema.toCollectionSchema pkey).mapRefuse .codec >>= fun key =>
    t.reduceLoop accOf key document add t.reduces st

/-- The old document leaves its faces and its groups. -/
def planSweep (accOf : AccOf) (pkey : Bytes) (old : ValueMap) (st : Reducing) : Plan Reducing :=
  Guarded.lift (t.entriesOf pkey old) >>= fun entries =>
    t.planReduces accOf pkey old false
      { st with ops := st.ops ++ entries.map fun e => (e.1, none) }

/-- `plan_put`. -/
def planPut (pkey : Bytes) (document : ValueMap) (old : Option ValueMap) (accOf : AccOf) :
    Plan PlannedWrite :=
  Guarded.lift (t.checkKey pkey) >>= fun _ =>
    Guarded.lift (t.checkDeclared document) >>= fun _ =>
      old.elim (answer {}) (fun old => t.planSweep accOf pkey old {}) >>= fun st =>
        Guarded.lift (t.entriesOf pkey document) >>= fun entries =>
          (encodePayload t.schema document).mapRefuse .codec >>= fun payload =>
            t.planReduces accOf pkey document true st >>= fun st =>
              answer {
                ops := st.ops ++ [(t.primaryKey pkey, some payload)]
                  ++ entries.map fun e => (e.1, some e.2)
                newAccs := st.newAccs }

/-- `plan_delete`. -/
def planDelete (pkey : Bytes) (old : ValueMap) (accOf : AccOf) : Plan PlannedWrite :=
  Guarded.lift (t.checkKey pkey) >>= fun _ =>
    t.planSweep accOf pkey old {} >>= fun st =>
      answer { ops := st.ops ++ [(t.primaryKey pkey, none)], newAccs := st.newAccs }

/-- `plan_dynamic`: the segment's entry and its growth, then the path entries, old before new. -/
def planDynamic (pkey : Bytes) (old : Option ValueMap) (new : ValueMap) (vocab : VocabMirror)
    (plan : PlannedWrite) : Plan PlannedWrite × VocabMirror :=
  match planPutFields t.ns pkey new vocab with
  | (.error e, vocab) => (refuse (.fields e), vocab)
  | (.ok fields, vocab) => (answer { plan with
      ops := plan.ops ++ fields.ops ++ old.elim [] (fun old => t.pathEntryOps pkey old false)
        ++ t.pathEntryOps pkey new true
      newVocabEntries := fields.newVocabEntries }, vocab)

/-- A segment's arm behind a row's arm. -/
def withDynamic (row : Plan PlannedWrite) (vocab : VocabMirror)
    (arm : PlannedWrite → Plan PlannedWrite × VocabMirror) : Plan PlannedWrite × VocabMirror :=
  match row with
  | .answer plan => arm plan
  | .refuse e => (.refuse e, vocab)
  | .abort f => (.abort f, vocab)

/-- The row arm of `plan_merge`. -/
def mergeRow (pkey : Bytes) (declared : ValueMap) (stored : Stored) (accOf : AccOf) :
    Plan PlannedWrite :=
  Guarded.lift (t.checkKey pkey) >>= fun _ =>
    if declared.entries = [] then answer {}
    else t.rowBase pkey (stored.row.toList ++ [declared]) >>= fun row =>
      t.planPut pkey row stored.row accOf

/-- `plan_merge`. -/
def planMerge (pkey : Bytes) (declared dynamic : ValueMap) (stored : Stored) (accOf : AccOf)
    (vocab : VocabMirror) : Plan PlannedWrite × VocabMirror :=
  withDynamic (t.mergeRow pkey declared stored accOf) vocab fun plan =>
    if dynamic.entries = [] then (answer plan, vocab)
    else t.planDynamic pkey stored.dynamic
      ((stored.dynamic.getD SortedMap.empty).extend dynamic) vocab plan

/-- The row arm of `plan_replace`. -/
def replaceRow (pkey : Bytes) (declared : ValueMap) (stored : Stored) (accOf : AccOf) :
    Plan PlannedWrite :=
  Guarded.lift (t.checkKey pkey) >>= fun _ =>
    if declared.entries = [] then
      stored.row.elim (answer {}) fun old => t.planDelete pkey old accOf
    else t.rowBase pkey [declared] >>= fun row => t.planPut pkey row stored.row accOf

/-- `plan_replace`. -/
def planReplace (pkey : Bytes) (declared dynamic : ValueMap) (stored : Stored) (accOf : AccOf)
    (vocab : VocabMirror) : Plan PlannedWrite × VocabMirror :=
  withDynamic (t.replaceRow pkey declared stored accOf) vocab fun plan =>
    t.planDynamic pkey stored.dynamic dynamic vocab plan

/-- `plan_purge`. -/
def planPurge (pkey : Bytes) (stored : Stored) (accOf : AccOf) : Plan PlannedWrite :=
  Guarded.lift (t.checkKey pkey) >>= fun _ =>
    stored.row.elim (answer {}) (fun old => t.planDelete pkey old accOf) >>= fun plan =>
      answer { plan with
        ops := plan.ops ++ stored.dynamic.elim [] fun old =>
          t.pathEntryOps pkey old false ++ [(fieldsKey t.ns pkey, none)] }

end DynamicCollection

end Okm.Dynamic
