import Okm.Dynamic.Codec
import Okm.Model.RuntimeFaces
import Okm.Model.Vocab

/-!
# Access methods of a runtime table

The model of `index.rs`: the entries a document has under an access method, and the scans
that find documents by them. An entry's key is the table's prefix, the slot, the field
segment and the key of its row; its value is the segment of the included fields. Neither
segment holds a length: fixed fields have their width, and a text may come last.

A scan splices the probe behind the slot and tells by what is left of a key whether the
probe was the segment's or ran into the key of the row.
-/

namespace Okm.Dynamic

open Lib Model VirtualStorage
open Guarded (answer refuse abort)

/-! ## Errors -/

/-- Which of the two segments a message speaks of. -/
inductive Role where
  | field
  | included
  deriving DecidableEq

/-- The texts of `index.rs`, as the data they are made of. -/
inductive IndexError where
  | notInSchema (name : String)
  | variableNotLast (name : String)
  | manyVariable (count : Nat)
  | keyField (role : Role) (name : String)
  | missing (role : Role) (name : String)
  | unknown (role : Role) (name : String)
  | unexpected (want : String) (v : Value)
  | callable (text : String)
  | probeExceeds
  | segmentShort (name : String)
  | invalidUtf8 (name : String)
  | noEncoding (name : String) (ty : FieldType)
  | segmentNeeds (name : String) (length need : Nat)
  | field (name : String) (e : CodecError)
  | leftOver (bytes : Nat) (declares : Nat)
  | key (e : CodecError)
  | engine (e : Error)

/-! ## Field segments -/

/-- An access method with a slot that `write_slot` does not assert on: a fixed face, or one of a
counting family. -/
structure Access extends AccessMethod ValueMap where
  slotWf : slot.toNat ≤ 0x0F ∨ 0x1000 ≤ slot.toNat

def Access.face (index : Access) : Slot :=
  ⟨index.slot.toNat, index.slotWf.imp_right fun h => ⟨h, Nat.le_of_lt_succ index.slot.toNat_lt⟩⟩

/-- A field of the key: no segment takes one. -/
def isKeyField (schema : CollectionSchema) (name : String) : Bool :=
  schema.keyFields.any fun f => f.name = name

/-- The fields of the names, in their order. -/
def resolveFields (schema : CollectionSchema) : List String → Except IndexError (List FieldSchema)
  | [] => .ok []
  | name :: names =>
    match findField schema name with
    | none => .error (.notInSchema name)
    | some f => (resolveFields schema names).map (f :: ·)

/-- The positions of the variable-width fields. -/
def variablePositions (fields : List FieldSchema) : List Nat :=
  (fields.zipIdx.filter fun p => p.1.width = 0).map Prod.snd

/-- At most one variable-width field, and it is the last. -/
def positionsFit (names : List String) : List Nat → Except IndexError Unit
  | [] => .ok ()
  | pos :: rest =>
    if pos ≠ names.length - 1 then .error (.variableNotLast (names.getD pos ""))
    else if rest ≠ [] then .error (.manyVariable (rest.length + 1))
    else .ok ()

/-- `check_field_order`. -/
def checkFieldOrder (schema : CollectionSchema) (names : List String) : Except IndexError Unit :=
  resolveFields schema names >>= fun fields => positionsFit names (variablePositions fields)

/-- The loop of `fields_width`, which a variable-width field ends. -/
def headWidth (schema : CollectionSchema) : List String → Except IndexError Nat
  | [] => .ok 0
  | name :: names =>
    match findField schema name with
    | none => .error (.notInSchema name)
    | some f => if f.width = 0 then .ok 0 else (headWidth schema names).map (f.width + ·)

/-- `fields_width`. -/
def fieldsWidth (schema : CollectionSchema) (index : Access) : Except IndexError Nat :=
  checkFieldOrder schema index.fields >>= fun _ => headWidth schema index.fields

/-- `encode_fixed`. -/
def encodeFixed (ty : FieldType) (v : Value) : Except IndexError Bytes :=
  match ty, v with
  | .u8, .u8 n => .ok [n]
  | .u16, .u16 n => .ok (beBytes 2 n.toNat)
  | .u32, .u32 n => .ok (beBytes 4 n.toNat)
  | .u64, .u64 n => .ok (beBytes 8 n.toNat)
  | .fixedBytes, .bytes b => .ok b
  | _, v => .error (.unexpected "fixed-width" v)

/-- `encode_variable`. -/
def encodeVariable (ty : FieldType) (v : Value) : Except IndexError Bytes :=
  match ty, v with
  | .str, .str s => .ok (strBytes s)
  | _, v => .error (.unexpected "variable-width (Str)" v)

/-- One field of a segment. -/
def segmentField (role : Role) (schema : CollectionSchema) (document : ValueMap) (name : String) :
    Except IndexError Bytes :=
  if isKeyField schema name then .error (.keyField role name)
  else
    match document.get name with
    | none => .error (.missing role name)
    | some v =>
      match findField schema name with
      | none => .error (.unknown role name)
      | some f => if f.width = 0 then encodeVariable f.ty v else encodeFixed f.ty v

/-- The fields of a segment, one behind the other. -/
def segmentFields (role : Role) (schema : CollectionSchema) (document : ValueMap) :
    List String → Except IndexError Bytes
  | [] => .ok []
  | name :: names =>
    segmentField role schema document name >>= fun bytes =>
      (segmentFields role schema document names).map (bytes ++ ·)

/-- `fields_bytes`. -/
def fieldsBytes (schema : CollectionSchema) (index : Access) (document : ValueMap) :
    Except IndexError Bytes :=
  checkFieldOrder schema index.fields >>= fun _ =>
    segmentFields .field schema document index.fields

/-- The includes segment of `index_entries`. -/
def includesBytes (schema : CollectionSchema) (index : Access) (document : ValueMap) :
    Except IndexError Bytes :=
  checkFieldOrder schema index.includes >>= fun _ =>
    segmentFields .included schema document index.includes

/-- A callable's own text. -/
def called {α : Type} (x : Except String α) : Except IndexError α := x.mapError .callable

/-- The predicate of a partial method; path methods have no entries here. -/
def gate (index : Access) (document : ValueMap) : Except IndexError Bool :=
  match index.kind with
  | .partialIf admits => called (admits document)
  | .path _ _ => .ok false
  | _ => .ok true

/-- The field segments of a document: its fields', or those a callable derives. -/
def segments (schema : CollectionSchema) (index : Access) (document : ValueMap) :
    Except IndexError (List Bytes) :=
  match index.kind with
  | .func derive => called (derive document)
  | _ => (fieldsBytes schema index document).map fun segment => [segment]

/-- What the entries of an access method start with. -/
def accessFace (ns : Bytes) (index : Access) : Bytes := ns ++ index.face.bytes

/-- The entries of one method. -/
def methodEntries (schema : CollectionSchema) (ns : Bytes) (index : Access) (pkey : Bytes)
    (document : ValueMap) : Except IndexError (List (Bytes × Bytes)) :=
  gate index document >>= fun admitted =>
    if admitted then
      segments schema index document >>= fun found =>
        (includesBytes schema index document).map fun value =>
          found.map fun segment => (accessFace ns index ++ (segment ++ pkey), value)
    else .ok []

/-- `index_entries`. -/
def indexEntries (schema : CollectionSchema) (ns : Bytes) (indexes : List Access) (pkey : Bytes)
    (document : ValueMap) : Except IndexError (List (Bytes × Bytes)) :=
  match indexes with
  | [] => .ok []
  | index :: indexes =>
    methodEntries schema ns index pkey document >>= fun entries =>
      (indexEntries schema ns indexes pkey document).map (entries ++ ·)

/-! ## Scans -/

abbrev Scan := Guarded Abort IndexError

/-- The declaration's last field is variable-width. -/
def trailingVariable (schema : CollectionSchema) (index : Access) : Bool :=
  (index.fields.getLast?.bind (findField schema)).any fun f => f.width = 0

/-- `entry_scan_prefix`. -/
def entryScanPrefix (schema : CollectionSchema) (ns : Bytes) (index : Access) (probe : Bytes) :
    Except IndexError Bytes :=
  let spliced : Except IndexError Bytes := .ok (accessFace ns index ++ probe)
  match index.kind with
  | .func _ | .path _ _ => spliced
  | _ =>
    fieldsWidth schema index >>= fun head =>
      if head < probe.length ∧ ¬ (trailingVariable schema index ∧ index.fields.length = 1) then
        .error .probeExceeds
      else spliced

/-- The key of a row, the last bytes of what is left of its entry. -/
def tailMap (schema : CollectionSchema) (left : Bytes) : Scan ValueMap :=
  (decodeKey schema (left.drop (left.length - schema.keyLen))).mapRefuse .key

/-- `matched`: what is left behind the probe tells the segment's length. -/
def matched (keyLen : Nat) (exact : Bool) (left : Bytes) : Bool :=
  if exact then left.length = keyLen else keyLen ≤ left.length

section

variable {σ : Type} [VirtualStorage σ]

def filteredLoop (schema : CollectionSchema) (exact : Bool) : List Bytes → Scan (List ValueMap)
  | [] => answer []
  | left :: rest =>
    if matched schema.keyLen exact left then
      tailMap schema left >>= fun key =>
        filteredLoop schema exact rest >>= fun keys => answer (key :: keys)
    else filteredLoop schema exact rest

/-- `scan_access_method_filtered`. -/
def scanAccessMethodFiltered (store : σ) (schema : CollectionSchema) (ns : Bytes) (index : Access)
    (probe : Bytes) (exact : Bool) : Scan (List ValueMap) :=
  Guarded.lift (entryScanPrefix schema ns index probe) >>= fun p =>
    Guarded.lift ((scanSuffix store p).mapError .engine) >>= filteredLoop schema exact

/-- `scan_access_method`. -/
def scanAccessMethod (store : σ) (schema : CollectionSchema) (ns : Bytes) (index : Access)
    (probe : Bytes) : Scan (List ValueMap) :=
  scanAccessMethodFiltered store schema ns index probe false

/-- `scan_access_method_exact`. -/
def scanAccessMethodExact (store : σ) (schema : CollectionSchema) (ns : Bytes) (index : Access)
    (probe : Bytes) : Scan (List ValueMap) :=
  scanAccessMethodFiltered store schema ns index probe true

/-- One name of `decode_includes`: its value and the offset behind it. -/
def decodeInclude (schema : CollectionSchema) (raw : Bytes) (off : Nat) (name : String) :
    Scan (Value × Nat) :=
  if isKeyField schema name then refuse (.keyField .included name)
  else
    match findField schema name with
    | none => refuse (.unknown .included name)
    | some f =>
      if f.width = 0 then
        if raw.length < off then refuse (.segmentShort name)
        else
          match f.ty with
          | .str =>
            match strOfBytes (raw.drop off) with
            | some s => answer (.str s, raw.length)
            | none => refuse (.invalidUtf8 name)
          | other => refuse (.noEncoding name other)
      else if raw.length < off + f.width then
        refuse (.segmentNeeds name raw.length (off + f.width))
      else
        (decodeFixed name f.ty f.width ((raw.take (off + f.width)).drop off)).mapRefuse
            (.field name) >>= fun v => answer (v, off + f.width)

def includesLoop (schema : CollectionSchema) (raw : Bytes) :
    List String → Nat → ValueMap → Scan (Nat × ValueMap)
  | [], off, out => answer (off, out)
  | name :: names, off, out =>
    decodeInclude schema raw off name >>= fun found =>
      includesLoop schema raw names found.2 (out.insert name found.1)

/-- `decode_includes`. -/
def decodeIncludes (schema : CollectionSchema) (index : Access) (raw : Bytes) : Scan ValueMap :=
  includesLoop schema raw index.includes 0 SortedMap.empty >>= fun found =>
    if found.1 ≠ raw.length then
      refuse (.leftOver (raw.length - found.1) index.includes.length)
    else answer found.2

def coveredLoop (schema : CollectionSchema) (index : Access) :
    List (Bytes × Bytes) → Scan (List (ValueMap × ValueMap))
  | [] => answer []
  | (left, value) :: rest =>
    if left.length < schema.keyLen then coveredLoop schema index rest
    else
      tailMap schema left >>= fun key =>
        decodeIncludes schema index value >>= fun covered =>
          coveredLoop schema index rest >>= fun pairs => answer ((key, covered) :: pairs)

/-- `scan_access_method_covered`. -/
def scanAccessMethodCovered (store : σ) (schema : CollectionSchema) (ns : Bytes) (index : Access)
    (probe : Bytes) : Scan (List (ValueMap × ValueMap)) :=
  Guarded.lift (entryScanPrefix schema ns index probe) >>= fun p =>
    Guarded.lift ((VocabCache.scanSuffixKv store p).mapError .engine) >>= coveredLoop schema index

end

end Okm.Dynamic
