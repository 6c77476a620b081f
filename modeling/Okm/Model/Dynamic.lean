import Mathlib.Data.String.Basic
import Okm.Model.Slot
import Okm.Model.VarLen

/-!
# Dynamic-segment frames

The model of `obj_dynamic.rs`: run-time values and the self-describing frames
they are stored in, `[field id][type][length][body]`. Composite values nest; the
names of nested objects go through the same resolver as the frame's own name, so
the encoder runs in the resolver's monad.

A float is its bit pattern. An object lists its fields in name order, as the map
it stands for does (`DynamicValue.Wf`). A decoder reads the front of what
remains; the source's offset into the whole is the part already cut off.
-/

namespace Okm.Model

open Lib

/-- One value of the dynamic segment. -/
inductive DynamicValue where
  | uint (v : UInt64)
  | int (v : Int64)
  | f64 (bits : UInt64)
  | str (s : String)
  | bytes (b : Bytes)
  | bool (b : Bool)
  | null
  | array (items : List DynamicValue)
  | obj (fields : List (String × DynamicValue))

/-- A decoded frame: vocabulary id and value. -/
structure DynamicField where
  id : UInt16
  value : DynamicValue

/-- The type byte of a frame. -/
inductive ObjValueType where
  | uint
  | f64
  | str
  | bytes
  | bool
  | null
  | array
  | obj
  | int
  deriving DecidableEq, Repr

namespace ObjValueType

def toByte : ObjValueType → UInt8
  | uint => 0
  | f64 => 1
  | str => 2
  | bytes => 3
  | bool => 4
  | null => 5
  | array => 6
  | obj => 7
  | int => 8

def fromByte (b : UInt8) : Option ObjValueType :=
  if b = 0 then some uint
  else if b = 1 then some f64
  else if b = 2 then some str
  else if b = 3 then some bytes
  else if b = 4 then some bool
  else if b = 5 then some null
  else if b = 6 then some array
  else if b = 7 then some obj
  else if b = 8 then some int
  else none

@[simp] theorem fromByte_toByte (ty : ObjValueType) : fromByte ty.toByte = some ty := by
  cases ty <;> rfl

end ObjValueType

mutual

/-- The fields of every object stand in name order, each name once. -/
def DynamicValue.Wf : DynamicValue → Prop
  | .array items => WfItems items
  | .obj fields => (fields.Pairwise fun a b => a.1 < b.1) ∧ WfFields fields
  | _ => True

def WfItems : List DynamicValue → Prop
  | [] => True
  | v :: rest => v.Wf ∧ WfItems rest

def WfFields : List (String × DynamicValue) → Prop
  | [] => True
  | (_, v) :: rest => v.Wf ∧ WfFields rest

end

/-! ## The encoder -/

/-- Where the bytes of an eight-byte number stop repeating `fill`. -/
def fillWidth (fill : UInt8) (be : Bytes) : Nat := (be.findIdx? (· ≠ fill)).getD 7

/-- A `UInt` body: leading zero bytes stripped. -/
def uintBody (v : UInt64) : Bytes :=
  let be := beBytes 8 v.toNat
  be.drop (fillWidth 0x00 be)

/-- An `Int` body: leading sign bytes stripped, one of them kept for a negative
number. -/
def intBody (v : Int64) : Bytes :=
  let be := beBytes 8 v.toUInt64.toNat
  let fill : UInt8 := if v < 0 then 0xFF else 0x00
  let first := fillWidth fill be
  let start := if v < 0 ∧ 0 < first then first - 1 else first
  be.drop start

/-- The id of a frame: one byte below `0xFF`, else an escape and two. -/
def idBytes (id : UInt16) : Bytes :=
  if id < 0xFF then [id.toUInt8] else 0xFF :: beBytes 2 id.toNat

/-- A value behind its type byte and length. -/
def typedBytes (ty : ObjValueType) (body : Bytes) : Bytes :=
  ty.toByte :: putLen body.length ++ body

section

variable {m : Type → Type} [Monad m] (resolve : String → m UInt16)

mutual

/-- `encode_value`: the type tag and the body. -/
def encodeValue : DynamicValue → m (ObjValueType × Bytes)
  | .int v => pure (.int, intBody v)
  | .uint v => pure (.uint, uintBody v)
  | .f64 bits => pure (.f64, beBytes 8 bits.toNat)
  | .str s => pure (.str, strBytes s)
  | .bytes b => pure (.bytes, b)
  | .bool b => pure (.bool, [if b then 1 else 0])
  | .null => pure (.null, [])
  | .array items => do
    let frames ← encodeItems items
    pure (.array, putLen items.length ++ frames)
  | .obj fields => do
    let body ← putFields fields
    pure (.obj, body)

/-- The elements of an array, each behind its type and length. -/
def encodeItems : List DynamicValue → m Bytes
  | [] => pure []
  | v :: rest => do
    let (ty, body) ← encodeValue v
    let frames ← encodeItems rest
    pure (typedBytes ty body ++ frames)

/-- The frames of an object's fields; each is what `putFrameNamed` writes. -/
def putFields : List (String × DynamicValue) → m Bytes
  | [] => pure []
  | (name, v) :: rest => do
    let id ← resolve name
    let (ty, body) ← encodeValue v
    let frames ← putFields rest
    pure (idBytes id ++ typedBytes ty body ++ frames)

end

/-- `put_frame_named`: the frame of one named field. Its own arm for an object
writes what `encodeValue` answers there. -/
def putFrameNamed (name : String) (value : DynamicValue) : m Bytes := do
  let id ← resolve name
  match value with
  | .obj fields => do
    let body ← putFields resolve fields
    pure (idBytes id ++ typedBytes .obj body)
  | other => do
    let (ty, body) ← encodeValue resolve other
    pure (idBytes id ++ typedBytes ty body)

/-- The frames of a list of named values, as `slot1_into` collects them. -/
def putFramesNamed : List (String × DynamicValue) → m Bytes
  | [] => pure []
  | (name, v) :: rest => do
    let frame ← putFrameNamed resolve name v
    let frames ← putFramesNamed rest
    pure (frame ++ frames)

end

/-! ## The decoder -/

/-- `take`: the next `n` bytes. -/
def takeBytes (n : Nat) (b : Bytes) : Option (Bytes × Bytes) :=
  if n ≤ b.length then some (b.take n, b.drop n) else none

/-- `decode_id`. -/
def decodeId : Bytes → Option (UInt16 × Bytes)
  | [] => none
  | first :: rest =>
    if first = 0xFF then
      (takeBytes 2 rest).map fun (raw, rest) => (UInt16.ofNat (beNat raw), rest)
    else some (first.toUInt16, rest)

/-- A type byte, a length and the body it announces. -/
def decodeTyped : Bytes → Option (UInt8 × Bytes × Bytes)
  | [] => none
  | ty :: rest =>
    match takeLen rest with
    | none => none
    | some (len, n) => (takeBytes len (rest.drop n)).map fun (body, rest) => (ty, body, rest)

/-- The header of a frame: id, type byte, body, and what follows. -/
def frameHead (b : Bytes) : Option (UInt16 × UInt8 × Bytes × Bytes) :=
  match decodeId b with
  | none => none
  | some (id, rest) => (decodeTyped rest).map fun (ty, body, rest) => (id, ty, body, rest)

theorem length_takeBytes {n : Nat} {b s rest : Bytes} (h : takeBytes n b = some (s, rest)) :
    s.length + rest.length = b.length := by
  unfold takeBytes at h
  by_cases hn : n ≤ b.length
  · rw [if_pos hn, Option.some.injEq, Prod.mk.injEq] at h
    obtain ⟨rfl, rfl⟩ := h
    simp only [List.length_take, List.length_drop]
    omega
  · simp [if_neg hn] at h

theorem length_decodeTyped {b body rest : Bytes} {ty : UInt8}
    (h : decodeTyped b = some (ty, body, rest)) : body.length + rest.length < b.length := by
  cases b with
  | nil => simp [decodeTyped] at h
  | cons first b =>
    rw [decodeTyped] at h
    cases hlen : takeLen b with
    | none => simp [hlen] at h
    | some p =>
      obtain ⟨len, n⟩ := p
      rw [hlen] at h
      obtain ⟨⟨s, r⟩, htake, heq⟩ := Option.map_eq_some_iff.mp h
      simp only [Prod.mk.injEq] at heq
      obtain ⟨rfl, rfl, rfl⟩ := heq
      have hsplit := length_takeBytes htake
      rw [List.length_drop] at hsplit
      rw [List.length_cons]
      omega

theorem length_frameHead {b body rest : Bytes} {id : UInt16} {ty : UInt8}
    (h : frameHead b = some (id, ty, body, rest)) : body.length + rest.length < b.length := by
  unfold frameHead at h
  cases hid : decodeId b with
  | none => simp [hid] at h
  | some p =>
    obtain ⟨id', b'⟩ := p
    rw [hid] at h
    obtain ⟨⟨ty', s, r⟩, htyped, heq⟩ := Option.map_eq_some_iff.mp h
    simp only [Prod.mk.injEq] at heq
    obtain ⟨rfl, rfl, rfl, rfl⟩ := heq
    have hlt := length_decodeTyped htyped
    have hle : b'.length ≤ b.length := by
      cases b with
      | nil => simp [decodeId] at hid
      | cons first b =>
        rw [decodeId] at hid
        by_cases hf : first = 0xFF
        · rw [if_pos hf] at hid
          obtain ⟨⟨raw, r'⟩, htake, heq⟩ := Option.map_eq_some_iff.mp hid
          simp only [Prod.mk.injEq] at heq
          have hsplit := length_takeBytes htake
          rw [← heq.2, List.length_cons]
          omega
        · rw [if_neg hf, Option.some.injEq, Prod.mk.injEq] at hid
          rw [← hid.2, List.length_cons]
          omega
    omega

/-- Zero-padded back to eight bytes. -/
def readUInt (body : Bytes) : Option UInt64 :=
  if 8 < body.length then none
  else some (UInt64.ofNat (beNat (List.replicate (8 - body.length) 0x00 ++ body)))

/-- Sign-extended back to eight bytes, from the top bit of the first one. -/
def signExtend (first : UInt8) (body : Bytes) : Int64 :=
  let fill : UInt8 := if first &&& 0x80 ≠ 0 then 0xFF else 0x00
  (UInt64.ofNat (beNat (List.replicate (8 - body.length) fill ++ body))).toInt64

def readInt : Bytes → Option Int64
  | [] => none
  | first :: rest =>
    if 8 < rest.length + 1 then none else some (signExtend first (first :: rest))

section

variable (nameOf : UInt16 → Option String)

mutual

/-- `decode_value_named`. -/
def decodeValueNamed (ty : ObjValueType) (body : Bytes) : Option DynamicValue :=
  match ty with
  | .uint => (readUInt body).map .uint
  | .int => (readInt body).map .int
  | .f64 => if body.length ≠ 8 then none else some (.f64 (UInt64.ofNat (beNat body)))
  | .str => (strOfBytes body).map .str
  | .bytes => some (.bytes body)
  | .bool =>
    match body with
    | [b] => some (.bool (b ≠ 0))
    | _ => none
  | .null => if body = [] then some .null else none
  | .array =>
    match takeLen body with
    | none => none
    | some (count, n) => (decodeItems count (body.drop n)).map .array
  | .obj => (decodeFields body []).map .obj
termination_by 2 * body.length + 1
decreasing_by
  · rw [List.length_drop]
    omega
  · omega

/-- `count` array elements. -/
def decodeItems (count : Nat) (b : Bytes) : Option (List DynamicValue) :=
  match count with
  | 0 => some []
  | count + 1 =>
    match _h : decodeTyped b with
    | none => none
    | some (tyByte, body, rest) =>
      match ObjValueType.fromByte tyByte with
      | none => none
      | some ty =>
        match decodeValueNamed ty body with
        | none => none
        | some v => (decodeItems count rest).map (v :: ·)
termination_by 2 * b.length
decreasing_by
  · have := length_decodeTyped _h
    omega
  · have := length_decodeTyped _h
    omega

/-- The fields of a nested object, inserted into the map as they come; an id the
vocabulary does not know keeps its number. -/
def decodeFields (b : Bytes) (acc : List (String × DynamicValue)) :
    Option (List (String × DynamicValue)) :=
  if b = [] then some acc
  else
    match _h : frameHead b with
    | none => none
    | some (id, tyByte, body, rest) =>
      match ObjValueType.fromByte tyByte with
      | none => none
      | some ty =>
        match decodeValueNamed ty body with
        | none => none
        | some v =>
          decodeFields rest
            (SortedMap.insertEntry ((nameOf id).getD (toString id.toNat)) v acc)
termination_by 2 * b.length
decreasing_by
  · have := length_frameHead _h
    omega
  · have := length_frameHead _h
    omega

end

/-- Why a frame was not answered. -/
inductive FrameErr where
  | malformed
  | unknownType
  deriving DecidableEq, Repr

/-- `decode_frame_named`: the field, and what follows it. A frame of unknown type
is passed over; behind a malformed one nothing is read. -/
def decodeFrameNamed (b : Bytes) : Except FrameErr DynamicField × Bytes :=
  match frameHead b with
  | none => (.error .malformed, [])
  | some (id, tyByte, body, rest) =>
    match ObjValueType.fromByte tyByte with
    | none => (.error .unknownType, rest)
    | some .obj =>
      match decodeFields nameOf body [] with
      | none => (.error .malformed, [])
      | some fields => (.ok ⟨id, .obj fields⟩, rest)
    | some other =>
      match decodeValueNamed nameOf other body with
      | none => (.error .malformed, [])
      | some v => (.ok ⟨id, v⟩, rest)

theorem length_decodeFrameNamed {b rest : Bytes} {answer : Except FrameErr DynamicField}
    (hb : b ≠ []) (h : decodeFrameNamed nameOf b = (answer, rest)) : rest.length < b.length := by
  have hpos := List.length_pos_iff.mpr hb
  unfold decodeFrameNamed at h
  cases hhead : frameHead b with
  | none =>
    rw [hhead] at h
    obtain ⟨-, rfl⟩ := Prod.mk.inj h
    simpa using hpos
  | some f =>
    obtain ⟨id, tyByte, body, rest'⟩ := f
    have hlt := length_frameHead hhead
    rw [hhead] at h
    dsimp only at h
    split at h
    · obtain ⟨-, rfl⟩ := Prod.mk.inj h
      omega
    · split at h
      · obtain ⟨-, rfl⟩ := Prod.mk.inj h
        simpa using hpos
      · obtain ⟨-, rfl⟩ := Prod.mk.inj h
        omega
    · split at h
      · obtain ⟨-, rfl⟩ := Prod.mk.inj h
        simpa using hpos
      · obtain ⟨-, rfl⟩ := Prod.mk.inj h
        omega

/-- `decode_named`: frames until the bytes run out. -/
def decodeNamed (b : Bytes) : List DynamicField :=
  if _hb : b = [] then []
  else
    match _h : decodeFrameNamed nameOf b with
    | (.ok f, rest) => f :: decodeNamed rest
    | (.error .unknownType, rest) => decodeNamed rest
    | (.error .malformed, _) => []
termination_by b.length
decreasing_by
  · exact length_decodeFrameNamed nameOf _hb _h
  · exact length_decodeFrameNamed nameOf _hb _h

end

end Okm.Model
