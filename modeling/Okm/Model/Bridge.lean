import Okm.Model.FieldKinds

/-!
# From a map to a document

The model of the map bridge the derive generates (`document_encode.rs`): `try_from_map`
takes each declared name out of a map, `to_map` puts it back, `encode_payload` writes the
document. The fields are taken in declaration order; the first one that is refused ends the
conversion, and so does the first one that aborts.

Half of the arms check what they are given, half only its kind. `Represents` says what a
field of a type can hold, `Rejects` what its arm refuses and `Aborts` what it dies of;
`bridges_iff` says that the bridge keeps its promise on exactly those maps where this makes
no difference.
-/

namespace Okm.Model

open Lib

/-! ## Values -/

namespace DynamicValue

/-- `dyn_kind`. -/
def kindName : DynamicValue → String
  | uint _ => "UInt"
  | int _ => "Int"
  | f64 _ => "F64"
  | str _ => "Str"
  | bytes _ => "Bytes"
  | bool _ => "Bool"
  | null => "Null"
  | array _ => "Array"
  | obj _ => "Obj"

def asUInt : DynamicValue → Option UInt64
  | uint v => some v
  | _ => none

def asInt : DynamicValue → Option Int64
  | int v => some v
  | _ => none

def asF64 : DynamicValue → Option UInt64
  | f64 bits => some bits
  | _ => none

def asStr : DynamicValue → Option String
  | str s => some s
  | _ => none

def asBytes : DynamicValue → Option Bytes
  | bytes b => some b
  | _ => none

def asArray : DynamicValue → Option (List DynamicValue)
  | array items => some items
  | _ => none

variable {got : DynamicValue}

theorem eq_uint {v : UInt64} (h : got.asUInt = some v) : got = uint v := by
  cases got <;> cases h
  rfl

theorem eq_int {v : Int64} (h : got.asInt = some v) : got = int v := by
  cases got <;> cases h
  rfl

theorem eq_f64 {bits : UInt64} (h : got.asF64 = some bits) : got = f64 bits := by
  cases got <;> cases h
  rfl

theorem eq_str {s : String} (h : got.asStr = some s) : got = str s := by
  cases got <;> cases h
  rfl

theorem eq_bytes {b : Bytes} (h : got.asBytes = some b) : got = bytes b := by
  cases got <;> cases h
  rfl

theorem eq_array {items : List DynamicValue} (h : got.asArray = some items) :
    got = array items := by
  cases got <;> cases h
  rfl

end DynamicValue

/-! ## The arms -/

/-- The name of an integer type. -/
def IntWidth.text (signed : Bool) (w : IntWidth) : String :=
  (if signed then "i" else "u") ++ toString w.bits

def VocabId.text : VocabId → String
  | .u8 => "u8"
  | .u16 => "u16"
  | .u32 => "u32"
  | .u64 => "u64"
  | .u128 => "u128"

def kindMismatch {α : Type} (name want : String) (got : DynamicValue) : Except Failure α :=
  .error (.refused (.kindMismatch name want got.kindName))

def badValue {α : Type} (name want got : String) : Except Failure α :=
  .error (.refused (.valueOutOfRange name want got))

/-- An arm: a value of the kind goes on, any other is refused. -/
def arm {α β : Type} (name want : String) (got : DynamicValue) (payload : Option β)
    (use : β → Except Failure α) : Except Failure α :=
  match payload with
  | some v => use v
  | none => kindMismatch name want got

/-- A decoder of trusted bytes inside an arm. -/
def trusted {α β : Type} (r : Except Panic α) (f : α → β) : Except Failure β :=
  match r with
  | .ok a => .ok (f a)
  | .error p => .error (.panic p)

/-- `vocab_id_from_u64`. -/
def vocabIdFromU64 (w : VocabId) (v : UInt64) : Option (Word w.width) :=
  let img := beBytes 16 v.toNat
  if (img.take (16 - w.width)).any (· != 0) then none
  else some (ofBe w.width (img.drop (16 - w.width)))

/-- The element loop of `Vector::decode_payload`. -/
def readElems (elem : VectorElem) : Nat → Bytes → Except Panic (List (Word elem.width))
  | 0, _ => .ok []
  | n + 1, b =>
    if b.length < elem.width then .error .slice
    else do
      let rest ← readElems elem n (b.drop elem.width)
      .ok (BitVec.ofNat (8 * elem.width) (leNat (b.take elem.width)) :: rest)

/-- `Vector::decode_payload`. -/
def vectorDecode (elem : VectorElem) (b : Bytes) : Except Panic (List (Word elem.width)) :=
  if b.length < 4 then .error .slice else readElems elem (beNat (b.take 4)) (b.drop 4)

/-- The item loop of a `Refs` arm. -/
def keysOfItems (name : String) (key : KeyShape) :
    List DynamicValue → Except Failure (List (KeyValue key))
  | [] => .ok []
  | item :: items =>
    match item.asBytes with
    | none => kindMismatch name "an Array of Bytes (child key encodings)" item
    | some b =>
      match KeyValue.decode key b with
      | .error p => .error (.panic p)
      | .ok k => do
        let ks ← keysOfItems name key items
        .ok (k :: ks)

namespace FieldKind

/-- The arm of a present name. -/
def ofDynamic (name : String) :
    (kind : FieldKind) → DynamicValue → Except Failure (FieldValue kind)
  | uint w, got =>
    arm name "UInt" got got.asUInt fun v =>
      if v.toNat < 2 ^ w.bits then .ok (.uint (BitVec.ofNat _ v.toNat))
      else badValue name (w.text false) (toString v)
  | sint w, got =>
    arm name "Int" got got.asInt fun v =>
      if -2 ^ (w.bits - 1) ≤ v.toInt ∧ v.toInt < 2 ^ (w.bits - 1) then
        .ok (.sint (BitVec.ofInt _ v.toInt))
      else badValue name (w.text true) (toString v)
  | str, got => arm name "Str" got got.asStr fun s => .ok (.str s)
  | bytes, got => arm name "Bytes" got got.asBytes fun b => .ok (.bytes b)
  | fixedBytes n, got =>
    arm name "Bytes" got got.asBytes fun b =>
      if h : b.length = n then .ok (.fixedBytes ⟨b, h⟩)
      else badValue name s!"[u8; {n}]" s!"{b.length} bytes"
  | uuid ty, got =>
    arm name "Bytes" got got.asBytes fun b =>
      if h : b.length = 16 then .ok (.uuid ⟨b, h⟩)
      else badValue name ty s!"{b.length} bytes, a uuid is 16"
  | varInt _, got =>
    -- `varint_from_u64` is a cast: what does not fit is cut.
    arm name "UInt" got got.asUInt fun v => .ok (.varInt (BitVec.ofNat _ v.toNat))
  | vocab w, got =>
    match got with
    | .str label => .ok (.vocab (Vocab.of label))
    | .uint v =>
      match vocabIdFromU64 w v with
      | some id => .ok (.vocab (Vocab.fromId id))
      | none => badValue name w.text (toString v)
    | got => kindMismatch name "Str (a label) or UInt (an unresolved id)" got
  | vector elem _, got =>
    arm name "Bytes" got got.asBytes fun b => trusted (vectorDecode elem b) .vector
  | offset _, got => arm name "Int" got got.asInt fun v => .ok (.offset v)
  | quant _, got => arm name "F64" got got.asF64 fun bits => .ok (.quant bits)
  | reverse signed w, got =>
    arm name "UInt" got got.asUInt fun v =>
      if v.toNat < 2 ^ (w.bits - signed.toNat) then .ok (.reverse (~~~BitVec.ofNat _ v.toNat))
      else badValue name (w.text signed) (toString v)
  | ref key, got =>
    arm name "Bytes (the child key encoding)" got got.asBytes fun b =>
      trusted (KeyValue.decode key b) .ref
  | refs key, got =>
    arm name "Array" got got.asArray fun items => do
      let ks ← keysOfItems name key items
      .ok (.refs ks)

end FieldKind

/-- The items a list of keys lifts to. -/
def itemsOfKeys {key : KeyShape} : List (KeyValue key) → Except Panic (List DynamicValue)
  | [] => .ok []
  | k :: ks => do
    let b ← k.encode
    let items ← itemsOfKeys ks
    .ok (.bytes b :: items)

/-- The `to_map` arm. -/
def FieldValue.toDynamic {kind : FieldKind} : FieldValue kind → Except Panic DynamicValue
  | .uint v => .ok (.uint (UInt64.ofNat v.toNat))
  | .sint v => .ok (.int (Int64.ofInt v.toInt))
  | .str s => .ok (.str s)
  | .bytes b => .ok (.bytes b)
  | .fixedBytes b => .ok (.bytes b.val)
  | .uuid b => .ok (.bytes b.val)
  | .varInt v => .ok (.uint (UInt64.ofNat v.toNat))
  | .vocab v =>
    match v.name with
    | some s => .ok (.str s)
    | none => .ok (.uint (UInt64.ofNat ((v.id.map BitVec.toNat).getD 0)))
  | @vector elem _ elems => .ok (.bytes (vectorWire elem elems))
  | .offset v => .ok (.int v)
  | .quant bits => .ok (.f64 bits)
  | @reverse signed _ v =>
    -- A signed inner value is extended to 64 bits by its sign.
    if signed then .ok (.uint (UInt64.ofNat ((~~~v).toInt % 2 ^ 64).toNat))
    else .ok (.uint (UInt64.ofNat (~~~v).toNat))
  | .ref k => do
    let b ← k.encode
    .ok (.bytes b)
  | .refs ks => do
    let items ← itemsOfKeys ks
    .ok (.array items)

/-! ## Documents -/

/-- A declared field. For a reference the default is the default key. -/
structure DocField where
  name : String
  kind : FieldKind
  dflt : FieldValue kind

/-- A list of references has no default but the empty one. -/
def FieldValue.orNoKeys {kind : FieldKind} : FieldValue kind → FieldValue kind
  | .refs _ => .refs []
  | v => v

/-- `default_expr`. -/
def DocField.default (f : DocField) : FieldValue f.kind := f.dflt.orNoKeys

/-- A declared document: the fields of a struct, so no name twice. -/
structure DocDecl where
  version : UInt8
  fields : List DocField
  nodup : (fields.map DocField.name).Nodup

/-- One field of a document. -/
structure Cell where
  field : DocField
  value : FieldValue field.kind

/-- A field out of a map: its arm, or its default when the map does not carry it. -/
def DocField.fromMap (map : SortedMap String DynamicValue) (f : DocField) :
    Except Failure (FieldValue f.kind) :=
  match map.get f.name with
  | some got => f.kind.ofDynamic f.name got
  | none => .ok f.default

/-- The struct literal of `try_from_map`, field after field. -/
def cellsFromMap (map : SortedMap String DynamicValue) : List DocField → Except Failure (List Cell)
  | [] => .ok []
  | f :: fields => do
    let value ← f.fromMap map
    let cells ← cellsFromMap map fields
    .ok (⟨f, value⟩ :: cells)

def DocDecl.tryFromMap (decl : DocDecl) (map : SortedMap String DynamicValue) :
    Except Failure (List Cell) := cellsFromMap map decl.fields

/-- `to_map` behind what is already in the map. -/
def cellsToMap (out : SortedMap String DynamicValue) :
    List Cell → Except Panic (SortedMap String DynamicValue)
  | [] => .ok out
  | c :: cells => do
    let v ← c.value.toDynamic
    cellsToMap (out.insert c.field.name v) cells

def toMap (cells : List Cell) : Except Panic (SortedMap String DynamicValue) :=
  cellsToMap .empty cells

/-- The ids the vocabulary of each field hands out. -/
abbrev FieldIds := String → (w : VocabId) → String → Word w.width

def Cell.intern (ids : FieldIds) (c : Cell) : Cell := ⟨c.field, c.value.intern (ids c.field.name)⟩

/-- `__okm_intern`. -/
def internCells (ids : FieldIds) (cells : List Cell) : List Cell := cells.map (Cell.intern ids)

/-- The fields of one segment from position `i` on; the tag is the position. -/
def segment (checked hot : Bool) (i : Nat) : List Cell → Except Panic Bytes
  | [] => .ok []
  | c :: cells =>
    if c.field.kind.hot = hot then do
      let front ← c.value.frame checked (UInt8.ofNat i)
      let back ← segment checked hot (i + 1) cells
      .ok (front ++ back)
    else segment checked hot (i + 1) cells

def encodePayload (checked : Bool) (version : UInt8) (cells : List Cell) : Except Panic Bytes := do
  let hot ← segment checked true 0 cells
  let cold ← segment checked false 0 cells
  .ok (version :: beBytes 2 hot.length ++ hot ++ cold)

/-! ## What the bridge promises -/

namespace FieldKind

/-- What a field of the type can hold: the right kind, a number in its range, bytes of its
length, an offset or a quantised value in its wire range. -/
def Represents : FieldKind → DynamicValue → Prop
  | uint w, got => ∃ v, got.asUInt = some v ∧ v.toNat < 2 ^ w.bits
  | sint w, got =>
    ∃ v, got.asInt = some v ∧ -2 ^ (w.bits - 1) ≤ v.toInt ∧ v.toInt < 2 ^ (w.bits - 1)
  | str, got => ∃ s, got.asStr = some s
  | bytes, got => ∃ b, got.asBytes = some b
  | fixedBytes n, got => ∃ b, got.asBytes = some b ∧ b.length = n
  | uuid _, got => ∃ b, got.asBytes = some b ∧ b.length = 16
  | varInt w, got => ∃ v, got.asUInt = some v ∧ v.toNat < 256 ^ w.bytes
  | vocab w, got =>
    (∃ s, got.asStr = some s) ∨ ∃ v, got.asUInt = some v ∧ v.toNat < 256 ^ w.width
  | vector elem okLen, got =>
    ∃ b, got.asBytes = some b ∧ b.length = 4 + beNat (b.take 4) * elem.width
      ∧ okLen.all (· = beNat (b.take 4)) = true
  | offset base, got =>
    ∃ v, got.asInt = some v ∧ 0 ≤ v.toInt - base.toInt ∧ v.toInt - base.toInt < 2 ^ 32
  | quant p, got => ∃ bits, got.asF64 = some bits ∧ (quantize bits p).isSome
  | reverse signed w, got =>
    ∃ v, got.asUInt = some v ∧ v.toNat < 2 ^ (w.bits - signed.toNat)
  | ref key, got => ∃ b, got.asBytes = some b ∧ b.length = key.keyLen
  | refs key, got =>
    ∃ items, got.asArray = some items
      ∧ ∀ item ∈ items, ∃ b, item.asBytes = some b ∧ b.length = key.keyLen

end FieldKind

/-- **The promise of the bridge on one map.** -/
structure Bridges (checked : Bool) (ids : FieldIds) (decl : DocDecl)
    (map : SortedMap String DynamicValue) : Prop where
  /-- The conversion comes back. -/
  answers : ∀ p, decl.tryFromMap map ≠ .error (.panic p)
  /-- What a declared field cannot hold is refused. -/
  refuses : (∃ f ∈ decl.fields, ∃ got, map.get f.name = some got ∧ ¬f.kind.Represents got) →
    ∃ e, decl.tryFromMap map = .error (.refused e)
  /-- A document says of every declared name the map carried what the map said. -/
  agrees : ∀ cells, decl.tryFromMap map = .ok cells → ∃ back, toMap cells = .ok back ∧
    ∀ f ∈ decl.fields, ∀ got, map.get f.name = some got → back.get f.name = some got
  /-- A document can be written once its labels are interned. -/
  encodes : ∀ cells, decl.tryFromMap map = .ok cells →
    ∃ b, encodePayload checked decl.version (internCells ids cells) = .ok b

/-! ## When it keeps it -/

/-- An item that is not bytes, before any that is too short for a key. -/
def RejectsItems (keyLen : Nat) : List DynamicValue → Prop
  | [] => False
  | item :: items =>
    item.asBytes = none ∨ ∃ b, item.asBytes = some b ∧ keyLen ≤ b.length ∧ RejectsItems keyLen items

/-- An item too short for a key, before any that is not bytes. -/
def AbortsItems (keyLen : Nat) : List DynamicValue → Prop
  | [] => False
  | item :: items => ∃ b, item.asBytes = some b ∧ (b.length < keyLen ∨ AbortsItems keyLen items)

namespace FieldKind

/-- What an arm refuses: six types look at the kind alone. -/
def Rejects : FieldKind → DynamicValue → Prop
  | varInt _, got => got.asUInt = none
  | vector _ _, got => got.asBytes = none
  | offset _, got => got.asInt = none
  | quant _, got => got.asF64 = none
  | ref _, got => got.asBytes = none
  | refs key, got =>
    got.asArray = none ∨ ∃ items, got.asArray = some items ∧ RejectsItems key.keyLen items
  | kind, got => ¬kind.Represents got

/-- What an arm dies of: bytes shorter than the decoder behind it reads. -/
def Aborts : FieldKind → DynamicValue → Prop
  | vector elem _, got =>
    ∃ b, got.asBytes = some b ∧ b.length < 4 + beNat (b.take 4) * elem.width
  | ref key, got => ∃ b, got.asBytes = some b ∧ b.length < key.keyLen
  | refs key, got => ∃ items, got.asArray = some items ∧ AbortsItems key.keyLen items
  | _, _ => False

/-- No length of width eight in a build that checks shifts. -/
def Fits (checked : Bool) : FieldKind → DynamicValue → Prop
  | str, got => ∀ s, got.asStr = some s → MaskFits checked (strBytes s).length
  | bytes, got => ∀ b, got.asBytes = some b → MaskFits checked b.length
  | varInt _, got => ∀ v, got.asUInt = some v → MaskFits checked v.toNat
  | vector _ _, got => ∀ b, got.asBytes = some b → MaskFits checked b.length
  | refs key, got =>
    ∀ items, got.asArray = some items → MaskFits checked (4 + items.length * key.keyLen)
  | _, _ => True

end FieldKind

namespace DocField

variable (checked : Bool) (map : SortedMap String DynamicValue) (f : DocField)

def Rejects : Prop := ∃ got, map.get f.name = some got ∧ f.kind.Rejects got

def Aborts : Prop := ∃ got, map.get f.name = some got ∧ f.kind.Aborts got

/-- The map carries a value the field can hold and write, or does not carry the name and the
default can be written. -/
def Carries : Prop :=
  (∀ got, map.get f.name = some got → f.kind.Represents got ∧ f.kind.Fits checked got)
    ∧ (map.get f.name = none → f.default.Writable checked)

end DocField

/-- Some field is refused, and none before it aborts. -/
def Refused (map : SortedMap String DynamicValue) : List DocField → Prop
  | [] => False
  | f :: fields => f.Rejects map ∨ ¬f.Aborts map ∧ Refused map fields

end Okm.Model
