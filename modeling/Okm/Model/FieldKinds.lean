import Okm.Lib.Cursor
import Okm.Model.Document
import Okm.Model.Dynamic
import Okm.Model.VarInt
import Okm.Model.Vocab

/-!
# Declared field types

The types a payload field may be declared with, what they hold in memory and the bytes
`encode_payload` writes for them: the arms of `schema.rs` with the wrappers they call
(`wrappers/`, `reverse.rs`, `vocab.rs`) and the key codec of `key_encode.rs`.

Most writers are total. Five are not: a label nobody interned, a vector of another length
than `#[ok_len]` says, an offset or a quantised number outside its wire range, and, in a
build that checks shifts, a length or a `VarInt` of width eight. `writable_iff` lists them.
A text or a child document behind a reference is not part of a field's own bytes.
-/

namespace Okm.Model

open Lib

/-! ## Words -/

/-- An integer of `n` bytes. -/
abbrev Word (n : Nat) := BitVec (8 * n)

/-- `to_be_bytes`. -/
def toBe {n : Nat} (v : Word n) : Bytes := beBytes n v.toNat

/-- `from_be_bytes`. -/
def ofBe (n : Nat) (b : Bytes) : Word n := BitVec.ofNat (8 * n) (beNat b)

theorem two_pow_eight_mul (n : Nat) : 2 ^ (8 * n) = 256 ^ n := by
  rw [Nat.pow_mul]

theorem word_toNat_lt {n : Nat} (v : Word n) : v.toNat < 256 ^ n := by
  rw [← two_pow_eight_mul]
  exact v.isLt

theorem toNat_ofNat_word {n v : Nat} (h : v < 256 ^ n) : (BitVec.ofNat (8 * n) v).toNat = v := by
  rw [BitVec.toNat_ofNat, two_pow_eight_mul, Nat.mod_eq_of_lt h]

theorem toBe_ofBe {n : Nat} {b : Bytes} (h : b.length = n) : toBe (ofBe n b) = b := by
  have hlt : beNat b < 256 ^ n := h ▸ beNat_lt b
  rw [toBe, ofBe, toNat_ofNat_word hlt, ← h, beBytes_beNat]

@[simp] theorem length_toBe {n : Nat} (v : Word n) : (toBe v).length = n := length_beBytes _ _

/-- A byte string of a length its type fixes. -/
abbrev FixedBytes (n : Nat) := {b : Bytes // b.length = n}

/-- The widths of the plain integers. -/
inductive IntWidth where
  | w8
  | w16
  | w32
  | w64
  deriving DecidableEq, Repr

namespace IntWidth

def bytes : IntWidth → Nat
  | w8 => 1
  | w16 => 2
  | w32 => 4
  | w64 => 8

def bits (w : IntWidth) : Nat := 8 * w.bytes

end IntWidth

/-! ## Labels -/

/-- `Vocab<N>`: a label, its id, or both. -/
structure Vocab (w : VocabId) where
  name : Option String
  id : Option (Word w.width)
  built : name.isSome ∨ id.isSome

namespace Vocab

variable {w : VocabId}

def of (label : String) : Vocab w := ⟨some label, none, .inl rfl⟩

def fromId (id : Word w.width) : Vocab w := ⟨none, some id, .inr rfl⟩

def setId (v : Vocab w) (id : Word w.width) : Vocab w := ⟨v.name, some id, .inr rfl⟩

/-- The last bytes of `wire16`. -/
def wire (v : Vocab w) : Except Panic Bytes :=
  match v.id with
  | some id => .ok (toBe id)
  | none => .error .expect

/-- The intern hook: a value with a label takes that label's id. -/
def intern (ids : String → Word w.width) (v : Vocab w) : Vocab w :=
  match v.name with
  | some label => v.setId (ids label)
  | none => v

theorem wire_eq_ok {v : Vocab w} : (∃ b, v.wire = .ok b) ↔ v.id.isSome := by
  cases h : v.id with
  | none => simp [wire, h]
  | some id => simp [wire, h]

theorem length_wire {v : Vocab w} {b : Bytes} (h : v.wire = .ok b) : b.length = w.width := by
  unfold wire at h
  cases hid : v.id with
  | none =>
    rw [hid] at h
    cases h
  | some id =>
    rw [hid] at h
    obtain rfl := Except.ok.inj h
    exact length_toBe id

/-- An interned value has its id. -/
theorem wire_intern (ids : String → Word w.width) (v : Vocab w) :
    ∃ id : Word w.width, (v.intern ids).wire = .ok (toBe id) := by
  rcases v with ⟨_ | label, id, built⟩
  · obtain ⟨i, rfl⟩ : ∃ i, id = some i := by simpa [Option.isSome_iff_exists] using built
    exact ⟨i, rfl⟩
  · exact ⟨ids label, rfl⟩

end Vocab

/-! ## Keys a reference may point with -/

/-- The field types of a key. -/
inductive KeyField where
  | uint (w : IntWidth)
  | fixedBytes (n : Nat)
  | uuid
  | vocab (w : VocabId)

namespace KeyField

def width : KeyField → Nat
  | uint w => w.bytes
  | fixedBytes n => n
  | uuid => 16
  | vocab w => w.width

end KeyField

/-- The value of one key field. -/
inductive KeyPart : KeyField → Type where
  | uint {w : IntWidth} (v : Word w.bytes) : KeyPart (.uint w)
  | fixedBytes {n : Nat} (b : FixedBytes n) : KeyPart (.fixedBytes n)
  | uuid (b : FixedBytes 16) : KeyPart .uuid
  | vocab {w : VocabId} (v : Vocab w) : KeyPart (.vocab w)

namespace KeyPart

def encode {f : KeyField} : KeyPart f → Except Panic Bytes
  | uint v => .ok (toBe v)
  | fixedBytes b => .ok b.val
  | uuid b => .ok b.val
  | vocab v => v.wire

/-- The decoder of one field on its own bytes. -/
def read : (f : KeyField) → (b : Bytes) → b.length = f.width → KeyPart f
  | .uint w, b, _ => uint (ofBe w.bytes b)
  | .fixedBytes _, b, h => fixedBytes ⟨b, h⟩
  | .uuid, b, h => uuid ⟨b, h⟩
  | .vocab w, b, _ => vocab (Vocab.fromId (ofBe w.width b))

/-- Has a wire form: a label that was never interned has none. -/
def Interned {f : KeyField} : KeyPart f → Prop
  | vocab v => v.id.isSome
  | _ => True

theorem encode_read (f : KeyField) (b : Bytes) (h : b.length = f.width) :
    (read f b h).encode = .ok b := by
  cases f with
  | uint w => exact congrArg Except.ok (toBe_ofBe h)
  | fixedBytes n => rfl
  | uuid => rfl
  | vocab w => exact congrArg Except.ok (toBe_ofBe h)

theorem length_encode {f : KeyField} {v : KeyPart f} {b : Bytes} (h : v.encode = .ok b) :
    b.length = f.width := by
  cases v with
  | uint v =>
    obtain rfl := Except.ok.inj h
    exact length_toBe v
  | fixedBytes v =>
    obtain rfl := Except.ok.inj h
    exact v.property
  | uuid v =>
    obtain rfl := Except.ok.inj h
    exact v.property
  | vocab v => exact Vocab.length_wire h

theorem encode_eq_ok {f : KeyField} {v : KeyPart f} : (∃ b, v.encode = .ok b) ↔ v.Interned := by
  cases v with
  | uint v => exact iff_of_true ⟨_, rfl⟩ trivial
  | fixedBytes v => exact iff_of_true ⟨_, rfl⟩ trivial
  | uuid v => exact iff_of_true ⟨_, rfl⟩ trivial
  | vocab v => exact Vocab.wire_eq_ok

end KeyPart

/-- The fields of a key, in declaration order. -/
abbrev KeyShape := List KeyField

/-- `KEY_LEN`. -/
def KeyShape.keyLen : KeyShape → Nat
  | [] => 0
  | f :: shape => f.width + keyLen shape

/-- A key: one value for each field. -/
inductive KeyValue : KeyShape → Type where
  | nil : KeyValue []
  | cons {f : KeyField} {shape : KeyShape} (v : KeyPart f) (rest : KeyValue shape) :
      KeyValue (f :: shape)

namespace KeyValue

def encode {shape : KeyShape} : KeyValue shape → Except Panic Bytes
  | nil => .ok []
  | cons v rest => do
    let front ← v.encode
    let back ← encode rest
    .ok (front ++ back)

/-- `KeyEncode::decode`: field after field off the front. What follows the last one is not
looked at. -/
def decode : (shape : KeyShape) → Bytes → Except Panic (KeyValue shape)
  | [], _ => .ok nil
  | f :: shape, b =>
    if h : f.width ≤ b.length then do
      let rest ← decode shape (b.drop f.width)
      .ok (cons (KeyPart.read f (b.take f.width) (List.length_take_of_le h)) rest)
    else .error .slice

def Interned {shape : KeyShape} : KeyValue shape → Prop
  | nil => True
  | cons v rest => v.Interned ∧ Interned rest

/-- **A key is read from any byte string long enough, and writes the front of it.** -/
theorem decode_of_le {shape : KeyShape} {b : Bytes} (h : shape.keyLen ≤ b.length) :
    ∃ k, decode shape b = .ok k ∧ k.encode = .ok (b.take shape.keyLen) := by
  induction shape generalizing b with
  | nil =>
    refine ⟨nil, rfl, ?_⟩
    rw [KeyShape.keyLen, List.take_zero]
    rfl
  | cons f shape ih =>
    rw [KeyShape.keyLen] at h
    have hf : f.width ≤ b.length := by omega
    obtain ⟨k, hk, henc⟩ := @ih (b.drop f.width) (by
      rw [List.length_drop]
      omega)
    refine ⟨cons (KeyPart.read f (b.take f.width) (List.length_take_of_le hf)) k, ?_, ?_⟩
    · rw [decode, dif_pos hf, hk]
      rfl
    · rw [encode, KeyPart.encode_read, henc, KeyShape.keyLen, List.take_add]
      rfl

theorem decode_of_lt {shape : KeyShape} {b : Bytes} (h : b.length < shape.keyLen) :
    decode shape b = .error .slice := by
  induction shape generalizing b with
  | nil =>
    rw [KeyShape.keyLen] at h
    omega
  | cons f shape ih =>
    rw [KeyShape.keyLen] at h
    rw [decode]
    by_cases hf : f.width ≤ b.length
    · rw [dif_pos hf, ih (by
        rw [List.length_drop]
        omega)]
      rfl
    · rw [dif_neg hf]

theorem length_encode {shape : KeyShape} {k : KeyValue shape} {b : Bytes}
    (h : k.encode = .ok b) : b.length = shape.keyLen := by
  induction k generalizing b with
  | nil =>
    obtain rfl := Except.ok.inj h
    rfl
  | cons v rest ih =>
    obtain ⟨front, hfront, h⟩ := bind_eq_ok.mp h
    obtain ⟨back, hback, h⟩ := bind_eq_ok.mp h
    obtain rfl := Except.ok.inj h
    rw [List.length_append, KeyPart.length_encode hfront, ih hback, KeyShape.keyLen]

theorem encode_eq_ok {shape : KeyShape} {k : KeyValue shape} :
    (∃ b, k.encode = .ok b) ↔ k.Interned := by
  induction k with
  | nil => exact iff_of_true ⟨_, rfl⟩ trivial
  | cons v rest ih =>
    rw [Interned, ← KeyPart.encode_eq_ok, ← ih]
    constructor
    · intro h
      obtain ⟨b, h⟩ := h
      obtain ⟨front, hfront, h⟩ := bind_eq_ok.mp h
      obtain ⟨back, hback, -⟩ := bind_eq_ok.mp h
      exact ⟨⟨front, hfront⟩, back, hback⟩
    · intro h
      obtain ⟨⟨front, hfront⟩, back, hback⟩ := h
      refine ⟨front ++ back, ?_⟩
      rw [encode, hfront, hback]
      rfl

end KeyValue

/-! ## Quantised numbers -/

/-- A finite double: `mant * 2 ^ exp` with a sign. -/
structure Finite64 where
  neg : Bool
  mant : Nat
  exp : Int
  deriving DecidableEq, Repr

namespace Finite64

/-- The double a bit pattern spells; `none` is an infinity or no number. -/
def ofBits (bits : UInt64) : Option Finite64 :=
  let neg : Bool := decide (2 ^ 63 ≤ bits.toNat)
  let biased : Nat := bits.toNat / 2 ^ 52 % 2 ^ 11
  let frac : Nat := bits.toNat % 2 ^ 52
  if biased = 2047 then none
  else if biased = 0 then some ⟨neg, frac, -1074⟩
  else some ⟨neg, 2 ^ 52 + frac, (biased : Int) - 1075⟩

/-- `n / 2 ^ k` to the nearest integer, a tie to the even one. -/
def halfEven (n k : Nat) : Nat :=
  let q := n / 2 ^ k
  let r := n % 2 ^ k
  if 2 * r < 2 ^ k then q
  else if 2 ^ k < 2 * r then q + 1
  else q + q % 2

/-- The double nearest to `c` times a double. A product too large for a double keeps its
value here, which is past every integer anyway. -/
def scale (x : Finite64) (c : Nat) : Finite64 :=
  let excess := Nat.log2 (x.mant * c) - 52
  ⟨x.neg, halfEven (x.mant * c) excess, x.exp + excess⟩

/-- The magnitude of `f64::round`: a tie goes away from zero. -/
def round (x : Finite64) : Nat :=
  match x.exp with
  | .ofNat e => x.mant * 2 ^ e
  | .negSucc e => (2 * x.mant + 2 ^ (e + 1)) / 2 ^ (e + 2)

end Finite64

/-- `pow10`. -/
def pow10 (p : Nat) : Option Nat := if p ≤ 8 then some (10 ^ p) else none

/-- `quantize`; `none` is an assertion that fails. The bounds are those of `i64` as
doubles, so `2 ^ 63` passes and the cast brings it back into range. -/
def quantize (bits : UInt64) (p : Nat) : Option Int := do
  let c ← pow10 p
  let x ← Finite64.ofBits bits
  let r := (x.scale c).round
  if 2 ^ 63 < r then none
  else some (if x.neg then -r else min r (2 ^ 63 - 1 : Nat))

example : quantize 0x3FF8000000000000 3 = some 1500 ∧ quantize 0xBF40624DD2F1A9FC 3 = some (-1)
    ∧ quantize 0x43E158E460913D00 3 = none := by decide +kernel

/-! ## Offsets -/

/-- `offset_encode`. -/
def offsetEncode (value base : Int64) : Except Panic Bytes :=
  let off := value.toInt - base.toInt
  if (-2 ^ 63 ≤ off ∧ off < 2 ^ 63) ∧ 0 ≤ off ∧ off < 2 ^ 32 then .ok (beBytes 4 off.toNat)
  else .error .overflow

/-! ## Lengths and variable-length integers -/

/-- A build that checks shifts aborts at width eight, where the mask of a first byte is
shifted by all its bits. -/
def MaskFits (checked : Bool) (v : Nat) : Prop := checked = true → widthOf v ≠ 8

/-- `put_len` in either build. -/
def putLenIn (checked : Bool) (v : Nat) : Except Panic Bytes :=
  if checked = true ∧ (putLenChecked v).isNone then .error .overflow else .ok (putLen v)

/-- `varint_encode` in either build. -/
def varintEncodeIn (checked : Bool) (v : Nat) : Except Panic Bytes :=
  if checked = true ∧ widthOf v ≠ 9 ∧ (shrChecked 8 0xFF (widthOf v)).isNone then
    .error .overflow
  else .ok (varintEncode v)

/-! ## Field types -/

/-- The element types of a `Vector`. -/
inductive VectorElem where
  | f32
  | u32
  | i32
  | u64
  | i64
  deriving DecidableEq, Repr

/-- `ELEM_WIDTH`. -/
def VectorElem.width : VectorElem → Nat
  | f32 | u32 | i32 => 4
  | u64 | i64 => 8

/-- The integer types of a `VarInt`. -/
inductive VarIntWidth where
  | u16
  | u32
  | u64
  deriving DecidableEq, Repr

def VarIntWidth.bytes : VarIntWidth → Nat
  | u16 => 2
  | u32 => 4
  | u64 => 8

/-- The declared type of a payload field. -/
inductive FieldKind where
  | uint (w : IntWidth)
  | sint (w : IntWidth)
  | str
  | bytes
  | fixedBytes (n : Nat)
  | uuid (name : String)
  | varInt (w : VarIntWidth)
  | vocab (w : VocabId)
  | vector (elem : VectorElem) (okLen : Option Nat)
  | offset (base : Int64)
  | quant (p : Nat)
  | reverse (signed : Bool) (w : IntWidth)
  | ref (key : KeyShape)
  | refs (key : KeyShape)

/-- `Vector::encode_payload`. -/
def vectorWire (elem : VectorElem) (elems : List (Word elem.width)) : Bytes :=
  beBytes 4 elems.length ++ elems.flatMap fun e => leBytes elem.width e.toNat

/-- Fixed width: the field sits in the hot segment. A zero-length array counts as variable,
its width is the literal `0`. -/
def FieldKind.hot : FieldKind → Bool
  | str | bytes | varInt _ | vector _ _ | refs _ => false
  | fixedBytes n => n != 0
  | _ => true

/-- What a field holds; of a child document only its key. -/
inductive FieldValue : FieldKind → Type where
  | uint {w : IntWidth} (v : Word w.bytes) : FieldValue (.uint w)
  | sint {w : IntWidth} (v : Word w.bytes) : FieldValue (.sint w)
  | str (s : String) : FieldValue .str
  | bytes (b : Bytes) : FieldValue .bytes
  | fixedBytes {n : Nat} (b : FixedBytes n) : FieldValue (.fixedBytes n)
  | uuid {name : String} (b : FixedBytes 16) : FieldValue (.uuid name)
  | varInt {w : VarIntWidth} (v : Word w.bytes) : FieldValue (.varInt w)
  | vocab {w : VocabId} (v : Vocab w) : FieldValue (.vocab w)
  | vector {elem : VectorElem} {okLen : Option Nat} (elems : List (Word elem.width)) :
      FieldValue (.vector elem okLen)
  | offset {base : Int64} (v : Int64) : FieldValue (.offset base)
  | quant {p : Nat} (bits : UInt64) : FieldValue (.quant p)
  | reverse {signed : Bool} {w : IntWidth} (v : Word w.bytes) : FieldValue (.reverse signed w)
  | ref {key : KeyShape} (k : KeyValue key) : FieldValue (.ref key)
  | refs {key : KeyShape} (ks : List (KeyValue key)) : FieldValue (.refs key)

/-- `Reversible::rev_encode`: a signed value is biased first. -/
def revEncode {n : Nat} (signed : Bool) (v : Word n) : Bytes :=
  toBe (~~~(if signed then v ^^^ (1#(8 * n) <<< (8 * n - 1)) else v) : Word n)

/-- The keys of a list, one after the other. -/
def encodeKeys {key : KeyShape} : List (KeyValue key) → Except Panic Bytes
  | [] => .ok []
  | k :: ks => do
    let front ← k.encode
    let back ← encodeKeys ks
    .ok (front ++ back)

namespace FieldValue

/-- The `enc` of a field. -/
def encode (checked : Bool) {kind : FieldKind} : FieldValue kind → Except Panic Bytes
  | uint v | sint v => .ok (toBe v)
  | str s => .ok (strBytes s)
  | bytes b => .ok b
  | fixedBytes b | uuid b => .ok b.val
  | varInt v => varintEncodeIn checked v.toNat
  | vocab v => v.wire
  | @vector elem okLen elems =>
    -- The contract of `#[ok_len]` is enforced here and nowhere before.
    if okLen.all (· = elems.length) then .ok (vectorWire elem elems) else .error .expect
  | @offset base v => offsetEncode v base
  | @quant p bits =>
    match quantize bits p with
    | some q => .ok (beBytes 8 (q % 2 ^ 64).toNat)
    | none => .error .overflow
  | @reverse signed _ v => .ok (revEncode signed v)
  | ref k => k.encode
  | refs ks => do
    let keys ← encodeKeys ks
    .ok (beBytes 4 ks.length ++ keys)

/-- A field in the payload: bare in the hot segment, behind its tag and length in the cold
one. -/
def frame (checked : Bool) (tag : UInt8) {kind : FieldKind} (v : FieldValue kind) :
    Except Panic Bytes :=
  if kind.hot then v.encode checked
  else do
    let body ← v.encode checked
    let len ← putLenIn checked body.length
    .ok (tag :: len ++ body)

/-- The document's own intern hook, on one field. -/
def intern (ids : (w : VocabId) → String → Word w.width) {kind : FieldKind} :
    FieldValue kind → FieldValue kind
  | vocab v => vocab (v.intern (ids _))
  | v => v

/-- Can be written once the labels of the document are interned. The key behind a
reference is not part of that: its labels must have their ids already. -/
def Writable (checked : Bool) {kind : FieldKind} : FieldValue kind → Prop
  | str s => MaskFits checked (strBytes s).length
  | bytes b => MaskFits checked b.length
  | varInt v => MaskFits checked v.toNat
  | @vector elem okLen elems =>
    okLen.all (· = elems.length) = true ∧ MaskFits checked (4 + elems.length * elem.width)
  | @offset base v => 0 ≤ v.toInt - base.toInt ∧ v.toInt - base.toInt < 2 ^ 32
  | @quant p bits => (quantize bits p).isSome
  | ref k => k.Interned
  | @refs key ks => (∀ k ∈ ks, k.Interned) ∧ MaskFits checked (4 + ks.length * key.keyLen)
  | _ => True

end FieldValue

/-! ## What can be written -/

theorem maskFits_of_lt {checked : Bool} {n : Nat} (h : n < 2 ^ 49) : MaskFits checked n := by
  intro _ h8
  have := widthOf_eq_eight.mp h8
  omega

theorem not_ok {p : Panic} : ¬ ∃ b : Bytes, (.error p : Except Panic Bytes) = .ok b := by
  rintro ⟨b, hb⟩
  cases hb

theorem putLenIn_eq_ok {checked : Bool} {v : Nat} :
    (∃ b, putLenIn checked v = .ok b) ↔ MaskFits checked v := by
  have hnone : (putLenChecked v).isNone = true ↔ widthOf v = 8 := by
    rcases Nat.lt_or_ge v (2 ^ 64) with hlt | hge
    · rw [putLenChecked_eq hlt]
      by_cases h8 : widthOf v = 8
      · simp [h8]
      · simp [h8]
    · have h9 : widthOf v = 9 := by rw [widthOf, if_pos (by omega)]
      rw [putLenChecked, if_pos h9, h9]
      simp
  unfold putLenIn MaskFits
  by_cases h : checked = true ∧ (putLenChecked v).isNone = true
  · rw [if_pos h]
    exact iff_of_false not_ok fun hfits => hfits h.1 (hnone.mp h.2)
  · rw [if_neg h]
    exact iff_of_true ⟨_, rfl⟩ fun hc h8 => h ⟨hc, hnone.mpr h8⟩

theorem varInt_lt {w : VarIntWidth} (v : Word w.bytes) : v.toNat < 2 ^ 64 := by
  have hwidth : 256 ^ w.bytes ≤ 2 ^ 64 := by cases w <;> decide
  exact lt_of_lt_of_le (word_toNat_lt v) hwidth

theorem length_varintEncodeIn {checked : Bool} {v : Nat} (h : v < 2 ^ 64) {b : Bytes}
    (hb : varintEncodeIn checked v = .ok b) : b.length < 2 ^ 49 := by
  obtain ⟨-, h9, -⟩ := widthOf_bounds h
  unfold varintEncodeIn at hb
  split at hb
  · cases hb
  · obtain rfl := Except.ok.inj hb
    rw [varintEncode_eq h, length_putLen_width h]
    omega

theorem varintEncodeIn_eq_ok {checked : Bool} {v : Nat} (h : v < 2 ^ 64) :
    (∃ b, varintEncodeIn checked v = .ok b) ↔ MaskFits checked v := by
  obtain ⟨-, h9, -⟩ := widthOf_bounds h
  have hnone : (widthOf v ≠ 9 ∧ (shrChecked 8 0xFF (widthOf v)).isNone = true) ↔ widthOf v = 8 := by
    unfold shrChecked
    by_cases h8 : widthOf v < 8
    · rw [if_pos h8]
      exact iff_of_false (by simp) (by omega)
    · rw [if_neg h8]
      constructor
      · intro h
        have hne := h.1
        omega
      · intro h
        exact ⟨by omega, rfl⟩
  unfold varintEncodeIn MaskFits
  by_cases hab : checked = true ∧ widthOf v = 8
  · rw [if_pos ⟨hab.1, hnone.mpr hab.2⟩]
    exact iff_of_false not_ok fun hfits => hfits hab.1 hab.2
  · rw [if_neg fun h => hab ⟨h.1, hnone.mp h.2⟩]
    exact iff_of_true ⟨_, rfl⟩ fun hc h8 => hab ⟨hc, h8⟩

theorem offsetEncode_eq_ok {value base : Int64} :
    (∃ b, offsetEncode value base = .ok b) ↔
      0 ≤ value.toInt - base.toInt ∧ value.toInt - base.toInt < 2 ^ 32 := by
  unfold offsetEncode
  dsimp only
  by_cases h : 0 ≤ value.toInt - base.toInt ∧ value.toInt - base.toInt < 2 ^ 32
  · rw [if_pos ⟨by omega, h⟩]
    exact iff_of_true ⟨_, rfl⟩ h
  · rw [if_neg fun hn => h hn.2]
    exact iff_of_false not_ok h

theorem length_vectorWire (elem : VectorElem) (elems : List (Word elem.width)) :
    (vectorWire elem elems).length = 4 + elems.length * elem.width := by
  rw [vectorWire, List.length_append, length_beBytes, List.length_flatMap]
  simp

theorem length_encodeKeys {key : KeyShape} {ks : List (KeyValue key)} {b : Bytes}
    (h : encodeKeys ks = .ok b) : b.length = ks.length * key.keyLen := by
  induction ks generalizing b with
  | nil =>
    obtain rfl := Except.ok.inj h
    rw [List.length_nil, List.length_nil, Nat.zero_mul]
  | cons k ks ih =>
    obtain ⟨front, hfront, h⟩ := bind_eq_ok.mp h
    obtain ⟨back, hback, h⟩ := bind_eq_ok.mp h
    obtain rfl := Except.ok.inj h
    rw [List.length_append, KeyValue.length_encode hfront, ih hback, List.length_cons, Nat.add_mul]
    omega

theorem encodeKeys_eq_ok {key : KeyShape} {ks : List (KeyValue key)} :
    (∃ b, encodeKeys ks = .ok b) ↔ ∀ k ∈ ks, k.Interned := by
  induction ks with
  | nil => exact iff_of_true ⟨[], rfl⟩ (by simp)
  | cons k ks ih =>
    rw [List.forall_mem_cons, ← KeyValue.encode_eq_ok, ← ih]
    constructor
    · intro h
      obtain ⟨b, h⟩ := h
      obtain ⟨front, hfront, h⟩ := bind_eq_ok.mp h
      obtain ⟨back, hback, -⟩ := bind_eq_ok.mp h
      exact ⟨⟨front, hfront⟩, back, hback⟩
    · intro h
      obtain ⟨⟨front, hfront⟩, back, hback⟩ := h
      refine ⟨front ++ back, ?_⟩
      rw [encodeKeys, hfront, hback]
      rfl

namespace FieldValue

variable {checked : Bool} {tag : UInt8} {kind : FieldKind}

theorem frame_of_hot (h : kind.hot = true) (v : FieldValue kind) :
    v.frame checked tag = v.encode checked := if_pos h

theorem frame_of_cold (h : kind.hot = false) (v : FieldValue kind) :
    (∃ b, v.frame checked tag = .ok b)
      ↔ ∃ body, v.encode checked = .ok body ∧ MaskFits checked body.length := by
  rw [frame, if_neg (by rw [h]; decide)]
  constructor
  · intro hb
    obtain ⟨b, hb⟩ := hb
    obtain ⟨body, hbody, hb⟩ := bind_eq_ok.mp hb
    obtain ⟨len, hlen, -⟩ := bind_eq_ok.mp hb
    exact ⟨body, hbody, putLenIn_eq_ok.mp ⟨len, hlen⟩⟩
  · intro hb
    obtain ⟨body, hbody, hfits⟩ := hb
    obtain ⟨len, hlen⟩ := putLenIn_eq_ok.mpr hfits
    refine ⟨tag :: len ++ body, ?_⟩
    rw [hbody]
    change (putLenIn checked body.length >>= _) = _
    rw [hlen]
    rfl

/-- A cold field that always has a body. -/
theorem frame_of_body (h : kind.hot = false) {v : FieldValue kind} {body : Bytes}
    (hbody : v.encode checked = .ok body) :
    (∃ b, v.frame checked tag = .ok b) ↔ MaskFits checked body.length := by
  rw [frame_of_cold h]
  constructor
  · intro hb
    obtain ⟨body', hbody', hfits⟩ := hb
    rw [hbody] at hbody'
    rwa [Except.ok.inj hbody']
  · exact fun hfits => ⟨body, hbody, hfits⟩

/-- **A document whose labels are interned can be written exactly when each of its fields
is in its wire range.** -/
theorem frame_intern (ids : (w : VocabId) → String → Word w.width) (v : FieldValue kind) :
    (∃ b, (v.intern ids).frame checked tag = .ok b) ↔ v.Writable checked := by
  cases v with
  | uint v => exact iff_of_true ⟨_, rfl⟩ trivial
  | sint v => exact iff_of_true ⟨_, rfl⟩ trivial
  | str s => exact frame_of_body rfl rfl
  | bytes b => exact frame_of_body rfl rfl
  | @fixedBytes n b =>
    refine iff_of_true ?_ trivial
    -- no bytes at all make the field cold
    by_cases hn : n = 0
    · have hcold : (FieldKind.fixedBytes n).hot = false := by simp [FieldKind.hot, hn]
      refine (frame_of_body hcold rfl).mpr (maskFits_of_lt ?_)
      rw [b.property]
      omega
    · have hhot : (FieldKind.fixedBytes n).hot = true := by simp [FieldKind.hot, hn]
      exact ⟨b.val, frame_of_hot hhot _⟩
  | uuid b => exact iff_of_true ⟨_, rfl⟩ trivial
  | @varInt w v =>
    refine (frame_of_cold rfl (varInt v)).trans ?_
    change (∃ body, varintEncodeIn checked v.toNat = .ok body ∧ _) ↔ MaskFits checked v.toNat
    -- a body that is written is short enough to be announced
    rw [← varintEncodeIn_eq_ok (varInt_lt v)]
    constructor
    · intro h
      obtain ⟨body, hbody, -⟩ := h
      exact ⟨body, hbody⟩
    · intro h
      obtain ⟨body, hbody⟩ := h
      exact ⟨body, hbody, maskFits_of_lt (length_varintEncodeIn (varInt_lt v) hbody)⟩
  | vocab v =>
    obtain ⟨id, hid⟩ := v.wire_intern (ids _)
    exact iff_of_true ⟨toBe id, hid⟩ trivial
  | @vector elem okLen elems =>
    refine (frame_of_cold rfl (vector elems)).trans ?_
    change (∃ body, (if okLen.all (· = elems.length) = true then _ else _) = Except.ok body ∧ _) ↔
      okLen.all (· = elems.length) = true ∧ MaskFits checked (4 + elems.length * elem.width)
    -- a length the declaration excludes is refused before anything is framed
    by_cases hok : okLen.all (· = elems.length) = true
    · rw [if_pos hok, ← length_vectorWire]
      constructor
      · intro h
        obtain ⟨body, hbody, hfits⟩ := h
        obtain rfl := Except.ok.inj hbody
        exact ⟨hok, hfits⟩
      · exact fun h => ⟨_, rfl, h.2⟩
    · rw [if_neg hok]
      refine iff_of_false (fun h => ?_) fun h => hok h.1
      obtain ⟨body, hbody, -⟩ := h
      cases hbody
  | @offset base v => exact offsetEncode_eq_ok
  | @quant p bits =>
    refine (exists_congr fun b => by rw [frame_of_hot rfl]).trans ?_
    change (∃ b, encode checked (@quant p bits) = .ok b) ↔ (quantize bits p).isSome = true
    rw [encode]
    cases quantize bits p with
    | none => exact iff_of_false not_ok (by decide)
    | some q => exact iff_of_true ⟨_, rfl⟩ rfl
  | reverse v => exact iff_of_true ⟨_, rfl⟩ trivial
  | ref k => exact KeyValue.encode_eq_ok
  | @refs key ks =>
    refine (frame_of_cold rfl (refs ks)).trans ?_
    change _ ↔ (∀ k ∈ ks, k.Interned) ∧ MaskFits checked (4 + ks.length * key.keyLen)
    -- a key is written when its labels are interned
    rw [← encodeKeys_eq_ok]
    constructor
    · intro h
      obtain ⟨body, hbody, hfits⟩ := h
      obtain ⟨keys, hkeys, hbody⟩ := bind_eq_ok.mp hbody
      obtain rfl := Except.ok.inj hbody
      have hlen := length_encodeKeys hkeys
      rw [List.length_append, length_beBytes, hlen] at hfits
      exact ⟨⟨keys, hkeys⟩, hfits⟩
    · intro h
      obtain ⟨⟨keys, hkeys⟩, hfits⟩ := h
      have hlen := length_encodeKeys hkeys
      refine ⟨beBytes 4 ks.length ++ keys, ?_, ?_⟩
      · change (encodeKeys ks >>= _) = _
        rw [hkeys]
        rfl
      · rwa [List.length_append, length_beBytes, hlen]

end FieldValue

end Okm.Model
