import Okm.Dynamic.Codec
import Okm.Model.Bridge
import Okm.Model.Lengths

/-!
# The generated payload codec

The model of what `emit_payload_encode` and `emit_payload_decode` generate, with the arms of
`field_encoders` they are made of: the header, the hot segment, the cold frames, and the
defaults of what a payload does not carry. Beside the types the map bridge takes there is the
list of texts, which only this codec knows.

A cold frame is written by two expressions of its arm: one counts the value, the other
writes it. Nothing but the arm makes them agree.
-/

namespace Okm.Model

open Lib

/-! ## Field types -/

/-- The declared type of a payload field: one the map bridge takes, or `Vector<String>`. -/
inductive PayloadKind where
  | plain (kind : FieldKind)
  | texts (okLen : Option Nat)

/-- What a field holds. -/
inductive PayloadValue : PayloadKind → Type where
  | plain {kind : FieldKind} (v : FieldValue kind) : PayloadValue (.plain kind)
  | texts {okLen : Option Nat} (elems : List String) : PayloadValue (.texts okLen)

/-- The `width` of an arm; `0` is variable. -/
def FieldKind.width : FieldKind → Nat
  | uint w | sint w | reverse _ w => w.bytes
  | fixedBytes n => n
  | uuid _ => 16
  | vocab w => w.width
  | offset _ => 4
  | quant _ => 8
  | ref key => key.keyLen
  | str | bytes | varInt _ | vector _ _ | refs _ => 0

def PayloadKind.hot : PayloadKind → Bool
  | plain kind => kind.hot
  | texts _ => false

def PayloadKind.width : PayloadKind → Nat
  | plain kind => kind.width
  | texts _ => 0

/-! ## Writing -/

namespace FieldValue

/-- The `len_expr` of an arm. -/
def lenExpr (checked : Bool) {kind : FieldKind} : FieldValue kind → Except Panic Nat
  | str s => .ok (strBytes s).length
  | bytes b => .ok b.length
  | varInt v => (varintEncodeIn checked v.toNat).map List.length
  | @vector elem _ elems => .ok (4 + elems.length * elem.width)
  | @refs key ks => .ok (4 + ks.length * key.keyLen)
  | _ => .ok kind.width

end FieldValue

/-- The element loop of a list of texts: each behind its length. -/
def putTexts (checked : Bool) : List String → Except Panic Bytes
  | [] => .ok []
  | s :: elems => do
    let len ← putLenIn checked (strBytes s).length
    let rest ← putTexts checked elems
    .ok (len ++ strBytes s ++ rest)

/-- The bytes of a list of texts, each behind a length of four bytes. -/
def textBytes (elems : List String) : Nat := (elems.map fun s => 4 + (strBytes s).length).sum

namespace PayloadValue

/-- The `enc` of an arm. -/
def encode (checked : Bool) {kind : PayloadKind} : PayloadValue kind → Except Panic Bytes
  | plain v => v.encode checked
  | @texts okLen elems =>
    if okLen.all (· = elems.length) then do
      let body ← putTexts checked elems
      .ok (beBytes 4 elems.length ++ body)
    else .error .expect

/-- The `len_expr` of an arm. A list of texts counts four bytes for the length of each. -/
def lenExpr (checked : Bool) {kind : PayloadKind} : PayloadValue kind → Except Panic Nat
  | plain v => v.lenExpr checked
  | texts elems => .ok (4 + textBytes elems)

end PayloadValue

/-- A declared payload field. -/
structure PayloadField where
  name : String
  kind : PayloadKind
  dflt : PayloadValue kind

/-- `default_expr`. -/
def PayloadField.default (f : PayloadField) : PayloadValue f.kind :=
  match f.kind, f.dflt with
  | _, .plain v => .plain v.orNoKeys
  | _, .texts elems => .texts elems

/-- The payload side of a declaration. Tags are one byte. -/
structure PayloadDecl where
  version : UInt8
  fields : List PayloadField
  tagged : fields.length ≤ 256

/-- One field of a row. -/
structure PayloadCell where
  field : PayloadField
  value : PayloadValue field.kind

namespace PayloadCell

def hot (c : PayloadCell) : Bool := c.field.kind.hot

end PayloadCell

/-- A frame of the cold segment: the tag, the length it was announced with, the value. -/
structure ColdFrame where
  tag : UInt8
  len : Bytes
  value : Bytes
  deriving DecidableEq

def ColdFrame.bytes (f : ColdFrame) : Bytes := f.tag :: (f.len ++ f.value)

/-- The fixed-width fields, back to back. -/
def hotSegment (checked : Bool) : List PayloadCell → Except Panic Bytes
  | [] => .ok []
  | c :: cells =>
    if c.hot then do
      let front ← c.value.encode checked
      let back ← hotSegment checked cells
      .ok (front ++ back)
    else hotSegment checked cells

/-- The frame of a cold field at position `i`. -/
def PayloadCell.frame (checked : Bool) (i : Nat) (c : PayloadCell) : Except Panic ColdFrame := do
  let n ← c.value.lenExpr checked
  let len ← putLenIn checked n
  let value ← c.value.encode checked
  .ok ⟨UInt8.ofNat i, len, value⟩

/-- The variable-width fields from position `i` on. The position counts all fields. -/
def coldFrames (checked : Bool) (i : Nat) : List PayloadCell → Except Panic (List ColdFrame)
  | [] => .ok []
  | c :: cells =>
    if c.hot then coldFrames checked (i + 1) cells
    else do
      let frame ← c.frame checked i
      let frames ← coldFrames checked (i + 1) cells
      .ok (frame :: frames)

/-- The bytes of a payload: `hot_len` is cut to two bytes. -/
def payloadBytes (version : UInt8) (hot : Bytes) (frames : List ColdFrame) : Bytes :=
  version :: (beBytes 2 hot.length ++ (hot ++ frames.flatMap ColdFrame.bytes))

/-- `encode_payload`. -/
def PayloadDecl.encodePayload (decl : PayloadDecl) (checked : Bool) (cells : List PayloadCell) :
    Except Panic Bytes := do
  let hot ← hotSegment checked cells
  let frames ← coldFrames checked 0 cells
  .ok (payloadBytes decl.version hot frames)

/-! ## Reading -/

/-- The next `n` bytes. -/
def sliceOff (n : Nat) (b : Bytes) : Except Panic (Bytes × Bytes) :=
  if n ≤ b.length then .ok (b.take n, b.drop n) else .error .slice

/-- A text field is valid UTF-8. -/
def textOf (raw : Bytes) : Except Panic String :=
  match strOfBytes raw with
  | some s => .ok s
  | none => .error .expect

/-- The number a quantised integer stands for, over its power of ten. -/
def dequantised (w : Int64) (c : Nat) : UInt64 :=
  Dynamic.bitsOf (Dynamic.quotient (Dynamic.doubleOf w) c)

/-- `dequantize`. -/
def dequantize (w : Int64) (p : Nat) : Except Panic UInt64 :=
  match pow10 p with
  | some c => .ok (dequantised w c)
  | none => .error .overflow

/-- `Reversible::rev_decode`. -/
def revDecode {n : Nat} (signed : Bool) (b : Bytes) : Word n :=
  let flipped := ~~~(ofBe n b)
  if signed then flipped ^^^ (1#(8 * n) <<< (8 * n - 1)) else flipped

/-- `offset_decode`: the sum leaves its type in a build that does not check it. -/
def offsetDecode (checked : Bool) (raw : Bytes) (base : Int64) : Except Panic Int64 :=
  if checked = true ∧ 2 ^ 63 ≤ base.toInt + beNat raw then .error .overflow
  else .ok (base + Int64.ofNat (beNat raw))

/-- The key loop of a list of references. -/
def takeKeys (key : KeyShape) : Nat → Bytes → Except Panic (List (KeyValue key) × Bytes)
  | 0, b => .ok ([], b)
  | n + 1, b => do
    let (raw, rest) ← sliceOff key.keyLen b
    let k ← KeyValue.decode key raw
    let (ks, rest) ← takeKeys key n rest
    .ok (k :: ks, rest)

/-- The element loop of a list of texts. -/
def takeTexts (checked : Bool) : Nat → Bytes → Except Panic (List String)
  | 0, _ => .ok []
  | n + 1, b => do
    let (len, took) ← takeLenIn checked b
    let (raw, rest) ← sliceOff len (b.drop took)
    let s ← textOf raw
    let elems ← takeTexts checked n rest
    .ok (s :: elems)

/-- The count of a list and the slice its elements are read from: what the frame's length
leaves behind the count. -/
def takeCounted (len : Nat) (b : Bytes) : Except Panic ((Nat × Bytes) × Bytes) := do
  let (count, rest) ← sliceOff 4 b
  if len < 4 then .error .slice
  else do
    let (body, rest) ← sliceOff (len - 4) rest
    .ok ((beNat count, body), rest)

/-- The `dec` of an arm, on the bytes from its cursor on; `len` is what the frame announces. -/
def FieldKind.decode (checked : Bool) (len : Nat) (b : Bytes) :
    (kind : FieldKind) → Except Panic (FieldValue kind × Bytes)
  | .uint w => do
    let (raw, rest) ← sliceOff w.bytes b
    .ok (.uint (ofBe w.bytes raw), rest)
  | .sint w => do
    let (raw, rest) ← sliceOff w.bytes b
    .ok (.sint (ofBe w.bytes raw), rest)
  | .str => do
    let (raw, rest) ← sliceOff len b
    let s ← textOf raw
    .ok (.str s, rest)
  | .bytes => do
    let (raw, rest) ← sliceOff len b
    .ok (.bytes raw, rest)
  | .fixedBytes n =>
    if h : n ≤ b.length then .ok (.fixedBytes ⟨b.take n, List.length_take_of_le h⟩, b.drop n)
    else .error .slice
  | .uuid _ =>
    if h : 16 ≤ b.length then .ok (.uuid ⟨b.take 16, List.length_take_of_le h⟩, b.drop 16)
    else .error .slice
  | .varInt _ => do
    let (v, took) ← takeLenIn checked b
    .ok (.varInt (BitVec.ofNat _ v), b.drop took)
  | .vocab w => do
    let (raw, rest) ← sliceOff w.width b
    .ok (.vocab (Vocab.fromId (ofBe w.width raw)), rest)
  | .vector elem _ => do
    let ((count, body), rest) ← takeCounted len b
    let elems ← readElems elem count body
    .ok (.vector elems, rest)
  | .offset base => do
    let (raw, rest) ← sliceOff 4 b
    let v ← offsetDecode checked raw base
    .ok (.offset v, rest)
  | .quant p => do
    let (raw, rest) ← sliceOff 8 b
    let bits ← dequantize (Dynamic.int64OfBytes raw) p
    .ok (.quant bits, rest)
  | .reverse signed w => do
    let (raw, rest) ← sliceOff w.bytes b
    .ok (.reverse (revDecode signed raw), rest)
  | .ref key => do
    let (raw, rest) ← sliceOff key.keyLen b
    let k ← KeyValue.decode key raw
    .ok (.ref k, rest)
  | .refs key => do
    let (count, rest) ← sliceOff 4 b
    let (ks, rest) ← takeKeys key (beNat count) rest
    .ok (.refs ks, rest)

def PayloadKind.decode (checked : Bool) (len : Nat) (b : Bytes) :
    (kind : PayloadKind) → Except Panic (PayloadValue kind × Bytes)
  | .plain kind => do
    let (v, rest) ← kind.decode checked len b
    .ok (.plain v, rest)
  | .texts _ => do
    let ((count, body), rest) ← takeCounted len b
    let elems ← takeTexts checked count body
    .ok (.texts elems, rest)

/-- The hot walk, with `left` bytes before `hot_end`: a field that does not fit there takes
its default and leaves the cursor where it is. -/
def hotWalk (checked : Bool) : Nat → Bytes → List PayloadField → Except Panic (List PayloadCell)
  | _, _, [] => .ok []
  | left, b, f :: fields =>
    if f.kind.hot then
      if f.kind.width ≤ left then do
        let (v, rest) ← f.kind.decode checked f.kind.width b
        let cells ← hotWalk checked (left - f.kind.width) rest fields
        .ok (⟨f, v⟩ :: cells)
      else do
        let cells ← hotWalk checked left b fields
        .ok (⟨f, f.default⟩ :: cells)
    else hotWalk checked left b fields

/-- The cold walk from position `i` on: a frame of another tag is left for a later field. -/
def coldWalk (checked : Bool) : Nat → Bytes → List PayloadField → Except Panic (List PayloadCell)
  | _, _, [] => .ok []
  | i, b, f :: fields =>
    if f.kind.hot then coldWalk checked (i + 1) b fields
    else if b.head? = some (UInt8.ofNat i) then do
      let (len, took) ← takeLenIn checked b.tail
      let (v, rest) ← f.kind.decode checked len (b.tail.drop took)
      let cells ← coldWalk checked (i + 1) rest fields
      .ok (⟨f, v⟩ :: cells)
    else do
      let cells ← coldWalk checked (i + 1) b fields
      .ok (⟨f, f.default⟩ :: cells)

/-- The struct literal: each field out of the walk that read it. -/
def gather : List PayloadField → List PayloadCell → List PayloadCell → List PayloadCell
  | [], _, _ => []
  | f :: fields, hot, cold =>
    if f.kind.hot then hot.take 1 ++ gather fields hot.tail cold
    else cold.take 1 ++ gather fields hot cold.tail

/-- `decode_payload`. -/
def PayloadDecl.decodePayload (decl : PayloadDecl) (checked : Bool) (b : Bytes) :
    Except Panic (List PayloadCell) :=
  match b with
  | [] => .error .slice
  | version :: rest =>
    if decl.version < version then .error .expect
    else do
      let (hotLen, rest) ← sliceOff 2 rest
      let hot ← hotWalk checked (beNat hotLen) rest decl.fields
      let cold ← coldWalk checked 0 (rest.drop (beNat hotLen)) decl.fields
      .ok (gather decl.fields hot cold)

/-! ## Rows -/

namespace Vocab

/-- What is left of a label on the wire: its id. -/
def stored {w : VocabId} (v : Vocab w) : Vocab w :=
  match v.id with
  | some id => fromId id
  | none => v

end Vocab

def KeyPart.stored {f : KeyField} : KeyPart f → KeyPart f
  | vocab v => vocab v.stored
  | v => v

def KeyValue.stored {shape : KeyShape} : KeyValue shape → KeyValue shape
  | nil => nil
  | cons v rest => cons v.stored (stored rest)

namespace FieldValue

/-- What is left of a value on the wire: of a label its id, of a number its quantised value. -/
def stored {kind : FieldKind} : FieldValue kind → FieldValue kind
  | vocab v => vocab v.stored
  | @quant p bits =>
    match quantize bits p, pow10 p with
    | some q, some c => quant (dequantised (Int64.ofInt q) c)
    | _, _ => quant bits
  | ref k => ref k.stored
  | refs ks => refs (ks.map KeyValue.stored)
  | v => v

/-- Fits its field: the labels are interned, the numbers are in their wire range, a vector
has the length its attribute asks for. Nothing in memory is as long as `2 ^ 63` bytes. -/
def Fits {kind : FieldKind} : FieldValue kind → Prop
  | str s => (strBytes s).length < 2 ^ 63
  | bytes b => b.length < 2 ^ 63
  | vocab v => v.id.isSome
  | @vector elem okLen elems =>
    okLen.all (· = elems.length) = true ∧ 4 + elems.length * elem.width < 2 ^ 63
  | @offset base v => 0 ≤ v.toInt - base.toInt ∧ v.toInt - base.toInt < 2 ^ 32
  | @quant p bits => (quantize bits p).isSome
  | ref k => k.Interned
  | @refs key ks => (∀ k ∈ ks, k.Interned) ∧ 4 + ks.length * key.keyLen < 2 ^ 63
  | _ => True

/-- No length and no `VarInt` of width eight, no list of `2 ^ 32` items. -/
def Regular {kind : FieldKind} : FieldValue kind → Prop
  | str s => widthOf (strBytes s).length ≠ 8
  | bytes b => widthOf b.length ≠ 8
  | varInt v => widthOf v.toNat ≠ 8
  | @vector elem _ elems =>
    elems.length < 2 ^ 32 ∧ widthOf (4 + elems.length * elem.width) ≠ 8
  | @refs key ks => ks.length < 2 ^ 32 ∧ widthOf (4 + ks.length * key.keyLen) ≠ 8
  | _ => True

end FieldValue

/-- The bytes of a list of texts that are not text: the length of each. -/
def lengthBytes (elems : List String) : Nat :=
  (elems.map fun s => widthOf (strBytes s).length).sum

namespace PayloadValue

def stored {kind : PayloadKind} : PayloadValue kind → PayloadValue kind
  | plain v => plain v.stored
  | texts elems => texts elems

def Fits {kind : PayloadKind} : PayloadValue kind → Prop
  | plain v => v.Fits
  | @texts okLen elems =>
    okLen.all (· = elems.length) = true ∧ 4 + elems.length * 9 + textBytes elems < 2 ^ 63

/-- In a list of texts the lengths take four bytes each on the whole, as the count of the
frame has it. -/
def Regular {kind : PayloadKind} : PayloadValue kind → Prop
  | plain v => v.Regular
  | texts elems =>
    elems.length < 2 ^ 32 ∧ lengthBytes elems = 4 * elems.length
      ∧ (∀ s ∈ elems, widthOf (strBytes s).length ≠ 8) ∧ widthOf (4 + textBytes elems) ≠ 8

end PayloadValue

namespace PayloadCell

def stored (c : PayloadCell) : PayloadCell := ⟨c.field, c.value.stored⟩

end PayloadCell

/-- A row of a declaration: a value for each field that fits it, below the 64 KiB its hot
segment may take. -/
structure PayloadRow (decl : PayloadDecl) where
  cells : List PayloadCell
  fields : cells.map PayloadCell.field = decl.fields
  fits : ∀ c ∈ cells, c.value.Fits
  hotFits : (decl.fields.map fun f => f.kind.width).sum < 2 ^ 16

/-- **The promise of the codec for a row**: what was written is read back, and each frame
announces the bytes it has. -/
def PayloadDecl.RoundTrips (decl : PayloadDecl) (checked : Bool) (row : PayloadRow decl) : Prop :=
  ∃ hot frames, hotSegment checked row.cells = .ok hot
    ∧ coldFrames checked 0 row.cells = .ok frames
    ∧ decl.encodePayload checked row.cells = .ok (payloadBytes decl.version hot frames)
    ∧ (∀ frame ∈ frames,
        takeLen (frame.len ++ frame.value) = some (frame.value.length, frame.len.length))
    ∧ decl.decodePayload checked (payloadBytes decl.version hot frames)
        = .ok (row.cells.map PayloadCell.stored)

end Okm.Model
