import Okm.Engine.Storage

/-!
# The frame codec

The model of `okm-wire`: the bucketed length prefix, the op frame a sender
ships, and the response shapes. A decoder reads the front of what remains and
answers the rest, which is the source's `frame`/`pos` pair with the consumed part
cut off; a truncated or malformed frame is `none`.
-/

namespace Okm.Wire

open Lib

/-- Op tags: the high nibble of the op header byte. -/
def opPut : UInt8 := 0
def opDelete : UInt8 := 1
def opGet : UInt8 := 2
def opScan : UInt8 := 3
def opScanStream : UInt8 := 4

/-- Chunk trailers: more chunks follow, or this one is the last. -/
def tailMore : UInt8 := 0x00
def tailFinal : UInt8 := 0x01

def lenInline : UInt8 := 0b00
def lenU8 : UInt8 := 0b01
def lenU16 : UInt8 := 0b10
def lenU32 : UInt8 := 0b11

/-- The bytes of a bucketed length: two selector bits, then the value. -/
def putLen (value : Nat) : Bytes :=
  if value < 2 ^ 6 then [lenInline <<< 6 ||| UInt8.ofNat value]
  else if value < 2 ^ 14 then [lenU8 <<< 6 ||| UInt8.ofNat (value / 2 ^ 8), UInt8.ofNat value]
  else if value < 2 ^ 22 then (lenU16 <<< 6 ||| UInt8.ofNat (value / 2 ^ 16)) :: beBytes 2 value
  else lenU32 <<< 6 :: beBytes 4 value

/-- Take `n` bytes; `none` is a truncated frame. -/
def take (frame : Bytes) (n : Nat) : Option (Bytes × Bytes) :=
  if n ≤ frame.length then some (frame.take n, frame.drop n) else none

/-- Read one bucketed length. -/
def getLen : Bytes → Option (Nat × Bytes)
  | [] => none
  | first :: frame =>
    let selector := first >>> 6
    let high := (first &&& 0x3f).toNat
    if selector = lenInline then some (high, frame)
    else if selector = lenU8 then
      (take frame 1).map fun (rest, frame) => (high * 2 ^ 8 + beNat rest, frame)
    else if selector = lenU16 then
      (take frame 2).map fun (rest, frame) => (high * 2 ^ 16 + beNat rest, frame)
    else (take frame 4).map fun (rest, frame) => (beNat rest, frame)

/-- One op header: tag, key length, value length. -/
def putOpHeader (tag : UInt8) (keyLen valueLen : Nat) : Bytes :=
  tag <<< 4 :: putLen keyLen ++ putLen valueLen

def getOpHeader : Bytes → Option ((UInt8 × Nat × Nat) × Bytes)
  | [] => none
  | byte :: frame => do
    let tag := byte >>> 4
    let (keyLen, frame) ← getLen frame
    let (valueLen, frame) ← getLen frame
    some ((tag, keyLen, valueLen), frame)

/-- One op: tag, key, value. -/
abbrev FrameOp := UInt8 × Bytes × Bytes

/-- A request frame: a list of ops in one shape, mutating and querying alike. -/
structure OpFrame where
  ops : List FrameOp
  deriving DecidableEq, Repr

namespace OpFrame

def one (tag : UInt8) (key value : Bytes) : OpFrame := ⟨[(tag, key, value)]⟩

/-- A batch as one write frame; a pending delete carries no value. -/
def writeBatch (ops : List (Op Bytes Bytes)) : OpFrame :=
  ⟨ops.map fun
    | (k, some v) => (opPut, k, v)
    | (k, none) => (opDelete, k, [])⟩

def encodeOp : FrameOp → Bytes
  | (tag, key, value) => putOpHeader tag key.length value.length ++ key ++ value

def encode (frame : OpFrame) : Bytes :=
  putLen frame.ops.length ++ (frame.ops.map encodeOp).flatten

/-- Read one op; an unknown tag rejects the whole frame. -/
def decodeOp (frame : Bytes) : Option (FrameOp × Bytes) := do
  let ((tag, klen, vlen), frame) ← getOpHeader frame
  if tag > opScanStream then none
  else do
    let (key, frame) ← take frame klen
    let (value, frame) ← take frame vlen
    some ((tag, key, value), frame)

def decodeOps : Nat → Bytes → Option (List FrameOp × Bytes)
  | 0, frame => some ([], frame)
  | count + 1, frame => do
    let (op, frame) ← decodeOp frame
    let (ops, frame) ← decodeOps count frame
    some (op :: ops, frame)

/-- Decode a frame; bytes after the last op are not looked at. -/
def decode (frame : Bytes) : Option OpFrame := do
  let (count, frame) ← getLen frame
  let (ops, _) ← decodeOps count frame
  some ⟨ops⟩

end OpFrame

/-- The receiver's answer to one request frame. -/
structure OpResponse where
  value : Option Bytes := none
  suffixes : List Bytes := []
  hits : List (Bytes × Bytes) := []
  tail : Option UInt8 := none
  fault : Option String := none
  deriving DecidableEq, Repr

/-! ## The codec reads back what it wrote -/

/-- The selector and the value bits of a length byte come apart again. -/
theorem lenByte_split (s : Fin 4) (h : Fin 64) :
    let byte := UInt8.ofNat s.val <<< 6 ||| UInt8.ofNat h.val
    byte >>> 6 = UInt8.ofNat s.val ∧ (byte &&& 0x3f).toNat = h.val := by
  revert s h
  decide

theorem lenByte_selector {s : UInt8} (hs : s.toNat < 4) {h : Nat} (hh : h < 64) :
    (s <<< 6 ||| UInt8.ofNat h) >>> 6 = s ∧ ((s <<< 6 ||| UInt8.ofNat h) &&& 0x3f).toNat = h := by
  have hsplit := lenByte_split ⟨s.toNat, hs⟩ ⟨h, hh⟩
  have hself : UInt8.ofNat s.toNat = s := UInt8.ofNat_toNat
  simpa only [hself] using hsplit

@[simp] theorem take_append (a b : Bytes) : take (a ++ b) a.length = some (a, b) := by
  simp [take]

theorem take_beBytes (w n : Nat) (b : Bytes) :
    take (beBytes w n ++ b) w = some (beBytes w n, b) := by
  have h := take_append (beBytes w n) b
  rwa [length_beBytes] at h

/-- **A length survives the codec**, whatever bytes follow it. -/
theorem getLen_putLen {n : Nat} (h : n < 2 ^ 32) (rest : Bytes) :
    getLen (putLen n ++ rest) = some (n, rest) := by
  unfold putLen
  split
  · rename_i h6
    obtain ⟨hsel, hval⟩ := lenByte_selector (s := lenInline) (by decide) (show n < 64 from h6)
    simp only [List.singleton_append, getLen, hsel, hval, if_pos]
  split
  · rename_i h6 h14
    have hhigh : n / 2 ^ 8 < 64 := by omega
    obtain ⟨hsel, hval⟩ := lenByte_selector (s := lenU8) (by decide) hhigh
    have hbyte : [UInt8.ofNat n] = beBytes 1 n := rfl
    have hlow : beNat (beBytes 1 n) = n % 256 := beNat_beBytes_mod 1 n
    have hne : ¬ lenU8 = lenInline := by decide
    rw [List.cons_append, getLen, hbyte, take_beBytes]
    simp only [hsel, hval, hlow, if_neg hne, if_pos, Option.map_some, Option.some.injEq,
      Prod.mk.injEq, and_true]
    omega
  split
  · rename_i h6 h14 h22
    have hhigh : n / 2 ^ 16 < 64 := by omega
    obtain ⟨hsel, hval⟩ := lenByte_selector (s := lenU16) (by decide) hhigh
    have hlow : beNat (beBytes 2 n) = n % 256 ^ 2 := beNat_beBytes_mod 2 n
    have hne : ¬ lenU16 = lenInline := by decide
    have hne' : ¬ lenU16 = lenU8 := by decide
    rw [List.cons_append, getLen, take_beBytes]
    simp only [hsel, hval, hlow, if_neg hne, if_neg hne', if_pos, Option.map_some,
      Option.some.injEq, Prod.mk.injEq, and_true]
    omega
  · have hlow : beNat (beBytes 4 n) = n := beNat_beBytes (by omega)
    have hsel : (lenU32 <<< 6) >>> 6 = lenU32 := by decide
    have hne : ¬ lenU32 = lenInline ∧ ¬ lenU32 = lenU8 ∧ ¬ lenU32 = lenU16 := by decide
    rw [List.cons_append, getLen, take_beBytes]
    simp only [hsel, hlow, if_neg hne.1, if_neg hne.2.1, if_neg hne.2.2, Option.map_some]

theorem tag_shift {tag : UInt8} (h : tag ≤ opScanStream) : (tag <<< 4) >>> 4 = tag := by
  have key : ∀ t : Fin 5, (UInt8.ofNat t.val <<< 4) >>> 4 = UInt8.ofNat t.val := by decide
  have hlt : tag.toNat < 5 := by
    have := UInt8.le_iff_toNat_le.mp h
    change tag.toNat ≤ 4 at this
    omega
  have hself : UInt8.ofNat tag.toNat = tag := UInt8.ofNat_toNat
  have hkey := key ⟨tag.toNat, hlt⟩
  simpa only [hself] using hkey

/-- What the length prefixes of a frame can express. -/
structure OpFrame.Fits (frame : OpFrame) : Prop where
  count : frame.ops.length < 2 ^ 32
  tag : ∀ op ∈ frame.ops, op.1 ≤ opScanStream
  key : ∀ op ∈ frame.ops, op.2.1.length < 2 ^ 32
  value : ∀ op ∈ frame.ops, op.2.2.length < 2 ^ 32

namespace OpFrame

theorem decodeOp_encodeOp {tag : UInt8} {key value : Bytes} (ht : tag ≤ opScanStream)
    (hk : key.length < 2 ^ 32) (hv : value.length < 2 ^ 32) (rest : Bytes) :
    decodeOp (encodeOp (tag, key, value) ++ rest) = some ((tag, key, value), rest) := by
  have hhead : getOpHeader (putOpHeader tag key.length value.length ++ (key ++ (value ++ rest)))
      = some ((tag, key.length, value.length), key ++ (value ++ rest)) := by
    simp only [putOpHeader, List.cons_append, List.append_assoc, getOpHeader, tag_shift ht,
      getLen_putLen hk, getLen_putLen hv, Option.bind_eq_bind, Option.bind_some]
  have hnt : ¬ tag > opScanStream := not_lt.mpr ht
  simp only [encodeOp, List.append_assoc, decodeOp, hhead, Option.bind_eq_bind, Option.bind_some,
    if_neg hnt, take_append]

theorem decodeOps_encode {ops : List FrameOp} (ht : ∀ op ∈ ops, op.1 ≤ opScanStream)
    (hk : ∀ op ∈ ops, op.2.1.length < 2 ^ 32) (hv : ∀ op ∈ ops, op.2.2.length < 2 ^ 32)
    (rest : Bytes) :
    decodeOps ops.length ((ops.map encodeOp).flatten ++ rest) = some (ops, rest) := by
  induction ops with
  | nil => rfl
  | cons op ops ih =>
    have hop := decodeOp_encodeOp (ht op (by simp)) (hk op (by simp)) (hv op (by simp))
      ((ops.map encodeOp).flatten ++ rest)
    have hops := ih (fun o ho => ht o (by simp [ho])) (fun o ho => hk o (by simp [ho]))
      (fun o ho => hv o (by simp [ho]))
    rw [List.length_cons, List.map_cons, List.flatten_cons, List.append_assoc, decodeOps]
    simp only [hop, hops, Option.bind_eq_bind, Option.bind_some]

/-- **A request frame survives the codec.** -/
theorem decode_encode {frame : OpFrame} (h : frame.Fits) : decode frame.encode = some frame := by
  have hops := decodeOps_encode h.tag h.key h.value []
  rw [List.append_nil] at hops
  simp only [decode, encode, getLen_putLen h.count, hops, Option.bind_eq_bind, Option.bind_some]

end OpFrame

end Okm.Wire
