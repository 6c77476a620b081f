import Okm.Lib.ZigZag
import Okm.Model.Slot

/-!
# The bytes of a series log

The model of `okm-series/src/format.rs`: varints, the part and block headers, the
footer, index rows, and one record inside a block. A reader takes what it reads
off the front of the bytes and answers the rest, which is the source's slice and
position with the consumed part cut off.

Numbers are naturals; the field widths are those of the layout, and `Fits` says
which values a field holds. Every structure reads back what it writes when its
fields fit.
-/

namespace Okm.Series

open Lib

/-! ## What the crate takes from elsewhere -/

/-- zstd's bulk codec, the 64-bit hash, and how a float is printed. -/
structure Vendor where
  compress : Int → Bytes → Option Bytes
  decompress : Bytes → Nat → Option Bytes
  xxh64 : Bytes → UInt64
  showF64 : UInt64 → String

/-- What zstd documents: compressed bytes are got back when their length is given, and
a frame is never empty. -/
def Vendor.Lawful (v : Vendor) : Prop :=
  ∀ level raw packed, v.compress level raw = some packed →
    v.decompress packed raw.length = some raw ∧ packed ≠ []

inductive Error where
  | io
  | badFrame (what : String)
  | badPath
  | codec
  | overflow
  | timeBackwards (last given : Nat)
  | missingPartition (tag : UInt16)
  /-- Not an answer of the crate: an index out of range, or arithmetic past its width. -/
  | panic
  deriving DecidableEq

/-! ## Layout -/

def partMagic : Bytes := [79, 75, 77, 83]
def blockMagic : Bytes := [79, 75, 77, 66]
def footerMagic : Bytes := [79, 75, 77, 70]
def indexMagic : Bytes := [79, 75, 77, 73]
def dictFileMagic : Bytes := [79, 75, 77, 68]
def dictBlockMagic : Bytes := [79, 75, 77, 75]
def version : UInt8 := 1

def partHeaderLen : Nat := 48
def blockHeaderLen : Nat := 40
def footerLen : Nat := 40
def indexHeaderLen : Nat := 8
def indexRowLen : Nat := 32
def dictFileHeaderLen : Nat := 8
def dictBlockHeaderLen : Nat := 32

/-- The big-endian number in `bytes[at..at + len]`. -/
def field (bytes : Bytes) (at_ len : Nat) : Nat := beNat ((bytes.drop at_).take len)

/-- The unit of a stored timestamp. -/
inductive Precision where
  | s
  | ms
  | us
  | ns
  deriving DecidableEq

namespace Precision

def code : Precision → UInt8
  | s => 0
  | ms => 1
  | us => 2
  | ns => 3

def fromCode (code : UInt8) : Option Precision :=
  if code = 0 then some s
  else if code = 1 then some ms
  else if code = 2 then some us
  else if code = 3 then some ns
  else none

/-- How many of these units make a second. -/
def perSecond : Precision → Nat
  | s => 1
  | ms => 1000
  | us => 1000000
  | ns => 1000000000

@[simp] theorem fromCode_code (p : Precision) : fromCode p.code = some p := by
  cases p <;> rfl

end Precision

/-- A `seek` and a `write_all`: what was there before is overwritten, and a gap is
filled with zeros. -/
def writeAt (file : Bytes) (at_ : Nat) (bytes : Bytes) : Bytes :=
  file.take at_ ++ List.replicate (at_ - file.length) 0 ++ bytes ++ file.drop (at_ + bytes.length)

/-- A write over what stands behind the end of a file. -/
theorem writeAt_append (file rest bytes : Bytes) :
    writeAt (file ++ rest) file.length bytes = file ++ (bytes ++ rest.drop bytes.length) := by
  have hgap : file.length - (file ++ rest).length = 0 := by
    rw [List.length_append]
    omega
  rw [writeAt, List.take_left, hgap, List.drop_length_add_append]
  simp

theorem writeAt_end (file bytes : Bytes) : writeAt file file.length bytes = file ++ bytes := by
  have h := writeAt_append file [] bytes
  simpa using h

/-! ## Varints -/

/-- The loop of `put_varint`, over the groups of seven bits a `u64` can have. -/
def putVarintGroups : Nat → Nat → Bytes
  | 0, _ => []
  | groups + 1, value =>
    if value / 128 = 0 then [UInt8.ofNat (value % 128)]
    else UInt8.ofNat (value % 128 + 128) :: putVarintGroups groups (value / 128)

/-- `put_varint`. -/
def putVarint (value : Nat) : Bytes := putVarintGroups 10 value

/-- The loop of `get_varint`, at the shift and with the value it has reached. -/
def getVarintFrom (shift value : Nat) : Bytes → Option (Nat × Bytes)
  | [] => none
  | byte :: rest =>
    if 64 ≤ shift then none
    else
      let value := value ||| (byte.toNat % 128) <<< shift % 2 ^ 64
      if byte < 0x80 then some (value, rest) else getVarintFrom (shift + 7) value rest

/-- `get_varint`. -/
def getVarint (bytes : Bytes) : Option (Nat × Bytes) := getVarintFrom 0 0 bytes

theorem toNat_lowGroup (n : Nat) : (UInt8.ofNat (n % 128)).toNat = n % 128 := by
  rw [UInt8.toNat_ofNat']
  omega

theorem toNat_highGroup (n : Nat) : (UInt8.ofNat (n % 128 + 128)).toNat = n % 128 + 128 := by
  rw [UInt8.toNat_ofNat']
  omega

theorem or_shiftLeft {value group shift : Nat} (h : value < 2 ^ shift) :
    value ||| group <<< shift = value + group * 2 ^ shift := by
  rw [Nat.shiftLeft_eq, Nat.or_comm, Nat.mul_comm, ← Nat.two_pow_add_eq_or_of_lt h, Nat.add_comm]

theorem getVarintFrom_putVarintGroups (groups shift value : Nat) {v : Nat} (rest : Bytes)
    (hgroups : 1 ≤ groups) (hv : v < 128 ^ groups) (hshift : shift + 7 * groups ≤ 70)
    (hvalue : value < 2 ^ shift) (hfit : value + v * 2 ^ shift < 2 ^ 64) :
    getVarintFrom shift value (putVarintGroups groups v ++ rest)
      = some (value + v * 2 ^ shift, rest) := by
  induction groups generalizing shift value v with
  | zero => omega
  | succ groups ih =>
    have hpow : 0 < 2 ^ shift := Nat.two_pow_pos shift
    -- the low group goes first, the rest one shift up
    have hsplit : v * 2 ^ shift = v % 128 * 2 ^ shift + v / 128 * 2 ^ (shift + 7) := by
      have h := Nat.mod_add_div v 128
      rw [Nat.pow_add, show (2 : Nat) ^ 7 = 128 from rfl]
      calc v * 2 ^ shift = (v % 128 + 128 * (v / 128)) * 2 ^ shift := by rw [h]
        _ = v % 128 * 2 ^ shift + v / 128 * (2 ^ shift * 128) := by ring
    have hgroup : (v % 128) <<< shift % 2 ^ 64 = (v % 128) <<< shift := by
      rw [Nat.shiftLeft_eq]
      exact Nat.mod_eq_of_lt (by omega)
    rw [putVarintGroups]
    split
    · rename_i hzero
      -- nothing above this group: its byte ends the number
      have hlt : v < 128 := by omega
      have hbyte : (UInt8.ofNat (v % 128)).toNat = v % 128 := toNat_lowGroup v
      have hsmall : UInt8.ofNat (v % 128) < 0x80 := by
        rw [UInt8.lt_iff_toNat_lt, hbyte]
        exact Nat.mod_lt _ (by omega)
      rw [List.cons_append, List.nil_append, getVarintFrom, if_neg (by omega), if_pos hsmall, hbyte,
        Nat.mod_mod, hgroup, or_shiftLeft hvalue, Nat.mod_eq_of_lt hlt]
    · rename_i hzero
      have hbyte : (UInt8.ofNat (v % 128 + 128)).toNat = v % 128 + 128 := toNat_highGroup v
      have hbig : ¬ UInt8.ofNat (v % 128 + 128) < 0x80 := by
        rw [UInt8.lt_iff_toNat_lt, hbyte]
        exact Nat.not_lt.mpr (Nat.le_add_left _ _)
      have hlow : (v % 128 + 128) % 128 = v % 128 := by omega
      -- the groups read so far stay below the next shift
      have hnext : value + v % 128 * 2 ^ shift < 2 ^ (shift + 7) := by
        have hmod : v % 128 < 128 := Nat.mod_lt _ (by omega)
        have hmul : v % 128 * 2 ^ shift ≤ 127 * 2 ^ shift := Nat.mul_le_mul_right _ (by omega)
        rw [Nat.pow_add, show (2 : Nat) ^ 7 = 128 from rfl]
        omega
      have hgroups' : 1 ≤ groups := by
        rcases Nat.eq_zero_or_pos groups with rfl | h
        · rw [Nat.zero_add, Nat.pow_one] at hv
          omega
        · exact h
      have hdiv : v / 128 < 128 ^ groups := by
        rw [Nat.pow_succ] at hv
        exact Nat.div_lt_of_lt_mul (by rwa [Nat.mul_comm] at hv)
      rw [List.cons_append, getVarintFrom, if_neg (by omega), if_neg hbig, hbyte, hlow, hgroup,
        or_shiftLeft hvalue, ih _ _ hgroups' hdiv (by omega) hnext (by omega), hsplit, Nat.add_assoc]

/-- **A varint is read back**, whatever follows it. -/
theorem getVarint_putVarint {v : Nat} (h : v < 2 ^ 64) : Reads getVarint (putVarint v) v := by
  intro rest
  have hv : v < 128 ^ 10 := Nat.lt_of_lt_of_le h (by omega)
  have hread := getVarintFrom_putVarintGroups 10 0 0 rest (by omega)
    hv (by omega) (by omega) (by omega)
  rw [getVarint, putVarint, hread, Nat.pow_zero, Nat.mul_one, Nat.zero_add]

theorem length_putVarintGroups_pos {groups : Nat} (h : 0 < groups) (v : Nat) :
    0 < (putVarintGroups groups v).length := by
  cases groups with
  | zero => omega
  | succ groups =>
    rw [putVarintGroups]
    split <;> simp

theorem putVarint_ne_nil (v : Nat) : putVarint v ≠ [] :=
  List.length_pos_iff.mp (length_putVarintGroups_pos (by omega) v)

/-- `put_svarint`: the sign goes into the lowest bit. -/
def putSvarint (value : Int64) : Bytes :=
  putVarint ((value <<< 1) ^^^ (value >>> 63)).toUInt64.toNat

/-- `get_svarint`. -/
def getSvarint (bytes : Bytes) : Option (Int64 × Bytes) :=
  (getVarint bytes).map fun (raw, rest) =>
    let raw := UInt64.ofNat raw
    ((raw >>> 1).toInt64 ^^^ -(raw &&& 1).toInt64, rest)

theorem zigzag_bits (x : BitVec 64) :
    ((x <<< 1 ^^^ x.sshiftRight 63) >>> 1) ^^^ -((x <<< 1 ^^^ x.sshiftRight 63) &&& 1#64) = x := by
  rw [sshiftRight_sign]
  cases hm : x.msb
  · -- a non-negative value: the low bit stays clear
    have hlow : (x <<< 1 ^^^ 0#64) &&& 1#64 = 0#64 := by
      ext i hi
      by_cases h : i = 0 <;> simp [h, BitVec.getElem_one]
    rw [if_neg (by simp), hlow]
    ext i hi
    by_cases h : i = 63
    · subst h
      have htop : x[63] = false := by
        simpa [BitVec.msb_eq_getLsbD_last, BitVec.getLsbD_eq_getElem] using hm
      simp [htop]
    · simp [show 1 + i < 64 by omega]
  · have hlow : (x <<< 1 ^^^ BitVec.allOnes 64) &&& 1#64 = 1#64 := by
      ext i hi
      by_cases h : i = 0 <;> simp [h, BitVec.getElem_one]
    have hneg : -(1#64) = BitVec.allOnes 64 := by decide
    rw [if_pos (by simp), hlow, hneg]
    ext i hi
    by_cases h : i = 63
    · subst h
      have htop : x[63] = true := by
        simpa [BitVec.msb_eq_getLsbD_last, BitVec.getLsbD_eq_getElem] using hm
      simp [htop]
    · simp [-BitVec.reduceAllOnes, show 1 + i < 64 by omega]

theorem getSvarint_putSvarint (v : Int64) : Reads getSvarint (putSvarint v) v := by
  intro rest
  have hread := getVarint_putVarint
    (UInt64.toNat_lt ((v <<< 1) ^^^ (v >>> 63)).toUInt64) rest
  rw [getSvarint, putSvarint, hread, Option.map_some]
  dsimp only
  rw [UInt64.ofNat_toNat]
  refine congrArg (fun w => some (w, rest)) (Int64.toBitVec_inj.mp ?_)
  simpa using zigzag_bits v.toBitVec

/-! ## Fields of fixed width -/

theorem field_skip {as : Bytes} {i : Nat} (h : as.length ≤ i) (bs : Bytes) (len : Nat) :
    field (as ++ bs) i len = field bs (i - as.length) len := by
  rw [field, field, List.drop_append, List.drop_of_length_le h, List.nil_append]

theorem field_cons {i : Nat} (h : 1 ≤ i) (b : UInt8) (bs : Bytes) (len : Nat) :
    field (b :: bs) i len = field bs (i - 1) len :=
  @field_skip [b] i h bs len

theorem field_beBytes {w n : Nat} (h : n < 256 ^ w) (bs : Bytes) :
    field (beBytes w n ++ bs) 0 w = n := by
  have hw : w = (beBytes w n).length := (length_beBytes w n).symm
  rw [field, List.drop_zero]
  nth_rewrite 1 [hw]
  rw [List.take_left, beNat_beBytes h]

/-! ## The part header -/

/-- The fixed part header, written once. -/
structure PartHeader where
  precision : Precision
  bucket : Nat
  baseTs : Nat
  firstOffset : Nat
  createdUnixMs : Nat
  deriving DecidableEq

namespace PartHeader

def encode (h : PartHeader) : Bytes :=
  partMagic ++ [version, h.precision.code, 0, 0] ++ beBytes 8 h.bucket ++ beBytes 8 h.baseTs
    ++ beBytes 8 h.firstOffset ++ beBytes 8 h.createdUnixMs ++ List.replicate 8 0

def decode (bytes : Bytes) : Option PartHeader :=
  if bytes.length < partHeaderLen ∨ bytes.take 4 ≠ partMagic then none
  else if bytes.getD 4 0 ≠ version then none
  else (Precision.fromCode (bytes.getD 5 0)).map fun precision =>
    ⟨precision, field bytes 8 8, field bytes 16 8, field bytes 24 8, field bytes 32 8⟩

/-- Every field is a `u64`. -/
structure Fits (h : PartHeader) : Prop where
  bucket : h.bucket < 2 ^ 64
  baseTs : h.baseTs < 2 ^ 64
  firstOffset : h.firstOffset < 2 ^ 64
  createdUnixMs : h.createdUnixMs < 2 ^ 64

@[simp] theorem length_encode (h : PartHeader) : h.encode.length = partHeaderLen := by
  simp [encode, partMagic, partHeaderLen]

theorem decode_encode {h : PartHeader} (fits : h.Fits) : decode h.encode = some h := by
  have hmagic : h.encode.take 4 = partMagic := rfl
  have hbucket := field_beBytes (w := 8) fits.bucket
  have hbaseTs := field_beBytes (w := 8) fits.baseTs
  have hfirst := field_beBytes (w := 8) fits.firstOffset
  have hcreated := field_beBytes (w := 8) fits.createdUnixMs
  rw [decode, if_neg (by rw [hmagic]; simp)]
  simp [encode, partMagic, field_skip, field_cons, hbucket, hbaseTs, hfirst, hcreated]

end PartHeader

/-! ## The block header -/

/-- How a block's payload is stored. -/
inductive Codec where
  | raw
  | zstd
  deriving DecidableEq

namespace Codec

def code : Codec → UInt8
  | raw => 0
  | zstd => 1

def fromCode (code : UInt8) : Option Codec :=
  if code = 0 then some raw else if code = 1 then some zstd else none

@[simp] theorem fromCode_code (c : Codec) : fromCode c.code = some c := by
  cases c <;> rfl

end Codec

/-- What a seek needs to know of a block without opening its payload. -/
structure BlockHeader where
  codec : Codec
  records : Nat
  lenC : Nat
  lenU : Nat
  firstTs : Nat
  firstOffset : Nat
  deriving DecidableEq

namespace BlockHeader

def encode (h : BlockHeader) : Bytes :=
  blockMagic ++ [h.codec.code, 0, 0, 0] ++ beBytes 4 h.records ++ beBytes 4 h.lenC
    ++ beBytes 4 h.lenU ++ List.replicate 4 0 ++ beBytes 8 h.firstTs ++ beBytes 8 h.firstOffset

def decode (bytes : Bytes) : Option BlockHeader :=
  if bytes.length < blockHeaderLen ∨ bytes.take 4 ≠ blockMagic then none
  else (Codec.fromCode (bytes.getD 4 0)).map fun codec =>
    ⟨codec, field bytes 8 4, field bytes 12 4, field bytes 16 4, field bytes 24 8,
      field bytes 32 8⟩

/-- Counts and lengths are `u32`, the rest `u64`. -/
structure Fits (h : BlockHeader) : Prop where
  records : h.records < 2 ^ 32
  lenC : h.lenC < 2 ^ 32
  lenU : h.lenU < 2 ^ 32
  firstTs : h.firstTs < 2 ^ 64
  firstOffset : h.firstOffset < 2 ^ 64

@[simp] theorem length_encode (h : BlockHeader) : h.encode.length = blockHeaderLen := by
  simp [encode, blockMagic, blockHeaderLen]

theorem decode_encode {h : BlockHeader} (fits : h.Fits) : decode h.encode = some h := by
  have hmagic : h.encode.take 4 = blockMagic := rfl
  have hrecords := field_beBytes (w := 4) fits.records
  have hlenC := field_beBytes (w := 4) fits.lenC
  have hlenU := field_beBytes (w := 4) fits.lenU
  have hts := field_beBytes (w := 8) fits.firstTs
  have hoffset := field_beBytes (w := 8) fits.firstOffset []
  rw [List.append_nil] at hoffset
  rw [decode, if_neg (by rw [hmagic]; simp)]
  simp [encode, blockMagic, field_skip, field_cons, hrecords, hlenC, hlenU, hts, hoffset]

end BlockHeader

/-! ## The footer -/

/-- The totals a sealed part ends with. -/
structure Footer where
  records : Nat
  lastTs : Nat
  blocks : Nat
  digest : Nat
  deriving DecidableEq

namespace Footer

def encode (f : Footer) : Bytes :=
  footerMagic ++ [version, 0, 0, 0] ++ beBytes 8 f.records ++ beBytes 8 f.lastTs
    ++ beBytes 4 f.blocks ++ List.replicate 4 0 ++ beBytes 8 f.digest

def decode (bytes : Bytes) : Option Footer :=
  if bytes.length < footerLen ∨ bytes.take 4 ≠ footerMagic then none
  else if bytes.getD 4 0 ≠ version then none
  else some ⟨field bytes 8 8, field bytes 16 8, field bytes 24 4, field bytes 32 8⟩

structure Fits (f : Footer) : Prop where
  records : f.records < 2 ^ 64
  lastTs : f.lastTs < 2 ^ 64
  blocks : f.blocks < 2 ^ 32
  digest : f.digest < 2 ^ 64

@[simp] theorem length_encode (f : Footer) : f.encode.length = footerLen := by
  simp [encode, footerMagic, footerLen]

theorem decode_encode {f : Footer} (fits : f.Fits) : decode f.encode = some f := by
  have hmagic : f.encode.take 4 = footerMagic := rfl
  have hrecords := field_beBytes (w := 8) fits.records
  have hts := field_beBytes (w := 8) fits.lastTs
  have hblocks := field_beBytes (w := 4) fits.blocks
  have hdigest := field_beBytes (w := 8) fits.digest []
  rw [List.append_nil] at hdigest
  rw [decode, if_neg (by rw [hmagic]; simp)]
  simp [encode, footerMagic, field_skip, field_cons, hrecords, hts, hblocks, hdigest]

end Footer

/-! ## The index -/

/-- Where a block starts, what record number it starts with, and how big it is. -/
structure IndexRow where
  firstTs : Nat
  firstOffset : Nat
  fileOffset : Nat
  lenC : Nat
  lenU : Nat
  records : Nat
  deriving DecidableEq

namespace IndexRow

def encode (r : IndexRow) : Bytes :=
  beBytes 8 r.firstTs ++ beBytes 8 r.firstOffset ++ beBytes 4 r.fileOffset ++ beBytes 4 r.lenC
    ++ beBytes 4 r.lenU ++ beBytes 4 r.records

def decode (bytes : Bytes) : Option IndexRow :=
  if bytes.length < indexRowLen then none
  else some ⟨field bytes 0 8, field bytes 8 8, field bytes 16 4, field bytes 20 4,
    field bytes 24 4, field bytes 28 4⟩

/-- The row of a block at a byte of the file; none past four gigabytes. -/
def fromHeader (header : BlockHeader) (fileOffset : Nat) : Option IndexRow :=
  if fileOffset < 2 ^ 32 then
    some ⟨header.firstTs, header.firstOffset, fileOffset, header.lenC, header.lenU, header.records⟩
  else none

structure Fits (r : IndexRow) : Prop where
  firstTs : r.firstTs < 2 ^ 64
  firstOffset : r.firstOffset < 2 ^ 64
  fileOffset : r.fileOffset < 2 ^ 32
  lenC : r.lenC < 2 ^ 32
  lenU : r.lenU < 2 ^ 32
  records : r.records < 2 ^ 32

@[simp] theorem length_encode (r : IndexRow) : r.encode.length = indexRowLen := by
  simp [encode, indexRowLen]

theorem decode_encode {r : IndexRow} (fits : r.Fits) : decode r.encode = some r := by
  have hlen : ¬ r.encode.length < indexRowLen := by simp
  have hts := field_beBytes (w := 8) fits.firstTs
  have hoffset := field_beBytes (w := 8) fits.firstOffset
  have hfile := field_beBytes (w := 4) fits.fileOffset
  have hlenC := field_beBytes (w := 4) fits.lenC
  have hlenU := field_beBytes (w := 4) fits.lenU
  have hrecords := field_beBytes (w := 4) fits.records []
  rw [List.append_nil] at hrecords
  rw [decode, if_neg hlen]
  simp [encode, field_skip, hts, hoffset, hfile, hlenC, hlenU, hrecords]

end IndexRow

def indexHeader : Bytes := indexMagic ++ [version, 0, 0, 0]

/-- One row off the front of an index file; a half-written one is not a row. -/
def getIndexRow (bytes : Bytes) : Option (IndexRow × Bytes) := do
  let (chunk, rest) ← takeExact indexRowLen bytes
  let row ← IndexRow.decode chunk
  some (row, rest)

theorem getIndexRow_encode {r : IndexRow} (fits : r.Fits) : Reads getIndexRow r.encode r := by
  intro rest
  simp only [getIndexRow, takeExact_append r.length_encode, Option.bind_eq_bind, Option.bind_some,
    IndexRow.decode_encode fits]

/-! ## One record -/

/-- `put_record`: the length of what follows, the delta, the body. -/
def putRecord (delta : Nat) (body : Bytes) : Option Bytes :=
  let tail := putVarint delta
  let len := tail.length + body.length
  if len < 2 ^ 32 then some (beBytes 4 len ++ tail ++ body) else none

/-- `get_record`: one record off the front of a block payload. -/
def getRecord (payload : Bytes) : Option ((Nat × Bytes) × Bytes) := do
  let (head, rest) ← takeExact 4 payload
  let (slice, rest) ← takeExact (beNat head) rest
  let (delta, body) ← getVarint slice
  some ((delta, body), rest)

theorem getRecord_putRecord {delta : Nat} (hdelta : delta < 2 ^ 64) {body chunk : Bytes}
    (h : putRecord delta body = some chunk) : Reads getRecord chunk (delta, body) := by
  intro rest
  unfold putRecord at h
  dsimp only at h
  split at h
  · rename_i hlen
    obtain rfl := Option.some.inj h
    have hbytes : beNat (beBytes 4 ((putVarint delta).length + body.length))
        = (putVarint delta ++ body).length := by
      rw [beNat_beBytes (Nat.lt_of_lt_of_le hlen (by omega)), List.length_append]
    rw [getRecord, List.append_assoc, List.append_assoc, takeExact_append (length_beBytes 4 _)]
    show (takeExact (beNat _) _).bind _ = _
    rw [hbytes, ← List.append_assoc, takeExact_append rfl]
    show (getVarint (putVarint delta ++ body)).bind _ = _
    rw [getVarint_putVarint hdelta]
    rfl
  · cases h

end Okm.Series
