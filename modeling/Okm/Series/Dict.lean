import Mathlib.Data.String.Basic
import Okm.Lib.SortedMap
import Okm.Series.Format

/-!
# The dictionary of a part

The model of `okm-series/src/dict.rs`: strings that earned a code, in blocks. A
string promoted into block `k` at position `id` is written as the kind byte of `k`
followed by `id` at the block's width. A block goes to the file whole, when it
fills or before a block of records that may refer to it, and is never written
again.

The dictionary keeps the contents behind its write handle. Of the `.tail` file beside it,
which nothing reads, only the write that fails matters (`DictFault.lean`).
-/

namespace Okm.Series

open Lib Model

/-! ## Configuration and codes -/

structure DictConfig where
  tiers : List (Nat × Nat)
  blockEntries : Nat
  deriving DecidableEq

/-- `DictConfig::default()`. -/
def DictConfig.default : DictConfig := ⟨[(4, 10), (8, 5), (16, 3), (0, 2)], 2 ^ 16⟩

/-- The first kind byte that means a code. -/
def dictBase : UInt8 := 16

/-- `width_of`: the width of a block's ids, from its stored code. -/
def widthOf (code : UInt8) : Option Nat :=
  if code = 0 then some 2 else if code = 1 then some 4 else if code = 2 then some 8 else none

/-- The stored code of a width: everything past four bytes is filed as eight. -/
def widthCode (width : Nat) : UInt8 := if width = 2 then 0 else if width = 4 then 1 else 2

/-- `code_of`: the kind byte of a block. Past the last byte it stays there. -/
def codeOf (block : Nat) : UInt8 :=
  let index := if block < 256 then block else 255 - dictBase.toNat
  UInt8.ofNat (min 255 (dictBase.toNat + index))

structure Block where
  width : Nat
  entries : List String
  fileOffset : Nat
  deriving DecidableEq

/-- How many distinct strings are counted before new ones are not. -/
def countTrackLimit : Nat := 2 ^ 20

structure Dict where
  file : Option Bytes
  fileOffset : Nat
  blocks : List Block
  openBlock : Nat
  counts : SortedMap Nat Nat
  promoted : SortedMap String (UInt8 × Nat)
  tiers : List (Nat × Nat)
  blockEntries : Nat
  level : Int

/-! ## Blocks in the file -/

/-- A string in a block's payload. -/
def putText (text : String) : Bytes :=
  putVarint (strBytes text).length ++ strBytes text

def getText (payload : Bytes) : Option (String × Bytes) := do
  let (len, rest) ← getVarint payload
  let (bytes, rest) ← takeExact len rest
  let text ← strOfBytes bytes
  some (text, rest)

def blockPayload (entries : List String) : Bytes := entries.flatMap putText

/-- The header of a dictionary block. -/
def dictBlockHeader (codec : Codec) (width count prev lenC lenU : Nat) : Bytes :=
  dictBlockMagic ++ [version, codec.code, widthCode width, 0] ++ beBytes 4 count
    ++ List.replicate 4 0 ++ beBytes 8 prev ++ beBytes 4 lenC ++ beBytes 4 lenU

/-- What `read_block` finds: the block, and the bytes it takes in the file. -/
structure DecodedBlock where
  width : Nat
  entries : List String
  size : Nat
  deriving DecidableEq

/-- `read_block`, at the front of what is left of the file. -/
def readBlock (v : Vendor) (file : Bytes) : Option (DecodedBlock × Bytes) := do
  let (header, rest) ← takeExact dictBlockHeaderLen file
  if header.take 4 ≠ dictBlockMagic then none
  else
    let codec := (Codec.fromCode (header.getD 5 0)).getD .raw
    let width ← widthOf (header.getD 6 0)
    let count := field header 8 4
    let lenC := field header 24 4
    let lenU := field header 28 4
    let (bytes, rest) ← takeExact lenC rest
    let payload ← match codec with
      | .raw => some bytes
      | .zstd => v.decompress bytes lenU
    if payload.length ≠ lenU then none
    else some (⟨width, (frames getText count payload).1, dictBlockHeaderLen + lenC⟩, rest)

namespace Dict

def fileHeader : Bytes := dictFileMagic ++ [version, 0, 0, 0]

/-- `Dict::create`: the header is in the file, the first block in memory. -/
def create (config : DictConfig) (level : Int) : Dict where
  file := some fileHeader
  fileOffset := dictFileHeaderLen
  blocks := [⟨2, [], 0⟩]
  openBlock := 0
  counts := SortedMap.empty
  promoted := SortedMap.empty
  tiers := config.tiers
  blockEntries := max config.blockEntries 1
  level := level

/-- The blocks the read loop finds, each with the byte it starts at. -/
def placeBlocks : Nat → List DecodedBlock → List Block
  | _, [] => []
  | cursor, b :: bs => ⟨b.width, b.entries, cursor⟩ :: placeBlocks (cursor + b.size) bs

/-- The read loop of `Dict::load`. -/
def readBlocks (v : Vendor) (file : Option Bytes) : List DecodedBlock :=
  match file with
  | none => []
  | some bytes =>
    if bytes.length < dictFileHeaderLen ∨ bytes.take 4 ≠ dictFileMagic then []
    else (frames (readBlock v) bytes.length (bytes.drop dictFileHeaderLen)).1

/-- The codes the strings of a list of blocks have. -/
def promotedFrom : Nat → List Block → SortedMap String (UInt8 × Nat) → SortedMap String (UInt8 × Nat)
  | _, [], codes => codes
  | index, b :: bs, codes =>
    promotedFrom (index + 1) bs
      ((b.entries.zipIdx).foldl (fun codes (text, id) => codes.insert text (codeOf index, id)) codes)

/-- `Dict::load`, from what the path holds. -/
def load (v : Vendor) (file : Option Bytes) (config : DictConfig) (level : Int) : Dict :=
  let found := readBlocks v file
  let blocks := placeBlocks dictFileHeaderLen found
  { file := none
    fileOffset := if found.isEmpty then 0 else dictFileHeaderLen + (found.map DecodedBlock.size).sum
    blocks := blocks
    openBlock := 0
    counts := SortedMap.empty
    promoted := promotedFrom 0 blocks SortedMap.empty
    tiers := config.tiers
    blockEntries := max config.blockEntries 1
    level := level }

/-- `Dict::adopt`: what is on disk is closed, and a fresh block of the last width
follows it. -/
def adopt (v : Vendor) (file : Option Bytes) (config : DictConfig) (level : Int) :
    Except Error Dict :=
  let dict := load v file config level
  match file with
  | none => .error .io
  | some bytes =>
    let width := (dict.blocks.getLast?.map Block.width).getD 2
    .ok { dict with
      file := some bytes
      blocks := dict.blocks ++ [⟨width, [], 0⟩]
      openBlock := dict.blocks.length }

/-- The block a kind byte means. -/
def blockOf (dict : Dict) (code : UInt8) : Option Block :=
  if code < dictBase then none else dict.blocks[(code - dictBase).toNat]?

def lookup (dict : Dict) (code : UInt8) (id : Nat) : Option String := do
  let block ← dict.blockOf code
  block.entries[id]?

def width (dict : Dict) (code : UInt8) : Option Nat := (dict.blockOf code).map Block.width

/-! ## Writing -/

/-- The header and the payload `flush_open_block` writes, compressed when that is
smaller. -/
def packBlock (v : Vendor) (level : Int) (prev : Nat) (block : Block) : Except Error Bytes :=
  let payload := blockPayload block.entries
  match v.compress level payload with
  | none => .error .codec
  | some compressed =>
    let (codec, bytes) :=
      if compressed.length < payload.length then (Codec.zstd, compressed) else (Codec.raw, payload)
    .ok (dictBlockHeader codec block.width block.entries.length prev bytes.length payload.length
      ++ bytes)

/-- `flush_open_block`. -/
def flushOpenBlock (v : Vendor) (dict : Dict) : Except Error Dict :=
  match dict.blocks[dict.openBlock]? with
  | none => .ok dict
  | some block =>
    if block.entries = [] then .ok dict
    else do
      let prev :=
        if dict.openBlock = 0 then 0
        else ((dict.blocks[dict.openBlock - 1]?).map Block.fileOffset).getD 0
      let chunk ← packBlock v dict.level prev block
      match dict.file with
      | none => .error .badPath
      | some file =>
        let at_ := dict.fileOffset
        .ok { dict with
          file := some (writeAt file at_ chunk)
          fileOffset := at_ + chunk.length
          blocks := dict.blocks.set dict.openBlock { block with fileOffset := at_ } }

/-- A fresh block behind the open one. -/
def pushBlock (dict : Dict) (width : Nat) : Dict :=
  { dict with blocks := dict.blocks ++ [⟨width, [], 0⟩], openBlock := dict.blocks.length }

/-- The width of the open block. -/
def openWidth (dict : Dict) : Nat := ((dict.blocks[dict.openBlock]?).map Block.width).getD 0

/-- `close_block`: write the open block and start a wider one; nothing when the
write fails. -/
def closeBlock (v : Vendor) (dict : Dict) : Dict :=
  match dict.flushOpenBlock v with
  | .error _ => dict
  | .ok dict => dict.pushBlock (dict.openWidth * 2)

/-- The strings of the open block. -/
def openEntries (dict : Dict) : List String :=
  ((dict.blocks[dict.openBlock]?).map Block.entries).getD []

/-- The entry `promote` makes in the open block. -/
def enter (dict : Dict) (text : String) : Dict × (UInt8 × Nat) :=
  let coded := (codeOf dict.openBlock, dict.openEntries.length)
  ({ dict with
    blocks := dict.blocks.modify dict.openBlock fun b => { b with entries := b.entries ++ [text] }
    promoted := dict.promoted.insert text coded }, coded)

/-- What `promote` enters into: a full open block is closed first. -/
def ready (v : Vendor) (dict : Dict) : Dict :=
  if dict.blockEntries ≤ dict.openEntries.length then dict.closeBlock v else dict

/-- `promote`. -/
def promote (v : Vendor) (dict : Dict) (text : String) : Dict × (UInt8 × Nat) :=
  (dict.ready v).enter text

/-- `threshold_for`. -/
def thresholdFor (len width : Nat) (tiers : List (Nat × Nat)) : Option Nat :=
  if len ≤ width then none
  else (tiers.find? fun tier => tier.1 = 0 ∨ len ≤ tier.1 * width).map Prod.snd

/-- One more occurrence of a hash. -/
def count (dict : Dict) (key : Nat) : Except Error (Nat × Dict) :=
  match dict.counts.get key with
  | some seen =>
    if seen + 1 < 2 ^ 32 then .ok (seen + 1, { dict with counts := dict.counts.insert key (seen + 1) })
    else .error .panic
  | none =>
    if dict.counts.entries.length < countTrackLimit then
      .ok (1, { dict with counts := dict.counts.insert key 1 })
    else .ok (1, dict)

/-- The occurrence that earns a code, given the width of the block it would land in. -/
def earns (dict : Dict) (count : Nat) (text : String) : Bool :=
  match dict.blocks[dict.openBlock]? with
  | none => false
  | some block =>
    match thresholdFor (strBytes text).length block.width dict.tiers with
    | none => false
    | some threshold => threshold ≤ count

/-- The hash occurrences are counted under. -/
def hashOf (v : Vendor) (text : String) : Nat := (v.xxh64 (strBytes text)).toNat

/-- `settle`: the code of a string, when it has one or has just earned one. -/
def settle (v : Vendor) (dict : Dict) (text : String) :
    Except Error (Option (UInt8 × Nat) × Dict) :=
  match dict.promoted.get text with
  | some coded => .ok (some coded, dict)
  | none => do
    let (count, dict) ← dict.count (hashOf v text)
    if dict.earns count text then
      let (dict, coded) := { dict with counts := dict.counts.erase (hashOf v text) }.promote v text
      .ok (some coded, dict)
    else .ok (none, dict)

/-- `finish`. -/
def finish (v : Vendor) (dict : Dict) : Except Error Dict := dict.flushOpenBlock v

/-- `flush_if_dirty`: a written block does not grow, so a successor of the same width
follows it. -/
def flushIfDirty (v : Vendor) (dict : Dict) : Except Error Dict :=
  if dict.openEntries = [] then .ok dict
  else do
    let dict ← dict.flushOpenBlock v
    .ok (dict.pushBlock dict.openWidth)

end Dict

end Okm.Series
