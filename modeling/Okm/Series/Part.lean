import Okm.Series.Body

/-!
# One part

The model of `okm-series/src/part.rs`: a header, a stream of blocks, an index beside
it and a footer when it is sealed. The writer keeps the contents of the files it
holds open; what a reader sees of a part is its three files (`PartFiles`) and
whether the name says `.log`.

`flush_block` is its three writes in order (dictionary, data, index row), and
`adopt` reads whole blocks until none is there, cuts the rest and rebuilds the
index.
-/

namespace Okm.Series

open Lib Model

/-- What stands on disk under one part's name. -/
structure PartFiles where
  data : Bytes
  index : Bytes
  dict : Option Bytes
  deriving DecidableEq

structure PartWriter where
  file : Bytes
  index : Bytes
  header : PartHeader
  blockBytes : Nat
  level : Int
  codec : Codec
  nextOffset : Nat
  lastTs : Option Nat
  fileOff : Nat
  block : Bytes
  blockFirstTs : Nat
  blockFirstOffset : Nat
  blockRecords : Nat
  records : Nat
  blocks : Nat
  /-- What the digest was fed. -/
  digested : Bytes
  dict : Option Dict
  /-- The dictionary file of a part this writer keeps no dictionary for. -/
  beside : Option Bytes

/-! ## Payloads -/

/-- `decode_payload`. -/
def decodePayload (v : Vendor) (payload : Bytes) (block : BlockHeader) : Option Bytes :=
  match block.codec with
  | .raw => some payload
  | .zstd => v.decompress payload block.lenU

/-- The timestamp the walk of `last_ts_of` ends at. -/
def lastTsFrom : Nat → List (Nat × Bytes) → Nat
  | ts, [] => ts
  | ts, (delta, _) :: records => lastTsFrom (ts + delta) records

/-- `last_ts_of`: the first record stands at the block's own timestamp. -/
def lastTsOf (raw : Bytes) (firstTs : Nat) : Except Error (Option Nat) :=
  let (records, tail) := frames getRecord raw.length raw
  if tail = [] then
    match records with
    | [] => .ok none
    | _ :: records => .ok (some (lastTsFrom firstTs records))
  else .error (.badFrame "record")

namespace PartWriter

/-- The files as a reader finds them. -/
def files (w : PartWriter) : PartFiles where
  data := w.file
  index := w.index
  dict := match w.dict with
    | some d => d.file
    | none => w.beside

/-- `create`: the headers are written, no block is. -/
def create (header : PartHeader) (blockBytes : Nat) (level : Int) (codec : Codec)
    (dict : Option DictConfig) : PartWriter where
  file := header.encode
  index := indexHeader
  header := header
  blockBytes := blockBytes
  level := level
  codec := codec
  nextOffset := header.firstOffset
  lastTs := none
  fileOff := partHeaderLen
  block := []
  blockFirstTs := 0
  blockFirstOffset := header.firstOffset
  blockRecords := 0
  records := 0
  blocks := 0
  digested := []
  dict := dict.map fun config => Dict.create config level
  beside := none

/-! ## Flushing -/

/-- The dictionary goes to disk first. -/
def flushDict (v : Vendor) (w : PartWriter) : Except Error PartWriter :=
  match w.dict with
  | none => .ok w
  | some d => (d.flushIfDirty v).map fun d => { w with dict := some d }

/-- What of the buffer is stored: `Raw` skips compression, and a block is kept
compressed only when that made it smaller. -/
def compressBlock (v : Vendor) (w : PartWriter) : Except Error (Codec × Bytes) :=
  match w.codec with
  | .raw => .ok (Codec.raw, w.block)
  | .zstd => match v.compress w.level w.block with
    | none => .error .codec
    | some compressed =>
      if compressed.length < w.block.length then .ok (Codec.zstd, compressed)
      else .ok (Codec.raw, w.block)

/-- The header and the payload of the buffered block. -/
def packBlock (v : Vendor) (w : PartWriter) : Except Error (BlockHeader × Bytes) := do
  let (codec, payload) ← w.compressBlock v
  if 2 ^ 32 ≤ payload.length ∨ 2 ^ 32 ≤ w.block.length then .error .overflow
  else .ok (⟨codec, w.blockRecords, payload.length, w.block.length, w.blockFirstTs,
    w.blockFirstOffset⟩, payload)

/-- The block reaches the data file. -/
def writeData (w : PartWriter) (block : BlockHeader) (payload : Bytes) : PartWriter :=
  { w with
    file := writeAt w.file w.fileOff (block.encode ++ payload)
    records := w.records + block.records
    blocks := w.blocks + 1
    digested := w.digested ++ w.block }

/-- Its row reaches the index, and the buffer starts over. -/
def writeIndex (w : PartWriter) (block : BlockHeader) : Except Error PartWriter :=
  match IndexRow.fromHeader block w.fileOff with
  | none => .error .overflow
  | some row => .ok { w with
      index := w.index ++ row.encode
      fileOff := w.fileOff + blockHeaderLen + block.lenC
      block := []
      blockRecords := 0
      blockFirstOffset := w.nextOffset }

/-- `flush_block`. -/
def flushBlock (v : Vendor) (w : PartWriter) : Except Error PartWriter :=
  if w.blockRecords = 0 then .ok w
  else do
    let w ← w.flushDict v
    let (block, payload) ← w.packBlock v
    (w.writeData block payload).writeIndex block

/-! ## Appending -/

/-- The delta a record is written with, and the header with its base time. -/
def stamp (w : PartWriter) (ts : Nat) : Except Error (Nat × PartHeader) :=
  match w.lastTs with
  | none => .ok (ts, if w.header.baseTs = 0 ∧ w.records = 0 then { w.header with baseTs := ts }
      else w.header)
  | some last => if ts < last then .error (.timeBackwards last ts) else .ok (ts - last, w.header)

/-- One record goes into the buffer. -/
def buffer (v : Vendor) (w : PartWriter) (ts : Nat) (body : Body) : Except Error PartWriter := do
  let (encoded, dict) ← body.encodeWith v w.dict
  let (delta, header) ← w.stamp ts
  match putRecord delta encoded with
  | none => .error .overflow
  | some chunk =>
    if 2 ^ 64 ≤ w.nextOffset + 1 ∨ 2 ^ 32 ≤ w.blockRecords + 1 then .error .panic
    else .ok { w with
      header := header
      dict := dict
      block := w.block ++ chunk
      blockFirstTs := if w.block = [] then ts else w.blockFirstTs
      blockFirstOffset := if w.block = [] then w.nextOffset else w.blockFirstOffset
      nextOffset := w.nextOffset + 1
      blockRecords := w.blockRecords + 1
      lastTs := some ts }

/-- A full buffer is flushed. -/
def flushFull (v : Vendor) (w : PartWriter) : Except Error PartWriter :=
  if w.blockBytes ≤ w.block.length then w.flushBlock v else .ok w

/-- `append`: the offset of the record. -/
def append (v : Vendor) (w : PartWriter) (ts : Nat) (body : Body) :
    Except Error (Nat × PartWriter) := do
  let buffered ← w.buffer v ts body
  let flushed ← buffered.flushFull v
  .ok (w.nextOffset, flushed)

/-! ## Sealing -/

/-- The open block of the dictionary is written too. -/
def finishDict (v : Vendor) (w : PartWriter) : Except Error PartWriter :=
  match w.dict with
  | none => .ok w
  | some d => (d.finish v).map fun d => { w with dict := some d }

/-- `seal`: the footer goes behind the last block; the rename is the caller's part
turning `.log`. -/
def sealPart (v : Vendor) (w : PartWriter) : Except Error (Footer × PartFiles) := do
  let flushed ← w.flushBlock v
  let w ← flushed.finishDict v
  let footer : Footer := ⟨w.records, w.lastTs.getD 0, w.blocks, (v.xxh64 w.digested).toNat⟩
  .ok (footer, { w.files with data := writeAt w.file w.fileOff footer.encode })

/-! ## Adoption -/

/-- A whole block at the front of what is left: its header and its raw payload. -/
def getBlock (v : Vendor) (bytes : Bytes) : Option ((BlockHeader × Bytes) × Bytes) := do
  let (head, rest) ← takeExact blockHeaderLen bytes
  let block ← BlockHeader.decode head
  if block.records = 0 ∨ block.lenC = 0 then none
  else do
    let (payload, rest) ← takeExact block.lenC rest
    let raw ← decodePayload v payload block
    if raw.length ≠ block.lenU then none
    else if (frames getRecord raw.length raw).1.length ≠ block.records then none
    else some ((block, raw), rest)

/-- What the loop of `adopt` has gathered. -/
structure Adopted where
  fileOff : Nat
  nextOffset : Nat
  lastTs : Option Nat
  records : Nat
  blocks : Nat
  digested : Bytes
  rows : List IndexRow

/-- What `adopt` notes of one intact block. -/
def Adopted.note (a : Adopted) (block : BlockHeader × Bytes) : Except Error Adopted :=
  match IndexRow.fromHeader block.1 a.fileOff with
  | none => .error .overflow
  | some row => do
    let lastTs ← lastTsOf block.2 block.1.firstTs
    .ok {
      fileOff := a.fileOff + blockHeaderLen + block.1.lenC
      nextOffset := block.1.firstOffset + block.1.records
      lastTs := lastTs
      records := a.records + block.1.records
      blocks := a.blocks + 1
      digested := a.digested ++ block.2
      rows := a.rows ++ [row] }

/-- The part header of a file. -/
def readHeader (data : Bytes) : Except Error PartHeader :=
  match takeExact partHeaderLen data with
  | none => .error .io
  | some (head, _) => match PartHeader.decode head with
    | none => .error (.badFrame "part header")
    | some header => .ok header

/-- The dictionary of an adopted part, when the writer keeps one. -/
def adoptDict (v : Vendor) (file : Option Bytes) (level : Int) (dict : Option DictConfig) :
    Except Error (Option Dict) :=
  match dict with
  | none => .ok none
  | some config => (Dict.adopt v file config level).map some

/-- `adopt`. -/
def adopt (v : Vendor) (files : PartFiles) (blockBytes : Nat) (level : Int) (codec : Codec)
    (dict : Option DictConfig) : Except Error PartWriter := do
  let dict ← adoptDict v files.dict level dict
  let header ← readHeader files.data
  let found := (frames (getBlock v) files.data.length (files.data.drop partHeaderLen)).1
  let a ← found.foldlM Adopted.note ⟨partHeaderLen, header.firstOffset, none, 0, 0, [], []⟩
  .ok {
    file := files.data.take a.fileOff
    index := indexHeader ++ a.rows.flatMap IndexRow.encode
    header := header
    blockBytes := blockBytes
    level := level
    codec := codec
    nextOffset := a.nextOffset
    lastTs := a.lastTs
    fileOff := a.fileOff
    block := []
    blockFirstTs := 0
    blockFirstOffset := a.nextOffset
    blockRecords := 0
    records := a.records
    blocks := a.blocks
    digested := a.digested
    dict := dict
    beside := files.dict }

end PartWriter

/-! ## Reading -/

structure PartReader where
  header : PartHeader
  footer : Option Footer
  rows : List IndexRow
  isSealed : Bool
  dict : Option Dict
  span : Option (Nat × Nat)

/-- A record as a read answers it: its time, its offset, its body. -/
abbrev Row := Nat × Nat × Body

/-- What a scan is looking for. -/
inductive Select where
  | offset (start : Nat)
  | time (start stop : Nat)

def Select.wants : Select → Nat → Nat → Bool
  | .offset start, _, number => start ≤ number
  | .time start stop, ts, _ => start ≤ ts ∧ ts ≤ stop

/-- `u64::saturating_add`. -/
def satAdd (a b : Nat) : Nat := min (2 ^ 64 - 1) (a + b)

/-- The loop of `scan_block`. The first record stands at the block's own timestamp:
its delta is from the block before. -/
def scanRecords (select : Select) (limit : Nat) (dict : Option Dict) :
    Bool → Nat → Nat → List (Nat × Bytes) → List Row → Except Error (Nat × List Row)
  | _, ts, _, [], out => .ok (ts, out)
  | first, ts, offset, (delta, bytes) :: records, out =>
    let ts := if first then ts else satAdd ts delta
    if select.wants ts offset ∧ out.length < limit then
      match Body.decodeWith bytes dict with
      | none => .error (.badFrame "body")
      | some body =>
        scanRecords select limit dict false ts (offset + 1) records (out ++ [(ts, offset, body)])
    else scanRecords select limit dict false ts (offset + 1) records out

/-- `scan_block`. -/
def scanBlock (block : BlockHeader) (raw : Bytes) (select : Select) (limit : Nat)
    (dict : Option Dict) (out : List Row) : Except Error (Nat × List Row) :=
  scanRecords select limit dict true block.firstTs block.firstOffset
    (frames getRecord raw.length raw).1 out

/-- A header and its payload, from a byte of the file on. -/
def readBlockAt (v : Vendor) (data : Bytes) (fileOffset : Nat) (lenC : BlockHeader → Nat) :
    Except Error (BlockHeader × Bytes) :=
  match takeExact blockHeaderLen (data.drop fileOffset) with
  | none => .error .io
  | some (head, rest) => match BlockHeader.decode head with
    | none => .error (.badFrame "block header")
    | some block => match takeExact (lenC block) rest with
      | none => .error .io
      | some (payload, _) => match decodePayload v payload block with
        | none => .error .codec
        | some raw => .ok (block, raw)

/-- `read_index`. -/
def readIndex (index : Bytes) : List IndexRow :=
  if index.length < indexHeaderLen then []
  else (frames getIndexRow index.length (index.drop indexHeaderLen)).1

/-- `read_footer`. -/
def readFooter (data : Bytes) : Option Footer :=
  if data.length < footerLen + partHeaderLen then none
  else Footer.decode (data.drop (data.length - footerLen))

namespace PartReader

/-- `row_index_for_offset`, and the seek of `read_by_time`: one block before the first
that the predicate leaves out. -/
def startRow (rows : List IndexRow) (before : IndexRow → Bool) : Nat :=
  (rows.takeWhile before).length - 1

/-- The first and the last timestamp `open` finds. -/
def spanOf (v : Vendor) (data : Bytes) (rows : List IndexRow) (footer : Option Footer) :
    Except Error (Option (Nat × Nat)) :=
  match rows.head?, rows.getLast?, footer with
  | some first, _, some footer => .ok (some (first.firstTs, footer.lastTs))
  | some first, some last, none => do
    -- an open part: its last timestamp is in its last block
    let (block, raw) ← readBlockAt v data last.fileOffset fun _ => last.lenC
    let lastTs ← lastTsOf raw block.firstTs
    .ok (some (first.firstTs, lastTs.getD block.firstTs))
  | _, _, _ => .ok none

/-- `Dict::load` as `open` calls it: the file decides whether there are codes. -/
def loadDict (v : Vendor) (dict : Option Bytes) (config : Option DictConfig) : Option Dict :=
  dict.map fun bytes => Dict.load v (some bytes) (config.getD DictConfig.default) 1

/-- `PartReader::open`. -/
def openPart (v : Vendor) (files : PartFiles) (isSealed : Bool) (config : Option DictConfig) :
    Except Error PartReader := do
  let dict := loadDict v files.dict config
  let header ← PartWriter.readHeader files.data
  let footer := if isSealed then readFooter files.data else none
  let rows := readIndex files.index
  let span ← spanOf v files.data rows footer
  .ok ⟨header, footer, rows, isSealed, dict, span⟩

/-- `offset_span`. -/
def offsetSpan (r : PartReader) : Nat × Nat :=
  let start := r.header.firstOffset
  (start, match r.footer with
    | some footer => start + footer.records
    | none => match r.rows.getLast? with
      | some row => row.firstOffset + row.records
      | none => start)

/-- The loop of `read_from`. -/
def readRows (v : Vendor) (dict : Option Dict) (data : Bytes) (start limit : Nat) :
    List IndexRow → List Row → Except Error (List Row)
  | [], out => .ok out
  | row :: rows, out =>
    if limit ≤ out.length then .ok out
    else do
      let (block, raw) ← readBlockAt v data row.fileOffset BlockHeader.lenC
      let (_, out) ← scanBlock block raw (.offset start) limit dict out
      readRows v dict data start limit rows out

/-- `read_from`: records from a logical offset on, at most `limit` in all. -/
def readFrom (v : Vendor) (r : PartReader) (data : Bytes) (start limit : Nat) (out : List Row) :
    Except Error (List Row) :=
  readRows v r.dict data start limit
    (r.rows.drop (startRow r.rows fun row => row.firstOffset ≤ start)) out

/-- The loop of `read_by_time`. -/
def readRowsByTime (v : Vendor) (dict : Option Dict) (data : Bytes) (start stop limit : Nat) :
    List IndexRow → List Row → Except Error (List Row)
  | [], out => .ok out
  | row :: rows, out =>
    if limit ≤ out.length ∨ stop < row.firstTs then .ok out
    else do
      let (block, raw) ← readBlockAt v data row.fileOffset BlockHeader.lenC
      let (last, out) ← scanBlock block raw (.time start stop) limit dict out
      if stop < last then .ok out
      else readRowsByTime v dict data start stop limit rows out

/-- `read_by_time`. -/
def readByTime (v : Vendor) (r : PartReader) (data : Bytes) (start stop limit : Nat)
    (out : List Row) : Except Error (List Row) :=
  readRowsByTime v r.dict data start stop limit
    (r.rows.drop (startRow r.rows fun row => row.firstTs < start)) out

end PartReader

end Okm.Series
