import Mathlib.Data.List.Sort
import Mathlib.Data.Prod.Lex
import Mathlib.Order.WithBot
import Okm.Lib.Run
import Okm.Series.PartRun

/-!
# The log

The model of `okm-series/src/lib.rs`: buckets of parts on disk, one writer per
bucket and partition, the newest timestamp of each stream, and the reads, which go
through a cache of opened readers.

The disk is apart from the writers: every operation that changes a writer stores its
files again, and dropping the log leaves the disk. A clock reading is an argument of
the operation that takes it. The `LOCK` file, the in-process claim and `log.meta`
decide who may open a log and are left out.
-/

namespace Okm.Series

open Lib Model

/-! ## Configuration -/

structure Config where
  precision : Precision
  bucketSeconds : Nat
  blockBytes : Nat
  partBytes : Nat
  zstdLevel : Int
  blockCodec : Codec
  dict : Option DictConfig
  partitionTag : Option UInt16

/-- `bucket_of`. -/
def Config.bucketOf (config : Config) (ts : Nat) : Except Error Nat :=
  if config.bucketSeconds = 0 then .error .panic
  else .ok (ts / config.precision.perSecond / config.bucketSeconds)

/-! ## Partition values -/

def hexDigit (n : Nat) : Char := ("0123456789abcdef".toList).getD n '0'

def hex (bytes : Bytes) : String :=
  String.ofList (bytes.flatMap fun byte => [hexDigit (byte.toNat / 16), hexDigit (byte.toNat % 16)])

/-- The value of the declared tag, as a directory is named after it. -/
def partitionOf (v : Vendor) (body : Body) (tag : UInt16) : Except Error String :=
  match body.get tag with
  | none => .error (.missingPartition tag)
  | some (.str text) => .ok text
  | some (.u64 number) => .ok (toString number.toNat)
  | some (.i64 number) => .ok (toString number.toInt)
  | some (.f64 bits) => .ok (v.showF64 bits)
  | some (.bytes bytes) => .ok (hex bytes)

/-! ## The disk -/

/-- A directory of parts: those with a `.log` name and those with an `.open` one. -/
structure Dir where
  sealedParts : SortedMap Nat PartFiles
  openParts : SortedMap Nat PartFiles

def Dir.empty : Dir := ⟨SortedMap.empty, SortedMap.empty⟩

/-- Streams in order: the log's own one first, then the partitions by value. -/
def streamKey (partition : Option String) : WithBot String := partition

/-- A bucket's own directory comes before those of its partitions, by value. -/
abbrev DirKey := Nat ×ₗ WithBot String

def dirKey (bucket : Nat) (partition : Option String) : DirKey := toLex (bucket, streamKey partition)

def DirKey.bucket (key : DirKey) : Nat := (ofLex key).1

def DirKey.partition (key : DirKey) : Option String := (ofLex key).2

structure PartPath where
  dir : DirKey
  number : Nat
  isSealed : Bool
  deriving DecidableEq

/-- `sealed_parts` and then `open_part`: the sealed parts by number, and the first of
the open ones. -/
def Dir.paths (key : DirKey) (dir : Dir) : List PartPath :=
  (dir.sealedParts.entries.map fun e => ⟨key, e.1, true⟩)
    ++ dir.openParts.entries.head?.toList.map fun e => ⟨key, e.1, false⟩

/-- The last of `part_numbers`. -/
def Dir.lastNumber (dir : Dir) : Option Nat :=
  max (dir.sealedParts.entries.getLast?.map Prod.fst) (dir.openParts.entries.getLast?.map Prod.fst)

/-- The number after the last one. -/
def Dir.nextNumber (dir : Dir) : Nat :=
  match dir.lastNumber with
  | none => 0
  | some last => last + 1

abbrev Disk := SortedMap DirKey Dir

namespace Disk

def dirAt (disk : Disk) (key : DirKey) : Dir := (disk.get key).getD Dir.empty

def fileAt (disk : Disk) (path : PartPath) : Option PartFiles :=
  let dir := disk.dirAt path.dir
  if path.isSealed then dir.sealedParts.get path.number else dir.openParts.get path.number

/-- The files of an open part. -/
def storeOpen (disk : Disk) (key : DirKey) (number : Nat) (files : PartFiles) : Disk :=
  let dir := disk.dirAt key
  disk.insert key { dir with openParts := dir.openParts.insert number files }

/-- The rename of a sealed part. -/
def storeSealed (disk : Disk) (key : DirKey) (number : Nat) (files : PartFiles) : Disk :=
  let dir := disk.dirAt key
  disk.insert key ⟨dir.sealedParts.insert number files, dir.openParts.erase number⟩

/-- `all_parts`: by bucket, then partition, then part number. -/
def allParts (disk : Disk) : List PartPath := disk.entries.flatMap fun e => e.2.paths e.1

/-- `first_offset_of`. -/
def firstOffsetOf (disk : Disk) (path : PartPath) : Except Error Nat :=
  match disk.fileAt path with
  | none => .error .io
  | some files => (PartWriter.readHeader files.data).map PartHeader.firstOffset

/-- A part with the offset its header says, when that can be read. -/
def keyedPart (disk : Disk) (path : PartPath) : Option (Nat × PartPath) :=
  match disk.firstOffsetOf path with
  | .ok first => some (first, path)
  | .error _ => none

def keyed (disk : Disk) : List (Nat × PartPath) := disk.allParts.filterMap disk.keyedPart

/-- `parts_by_offset`. -/
def partsByOffset (disk : Disk) : List PartPath :=
  (disk.keyed.insertionSort fun a b => a.1 ≤ b.1).map Prod.snd

/-- The end a part reports, when it is later; a part that does not open is passed over. -/
def laterStop (v : Vendor) (disk : Disk) (last : Nat) (path : PartPath) : Nat :=
  match disk.fileAt path with
  | none => last
  | some files => match PartReader.openPart v files path.isSealed none with
    | .ok reader => max last reader.offsetSpan.2
    | .error _ => last

/-- `stream_next_offset`. -/
def streamNextOffset (v : Vendor) (disk : Disk) (key : DirKey) : Nat :=
  ((disk.dirAt key).paths key).foldl (disk.laterStop v) 0

end Disk

/-! ## Reads -/

/-- An opened reader and the length of the data file it was opened from. -/
structure CachedReader where
  bytes : Nat
  reader : PartReader

abbrev Cache := List (PartPath × CachedReader)

/-- How many readers are held. -/
def readerCacheLimit : Nat := 48

/-- The reader held for a path. -/
def Cache.find (cache : Cache) (path : PartPath) : Option CachedReader :=
  (cache.find? fun e => e.1 = path).map Prod.snd

/-- Hold a reader: a full cache is dropped whole first. -/
def Cache.hold (cache : Cache) (path : PartPath) (held : CachedReader) : Cache :=
  let cache := if readerCacheLimit ≤ cache.length then [] else cache
  (path, held) :: cache.filter fun e => e.1 ≠ path

/-- `reader_for`: one held for a file of this length is used again. -/
def readerFor (v : Vendor) (dict : Option DictConfig) (files : PartFiles) (cache : Cache)
    (path : PartPath) : Except Error (PartReader × Cache) :=
  let opened := do
    let reader ← PartReader.openPart v files path.isSealed dict
    .ok (reader, cache.hold path ⟨files.data.length, reader⟩)
  match cache.find path with
  | some held => if held.bytes = files.data.length then .ok (held.reader, cache) else opened
  | none => opened

/-- Which streams a read covers: every one, or a single one. -/
inductive Which where
  | everyStream
  | stream (partition : Option String)
  deriving DecidableEq

def Which.covers : Which → Option String → Bool
  | .everyStream, _ => true
  | .stream want, partition => partition = want

/-- What `read_streams` does with one part: nothing of it is past the offset, or it is
read from the offset on. -/
def visitFrom (v : Vendor) (start limit : Nat) (reader : PartReader) (data : Bytes)
    (rows : List Row) : Except Error (List Row) :=
  let (first, stop) := reader.offsetSpan
  if stop ≤ start then .ok rows else reader.readFrom v data (max start first) limit rows

/-- What `read_by_time_streams` does with one part: its span misses the range, or it is
read. -/
def visitByTime (v : Vendor) (start stop limit : Nat) (reader : PartReader) (data : Bytes)
    (rows : List Row) : Except Error (List Row) :=
  match reader.span with
  | none => .ok rows
  | some (first, last) =>
    if last < start ∨ stop < first then .ok rows
    else reader.readByTime v data start stop limit rows

/-- The loop both reads have over the parts. -/
def readParts (v : Vendor) (dict : Option DictConfig) (disk : Disk) (which : Which) (limit : Nat)
    (visit : PartReader → Bytes → List Row → Except Error (List Row)) :
    List PartPath → Cache → List Row → Except Error (List Row × Cache)
  | [], cache, rows => .ok (rows, cache)
  | path :: paths, cache, rows =>
    if limit ≤ rows.length then .ok (rows, cache)
    else if which.covers path.dir.partition then
      match disk.fileAt path with
      | none => .error .io
      | some files => do
        let (reader, cache) ← readerFor v dict files cache path
        let rows ← visit reader files.data rows
        readParts v dict disk which limit visit paths cache rows
    else readParts v dict disk which limit visit paths cache rows

/-- Rows by time and, within one timestamp, by offset. -/
def Row.le (a b : Row) : Prop := a.1 < b.1 ∨ a.1 = b.1 ∧ a.2.1 ≤ b.2.1

instance Row.decidableLe : DecidableRel Row.le := fun a b =>
  inferInstanceAs (Decidable (a.1 < b.1 ∨ a.1 = b.1 ∧ a.2.1 ≤ b.2.1))

/-- Several streams are put in time order; one already is. -/
def arrange (which : Which) (rows : List Row) : List Row :=
  match which with
  | .everyStream => rows.insertionSort Row.le
  | .stream _ => rows

/-- What a read asks for. -/
inductive Query where
  | offset (start : Nat)
  | time (start stop : Nat)

def Query.visit (v : Vendor) (limit : Nat) :
    Query → PartReader → Bytes → List Row → Except Error (List Row)
  | .offset start => visitFrom v start limit
  | .time start stop => visitByTime v start stop limit

/-- `read_streams` and `read_by_time_streams`. -/
def readStreams (v : Vendor) (dict : Option DictConfig) (disk : Disk) (cache : Cache)
    (which : Which) (query : Query) (limit : Nat) : Except Error (List Row × Cache) := do
  let (rows, cache) ←
    readParts v dict disk which limit (query.visit v limit) disk.partsByOffset cache []
  .ok (arrange which rows, cache)

/-! ## The log -/

structure Active where
  bucket : Nat
  partition : Option String
  number : Nat
  writer : PartWriter

def Active.key (active : Active) : DirKey := dirKey active.bucket active.partition

structure Log where
  config : Config
  disk : Disk
  cache : Cache
  active : List Active
  /-- The newest timestamp each stream has seen. -/
  lastTs : SortedMap (WithBot String) Nat

namespace Log

variable (v : Vendor)

/-- `now`: the clock, clamped to the stream's last timestamp. -/
def now (log : Log) (partition : Option String) (clock : Nat) : Nat :=
  match log.lastTs.get (streamKey partition) with
  | some last => max clock last
  | none => clock

def activeIndex (log : Log) (key : DirKey) : Option Nat :=
  log.active.findIdx? fun active => active.key = key

/-- Take a writer out and seal its part. -/
def sealAt (log : Log) (index : Nat) : Except Error Log :=
  match log.active[index]? with
  | none => .error .panic
  | some active => do
    let (_, files) ← active.writer.sealPart v
    .ok { log with
      active := log.active.eraseIdx index
      disk := log.disk.storeSealed active.key active.number files }

/-- The writers in buckets before `cutoff`, of one stream or of all. -/
def staleIndexes (log : Log) (cutoff : Nat) (only : Option (Option String)) : List Nat :=
  (log.active.zipIdx.filter fun e => e.1.bucket < cutoff
    ∧ (only.all fun partition => e.1.partition = partition)).map Prod.snd

/-- `seal_parts_older_than`, from the last index down. -/
def sealPartsOlderThan (log : Log) (cutoff : Nat) (only : Option (Option String)) :
    Except Error Log :=
  (log.staleIndexes cutoff only).reverse.foldlM (fun log index => log.sealAt v index) log

/-- The first number from the next one on that no open part has. -/
def freeNumber (dir : Dir) : Except Error Nat :=
  if 2 ^ 32 ≤ dir.nextNumber then .error .panic
  else match (List.range' dir.nextNumber (min (2 ^ 32 - 1 - dir.nextNumber) 1024)).find?
      fun number => (dir.openParts.get number).isNone with
    | none => .error .badPath
    | some number => .ok number

/-- A new part in a directory: its offsets go on where the directory's parts end. -/
def createPart (log : Log) (key : DirKey) (ts created : Nat) : Except Error Log := do
  let number ← freeNumber (log.disk.dirAt key)
  let header : PartHeader := ⟨log.config.precision, key.bucket, ts,
    log.disk.streamNextOffset v key, created⟩
  let writer := PartWriter.create header log.config.blockBytes log.config.zstdLevel
    log.config.blockCodec log.config.dict
  .ok { log with
    active := log.active ++ [⟨key.bucket, key.partition, number, writer⟩]
    disk := log.disk.storeOpen key number writer.files }

/-- A part that has reached `part_bytes` takes no more records. -/
def isFull (log : Log) (writer : PartWriter) : Bool :=
  log.config.partBytes ≤ writer.fileOff + writer.block.length

/-- `ensure_part`. -/
def ensurePart (log : Log) (bucket : Nat) (partition : Option String) (ts created : Nat) :
    Except Error Log := do
  let log ← log.sealPartsOlderThan v bucket (some partition)
  let key := dirKey bucket partition
  match log.activeIndex key with
  | none => log.createPart v key ts created
  | some index =>
    match log.active[index]? with
    | none => .error .panic
    | some active =>
      if log.isFull active.writer then do
        let log ← log.sealAt v index
        log.createPart v key ts created
      else .ok log

/-- The writer of an index, and its files on disk. -/
def setWriter (log : Log) (index : Nat) (active : Active) (writer : PartWriter) : Log :=
  { log with
    active := log.active.set index { active with writer := writer }
    disk := log.disk.storeOpen active.key active.number writer.files }

/-- The stream a body goes to. -/
def partitionFor (log : Log) (body : Body) : Except Error (Option String) :=
  match log.config.partitionTag with
  | none => .ok none
  | some tag => (partitionOf v body tag).map some

/-- Where an append lands: its stream and time, and the writer that takes it. -/
structure Landing where
  partition : Option String
  bucket : Nat
  ts : Nat
  log : Log
  index : Nat
  active : Active

/-- The part of `append` before the record is written. -/
def land (log : Log) (clock created : Nat) (body : Body) : Except Error Landing := do
  let partition ← log.partitionFor v body
  let ts := log.now partition clock
  let bucket ← log.config.bucketOf ts
  let log ← log.ensurePart v bucket partition ts created
  match log.activeIndex (dirKey bucket partition) with
  | none => .error .badPath
  | some index =>
    match log.active[index]? with
    | none => .error .panic
    | some active => .ok ⟨partition, bucket, ts, log, index, active⟩

/-- What an append did: the offset it answers, and where the record went. -/
structure Appended where
  partition : Option String
  bucket : Nat
  row : Row

/-- `append`. -/
def append (log : Log) (clock created : Nat) (body : Body) : Except Error (Appended × Log) := do
  let landing ← log.land v clock created body
  let (offset, writer) ← landing.active.writer.append v landing.ts body
  let written := landing.log.setWriter landing.index landing.active writer
  .ok (⟨landing.partition, landing.bucket, (landing.ts, offset, body)⟩,
    { written with lastTs := written.lastTs.insert (streamKey landing.partition) landing.ts })

/-- Flush the writer of an index. -/
def flushAt (log : Log) (index : Nat) : Except Error Log :=
  match log.active[index]? with
  | none => .error .panic
  | some active => do
    let writer ← active.writer.flushBlock v
    .ok (log.setWriter index active writer)

/-- `flush`. -/
def flush (log : Log) : Except Error Log :=
  (List.range log.active.length).foldlM (fun log index => log.flushAt v index) log

/-- `seal`: the readers held under the old names are dropped first. -/
def sealAll (log : Log) : Except Error Log :=
  log.active.foldlM (fun log _ => log.sealAt v 0) { log with cache := [] }

/-- `retain_before`: the buckets that go. -/
def dropped (log : Log) (cutoff : Nat) : List Nat :=
  ((log.disk.entries.map fun e => e.1.bucket).filter fun bucket =>
    bucket < cutoff ∧ ∀ active ∈ log.active, active.bucket ≠ bucket).dedup

def retainBefore (log : Log) (ts : Nat) : Except Error (List Nat × Log) := do
  let cutoff ← log.config.bucketOf ts
  let log ← log.sealPartsOlderThan v cutoff none
  .ok (log.dropped cutoff, { log with
    cache := []
    disk := log.disk.restrict fun key => key.bucket ∉ log.dropped cutoff })

/-- The newest timestamp of a part counts for its stream. -/
def noteSpan (log : Log) (partition : Option String) : Option (Nat × Nat) → Log
  | none => log
  | some (_, last) =>
    let seen := (log.lastTs.get (streamKey partition)).getD last
    { log with lastTs := log.lastTs.insert (streamKey partition) (max seen last) }

/-- An open part without a writer is adopted; one in a bucket the clock has left is
sealed. -/
def takeOver (log : Log) (clock : Nat) (path : PartPath) (files : PartFiles) : Except Error Log :=
  if path.isSealed ∨ (log.activeIndex path.dir).isSome then .ok log
  else do
    let writer ← PartWriter.adopt v files log.config.blockBytes log.config.zstdLevel
      log.config.blockCodec log.config.dict
    let adopted := { log with
      active := log.active ++ [⟨path.dir.bucket, path.dir.partition, path.number, writer⟩]
      disk := log.disk.storeOpen path.dir path.number writer.files }
    let bucket ← log.config.bucketOf clock
    if path.dir.bucket < bucket then adopted.sealAt v log.active.length else .ok adopted

/-- One round of the recovery loop of `open`. -/
def recover (log : Log) (clock : Nat) (path : PartPath) : Except Error Log :=
  match log.disk.fileAt path with
  | none => .error .io
  | some files => do
    let reader ← PartReader.openPart v files path.isSealed log.config.dict
    (log.noteSpan path.dir.partition reader.span).takeOver v clock path files

/-- `open`: the clock is read again for each open part. -/
def openLog (config : Config) (disk : Disk) (clock : Nat → Nat) : Except Error Log :=
  disk.allParts.zipIdx.foldlM (fun log e => log.recover v (clock e.2) e.1)
    ⟨config, disk, [], [], SortedMap.empty⟩

/-- A clean stop, and the log opened again. -/
def reopen (log : Log) (clock : Nat → Nat) : Except Error Log := do
  let stopped ← log.flush v
  openLog v stopped.config stopped.disk clock

/-- A read of the log. -/
def read (log : Log) (which : Which) (query : Query) (limit : Nat) :
    Except Error (List Row × Log) := do
  let (rows, cache) ← readStreams v log.config.dict log.disk log.cache which query limit
  .ok (rows, { log with cache := cache })

end Log

end Okm.Series
