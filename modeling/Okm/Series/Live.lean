import Okm.Lib.Trace
import Okm.Series.Log

/-!
# Reading a part while it is flushed

A writer in one process and a `LogReader` in another share the three files of an open part,
and neither waits for the other. The model of that: `flush_block` is its three writes (the
dictionary, the data block, the index row), a read is its steps (the length, the dictionary,
the index, the last block, the cache, the records), and any of them may come between any two
others.

A reader takes the length first and the index later, and the cache goes by the length. What
stands between a block and its row is where that goes wrong.
-/

namespace Okm.Series

open Lib Model

variable {v : Vendor} {config : Option DictConfig}

/-! ## The reader's steps -/

/-- How far a read has come. `bytes` is the length it took. -/
inductive Reading where
  /-- Nothing is held for the length. -/
  | measured (bytes : Nat)
  | loaded (bytes : Nat) (dict : Option Dict)
  | indexed (bytes : Nat) (dict : Option Dict) (header : PartHeader) (rows : List IndexRow)
  | built (held : CachedReader)
  | ready (reader : PartReader)
  | answered (answer : Except Error (List Row))

/-- One call of `read_stream`. -/
structure LiveRead where
  start : Nat
  limit : Nat
  /-- How many records had been flushed when it began; no code looks at it. -/
  since : Nat
  at_ : Reading

/-- The beginning of `reader_for`: a read for no records looks at nothing, and a reader held
for the length is used again. -/
def Reading.first (files : PartFiles) (cache : Option CachedReader) (limit : Nat) : Reading :=
  if limit = 0 then .answered (.ok [])
  else match cache with
    | some held =>
      if held.bytes = files.data.length then .ready held.reader else .measured files.data.length
    | none => .measured files.data.length

/-- The next step of a read, on the files as they are now. -/
def LiveRead.next (v : Vendor) (config : Option DictConfig) (files : PartFiles)
    (cache : Option CachedReader) (read : LiveRead) : Reading × Option CachedReader :=
  match read.at_ with
  | .measured bytes => (.loaded bytes (PartReader.loadDict v files.dict config), cache)
  | .loaded bytes dict =>
    match PartWriter.readHeader files.data with
    | .error e => (.answered (.error e), cache)
    | .ok header => (.indexed bytes dict header (readIndex files.index), cache)
  | .indexed bytes dict header rows =>
    match PartReader.spanOf v files.data rows none with
    | .error e => (.answered (.error e), cache)
    | .ok span => (.built ⟨bytes, header, none, rows, false, dict, span⟩, cache)
  | .built held => (.ready held.reader, some held)
  | .ready reader =>
    (.answered (visitFrom v read.start read.limit reader files.data []), cache)
  | .answered answer => (.answered answer, cache)

/-! ## The two together -/

/-- Where the writer stands in `flush_block`. -/
inductive Flushing where
  | idle
  /-- The dictionary is written. -/
  | filed
  /-- The block is written too, and its row is not. -/
  | written (block : BlockHeader)

/-- An open part, the reader's cache for it and the reads it was asked for. -/
structure Live where
  writer : PartWriter
  flushing : Flushing
  cache : Option CachedReader
  reads : List LiveRead

inductive LiveOp where
  | append (ts : UInt64) (body : Body)
  | writeDict
  | writeData
  | writeRow
  /-- `read_stream`, up to the length of the file. -/
  | begin (start limit : Nat)
  /-- One more step of a read. -/
  | next (i : Nat)

namespace Live

/-- A part nobody has read yet. -/
def fresh (writer : PartWriter) : Live := ⟨writer, .idle, none, []⟩

/-- The records of completed flushes. -/
def flushed (s : Live) : Nat :=
  match s.flushing with
  | .written block => s.writer.records - block.records
  | _ => s.writer.records

/-- One operation; one that is out of turn does nothing. An append answers its offset. -/
def step (v : Vendor) (config : Option DictConfig) (s : Live) :
    LiveOp → Except Error (Option Nat × Live)
  | .append ts body =>
    match s.flushing with
    | .idle => do
      let writer ← s.writer.buffer v ts.toNat body
      .ok (some s.writer.nextOffset, { s with writer := writer })
    | _ => .ok (none, s)
  | .writeDict =>
    match s.flushing with
    | .idle =>
      if s.writer.blockRecords = 0 then .ok (none, s)
      else do
        let writer ← s.writer.flushDict v
        .ok (none, { s with writer := writer, flushing := .filed })
    | _ => .ok (none, s)
  | .writeData =>
    match s.flushing with
    | .filed => do
      let (block, payload) ← s.writer.packBlock v
      .ok (none, { s with writer := s.writer.writeData block payload, flushing := .written block })
    | _ => .ok (none, s)
  | .writeRow =>
    match s.flushing with
    | .written block => do
      let writer ← s.writer.writeIndex block
      .ok (none, { s with writer := writer, flushing := .idle })
    | _ => .ok (none, s)
  | .begin start limit =>
    let read : LiveRead := ⟨start, limit, s.flushed, Reading.first s.writer.files s.cache limit⟩
    .ok (none, { s with reads := s.reads ++ [read] })
  | .next i =>
    match s.reads[i]? with
    | none => .ok (none, s)
    | some read =>
      let (at_, cache) := read.next v config s.writer.files s.cache
      .ok (none, { s with cache := cache, reads := s.reads.set i { read with at_ := at_ } })

end Live

/-! ## What a read promises -/

/-- The rows of the records a run appended. -/
def rowsWritten (past : List (LiveOp × Option Nat)) : List Row :=
  past.filterMap fun e => match e with
    | (.append ts body, some offset) => some (ts.toNat, offset, body)
    | _ => none

/-- The answer is the wanted rows of a prefix of `rows`, and of no shorter one than the read
had to know. -/
def LiveRead.Right (rows : List Row) (read : LiveRead) (answer : Except Error (List Row)) : Prop :=
  ∃ n, read.since ≤ n ∧ n ≤ rows.length ∧
    answer = .ok (((Select.offset read.start).want (rows.take n)).take read.limit)

/-- A read that is given five steps is answered, whatever it finds at each of them. -/
def LiveRead.Ends (v : Vendor) (config : Option DictConfig) (read : LiveRead) : Prop :=
  ∀ found : List (PartFiles × Option CachedReader), 5 ≤ found.length → ∃ answer,
    (found.foldl (fun read e => { read with at_ := (read.next v config e.1 e.2).1 }) read).at_
      = .answered answer

/-- **The promise of a live reader**: every answer is right. -/
def Live.Answers (past : List (LiveOp × Option Nat)) (s : Live) : Prop :=
  ∀ read ∈ s.reads, ∀ answer, read.at_ = .answered answer → read.Right (rowsWritten past) answer

/-! ## When it is kept -/

/-- An operation that leaves every read intact. A row is written when each read between its
dictionary and its index decodes the buffered records as the dictionary on disk does; an
index is read when no block that the length covers waits for its row. Strings that are
promoted find room. -/
def LiveOp.Harmless (v : Vendor) (config : Option DictConfig) (s : Live) : LiveOp → Prop
  | .append _ body => s.flushing = .idle → FitsItems v s.writer.dict body.items
  | .writeRow => ∀ read ∈ s.reads, ∀ bytes dict, read.at_ = .loaded bytes dict →
      ∀ record ∈ (frames getRecord s.writer.block.length s.writer.block).1,
        Body.decodeWith record.2 dict
          = Body.decodeWith record.2 (PartReader.loadDict v s.writer.files.dict config)
  | .next i => ∀ read, s.reads[i]? = some read → ∀ bytes dict block, read.at_ = .loaded bytes dict →
      s.flushing = .written block → bytes ≠ s.writer.file.length
  | _ => True

/-! ## Undisturbed

Steps that nothing comes between are the calls of the log. -/

/-- The three writes of a flush are `flush_block`. -/
theorem flushBlock_steps {s : Live} (hidle : s.flushing = .idle) :
    (runAll (Live.step v config) s [.writeDict, .writeData, .writeRow]).map Prod.snd
      = (s.writer.flushBlock v).map fun writer => { s with writer := writer } := by
  obtain ⟨w, flushing, cache, reads⟩ := s
  obtain rfl : flushing = .idle := hidle
  dsimp only
  unfold PartWriter.flushBlock
  by_cases hzero : w.blockRecords = 0
  · simp [runAll, Live.step, hzero, Except.map]
  · rw [if_neg hzero]
    cases hdict : w.flushDict v with
    | error e => simp [runAll, Live.step, hzero, hdict, bind, Except.bind, Except.map]
    | ok filed =>
      cases hpack : filed.packBlock v with
      | error e => simp [runAll, Live.step, hzero, hdict, hpack, bind, Except.bind, Except.map]
      | ok packed =>
        obtain ⟨block, payload⟩ := packed
        cases hrow : (filed.writeData block payload).writeIndex block <;>
          simp [runAll, Live.step, hzero, hdict, hpack, hrow, bind, Except.bind, Except.map]

/-- Steps of a read on files that stay as they are. -/
def LiveRead.steps (v : Vendor) (config : Option DictConfig) (files : PartFiles) :
    Nat → LiveRead → Option CachedReader → Reading × Option CachedReader
  | 0, read, cache => (read.at_, cache)
  | n + 1, read, cache =>
    let (at_, cache) := read.next v config files cache
    LiveRead.steps v config files n { read with at_ := at_ } cache

/-- The readers of a log that has looked at one part. -/
def heldAt (path : PartPath) (cache : Option CachedReader) : Cache :=
  cache.toList.map fun held => (path, held)

theorem find_heldAt (path : PartPath) (cache : Option CachedReader) :
    (heldAt path cache).find path = cache := by
  cases cache <;> simp [heldAt, Cache.find]

theorem hold_heldAt (path : PartPath) (cache : Option CachedReader) (held : CachedReader) :
    (heldAt path cache).hold path held = heldAt path (some held) := by
  cases cache <;> simp [heldAt, Cache.hold, readerCacheLimit]

theorem steps_answered {files : PartFiles} {read : LiveRead} {answer : Except Error (List Row)}
    (h : read.at_ = .answered answer) (n : Nat) (cache : Option CachedReader) :
    LiveRead.steps v config files n read cache = (.answered answer, cache) := by
  induction n generalizing read with
  | zero => rw [LiveRead.steps, h]
  | succ n ih =>
    have hnext : read.next v config files cache = (.answered answer, cache) := by
      rw [LiveRead.next, h]
    rw [LiveRead.steps, hnext]
    exact ih rfl

/-- From the length on a read is `PartReader::open`, the cache and the visit. -/
theorem steps_measured_error {files : PartFiles} {e : Error}
    (h : PartReader.openPart v files false config = .error e) (start limit since bytes : Nat)
    (cache : Option CachedReader) :
    LiveRead.steps v config files 5 ⟨start, limit, since, .measured bytes⟩ cache
      = (.answered (.error e), cache) := by
  unfold PartReader.openPart at h
  cases hheader : PartWriter.readHeader files.data with
  | error e' =>
    obtain rfl : e' = e := by simpa [hheader, bind, Except.bind] using h
    simp [LiveRead.steps, LiveRead.next, hheader]
  | ok header =>
    cases hspan : PartReader.spanOf v files.data (readIndex files.index) none with
    | error e' =>
      obtain rfl : e' = e := by simpa [hheader, hspan, bind, Except.bind] using h
      simp [LiveRead.steps, LiveRead.next, hheader, hspan]
    | ok span => simp [hheader, hspan, bind, Except.bind] at h

theorem steps_measured {files : PartFiles} {reader : PartReader}
    (h : PartReader.openPart v files false config = .ok reader) (start limit since bytes : Nat)
    (cache : Option CachedReader) :
    LiveRead.steps v config files 5 ⟨start, limit, since, .measured bytes⟩ cache
      = (.answered (visitFrom v start limit reader files.data []), some ⟨bytes, reader⟩) := by
  unfold PartReader.openPart at h
  obtain ⟨header, hheader, h⟩ := bind_eq_ok.mp h
  obtain ⟨span, hspan, h⟩ := bind_eq_ok.mp h
  obtain rfl := Except.ok.inj h
  have hopen : PartReader.spanOf v files.data (readIndex files.index) none = .ok span := hspan
  simp [LiveRead.steps, LiveRead.next, hheader, hopen]

/-- `reader_for` opens the part when no reader is held for the length. -/
theorem readerFor_miss {path : PartPath} {files : PartFiles} {cache : Option CachedReader}
    (h : ∀ held, cache = some held → held.bytes ≠ files.data.length) :
    readerFor v config files (heldAt path cache) path
      = (PartReader.openPart v files path.isSealed config).map fun reader =>
          (reader, heldAt path (some ⟨files.data.length, reader⟩)) := by
  have hopened : readerFor v config files (heldAt path cache) path = (do
      let reader ← PartReader.openPart v files path.isSealed config
      .ok (reader, (heldAt path cache).hold path ⟨files.data.length, reader⟩)) := by
    unfold readerFor
    rw [find_heldAt]
    cases cache with
    | none => rfl
    | some held => exact if_neg (h held rfl)
  rw [hopened]
  cases PartReader.openPart v files path.isSealed config with
  | error e => rfl
  | ok reader => exact congrArg (fun cache => Except.ok (reader, cache)) (hold_heldAt path cache _)

/-- The five steps of a read are what `read_streams` does with the part. -/
theorem readParts_steps {disk : Disk} {path : PartPath} {files : PartFiles} {which : Which}
    (hfile : disk.fileAt path = some files) (hopen : path.isSealed = false)
    (hcovers : which.covers path.dir.partition = true) (start limit since : Nat)
    (cache : Option CachedReader) : ∃ answer cache',
    LiveRead.steps v config files 5 ⟨start, limit, since, Reading.first files cache limit⟩ cache
        = (.answered answer, cache') ∧
      readParts v config disk which limit (visitFrom v start limit) [path] (heldAt path cache) []
        = answer.map fun rows => (rows, heldAt path cache') := by
  by_cases hzero : limit = 0
  · refine ⟨.ok [], cache, steps_answered (if_pos hzero) 5 cache, ?_⟩
    rw [readParts, if_pos (by simp [hzero])]
    rfl
  · have hvisit : readParts v config disk which limit (visitFrom v start limit) [path]
        (heldAt path cache) [] = (readerFor v config files (heldAt path cache) path).bind
          fun found => (visitFrom v start limit found.1 files.data []).map
            fun rows => (rows, found.2) := by
      rw [readParts, if_neg (by simpa using hzero), if_pos hcovers, hfile]
      simp only [bind, Except.bind, readParts]
      cases readerFor v config files (heldAt path cache) path with
      | error e => rfl
      | ok found =>
        dsimp only
        cases visitFrom v start limit found.1 files.data [] <;> rfl
    rw [hvisit]
    -- a reader of the file as long as it is now is taken from the cache
    by_cases hhit : ∃ held, cache = some held ∧ held.bytes = files.data.length
    · obtain ⟨held, rfl, hbytes⟩ := hhit
      have hfirst : Reading.first files (some held) limit = .ready held.reader := by
        unfold Reading.first
        rw [if_neg hzero]
        exact if_pos hbytes
      rw [hfirst]
      refine ⟨_, some held, rfl, ?_⟩
      unfold readerFor
      rw [find_heldAt]
      dsimp only
      rw [if_pos hbytes]
      rfl
    · -- any other is opened again
      have hmiss : ∀ held, cache = some held → held.bytes ≠ files.data.length :=
        fun held hheld hbytes => hhit ⟨held, hheld, hbytes⟩
      have hfirst : Reading.first files cache limit = .measured files.data.length := by
        unfold Reading.first
        rw [if_neg hzero]
        cases cache with
        | none => rfl
        | some held => exact if_neg (hmiss held rfl)
      rw [readerFor_miss hmiss, hopen, hfirst]
      cases hpart : PartReader.openPart v files false config with
      | error e => exact ⟨_, _, steps_measured_error hpart start limit since _ cache, rfl⟩
      | ok reader => exact ⟨_, _, steps_measured hpart start limit since _ cache, rfl⟩

end Okm.Series
