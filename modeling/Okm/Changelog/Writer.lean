import Okm.Changelog.Segment

/-!
# The change log's writer

The model of the writer of `changelog.rs` and of the calls of `model/document.rs` that
drive it. A commit's record passes through three places: `staged` before the engine has
answered, `pending` once it has, and the open segment's file when the buffer is flushed;
a seal renames that file and opens the next one.

Every call meets a `Weather`: which of its file operations fail, and whether the segment
is old enough to rotate. A write that fails has put some first bytes of the buffer into
the file. `Flush` and `Sealing` say all that the two failing steps can do; every invariant
is derived from them.
-/

namespace Okm.Changelog

open Lib Wire

/-! ## State -/

/-- `ChangelogConfig`, the age limit left to the weather. -/
structure Config where
  dir : String
  segmentBytes : Nat
  bufferBytes : Nat
  syncData : Bool

/-- What the file system and the clock do to one call: the failures with their texts, a
failed write with the number of bytes it got rid of first. -/
structure Weather where
  write : Option (Nat × String) := none
  sync : Option String := none
  rename : Option String := none
  create : Option String := none
  aged : Bool := false

/-- `Changelog`. The open segment has a file under its `.partial` name, unless creating it
failed; `handle` says whether the writer still holds it open. -/
structure Writer where
  handle : Bool
  segment : Nat
  written : Nat
  pending : Bytes
  staged : Bytes
  dropped : Nat
  lastError : Option String
  /-- The bytes of the `.partial` file. -/
  content : Option Bytes
  /-- The `.segment` files by name. -/
  files : SortedMap Bytes Bytes

/-- `Changelog::open` in a directory whose next segment is number `segment`. -/
def opened (segment : Nat) : Writer where
  handle := true
  segment := segment
  written := 0
  pending := []
  staged := []
  dropped := 0
  lastError := none
  content := some []
  files := SortedMap.empty

/-! ## Writing -/

/-- The counters saturate at the width of a `u64`. -/
def saturate (n : Nat) : Nat := min n (2 ^ 64 - 1)

/-- The file a segment is written to, as the errors name it. -/
def partialPath (cfg : Config) (segment : Nat) : String :=
  cfg.dir ++ "/" ++ (Model.strOfBytes (stem segment)).getD "" ++ ".partial"

def fault (cfg : Config) (segment : Nat) (text : String) : String :=
  partialPath cfg segment ++ ": " ++ text

/-- The loop of `trim_to_cap`, for at most `rounds` records. -/
def trimLoop (cap : Nat) : Nat → Bytes → Nat × Bytes
  | 0, pending => (0, pending)
  | rounds + 1, pending =>
    if cap < pending.length then
      match firstRecordEnd pending with
      | none => (1, [])
      | some stop =>
        let rest := trimLoop cap rounds (pending.drop stop)
        (rest.1 + 1, rest.2)
    else (0, pending)

/-- `trim_to_cap`: how many records the cap drops, and the bytes it keeps. -/
def trimToCap (cfg : Config) (pending : Bytes) : Nat × Bytes :=
  trimLoop (max (saturate (cfg.bufferBytes * 8)) 1) pending.length pending

namespace Writer

variable (cfg : Config)

/-- A failure is recorded. -/
def note (log : Writer) (what : String) : Writer := { log with lastError := some what }

/-- A write that failed after `n` bytes: the buffer is kept up to the cap. -/
def failWrite (log : Writer) (n : Nat) (what : String) : Writer :=
  { log with
    lastError := some what
    content := log.content.map (· ++ log.pending.take n)
    dropped := log.dropped + (trimToCap cfg log.pending).1
    pending := (trimToCap cfg log.pending).2 }

/-- A write that landed. -/
def land (log : Writer) : Writer :=
  { log with
    content := log.content.map (· ++ log.pending)
    written := log.written + log.pending.length
    pending := [] }

/-- `write_pending`. -/
def writePending (weather : Weather) (log : Writer) : Except Error Unit × Writer :=
  if log.pending = [] then (.ok (), log)
  else if log.handle then
    match weather.write with
    | some (n, text) =>
      (.error (.changelog (fault cfg log.segment text)),
        log.failWrite cfg n (fault cfg log.segment text))
    | none =>
      match weather.sync with
      | some text =>
        if cfg.syncData then
          (.error (.changelog (fault cfg log.segment text)),
            log.land.note (fault cfg log.segment text))
        else (.ok (), log.land)
      | none => (.ok (), log.land)
  else
    (.error (.changelog (fault cfg log.segment "segment handle is closed")),
      log.note (fault cfg log.segment "segment handle is closed"))

/-! ## Sealing -/

/-- The handle is given up. -/
def close (log : Writer) : Writer := { log with handle := false }

/-- The open file takes its sealed name. -/
def shut (log : Writer) (bytes : Bytes) : Writer :=
  { log with
    files := log.files.insert (stem log.segment) bytes
    content := none
    segment := log.segment + 1
    written := 0 }

/-- The next segment is created. -/
def reopen (log : Writer) : Writer := { log with handle := true, content := some [] }

/-- `seal` once the buffer is written and the handle closed: a missing file cannot be
renamed. -/
def rotate (weather : Weather) (log : Writer) : Except Error Unit × Writer :=
  match weather.rename with
  | some text => (.error (.changelog (fault cfg log.segment text)), log)
  | none =>
    match log.content with
    | none =>
      (.error (.changelog (fault cfg log.segment "No such file or directory (os error 2)")), log)
    | some bytes =>
      match weather.create with
      | some text => (.error (.changelog (fault cfg (log.segment + 1) text)), log.shut bytes)
      | none => (.ok (), (log.shut bytes).reopen)

/-- `seal`. -/
def sealNow (weather : Weather) (log : Writer) : Except Error Unit × Writer :=
  match log.writePending cfg weather with
  | (.error e, log) => (.error e, log)
  | (.ok (), log) => rotate cfg weather log.close

/-- `Drop`: the buffer is written, and a segment that holds anything takes its sealed name. Nobody
is told of a failure. -/
def drop (weather : Weather) (log : Writer) : Writer :=
  let log := (log.writePending cfg weather).2.close
  if 0 < log.written then
    match weather.rename, log.content with
    | none, some bytes => log.shut bytes
    | _, _ => log
  else log

/-! ## Committing -/

/-- The flush is due: the buffer is full, or the segment would be. -/
def flushDue (log : Writer) : Bool :=
  cfg.bufferBytes ≤ log.pending.length ||
    cfg.segmentBytes ≤ saturate (log.written + log.pending.length)

/-- The rotation is due: by bytes or by age, and never of an empty segment. -/
def rotateDue (weather : Weather) (log : Writer) : Bool :=
  (cfg.segmentBytes ≤ saturate (log.written + log.pending.length) || weather.aged) &&
    saturate (log.written + log.pending.length) != 0

/-- `maybe_rotate`. -/
def maybeRotate (weather : Weather) (log : Writer) : Except Error Unit × Writer :=
  if log.rotateDue cfg weather then log.sealNow cfg weather else (.ok (), log)

/-- The staged record joins the buffer. -/
def append (log : Writer) : Writer :=
  { log with pending := log.pending ++ log.staged, staged := [] }

/-- `commit_staged` behind the append. -/
def settle (weather : Weather) (log : Writer) : Except Error Unit × Writer :=
  if log.flushDue cfg then
    match log.writePending cfg weather with
    | (.error e, log) => (.error e, log)
    | (.ok (), log) => log.maybeRotate cfg weather
  else log.maybeRotate cfg weather

/-- `commit_staged`. -/
def commitStaged (weather : Weather) (log : Writer) : Except Error Unit × Writer :=
  if log.staged = [] then (.ok (), log) else log.append.settle cfg weather

/-- `stage`: whatever was staged before is gone. -/
def stageBatch (header : Bytes) (ops : List (Op Bytes Bytes)) (log : Writer) : Writer :=
  { log with staged := (stage header ops).2 }

end Writer

/-! ## Calls and runs -/

/-- A call that reaches the log: a collection's commit with the engine's verdict on it, a
caller's stage and flush around a commit the engine accepted, a seal. -/
inductive Call where
  | commit (ops : List (Op Bytes Bytes)) (verdict : Except Error Unit)
  | capture (ops : List (Op Bytes Bytes))
  | sealNow

/-- The batch a call has committed. -/
def Call.accepted : Call → Option (List (Op Bytes Bytes))
  | .commit ops (.ok ()) => some ops
  | .commit _ (.error _) => none
  | .capture ops => some ops
  | .sealNow => none

namespace Writer

variable (cfg : Config) (header : Bytes)

/-- What the log does with a call: its own answer and the state it leaves. -/
def call (weather : Weather) (log : Writer) : Call → Except Error Unit × Writer
  | .commit ops verdict =>
    match verdict with
    | .error _ => (.ok (), log.stageBatch header ops)
    | .ok () => (log.stageBatch header ops).commitStaged cfg weather
  | .capture ops => (log.stageBatch header ops).commitStaged cfg weather
  | .sealNow => log.sealNow cfg weather

/-- A run of calls, each under its own weather. -/
def run (log : Writer) (calls : List (Call × Weather)) : Writer :=
  calls.foldl (fun log c => (log.call cfg header c.2 c.1).2) log

end Writer

/-- The frame a call adds to what the log owes. -/
def Call.frame (header : Bytes) (call : Call) : Option OpFrame :=
  call.accepted.bind (staged header)

/-- The bytes a call adds to the buffer. -/
def Call.bytes (header : Bytes) (call : Call) : Bytes := records (call.frame header).toList

/-- The frames of a run, in commit order. -/
def framesOfRun (header : Bytes) (calls : List (Call × Weather)) : List OpFrame :=
  calls.filterMap fun c => c.1.frame header

/-! ## What the failing steps can do -/

/-- All outcomes of `write_pending`. -/
inductive Flush (cfg : Config) (weather : Weather) (log : Writer) :
    Except Error Unit → Writer → Prop where
  | idle : log.pending = [] → Flush cfg weather log (.ok ()) log
  | closed {e : Error} {what : String} : log.pending ≠ [] → log.handle = false →
      Flush cfg weather log (.error e) (log.note what)
  | failed {e : Error} {what : String} {n : Nat} {text : String} : log.pending ≠ [] →
      log.handle = true → weather.write = some (n, text) →
      Flush cfg weather log (.error e) (log.failWrite cfg n what)
  | landed : log.pending ≠ [] → log.handle = true → weather.write = none →
      Flush cfg weather log (.ok ()) log.land
  | unsynced {e : Error} {what : String} : log.pending ≠ [] → log.handle = true →
      weather.write = none → weather.sync ≠ none →
      Flush cfg weather log (.error e) (log.land.note what)

theorem flush_writePending (cfg : Config) (weather : Weather) (log : Writer) :
    Flush cfg weather log (log.writePending cfg weather).1 (log.writePending cfg weather).2 := by
  unfold Writer.writePending
  by_cases hpending : log.pending = []
  · rw [if_pos hpending]
    exact .idle hpending
  rw [if_neg hpending]
  by_cases hhandle : log.handle = true
  · rw [if_pos hhandle]
    cases hwrite : weather.write with
    | some failure => exact .failed hpending hhandle hwrite
    | none =>
      cases hsync : weather.sync with
      | none => exact .landed hpending hhandle hwrite
      | some text =>
        dsimp only
        split
        · exact .unsynced hpending hhandle hwrite (by rw [hsync]; simp)
        · exact .landed hpending hhandle hwrite
  · rw [if_neg hhandle]
    exact .closed hpending (Bool.eq_false_iff.mpr hhandle)

/-- All outcomes of `seal`. -/
inductive Sealing (cfg : Config) (weather : Weather) (log : Writer) :
    Except Error Unit → Writer → Prop where
  | unwritten {e : Error} {log' : Writer} : Flush cfg weather log (.error e) log' →
      Sealing cfg weather log (.error e) log'
  | unnamed {e : Error} {log' : Writer} : Flush cfg weather log (.ok ()) log' →
      weather.rename ≠ none ∨ log'.content = none →
      Sealing cfg weather log (.error e) log'.close
  | unopened {e : Error} {log' : Writer} {bytes : Bytes} : Flush cfg weather log (.ok ()) log' →
      log'.content = some bytes → weather.create ≠ none →
      Sealing cfg weather log (.error e) (log'.close.shut bytes)
  | done {log' : Writer} {bytes : Bytes} : Flush cfg weather log (.ok ()) log' →
      log'.content = some bytes → Sealing cfg weather log (.ok ()) (log'.close.shut bytes).reopen

theorem sealing_sealNow (cfg : Config) (weather : Weather) (log : Writer) :
    Sealing cfg weather log (log.sealNow cfg weather).1 (log.sealNow cfg weather).2 := by
  have hflush := flush_writePending cfg weather log
  unfold Writer.sealNow
  generalize log.writePending cfg weather = answer at hflush ⊢
  obtain ⟨verdict, log'⟩ := answer
  cases verdict with
  | error e => exact .unwritten hflush
  | ok _ =>
    dsimp only at hflush ⊢
    unfold Writer.rotate
    cases hrename : weather.rename with
    | some text => exact .unnamed hflush (Or.inl (by rw [hrename]; simp))
    | none =>
      cases hcontent : log'.close.content with
      | none => exact .unnamed hflush (Or.inr hcontent)
      | some bytes =>
        cases hcreate : weather.create with
        | some text => exact .unopened hflush hcontent (by rw [hcreate]; simp)
        | none => exact .done hflush hcontent

/-! ## The buffer as records -/

/-- The first `n` records of a buffer. -/
def firstRecords : Nat → Bytes → Bytes
  | 0, _ => []
  | n + 1, bytes =>
    match firstRecordEnd bytes with
    | none => []
    | some stop => bytes.take stop ++ firstRecords n (bytes.drop stop)

theorem firstRecords_records {frames : List OpFrame} (h : ∀ f ∈ frames, Whole f) (n : Nat) :
    firstRecords n (records frames) = records (frames.take n) := by
  induction n generalizing frames with
  | zero => rfl
  | succ n ih =>
    cases frames with
    | nil => rfl
    | cons frame frames =>
      have hstop := firstRecordEnd_record (h frame List.mem_cons_self).short (records frames)
      have hrest := ih fun f hf => h f (List.mem_cons_of_mem _ hf)
      have hcons : records (frame :: frames) = record frame ++ records frames := rfl
      rw [hcons, firstRecords, hstop]
      dsimp only
      rw [List.take_left, List.drop_left, hrest]
      rfl

/-- **Trimming drops whole records from the front**, as many as it takes. -/
theorem trimLoop_records (cap : Nat) {frames : List OpFrame} (h : ∀ f ∈ frames, Whole f)
    {rounds : Nat} (hrounds : frames.length ≤ rounds) :
    ∃ gone kept, frames = gone ++ kept ∧
      trimLoop cap rounds (records frames) = (gone.length, records kept) ∧
      ((records kept).length ≤ cap) := by
  induction rounds generalizing frames with
  | zero =>
    obtain rfl := List.length_eq_zero_iff.mp (Nat.le_zero.mp hrounds)
    exact ⟨[], [], rfl, rfl, Nat.zero_le _⟩
  | succ rounds ih =>
    by_cases hcap : cap < (records frames).length
    · cases frames with
      | nil => exact absurd hcap (Nat.not_lt_zero _)
      | cons frame frames =>
        rw [List.length_cons] at hrounds
        obtain ⟨gone, kept, rfl, htrim, hle⟩ :=
          ih (fun f hf => h f (List.mem_cons_of_mem _ hf)) (Nat.le_of_succ_le_succ hrounds)
        refine ⟨frame :: gone, kept, rfl, ?_, hle⟩
        have hstop := firstRecordEnd_record (h frame List.mem_cons_self).short
          (records (gone ++ kept))
        have hcons : records (frame :: (gone ++ kept)) = record frame ++ records (gone ++ kept) :=
          rfl
        rw [hcons] at hcap
        rw [hcons, trimLoop, if_pos hcap, hstop]
        dsimp only
        rw [List.drop_left, htrim]
        rfl
    · refine ⟨[], frames, rfl, ?_, Nat.le_of_not_lt hcap⟩
      rw [trimLoop, if_neg hcap]
      rfl

theorem trimToCap_records (cfg : Config) {frames : List OpFrame} (h : ∀ f ∈ frames, Whole f) :
    ∃ gone kept, frames = gone ++ kept ∧
      trimToCap cfg (records frames) = (gone.length, records kept) ∧
      (records kept).length ≤ 8 * cfg.bufferBytes := by
  obtain ⟨gone, kept, rfl, htrim, hle⟩ := trimLoop_records
    (max (saturate (cfg.bufferBytes * 8)) 1) h (length_le_flatMap fun f _ => record_ne_nil f)
  refine ⟨gone, kept, rfl, htrim, ?_⟩
  unfold saturate at hle
  cases kept with
  | nil => exact Nat.zero_le _
  | cons frame kept =>
    -- a record is longer than the least cap, so a kept one leaves the buffer size in charge
    have hlen : 4 ≤ (records (frame :: kept)).length := by
      rw [records, List.flatMap_cons, List.length_append, length_record]
      omega
    omega

end Okm.Changelog
