import Okm.Series.LogRun

/-!
# Following a stream

A consumer of one stream asks again and again for what comes after the last offset it
has seen, while the log it reads goes through any run. As long as each record of the
stream lands in the directory that holds all earlier ones, offsets count the stream's
records and the consumer receives each of them once, in order (`follow_ok`).

A record whose time is in a later bucket lands in a directory that starts at offset 0
again: `next_bucket_restarts`.
-/

namespace Okm.Series

open Lib Model

variable {v : Vendor} {stream : Option String}

/-- A log, and the offset a consumer of one stream asks for next. -/
structure Followed where
  log : Log
  next : Nat

inductive FollowOp where
  | log (op : LogOp)
  /-- `read_stream` after the last offset seen. -/
  | poll (limit : Nat)

/-- The offset after the last row seen. -/
def nextAfter (next : Nat) (rows : List Row) : Nat :=
  (rows.getLast?.map fun row => row.2.1 + 1).getD next

def Followed.step (v : Vendor) (stream : Option String) (s : Followed) :
    FollowOp → Except Error (LogAnswer × Followed)
  | .log op => do
    let (answer, log) ← s.log.step v op
    .ok (answer, { s with log := log })
  | .poll limit => do
    let (rows, log) ← s.log.read v (.stream stream) (.offset s.next) limit
    .ok (.rows rows, ⟨log, nextAfter s.next rows⟩)

/-- What the consumer's calls answered. -/
def received (past : List (FollowOp × LogAnswer)) : List Row :=
  past.flatMap fun e => match e with
    | (.poll _, .rows rows) => rows
    | _ => []

/-- The record lands in the directory that holds all the stream has been given. -/
def StaysPut (v : Vendor) (stream : Option String) (answers : List LogAnswer) (log : Log) :
    LogOp → Prop
  | .append clock _ body => ∀ bucket, log.partitionFor v body = .ok stream →
      log.config.bucketOf (log.now stream clock.toNat) = .ok bucket →
      dirRows (dirKey bucket stream) answers = appendedRows stream answers
  | _ => True

instance StaysPut.decidable (v : Vendor) (stream : Option String) (answers : List LogAnswer)
    (log : Log) : (op : LogOp) → Decidable (StaysPut v stream answers log op)
  | .append clock _ body => decidable_of_iff (log.partitionFor v body = .ok stream →
      ∀ bucket, log.config.bucketOf (log.now stream clock.toNat) = .ok bucket →
        dirRows (dirKey bucket stream) answers = appendedRows stream answers)
      ⟨fun h bucket hpart hbucket => h hpart bucket hbucket,
        fun h hpart bucket hbucket => h bucket hpart hbucket⟩
  | .flush | .sealParts | .retainBefore _ | .reopen _ | .read _ _ _ => .isTrue trivial

/-- What an operation of a followed run may be. -/
def FollowOp.Meets (v : Vendor) (stream : Option String) (past : List (FollowOp × LogAnswer))
    (s : Followed) : FollowOp → Prop
  | .log op => op.Roomy v s.log ∧ StaysPut v stream (past.map Prod.snd) s.log op
  | .poll _ => True

instance FollowOp.Meets.decidable (v : Vendor) (stream : Option String)
    (past : List (FollowOp × LogAnswer)) (s : Followed) :
    (op : FollowOp) → Decidable (op.Meets v stream past s)
  | .log op =>
    inferInstanceAs (Decidable (op.Roomy v s.log ∧ StaysPut v stream (past.map Prod.snd) s.log op))
  | .poll _ => .isTrue trivial

/-! ## Rows counted from zero -/

/-- The offsets of these rows are their positions. -/
def Counted (rows : List Row) : Prop := rows.map (fun row => row.2.1) = List.range rows.length

theorem Counted.snoc {rows : List Row} (h : Counted rows) {row : Row} (hrow : row.2.1 = rows.length) :
    Counted (rows ++ [row]) := by
  unfold Counted at h ⊢
  rw [List.map_append, h, List.length_append, List.length_singleton, List.range_succ,
    List.map_singleton, hrow]

theorem Counted.getElem {rows : List Row} (h : Counted rows) {i : Nat} (hi : i < rows.length) :
    rows[i].2.1 = i := by
  have hget := congrArg (fun l => l[i]?) h
  simpa [hi] using hget

/-- From an offset on, counted rows are those from that position on. -/
theorem Counted.want {rows : List Row} (h : Counted rows) (start : Nat) :
    (Select.offset start).want rows = rows.drop start := by
  induction rows using List.reverseRecOn with
  | nil => simp [Select.want]
  | append_singleton rows row ih =>
    have hrow : row.2.1 = rows.length := by
      have hlast := h.getElem (i := rows.length) (by simp)
      simpa using hlast
    have hinit : Counted rows := by
      unfold Counted at h ⊢
      rw [List.map_append, List.length_append, List.length_singleton, List.range_succ] at h
      exact (List.append_inj h (by simp)).1
    rw [Select.want_append, ih hinit]
    rcases Nat.lt_or_ge rows.length start with hlt | hge
    · have hnot : ¬ start ≤ row.2.1 := by omega
      have hlen : (rows ++ [row]).length ≤ start := by
        rw [List.length_append]
        exact hlt
      rw [List.drop_eq_nil_of_le (Nat.le_of_lt hlt), List.drop_eq_nil_of_le hlen]
      simp [Select.want, Select.wants, hnot]
    · have hin : start ≤ row.2.1 := by omega
      rw [List.drop_append_of_le_length hge]
      simp [Select.want, Select.wants, hin]

/-- What comes next after rows taken from counted ones. -/
theorem Counted.nextAfter {rows : List Row} (h : Counted rows) (next limit : Nat) :
    Series.nextAfter next ((rows.drop next).take limit)
      = next + ((rows.drop next).take limit).length := by
  unfold Series.nextAfter
  rcases List.eq_nil_or_concat' ((rows.drop next).take limit) with hnil | ⟨init, last, hsplit⟩
  · rw [hnil]
    rfl
  · have hlen := congrArg List.length hsplit
    rw [List.length_take, List.length_drop, List.length_append, List.length_singleton] at hlen
    have hlast : ((rows.drop next).take limit)[init.length]? = some last := by
      rw [hsplit]
      simp
    rw [List.getElem?_take_of_lt (by omega), List.getElem?_drop,
      List.getElem?_eq_getElem (by omega)] at hlast
    have hoffset := h.getElem (i := next + init.length) (by omega)
    rw [Option.some.inj hlast] at hoffset
    rw [hsplit, List.getLast?_append, List.length_append, List.length_singleton]
    show last.2.1 + 1 = _
    rw [hoffset, Nat.add_assoc]

/-! ## A followed run -/

/-- What a followed run keeps: the stream is in one directory, which has all that was
appended or has been dropped; and the consumer has the first `next` rows. -/
structure FollowInv (v : Vendor) (stream : Option String) (past : List (FollowOp × LogAnswer))
    (s : Followed) : Prop where
  lay : ∃ lay, RunInv v (past.map Prod.snd) s.log lay
  dir : ∃ bucket, StreamIn (dirKey bucket stream) (past.map Prod.snd) ∧
    (dirRows (dirKey bucket stream) (past.map Prod.snd) = appendedRows stream (past.map Prod.snd) ∨
      dirRows (dirKey bucket stream) (past.map Prod.snd) = [])
  counted : Counted (appendedRows stream (past.map Prod.snd))
  received : received past = (appendedRows stream (past.map Prod.snd)).take s.next
  next : s.next ≤ (appendedRows stream (past.map Prod.snd)).length

theorem followInv_fresh (config : Config) : FollowInv v stream [] ⟨Log.fresh config, 0⟩ where
  lay := ⟨_, runInv_fresh config⟩
  dir := ⟨0, nofun, Or.inl rfl⟩
  counted := rfl
  received := rfl
  next := Nat.le_refl 0

theorem Counted.take {rows : List Row} (h : Counted rows) (n : Nat) : Counted (rows.take n) := by
  unfold Counted at h ⊢
  rw [List.map_take, h, List.length_take, List.take_range]

/-- What is left of the stream, or nothing, is a first part of what it was given. -/
theorem FollowInv.flushed_take {past : List (FollowOp × LogAnswer)} {s : Followed}
    (h : FollowInv v stream past s) :
    ∃ n, flushedRows s.log stream (past.map Prod.snd)
      = (appendedRows stream (past.map Prod.snd)).take n := by
  obtain ⟨bucket, hin, hdir⟩ := h.dir
  have hkept : keptRows stream (past.map Prod.snd)
      = dirRows (dirKey bucket stream) (past.map Prod.snd) := hin.keptRows
  rw [flushedRows, hkept]
  rcases hdir with hall | hnone
  · rw [hall]
    exact ⟨_, rfl⟩
  · rw [hnone, List.take_nil]
    exact ⟨0, rfl⟩

/-- **A poll** answers the flushed rows that come next, as many as it may. -/
theorem FollowInv.poll {past : List (FollowOp × LogAnswer)} {s : Followed}
    (h : FollowInv v stream past s) (limit : Nat) :
    ∃ log', s.log.read v (.stream stream) (.offset s.next) limit
      = .ok (((flushedRows s.log stream (past.map Prod.snd)).drop s.next).take limit, log') := by
  obtain ⟨lay, hrun⟩ := h.lay
  obtain ⟨bucket, hin, -⟩ := h.dir
  obtain ⟨log', hread⟩ := hrun.readStream hin (.offset s.next) limit
  obtain ⟨n, hflushed⟩ := h.flushed_take
  have hcounted : Counted (flushedRows s.log stream (past.map Prod.snd)) := by
    rw [hflushed]
    exact h.counted.take n
  refine ⟨log', ?_⟩
  rw [← hcounted.want s.next]
  exact hread

/-- A first part, and then what comes next of a longer one. -/
theorem take_append_next {α : Type} (all : List α) {next : Nat} (hnext : next ≤ all.length)
    (n limit : Nat) :
    all.take next ++ ((all.take n).drop next).take limit
      = all.take (next + (((all.take n).drop next).take limit).length) ∧
    next + (((all.take n).drop next).take limit).length ≤ all.length := by
  have hmore : ((all.take n).drop next).take limit = (all.drop next).take (min limit (n - next)) := by
    rw [List.drop_take, List.take_take]
  rw [hmore, List.length_take, List.length_drop]
  constructor
  · rw [← List.take_add]
    rcases Nat.le_total (min limit (n - next)) (all.length - next) with hle | hge
    · rw [Nat.min_eq_left hle]
    · rw [Nat.min_eq_right hge, List.take_of_length_le (by omega),
        List.take_of_length_le (by omega)]
  · omega

theorem StreamIn.snoc {key : DirKey} {answers : List LogAnswer} (h : StreamIn key answers)
    {answer : LogAnswer}
    (hnew : ∀ did, answer = .appended did → did.partition = key.partition →
      dirKey did.bucket did.partition = key) : StreamIn key (answers ++ [answer]) := by
  intro did hdid hpart
  rw [kept_snoc] at hdid
  rcases mem_noteKept hdid with hold | hnow
  · exact h did hold hpart
  · exact hnew did hnow hpart

/-- A stream's rows after an answer. -/
theorem appendedRows_appended (answers : List LogAnswer) (did : Log.Appended) :
    appendedRows stream (answers ++ [.appended did])
      = appendedRows stream answers ++ if did.partition = stream then [did.row] else [] := by
  rw [appendedRows_snoc]
  congr 1
  by_cases hpart : did.partition = stream
  · rw [if_pos hpart]
    simp [appendedRows, hpart]
  · rw [if_neg hpart]
    simp [appendedRows, hpart]

/-- An operation of the log keeps where the stream is, and its count. -/
theorem FollowInv.logStep (lawful : v.Lawful) {past : List (FollowOp × LogAnswer)} {s : Followed}
    (h : FollowInv v stream past s) {op : LogOp} {answer : LogAnswer} {log' : Log}
    (hroomy : op.Roomy v s.log) (hstays : StaysPut v stream (past.map Prod.snd) s.log op)
    (hok : s.log.step v op = .ok (answer, log')) :
    FollowInv v stream (past ++ [(.log op, answer)]) ⟨log', s.next⟩ := by
  obtain ⟨lay, hrun⟩ := h.lay
  obtain ⟨hlay, hoffset⟩ := hrun.step lawful hroomy hok
  have hanswers : (past ++ [(FollowOp.log op, answer)]).map Prod.snd
      = past.map Prod.snd ++ [answer] := by rw [List.map_append]; rfl
  have hreceived : Series.received (past ++ [(FollowOp.log op, answer)]) = Series.received past := by
    rw [Series.received, List.flatMap_append]
    exact List.append_nil _
  -- it is enough to know where the stream is, and that it still counts
  suffices hsuff : (∃ bucket, StreamIn (dirKey bucket stream) (past.map Prod.snd ++ [answer]) ∧
      (dirRows (dirKey bucket stream) (past.map Prod.snd ++ [answer])
          = appendedRows stream (past.map Prod.snd ++ [answer]) ∨
        dirRows (dirKey bucket stream) (past.map Prod.snd ++ [answer]) = [])) ∧
      Counted (appendedRows stream (past.map Prod.snd ++ [answer])) ∧
      ∃ more, appendedRows stream (past.map Prod.snd ++ [answer])
        = appendedRows stream (past.map Prod.snd) ++ more by
    obtain ⟨hdir, hcounted, more, hmore⟩ := hsuff
    rw [← hanswers] at hlay hdir hcounted hmore
    refine ⟨hlay, hdir, hcounted, ?_, ?_⟩
    · rw [hreceived, h.received, hmore, List.take_append_of_le_length h.next]
    · have hle := h.next
      rw [hmore, List.length_append]
      exact Nat.le_trans hle (Nat.le_add_right _ _)
  obtain ⟨bucket, hin, hdir⟩ := h.dir
  have hquiet : (∀ kept, noteKept kept answer = kept) → appendedRows stream [answer] = [] →
      (∃ bucket, StreamIn (dirKey bucket stream) (past.map Prod.snd ++ [answer]) ∧
        (dirRows (dirKey bucket stream) (past.map Prod.snd ++ [answer])
            = appendedRows stream (past.map Prod.snd ++ [answer]) ∨
          dirRows (dirKey bucket stream) (past.map Prod.snd ++ [answer]) = [])) ∧
        Counted (appendedRows stream (past.map Prod.snd ++ [answer])) ∧
        ∃ more, appendedRows stream (past.map Prod.snd ++ [answer])
          = appendedRows stream (past.map Prod.snd) ++ more := by
    intro hkept hnone
    have hsame : appendedRows stream (past.map Prod.snd ++ [answer])
        = appendedRows stream (past.map Prod.snd) := by
      rw [appendedRows_snoc, hnone, List.append_nil]
    rw [hsame]
    refine ⟨⟨bucket, ?_, ?_⟩, h.counted, [], (List.append_nil _).symm⟩
    · intro did hdid hpart
      rw [kept_snoc, hkept] at hdid
      exact hin did hdid hpart
    · rw [dirRows_quiet _ _ hkept]
      exact hdir
  cases answer with
  | done => exact hquiet (fun _ => rfl) rfl
  | rows rows => exact hquiet (fun _ => rfl) rfl
  | dropped buckets =>
    have hsame : appendedRows stream (past.map Prod.snd ++ [.dropped buckets])
        = appendedRows stream (past.map Prod.snd) := by
      rw [appendedRows_snoc]
      exact List.append_nil _
    rw [hsame]
    refine ⟨⟨bucket, hin.snoc nofun, ?_⟩, h.counted, [], (List.append_nil _).symm⟩
    rw [dirRows_dropped]
    by_cases hdrop : (dirKey bucket stream).bucket ∈ buckets
    · rw [if_pos hdrop]
      exact Or.inr rfl
    · rw [if_neg hdrop]
      exact hdir
  | appended did =>
    obtain ⟨clock, created, body, rfl, happend⟩ := step_appended hok
    obtain ⟨hpart, hlands⟩ := append_lands happend
    rw [appendedRows_appended]
    by_cases hstream : did.partition = stream
    · subst hstream
      have hall := hstays did.bucket hpart hlands
      rw [if_pos rfl]
      refine ⟨⟨did.bucket, ?_, Or.inl ?_⟩, h.counted.snoc ?_, _, rfl⟩
      · refine StreamIn.snoc ?_ ?_
        · -- either it is the directory already, or the stream has no record yet
          intro old hold holdPart
          have hwhere := hin old hold holdPart
          by_cases hsame : did.bucket = bucket
          · rw [hwhere, hsame]
          · have hnone : dirRows (dirKey did.bucket did.partition) (past.map Prod.snd) = [] := by
              refine hin.dirRows_other rfl ?_
              intro heq
              exact hsame (congrArg DirKey.bucket heq)
            rw [hnone] at hall
            have hempty : dirRows (dirKey bucket did.partition) (past.map Prod.snd) = [] := by
              rcases hdir with hdir | hdir
              · rw [hdir, ← hall]
              · exact hdir
            rw [dirRows, List.map_eq_nil_iff, List.filter_eq_nil_iff] at hempty
            exact absurd (decide_eq_true hwhere) (hempty old hold)
        · rintro _ heq -
          obtain rfl := LogAnswer.appended.inj heq
          rfl
      · rw [dirRows_appended, if_pos rfl, hall]
      · rw [hoffset did rfl, hall]
    · rw [if_neg hstream, List.append_nil]
      refine ⟨⟨bucket, ?_, ?_⟩, h.counted, [], (List.append_nil _).symm⟩
      · refine hin.snoc ?_
        rintro _ heq hsame
        obtain rfl := LogAnswer.appended.inj heq
        exact absurd hsame hstream
      · rw [dirRows_appended, if_neg ?_, List.append_nil]
        · exact hdir
        · intro heq
          exact hstream (congrArg DirKey.partition heq).symm

/-- **A step of a followed run** keeps what the run keeps. -/
theorem FollowInv.step (lawful : v.Lawful) {past : List (FollowOp × LogAnswer)} {s s' : Followed}
    (h : FollowInv v stream past s) {op : FollowOp} {answer : LogAnswer}
    (hmeets : op.Meets v stream past s) (hok : s.step v stream op = .ok (answer, s')) :
    FollowInv v stream (past ++ [(op, answer)]) s' := by
  cases op with
  | log op =>
    obtain ⟨⟨did, log'⟩, hstep, hok⟩ := bind_eq_ok.mp hok
    obtain ⟨rfl, rfl⟩ := Prod.mk.inj (Except.ok.inj hok)
    exact h.logStep lawful hmeets.1 hmeets.2 hstep
  | poll limit =>
    obtain ⟨⟨rows, log'⟩, hread, hok⟩ := bind_eq_ok.mp hok
    obtain ⟨rfl, rfl⟩ := Prod.mk.inj (Except.ok.inj hok)
    obtain ⟨log₁, hpoll⟩ := h.poll limit
    obtain ⟨rfl, rfl⟩ := Prod.mk.inj (Except.ok.inj (hread.symm.trans hpoll))
    obtain ⟨lay, hrun⟩ := h.lay
    -- a poll is a read of the stream from the next offset
    have hstep : s.log.step v (.read (.stream stream) (.offset s.next) limit)
        = .ok (.rows (((flushedRows s.log stream (past.map Prod.snd)).drop s.next).take limit),
            log') := by
      show (s.log.read v _ _ _ >>= _) = _
      rw [hread]
      rfl
    have hroomy : LogOp.Roomy v s.log (.read (.stream stream) (.offset s.next) limit) := trivial
    obtain ⟨hnext, -⟩ := hrun.step lawful hroomy hstep
    obtain ⟨n, hflushed⟩ := h.flushed_take
    obtain ⟨bucket, hin, hdir⟩ := h.dir
    have hanswers : ∀ rows, (past ++ [(FollowOp.poll limit, LogAnswer.rows rows)]).map Prod.snd
        = past.map Prod.snd ++ [.rows rows] := by
      intro rows
      rw [List.map_append]
      rfl
    -- it appends nothing
    have hsame : ∀ rows, appendedRows stream (past.map Prod.snd ++ [.rows rows])
        = appendedRows stream (past.map Prod.snd) := by
      intro rows
      rw [appendedRows_snoc]
      exact List.append_nil _
    obtain ⟨htake, hle⟩ := take_append_next (appendedRows stream (past.map Prod.snd)) h.next n limit
    -- the rows are numbered, so the next offset is the count received
    have hcounted := (h.counted.take n).nextAfter s.next limit
    rw [hflushed] at hnext ⊢
    refine ⟨by rw [hanswers]; exact hnext, ⟨bucket, ?_, ?_⟩, ?_, ?_, ?_⟩
    · rw [hanswers]
      exact hin.snoc nofun
    · rw [hanswers, hsame, dirRows_quiet _ _ fun _ => rfl]
      exact hdir
    · rw [hanswers, hsame]
      exact h.counted
    · rw [hanswers, hsame, hcounted, ← htake, ← h.received, Series.received, List.flatMap_append]
      exact congrArg _ (List.append_nil _)
    · rw [hanswers, hsame, hcounted]
      exact hle

/-- **A stream that stays in one directory is followed whole**: its offsets count its
records, the consumer has the first of them in order and each once, and what a poll
answers is the flushed ones that come next. -/
theorem follow_ok (lawful : v.Lawful) {config : Config} {past : List (FollowOp × LogAnswer)}
    {s : Followed}
    (run : Trace (Followed.step v stream) (FollowOp.Meets v stream) ⟨Log.fresh config, 0⟩ past s) :
    Counted (appendedRows stream (past.map Prod.snd)) ∧
    received past = (appendedRows stream (past.map Prod.snd)).take s.next ∧
    flushedRows s.log stream (past.map Prod.snd) <+: appendedRows stream (past.map Prod.snd) ∧
    ∀ limit, ∃ log', s.step v stream (.poll limit)
      = .ok (.rows (((flushedRows s.log stream (past.map Prod.snd)).drop s.next).take limit),
          ⟨log', s.next + (((flushedRows s.log stream (past.map Prod.snd)).drop s.next).take
            limit).length⟩) := by
  have h : FollowInv v stream past s := run.invariant (FollowInv v stream) (followInv_fresh config)
    fun _ _ _ _ _ hinv hmeets hok => hinv.step lawful hmeets hok
  obtain ⟨n, hflushed⟩ := h.flushed_take
  refine ⟨h.counted, h.received, ?_, ?_⟩
  · rw [hflushed]
    exact List.take_prefix n _
  · intro limit
    obtain ⟨log', hpoll⟩ := h.poll limit
    refine ⟨log', ?_⟩
    have hcounted := (h.counted.take n).nextAfter s.next limit
    rw [← hflushed] at hcounted
    rw [← hcounted]
    show (s.log.read v _ _ _ >>= _) = _
    rw [hpoll]
    rfl

/-! ## Runs on fixed inputs -/

/-- Words of two streams; the consumer of one polls between parts, a restart and a
retention that takes nothing. -/
def followOps : List FollowOp :=
  [.log (wordsAt 5 1 "granite"), .log (wordsAt 5 2 "granite"), .log (wordsAt 9 1 "marble"), .poll 1,
    .log .flush, .poll 1, .log (wordsAt 3 1 "basalt"), .log (wordsAt 12 1 "granite"), .poll 9,
    .log .sealParts, .log (wordsAt 13 1 "obsidian"), .log (.reopen fun _ => 0), .poll 2,
    .log (.retainBefore 999999999), .log (wordsAt 14 1 "marble"), .log .flush, .poll 9, .poll 9]

/-- Six records of the stream are received one after another. -/
theorem follow_ok_words : ∃ past s,
    runGuarded (Followed.step plainVendor (some "1")) (FollowOp.Meets plainVendor (some "1"))
        ⟨Log.fresh wordsConfig, 0⟩ followOps = some (past, s) ∧
      (received past).map (fun row => (row.1, row.2.1))
        = [(5, 0), (9, 1), (9, 2), (12, 3), (13, 4), (14, 5)] := by
  have hrows : (runGuarded (Followed.step plainVendor (some "1"))
      (FollowOp.Meets plainVendor (some "1")) ⟨Log.fresh wordsConfig, 0⟩ followOps).map (fun run =>
        ((appendedRows (some "1") (run.1.map Prod.snd)).take run.2.next).map
          fun row => (row.1, row.2.1))
      = some [(5, 0), (9, 1), (9, 2), (12, 3), (13, 4), (14, 5)] := by decide +kernel
  obtain ⟨⟨past, s⟩, hrun, htaken⟩ := Option.map_eq_some_iff.mp hrows
  refine ⟨past, s, hrun, ?_⟩
  rw [(follow_ok plainVendor_lawful (Trace.runGuarded hrun)).2.1]
  exact htaken

/-- A log whose buckets are a second long. -/
def secondsLog : Log := Log.fresh ⟨.ns, 1, 65536, 65536, 1, .raw, none, none⟩

def noteAt (clock : UInt64) : FollowOp := .log (.append clock 0 ⟨[(1, .u64 7)]⟩)

/-- **The next bucket's offsets start over**: two records of one stream, a second apart,
are both given offset 0. -/
theorem next_bucket_restarts : ∃ past s,
    Trace (Followed.step plainVendor none) (fun _ _ _ => True) ⟨secondsLog, 0⟩ past s ∧
      (appendedRows none (past.map Prod.snd)).map (fun row => row.2.1) = [0, 0] := by
  have hoffsets : (runAll (Followed.step plainVendor none) ⟨secondsLog, 0⟩
      [noteAt 0, noteAt 1000000000]).map
        (fun e => (appendedRows none (e.1.map Prod.snd)).map fun row => row.2.1) = .ok [0, 0] := by
    decide +kernel
  obtain ⟨⟨past, s⟩, hrun⟩ := exists_of_isOk (show (runAll (Followed.step plainVendor none)
    ⟨secondsLog, 0⟩ [noteAt 0, noteAt 1000000000]).isOk = true by decide +kernel)
  rw [hrun] at hoffsets
  exact ⟨past, s, trace_runAll (fun _ _ _ _ => trivial) hrun, Except.ok.inj hoffsets⟩

end Okm.Series
