import Okm.Series.Fidelity
import Okm.Series.LogReopen

/-!
# Runs of a log

What was appended, and what of it retention has left, is read off the answers of a run
(`appendedRows`, `keptRows`); `LogInv.step` says that the directories hold exactly what
is left. From that follow the two results about whole runs: what reads answer while the
records stay in one bucket (`reads_exact`), and what offsets a stream is given and what
a consumer that follows it receives (`follow_ok`).

Both need the strings a record promotes to find room in the dictionary of its part
(`LogOp.Roomy`), and the second needs a stream to stay in one directory: offsets are
counted by directory, and the next bucket's start over.
-/

namespace Okm.Series

open Lib Model

variable {v : Vendor}

/-! ## Operations -/

inductive LogOp where
  | append (clock created : UInt64) (body : Body)
  | flush
  | sealParts
  | retainBefore (ts : UInt64)
  /-- A clean stop, and the log opened again; the clock is read for each part. -/
  | reopen (clock : Nat → UInt64)
  | read (which : Which) (query : Query) (limit : Nat)

inductive LogAnswer where
  | appended (did : Log.Appended)
  | done
  | dropped (buckets : List Nat)
  | rows (rows : List Row)

namespace Log

def step (v : Vendor) (log : Log) : LogOp → Except Error (LogAnswer × Log)
  | .append clock created body => do
    let (did, log) ← log.append v clock.toNat created.toNat body
    .ok (.appended did, log)
  | .flush => do
    let log ← log.flush v
    .ok (.done, log)
  | .sealParts => do
    let log ← log.sealAll v
    .ok (.done, log)
  | .retainBefore ts => do
    let (buckets, log) ← log.retainBefore v ts.toNat
    .ok (.dropped buckets, log)
  | .reopen clock => do
    let log ← log.reopen v fun part => (clock part).toNat
    .ok (.done, log)
  | .read which query limit => do
    let (rows, log) ← log.read v which query limit
    .ok (.rows rows, log)

/-- A log opened on an empty disk. -/
def fresh (config : Config) : Log := ⟨config, SortedMap.empty, [], [], SortedMap.empty⟩

end Log

/-- The strings the record promotes find room in the dictionary of the part it lands
in. -/
def LogOp.Roomy (v : Vendor) (log : Log) : LogOp → Prop
  | .append clock created body => log.RoomFor v clock.toNat created.toNat body
  | _ => True

instance LogOp.Roomy.decidable (v : Vendor) (log : Log) : (op : LogOp) → Decidable (op.Roomy v log)
  | .append clock created body =>
    inferInstanceAs (Decidable (log.RoomFor v clock.toNat created.toNat body))
  | .flush | .sealParts | .retainBefore _ | .reopen _ | .read _ _ _ => .isTrue trivial

/-! ## What a run has appended -/

/-- The rows a stream was given. -/
def appendedRows (stream : Option String) (answers : List LogAnswer) : List Row :=
  answers.filterMap fun answer => match answer with
    | .appended did => if did.partition = stream then some did.row else none
    | _ => none

/-- One more answer, to what retention has left. -/
def noteKept (kept : List Log.Appended) : LogAnswer → List Log.Appended
  | .appended did => kept ++ [did]
  | .dropped buckets => kept.filter fun did => did.bucket ∉ buckets
  | _ => kept

/-- The records of a run that retention has left. -/
def kept (answers : List LogAnswer) : List Log.Appended := answers.foldl noteKept []

/-- Those of one directory. -/
def dirRows (key : DirKey) (answers : List LogAnswer) : List Row :=
  ((kept answers).filter fun did => dirKey did.bucket did.partition = key).map Log.Appended.row

/-- Those of one stream. -/
def keptRows (stream : Option String) (answers : List LogAnswer) : List Row :=
  ((kept answers).filter fun did => did.partition = stream).map Log.Appended.row

/-- The streams that have any. -/
def streams (answers : List LogAnswer) : List (Option String) :=
  ((kept answers).map Log.Appended.partition).dedup

/-- How many of a stream's records are in no block yet. -/
def Log.pendingOf (log : Log) (stream : Option String) : Nat :=
  ((log.active.filter fun active => active.partition = stream).map
    fun active => active.writer.blockRecords).sum

/-- The rows of a stream that are in its files: all but the last ones. -/
def flushedRows (log : Log) (stream : Option String) (answers : List LogAnswer) : List Row :=
  (keptRows stream answers).take ((keptRows stream answers).length - log.pendingOf stream)

theorem kept_snoc (answers : List LogAnswer) (answer : LogAnswer) :
    kept (answers ++ [answer]) = noteKept (kept answers) answer := by
  rw [kept, List.foldl_append]
  rfl

theorem dirRows_appended (key : DirKey) (answers : List LogAnswer) (did : Log.Appended) :
    dirRows key (answers ++ [.appended did])
      = dirRows key answers ++ if key = dirKey did.bucket did.partition then [did.row] else [] := by
  rw [dirRows, kept_snoc, noteKept, List.filter_append, List.map_append]
  by_cases hkey : key = dirKey did.bucket did.partition
  · rw [if_pos hkey, List.filter_cons_of_pos (by simpa using hkey.symm)]
    rfl
  · rw [if_neg hkey, List.filter_cons_of_neg (by simpa using Ne.symm hkey)]
    rfl

theorem dirRows_dropped (key : DirKey) (answers : List LogAnswer) (buckets : List Nat) :
    dirRows key (answers ++ [.dropped buckets])
      = if key.bucket ∈ buckets then [] else dirRows key answers := by
  rw [dirRows, kept_snoc, noteKept, List.filter_filter]
  by_cases hkey : key.bucket ∈ buckets
  · rw [if_pos hkey, List.map_eq_nil_iff, List.filter_eq_nil_iff]
    intro did _ hboth
    simp only [Bool.and_eq_true, decide_eq_true_eq] at hboth
    obtain ⟨rfl, hnot⟩ := hboth
    exact hnot hkey
  · rw [if_neg hkey, dirRows]
    congr 1
    refine List.filter_congr ?_
    intro did _
    by_cases hsame : dirKey did.bucket did.partition = key
    · subst hsame
      have hbucket : did.bucket ∉ buckets := hkey
      simp [hbucket]
    · simp [hsame]

/-- An answer that neither adds nor drops. -/
theorem dirRows_quiet (key : DirKey) (answers : List LogAnswer) {answer : LogAnswer}
    (h : ∀ kept, noteKept kept answer = kept) :
    dirRows key (answers ++ [answer]) = dirRows key answers := by
  rw [dirRows, kept_snoc, h]
  rfl

theorem appendedRows_snoc (stream : Option String) (answers : List LogAnswer) (answer : LogAnswer) :
    appendedRows stream (answers ++ [answer])
      = appendedRows stream answers ++ appendedRows stream [answer] := List.filterMap_append ..

/-! ## One step -/

section

variable {log log' : Log} {lay : DirKey → Layout}

/-- **An append lands** in the bucket of its time, in the stream of its body. -/
theorem append_lands {clock created : Nat} {body : Body} {did : Log.Appended}
    (hok : log.append v clock created body = .ok (did, log')) :
    log.partitionFor v body = .ok did.partition ∧
      log.config.bucketOf (log.now did.partition clock) = .ok did.bucket := by
  obtain ⟨landing, hland, hok⟩ := bind_eq_ok.mp hok
  obtain ⟨⟨offset, w⟩, -, hok⟩ := bind_eq_ok.mp hok
  obtain ⟨rfl, rfl⟩ := Prod.mk.inj (Except.ok.inj hok)
  obtain ⟨partition, hpartition, hland⟩ := bind_eq_ok.mp hland
  obtain ⟨bucket, hbucket, hland⟩ := bind_eq_ok.mp hland
  obtain ⟨log₁, -, hland⟩ := bind_eq_ok.mp hland
  cases hindex : log₁.activeIndex (dirKey bucket partition) with
  | none =>
    rw [hindex] at hland
    cases hland
  | some index =>
    rw [hindex] at hland
    dsimp only at hland
    cases hactive : log₁.active[index]? with
    | none =>
      rw [hactive] at hland
      cases hland
    | some active =>
      rw [hactive] at hland
      obtain rfl := Except.ok.inj hland
      exact ⟨hpartition, hbucket⟩

/-- **A read** leaves the log as it is, but for the readers it holds. -/
theorem LogInv.read (h : LogInv v log lay) {which : Which} {query : Query} {limit : Nat}
    {rows : List Row} (hok : log.read v which query limit = .ok (rows, log')) :
    LogInv v log' lay ∧ log' = { log with cache := log'.cache } := by
  obtain ⟨⟨found, cache⟩, hread, hok⟩ := bind_eq_ok.mp hok
  obtain ⟨rfl, rfl⟩ := Prod.mk.inj (Except.ok.inj hok)
  obtain ⟨⟨walked, walkedCache⟩, hwalk, hread⟩ := bind_eq_ok.mp hread
  obtain ⟨rfl, rfl⟩ := Prod.mk.inj (Except.ok.inj hread)
  have hstands : ∀ p ∈ (standing log.disk lay).insertionSort startsBefore, Stands lay p.1 p.2 :=
    fun p hp => stands_of_standing ((List.mem_insertionSort startsBefore).mp hp)
  obtain ⟨good, hgood, hcache⟩ := readParts_ok h.diskHolds log.config.dict which query limit
    hstands h.held []
  rw [partsByOffset_eq h.diskHolds, hgood] at hwalk
  obtain ⟨-, rfl⟩ := Prod.mk.inj (Except.ok.inj hwalk)
  exact ⟨⟨h.dirs, h.distinct, hcache, h.lastTs⟩, rfl⟩

/-- The directories hold what retention has left of a run. -/
structure RunInv (v : Vendor) (answers : List LogAnswer) (log : Log) (lay : DirKey → Layout) :
    Prop where
  inv : LogInv v log lay
  rows : ∀ key, rowsOf 0 (lay key).recs = dirRows key answers

theorem RunInv.same {answers : List LogAnswer} {answer : LogAnswer} {lay' : DirKey → Layout}
    (h : RunInv v answers log lay) (hquiet : ∀ kept, noteKept kept answer = kept)
    (hinv : LogInv v log' lay') (hsame : SameRecs lay lay') :
    RunInv v (answers ++ [answer]) log' lay' := by
  refine ⟨hinv, fun key => ?_⟩
  rw [hsame key, h.rows key, dirRows_quiet key answers hquiet]

/-- **One operation** keeps the directories at what is left of the run. An append answers
the number of rows its directory had. -/
theorem RunInv.step (lawful : v.Lawful) {answers : List LogAnswer} (h : RunInv v answers log lay)
    {op : LogOp} {answer : LogAnswer} (roomy : op.Roomy v log)
    (hok : log.step v op = .ok (answer, log')) :
    (∃ lay', RunInv v (answers ++ [answer]) log' lay') ∧
      ∀ did, answer = .appended did →
        did.row.2.1 = (dirRows (dirKey did.bucket did.partition) answers).length := by
  cases op with
  | append clock created body =>
    obtain ⟨⟨did, next⟩, happend, hok⟩ := bind_eq_ok.mp hok
    obtain ⟨rfl, rfl⟩ := Prod.mk.inj (Except.ok.inj hok)
    obtain ⟨lay', ts, enc, h', hrow, hrecs⟩ :=
      h.inv.append lawful clock.toNat_lt created.toNat_lt roomy happend
    -- the new row is the next of its directory
    have hlength : (lay (dirKey did.bucket did.partition)).recs.length
        = (dirRows (dirKey did.bucket did.partition) answers).length := by
      rw [← h.rows, length_rowsOf]
    refine ⟨⟨lay', h', fun key => ?_⟩, ?_⟩
    · rw [hrecs key, rowsOf_append, h.rows key, dirRows_appended]
      by_cases hkey : key = dirKey did.bucket did.partition
      · rw [if_pos hkey, if_pos hkey, hrow, hkey, Nat.zero_add]
        rfl
      · rw [if_neg hkey, if_neg hkey]
        rfl
    · rintro _ heq
      obtain rfl := LogAnswer.appended.inj heq
      rw [hrow]
      exact hlength
  | flush =>
    obtain ⟨next, hflush, hok⟩ := bind_eq_ok.mp hok
    obtain ⟨rfl, rfl⟩ := Prod.mk.inj (Except.ok.inj hok)
    obtain ⟨⟨lay', h', hsame⟩, -⟩ := h.inv.flush lawful hflush
    exact ⟨⟨lay', h.same (fun _ => rfl) h' hsame⟩, nofun⟩
  | sealParts =>
    obtain ⟨next, hseal, hok⟩ := bind_eq_ok.mp hok
    obtain ⟨rfl, rfl⟩ := Prod.mk.inj (Except.ok.inj hok)
    obtain ⟨lay', h', hsame⟩ := h.inv.sealAll lawful hseal
    exact ⟨⟨lay', h.same (fun _ => rfl) h' hsame⟩, nofun⟩
  | retainBefore ts =>
    obtain ⟨⟨buckets, next⟩, hretain, hok⟩ := bind_eq_ok.mp hok
    obtain ⟨rfl, rfl⟩ := Prod.mk.inj (Except.ok.inj hok)
    obtain ⟨lay', h', hrecs⟩ := h.inv.retainBefore lawful hretain
    refine ⟨⟨lay', h', fun key => ?_⟩, nofun⟩
    -- the dropped buckets start from nothing
    rw [hrecs key, dirRows_dropped]
    by_cases hkey : key.bucket ∈ buckets
    · rw [if_pos hkey, if_pos hkey]
      rfl
    · rw [if_neg hkey, if_neg hkey, h.rows key]
  | reopen clock =>
    obtain ⟨next, hreopen, hok⟩ := bind_eq_ok.mp hok
    obtain ⟨rfl, rfl⟩ := Prod.mk.inj (Except.ok.inj hok)
    obtain ⟨lay', h', hsame⟩ := h.inv.reopen lawful hreopen
    exact ⟨⟨lay', h.same (fun _ => rfl) h' hsame⟩, nofun⟩
  | read which query limit =>
    obtain ⟨⟨rows, next⟩, hread, hok⟩ := bind_eq_ok.mp hok
    obtain ⟨rfl, rfl⟩ := Prod.mk.inj (Except.ok.inj hok)
    obtain ⟨h', -⟩ := h.inv.read hread
    exact ⟨⟨lay, h.same (fun _ => rfl) h' fun _ => rfl⟩, nofun⟩

theorem runInv_fresh (config : Config) :
    RunInv v [] (Log.fresh config) (fun _ => Layout.empty) where
  inv := ⟨fun _ => dirHolds_empty, List.Pairwise.nil, fun _ he => absurd he List.not_mem_nil,
    fun _ _ hget => by cases hget⟩
  rows := fun _ => rfl

end

/-! ## Reads of a run -/

/-- What retention has left of a stream is in one directory. -/
def StreamIn (key : DirKey) (answers : List LogAnswer) : Prop :=
  ∀ did ∈ kept answers, did.partition = key.partition → dirKey did.bucket did.partition = key

section

variable {log log' : Log} {lay : DirKey → Layout} {answers : List LogAnswer} {key : DirKey}

theorem StreamIn.keptRows (h : StreamIn key answers) :
    keptRows key.partition answers = dirRows key answers := by
  rw [Series.keptRows, dirRows]
  congr 1
  refine List.filter_congr ?_
  intro did hdid
  rw [decide_eq_decide]
  constructor
  · exact h did hdid
  · rintro rfl
    rfl

theorem StreamIn.dirRows_other (h : StreamIn key answers) {k : DirKey}
    (hpart : k.partition = key.partition) (hk : k ≠ key) : dirRows k answers = [] := by
  rw [dirRows, List.map_eq_nil_iff, List.filter_eq_nil_iff]
  intro did hdid hsame
  obtain rfl := of_decide_eq_true hsame
  exact hk (h did hdid hpart)

theorem RunInv.recs_nil (h : RunInv v answers log lay) {k : DirKey} (hnil : dirRows k answers = []) :
    (lay k).recs = [] := by
  have hlength := congrArg List.length (h.rows k)
  rw [hnil, length_rowsOf] at hlength
  exact List.length_eq_zero_iff.mp hlength

theorem RunInv.flushedRows_nil (h : RunInv v answers log lay) {k : DirKey}
    (hnil : dirRows k answers = []) : (lay k).flushedRows = [] := by
  rw [h.inv.flushedRows k, h.recs_nil hnil]
  exact List.take_nil

/-- The stream's pending records are those of its directory. -/
theorem RunInv.pendingOf (h : RunInv v answers log lay) (hin : StreamIn key answers) :
    log.pendingOf key.partition = log.pendingAt key := by
  rw [Log.pendingOf, sum_filter_keyed h.inv.distinct (k := key) ?_ ?_, Log.pendingAt, Log.writerAt,
    Option.map_map]
  · rfl
  · rintro active rfl
    exact decide_eq_true rfl
  · -- a writer of the stream in another directory has nothing
    intro active hactive hpart hne
    have hpart : active.key.partition = key.partition := of_decide_eq_true hpart
    have hrecs := h.recs_nil (hin.dirRows_other hpart hne)
    obtain ⟨flushed, hsplit, -⟩ := (h.inv.dirs active.key).rows
    have hpending := (h.inv.dirs active.key).pending_length
    rw [hrecs] at hsplit
    rw [(List.append_eq_nil_iff.mp hsplit.symm).2, Log.writerAt,
      findKey_of_mem h.inv.distinct hactive] at hpending
    exact hpending.symm

/-- **What a stream's files hold** is its flushed rows. -/
theorem RunInv.flushedRows (h : RunInv v answers log lay) (hin : StreamIn key answers) :
    (lay key).flushedRows = flushedRows log key.partition answers := by
  rw [h.inv.flushedRows key, Series.flushedRows, h.pendingOf hin, hin.keptRows, ← h.rows key,
    length_rowsOf]

/-- **The read of a stream** that is in one directory: the first of its flushed rows that
are wanted. -/
theorem RunInv.readStream (h : RunInv v answers log lay) (hin : StreamIn key answers)
    (query : Query) (limit : Nat) :
    ∃ log', log.read v (.stream key.partition) query limit
      = .ok ((query.select.want (Series.flushedRows log key.partition answers)).take limit, log') := by
  have halone : ∀ k : DirKey, k.partition = key.partition → k ≠ key → (lay k).flushedRows = [] :=
    fun k hpart hk => h.flushedRows_nil (hin.dirRows_other hpart hk)
  obtain ⟨cache', hread, -⟩ :=
    readStream_ok h.inv.diskHolds h.inv.held halone log.config.dict query limit
  rw [h.flushedRows hin] at hread
  refine ⟨{ log with cache := cache' }, ?_⟩
  show (readStreams v _ _ _ _ query limit >>= _) = _
  rw [hread]
  rfl

/-! ## One bucket -/

/-- What retention has left is in one bucket. -/
def InBucket (bucket : Nat) (answers : List LogAnswer) : Prop :=
  ∀ did ∈ kept answers, did.bucket = bucket

theorem InBucket.streamIn {bucket : Nat} (h : InBucket bucket answers) (stream : Option String) :
    StreamIn (dirKey bucket stream) answers := by
  rintro did hdid rfl
  rw [h did hdid]

theorem flatMap_perm_of_nil {α β : Type} {l l' : List α} {f : α → List β} (hl : l.Nodup)
    (hl' : l'.Nodup) (hmem : ∀ a, f a ≠ [] → (a ∈ l ↔ a ∈ l')) :
    (l.flatMap f).Perm (l'.flatMap f) := by
  -- only elements with something under them count, and they are in both lists
  have hkeep : ∀ l : List α, (l.filter fun a => !(f a).isEmpty).flatMap f = l.flatMap f := by
    intro l
    refine flatMap_filter_of_nil ?_
    intro a _ hempty
    simpa using hempty
  rw [← hkeep l, ← hkeep l']
  refine List.Perm.flatMap_right f ?_
  refine (List.perm_ext_iff_of_nodup (hl.filter _) (hl'.filter _)).mpr ?_
  intro a
  rw [List.mem_filter, List.mem_filter]
  constructor
  · rintro ⟨ha, hne⟩
    exact ⟨(hmem a (by simpa using hne)).mp ha, hne⟩
  · rintro ⟨ha, hne⟩
    exact ⟨(hmem a (by simpa using hne)).mpr ha, hne⟩

/-- What all directories have of a query is what the streams of the bucket have. -/
theorem RunInv.wanted_perm {bucket : Nat} (h : RunInv v answers log lay)
    (hbucket : InBucket bucket answers) (select : Select) :
    (wantedRows log.disk lay select).Perm
      ((streams answers).flatMap fun stream => select.want (Series.flushedRows log stream answers)) := by
  -- both sides select directory by directory
  have hdirs : wantedRows log.disk lay select
      = (log.disk.entries.map Prod.fst).flatMap fun key => select.want (lay key).flushedRows := by
    rw [List.flatMap_map]
    rfl
  have hstreams : ((streams answers).flatMap fun stream =>
        select.want (Series.flushedRows log stream answers))
      = ((streams answers).map (dirKey bucket)).flatMap fun key =>
          select.want (lay key).flushedRows := by
    rw [List.flatMap_map]
    refine List.flatMap_congr ?_
    intro stream _
    rw [h.flushedRows (hbucket.streamIn stream)]
    rfl
  rw [hdirs, hstreams]
  refine flatMap_perm_of_nil log.disk.nodup_keys ?_ ?_
  · refine (List.nodup_dedup _).map ?_
    intro a b hab
    exact congrArg DirKey.partition hab
  · intro key hne
    have hflushed : (lay key).flushedRows ≠ [] := by
      rintro hnil
      rw [hnil] at hne
      exact hne rfl
    constructor
    · -- its rows are those of a record of the bucket
      intro _
      have hrows : dirRows key answers ≠ [] := fun hnil => hflushed (h.flushedRows_nil hnil)
      rw [dirRows, ne_eq, List.map_eq_nil_iff, List.filter_eq_nil_iff] at hrows
      push Not at hrows
      obtain ⟨did, hdid, hkey⟩ := hrows
      obtain rfl := of_decide_eq_true hkey
      rw [hbucket did hdid]
      exact List.mem_map_of_mem (List.mem_dedup.mpr (List.mem_map_of_mem hdid))
    · intro _
      -- a directory with flushed rows is on the disk
      cases hget : log.disk.get key with
      | none =>
        rw [Layout.flushedRows, h.inv.diskHolds.volumes_nil hget] at hflushed
        exact absurd rfl hflushed
      | some dir =>
        exact List.mem_map_of_mem (f := Prod.fst)
          ((SortedMap.get_eq_some_iff log.disk key dir).mp hget)

end

/-- What is appended has its time in the bucket. -/
def LogOp.StaysIn (v : Vendor) (bucket : Nat) (log : Log) : LogOp → Prop
  | .append clock _ body => ∀ stream, log.partitionFor v body = .ok stream →
      log.config.bucketOf (log.now stream clock.toNat) = .ok bucket
  | _ => True

instance LogOp.StaysIn.decidable (v : Vendor) (bucket : Nat) (log : Log) :
    (op : LogOp) → Decidable (op.StaysIn v bucket log)
  | .append clock _ body => inferInstanceAs (Decidable (∀ stream,
      log.partitionFor v body = .ok stream →
        log.config.bucketOf (log.now stream clock.toNat) = .ok bucket))
  | .flush | .sealParts | .retainBefore _ | .reopen _ | .read _ _ _ => .isTrue trivial

/-- What every answer but an append's leaves of the records was there before. -/
theorem mem_noteKept {before : List Log.Appended} {answer : LogAnswer} {did : Log.Appended}
    (h : did ∈ noteKept before answer) : did ∈ before ∨ answer = .appended did := by
  cases answer with
  | appended done =>
    rcases List.mem_append.mp h with h | h
    · exact Or.inl h
    · obtain rfl := List.mem_singleton.mp h
      exact Or.inr rfl
  | dropped buckets => exact Or.inl (List.mem_filter.mp h).1
  | done => exact Or.inl h
  | rows rows => exact Or.inl h

/-- What is appended comes from an append. -/
theorem step_appended {log log' : Log} {op : LogOp} {did : Log.Appended}
    (hok : log.step v op = .ok (.appended did, log')) :
    ∃ clock created body, op = .append clock created body ∧
      log.append v clock.toNat created.toNat body = .ok (did, log') := by
  cases op with
  | append clock created body =>
    obtain ⟨⟨done, next⟩, happend, hok⟩ := bind_eq_ok.mp hok
    obtain ⟨hdid, rfl⟩ := Prod.mk.inj (Except.ok.inj hok)
    obtain rfl := LogAnswer.appended.inj hdid
    exact ⟨clock, created, body, rfl, happend⟩
  | flush =>
    obtain ⟨next, -, hok⟩ := bind_eq_ok.mp hok
    cases hok
  | sealParts =>
    obtain ⟨next, -, hok⟩ := bind_eq_ok.mp hok
    cases hok
  | retainBefore ts =>
    obtain ⟨⟨buckets, next⟩, -, hok⟩ := bind_eq_ok.mp hok
    cases hok
  | reopen clock =>
    obtain ⟨next, -, hok⟩ := bind_eq_ok.mp hok
    cases hok
  | read which query limit =>
    obtain ⟨⟨rows, next⟩, -, hok⟩ := bind_eq_ok.mp hok
    cases hok

/-- **The directories of a run** hold what retention has left of it, as long as promoted
strings find room. -/
theorem runInv_run (lawful : v.Lawful) {config : Config} {past : List (LogOp × LogAnswer)}
    {log : Log}
    (run : Trace (Log.step v) (fun _ log op => op.Roomy v log) (Log.fresh config) past log) :
    ∃ lay, RunInv v (past.map Prod.snd) log lay := by
  refine run.invariant (fun past log => ∃ lay, RunInv v (past.map Prod.snd) log lay)
    ⟨_, runInv_fresh config⟩ ?_
  rintro past log op answer log' ⟨lay, h⟩ hroomy hok
  rw [List.map_append]
  exact (h.step lawful hroomy hok).1

/-- A run whose appends have their times in one bucket leaves its records there. -/
theorem inBucket_run {config : Config} {bucket : Nat} {past : List (LogOp × LogAnswer)}
    {log : Log}
    (run : Trace (Log.step v) (fun _ log op => op.StaysIn v bucket log) (Log.fresh config) past log) :
    InBucket bucket (past.map Prod.snd) := by
  refine run.invariant (fun past _ => InBucket bucket (past.map Prod.snd)) nofun ?_
  intro past log op answer log' hbucket hstays hok did hdid
  rw [List.map_append, List.map_singleton, kept_snoc] at hdid
  rcases mem_noteKept hdid with hold | rfl
  · exact hbucket did hold
  · obtain ⟨clock, created, body, rfl, happend⟩ := step_appended hok
    obtain ⟨hpart, hlands⟩ := append_lands happend
    exact Except.ok.inj (hlands.symm.trans (hstays did.partition hpart))

/-- **Reads are exact** in every run whose records stay in one bucket: a stream's read is
the first of its flushed rows that are wanted, and a read of all of them is their union,
by time and offset. -/
theorem reads_exact (lawful : v.Lawful) {config : Config} {bucket : Nat}
    {past : List (LogOp × LogAnswer)} {log : Log}
    (run : Trace (Log.step v) (fun _ log op => op.StaysIn v bucket log ∧ op.Roomy v log)
      (Log.fresh config) past log) :
    (∀ stream query limit, ∃ log', log.read v (.stream stream) query limit
      = .ok ((query.select.want (flushedRows log stream (past.map Prod.snd))).take limit, log')) ∧
    ∀ query limit,
      ((streams (past.map Prod.snd)).flatMap fun stream =>
        query.select.want (flushedRows log stream (past.map Prod.snd))).length ≤ limit →
      ∃ rows log', log.read v .everyStream query limit = .ok (rows, log') ∧
        rows.Perm ((streams (past.map Prod.snd)).flatMap fun stream =>
          query.select.want (flushedRows log stream (past.map Prod.snd))) ∧
        rows.Pairwise Row.le := by
  obtain ⟨lay, h⟩ := runInv_run lawful (run.mono fun _ _ _ hmeets => hmeets.2)
  have hbucket := inBucket_run (run.mono fun _ _ _ hmeets => hmeets.1)
  refine ⟨fun stream query limit => h.readStream (hbucket.streamIn stream) query limit, ?_⟩
  intro query limit hlimit
  have hperm := h.wanted_perm hbucket query.select
  rw [← hperm.length_eq] at hlimit
  obtain ⟨rows, cache', hread, -, hrows, hsorted⟩ :=
    readEvery_ok h.inv.diskHolds h.inv.held log.config.dict query hlimit
  refine ⟨rows, { log with cache := cache' }, ?_, hrows.trans hperm, hsorted⟩
  show (readStreams v _ _ _ _ query limit >>= _) = _
  rw [hread]
  rfl

/-- Buckets of a second, parts of a block or two, and a code for every string that is
longer than one; streams by the second field. -/
def wordsConfig : Config := ⟨.ns, 1, 40, 120, 1, .raw, some ⟨[(0, 1)], 2⟩, some 2⟩

def wordsOf (host : UInt64) (text : String) : Body := ⟨[(1, .str text), (2, .u64 host)]⟩

def wordsAt (clock host : UInt64) (text : String) : LogOp := .append clock 0 (wordsOf host text)

/-- Two streams with equal timestamps; the clock steps back; parts fill up, are sealed and
adopted, and the words have codes of earlier blocks by then. -/
def wordsOps : List LogOp :=
  [wordsAt 5 1 "granite", wordsAt 5 2 "granite", wordsAt 9 1 "marble", wordsAt 3 1 "granite",
    .flush, wordsAt 12 2 "basalt", wordsAt 12 1 "basalt", wordsAt 13 1 "obsidian", .sealParts,
    wordsAt 14 1 "marble", .reopen fun _ => 0, wordsAt 15 1 "basalt", .flush]

/-- Three rows of one stream, across parts and from the middle on. -/
theorem reads_exact_words : ∃ past log log',
    runGuarded (Log.step plainVendor)
      (fun _ log op => op.StaysIn plainVendor 0 log ∧ op.Roomy plainVendor log)
      (Log.fresh wordsConfig) wordsOps = some (past, log) ∧
      log.read plainVendor (.stream (some "1")) (.offset 2) 3
        = .ok ([(9, 2, wordsOf 1 "granite"), (12, 3, wordsOf 1 "basalt"),
          (13, 4, wordsOf 1 "obsidian")], log') := by
  have hrows : (runGuarded (Log.step plainVendor)
      (fun _ log op => op.StaysIn plainVendor 0 log ∧ op.Roomy plainVendor log)
      (Log.fresh wordsConfig) wordsOps).map (fun run =>
        ((Select.offset 2).want (flushedRows run.2 (some "1") (run.1.map Prod.snd))).take 3)
      = some [(9, 2, wordsOf 1 "granite"), (12, 3, wordsOf 1 "basalt"),
        (13, 4, wordsOf 1 "obsidian")] := by decide +kernel
  obtain ⟨⟨past, log⟩, hrun, hwant⟩ := Option.map_eq_some_iff.mp hrows
  obtain ⟨log', hread⟩ :=
    (reads_exact plainVendor_lawful (Trace.runGuarded hrun)).1 (some "1") (.offset 2) 3
  refine ⟨past, log, log', hrun, ?_⟩
  rw [← hwant]
  exact hread

end Okm.Series
