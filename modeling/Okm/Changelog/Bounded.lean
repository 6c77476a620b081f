import Okm.Changelog.Fidelity

/-!
# The retry buffer

Whatever the file system does, a record that has joined the buffer ends in one of three
ways: it is written to a file, it is dropped by the cap and counted, or it is still in the
buffer (`Accounted`). What a failure can break is the rest. The cap is applied where a
write fails, and nowhere else; once a rename or the creation of the next segment has
failed there is no handle to write to, so no write is tried, the cap is not applied and
the buffer grows with every commit (`closed_run`). While the handle is open when a call
comes, the buffer stays under the cap, and as soon as the file system works again what is
committed reaches a sealed file.
-/

namespace Okm.Changelog

open Lib Model Wire

/-! ## The condition -/

/-- A call that finds the segment handle open, its share short enough for a record. -/
structure OpenCall (header : Bytes) (log : Writer) (call : Call × Weather) : Prop where
  handle : log.handle = true
  short : ∀ f ∈ call.1.share header, f.encode.length < 2 ^ 32

/-- A short share is staged. -/
theorem Call.frame_of_share {header : Bytes} {call : Call}
    (short : ∀ f ∈ call.share header, f.encode.length < 2 ^ 32) :
    call.frame header = call.share header := by
  cases hops : call.accepted with
  | none => rw [Call.frame, Call.share, hops, Option.bind_none, Option.bind_none]
  | some ops =>
    rw [Call.share, hops, Option.bind_some] at short
    rw [Call.frame, Call.share, hops, Option.bind_some, Option.bind_some, staged]
    by_cases hnil : Changelog.share header ops = []
    · rw [if_pos hnil, if_pos hnil]
    · rw [if_neg hnil, if_neg hnil]
      rw [if_neg hnil] at short
      rw [if_pos (short _ rfl)]

/-! ## Where a record went -/

/-- Some file of the directory holds the record. -/
def Writer.OnDisk (log : Writer) (f : OpFrame) : Prop :=
  (∃ bytes ∈ log.content, record f <:+: bytes) ∨
    ∃ file ∈ log.files.entries, record f <:+: file.2

/-- Every record is written, dropped and counted, or waiting. -/
structure Accounted (log : Writer) (past landed gone waiting : List OpFrame) : Prop where
  pending : log.pending = records waiting
  dropped : log.dropped = gone.length
  whole : ∀ f ∈ waiting, Whole f
  onDisk : ∀ f ∈ landed, log.OnDisk f
  all : (landed ++ gone ++ waiting).Perm past
  names : ∀ file ∈ log.files.entries, ∃ m < log.segment, file.1 = stem m
  held : log.handle = true → log.content.isSome = true

/-- A file that only grows keeps its records. -/
theorem onDisk_append (log log' : Writer) (more : Bytes) (hfiles : log'.files = log.files)
    (hcontent : log'.content = log.content.map (· ++ more)) {f : OpFrame} (h : log.OnDisk f) :
    log'.OnDisk f := by
  rcases h with ⟨bytes, hbytes, hin⟩ | ⟨file, hfile, hin⟩
  · refine Or.inl ⟨bytes ++ more, ?_, hin.trans (List.prefix_append bytes more).isInfix⟩
    rw [hcontent, Option.mem_def.mp hbytes]
    rfl
  · exact Or.inr ⟨file, hfiles ▸ hfile, hin⟩

/-- A record of the buffer is a stretch of it. -/
theorem infix_records {frames : List OpFrame} {f : OpFrame} (h : f ∈ frames) :
    record f <:+: records frames := by
  obtain ⟨before, after, rfl⟩ := List.append_of_mem h
  refine ⟨records before, records after, ?_⟩
  rw [records_append, List.append_assoc]
  rfl

/-! ## Accounting -/

theorem framesOfRun_cons (header : Bytes) (c : Call × Weather) (calls : List (Call × Weather)) :
    framesOfRun header (c :: calls) = (c.1.frame header).toList ++ framesOfRun header calls := by
  cases hframe : c.1.frame header with
  | none => simp only [framesOfRun, List.filterMap_cons, hframe, Option.toList_none, List.nil_append]
  | some f =>
    simp only [framesOfRun, List.filterMap_cons, hframe, Option.toList_some,
      List.singleton_append]

namespace Accounted

variable {log log' : Writer} {past landed gone waiting : List OpFrame} {cfg : Config}
  {weather : Weather}

/-- Only the handle's own state and the record of a failure changed. -/
theorem congr (h : Accounted log past landed gone waiting) (hpending : log'.pending = log.pending)
    (hdropped : log'.dropped = log.dropped) (hcontent : log'.content = log.content)
    (hfiles : log'.files = log.files) (hsegment : log'.segment = log.segment)
    (hheld : log'.handle = true → log.handle = true) :
    Accounted log' past landed gone waiting where
  pending := hpending.trans h.pending
  dropped := hdropped.trans h.dropped
  whole := h.whole
  onDisk f hf := by
    have hdisk := h.onDisk f hf
    unfold Writer.OnDisk at hdisk ⊢
    rwa [hcontent, hfiles]
  all := h.all
  names := by rw [hfiles, hsegment]; exact h.names
  held hh := by rw [hcontent]; exact h.held (hheld hh)

/-- The buffer has been written to the file. -/
theorem land (h : Accounted log past landed gone waiting) (hhandle : log.handle = true) :
    Accounted log.land past (landed ++ waiting) gone [] where
  pending := rfl
  dropped := h.dropped
  whole f hf := by cases hf
  onDisk f hf := by
    rcases List.mem_append.mp hf with hf | hf
    · exact onDisk_append log log.land log.pending rfl rfl (h.onDisk f hf)
    · obtain ⟨bytes, hbytes⟩ := Option.isSome_iff_exists.mp (h.held hhandle)
      refine Or.inl ⟨bytes ++ log.pending, ?_, ?_⟩
      · change log.content.map (· ++ log.pending) = _
        rw [hbytes, Option.map_some]
      · rw [h.pending]
        exact (infix_records hf).trans (List.suffix_append bytes _).isInfix
  all := by
    rw [List.append_nil, List.append_assoc]
    refine List.Perm.trans ?_ h.all
    rw [List.append_assoc]
    exact List.perm_append_comm.append_left landed
  names := h.names
  held hh := by
    change (log.content.map _).isSome = true
    rw [Option.isSome_map]
    exact h.held hh

/-- **A flush loses count of nothing**: what it does not write it drops and counts, or
keeps. -/
theorem flush (h : Accounted log past landed gone waiting) {answer : Except Error Unit}
    (hflush : Flush cfg weather log answer log') :
    ∃ landed' more waiting', Accounted log' past landed' (gone ++ more) waiting' := by
  cases hflush with
  | idle hpending => exact ⟨landed, [], waiting, by rwa [List.append_nil]⟩
  | closed hpending hhandle =>
    refine ⟨landed, [], waiting, ?_⟩
    rw [List.append_nil]
    exact h.congr rfl rfl rfl rfl rfl id
  | failed hpending hhandle hwrite =>
    rename_i what n text
    obtain ⟨first, kept, rfl, htrim, -⟩ := trimToCap_records cfg h.whole
    have hpend := h.pending
    refine ⟨landed, first, kept, ?_, ?_, ?_, ?_, ?_, h.names, ?_⟩
    · change (trimToCap cfg log.pending).2 = _
      rw [hpend, htrim]
    · change log.dropped + (trimToCap cfg log.pending).1 = _
      rw [hpend, htrim, h.dropped, List.length_append]
    · exact fun f hf => h.whole f (List.mem_append_right _ hf)
    · exact fun f hf => onDisk_append log (log.failWrite cfg n what) (log.pending.take n) rfl rfl (h.onDisk f hf)
    · have hall := h.all
      simp only [← List.append_assoc] at hall ⊢
      exact hall
    · intro hh
      change (log.content.map _).isSome = true
      rw [Option.isSome_map]
      exact h.held hh
  | landed hpending hhandle hwrite =>
    refine ⟨landed ++ waiting, [], [], ?_⟩
    rw [List.append_nil]
    exact h.land hhandle
  | unsynced hpending hhandle hwrite =>
    refine ⟨landed ++ waiting, [], [], ?_⟩
    rw [List.append_nil]
    exact (h.land hhandle).congr rfl rfl rfl rfl rfl id

theorem close (h : Accounted log past landed gone waiting) :
    Accounted log.close past landed gone waiting :=
  h.congr rfl rfl rfl rfl rfl fun hh => by cases hh

/-- The open file takes its sealed name; no sealed file had it. -/
theorem shut_file (h : Accounted log past landed gone waiting) (hclosed : log.handle = false)
    {bytes : Bytes} (hcontent : log.content = some bytes) :
    Accounted (log.shut bytes) past landed gone waiting where
  pending := h.pending
  dropped := h.dropped
  whole := h.whole
  onDisk f hf := by
    have hnew : (log.shut bytes).files.get (stem log.segment) = some bytes :=
      SortedMap.get_insert_self log.files _ _
    rcases h.onDisk f hf with ⟨old, hold, hin⟩ | ⟨file, hfile, hin⟩
    · obtain rfl := Option.some.inj (hcontent.symm.trans hold)
      exact Or.inr ⟨_, (SortedMap.get_eq_some_iff _ _ _).mp hnew, hin⟩
    · obtain ⟨m, hm, hname⟩ := h.names file hfile
      have hne : file.1 ≠ stem log.segment := by
        intro heq
        have hseg := stem_injective (hname.symm.trans heq)
        omega
      have hget : (log.shut bytes).files.get file.1 = some file.2 :=
        (SortedMap.get_insert_of_ne log.files bytes hne).trans
          ((SortedMap.get_eq_some_iff _ _ _).mpr hfile)
      exact Or.inr ⟨file, (SortedMap.get_eq_some_iff _ _ _).mp hget, hin⟩
  all := h.all
  names file hfile := by
    have hget := (SortedMap.get_eq_some_iff _ _ _).mpr hfile
    change (log.files.insert (stem log.segment) bytes).get file.1 = some file.2 at hget
    by_cases hname : file.1 = stem log.segment
    · exact ⟨log.segment, Nat.lt_succ_self _, hname⟩
    · rw [SortedMap.get_insert_of_ne log.files bytes hname] at hget
      obtain ⟨m, hm, hm'⟩ := h.names file ((SortedMap.get_eq_some_iff _ _ _).mp hget)
      exact ⟨m, Nat.lt_succ_of_lt hm, hm'⟩
  held hh := by
    change log.handle = true at hh
    rw [hclosed] at hh
    cases hh

theorem reopen (h : Accounted log past landed gone waiting) (hcontent : log.content = none) :
    Accounted log.reopen past landed gone waiting where
  pending := h.pending
  dropped := h.dropped
  whole := h.whole
  onDisk f hf := by
    rcases h.onDisk f hf with ⟨bytes, hbytes, -⟩ | hfile
    · rw [hcontent] at hbytes
      cases hbytes
    · exact Or.inr hfile
  all := h.all
  names := h.names
  held _ := rfl

theorem sealing (h : Accounted log past landed gone waiting) {answer : Except Error Unit}
    (hseal : Sealing cfg weather log answer log') :
    ∃ landed' more waiting', Accounted log' past landed' (gone ++ more) waiting' := by
  cases hseal with
  | unwritten hflush => exact h.flush hflush
  | unnamed hflush _ =>
    obtain ⟨landed', more, waiting', h'⟩ := h.flush hflush
    exact ⟨landed', more, waiting', h'.close⟩
  | unopened hflush hcontent _ =>
    obtain ⟨landed', more, waiting', h'⟩ := h.flush hflush
    exact ⟨landed', more, waiting', h'.close.shut_file rfl hcontent⟩
  | done hflush hcontent =>
    obtain ⟨landed', more, waiting', h'⟩ := h.flush hflush
    exact ⟨landed', more, waiting', (h'.close.shut_file rfl hcontent).reopen rfl⟩

theorem settle (h : Accounted log past landed gone waiting) :
    ∃ landed' more waiting',
      Accounted (log.settle cfg weather).2 past landed' (gone ++ more) waiting' := by
  have hrotate : ∀ {log : Writer} {landed gone waiting : List OpFrame},
      Accounted log past landed gone waiting → ∃ landed' more waiting',
        Accounted (log.maybeRotate cfg weather).2 past landed' (gone ++ more) waiting' := by
    intro log landed gone waiting h
    unfold Writer.maybeRotate
    split
    · exact h.sealing (sealing_sealNow cfg weather log)
    · exact ⟨landed, [], waiting, by rwa [List.append_nil]⟩
  unfold Writer.settle
  split
  · have hflush := flush_writePending cfg weather log
    generalize log.writePending cfg weather = answer at hflush ⊢
    obtain ⟨verdict, log'⟩ := answer
    obtain ⟨landed', more, waiting', h'⟩ := h.flush hflush
    cases verdict with
    | error e => exact ⟨landed', more, waiting', h'⟩
    | ok _ =>
      obtain ⟨landed'', more', waiting'', h''⟩ := hrotate h'
      exact ⟨landed'', more ++ more', waiting'', by rwa [← List.append_assoc]⟩
  · exact hrotate h

/-- A record joins the buffer. -/
theorem joined (header : Bytes) (call : Call) (h : Accounted log past landed gone waiting) :
    Accounted (log.joined header call) (past ++ (call.frame header).toList) landed gone
      (waiting ++ (call.frame header).toList) where
  pending := by
    rw [records_append, ← h.pending]
    rfl
  dropped := h.dropped
  whole f hf := by
    rcases List.mem_append.mp hf with hf | hf
    · exact h.whole f hf
    · exact call.frame_whole header f (Option.mem_toList.mp hf)
  onDisk := h.onDisk
  all := by
    rw [← List.append_assoc]
    exact h.all.append_right _
  names := h.names
  held := h.held

theorem committed {header : Bytes} {call : Call} {ops : List (Op Bytes Bytes)}
    (h : Accounted log past landed gone waiting) (hops : call.accepted = some ops) :
    ∃ landed' more waiting', Accounted ((log.stageBatch header ops).commitStaged cfg weather).2
      (past ++ (call.frame header).toList) landed' (gone ++ more) waiting' := by
  have hjoined := h.joined header call
  rw [commitStaged_eq cfg header weather log hops]
  split
  · exact ⟨landed, [], _, by rwa [List.append_nil]⟩
  · exact hjoined.settle

/-- **No call loses count of a record.** -/
theorem call (cfg : Config) (header : Bytes) (c : Call × Weather)
    (h : Accounted log past landed gone waiting) :
    ∃ landed' more waiting', Accounted (log.call cfg header c.2 c.1).2
      (past ++ (c.1.frame header).toList) landed' (gone ++ more) waiting' := by
  obtain ⟨call, weather⟩ := c
  cases call with
  | commit ops verdict =>
    cases verdict with
    | ok _ => exact h.committed rfl
    | error e =>
      have hnone : (Call.commit ops (.error e)).frame header = none := rfl
      rw [hnone, Option.toList_none, List.append_nil]
      refine ⟨landed, [], waiting, ?_⟩
      rw [List.append_nil]
      exact h.congr rfl rfl rfl rfl rfl id
  | capture ops => exact h.committed rfl
  | sealNow =>
    have hnone : Call.sealNow.frame header = none := rfl
    rw [hnone, Option.toList_none, List.append_nil]
    exact h.sealing (sealing_sealNow cfg weather log)

/-- A run loses count of no record. -/
theorem run (cfg : Config) (header : Bytes) (calls : List (Call × Weather))
    (h : Accounted log past landed gone waiting) :
    ∃ landed' more waiting', Accounted (log.run cfg header calls)
      (past ++ framesOfRun header calls) landed' (gone ++ more) waiting' := by
  induction calls generalizing log past landed gone waiting with
  | nil =>
    refine ⟨landed, [], waiting, ?_⟩
    rw [List.append_nil]
    change Accounted log (past ++ []) landed gone waiting
    rwa [List.append_nil]
  | cons c calls ih =>
    obtain ⟨landed', more, waiting', h'⟩ := h.call cfg header c
    obtain ⟨landed'', more', waiting'', h''⟩ := ih h'
    refine ⟨landed'', more ++ more', waiting'', ?_⟩
    rw [← List.append_assoc, framesOfRun_cons, ← List.append_assoc]
    exact h''

end Accounted

theorem accounted_opened (segment : Nat) : Accounted (opened segment) [] [] [] [] where
  pending := rfl
  dropped := rfl
  whole f hf := by cases hf
  onDisk f hf := by cases hf
  all := .refl _
  names file hfile := by cases hfile
  held _ := rfl

/-! ## The cap -/

/-- The buffer is under the cap. -/
def Capped (cfg : Config) (log : Writer) : Prop := log.pending.length ≤ 8 * cfg.bufferBytes

theorem capped_of_nil {cfg : Config} {log : Writer} (h : log.pending = []) : Capped cfg log := by
  rw [Capped, h]
  exact Nat.zero_le _

/-- **A flush with an open handle ends under the cap**, whatever fails. -/
theorem Flush.capped {cfg : Config} {weather : Weather} {log log' : Writer}
    {answer : Except Error Unit} (h : Flush cfg weather log answer log')
    (hhandle : log.handle = true) {waiting : List OpFrame} (hpending : log.pending = records waiting)
    (hwhole : ∀ f ∈ waiting, Whole f) : Capped cfg log' := by
  cases h with
  | idle hnil => exact capped_of_nil hnil
  | closed _ hclosed =>
    rw [hhandle] at hclosed
    cases hclosed
  | failed _ _ _ =>
    obtain ⟨gone, kept, -, htrim, hle⟩ := trimToCap_records cfg hwhole
    change (trimToCap cfg log.pending).2.length ≤ _
    rw [hpending, htrim]
    exact hle
  | landed => exact capped_of_nil rfl
  | unsynced => exact capped_of_nil rfl

theorem Sealing.capped {cfg : Config} {weather : Weather} {log log' : Writer}
    {answer : Except Error Unit} (h : Sealing cfg weather log answer log')
    (hhandle : log.handle = true) {waiting : List OpFrame} (hpending : log.pending = records waiting)
    (hwhole : ∀ f ∈ waiting, Whole f) : Capped cfg log' := by
  cases h with
  | unwritten hflush => exact hflush.capped hhandle hpending hwhole
  | unnamed hflush _ => exact hflush.capped hhandle hpending hwhole
  | unopened hflush _ _ => exact hflush.capped hhandle hpending hwhole
  | done hflush _ => exact hflush.capped hhandle hpending hwhole

/-- A flush leaves the handle as it is. -/
theorem Flush.handle_eq {cfg : Config} {weather : Weather} {log log' : Writer}
    {answer : Except Error Unit} (h : Flush cfg weather log answer log') :
    log'.handle = log.handle := by
  cases h <;> rfl

/-- What is left in the buffer after a commit is under the cap, if the handle was open. -/
theorem capped_settle {cfg : Config} {weather : Weather} {log : Writer}
    (hhandle : log.handle = true) {waiting : List OpFrame} (hpending : log.pending = records waiting)
    (hwhole : ∀ f ∈ waiting, Whole f) : Capped cfg (log.settle cfg weather).2 := by
  unfold Writer.settle
  by_cases hdue : log.flushDue cfg = true
  · have hflush := flush_writePending cfg weather log
    rw [if_pos hdue]
    generalize log.writePending cfg weather = answer at hflush ⊢
    obtain ⟨verdict, log'⟩ := answer
    have hcapped := hflush.capped hhandle hpending hwhole
    cases verdict with
    | error e => exact hcapped
    | ok _ =>
      dsimp only at hflush hcapped ⊢
      unfold Writer.maybeRotate
      split
      · have hnil : log'.pending = records [] := hflush.pending_nil
        exact (sealing_sealNow cfg weather log').capped (hflush.handle_eq.trans hhandle) hnil
          fun f hf => by cases hf
      · exact hcapped
  · rw [if_neg hdue]
    unfold Writer.maybeRotate
    split
    · exact (sealing_sealNow cfg weather log).capped hhandle hpending hwhole
    · -- no flush was due, so the buffer is not even full
      unfold Writer.flushDue at hdue
      simp only [Bool.or_eq_true, decide_eq_true_eq, not_or, not_le] at hdue
      change log.pending.length ≤ 8 * cfg.bufferBytes
      omega

theorem capped_call {cfg : Config} {header : Bytes} {log : Writer} (c : Call × Weather)
    (hhandle : log.handle = true) {past landed gone waiting : List OpFrame}
    (h : Accounted log past landed gone waiting) (hcapped : Capped cfg log) :
    Capped cfg (log.call cfg header c.2 c.1).2 := by
  have hjoined := h.joined header c.1
  have hcommit : ∀ ops, c.1.accepted = some ops →
      Capped cfg ((log.stageBatch header ops).commitStaged cfg c.2).2 := by
    intro ops hops
    rw [commitStaged_eq cfg header c.2 log hops]
    split
    · rename_i hnil
      unfold Capped Writer.joined
      rwa [hnil, List.append_nil]
    · exact capped_settle hhandle hjoined.pending hjoined.whole
  obtain ⟨call, weather⟩ := c
  cases call with
  | commit ops verdict =>
    cases verdict with
    | ok _ => exact hcommit ops rfl
    | error e => exact hcapped
  | capture ops => exact hcommit ops rfl
  | sealNow => exact (sealing_sealNow cfg weather log).capped hhandle h.pending h.whole

/-! ## Fair weather -/

/-- Nothing fails. -/
structure Calm (weather : Weather) : Prop where
  write : weather.write = none
  sync : weather.sync = none
  rename : weather.rename = none
  create : weather.create = none

/-- The handle is open on a file that is there. -/
structure Ready (log : Writer) : Prop where
  handle : log.handle = true
  content : log.content.isSome = true

/-- A step that went well: it answered, the writer is ready, nothing was dropped. -/
structure Went (log log' : Writer) (answer : Except Error Unit) : Prop where
  ok : answer = .ok ()
  ready : Ready log'
  dropped : log'.dropped = log.dropped

theorem Flush.calm {cfg : Config} {weather : Weather} {log log' : Writer}
    {answer : Except Error Unit} (h : Flush cfg weather log answer log') (calm : Calm weather)
    (ready : Ready log) : Went log log' answer := by
  have hland : (log.content.map (· ++ log.pending)).isSome = true := by
    rw [Option.isSome_map]
    exact ready.content
  cases h with
  | idle => exact ⟨rfl, ready, rfl⟩
  | closed _ hclosed =>
    rw [ready.handle] at hclosed
    cases hclosed
  | failed _ _ hwrite =>
    rw [calm.write] at hwrite
    cases hwrite
  | landed => exact ⟨rfl, ⟨ready.handle, hland⟩, rfl⟩
  | unsynced _ _ _ hsync => exact absurd calm.sync hsync

/-- **A seal in fair weather** empties the buffer and the open file. -/
theorem Sealing.calm {cfg : Config} {weather : Weather} {log log' : Writer}
    {answer : Except Error Unit} (h : Sealing cfg weather log answer log') (calm : Calm weather)
    (ready : Ready log) :
    Went log log' answer ∧ log'.pending = [] ∧ log'.content = some [] := by
  cases h with
  | unwritten hflush => cases (hflush.calm calm ready).ok
  | unnamed hflush hwhy =>
    have hwent := hflush.calm calm ready
    rcases hwhy with hrename | hnone
    · exact absurd calm.rename hrename
    · have hsome := hwent.ready.content
      rw [hnone] at hsome
      cases hsome
  | unopened _ _ hcreate => exact absurd calm.create hcreate
  | done hflush hcontent =>
    have hwent := hflush.calm calm ready
    exact ⟨⟨rfl, ⟨rfl, rfl⟩, hwent.dropped⟩, hflush.pending_nil, rfl⟩

theorem calm_settle (cfg : Config) {weather : Weather} {log : Writer} (calm : Calm weather)
    (ready : Ready log) : Went log (log.settle cfg weather).2 (log.settle cfg weather).1 := by
  have hrotate : ∀ log : Writer, Ready log →
      Went log (log.maybeRotate cfg weather).2 (log.maybeRotate cfg weather).1 := by
    intro log ready
    unfold Writer.maybeRotate
    split
    · exact ((sealing_sealNow cfg weather log).calm calm ready).1
    · exact ⟨rfl, ready, rfl⟩
  unfold Writer.settle
  split
  · have hflush := flush_writePending cfg weather log
    generalize log.writePending cfg weather = answer at hflush ⊢
    obtain ⟨verdict, log'⟩ := answer
    have hwent := hflush.calm calm ready
    obtain rfl := hwent.ok
    obtain ⟨hok, hready, hdropped⟩ := hrotate log' hwent.ready
    exact ⟨hok, hready, hdropped.trans hwent.dropped⟩
  · exact hrotate log ready

/-- A call in fair weather goes well. -/
theorem calm_call (cfg : Config) (header : Bytes) {log : Writer} (c : Call × Weather)
    (calm : Calm c.2) (ready : Ready log) :
    Went log (log.call cfg header c.2 c.1).2 (log.call cfg header c.2 c.1).1 := by
  have hcommit : ∀ ops, c.1.accepted = some ops →
      Went log ((log.stageBatch header ops).commitStaged cfg c.2).2
        ((log.stageBatch header ops).commitStaged cfg c.2).1 := by
    intro ops hops
    rw [commitStaged_eq cfg header c.2 log hops]
    have hready : Ready (log.joined header c.1) := ⟨ready.handle, ready.content⟩
    split
    · exact ⟨rfl, hready, rfl⟩
    · obtain ⟨hok, hready', hdropped⟩ := calm_settle cfg calm hready
      exact ⟨hok, hready', hdropped⟩
  obtain ⟨call, weather⟩ := c
  cases call with
  | commit ops verdict =>
    cases verdict with
    | ok _ => exact hcommit ops rfl
    | error e => exact ⟨rfl, ⟨ready.handle, ready.content⟩, rfl⟩
  | capture ops => exact hcommit ops rfl
  | sealNow => exact ((sealing_sealNow cfg weather log).calm calm ready).1

theorem calm_run (cfg : Config) (header : Bytes) {log : Writer} {calls : List (Call × Weather)}
    (calm : ∀ c ∈ calls, Calm c.2) (ready : Ready log) :
    Ready (log.run cfg header calls) ∧ (log.run cfg header calls).dropped = log.dropped := by
  induction calls generalizing log with
  | nil => exact ⟨ready, rfl⟩
  | cons c calls ih =>
    have hwent := calm_call cfg header c (calm c List.mem_cons_self) ready
    obtain ⟨hready, hdropped⟩ := ih (fun c hc => calm c (List.mem_cons_of_mem _ hc)) hwent.ready
    exact ⟨hready, hdropped.trans hwent.dropped⟩

/-- **Once the file system works again**, what is committed is sealed with the next seal,
and nothing more is dropped. -/
theorem sealed_after {cfg : Config} {header : Bytes} {log : Writer}
    {past landed gone waiting : List OpFrame} (h : Accounted log past landed gone waiting)
    (hhandle : log.handle = true) {later : List (Call × Weather)} (calm : ∀ c ∈ later, Calm c.2)
    {weather : Weather} (fair : Calm weather) :
    ((log.run cfg header later).sealNow cfg weather).1 = .ok () ∧
    ((log.run cfg header later).sealNow cfg weather).2.pending = [] ∧
    ((log.run cfg header later).sealNow cfg weather).2.dropped = log.dropped ∧
    ∀ f ∈ framesOfRun header later,
      ∃ file ∈ ((log.run cfg header later).sealNow cfg weather).2.files.entries,
        record f <:+: file.2 := by
  obtain ⟨hready, hdropped⟩ := calm_run cfg header calm
    ⟨hhandle, h.held hhandle⟩
  obtain ⟨landed₁, more₁, waiting₁, hrun⟩ := h.run cfg header later
  have hseal := sealing_sealNow cfg weather (log.run cfg header later)
  obtain ⟨hwent, hpending, hcontent⟩ := hseal.calm fair hready
  obtain ⟨landed₂, more₂, waiting₂, hlast⟩ := hrun.sealing hseal
  refine ⟨hwent.ok, hpending, hwent.dropped.trans hdropped, fun f hf => ?_⟩
  -- nothing was dropped since, and nothing waits
  have hcount := hlast.dropped
  rw [hwent.dropped, hdropped, h.dropped, List.length_append, List.length_append] at hcount
  have hmore₁ : more₁ = [] := List.length_eq_zero_iff.mp (by omega)
  have hmore₂ : more₂ = [] := List.length_eq_zero_iff.mp (by omega)
  have hnone : waiting₂ = [] := by
    have hle : waiting₂.length ≤ (records waiting₂).length :=
      length_le_flatMap fun f _ => record_ne_nil f
    rw [hlast.pending.symm.trans hpending, List.length_nil] at hle
    exact List.length_eq_zero_iff.mp (Nat.le_zero.mp hle)
  have hall := hlast.all
  rw [hmore₁, hmore₂, hnone, List.append_nil, List.append_nil, List.append_nil] at hall
  have hperm : (landed₂ ++ gone).Perm ((landed ++ waiting ++ framesOfRun header later) ++ gone) := by
    refine hall.trans ((h.all.symm.append_right _).trans ?_)
    simp only [List.append_assoc]
    refine List.Perm.append_left landed ?_
    exact List.perm_append_comm.trans (by rw [List.append_assoc])
  have hlanded : f ∈ landed₂ := by
    have hcancel := (List.perm_append_right_iff gone).mp hperm
    exact hcancel.mem_iff.mpr (List.mem_append_right _ hf)
  rcases hlast.onDisk f hlanded with ⟨bytes, hbytes, hin⟩ | hfile
  · obtain rfl := Option.some.inj (hcontent.symm.trans hbytes)
    exact absurd (List.infix_nil.mp hin) (record_ne_nil f)
  · exact hfile

/-! ## A closed handle -/

/-- A call that finds the handle closed and records waiting only adds to the buffer. -/
theorem closed_call (cfg : Config) (header : Bytes) {log : Writer} (c : Call × Weather)
    (hclosed : log.handle = false) (hwaiting : log.pending ≠ []) :
    (log.call cfg header c.2 c.1).2.handle = false ∧
    (log.call cfg header c.2 c.1).2.pending = log.pending ++ c.1.bytes header ∧
    (log.call cfg header c.2 c.1).2.content = log.content ∧
    (log.call cfg header c.2 c.1).2.files = log.files := by
  -- without a handle every write and every seal is refused
  have hflush : ∀ log : Writer, log.handle = false → log.pending ≠ [] →
      ∃ e what, log.writePending cfg c.2 = (.error e, log.note what) := by
    intro log hclosed hwaiting
    unfold Writer.writePending
    rw [if_neg hwaiting, if_neg (by rw [hclosed]; decide)]
    exact ⟨_, _, rfl⟩
  have hseal : ∀ log : Writer, log.handle = false → log.pending ≠ [] →
      ∃ e what, log.sealNow cfg c.2 = (.error e, log.note what) := by
    intro log hclosed hwaiting
    obtain ⟨e, what, hwrite⟩ := hflush log hclosed hwaiting
    unfold Writer.sealNow
    rw [hwrite]
    exact ⟨e, what, rfl⟩
  -- so a commit only adds to what waits
  have hcommit : ∀ ops, c.1.accepted = some ops →
      ∃ answer what, (log.stageBatch header ops).commitStaged cfg c.2
        = (answer, { log.joined header c.1 with lastError := what }) := by
    intro ops hops
    rw [commitStaged_eq cfg header c.2 log hops]
    split
    · exact ⟨_, _, rfl⟩
    · have hmore : (log.joined header c.1).pending ≠ [] := by
        intro hnil
        exact hwaiting (List.append_eq_nil_iff.mp hnil).1
      unfold Writer.settle
      split
      · obtain ⟨e, what, hwrite⟩ := hflush (log.joined header c.1) hclosed hmore
        rw [hwrite]
        exact ⟨_, _, rfl⟩
      · unfold Writer.maybeRotate
        split
        · obtain ⟨e, what, hsealed⟩ := hseal (log.joined header c.1) hclosed hmore
          rw [hsealed]
          exact ⟨_, _, rfl⟩
        · exact ⟨_, _, rfl⟩
  have hno : ∀ call : Call, call.accepted = none → call.bytes header = [] := by
    intro call hnone
    rw [Call.bytes, Call.frame, hnone]
    rfl
  obtain ⟨call, weather⟩ := c
  cases call with
  | commit ops verdict =>
    cases verdict with
    | ok _ =>
      obtain ⟨answer, what, hcall⟩ := hcommit ops rfl
      have heq : log.call cfg header weather (.commit ops (.ok ())) = _ := hcall
      rw [heq]
      exact ⟨hclosed, rfl, rfl, rfl⟩
    | error e =>
      rw [hno (.commit ops (.error e)) rfl, List.append_nil]
      exact ⟨hclosed, rfl, rfl, rfl⟩
  | capture ops =>
    obtain ⟨answer, what, hcall⟩ := hcommit ops rfl
    have heq : log.call cfg header weather (.capture ops) = _ := hcall
    rw [heq]
    exact ⟨hclosed, rfl, rfl, rfl⟩
  | sealNow =>
    obtain ⟨e, what, hsealed⟩ := hseal log hclosed hwaiting
    have heq : log.call cfg header weather .sealNow = _ := hsealed
    rw [heq, hno .sealNow rfl, List.append_nil]
    exact ⟨hclosed, rfl, rfl, rfl⟩

/-- **A closed handle stays closed**: whatever the weather, the buffer takes in every
record and nothing reaches a file again. -/
theorem closed_run {cfg : Config} {header : Bytes} {log : Writer} (calls : List (Call × Weather))
    (hclosed : log.handle = false) (hwaiting : log.pending ≠ []) :
    (log.run cfg header calls).pending = log.pending ++ records (framesOfRun header calls) ∧
    (log.run cfg header calls).content = log.content ∧
    (log.run cfg header calls).files = log.files := by
  induction calls generalizing log with
  | nil => exact ⟨(List.append_nil _).symm, rfl, rfl⟩
  | cons c calls ih =>
    obtain ⟨hstill, hpending, hcontent, hfiles⟩ :=
      closed_call cfg header c hclosed hwaiting
    have hmore : (log.call cfg header c.2 c.1).2.pending ≠ [] := by
      rw [hpending]
      exact fun hnil => hwaiting (List.append_eq_nil_iff.mp hnil).1
    obtain ⟨hpend, hcont, hfile⟩ := ih hstill hmore
    refine ⟨?_, hcont.trans hcontent, hfile.trans hfiles⟩
    change ((log.call cfg header c.2 c.1).2.run cfg header calls).pending = _
    rw [hpend, hpending, List.append_assoc, Call.bytes, ← records_append, ← framesOfRun_cons]

/-! ## The bound -/

theorem framesOfRun_eq_shares {header : Bytes} {calls : List (Call × Weather)}
    (short : ∀ c ∈ calls, ∀ f ∈ c.1.share header, f.encode.length < 2 ^ 32) :
    framesOfRun header calls = shares header calls :=
  List.filterMap_congr fun c hc => c.1.frame_of_share (short c hc)

/-- **The retry buffer is bounded**, in every run whose calls find the segment handle open:
it stays within eight times `buffer_bytes`; every record is in a file, dropped and counted
once, or in the buffer; and from any such state, whatever is committed once the file
system works again is in a sealed file after the next seal. -/
theorem retry_bounded (cfg : Config) (header : Bytes) (segment : Nat)
    {calls : List (Call × Weather)}
    (hopen : Along (fun log c => (log.call cfg header c.2 c.1).2) (OpenCall header)
      (opened segment) calls) :
    ((opened segment).run cfg header calls).pending.length ≤ 8 * cfg.bufferBytes ∧
    (∃ landed gone waiting : List OpFrame,
      ((opened segment).run cfg header calls).pending = records waiting ∧
      ((opened segment).run cfg header calls).dropped = gone.length ∧
      (landed ++ gone ++ waiting).Perm (shares header calls) ∧
      ∀ f ∈ landed, ((opened segment).run cfg header calls).OnDisk f) ∧
    (((opened segment).run cfg header calls).handle = true →
      ∀ later : List (Call × Weather), (∀ c ∈ later, Calm c.2) →
        (∀ c ∈ later, ∀ f ∈ c.1.share header, f.encode.length < 2 ^ 32) →
        ∀ weather, Calm weather →
          let after := (((opened segment).run cfg header calls).run cfg header later).sealNow
            cfg weather
          after.1 = .ok () ∧ after.2.pending = [] ∧
          after.2.dropped = ((opened segment).run cfg header calls).dropped ∧
          ∀ f ∈ shares header later, ∃ file ∈ after.2.files.entries, record f <:+: file.2) := by
  have hrun : (∃ landed gone waiting, Accounted ((opened segment).run cfg header calls)
        (shares header calls) landed gone waiting) ∧
      Capped cfg ((opened segment).run cfg header calls) := by
    refine hopen.invariant (fun past log => (∃ landed gone waiting,
      Accounted log (shares header past) landed gone waiting) ∧ Capped cfg log)
      ⟨⟨[], [], [], accounted_opened segment⟩, Nat.zero_le _⟩ fun past log c h hc => ?_
    obtain ⟨⟨landed, gone, waiting, h⟩, hcapped⟩ := h
    obtain ⟨landed', more, waiting', h'⟩ := h.call cfg header c
    refine ⟨⟨landed', gone ++ more, waiting', ?_⟩, capped_call c hc.handle h hcapped⟩
    rw [shares_concat, ← c.1.frame_of_share hc.short]
    exact h'
  obtain ⟨⟨landed, gone, waiting, h⟩, hcapped⟩ := hrun
  refine ⟨hcapped, ⟨landed, gone, waiting, h.pending, h.dropped, h.all, h.onDisk⟩, ?_⟩
  intro hhandle later calm short weather fair
  rw [← framesOfRun_eq_shares short]
  exact sealed_after h hhandle calm fair

/-! ## Two rows, and a rename that fails -/

theorem calm_default : Calm {} := ⟨rfl, rfl, rfl, rfl⟩

theorem retriedRows_open :
    Along (fun log c => (Writer.call rowsLog rowsHeader c.2 log c.1).2) (OpenCall rowsHeader)
      (opened 0) retriedRows :=
  ⟨⟨by decide +kernel, by decide +kernel⟩, ⟨by decide +kernel, by decide +kernel⟩,
    ⟨by decide +kernel, by decide +kernel⟩, trivial⟩

/-- After two failed writes a third row is sealed. -/
theorem retry_bounded_rows :
    ((opened 0).run rowsLog rowsHeader retriedRows).pending.length ≤ 8 * 2 ∧
    ∀ f ∈ shares rowsHeader [(rowCommit 3, {})],
      ∃ file ∈ ((((opened 0).run rowsLog rowsHeader retriedRows).run rowsLog rowsHeader
        [(rowCommit 3, {})]).sealNow rowsLog {}).2.files.entries, record f <:+: file.2 := by
  obtain ⟨hbound, -, hlater⟩ := retry_bounded rowsLog rowsHeader 0 retriedRows_open
  refine ⟨hbound, ?_⟩
  refine (hlater (by decide +kernel) [(rowCommit 3, {})] ?_ ?_ {} calm_default).2.2.2
  · intro c hc
    obtain rfl := List.mem_singleton.mp hc
    exact calm_default
  · intro c hc
    obtain rfl := List.mem_singleton.mp hc
    decide +kernel

/-- Segments of one row. -/
def tightLog : Config := ⟨"log", 10, 2, false⟩

/-- The first segment cannot be renamed; everything after that works. -/
def shutOutRows : List (Call × Weather) :=
  [(rowCommit 1, { rename := some "Input/output error (os error 5)" }), (rowCommit 2, {}),
    (rowCommit 3, {}), (rowCommit 4, {})]

/-- The buffer outgrows the cap and what the last call added, nothing is counted as
dropped, and no file is ever sealed. -/
theorem retry_unbounded :
    8 * tightLog.bufferBytes + ((rowCommit 4).bytes rowsHeader).length
      < ((opened 0).run tightLog rowsHeader shutOutRows).pending.length ∧
    ((opened 0).run tightLog rowsHeader shutOutRows).dropped = 0 ∧
    ((opened 0).run tightLog rowsHeader shutOutRows).files.entries = [] := by
  decide +kernel

end Okm.Changelog
