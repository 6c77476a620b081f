import Okm.Changelog.Writer
import Okm.Lib.Trace

/-!
# What the segments say

A reader takes the sealed segments in name order and expects the committed batches in
commit order: some may be missing, none twice, none torn, none that the engine refused.
`Faithful` is that expectation carried by the writer's three places: sealed files, open
file and buffer hold the records of some of the batches committed so far, in that order.

A write that fails leaves its first bytes in the file and keeps the whole buffer, so what
was written is written again. `CleanCut` is when that does no harm: nothing was written,
or only records the cap has thrown out of the buffer since. The other condition is on the
names, which sort as numbers as long as they have eight digits.
-/

namespace Okm.Changelog

open Lib Model Wire

/-! ## The condition -/

/-- The first `n` bytes of the buffer are whole records, none of which the buffer keeps. -/
def CleanCut (cfg : Config) (pending : Bytes) (n : Nat) : Prop :=
  ∃ j ≤ (trimToCap cfg pending).1, pending.take n = firstRecords j pending

/-- The writer as a call finds it once its record has joined the buffer. -/
def Writer.joined (header : Bytes) (call : Call) (log : Writer) : Writer :=
  { log with pending := log.pending ++ call.bytes header, staged := [] }

/-- Whether a call gets to write the buffer. -/
def Writer.writes (cfg : Config) (header : Bytes) (weather : Weather) (log : Writer) : Call → Bool
  | .sealNow => log.handle
  | call =>
    log.handle && call.bytes header != [] &&
      ((log.joined header call).flushDue cfg || (log.joined header call).rotateDue cfg weather)

/-- One call: the segment's number has at most eight digits, and the write, if it fails,
is cut cleanly. -/
structure CleanCall (cfg : Config) (header : Bytes) (log : Writer) (call : Call × Weather) :
    Prop where
  named : log.segment < 10 ^ 8
  cut : ∀ n text, call.2.write = some (n, text) → log.writes cfg header call.2 call.1 = true →
    CleanCut cfg (log.joined header call.1).pending n

/-! ## The invariant -/

/-- Sealed files, open file and buffer, as the records they hold. -/
structure Faithful (log : Writer) (past : List OpFrame) (shut : List (List OpFrame))
    (tail waiting : List OpFrame) : Prop where
  files : log.files.entries.map Prod.snd = shut.map records
  names : ∀ file ∈ log.files.entries, ∃ m < log.segment, file.1 = stem m
  content : ∀ bytes, log.content = some bytes → bytes = records tail
  missing : log.content = none → tail = []
  pending : log.pending = records waiting
  whole : ∀ f ∈ past, Whole f
  ordered : (shut.flatten ++ tail ++ waiting).Sublist past

/-- The writer holds some of the frames so far, in their order. -/
def Truthful (log : Writer) (past : List OpFrame) : Prop :=
  ∃ shut tail waiting, Faithful log past shut tail waiting

namespace Faithful

variable {log log' : Writer} {past : List OpFrame} {shut : List (List OpFrame)}
  {tail waiting : List OpFrame}

theorem whole_waiting (h : Faithful log past shut tail waiting) : ∀ f ∈ waiting, Whole f :=
  fun f hf => h.whole f (h.ordered.subset (List.mem_append_right _ hf))

theorem whole_tail (h : Faithful log past shut tail waiting) : ∀ f ∈ tail, Whole f :=
  fun f hf => h.whole f
    (h.ordered.subset (List.mem_append_left _ (List.mem_append_right _ hf)))

theorem whole_shut (h : Faithful log past shut tail waiting) : ∀ fs ∈ shut, ∀ f ∈ fs, Whole f :=
  fun fs hfs f hf => h.whole f (h.ordered.subset
    (List.mem_append_left _ (List.mem_append_left _ (List.mem_flatten.mpr ⟨fs, hfs, hf⟩))))

/-- Only files, names, file and buffer count. -/
theorem congr (h : Faithful log past shut tail waiting) (hfiles : log'.files = log.files)
    (hsegment : log'.segment = log.segment) (hcontent : log'.content = log.content)
    (hpending : log'.pending = log.pending) : Faithful log' past shut tail waiting where
  files := by rw [hfiles]; exact h.files
  names := by rw [hfiles, hsegment]; exact h.names
  content := by rw [hcontent]; exact h.content
  missing := by rw [hcontent]; exact h.missing
  pending := by rw [hpending]; exact h.pending
  whole := h.whole
  ordered := h.ordered

theorem close (h : Faithful log past shut tail waiting) :
    Faithful log.close past shut tail waiting := h.congr rfl rfl rfl rfl

/-! ## Writing -/

/-- Records that reached the file, where there is one, and what the buffer keeps. -/
theorem move (h : Faithful log past shut tail waiting) {put kept : List OpFrame}
    (hsub : (put ++ kept).Sublist waiting) (hfiles : log'.files = log.files)
    (hsegment : log'.segment = log.segment)
    (hcontent : log'.content = log.content.map (· ++ records put))
    (hpending : log'.pending = records kept) : Truthful log' past := by
  cases hold : log.content with
  | none =>
    rw [hold, Option.map_none] at hcontent
    refine ⟨shut, tail, kept, ?_, ?_, ?_, fun _ => h.missing hold, hpending, h.whole, ?_⟩
    · rw [hfiles]
      exact h.files
    · rw [hfiles, hsegment]
      exact h.names
    · intro bytes hbytes
      rw [hcontent] at hbytes
      cases hbytes
    · exact (List.Sublist.append_left ((List.sublist_append_right put kept).trans hsub) _).trans
        h.ordered
  | some bytes =>
    rw [hold, Option.map_some] at hcontent
    obtain rfl := h.content bytes hold
    refine ⟨shut, tail ++ put, kept, ?_, ?_, ?_, ?_, hpending, h.whole, ?_⟩
    · rw [hfiles]
      exact h.files
    · rw [hfiles, hsegment]
      exact h.names
    · intro bytes hbytes
      obtain rfl := Option.some.inj (hcontent.symm.trans hbytes)
      rw [records_append]
    · intro hnone
      rw [hcontent] at hnone
      cases hnone
    · rw [← List.append_assoc, List.append_assoc]
      exact (List.Sublist.append_left hsub _).trans h.ordered

/-- **A flush keeps the order**, when a failed write is cut cleanly. -/
theorem flush (h : Faithful log past shut tail waiting) {cfg : Config} {weather : Weather}
    {answer : Except Error Unit} (hflush : Flush cfg weather log answer log')
    (clean : ∀ n text, weather.write = some (n, text) → log.handle = true →
      CleanCut cfg log.pending n) :
    Truthful log' past ∧ log'.segment = log.segment := by
  cases hflush with
  | idle hpending => exact ⟨⟨shut, tail, waiting, h⟩, rfl⟩
  | closed hpending hhandle => exact ⟨⟨shut, tail, waiting, h.congr rfl rfl rfl rfl⟩, rfl⟩
  | failed hpending hhandle hwrite =>
    rename_i what n text
    obtain ⟨j, hj, hcut⟩ := clean n text hwrite hhandle
    obtain ⟨gone, kept, hsplit, htrim, -⟩ := trimToCap_records cfg h.whole_waiting
    rw [h.pending, htrim] at hj
    -- the records in the file are among those the cap has dropped
    have hput : waiting.take j = gone.take j := by
      rw [hsplit, List.take_append_of_le_length hj]
    have hsub : (waiting.take j ++ kept).Sublist waiting := by
      rw [hput, hsplit]
      exact (List.take_sublist j gone).append_right kept
    refine ⟨h.move hsub rfl rfl ?_ ?_, rfl⟩
    · change log.content.map (· ++ log.pending.take n) = _
      rw [hcut, h.pending, firstRecords_records h.whole_waiting]
    · change (trimToCap cfg log.pending).2 = _
      rw [h.pending, htrim]
  | landed hpending hhandle hwrite =>
    have hsub : (waiting ++ []).Sublist waiting := by rw [List.append_nil]
    refine ⟨h.move hsub rfl rfl ?_ rfl, rfl⟩
    rw [← h.pending]
    rfl
  | unsynced hpending hhandle hwrite =>
    have hsub : (waiting ++ []).Sublist waiting := by rw [List.append_nil]
    refine ⟨h.move hsub rfl rfl ?_ rfl, rfl⟩
    rw [← h.pending]
    rfl

/-! ## Sealing -/

/-- The sealed name of the open segment sorts behind those there are. -/
theorem entries_shut (h : Faithful log past shut tail waiting) (hnamed : log.segment < 10 ^ 8)
    (bytes : Bytes) :
    (log.shut bytes).files.entries = log.files.entries ++ [(stem log.segment, bytes)] := by
  refine SortedMap.entries_insert_last (fun file hfile => ?_) bytes
  obtain ⟨m, hm, hname⟩ := h.names file hfile
  rw [hname]
  exact stem_lt hnamed hm

/-- The open file joins the sealed ones, behind them. -/
theorem shut_file (h : Faithful log past shut tail waiting) (hnamed : log.segment < 10 ^ 8)
    {bytes : Bytes} (hcontent : log.content = some bytes) :
    Faithful (log.shut bytes) past (shut ++ [tail]) [] waiting where
  files := by
    rw [h.entries_shut hnamed, List.map_append, List.map_append, h.files, h.content bytes hcontent]
    rfl
  names := by
    intro file hfile
    rw [h.entries_shut hnamed] at hfile
    rcases List.mem_append.mp hfile with hmem | hmem
    · obtain ⟨m, hm, hname⟩ := h.names file hmem
      exact ⟨m, Nat.lt_succ_of_lt hm, hname⟩
    · obtain rfl := List.mem_singleton.mp hmem
      exact ⟨log.segment, Nat.lt_succ_self _, rfl⟩
  content := by
    intro bytes hbytes
    cases hbytes
  missing := fun _ => rfl
  pending := h.pending
  whole := h.whole
  ordered := by
    rw [List.flatten_append, List.flatten_singleton, List.append_nil]
    exact h.ordered

end Faithful

theorem Truthful.reopen {log : Writer} {past : List OpFrame} {shut : List (List OpFrame)}
    {waiting : List OpFrame} (h : Faithful log past shut [] waiting) :
    Truthful log.reopen past := by
  refine ⟨shut, [], waiting, h.files, h.names, ?_, fun _ => rfl, h.pending, h.whole, h.ordered⟩
  intro bytes hbytes
  obtain rfl := Option.some.inj hbytes
  rfl

/-- **A seal keeps the order.** -/
theorem Truthful.sealing {log log' : Writer} {past : List OpFrame} {cfg : Config}
    {weather : Weather} {answer : Except Error Unit} (h : Truthful log past)
    (hnamed : log.segment < 10 ^ 8) (hseal : Sealing cfg weather log answer log')
    (clean : ∀ n text, weather.write = some (n, text) → log.handle = true →
      CleanCut cfg log.pending n) : Truthful log' past := by
  obtain ⟨shut, tail, waiting, h⟩ := h
  cases hseal with
  | unwritten hflush => exact (h.flush hflush clean).1
  | unnamed hflush _ =>
    obtain ⟨⟨shut', tail', waiting', h'⟩, -⟩ := h.flush hflush clean
    exact ⟨shut', tail', waiting', h'.close⟩
  | unopened hflush hcontent _ =>
    obtain ⟨⟨shut', tail', waiting', h'⟩, hsegment⟩ := h.flush hflush clean
    exact ⟨_, _, _, h'.close.shut_file (hsegment ▸ hnamed) hcontent⟩
  | done hflush hcontent =>
    obtain ⟨⟨shut', tail', waiting', h'⟩, hsegment⟩ := h.flush hflush clean
    exact Truthful.reopen (h'.close.shut_file (hsegment ▸ hnamed) hcontent)

/-- **A drop keeps the order**: a flush, and a seal that opens nothing behind it. -/
theorem Truthful.drop {log : Writer} {past : List OpFrame} {cfg : Config} (h : Truthful log past)
    (hnamed : log.segment < 10 ^ 8) (weather : Weather)
    (clean : ∀ n text, weather.write = some (n, text) → log.handle = true →
      CleanCut cfg log.pending n) : Truthful (log.drop cfg weather) past := by
  obtain ⟨shut, tail, waiting, h⟩ := h
  have hflush := flush_writePending cfg weather log
  unfold Writer.drop
  generalize (log.writePending cfg weather).1 = answer at hflush
  generalize (log.writePending cfg weather).2 = log' at hflush ⊢
  obtain ⟨⟨shut', tail', waiting', h'⟩, hsegment⟩ := h.flush hflush clean
  have hclosed : Truthful log'.close past := ⟨shut', tail', waiting', h'.close⟩
  dsimp only
  split
  · cases weather.rename with
    | some text => exact hclosed
    | none =>
      cases hcontent : log'.close.content with
      | none => exact hclosed
      | some bytes => exact ⟨_, _, _, h'.close.shut_file (hsegment ▸ hnamed) hcontent⟩
  · exact hclosed

/-! ## Committing -/

/-- A flush that answers leaves nothing in the buffer. -/
theorem Flush.pending_nil {cfg : Config} {weather : Weather} {log log' : Writer}
    (h : Flush cfg weather log (.ok ()) log') : log'.pending = [] := by
  cases h with
  | idle hpending => exact hpending
  | landed => rfl

/-- An empty buffer is cut cleanly wherever it is cut. -/
theorem cleanCut_nil (cfg : Config) (n : Nat) : CleanCut cfg [] n :=
  ⟨0, Nat.zero_le _, List.take_nil⟩

/-- **Settling a buffer keeps the order**: the flush, and the rotation behind it. -/
theorem Truthful.settle {log : Writer} {past : List OpFrame} {cfg : Config} {weather : Weather}
    (h : Truthful log past) (hnamed : log.segment < 10 ^ 8)
    (clean : ∀ n text, weather.write = some (n, text) → log.handle = true →
      (log.flushDue cfg || log.rotateDue cfg weather) = true → CleanCut cfg log.pending n) :
    Truthful (log.settle cfg weather).2 past := by
  unfold Writer.settle
  by_cases hdue : log.flushDue cfg = true
  · have hclean : ∀ n text, weather.write = some (n, text) → log.handle = true →
        CleanCut cfg log.pending n :=
      fun n text hw hh => clean n text hw hh (by rw [hdue]; rfl)
    have hflush := flush_writePending cfg weather log
    rw [if_pos hdue]
    generalize log.writePending cfg weather = answer at hflush ⊢
    obtain ⟨verdict, log'⟩ := answer
    obtain ⟨shut, tail, waiting, h⟩ := h
    obtain ⟨h', hsegment⟩ := h.flush hflush hclean
    dsimp only at hflush
    cases verdict with
    | error e => exact h'
    | ok _ =>
      dsimp only
      unfold Writer.maybeRotate
      split
      · -- the rotation has nothing left to write
        refine h'.sealing (hsegment ▸ hnamed) (sealing_sealNow cfg weather log') ?_
        intro n _ _ _
        rw [hflush.pending_nil]
        exact cleanCut_nil cfg n
      · exact h'
  · rw [if_neg hdue]
    unfold Writer.maybeRotate
    by_cases hrotate : log.rotateDue cfg weather = true
    · rw [if_pos hrotate]
      refine h.sealing hnamed (sealing_sealNow cfg weather log) fun n text hw hh => ?_
      exact clean n text hw hh (by rw [hrotate, Bool.or_true])
    · rw [if_neg hrotate]
      exact h

/-- The staged record joins the buffer and the history. -/
theorem Truthful.joined {log : Writer} {past : List OpFrame} {header : Bytes} {call : Call}
    (h : Truthful log past) (hwhole : ∀ f ∈ call.frame header, Whole f) :
    Truthful (log.joined header call) (past ++ (call.frame header).toList) := by
  obtain ⟨shut, tail, waiting, h⟩ := h
  refine ⟨shut, tail, waiting ++ (call.frame header).toList, h.files, h.names, h.content,
    h.missing, ?_, ?_, ?_⟩
  · rw [records_append, ← h.pending]
    rfl
  · intro f hf
    rcases List.mem_append.mp hf with hf | hf
    · exact h.whole f hf
    · exact hwhole f (Option.mem_toList.mp hf)
  · rw [← List.append_assoc]
    exact h.ordered.append_right _

/-! ## Calls -/

/-- A commit settles the buffer its record has joined, unless it has none. -/
theorem commitStaged_eq (cfg : Config) (header : Bytes) (weather : Weather) (log : Writer)
    {call : Call} {ops : List (Op Bytes Bytes)} (hops : call.accepted = some ops) :
    (log.stageBatch header ops).commitStaged cfg weather
      = if call.bytes header = [] then (.ok (), log.joined header call)
        else (log.joined header call).settle cfg weather := by
  have hbytes : (stage header ops).2 = call.bytes header := by
    rw [(stage_whole header ops).1, Call.bytes, Call.frame, hops, Option.bind_some]
  have hjoined : (log.stageBatch header ops).append = log.joined header call := by
    unfold Writer.append Writer.joined
    rw [← hbytes]
    rfl
  unfold Writer.commitStaged
  rw [hjoined]
  by_cases hnil : call.bytes header = []
  · have hstaged : (log.stageBatch header ops).staged = [] := hbytes.trans hnil
    rw [if_pos hnil, if_pos hstaged]
    unfold Writer.joined Writer.stageBatch
    rw [hbytes, hnil, List.append_nil]
  · have hstaged : ¬ (log.stageBatch header ops).staged = [] := fun h => hnil (hbytes.symm.trans h)
    rw [if_neg hnil, if_neg hstaged]

theorem Call.frame_whole (header : Bytes) (call : Call) : ∀ f ∈ call.frame header, Whole f := by
  intro f hf
  obtain ⟨ops, -, hstaged⟩ := Option.bind_eq_some_iff.mp hf
  exact (stage_whole header ops).2 f hstaged

/-- A committed batch, by either verb. -/
theorem Truthful.committed {log : Writer} {past : List OpFrame} {cfg : Config} {header : Bytes}
    {weather : Weather} {call : Call} {ops : List (Op Bytes Bytes)} (h : Truthful log past)
    (hops : call.accepted = some ops) (clean : CleanCall cfg header log (call, weather))
    (hwrites : log.writes cfg header weather call = (log.handle && call.bytes header != [] &&
      ((log.joined header call).flushDue cfg ||
        (log.joined header call).rotateDue cfg weather))) :
    Truthful ((log.stageBatch header ops).commitStaged cfg weather).2
      (past ++ (call.frame header).toList) := by
  have hjoined := h.joined (call.frame_whole header)
  rw [commitStaged_eq cfg header weather log hops]
  by_cases hnil : call.bytes header = []
  · rw [if_pos hnil]
    exact hjoined
  · rw [if_neg hnil]
    refine hjoined.settle clean.named fun n text hw hh hdue => clean.cut n text hw ?_
    have hhandle : log.handle = true := hh
    rw [hwrites, hdue, hhandle]
    simpa using hnil

/-- **One call keeps the order**, and adds its frame to the history. -/
theorem Truthful.call {log : Writer} {past : List OpFrame} {cfg : Config} {header : Bytes}
    {call : Call × Weather} (h : Truthful log past) (clean : CleanCall cfg header log call) :
    Truthful (log.call cfg header call.2 call.1).2 (past ++ (call.1.frame header).toList) := by
  obtain ⟨call, weather⟩ := call
  cases call with
  | commit ops verdict =>
    cases verdict with
    | ok _ => exact h.committed rfl clean rfl
    | error e =>
      -- a refused batch is staged and goes no further
      obtain ⟨shut, tail, waiting, h⟩ := h
      have hnone : (Call.commit ops (.error e)).frame header = none := rfl
      rw [hnone, Option.toList_none, List.append_nil]
      exact ⟨shut, tail, waiting, h.congr rfl rfl rfl rfl⟩
  | capture ops => exact h.committed rfl clean rfl
  | sealNow =>
    have hnone : Call.sealNow.frame header = none := rfl
    have hpending : (log.joined header .sealNow).pending = log.pending := by
      change log.pending ++ [] = _
      rw [List.append_nil]
    rw [hnone, Option.toList_none, List.append_nil]
    refine h.sealing clean.named (sealing_sealNow cfg weather log) fun n text hw hh => ?_
    rw [← hpending]
    exact clean.cut n text hw hh

theorem truthful_opened (segment : Nat) : Truthful (opened segment) [] := by
  refine ⟨[], [], [], rfl, ?_, ?_, fun _ => rfl, rfl, ?_, List.Sublist.refl _⟩
  · intro file hfile
    cases hfile
  · intro bytes hbytes
    obtain rfl := Option.some.inj hbytes
    rfl
  · intro f hf
    cases hf

/-! ## Runs -/

/-- The carried writes of an accepted batch, where it carries any, as a frame. -/
def Call.share (header : Bytes) (call : Call) : Option OpFrame :=
  call.accepted.bind fun ops =>
    if Changelog.share header ops = [] then none
    else some (OpFrame.writeBatch (Changelog.share header ops))

/-- The accepted batches restricted to the carried keys, in commit order. -/
def shares (header : Bytes) (calls : List (Call × Weather)) : List OpFrame :=
  calls.filterMap fun c => c.1.share header

/-- What a call stages is its share, unless that is too long for a record. -/
theorem Call.share_of_frame {header : Bytes} {call : Call} {f : OpFrame}
    (h : call.frame header = some f) : call.share header = some f := by
  obtain ⟨ops, hops, hstaged⟩ := Option.bind_eq_some_iff.mp h
  unfold staged at hstaged
  rw [Call.share, hops, Option.bind_some]
  split at hstaged
  · cases hstaged
  · rename_i hne
    split at hstaged
    · rw [if_neg hne]
      exact hstaged
    · cases hstaged

theorem framesOfRun_sublist (header : Bytes) (calls : List (Call × Weather)) :
    (framesOfRun header calls).Sublist (shares header calls) := by
  induction calls with
  | nil => exact List.Sublist.refl _
  | cons c calls ih =>
    unfold framesOfRun shares at ih ⊢
    cases hframe : c.1.frame header with
    | some f =>
      have hshare := Call.share_of_frame hframe
      simp only [List.filterMap_cons, hframe, hshare]
      exact ih.cons_cons f
    | none =>
      cases hshare : c.1.share header with
      | none => simpa only [List.filterMap_cons, hframe, hshare] using ih
      | some f =>
        simp only [List.filterMap_cons, hframe, hshare]
        exact ih.cons f

theorem framesOfRun_concat (header : Bytes) (calls : List (Call × Weather)) (c : Call × Weather) :
    framesOfRun header (calls ++ [c]) = framesOfRun header calls ++ (c.1.frame header).toList := by
  rw [framesOfRun, framesOfRun, List.filterMap_append]
  rfl

theorem shares_concat (header : Bytes) (calls : List (Call × Weather)) (c : Call × Weather) :
    shares header (calls ++ [c]) = shares header calls ++ (c.1.share header).toList := by
  rw [shares, shares, List.filterMap_append]
  rfl

theorem truthful_run {cfg : Config} {header : Bytes} {segment : Nat}
    {calls : List (Call × Weather)}
    (clean : Along (fun log c => (log.call cfg header c.2 c.1).2) (CleanCall cfg header)
      (opened segment) calls) :
    Truthful ((opened segment).run cfg header calls) (framesOfRun header calls) := by
  refine clean.invariant (fun past log => Truthful log (framesOfRun header past))
    (truthful_opened segment) fun past log c h hc => ?_
  rw [framesOfRun_concat]
  exact h.call hc

/-- What a truthful writer leaves reads back, in commit order. -/
theorem Truthful.segments {log : Writer} {past : List OpFrame} (h : Truthful log past) :
    ∃ (shut : List (List OpFrame)) (tail : List OpFrame),
      (∀ path, log.files.entries.map (fun file => readSealed path file.2) = shut.map Except.ok) ∧
      (∀ path, ∀ bytes ∈ log.content, readOpenTail path bytes = .ok tail) ∧
      (shut.flatten ++ tail).Sublist past := by
  obtain ⟨shut, tail, waiting, h⟩ := h
  refine ⟨shut, tail, fun path => ?_, fun path bytes hbytes => ?_,
    (List.sublist_append_left _ waiting).trans h.ordered⟩
  · have hread : ∀ fs ∈ shut, readSealed path (records fs) = .ok fs :=
      fun fs hfs => framesOf_records (h.whole_shut fs hfs) path true
    have hmap : log.files.entries.map (fun file => readSealed path file.2)
        = (log.files.entries.map Prod.snd).map (readSealed path) := (List.map_map ..).symm
    rw [hmap, h.files, List.map_map]
    exact List.map_congr_left hread
  · rw [h.content bytes hbytes]
    exact framesOf_records h.whole_tail path false

/-- **The segments tell the commits in order.** In a run whose failed writes are cut
cleanly and whose segment numbers keep to eight digits, every sealed file reads back, the
open one up to where it is written, and file by file in name order they hold the accepted
batches in commit order: none twice, none torn, none refused. -/
theorem segments_faithful (cfg : Config) (header : Bytes) (segment : Nat)
    {calls : List (Call × Weather)}
    (clean : Along (fun log c => (log.call cfg header c.2 c.1).2) (CleanCall cfg header)
      (opened segment) calls) :
    ∃ (shut : List (List OpFrame)) (tail : List OpFrame),
      (∀ path, ((opened segment).run cfg header calls).files.entries.map
        (fun file => readSealed path file.2) = shut.map Except.ok) ∧
      (∀ path, ∀ bytes ∈ ((opened segment).run cfg header calls).content,
        readOpenTail path bytes = .ok tail) ∧
      (shut.flatten ++ tail).Sublist (shares header calls) := by
  obtain ⟨shut, tail, hfiles, htail, hsub⟩ := (truthful_run clean).segments
  exact ⟨shut, tail, hfiles, htail, hsub.trans (framesOfRun_sublist header calls)⟩

/-- **So do they when the writer is dropped behind the run**, where its last write, if it fails, is
cut cleanly as well. -/
theorem drop_faithful (cfg : Config) (header : Bytes) (segment : Nat)
    {calls : List (Call × Weather)}
    (clean : Along (fun log c => (log.call cfg header c.2 c.1).2) (CleanCall cfg header)
      (opened segment) calls) (weather : Weather)
    (hnamed : ((opened segment).run cfg header calls).segment < 10 ^ 8)
    (cut : ∀ n text, weather.write = some (n, text) →
      ((opened segment).run cfg header calls).handle = true →
      CleanCut cfg ((opened segment).run cfg header calls).pending n) :
    ∃ (shut : List (List OpFrame)) (tail : List OpFrame),
      (∀ path, (((opened segment).run cfg header calls).drop cfg weather).files.entries.map
        (fun file => readSealed path file.2) = shut.map Except.ok) ∧
      (∀ path, ∀ bytes ∈ (((opened segment).run cfg header calls).drop cfg weather).content,
        readOpenTail path bytes = .ok tail) ∧
      (shut.flatten ++ tail).Sublist (shares header calls) := by
  obtain ⟨shut, tail, hfiles, htail, hsub⟩ := ((truthful_run clean).drop hnamed weather cut).segments
  exact ⟨shut, tail, hfiles, htail, hsub.trans (framesOfRun_sublist header calls)⟩

/-! ## Two rows -/

def rowsLog : Config := ⟨"log", 1000, 2, false⟩

def rowsHeader : Bytes := [0, 9]

/-- One row written, as a committed batch. -/
def rowCommit (key : UInt8) : Call :=
  .commit [(faceKey rowsHeader primarySlot [key], some [7])] (.ok ())

/-- A write that fails after `n` bytes. -/
def cutAfter (n : Nat) : Weather := { write := some (n, "No space left on device (os error 28)") }

/-- The first row fails whole, the second one after the first was written and dropped. -/
def retriedRows : List (Call × Weather) :=
  [(rowCommit 1, cutAfter 0), (rowCommit 2, cutAfter 13), (.sealNow, {})]

theorem retriedRows_clean :
    Along (fun log c => (Writer.call rowsLog rowsHeader c.2 log c.1).2)
      (CleanCall rowsLog rowsHeader) (opened 0) retriedRows := by
  refine ⟨⟨by decide, ?_⟩, ⟨by decide +kernel, ?_⟩, ⟨by decide +kernel, ?_⟩, trivial⟩
  · intro n text hwrite _
    obtain ⟨rfl, -⟩ := Prod.mk.inj (Option.some.inj hwrite)
    exact ⟨0, Nat.zero_le _, rfl⟩
  · intro n text hwrite _
    obtain ⟨rfl, -⟩ := Prod.mk.inj (Option.some.inj hwrite)
    exact ⟨1, by decide +kernel, by decide +kernel⟩
  · intro n text hwrite _
    cases hwrite

theorem segments_faithful_retried :
    ∃ (shut : List (List OpFrame)) (tail : List OpFrame),
      (∀ path, ((opened 0).run rowsLog rowsHeader retriedRows).files.entries.map
        (fun file => readSealed path file.2) = shut.map Except.ok) ∧
      (∀ path, ∀ bytes ∈ ((opened 0).run rowsLog rowsHeader retriedRows).content,
        readOpenTail path bytes = .ok tail) ∧
      (shut.flatten ++ tail).Sublist (shares rowsHeader retriedRows) :=
  segments_faithful rowsLog rowsHeader 0 retriedRows_clean

/-- Two rows; the first write gets rid of `n` bytes before it fails. -/
def cutRows (n : Nat) : List (Call × Weather) :=
  [(rowCommit 1, cutAfter n), (rowCommit 2, {}), (.sealNow, {})]

/-- A write cut inside a record leaves a sealed segment that does not read back; one cut
behind a record leaves the record twice. -/
theorem segments_cut :
    ((opened 0).run rowsLog rowsHeader (cutRows 1)).files.entries.map
      (fun file => readSealed "log" file.2)
      = [.error (corrupt "log" "record body is not a valid op frame")] ∧
    ∃ first second : OpFrame,
      shares rowsHeader (cutRows 13) = [first, second] ∧
      ((opened 0).run rowsLog rowsHeader (cutRows 13)).files.entries.map
        (fun file => readSealed "log" file.2) = [.ok [first, first, second]] := by
  refine ⟨by decide +kernel, ⟨[(opPut, [0, 9, 0, 1], [7])]⟩, ⟨[(opPut, [0, 9, 0, 2], [7])]⟩, ?_, ?_⟩
  · decide +kernel
  · decide +kernel

/-- Three rows of which the first two fill the buffer and are written. -/
def droppedRows : List (Call × Weather) := [(rowCommit 1, {}), (rowCommit 2, {}), (rowCommit 3, {})]

/-- The write of a drop is cut behind one byte: the segment is sealed all the same, and does not
read back. -/
theorem drop_seals_torn :
    (((opened 0).run { rowsLog with bufferBytes := 20 } rowsHeader droppedRows).drop
        { rowsLog with bufferBytes := 20 } (cutAfter 1)).files.entries.map
      (fun file => readSealed "log" file.2)
      = [.error (corrupt "log" "trailing bytes without a length prefix")] := by
  decide +kernel

end Okm.Changelog
