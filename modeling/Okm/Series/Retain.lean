import Okm.Series.LogRun

/-!
# Retention, and what a reopened log knows of time

Three things the operations of a log do beside its records. Only an append and an open
touch the stream times (`SameTimes`). `seal_parts_older_than` leaves exactly the writers
that are not stale, so retention drops exactly the buckets before its cutoff
(`LogInv.retainBefore_exact`). And an open puts every stream's floor at its newest record
on disk (`LogInv.openLog`), whether or not the log before it was flushed: the buffers
that a stop loses are dropped from the layout first (`LogInv.lose`).
-/

namespace Okm.Series

open Lib Model

variable {v : Vendor} {log log' : Log} {lay : DirKey → Layout}

/-! ## What leaves the stream times alone -/

/-- The settings and the stream times are the same. -/
structure SameTimes (log log' : Log) : Prop where
  config : log'.config = log.config
  lastTs : log'.lastTs = log.lastTs

theorem SameTimes.refl (log : Log) : SameTimes log log := ⟨rfl, rfl⟩

theorem SameTimes.trans {a b c : Log} (hab : SameTimes a b) (hbc : SameTimes b c) :
    SameTimes a c := ⟨hbc.config.trans hab.config, hbc.lastTs.trans hab.lastTs⟩

/-- What a fold of steps that leave them alone leaves alone. -/
theorem SameTimes.fold {α : Type} {f : Log → α → Except Error Log}
    (hstep : ∀ log log' a, f log a = .ok log' → SameTimes log log') {as : List α}
    (hok : as.foldlM f log = .ok log') : SameTimes log log' := by
  induction as generalizing log with
  | nil =>
    obtain rfl := Except.ok.inj hok
    exact .refl _
  | cons a as ih =>
    rw [List.foldlM_cons] at hok
    obtain ⟨next, hfirst, hrest⟩ := bind_eq_ok.mp hok
    exact (hstep _ _ _ hfirst).trans (ih hrest)

/-- What `sealAt` does to the log. -/
theorem sealAt_ok {index : Nat} (hok : log.sealAt v index = .ok log') :
    ∃ active footer files, log.active[index]? = some active ∧
      active.writer.sealPart v = .ok (footer, files) ∧
      log' = { log with
        active := log.active.eraseIdx index
        disk := log.disk.storeSealed active.key active.number files } := by
  unfold Log.sealAt at hok
  cases hindex : log.active[index]? with
  | none =>
    rw [hindex] at hok
    cases hok
  | some active =>
    rw [hindex] at hok
    obtain ⟨⟨footer, files⟩, hseal, hok⟩ := bind_eq_ok.mp hok
    exact ⟨active, footer, files, rfl, hseal, (Except.ok.inj hok).symm⟩

theorem sealAt_times {index : Nat} (hok : log.sealAt v index = .ok log') : SameTimes log log' := by
  obtain ⟨_, _, _, -, -, rfl⟩ := sealAt_ok hok
  exact ⟨rfl, rfl⟩

theorem sealPartsOlderThan_times {cutoff : Nat} {only : Option (Option String)}
    (hok : log.sealPartsOlderThan v cutoff only = .ok log') : SameTimes log log' :=
  SameTimes.fold (fun _ _ _ h => sealAt_times h) hok

theorem createPart_times {key : DirKey} {ts created : Nat}
    (hok : log.createPart v key ts created = .ok log') : SameTimes log log' := by
  obtain ⟨number, -, hok⟩ := bind_eq_ok.mp hok
  obtain rfl := Except.ok.inj hok
  exact ⟨rfl, rfl⟩

theorem ensurePart_times {bucket ts created : Nat} {partition : Option String}
    (hok : log.ensurePart v bucket partition ts created = .ok log') : SameTimes log log' := by
  obtain ⟨log₁, hstale, hok⟩ := bind_eq_ok.mp hok
  have h₁ := sealPartsOlderThan_times hstale
  dsimp only at hok
  cases hindex : log₁.activeIndex (dirKey bucket partition) with
  | none =>
    rw [hindex] at hok
    exact h₁.trans (createPart_times hok)
  | some index =>
    obtain ⟨active, hactive, -⟩ := getElem_of_findIdx hindex
    rw [hindex] at hok
    dsimp only at hok
    rw [hactive] at hok
    dsimp only at hok
    split at hok
    · obtain ⟨log₂, hseal, hok⟩ := bind_eq_ok.mp hok
      exact (h₁.trans (sealAt_times hseal)).trans (createPart_times hok)
    · obtain rfl := Except.ok.inj hok
      exact h₁

/-- Where an append lands, and at what time. -/
theorem land_times {clock created : Nat} {body : Body} {landing : Log.Landing}
    (hok : log.land v clock created body = .ok landing) :
    SameTimes log landing.log ∧ landing.ts = log.now landing.partition clock ∧
      log.config.bucketOf landing.ts = .ok landing.bucket := by
  obtain ⟨partition, -, hok⟩ := bind_eq_ok.mp hok
  obtain ⟨bucket, hbucket, hok⟩ := bind_eq_ok.mp hok
  obtain ⟨log₁, hensure, hok⟩ := bind_eq_ok.mp hok
  cases hindex : log₁.activeIndex (dirKey bucket partition) with
  | none =>
    rw [hindex] at hok
    cases hok
  | some index =>
    obtain ⟨active, hactive, -⟩ := getElem_of_findIdx hindex
    rw [hindex] at hok
    dsimp only at hok
    rw [hactive] at hok
    obtain rfl := Except.ok.inj hok
    exact ⟨ensurePart_times hensure, rfl, hbucket⟩

/-- **An append** stamps the record with `now`, in the bucket of that time, and moves its
stream's floor there. -/
theorem append_times {clock created : Nat} {body : Body} {did : Log.Appended}
    (hok : log.append v clock created body = .ok (did, log')) :
    log'.config = log.config ∧ did.row.1 = log.now did.partition clock ∧
      log.config.bucketOf did.row.1 = .ok did.bucket ∧
      log'.lastTs = log.lastTs.insert (streamKey did.partition) did.row.1 := by
  obtain ⟨landing, hland, hok⟩ := bind_eq_ok.mp hok
  obtain ⟨⟨offset, w⟩, -, hok⟩ := bind_eq_ok.mp hok
  obtain ⟨rfl, rfl⟩ := Prod.mk.inj (Except.ok.inj hok)
  obtain ⟨htimes, hts, hbucket⟩ := land_times hland
  refine ⟨htimes.config, hts, hbucket, ?_⟩
  show landing.log.lastTs.insert _ _ = _
  rw [htimes.lastTs]

theorem flush_times (hok : log.flush v = .ok log') : SameTimes log log' := by
  refine SameTimes.fold (f := fun log index => log.flushAt v index) ?_ hok
  intro log log' index hok
  unfold Log.flushAt at hok
  cases hindex : log.active[index]? with
  | none =>
    rw [hindex] at hok
    cases hok
  | some active =>
    rw [hindex] at hok
    obtain ⟨w, -, hok⟩ := bind_eq_ok.mp hok
    obtain rfl := Except.ok.inj hok
    exact ⟨rfl, rfl⟩

theorem sealAll_times (hok : log.sealAll v = .ok log') : SameTimes log log' :=
  have h : SameTimes { log with cache := [] } log' :=
    SameTimes.fold (f := fun log (_ : Active) => log.sealAt v 0) (fun _ _ _ h => sealAt_times h) hok
  ⟨h.config, h.lastTs⟩

/-! ## Exactly the stale writers are sealed -/

theorem foldSealAt_active {indexes : List Nat}
    (hok : indexes.foldlM (fun log index => log.sealAt v index) log = .ok log') :
    log'.active = indexes.foldl List.eraseIdx log.active := by
  induction indexes generalizing log with
  | nil =>
    obtain rfl := Except.ok.inj hok
    rfl
  | cons index indexes ih =>
    rw [List.foldlM_cons] at hok
    obtain ⟨next, hseal, hrest⟩ := bind_eq_ok.mp hok
    obtain ⟨_, _, _, -, -, rfl⟩ := sealAt_ok hseal
    exact ih hrest

/-- Taking out the elements that are wanted, from the last index down, leaves the others. -/
theorem foldl_eraseIdx {α : Type} (wanted : α → Bool) (l rest : List α) :
    (((l.zipIdx.filter fun e => wanted e.1).map Prod.snd).reverse).foldl List.eraseIdx (l ++ rest)
      = l.filter (fun a => !wanted a) ++ rest := by
  -- from the right: the last element goes or joins what is not looked at any more
  induction l using List.reverseRecOn generalizing rest with
  | nil => rfl
  | append_singleton l a ih =>
    rw [List.zipIdx_append, List.filter_append, List.map_append, List.reverse_append,
      List.filter_append, List.append_assoc]
    by_cases ha : wanted a = true
    · have herase : (l ++ a :: rest).eraseIdx l.length = l ++ rest := by
        rw [List.eraseIdx_append_of_length_le (Nat.le_refl _), Nat.sub_self]
        rfl
      have hkeep := ih rest
      simp [ha] at hkeep ⊢
      rw [herase, hkeep]
    · have hkeep := ih ([a] ++ rest)
      simp [ha] at hkeep ⊢
      exact hkeep

theorem sealPartsOlderThan_active {cutoff : Nat} {only : Option (Option String)}
    (hok : log.sealPartsOlderThan v cutoff only = .ok log') :
    log'.active = log.active.filter fun active => !decide (active.bucket < cutoff
      ∧ (only.all fun partition => active.partition = partition)) := by
  have herase := foldl_eraseIdx (fun active : Active => decide (active.bucket < cutoff
    ∧ (only.all fun partition => active.partition = partition))) log.active []
  rw [List.append_nil, List.append_nil] at herase
  rw [foldSealAt_active hok, ← herase]
  rfl

/-- **Retention** drops the buckets before its cutoff: no writer holds one open. -/
theorem mem_dropped {cutoff : Nat} (hok : log.sealPartsOlderThan v cutoff none = .ok log')
    (bucket : Nat) : bucket ∈ log'.dropped cutoff ↔
      bucket < cutoff ∧ ∃ e ∈ log'.disk.entries, e.1.bucket = bucket := by
  have hopen : ∀ active ∈ log'.active, cutoff ≤ active.bucket := by
    intro active hactive
    rw [sealPartsOlderThan_active hok] at hactive
    have hkeep := (List.mem_filter.mp hactive).2
    simpa using hkeep
  rw [Log.dropped, List.mem_dedup, List.mem_filter, List.mem_map]
  constructor
  · rintro ⟨⟨e, he, hbucket⟩, hgone⟩
    exact ⟨(of_decide_eq_true hgone).1, e, he, hbucket⟩
  · rintro ⟨hlt, e, he, rfl⟩
    refine ⟨⟨e, he, rfl⟩, decide_eq_true ⟨hlt, fun active hactive heq => ?_⟩⟩
    have hle := hopen active hactive
    omega

/-- **Retention is exact**: it answers the buckets before the one `ts` falls in, and their
directories, of every partition, are empty after it. The others are as they were. -/
theorem LogInv.retainBefore_exact (lawful : v.Lawful) (h : LogInv v log lay) {ts : Nat}
    {buckets : List Nat} (hok : log.retainBefore v ts = .ok (buckets, log')) :
    ∃ cutoff lay', log.config.bucketOf ts = .ok cutoff ∧ LogInv v log' lay' ∧
      SameTimes log log' ∧ (∀ bucket ∈ buckets, bucket < cutoff) ∧
      ∀ key, (lay' key).recs = if key.bucket < cutoff then [] else (lay key).recs := by
  obtain ⟨lay', hinv, hrecs⟩ := h.retainBefore lawful hok
  obtain ⟨cutoff, hcutoff, hok⟩ := bind_eq_ok.mp hok
  obtain ⟨log₁, hstale, hok⟩ := bind_eq_ok.mp hok
  obtain ⟨rfl, rfl⟩ := Prod.mk.inj (Except.ok.inj hok)
  obtain ⟨lay₁, h₁, hsame₁⟩ := h.foldSealAt lawful hstale
  have htimes := sealPartsOlderThan_times hstale
  refine ⟨cutoff, lay', hcutoff, hinv, ⟨htimes.config, htimes.lastTs⟩,
    fun bucket hbucket => ((mem_dropped hstale bucket).mp hbucket).1, fun key => ?_⟩
  rw [hrecs key]
  by_cases hlt : key.bucket < cutoff
  · rw [if_pos hlt]
    split
    · rfl
    · rename_i hkept
      -- a directory that retention passes over was not there
      cases hget : log₁.disk.get key with
      | none =>
        rw [← hsame₁ key, Layout.recs, h₁.diskHolds.volumes_nil hget]
        rfl
      | some dir =>
        have hmem := (SortedMap.get_eq_some_iff log₁.disk key dir).mp hget
        exact absurd ((mem_dropped hstale key.bucket).mpr ⟨hlt, _, hmem, rfl⟩) hkept
  · rw [if_neg hlt, if_neg]
    intro hdropped
    exact hlt ((mem_dropped hstale key.bucket).mp hdropped).1

/-! ## The floors an open puts -/

/-- The next record of the stream has this timestamp at least. -/
def Log.Floors (log : Log) (stream : Option String) (ts : Nat) : Prop :=
  ∃ last, log.lastTs.get (streamKey stream) = some last ∧ ts ≤ last

theorem SameTimes.floors (h : SameTimes log log') {stream : Option String} {ts : Nat}
    (hfloor : log.Floors stream ts) : log'.Floors stream ts := by
  obtain ⟨last, hlast, hle⟩ := hfloor
  exact ⟨last, by rw [h.lastTs, hlast], hle⟩

/-- The clamped clock is not below the floor. -/
theorem Log.Floors.le_now {stream : Option String} {ts : Nat} (h : log.Floors stream ts)
    (clock : Nat) : ts ≤ log.now stream clock := by
  obtain ⟨last, hlast, hle⟩ := h
  unfold Log.now
  rw [hlast]
  dsimp only
  omega

theorem floors_noteSpan {stream partition : Option String} {ts : Nat} (h : log.Floors stream ts)
    (span : Option (Nat × Nat)) : (log.noteSpan partition span).Floors stream ts := by
  obtain ⟨last, hlast, hle⟩ := h
  rcases span with _ | ⟨first, newest⟩
  · exact ⟨last, hlast, hle⟩
  · by_cases hsame : streamKey stream = streamKey partition
    · refine ⟨max last newest, ?_, by omega⟩
      show (log.lastTs.insert _ _).get _ = _
      rw [hsame, SortedMap.get_insert, if_pos rfl, ← hsame, hlast, Option.getD_some, Nat.max_comm]
    · refine ⟨last, ?_, hle⟩
      show (log.lastTs.insert _ _).get _ = _
      rw [SortedMap.get_insert, if_neg hsame, hlast]

theorem noteSpan_floors (partition : Option String) (first newest : Nat) :
    (log.noteSpan partition (some (first, newest))).Floors partition newest := by
  refine ⟨max ((log.lastTs.get (streamKey partition)).getD newest) newest, ?_, by omega⟩
  show (log.lastTs.insert _ _).get _ = _
  rw [SortedMap.get_insert, if_pos rfl]

/-- **One round of recovery** opens its part, notes what the part spans, and writes in the
directory of the part only when that is an open one. -/
theorem recover_ok {clock : Nat} {path : PartPath} (hok : log.recover v clock path = .ok log') :
    ∃ files r, log.disk.fileAt path = some files ∧
      PartReader.openPart v files path.isSealed log.config.dict = .ok r ∧
      SameTimes (log.noteSpan path.dir.partition r.span) log' ∧
      ∀ q : PartPath, (path.isSealed = false → q.dir ≠ path.dir) →
        log'.disk.fileAt q = log.disk.fileAt q := by
  unfold Log.recover at hok
  cases hfile : log.disk.fileAt path with
  | none =>
    rw [hfile] at hok
    cases hok
  | some files =>
    rw [hfile] at hok
    obtain ⟨r, hopen, hok⟩ := bind_eq_ok.mp hok
    refine ⟨files, r, rfl, hopen, ?_⟩
    have hdisk : (log.noteSpan path.dir.partition r.span).disk = log.disk := by
      cases r.span <;> rfl
    rw [← hdisk]
    generalize log.noteSpan path.dir.partition r.span = noted at hok ⊢
    -- what is stored in one directory is not seen in another
    have hother : ∀ (disk : Disk) (dir : Dir) (q : PartPath), q.dir ≠ path.dir →
        Disk.fileAt (disk.insert path.dir dir) q = disk.fileAt q := by
      intro disk dir q hne
      unfold Disk.fileAt
      rw [dirAt_insert, if_neg hne]
    unfold Log.takeOver at hok
    split at hok
    · obtain rfl := Except.ok.inj hok
      exact ⟨.refl _, fun _ _ => rfl⟩
    · rename_i hopenPart
      obtain ⟨hunsealed, -⟩ := not_or.mp hopenPart
      obtain ⟨w, -, hok⟩ := bind_eq_ok.mp hok
      obtain ⟨bucket, -, hok⟩ := bind_eq_ok.mp hok
      split at hok
      · obtain ⟨active, footer, found, hactive, -, rfl⟩ := sealAt_ok hok
        refine ⟨⟨rfl, rfl⟩, fun q hne => ?_⟩
        have hne := hne (by simpa using hunsealed)
        -- the sealed part is the one just adopted
        have hkey : active.key = path.dir := by
          have hlast : (noted.active ++ [⟨path.dir.bucket, path.dir.partition, path.number, w⟩])[
              noted.active.length]? = some ⟨path.dir.bucket, path.dir.partition, path.number, w⟩ :=
            List.getElem?_concat_length
          obtain rfl := Option.some.inj (hactive.symm.trans hlast)
          rfl
        show Disk.fileAt (SortedMap.insert (SortedMap.insert noted.disk path.dir _) active.key _) q = _
        rw [hkey, hother _ _ q hne, hother _ _ q hne]
      · obtain rfl := Except.ok.inj hok
        exact ⟨⟨rfl, rfl⟩, fun q hne => hother _ _ q (hne (by simpa using hunsealed))⟩

/-- An open part is the last of its directory. -/
theorem allParts_apart (disk : Disk) :
    disk.allParts.Pairwise fun p q => p.isSealed = false → q.dir ≠ p.dir := by
  rw [Disk.allParts, List.pairwise_flatMap]
  have hdir : ∀ (key : DirKey) (dir : Dir), ∀ p ∈ dir.paths key, p.dir = key := by
    intro key dir p hp
    rcases List.mem_append.mp hp with hp | hp
    · obtain ⟨e, -, rfl⟩ := List.mem_map.mp hp
      rfl
    · obtain ⟨e, -, rfl⟩ := List.mem_map.mp hp
      rfl
  constructor
  · intro e _
    rw [Dir.paths, List.pairwise_append]
    refine ⟨?_, ?_, ?_⟩
    · rw [List.pairwise_map]
      exact List.pairwise_of_forall fun _ _ hsealed => absurd hsealed Bool.true_eq_false_eq_False.elim
    · cases e.2.openParts.entries.head? with
      | none => exact List.Pairwise.nil
      | some part => exact List.pairwise_singleton _ _
    · intro p hp q _ hsealed
      obtain ⟨part, -, rfl⟩ := List.mem_map.mp hp
      cases hsealed
  · have hnodup := disk.nodup_keys
    rw [List.Nodup, List.pairwise_map] at hnodup
    refine hnodup.imp ?_
    intro a b hne p hp q hq _
    rw [hdir a.1 a.2 p hp, hdir b.1 b.2 q hq]
    exact fun heq => hne heq.symm

/-- **The rounds of recovery** leave a floor at the end of every part's span. -/
theorem recoverAll_floors {clock : Nat → Nat} {paths : List (PartPath × Nat)}
    (hapart : paths.Pairwise fun p q => p.1.isSealed = false → q.1.dir ≠ p.1.dir)
    (hok : paths.foldlM (fun log e => log.recover v (clock e.2) e.1) log = .ok log') :
    log'.config = log.config ∧
      (∀ stream ts, log.Floors stream ts → log'.Floors stream ts) ∧
      ∀ e ∈ paths, ∀ files r first last, log.disk.fileAt e.1 = some files →
        PartReader.openPart v files e.1.isSealed log.config.dict = .ok r →
        r.span = some (first, last) → log'.Floors e.1.dir.partition last := by
  induction paths generalizing log with
  | nil =>
    obtain rfl := Except.ok.inj hok
    exact ⟨rfl, fun _ _ h => h, nofun⟩
  | cons p paths ih =>
    rw [List.foldlM_cons] at hok
    obtain ⟨next, hrecover, hrest⟩ := bind_eq_ok.mp hok
    obtain ⟨hfirst, hpaths⟩ := List.pairwise_cons.mp hapart
    obtain ⟨files, r, hfile, hopen, htimes, hkeep⟩ := recover_ok hrecover
    obtain ⟨hconfig, hmono, hothers⟩ := ih hpaths hrest
    have hnoted : (log.noteSpan p.1.dir.partition r.span).config = log.config := by
      cases r.span <;> rfl
    have hnext : next.config = log.config := htimes.config.trans hnoted
    refine ⟨hconfig.trans hnext,
      fun stream ts h => hmono stream ts (htimes.floors (floors_noteSpan h r.span)), ?_⟩
    intro e he found r' first last hfound hopened hspan
    rcases List.mem_cons.mp he with rfl | he
    · obtain rfl := Option.some.inj (hfile.symm.trans hfound)
      obtain rfl := Except.ok.inj (hopen.symm.trans hopened)
      rw [hspan] at htimes
      exact hmono _ _ (htimes.floors (noteSpan_floors _ first last))
    · refine hothers e he found r' first last ?_ (by rw [hnext]; exact hopened) hspan
      rw [hkeep e.1 (hfirst e he), hfound]

/-- A part that has the record ends its span at the record or after it. -/
theorem Timed.le_span {recs : List Rec} (h : Timed recs) {r : Rec} (hr : r ∈ recs) :
    ∃ first last, spanOfRecs recs = some (first, last) ∧ r.ts ≤ last := by
  obtain ⟨init, last, rfl⟩ := (List.eq_nil_or_concat' recs).resolve_left (List.ne_nil_of_mem hr)
  obtain ⟨head, hhead⟩ : ∃ head, (init ++ [last]).head? = some head := by
    cases init with
    | nil => exact ⟨last, rfl⟩
    | cons head init => exact ⟨head, rfl⟩
  refine ⟨head.ts, last.ts, ?_, ?_⟩
  · rw [spanOfRecs, hhead, List.getLast?_concat]
  · rcases List.mem_append.mp hr with hr | hr
    · exact (List.pairwise_append.mp h.1).2.2 r hr last (List.mem_singleton_self _)
    · exact Nat.le_of_eq (congrArg Rec.ts (List.mem_singleton.mp hr))

/-- **An opened log** holds the records of the disk, and no stream's next timestamp is
below one of them. -/
theorem LogInv.openLog (lawful : v.Lawful) (h : LogInv v log lay)
    (hstopped : ∀ active ∈ log.active, active.writer.blockRecords = 0) {config : Config}
    {clock : Nat → Nat} (hok : Log.openLog v config log.disk clock = .ok log') :
    ∃ lay', LogInv v log' lay' ∧ SameRecs lay lay' ∧ log'.config = config ∧
      ∀ key, ∀ r ∈ (lay key).recs, log'.Floors key.partition r.ts := by
  have hpaths : log.disk.allParts = log.disk.allParts.zipIdx.map Prod.fst := by simp
  have hrecovering := h.recovering hstopped config
  have hapart := allParts_apart log.disk
  rw [hpaths] at hrecovering hapart
  rw [List.pairwise_map] at hapart
  obtain ⟨lay', hinv, hsame⟩ := hrecovering.run lawful hok
  obtain ⟨hconfig, -, hfloors⟩ := recoverAll_floors hapart hok
  refine ⟨lay', hinv, hsame, hconfig, fun key r hr => ?_⟩
  obtain ⟨vol, hvol, hrvol⟩ := List.mem_flatMap.mp hr
  -- the part is named in the listing
  obtain ⟨path, hnamed⟩ : ∃ path, (path, vol) ∈ (lay key).named key := by
    rcases mem_volumes.mp hvol with hclosed | hcurrent
    · exact ⟨_, List.mem_append_left _ (List.mem_map_of_mem hclosed)⟩
    · exact ⟨_, List.mem_append_right _ (List.mem_map_of_mem (Option.mem_toList.mpr hcurrent))⟩
  obtain ⟨hstands, rfl, -⟩ := stands_of_named hnamed
  have hlisted : path ∈ log.disk.allParts := by
    rw [allParts_eq h.diskHolds]
    cases hget : log.disk.get path.dir with
    | none =>
      rw [h.diskHolds.volumes_nil hget] at hvol
      cases hvol
    | some dir =>
      have hmem := (SortedMap.get_eq_some_iff _ _ _).mp hget
      have hstanding : (path, vol) ∈ standing log.disk lay :=
        List.mem_flatMap.mpr ⟨(path.dir, dir), hmem, hnamed⟩
      exact List.mem_map_of_mem hstanding
  rw [hpaths] at hlisted
  obtain ⟨e, he, rfl⟩ := List.mem_map.mp hlisted
  obtain ⟨reader, hopen, hanswers⟩ := hstands.opens h.diskHolds config.dict
  -- nothing of it is in a buffer
  have hpending : vol.pending = [] := by
    rcases mem_volumes.mp hvol with hclosed | hcurrent
    · exact ((h.dirs e.1.dir).closed vol hclosed).pending
    · obtain ⟨w, hwriter, hheld⟩ := (h.dirs e.1.dir).current vol hcurrent
      obtain ⟨active, hfound, hentry⟩ := Option.map_eq_some_iff.mp hwriter
      have hcount := hstopped active (mem_of_findKey hfound).1
      rw [(Prod.mk.inj hentry).2, hheld.writes.blockRecords] at hcount
      exact List.length_eq_zero_iff.mp hcount
  rw [Volume.recs, hpending, List.append_nil] at hrvol
  obtain ⟨first, last, hspan, hle⟩ := hanswers.timed.le_span hrvol
  obtain ⟨floor, hfloor, hlast⟩ := hfloors e he vol.files reader first last
    (hstands.fileAt h.diskHolds) hopen (by rw [hanswers.span, hspan])
  exact ⟨floor, hfloor, Nat.le_trans hle hlast⟩

/-! ## A stop that does not flush -/

/-- A writer as its files leave it: nothing is in the buffer. -/
def PartWriter.bare (w : PartWriter) (first : Nat) (recs : List Rec) : PartWriter :=
  { w with
    block := []
    blockRecords := 0
    nextOffset := first + recs.length
    lastTs := recs.getLast?.map Rec.ts }

theorem Writes.bare {w : PartWriter} {header : PartHeader} {blocks : List Stored}
    {pending : List Rec} (h : Writes v w header blocks pending) :
    Writes v (w.bare header.firstOffset (recsOf blocks)) header blocks [] where
  fits := h.fits
  data := h.data
  index := h.index
  sound := h.sound
  timed := by
    rw [List.append_nil]
    exact (Timed.append h.timed).1
  fileOff := h.fileOff
  nextOffset := by rw [List.append_nil]; rfl
  nextFits := by
    have hnext := h.nextFits
    rw [h.nextOffset, List.length_append] at hnext
    show header.firstOffset + (recsOf blocks).length < _
    omega
  lastTs := by rw [List.append_nil]; rfl
  blockRecords := rfl
  recordsFit := by decide
  block := ⟨[], rfl, nofun, rfl⟩
  blockFirstTs := nofun
  blockFirstOffset := fun hne => absurd rfl hne
  records := h.records
  blocksCount := h.blocksCount
  dict := h.dict
  beside := h.beside
  decodesPending := fun _ _ => nofun
  decodes := h.decodes

/-- A part without its buffer. -/
def Volume.bare (vol : Volume) : Volume := { vol with pending := [] }

/-- A directory without the buffer of its open part. -/
def Layout.bare (l : Layout) : Layout := { l with current := l.current.map Volume.bare }

/-- The writer of an open part without its buffer. -/
def Active.bare (lay : DirKey → Layout) (active : Active) : Active :=
  match (lay active.key).current with
  | none => active
  | some vol => { active with
      writer := active.writer.bare vol.header.firstOffset (recsOf vol.blocks) }

theorem Active.bare_key (lay : DirKey → Layout) (active : Active) :
    (active.bare lay).key = active.key := by
  unfold Active.bare
  split <;> rfl

theorem Layout.recs_bare (l : Layout) : l.recs = l.bare.recs ++ l.pending := by
  cases hcurrent : l.current with
  | none => simp [Layout.recs, Layout.volumes, Layout.bare, Layout.pending, hcurrent]
  | some vol =>
    simp [Layout.recs, Layout.volumes, Layout.bare, Layout.pending, hcurrent, Volume.recs,
      Volume.bare]

theorem DirHolds.bare {dir : Dir} {l : Layout} {key : DirKey}
    (h : DirHolds v dir (log.writerAt key) l) (hl : l = lay key) :
    DirHolds v dir (Log.writerAt { log with active := log.active.map (Active.bare lay) } key)
      l.bare := by
  -- the writer of a directory is found as before, with nothing buffered
  have hwriter : Log.writerAt { log with active := log.active.map (Active.bare lay) } key
      = (findKey Active.key key log.active).map fun active =>
          ((active.bare lay).number, (active.bare lay).writer) := by
    rw [Log.writerAt, findKey, List.find?_map, Option.map_map]
    congr 2
    funext active
    exact decide_eq_decide.mpr (by rw [Active.bare_key])
  refine ⟨h.sealedParts, ?_, h.closed, ?_, ?_, ?_, ?_⟩
  · rw [h.openParts]
    show _ = (l.current.map Volume.bare).toList.map Volume.entry
    cases l.current <;> rfl
  · intro vol hvol
    obtain ⟨old, hold, rfl⟩ := Option.map_eq_some_iff.mp hvol
    obtain ⟨w, hw, hheld⟩ := h.current old hold
    obtain ⟨active, hfound, hentry⟩ := Option.map_eq_some_iff.mp hw
    obtain ⟨-, rfl⟩ := mem_of_findKey hfound
    obtain ⟨hnumber, rfl⟩ := Prod.mk.inj hentry
    subst hl
    have hbare : active.bare lay = { active with
        writer := active.writer.bare old.header.firstOffset (recsOf old.blocks) } := by
      unfold Active.bare
      rw [hold]
    refine ⟨active.writer.bare old.header.firstOffset (recsOf old.blocks), ?_, hheld.files,
      hheld.writes.bare⟩
    rw [hwriter, hfound, Option.map_some, hbare]
    exact congrArg (fun number => some (number, _)) hnumber
  · intro hnone
    have hcurrent : l.current = none := Option.map_eq_none_iff.mp hnone
    have hfree := h.writer hcurrent
    rw [Log.writerAt, Option.map_eq_none_iff] at hfree
    rw [hwriter, hfree, Option.map_none]
  · -- offsets and numbers are those of the volumes, which keep both
    have hchain := h.chained
    show Chained 0 (l.closed ++ (l.current.map Volume.bare).toList)
    rw [Layout.volumes] at hchain
    cases hcurrent : l.current with
    | none =>
      rw [hcurrent] at hchain
      exact hchain
    | some vol =>
      rw [hcurrent] at hchain
      obtain ⟨hclosed, hfirst, -⟩ := chained_append.mp hchain
      exact chained_append.mpr ⟨hclosed, hfirst, trivial⟩
  · have hnumbers := h.numbers
    show ((l.closed ++ (l.current.map Volume.bare).toList).map Volume.number).Pairwise _
    rw [Layout.volumes] at hnumbers
    cases hcurrent : l.current with
    | none =>
      rw [hcurrent] at hnumbers
      exact hnumbers
    | some vol =>
      rw [hcurrent, List.map_append] at hnumbers
      rw [List.map_append]
      exact hnumbers

/-- **What is in no block is lost**: a log dropped without a flush leaves its disk, and
writers that hold what the files hold. -/
theorem LogInv.lose (h : LogInv v log lay) :
    LogInv v { log with active := log.active.map (Active.bare lay) } (fun key => (lay key).bare) ∧
      ∀ active ∈ log.active.map (Active.bare lay), active.writer.blockRecords = 0 := by
  refine ⟨⟨fun key => (h.dirs key).bare rfl, ?_, ?_, h.lastTs⟩, ?_⟩
  · have hkeys : (log.active.map (Active.bare lay)).map Active.key = log.active.map Active.key := by
      rw [List.map_map]
      exact List.map_congr_left fun active _ => Active.bare_key lay active
    rw [DistinctKeys, hkeys]
    exact h.distinct
  · rintro ⟨⟨key, number, isSealed⟩, cached⟩ he
    have hheld := h.held _ he
    dsimp only at hheld ⊢
    cases hheld with
    | closed hvol hnumber hanswers => exact .closed hvol hnumber hanswers
    | @current vol hvol hnumber hbytes hanswers =>
      have hbare : (lay key).current.map Volume.bare = some vol.bare := by
        rw [hvol, Option.map_some]
      exact .current hbare hnumber hbytes hanswers
    | renamed hvol hnumber => exact .renamed hvol hnumber
  · intro active hactive
    obtain ⟨old, hold, rfl⟩ := List.mem_map.mp hactive
    obtain ⟨index, hindex⟩ := List.mem_iff_getElem?.mp hold
    obtain ⟨vol, hvol, -, -⟩ := h.active hindex
    unfold Active.bare
    rw [hvol]
    rfl

end Okm.Series
