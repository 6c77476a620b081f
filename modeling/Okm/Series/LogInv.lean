import Okm.Lib.Keyed
import Okm.Series.DirInv

/-!
# What a log keeps

`LogInv` puts the directories together: each holds its parts (`DirHolds`), at most one
writer stands in each, and the readers in the cache are good. Sealing, flushing and
creating a part keep it and the records of every directory; an append adds one record
at the end of one directory, at the offset it answers; retention empties the
directories of whole buckets; and a clean reopen finds everything again.
-/

namespace Okm.Series

open Lib Model

variable {v : Vendor}

/-- The writer of a directory, and the number of its part. -/
def Log.writerAt (log : Log) (key : DirKey) : Option (Nat × PartWriter) :=
  (findKey Active.key key log.active).map fun active => (active.number, active.writer)

theorem dirAt_insert (disk : Disk) (key : DirKey) (dir : Dir) (k : DirKey) :
    Disk.dirAt (disk.insert key dir) k = if k = key then dir else disk.dirAt k := by
  rw [Disk.dirAt, SortedMap.get_insert]
  split
  · rfl
  · rfl

@[simp] theorem dirKey_bucket (bucket : Nat) (partition : Option String) :
    (dirKey bucket partition).bucket = bucket := rfl

@[simp] theorem dirKey_partition (bucket : Nat) (partition : Option String) :
    (dirKey bucket partition).partition = partition := rfl

structure LogInv (v : Vendor) (log : Log) (lay : DirKey → Layout) : Prop where
  dirs : ∀ key, DirHolds v (log.disk.dirAt key) (log.writerAt key) (lay key)
  distinct : DistinctKeys Active.key log.active
  held : ∀ e ∈ log.cache, HeldOk v (lay e.1.dir) e.1.number e.2 e.1.isSealed
  lastTs : ∀ stream ts, log.lastTs.get stream = some ts → ts < 2 ^ 64

/-- Two layouts with the same records everywhere. -/
def SameRecs (lay lay' : DirKey → Layout) : Prop := ∀ key, (lay' key).recs = (lay key).recs

theorem SameRecs.trans {a b c : DirKey → Layout} (hab : SameRecs a b) (hbc : SameRecs b c) :
    SameRecs a c := fun key => (hbc key).trans (hab key)

section

variable {log log' : Log} {lay : DirKey → Layout}

/-- **A change in one directory**: the others, and the log's records there, stay. -/
theorem LogInv.change (h : LogInv v log lay) (key : DirKey)
    (writer : Option (Nat × PartWriter)) {dir : Dir} {l : Layout}
    (hdisk : log'.disk = log.disk.insert key dir)
    (hwriter : ∀ k, log'.writerAt k = if k = key then writer else log.writerAt k)
    (hdistinct : DistinctKeys Active.key log'.active) (hcache : log'.cache = log.cache)
    (hts : log'.lastTs = log.lastTs) (hdir : DirHolds v dir writer l)
    (hheld : ∀ number isSealed held, HeldOk v (lay key) number held isSealed →
      HeldOk v l number held isSealed) :
    LogInv v log' (Function.update lay key l) where
  dirs := by
    intro k
    rw [hdisk, dirAt_insert, hwriter]
    by_cases hk : k = key
    · subst hk
      rw [if_pos rfl, if_pos rfl, Function.update_self]
      exact hdir
    · rw [if_neg hk, if_neg hk, Function.update_of_ne hk]
      exact h.dirs k
  distinct := hdistinct
  held := by
    intro e he
    rw [hcache] at he
    have hold := h.held e he
    by_cases hk : e.1.dir = key
    · subst hk
      rw [Function.update_self]
      exact hheld _ _ _ hold
    · rw [Function.update_of_ne hk]
      exact hold
  lastTs := by
    rw [hts]
    exact h.lastTs

theorem sameRecs_update {key : DirKey} {l : Layout} (h : l.recs = (lay key).recs) :
    SameRecs lay (Function.update lay key l) := by
  intro k
  by_cases hk : k = key
  · subst hk
    rw [Function.update_self, h]
  · rw [Function.update_of_ne hk]

/-- The part an index stands for. -/
theorem LogInv.active (h : LogInv v log lay) {index : Nat} {active : Active}
    (hindex : log.active[index]? = some active) :
    ∃ vol, (lay active.key).current = some vol ∧ vol.number = active.number ∧
      vol.Held v active.writer := by
  have hfound : log.writerAt active.key = some (active.number, active.writer) := by
    rw [Log.writerAt, findKey_of_mem h.distinct (List.mem_of_getElem? hindex)]
    rfl
  have hdir := h.dirs active.key
  cases hcur : (lay active.key).current with
  | none =>
    rw [hdir.writer hcur] at hfound
    cases hfound
  | some vol =>
    obtain ⟨w, hw, hheld⟩ := hdir.current vol hcur
    rw [hfound] at hw
    obtain ⟨hnumber, rfl⟩ := Prod.mk.inj (Option.some.inj hw)
    exact ⟨vol, rfl, hnumber.symm, hheld⟩

/-! ## Sealing -/

/-- **Sealing one part** changes its directory only, and none of its records. -/
theorem LogInv.sealAt_update (lawful : v.Lawful) (h : LogInv v log lay) {index : Nat}
    (hok : log.sealAt v index = .ok log') :
    ∃ active files l, log.active[index]? = some active ∧
      log' = { log with
        active := log.active.eraseIdx index
        disk := log.disk.storeSealed active.key active.number files } ∧
      LogInv v log' (Function.update lay active.key l) ∧ l.recs = (lay active.key).recs := by
  unfold Log.sealAt at hok
  cases hindex : log.active[index]? with
  | none =>
    rw [hindex] at hok
    cases hok
  | some active =>
    rw [hindex] at hok
    obtain ⟨⟨footer, files⟩, hseal, hok⟩ := bind_eq_ok.mp hok
    obtain rfl := Except.ok.inj hok
    obtain ⟨vol, hvol, hnumber, hheld⟩ := h.active hindex
    obtain ⟨⟨more, hmore, hs⟩, -⟩ := hheld.writes.sealPart lawful hseal
    refine ⟨active, files, _, rfl, rfl, h.change active.key none rfl ?_ (h.distinct.eraseIdx index) rfl
      rfl (by rw [← hnumber]; exact (h.dirs active.key).finish hvol hs)
      (fun number isSealed held hold => hold.finish hvol), recs_finish hvol hmore⟩
    intro k
    show Option.map _ (findKey Active.key k (log.active.eraseIdx index)) = _
    rw [findKey_eraseIdx h.distinct hindex]
    by_cases hk : k = active.key
    · rw [if_pos hk, if_pos hk.symm]
      rfl
    · rw [if_neg hk, if_neg fun heq => hk heq.symm]
      rfl

theorem LogInv.sealAt (lawful : v.Lawful) (h : LogInv v log lay) {index : Nat}
    (hok : log.sealAt v index = .ok log') : ∃ lay', LogInv v log' lay' ∧ SameRecs lay lay' := by
  obtain ⟨active, files, l, -, -, h', hrecs⟩ := h.sealAt_update lawful hok
  exact ⟨_, h', sameRecs_update hrecs⟩

theorem LogInv.foldSealAt (lawful : v.Lawful) (h : LogInv v log lay) {indexes : List Nat}
    (hok : indexes.foldlM (fun log index => log.sealAt v index) log = .ok log') :
    ∃ lay', LogInv v log' lay' ∧ SameRecs lay lay' := by
  induction indexes generalizing log lay with
  | nil =>
    obtain rfl := Except.ok.inj hok
    exact ⟨lay, h, fun _ => rfl⟩
  | cons index indexes ih =>
    rw [List.foldlM_cons] at hok
    obtain ⟨next, hseal, hrest⟩ := bind_eq_ok.mp hok
    obtain ⟨lay₁, h₁, hsame₁⟩ := h.sealAt lawful hseal
    obtain ⟨lay₂, h₂, hsame₂⟩ := ih h₁ hrest
    exact ⟨lay₂, h₂, hsame₁.trans hsame₂⟩

/-! ## Writing -/

/-- What `setWriter` makes of the log, when the writer has written. -/
theorem LogInv.setWriter (h : LogInv v log lay) {index : Nat} {active : Active}
    (hindex : log.active[index]? = some active) {vol : Volume}
    (hvol : (lay active.key).current = some vol) (hnumber : vol.number = active.number)
    (hheld : vol.Held v active.writer) {w : PartWriter} {more : List Stored} {pending : List Rec}
    (hw : Writes v w vol.header (vol.blocks ++ more) pending) :
    LogInv v (log.setWriter index active w) (Function.update lay active.key
      { lay active.key with current := some (vol.grown w more pending) }) := by
  refine h.change active.key (some (active.number, w)) rfl ?_
    (h.distinct.set hindex rfl) rfl rfl ?_ ?_
  · intro k
    show Option.map _ (findKey Active.key k (log.active.set index { active with writer := w })) = _
    rw [findKey_set (b := { active with writer := w }) h.distinct hindex rfl]
    by_cases hk : k = active.key
    · rw [if_pos hk, if_pos hk.symm]
      rfl
    · rw [if_neg hk, if_neg fun heq => hk heq.symm]
      rfl
  · rw [← hnumber]
    exact (h.dirs active.key).write hvol hw
  · intro number isSealed held hold
    exact hold.write hvol hheld hw

theorem recs_grown {l : Layout} {vol : Volume} (hvol : l.current = some vol) (w : PartWriter)
    {more : List Stored} {pending added : List Rec}
    (hrecs : recsOf more ++ pending = vol.pending ++ added) :
    (Layout.mk l.closed (some (vol.grown w more pending))).recs = l.recs ++ added := by
  simp [Layout.recs, Layout.volumes, hvol, Volume.grown, Volume.recs, hrecs]

/-- **Flushing one writer** keeps the log's records and leaves that writer's buffer
empty. -/
theorem LogInv.flushAt (lawful : v.Lawful) (h : LogInv v log lay) {index : Nat}
    (hok : log.flushAt v index = .ok log') : (∃ lay', LogInv v log' lay' ∧ SameRecs lay lay') ∧
      ∃ active : Active, active.writer.blockRecords = 0 ∧
        log'.active = log.active.set index active := by
  unfold Log.flushAt at hok
  cases hindex : log.active[index]? with
  | none =>
    rw [hindex] at hok
    cases hok
  | some active =>
    rw [hindex] at hok
    obtain ⟨w, hflush, hok⟩ := bind_eq_ok.mp hok
    obtain rfl := Except.ok.inj hok
    obtain ⟨vol, hvol, hnumber, hheld⟩ := h.active hindex
    obtain ⟨⟨more, hmore, hw⟩, -⟩ := hheld.writes.flush lawful hflush
    refine ⟨⟨_, h.setWriter hindex hvol hnumber hheld hw, sameRecs_update ?_⟩,
      { active with writer := w }, hw.blockRecords, rfl⟩
    have hkept : recsOf more ++ [] = vol.pending ++ [] := by rw [hmore]
    have hrecs := recs_grown hvol w hkept
    rwa [List.append_nil] at hrecs

/-! ## A new part -/

theorem DirHolds.fileAt_closed {disk : Disk} {key : DirKey} {writer : Option (Nat × PartWriter)}
    {l : Layout} (h : DirHolds v (disk.dirAt key) writer l) {vol : Volume} (hvol : vol ∈ l.closed) :
    disk.fileAt (vol.path key true) = some vol.files := by
  show (disk.dirAt key).sealedParts.get vol.number = _
  rw [SortedMap.get_eq_some_iff, h.sealedParts]
  exact List.mem_map_of_mem (f := Volume.entry) hvol

theorem DirHolds.fileAt_current {disk : Disk} {key : DirKey} {writer : Option (Nat × PartWriter)}
    {l : Layout} (h : DirHolds v (disk.dirAt key) writer l) {vol : Volume}
    (hvol : l.current = some vol) : disk.fileAt (vol.path key false) = some vol.files := by
  show (disk.dirAt key).openParts.get vol.number = _
  rw [SortedMap.get_eq_some_iff, h.openParts, hvol]
  exact List.mem_singleton_self _

/-- **Offsets go on where the directory's parts end**, when none of them is open. -/
theorem DirHolds.streamNextOffset {disk : Disk} {key : DirKey}
    {writer : Option (Nat × PartWriter)} {l : Layout} (h : DirHolds v (disk.dirAt key) writer l)
    (hnone : l.current = none) : disk.streamNextOffset v key = l.recs.length := by
  have hvolumes : l.volumes = l.closed := by
    rw [Layout.volumes, hnone, Option.toList_none, List.append_nil]
  have hchain := h.chained
  rw [hvolumes] at hchain
  rw [Disk.streamNextOffset, h.paths, hnone, Option.toList_none, List.map_nil, List.append_nil,
    Layout.recs, hvolumes]
  -- over the sealed parts, from the offset the next one starts at
  have hfold : ∀ (vols : List Volume) (first : Nat), (∀ vol ∈ vols, vol ∈ l.closed) →
      Chained first vols → (vols.map (Volume.path key true)).foldl (disk.laterStop v) first
        = first + (vols.flatMap Volume.recs).length := by
    intro vols
    induction vols with
    | nil => intro first _ _; rfl
    | cons vol vols ih =>
      intro first hmem hchain
      obtain ⟨hfirst, hrest⟩ := hchain
      have hclosed := hmem vol (by simp)
      obtain ⟨r, hopen, hanswers⟩ := (h.closed vol hclosed).opens none
      have hrecs : (recsOf vol.blocks).length = vol.recs.length := by
        rw [Volume.recs, (h.closed vol hclosed).pending, List.append_nil]
      have hstop : disk.laterStop v first (vol.path key true) = first + vol.recs.length := by
        unfold Disk.laterStop
        rw [h.fileAt_closed hclosed]
        dsimp only
        rw [show (vol.path key true).isSealed = true from rfl, hopen]
        dsimp only
        rw [hanswers.stop, hfirst, hrecs, Nat.max_eq_right (Nat.le_add_right _ _)]
      rw [List.map_cons, List.foldl_cons, hstop, ih _ (fun w hw => hmem w (by simp [hw])) hrest,
        List.flatMap_cons, List.length_append, Nat.add_assoc]
  rw [hfold l.closed 0 (fun _ hvol => hvol) hchain, Nat.zero_add]

theorem DirHolds.current_none {dir : Dir} {l : Layout} (h : DirHolds v dir none l) :
    l.current = none := by
  cases hcur : l.current with
  | none => rfl
  | some vol =>
    obtain ⟨w, hw, -⟩ := h.current vol hcur
    cases hw

/-- Offsets are `u64`s. -/
theorem DirHolds.recs_lt {dir : Dir} {writer : Option (Nat × PartWriter)} {l : Layout}
    (h : DirHolds v dir writer l) (hnone : l.current = none) : l.recs.length < 2 ^ 64 := by
  have hvolumes : l.volumes = l.closed := by
    rw [Layout.volumes, hnone, Option.toList_none, List.append_nil]
  have hchain := h.chained
  rw [Layout.recs, hvolumes]
  rw [hvolumes] at hchain
  rcases List.eq_nil_or_concat' l.closed with hnil | ⟨init, last, hsplit⟩
  · rw [hnil]
    decide
  · obtain ⟨hs, hpending⟩ := h.closed last (by rw [hsplit]; simp)
    have hfits := hs.nextFits
    rw [hsplit] at hchain ⊢
    have hfirst := (chained_append.mp hchain).2.1
    have hlen : last.recs.length = (recsOf last.blocks).length := by
      rw [Volume.recs, hpending, List.append_nil]
    rw [List.flatMap_append, List.length_append, List.flatMap_cons, List.flatMap_nil,
      List.append_nil, hlen]
    omega

/-- **Creating a part** in a directory without an open one keeps the log's records. -/
theorem LogInv.createPart (h : LogInv v log lay) (key : DirKey) {ts created : Nat}
    (hts : ts < 2 ^ 64) (hcreated : created < 2 ^ 64) (hbucket : key.bucket < 2 ^ 64)
    (hfree : log.writerAt key = none) (hok : log.createPart v key ts created = .ok log') :
    ∃ lay', LogInv v log' lay' ∧ SameRecs lay lay' := by
  obtain ⟨number, hnumber, hok⟩ := bind_eq_ok.mp hok
  obtain rfl := Except.ok.inj hok
  have hdir := h.dirs key
  have hnone : (lay key).current = none := by
    rw [hfree] at hdir
    exact hdir.current_none
  have hfirst := hdir.streamNextOffset hnone
  have hfits : PartHeader.Fits ⟨log.config.precision, key.bucket, ts,
      log.disk.streamNextOffset v key, created⟩ := by
    refine ⟨hbucket, hts, ?_, hcreated⟩
    show log.disk.streamNextOffset v key < 2 ^ 64
    rw [hfirst]
    exact hdir.recs_lt hnone
  have hw := writes_create (v := v) hfits log.config.blockBytes log.config.zstdLevel
    log.config.blockCodec log.config.dict
  have hnew : findKey Active.key key log.active = none := by
    cases hfound : findKey Active.key key log.active with
    | none => rfl
    | some active =>
      rw [Log.writerAt, hfound] at hfree
      cases hfree
  refine ⟨_, h.change key (some (number, _)) rfl ?_ (h.distinct.push hnew) rfl rfl
    (hdir.create hnone (hdir.freeNumber hnumber) hfirst hw)
    (fun _ _ _ hold => hold.create hnone), sameRecs_update (recs_create hnone)⟩
  intro k
  show Option.map _ (findKey Active.key k (log.active ++ [_])) = _
  rw [findKey_push hnew]
  show Option.map _ (if key = k then _ else _) = _
  by_cases hk : k = key
  · rw [if_pos hk, if_pos hk.symm]
    rfl
  · rw [if_neg hk, if_neg fun heq => hk heq.symm]
    rfl

theorem writerAt_none {key : DirKey}
    (hindex : log.activeIndex key = none) : log.writerAt key = none := by
  rw [Log.writerAt, findKey_of_findIdx hindex]
  rfl

/-- The sealed part's directory has no writer. -/
theorem LogInv.sealAt_writerAt (h : LogInv v log lay) {index : Nat} {active : Active}
    (hindex : log.active[index]? = some active) (hok : log.sealAt v index = .ok log') :
    log'.writerAt active.key = none := by
  unfold Log.sealAt at hok
  rw [hindex] at hok
  obtain ⟨⟨footer, files⟩, hseal, hok⟩ := bind_eq_ok.mp hok
  obtain rfl := Except.ok.inj hok
  show Option.map _ (findKey Active.key active.key (log.active.eraseIdx index)) = none
  rw [findKey_eraseIdx h.distinct hindex, if_pos rfl]
  rfl

/-- **`ensure_part`** keeps the log's records. -/
theorem LogInv.ensurePart (lawful : v.Lawful) (h : LogInv v log lay) {bucket ts created : Nat}
    {partition : Option String} (hts : ts < 2 ^ 64) (hcreated : created < 2 ^ 64)
    (hbucket : bucket < 2 ^ 64) (hok : log.ensurePart v bucket partition ts created = .ok log') :
    ∃ lay', LogInv v log' lay' ∧ SameRecs lay lay' := by
  obtain ⟨log₁, hstale, hok⟩ := bind_eq_ok.mp hok
  obtain ⟨lay₁, h₁, hsame₁⟩ := h.foldSealAt lawful hstale
  dsimp only at hok
  cases hindex : log₁.activeIndex (dirKey bucket partition) with
  | none =>
    rw [hindex] at hok
    obtain ⟨lay₂, h₂, hsame₂⟩ := h₁.createPart (dirKey bucket partition) hts hcreated hbucket (writerAt_none hindex) hok
    exact ⟨lay₂, h₂, hsame₁.trans hsame₂⟩
  | some index =>
    obtain ⟨active, hactive, hkey⟩ := getElem_of_findIdx hindex
    rw [hindex] at hok
    dsimp only at hok
    rw [hactive] at hok
    dsimp only at hok
    split at hok
    · obtain ⟨log₂, hseal, hok⟩ := bind_eq_ok.mp hok
      obtain ⟨lay₂, h₂, hsame₂⟩ := h₁.sealAt lawful hseal
      have hfree := h₁.sealAt_writerAt hactive hseal
      rw [hkey] at hfree
      obtain ⟨lay₃, h₃, hsame₃⟩ := h₂.createPart (dirKey bucket partition) hts hcreated hbucket hfree hok
      exact ⟨lay₃, h₃, (hsame₁.trans hsame₂).trans hsame₃⟩
    · obtain rfl := Except.ok.inj hok
      exact ⟨lay₁, h₁, hsame₁⟩

/-! ## Appending -/

/-- The strings the body promotes find room in the part it lands in. -/
def Log.RoomFor (v : Vendor) (log : Log) (clock created : Nat) (body : Body) : Prop :=
  ∀ landing, log.land v clock created body = .ok landing →
    FitsItems v landing.active.writer.dict body.items

instance Log.RoomFor.decidable (v : Vendor) (log : Log) (clock created : Nat) (body : Body) :
    Decidable (log.RoomFor v clock created body) :=
  inferInstanceAs (Decidable (∀ landing, log.land v clock created body = .ok landing →
    FitsItems v landing.active.writer.dict body.items))

theorem LogInv.now_lt (h : LogInv v log lay) {clock : Nat} (hclock : clock < 2 ^ 64)
    (partition : Option String) : log.now partition clock < 2 ^ 64 := by
  unfold Log.now
  cases hlast : log.lastTs.get (streamKey partition) with
  | none => exact hclock
  | some last =>
    have hlt := h.lastTs _ last hlast
    dsimp only
    omega

theorem bucketOf_le {config : Config} {ts bucket : Nat} (h : config.bucketOf ts = .ok bucket) :
    bucket ≤ ts := by
  unfold Config.bucketOf at h
  split at h
  · cases h
  · rw [← Except.ok.inj h]
    exact Nat.le_trans (Nat.div_le_self _ _) (Nat.div_le_self _ _)

/-- **Landing** keeps the log's records, and finds the writer of the directory. -/
theorem LogInv.land (lawful : v.Lawful) (h : LogInv v log lay) {clock created : Nat}
    {body : Body} {landing : Log.Landing} (hclock : clock < 2 ^ 64) (hcreated : created < 2 ^ 64)
    (hok : log.land v clock created body = .ok landing) :
    (∃ lay', LogInv v landing.log lay' ∧ SameRecs lay lay') ∧
      landing.log.active[landing.index]? = some landing.active ∧
      landing.active.key = dirKey landing.bucket landing.partition ∧ landing.ts < 2 ^ 64 := by
  obtain ⟨partition, hpartition, hok⟩ := bind_eq_ok.mp hok
  obtain ⟨bucket, hbucket, hok⟩ := bind_eq_ok.mp hok
  obtain ⟨log₁, hensure, hok⟩ := bind_eq_ok.mp hok
  have hts := h.now_lt hclock partition
  obtain ⟨lay₁, h₁, hsame₁⟩ := h.ensurePart lawful hts hcreated
    (Nat.lt_of_le_of_lt (bucketOf_le hbucket) hts) hensure
  cases hindex : log₁.activeIndex (dirKey bucket partition) with
  | none =>
    rw [hindex] at hok
    cases hok
  | some index =>
    obtain ⟨active, hactive, hkey⟩ := getElem_of_findIdx hindex
    rw [hindex] at hok
    dsimp only at hok
    rw [hactive] at hok
    obtain rfl := Except.ok.inj hok
    exact ⟨⟨lay₁, h₁, hsame₁⟩, hactive, hkey, hts⟩

/-- The next offset of a directory's open part is the number of its records. -/
theorem LogInv.length_recs (h : LogInv v log lay) {key : DirKey} {vol : Volume}
    (hvol : (lay key).current = some vol) :
    (lay key).recs.length = vol.header.firstOffset + vol.recs.length := by
  have hchain := (h.dirs key).chained
  rw [Layout.volumes, hvol] at hchain
  have hfirst := (chained_append.mp hchain).2.1
  rw [Layout.recs, Layout.volumes, hvol, hfirst]
  simp

/-- **An append** adds one record at the end of one directory, at the offset it answers. -/
theorem LogInv.append (lawful : v.Lawful) (h : LogInv v log lay) {clock created : Nat}
    {body : Body} {did : Log.Appended} (hclock : clock < 2 ^ 64) (hcreated : created < 2 ^ 64)
    (room : log.RoomFor v clock created body)
    (hok : log.append v clock created body = .ok (did, log')) :
    ∃ lay' ts enc, LogInv v log' lay' ∧
      did.row = (ts, (lay (dirKey did.bucket did.partition)).recs.length, body) ∧
      ∀ key, (lay' key).recs = (lay key).recs
        ++ if key = dirKey did.bucket did.partition then [⟨ts, enc, body⟩] else [] := by
  obtain ⟨landing, hland, hok⟩ := bind_eq_ok.mp hok
  obtain ⟨⟨offset, w⟩, happend, hok⟩ := bind_eq_ok.mp hok
  obtain ⟨rfl, rfl⟩ := Prod.mk.inj (Except.ok.inj hok)
  have hroom := room landing hland
  obtain ⟨⟨lay₁, h₁, hsame₁⟩, hactive, hkey, hts⟩ := h.land lawful hclock hcreated hland
  obtain ⟨vol, hvol, hnumber, hheld⟩ := h₁.active hactive
  obtain ⟨hoffset, ⟨enc, more, pending, hw, hrecs⟩, -⟩ :=
    hheld.writes.append lawful hts hroom happend
  have hset := h₁.setWriter hactive hvol hnumber hheld hw
  have hgrown := recs_grown hvol w hrecs
  rw [hkey] at hset hvol hgrown
  refine ⟨_, landing.ts, enc, ⟨hset.dirs, hset.distinct, hset.held, ?_⟩, ?_, ?_⟩
  · intro p ts hget
    show ts < 2 ^ 64
    rw [SortedMap.get_insert] at hget
    split at hget
    · rw [← Option.some.inj hget]
      exact hts
    · exact h₁.lastTs p ts hget
  · show (_, offset, body) = _
    rw [← hsame₁, h₁.length_recs hvol, hoffset]
    rfl
  · intro key
    by_cases hk : key = dirKey landing.bucket landing.partition
    · subst hk
      rw [Function.update_self, hgrown, hsame₁, if_pos rfl]
    · rw [Function.update_of_ne hk, hsame₁, if_neg hk, List.append_nil]

/-! ## Flushing and sealing all, and retention -/

/-- **`flush`** keeps the log's records and leaves no buffer with any. -/
theorem LogInv.flush (lawful : v.Lawful) (h : LogInv v log lay) (hok : log.flush v = .ok log') :
    (∃ lay', LogInv v log' lay' ∧ SameRecs lay lay') ∧
      ∀ active ∈ log'.active, active.writer.blockRecords = 0 := by
  -- the writers before the index are flushed
  have hfold : ∀ n log', (List.range n).foldlM (fun log index => log.flushAt v index) log = .ok log' →
      (∃ lay', LogInv v log' lay' ∧ SameRecs lay lay') ∧ log'.active.length = log.active.length ∧
        ∀ i active, i < n → log'.active[i]? = some active → active.writer.blockRecords = 0 := by
    intro n
    induction n with
    | zero =>
      intro log' hok
      obtain rfl := Except.ok.inj hok
      exact ⟨⟨lay, h, fun _ => rfl⟩, rfl, fun i active hi => absurd hi (Nat.not_lt_zero i)⟩
    | succ n ih =>
      intro log' hok
      rw [List.range_succ, List.foldlM_append] at hok
      obtain ⟨log₁, hfirst, hok⟩ := bind_eq_ok.mp hok
      obtain ⟨⟨lay₁, h₁, hsame₁⟩, hlen₁, hflushed₁⟩ := ih log₁ hfirst
      rw [List.foldlM_cons] at hok
      obtain ⟨log₂, hlast, hok⟩ := bind_eq_ok.mp hok
      obtain rfl := Except.ok.inj hok
      obtain ⟨⟨lay₂, h₂, hsame₂⟩, flushed, hzero, hactive⟩ := h₁.flushAt lawful hlast
      refine ⟨⟨lay₂, h₂, hsame₁.trans hsame₂⟩, ?_, ?_⟩
      · rw [hactive, List.length_set, hlen₁]
      · intro i active hi hget
        rw [hactive] at hget
        by_cases hin : i = n
        · subst hin
          rcases Nat.lt_or_ge i log₁.active.length with hlt | hge
          · rw [List.getElem?_set_self hlt] at hget
            rw [← Option.some.inj hget]
            exact hzero
          · rw [List.getElem?_eq_none (by simpa using hge)] at hget
            cases hget
        · rw [List.getElem?_set_ne (Ne.symm hin)] at hget
          exact hflushed₁ i active (by omega) hget
  obtain ⟨hlay, hlen, hflushed⟩ := hfold log.active.length log' hok
  refine ⟨hlay, ?_⟩
  intro active hmem
  obtain ⟨i, hi, hget⟩ := List.mem_iff_getElem.mp hmem
  exact hflushed i active (by omega) (by rw [← hget]; exact List.getElem?_eq_getElem hi)

/-- A log whose cache was dropped. -/
theorem LogInv.clear (h : LogInv v log lay) : LogInv v { log with cache := [] } lay :=
  ⟨h.dirs, h.distinct, fun _ he => (by cases he), h.lastTs⟩

/-- **`seal`** keeps the log's records. -/
theorem LogInv.sealAll (lawful : v.Lawful) (h : LogInv v log lay)
    (hok : log.sealAll v = .ok log') : ∃ lay', LogInv v log' lay' ∧ SameRecs lay lay' := by
  have hfold : ∀ (actives : List Active) (log : Log) (lay : DirKey → Layout), LogInv v log lay →
      actives.foldlM (fun log _ => log.sealAt v 0) log = .ok log' →
      ∃ lay', LogInv v log' lay' ∧ SameRecs lay lay' := by
    intro actives
    induction actives with
    | nil =>
      intro log lay h hok
      obtain rfl := Except.ok.inj hok
      exact ⟨lay, h, fun _ => rfl⟩
    | cons active actives ih =>
      intro log lay h hok
      rw [List.foldlM_cons] at hok
      obtain ⟨log₁, hseal, hok⟩ := bind_eq_ok.mp hok
      obtain ⟨lay₁, h₁, hsame₁⟩ := h.sealAt lawful hseal
      obtain ⟨lay₂, h₂, hsame₂⟩ := ih log₁ lay₁ h₁ hok
      exact ⟨lay₂, h₂, hsame₁.trans hsame₂⟩
  exact hfold log.active _ lay h.clear hok

/-- **Retention** empties the directories of the buckets it drops, and nothing else. -/
theorem LogInv.retainBefore (lawful : v.Lawful) (h : LogInv v log lay) {ts : Nat}
    {buckets : List Nat} (hok : log.retainBefore v ts = .ok (buckets, log')) :
    ∃ lay', LogInv v log' lay' ∧
      ∀ key, (lay' key).recs = if key.bucket ∈ buckets then [] else (lay key).recs := by
  obtain ⟨cutoff, hcutoff, hok⟩ := bind_eq_ok.mp hok
  obtain ⟨log₁, hstale, hok⟩ := bind_eq_ok.mp hok
  obtain ⟨rfl, rfl⟩ := Prod.mk.inj (Except.ok.inj hok)
  obtain ⟨lay₁, h₁, hsame₁⟩ := h.foldSealAt lawful hstale
  refine ⟨fun key => if key.bucket ∈ log₁.dropped cutoff then Layout.empty else lay₁ key,
    ⟨?_, h₁.distinct, fun _ he => (by cases he), h₁.lastTs⟩, ?_⟩
  · intro key
    show DirHolds v (((log₁.disk.restrict _).get key).getD Dir.empty) (log₁.writerAt key) _
    rw [SortedMap.get_restrict]
    by_cases hkey : key.bucket ∈ log₁.dropped cutoff
    · -- a dropped bucket has no writer
      have hwriter : log₁.writerAt key = none := by
        have hdropped := (List.mem_filter.mp (List.mem_dedup.mp hkey)).2
        have hfree := (of_decide_eq_true hdropped).2
        cases hfound : findKey Active.key key log₁.active with
        | none =>
          rw [Log.writerAt, hfound]
          rfl
        | some active =>
          obtain ⟨hmem, hsame⟩ := mem_of_findKey hfound
          exact absurd (congrArg DirKey.bucket hsame) (hfree active hmem)
      rw [if_pos hkey, if_neg (by simpa using hkey), hwriter]
      exact dirHolds_empty
    · rw [if_neg hkey, if_pos (by simpa using hkey)]
      exact h₁.dirs key
  · intro key
    dsimp only
    split
    · rfl
    · exact hsame₁ key

end

end Okm.Series
