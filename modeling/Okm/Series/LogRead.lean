import Mathlib.Data.List.Perm.Basic
import Okm.Series.LogInv

/-!
# What a read of the log answers

A read walks the parts by the offset they start at and takes from each what its
reader answers. Every reader it uses, held or opened anew, answers the volume that
stands under the path (`readerFor_ok`), so the walk answers the wanted rows of the
volumes it covers (`readParts_ok`). In what order is a matter of the sort alone: it is
stable, so parts that already stand in offset order come out as they stand.
-/

namespace Okm.Series

open Lib Model

variable {v : Vendor} {lay : DirKey → Layout}

/-- A part on disk, by the name it has. -/
inductive Stands (lay : DirKey → Layout) : PartPath → Volume → Prop where
  | closed {key : DirKey} {vol : Volume} :
      vol ∈ (lay key).closed → Stands lay (vol.path key true) vol
  | current {key : DirKey} {vol : Volume} :
      (lay key).current = some vol → Stands lay (vol.path key false) vol

/-- Every reader the cache holds is good. -/
def CacheOk (v : Vendor) (lay : DirKey → Layout) (cache : Cache) : Prop :=
  ∀ e ∈ cache, HeldOk v (lay e.1.dir) e.1.number e.2 e.1.isSealed

/-- The disk holds these volumes, whoever writes them. -/
def DiskHolds (v : Vendor) (disk : Disk) (lay : DirKey → Layout) : Prop :=
  ∀ key, ∃ writer, DirHolds v (disk.dirAt key) writer (lay key)

theorem LogInv.diskHolds {log : Log} (h : LogInv v log lay) : DiskHolds v log.disk lay :=
  fun key => ⟨_, h.dirs key⟩

theorem DirHolds.number_inj {dir : Dir} {writer : Option (Nat × PartWriter)} {l : Layout}
    (h : DirHolds v dir writer l) {a b : Volume} (ha : a ∈ l.volumes) (hb : b ∈ l.volumes)
    (hnumber : a.number = b.number) : a = b := by
  have hnodup : (l.volumes.map Volume.number).Nodup := h.numbers.imp fun hlt => Nat.ne_of_lt hlt
  exact List.inj_on_of_nodup_map hnodup ha hb hnumber

theorem Stands.volume_mem {path : PartPath} {vol : Volume} (stands : Stands lay path vol) :
    vol ∈ (lay path.dir).volumes := by
  cases stands with
  | closed hvol => exact mem_volumes.mpr (Or.inl hvol)
  | current hvol => exact mem_volumes.mpr (Or.inr hvol)

/-! ## One part -/

theorem Stands.fileAt {disk : Disk} {path : PartPath} {vol : Volume} (hdisk : DiskHolds v disk lay)
    (stands : Stands lay path vol) : disk.fileAt path = some vol.files := by
  cases stands with
  | @closed key vol hvol =>
    obtain ⟨writer, hdir⟩ := hdisk key
    exact hdir.fileAt_closed hvol
  | @current key vol hvol =>
    obtain ⟨writer, hdir⟩ := hdisk key
    exact hdir.fileAt_current hvol

theorem Stands.opens {disk : Disk} {path : PartPath} {vol : Volume} (hdisk : DiskHolds v disk lay)
    (stands : Stands lay path vol) (config : Option DictConfig) :
    ∃ r, PartReader.openPart v vol.files path.isSealed config = .ok r ∧ vol.AnsweredBy v r := by
  cases stands with
  | @closed key vol hvol =>
    obtain ⟨writer, hdir⟩ := hdisk key
    exact (hdir.closed vol hvol).opens config
  | @current key vol hvol =>
    obtain ⟨writer, hdir⟩ := hdisk key
    obtain ⟨w, -, hheld⟩ := hdir.current vol hvol
    exact hheld.opens config

/-- The header of a part says where its offsets start. -/
theorem Stands.firstOffsetOf {disk : Disk} {path : PartPath} {vol : Volume}
    (hdisk : DiskHolds v disk lay) (stands : Stands lay path vol) :
    disk.firstOffsetOf path = .ok vol.header.firstOffset := by
  have hheader : PartWriter.readHeader vol.files.data = .ok vol.header := by
    cases stands with
    | @closed key vol hvol =>
      obtain ⟨writer, hdir⟩ := hdisk key
      have hs := (hdir.closed vol hvol).holds
      obtain ⟨footer, -, -, -, hdata⟩ := hs.footer
      rw [hdata]
      exact readHeader_dataOf hs.fits
    | @current key vol hvol =>
      obtain ⟨writer, hdir⟩ := hdisk key
      obtain ⟨w, -, hfiles, hw⟩ := hdir.current vol hvol
      have hdata : vol.files.data = dataOf vol.header vol.blocks [] := by
        rw [← hfiles]
        exact hw.data
      rw [hdata]
      exact readHeader_dataOf hw.fits
  rw [Disk.firstOffsetOf, stands.fileAt hdisk]
  dsimp only
  rw [hheader]
  rfl

theorem CacheOk.hold {cache : Cache} (h : CacheOk v lay cache) {path : PartPath}
    {held : CachedReader} (hnew : HeldOk v (lay path.dir) path.number held path.isSealed) :
    CacheOk v lay (cache.hold path held) := by
  intro e he
  unfold Cache.hold at he
  rcases List.mem_cons.mp he with rfl | he
  · exact hnew
  · have hmem := (List.mem_filter.mp he).1
    split at hmem
    · cases hmem
    · exact h e hmem

theorem find_mem {cache : Cache} {path : PartPath} {held : CachedReader}
    (h : cache.find path = some held) : (path, held) ∈ cache := by
  unfold Cache.find at h
  obtain ⟨e, he, rfl⟩ := Option.map_eq_some_iff.mp h
  have hpath := List.find?_some he
  obtain rfl := of_decide_eq_true hpath
  exact List.mem_of_find?_eq_some he

/-- **A reader held for a part answers it**, when the data file has the length it was
opened at. -/
theorem Stands.held_answers {disk : Disk} {path : PartPath} {vol : Volume} {held : CachedReader}
    (hdisk : DiskHolds v disk lay) (stands : Stands lay path vol)
    (hheld : HeldOk v (lay path.dir) path.number held path.isSealed)
    (hbytes : held.bytes = vol.files.data.length) : vol.AnsweredBy v held.reader := by
  cases stands with
  | @closed key vol hvol =>
    obtain ⟨writer, hdir⟩ := hdisk key
    cases hheld with
    | @closed found hfound hnumber hgood =>
      rwa [hdir.number_inj (mem_volumes.mpr (Or.inl hfound)) (mem_volumes.mpr (Or.inl hvol))
        hnumber] at hgood
  | @current key vol hvol =>
    obtain ⟨writer, hdir⟩ := hdisk key
    cases hheld with
    | @current found hfound hnumber hle hgood =>
      obtain rfl := Option.some.inj (hvol.symm.trans hfound)
      exact hgood hbytes
    | @renamed found hfound hnumber =>
      -- the open part has a number of its own
      have hsame := hdir.number_inj (mem_volumes.mpr (Or.inl hfound))
        (mem_volumes.mpr (Or.inr hvol)) hnumber
      have hnumbers := hdir.numbers
      rw [Layout.volumes, hvol, List.map_append] at hnumbers
      have hlt := (List.pairwise_append.mp hnumbers).2.2 found.number
        (List.mem_map_of_mem hfound) vol.number (by simp)
      exact absurd hlt (by rw [hnumber]; exact Nat.lt_irrefl _)

/-- **`reader_for`** answers with a reader that answers the part, and the cache stays
good. -/
theorem readerFor_ok {disk : Disk} {cache : Cache} {path : PartPath} {vol : Volume}
    (hdisk : DiskHolds v disk lay) (hcache : CacheOk v lay cache) (stands : Stands lay path vol)
    (dict : Option DictConfig) :
    ∃ r cache', readerFor v dict vol.files cache path = .ok (r, cache') ∧ vol.AnsweredBy v r ∧
      CacheOk v lay cache' := by
  obtain ⟨r, hopen, hanswers⟩ := stands.opens hdisk dict
  have hnew : HeldOk v (lay path.dir) path.number ⟨vol.files.data.length, r⟩ path.isSealed := by
    cases stands with
    | closed hvol => exact .closed hvol rfl hanswers
    | current hvol => exact .current hvol rfl (Nat.le_refl _) fun _ => hanswers
  have hopened : (do
      let reader ← PartReader.openPart v vol.files path.isSealed dict
      Except.ok (reader, cache.hold path ⟨vol.files.data.length, reader⟩) :
        Except Error (PartReader × Cache))
      = .ok (r, cache.hold path ⟨vol.files.data.length, r⟩) := by
    rw [hopen]
    rfl
  unfold readerFor
  dsimp only
  cases hfind : cache.find path with
  | none => exact ⟨r, _, hopened, hanswers, hcache.hold hnew⟩
  | some held =>
    dsimp only
    by_cases hbytes : held.bytes = vol.files.data.length
    · rw [if_pos hbytes]
      exact ⟨held.reader, cache, rfl,
        stands.held_answers hdisk (hcache _ (find_mem hfind)) hbytes, hcache⟩
    · rw [if_neg hbytes]
      exact ⟨r, _, hopened, hanswers, hcache.hold hnew⟩

/-! ## The walk -/

/-- The rows in the files of a part. -/
def Volume.flushedRows (vol : Volume) : List Row :=
  rowsOf vol.header.firstOffset (recsOf vol.blocks)

/-- The part belongs to a stream the read covers. -/
def Which.coversPart (which : Which) (p : PartPath × Volume) : Bool :=
  which.covers p.1.dir.partition

/-- **The walk over parts** answers the wanted rows of those it covers, up to the
limit. -/
theorem readParts_ok {disk : Disk} (hdisk : DiskHolds v disk lay) (dict : Option DictConfig)
    (which : Which) (query : Query) (limit : Nat) {parts : List (PartPath × Volume)}
    (hparts : ∀ p ∈ parts, Stands lay p.1 p.2) {cache : Cache} (hcache : CacheOk v lay cache)
    (rows : List Row) :
    ∃ cache', readParts v dict disk which limit (query.visit v limit) (parts.map Prod.fst) cache rows
        = .ok (fill limit rows ((parts.filter which.coversPart).flatMap
            fun p => query.select.want p.2.flushedRows), cache') ∧ CacheOk v lay cache' := by
  induction parts generalizing cache rows with
  | nil =>
    refine ⟨cache, ?_, hcache⟩
    simp [readParts]
  | cons p parts ih =>
    have hrest := fun q hq => hparts q (List.mem_cons_of_mem p hq)
    rw [List.map_cons]
    unfold readParts
    by_cases hfull : limit ≤ rows.length
    · rw [if_pos hfull, fill_full hfull]
      exact ⟨cache, rfl, hcache⟩
    · rw [if_neg hfull]
      by_cases hcovers : which.coversPart p = true
      · obtain ⟨r, cache₁, hreader, hanswers, hcache₁⟩ :=
          readerFor_ok hdisk hcache (hparts p (by simp)) dict
        have hvisit := Answers.visit hanswers query limit rows
        obtain ⟨cache₂, hwalk, hcache₂⟩ := ih hrest hcache₁
          (fill limit rows (query.select.want p.2.flushedRows))
        refine ⟨cache₂, ?_, hcache₂⟩
        rw [if_pos (show which.covers p.1.dir.partition = true from hcovers), (hparts p (by simp)).fileAt hdisk]
        show (readerFor v dict p.2.files cache p.1 >>= _) = _
        rw [hreader]
        show (query.visit v limit r p.2.files.data rows >>= _) = _
        rw [hvisit]
        show readParts v dict disk which limit _ _ cache₁ _ = _
        rw [List.filter_cons_of_pos hcovers, List.flatMap_cons, ← fill_append, ← hwalk]
        rfl
      · obtain ⟨cache₁, hwalk, hcache₁⟩ := ih hrest hcache rows
        refine ⟨cache₁, ?_, hcache₁⟩
        rw [if_neg (show ¬ which.covers p.1.dir.partition = true from hcovers),
          List.filter_cons_of_neg hcovers]
        exact hwalk

/-! ## The order of the walk -/

/-- The parts of a directory, by name. -/
def Layout.named (key : DirKey) (l : Layout) : List (PartPath × Volume) :=
  l.closed.map (fun vol => (vol.path key true, vol))
    ++ l.current.toList.map fun vol => (vol.path key false, vol)

/-- The parts on disk, in the order of `all_parts`. -/
def standing (disk : Disk) (lay : DirKey → Layout) : List (PartPath × Volume) :=
  disk.entries.flatMap fun e => (lay e.1).named e.1

theorem stands_of_named {key : DirKey} {p : PartPath × Volume} (hp : p ∈ (lay key).named key) :
    Stands lay p.1 p.2 ∧ p.1.dir = key ∧ p.2 ∈ (lay key).volumes := by
  rcases List.mem_append.mp hp with hp | hp
  · obtain ⟨vol, hvol, rfl⟩ := List.mem_map.mp hp
    exact ⟨.closed hvol, rfl, mem_volumes.mpr (Or.inl hvol)⟩
  · obtain ⟨vol, hvol, rfl⟩ := List.mem_map.mp hp
    have hcur := Option.mem_toList.mp hvol
    exact ⟨.current hcur, rfl, mem_volumes.mpr (Or.inr hcur)⟩

theorem stands_of_standing {disk : Disk} {p : PartPath × Volume} (hp : p ∈ standing disk lay) :
    Stands lay p.1 p.2 := by
  obtain ⟨e, -, hp⟩ := List.mem_flatMap.mp hp
  exact (stands_of_named hp).1

theorem dirAt_of_mem {disk : Disk} {e : DirKey × Dir} (he : e ∈ disk.entries) :
    disk.dirAt e.1 = e.2 := by
  rw [Disk.dirAt, (SortedMap.get_eq_some_iff disk e.1 e.2).mpr he]
  rfl

theorem allParts_eq {disk : Disk} (hdisk : DiskHolds v disk lay) :
    disk.allParts = (standing disk lay).map Prod.fst := by
  rw [Disk.allParts, standing, List.map_flatMap]
  refine List.flatMap_congr ?_
  intro e he
  obtain ⟨writer, hdir⟩ := hdisk e.1
  rw [dirAt_of_mem he] at hdir
  rw [hdir.paths, Layout.named, List.map_append, List.map_map, List.map_map]
  rfl

/-- The offset a part starts at comes before or at that of another. -/
def startsBefore (p q : PartPath × Volume) : Prop := p.2.header.firstOffset ≤ q.2.header.firstOffset

instance startsBefore_decidable : DecidableRel startsBefore := fun _ _ =>
  inferInstanceAs (Decidable (_ ≤ _))

/-- **`parts_by_offset`** is the standing parts, sorted by the offset they start at. -/
theorem partsByOffset_eq {disk : Disk} (hdisk : DiskHolds v disk lay) :
    disk.partsByOffset = ((standing disk lay).insertionSort startsBefore).map Prod.fst := by
  have hkeyed : disk.keyed = (standing disk lay).map fun p => (p.2.header.firstOffset, p.1) := by
    have hall : ∀ parts : List (PartPath × Volume), (∀ p ∈ parts, Stands lay p.1 p.2) →
        (parts.map Prod.fst).filterMap disk.keyedPart
          = parts.map fun p => (p.2.header.firstOffset, p.1) := by
      intro parts
      induction parts with
      | nil => intro _; rfl
      | cons p parts ih =>
        intro hparts
        have hfirst : disk.keyedPart p.1 = some (p.2.header.firstOffset, p.1) := by
          rw [Disk.keyedPart, (hparts p (by simp)).firstOffsetOf hdisk]
        rw [List.map_cons, List.filterMap_cons, hfirst, List.map_cons,
          ← ih fun q hq => hparts q (List.mem_cons_of_mem p hq)]
    rw [Disk.keyed, allParts_eq hdisk, ← hall _ fun p hp => stands_of_standing hp]
  rw [Disk.partsByOffset, hkeyed,
    ← List.map_insertionSort (r := startsBefore) (s := fun a b : Nat × PartPath => a.1 ≤ b.1)
      (fun p : PartPath × Volume => (p.2.header.firstOffset, p.1)) (standing disk lay)
      fun _ _ _ _ => Iff.rfl, List.map_map]
  rfl

/-! ## What a directory answers -/

/-- The rows in the files of a directory. -/
def Layout.flushedRows (l : Layout) : List Row := l.volumes.flatMap Volume.flushedRows

/-- The records of a directory that are in no block yet. -/
def Layout.pending (l : Layout) : List Rec := (l.current.map Volume.pending).getD []

theorem rows_chained {first : Nat} {vols : List Volume} (h : Chained first vols) :
    vols.flatMap (fun vol => rowsOf vol.header.firstOffset vol.recs)
      = rowsOf first (vols.flatMap Volume.recs) := by
  induction vols generalizing first with
  | nil => rfl
  | cons vol vols ih =>
    obtain ⟨hfirst, hrest⟩ := h
    rw [List.flatMap_cons, List.flatMap_cons, rowsOf_append, ih hrest, hfirst]

theorem pairwise_chained {first : Nat} {vols : List Volume} (h : Chained first vols) :
    vols.Pairwise (fun a b => a.header.firstOffset ≤ b.header.firstOffset) ∧
      ∀ vol ∈ vols, first ≤ vol.header.firstOffset := by
  induction vols generalizing first with
  | nil => exact ⟨List.Pairwise.nil, by simp⟩
  | cons vol vols ih =>
    obtain ⟨hfirst, hrest⟩ := h
    obtain ⟨hpair, hle⟩ := ih hrest
    refine ⟨List.pairwise_cons.mpr ⟨fun w hw => ?_, hpair⟩, ?_⟩
    · have hw := hle w hw
      omega
    · intro w hw
      rcases List.mem_cons.mp hw with rfl | hw
      · exact Nat.le_of_eq hfirst.symm
      · have hw := hle w hw
        omega

section

variable {dir : Dir} {writer : Option (Nat × PartWriter)} {l : Layout}

/-- Only the open part has anything pending. -/
theorem DirHolds.rows (h : DirHolds v dir writer l) :
    ∃ flushed, l.recs = flushed ++ l.pending ∧ l.flushedRows = rowsOf 0 flushed := by
  have hclosed : ∀ vols : List Volume, (∀ vol ∈ vols, vol ∈ l.closed) →
      vols.flatMap Volume.flushedRows
        = vols.flatMap (fun vol => rowsOf vol.header.firstOffset vol.recs) := by
    intro vols hvols
    refine List.flatMap_congr ?_
    intro vol hvol
    rw [Volume.flushedRows, Volume.recs, (h.closed vol (hvols vol hvol)).pending, List.append_nil]
  have hchain := h.chained
  rw [Layout.volumes] at hchain
  obtain ⟨hold, hnew⟩ := chained_append.mp hchain
  have hrows := (hclosed l.closed fun _ hvol => hvol).trans (rows_chained hold)
  cases hcur : l.current with
  | none =>
    refine ⟨l.closed.flatMap Volume.recs, ?_, ?_⟩
    · simp [Layout.recs, Layout.volumes, Layout.pending, hcur]
    · rw [Layout.flushedRows, Layout.volumes, hcur, Option.toList_none, List.append_nil, hrows]
  | some vol =>
    rw [hcur] at hnew
    refine ⟨l.closed.flatMap Volume.recs ++ recsOf vol.blocks, ?_, ?_⟩
    · simp [Layout.recs, Layout.volumes, Layout.pending, hcur, Volume.recs, List.append_assoc]
    · have hfirst : vol.header.firstOffset = 0 + (l.closed.flatMap Volume.recs).length := hnew.1
      rw [Layout.flushedRows, Layout.volumes, hcur, List.flatMap_append, hrows, rowsOf_append,
        ← hfirst]
      show _ ++ (vol.flushedRows ++ []) = _
      rw [List.append_nil]
      rfl

/-- The writer's counter is the number of records pending. -/
theorem DirHolds.pending_length (h : DirHolds v dir writer l) :
    l.pending.length = (writer.map fun w => w.2.blockRecords).getD 0 := by
  cases hcur : l.current with
  | none =>
    rw [h.writer hcur, Layout.pending, hcur]
    rfl
  | some vol =>
    obtain ⟨w, rfl, hheld⟩ := h.current vol hcur
    rw [Layout.pending, hcur]
    exact hheld.writes.blockRecords.symm

end

/-- The records of a directory that no block holds yet, as its writer counts them. -/
def Log.pendingAt (log : Log) (key : DirKey) : Nat :=
  ((log.writerAt key).map fun w => w.2.blockRecords).getD 0

/-- **The files hold all but what is pending.** -/
theorem LogInv.flushedRows {log : Log} (h : LogInv v log lay) (key : DirKey) :
    (lay key).flushedRows
      = (rowsOf 0 (lay key).recs).take ((lay key).recs.length - log.pendingAt key) := by
  obtain ⟨flushed, hrecs, hrows⟩ := (h.dirs key).rows
  have hpending : log.pendingAt key = (lay key).pending.length := (h.dirs key).pending_length.symm
  rw [hrows, hpending, hrecs, rowsOf_append, List.length_append, Nat.add_sub_cancel,
    List.take_left' (length_rowsOf 0 flushed)]

/-! ## One stream -/

/-- A directory that is not on disk holds nothing. -/
theorem DiskHolds.volumes_nil {disk : Disk} (hdisk : DiskHolds v disk lay) {key : DirKey}
    (hnone : disk.get key = none) : (lay key).volumes = [] := by
  obtain ⟨writer, hdir⟩ := hdisk key
  have hdirAt : disk.dirAt key = Dir.empty := by
    rw [Disk.dirAt, hnone]
    rfl
  have hclosed : (lay key).closed = [] := by
    have h := hdir.sealedParts
    rw [hdirAt] at h
    exact List.map_eq_nil_iff.mp h.symm
  have hcurrent : (lay key).current.toList = [] := by
    have h := hdir.openParts
    rw [hdirAt] at h
    exact List.map_eq_nil_iff.mp h.symm
  rw [Layout.volumes, hclosed, hcurrent]
  rfl

/-- The parts of a directory, in the order of the listing. -/
theorem filter_standing {disk : Disk} (hdisk : DiskHolds v disk lay) (key : DirKey) :
    (standing disk lay).filter (fun p => p.1.dir = key) = (lay key).named key := by
  rw [standing, List.filter_flatMap]
  refine (SortedMap.flatMap_single disk (k := key)
    (f := fun k => ((lay k).named k).filter fun p => p.1.dir = key) ?_ ?_).trans ?_
  · intro e _ hne
    refine List.filter_eq_nil_iff.mpr ?_
    intro p hp hdir
    rw [(stands_of_named hp).2.1] at hdir
    exact hne (of_decide_eq_true hdir)
  · intro hnone
    obtain ⟨hclosed, hcurrent⟩ := List.append_eq_nil_iff.mp (hdisk.volumes_nil hnone)
    rw [Layout.named, hclosed, hcurrent]
    rfl
  · refine List.filter_eq_self.mpr ?_
    intro p hp
    exact decide_eq_true (stands_of_named hp).2.1

/-- The parts of a directory already stand in offset order, and the sort leaves them
there. -/
theorem filter_sorted {disk : Disk} (hdisk : DiskHolds v disk lay) (key : DirKey) :
    ((standing disk lay).insertionSort startsBefore).filter (fun p => p.1.dir = key)
      = (lay key).named key := by
  have hfilter := filter_standing hdisk key
  obtain ⟨writer, hdir⟩ := hdisk key
  have hpair : ((lay key).named key).Pairwise startsBefore := by
    have hmap : ((lay key).named key).map Prod.snd = (lay key).volumes := by
      rw [Layout.named, List.map_append, List.map_map, List.map_map, Layout.volumes]
      show (lay key).closed.map id ++ (lay key).current.toList.map id = _
      rw [List.map_id, List.map_id]
    have h := (pairwise_chained hdir.chained).1
    rw [← hmap, List.pairwise_map] at h
    exact h
  have hsub : ((lay key).named key).Sublist ((standing disk lay).insertionSort startsBefore) :=
    List.sublist_insertionSort hpair (by rw [← hfilter]; exact List.filter_sublist)
  have hkeep : ((lay key).named key).filter (fun p => p.1.dir = key) = (lay key).named key := by
    rw [← hfilter, List.filter_filter]
    simp
  have hsame := hsub.filter fun p => p.1.dir = key
  rw [hkeep] at hsame
  refine (hsame.eq_of_length ?_).symm
  rw [← hfilter]
  exact ((List.perm_insertionSort startsBefore (standing disk lay)).filter _).length_eq.symm

theorem flatMap_filter_of_nil {α β : Type} {keep : α → Bool} {f : α → List β} {l : List α}
    (h : ∀ a ∈ l, keep a = false → f a = []) : (l.filter keep).flatMap f = l.flatMap f := by
  induction l with
  | nil => rfl
  | cons a l ih =>
    have hrest := ih fun b hb => h b (List.mem_cons_of_mem a hb)
    cases hkeep : keep a with
    | true => rw [List.filter_cons_of_pos hkeep, List.flatMap_cons, List.flatMap_cons, hrest]
    | false =>
      rw [List.filter_cons_of_neg (by simp [hkeep]), List.flatMap_cons, h a (by simp) hkeep, hrest,
        List.nil_append]

/-- **The read of one stream**, when only one directory has rows of it: the first wanted
rows in its files, in offset order. -/
theorem readStream_ok {disk : Disk} (hdisk : DiskHolds v disk lay) {cache : Cache}
    (hcache : CacheOk v lay cache) {key : DirKey}
    (halone : ∀ k : DirKey, k.partition = key.partition → k ≠ key → (lay k).flushedRows = [])
    (dict : Option DictConfig) (query : Query) (limit : Nat) :
    ∃ cache', readStreams v dict disk cache (.stream key.partition) query limit
        = .ok ((query.select.want (lay key).flushedRows).take limit, cache') ∧
      CacheOk v lay cache' := by
  have hstands : ∀ p ∈ (standing disk lay).insertionSort startsBefore, Stands lay p.1 p.2 :=
    fun p hp => stands_of_standing ((List.mem_insertionSort startsBefore).mp hp)
  obtain ⟨cache', hwalk, hcache'⟩ := readParts_ok hdisk dict (.stream key.partition) query limit
    hstands hcache []
  refine ⟨cache', ?_, hcache'⟩
  -- of the parts the read covers only those of the directory have rows
  have hrows : (((standing disk lay).insertionSort startsBefore).filter
      (Which.stream key.partition).coversPart).flatMap (fun p => query.select.want p.2.flushedRows)
      = query.select.want (lay key).flushedRows := by
    have honly : ((((standing disk lay).insertionSort startsBefore).filter
        (Which.stream key.partition).coversPart).filter fun p => p.1.dir = key)
        = (lay key).named key := by
      rw [List.filter_filter, ← filter_sorted hdisk key]
      refine List.filter_congr ?_
      intro p _
      by_cases hkey : p.1.dir = key
      · simp [hkey, Which.coversPart, Which.covers]
      · simp [hkey]
    rw [← flatMap_filter_of_nil ?_, honly]
    · rw [Select.want, Layout.flushedRows, Layout.volumes, List.filter_flatMap, Layout.named,
        List.flatMap_append, List.flatMap_append, List.flatMap_map, List.flatMap_map]
      rfl
    · intro p hp hkey
      obtain ⟨hp, hcovers⟩ := List.mem_filter.mp hp
      have hpart : p.1.dir.partition = key.partition := of_decide_eq_true hcovers
      have hnil := halone p.1.dir hpart (of_decide_eq_false hkey)
      rw [Layout.flushedRows, List.flatMap_eq_nil_iff] at hnil
      rw [hnil p.2 (hstands p hp).volume_mem]
      rfl
  rw [readStreams, partsByOffset_eq hdisk, hwalk, hrows]
  show Except.ok (fill limit [] _, cache') = _
  rw [fill, List.nil_append, List.length_nil, Nat.sub_zero]

/-! ## Every stream -/

instance Row.le_total : Std.Total Row.le := by
  refine ⟨fun a b => ?_⟩
  unfold Row.le
  omega

instance Row.le_trans : IsTrans Row Row.le := by
  refine ⟨fun a b c => ?_⟩
  unfold Row.le
  omega

/-- The rows every directory's files have of a query, in listing order. -/
def wantedRows (disk : Disk) (lay : DirKey → Layout) (select : Select) : List Row :=
  disk.entries.flatMap fun e => select.want (lay e.1).flushedRows

/-- **The read of every stream**, when there is room for all wanted rows: all of them, by
time and then offset. -/
theorem readEvery_ok {disk : Disk} (hdisk : DiskHolds v disk lay) {cache : Cache}
    (hcache : CacheOk v lay cache) (dict : Option DictConfig) (query : Query) {limit : Nat}
    (hroom : (wantedRows disk lay query.select).length ≤ limit) :
    ∃ rows cache', readStreams v dict disk cache .everyStream query limit = .ok (rows, cache') ∧
      CacheOk v lay cache' ∧ rows.Perm (wantedRows disk lay query.select) ∧ rows.Pairwise Row.le := by
  obtain ⟨cache', hwalk, hcache'⟩ := readParts_ok hdisk dict .everyStream query limit
    (fun p hp => stands_of_standing ((List.mem_insertionSort startsBefore).mp hp)) hcache []
  have hall : ((standing disk lay).insertionSort startsBefore).filter Which.everyStream.coversPart
      = (standing disk lay).insertionSort startsBefore :=
    List.filter_eq_self.mpr fun _ _ => rfl
  -- the sort moves parts, not rows
  have hperm : (((standing disk lay).insertionSort startsBefore).flatMap
      fun p => query.select.want p.2.flushedRows).Perm (wantedRows disk lay query.select) := by
    have hstanding : (standing disk lay).flatMap (fun p => query.select.want p.2.flushedRows)
        = wantedRows disk lay query.select := by
      rw [standing, wantedRows, List.flatMap_assoc]
      refine List.flatMap_congr ?_
      intro e _
      rw [Layout.named, List.flatMap_append, List.flatMap_map, List.flatMap_map, Select.want,
        Layout.flushedRows, Layout.volumes, List.filter_flatMap, List.flatMap_append]
      rfl
    rw [← hstanding]
    exact (List.perm_insertionSort startsBefore _).flatMap_right _
  have hfill : fill limit [] (((standing disk lay).insertionSort startsBefore).flatMap
      fun p => query.select.want p.2.flushedRows)
      = ((standing disk lay).insertionSort startsBefore).flatMap
          fun p => query.select.want p.2.flushedRows := by
    rw [fill, List.nil_append, List.length_nil, Nat.sub_zero,
      List.take_of_length_le (by rw [hperm.length_eq]; exact hroom)]
  refine ⟨_, cache', ?_, hcache', (List.perm_insertionSort Row.le _).trans hperm,
    List.pairwise_insertionSort Row.le _⟩
  rw [readStreams, partsByOffset_eq hdisk, hwalk, hall, hfill]
  rfl

end Okm.Series
