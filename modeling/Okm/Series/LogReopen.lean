import Okm.Series.LogRead

/-!
# The log opened again

`open` lists the parts once and goes through them: it notes each stream's newest
timestamp, adopts what is still open, and seals what the clock has left behind. While
it does, some open parts still wait for their writer; `Recovering` is the log with the
writers those parts will get. Every round keeps it (`Recovering.recover`), and at the
end nothing waits, which is `LogInv` again.

A waiting part need not be as its writer left it: `Recoverable` files are those
adoption makes a writer of the right blocks of.
-/

namespace Okm.Series

open Lib Model

variable {v : Vendor}

/-- Files that adoption makes a writer of these blocks of. -/
structure Recoverable (v : Vendor) (files : PartFiles) (header : PartHeader) (blocks : List Stored) :
    Prop where
  span : ∀ config r first last, PartReader.openPart v files false config = .ok r →
    r.span = some (first, last) → last < 2 ^ 64
  adopts : ∀ blockBytes level codec config w,
    PartWriter.adopt v files blockBytes level codec config = .ok w → Writes v w header blocks []

/-- A part that waits to be recovered, and the writer it will get. -/
structure Waits (v : Vendor) (disk : Disk) (repaired : Disk) (lay : DirKey → Layout)
    (ghost : Active) : Prop where
  current : ∃ vol, (lay ghost.key).current = some vol ∧ vol.number = ghost.number ∧
    vol.pending = [] ∧ ∃ files,
      (disk.dirAt ghost.key).openParts.entries = [(ghost.number, files)] ∧
        Recoverable v files vol.header vol.blocks
  sealedParts : (disk.dirAt ghost.key).sealedParts = (repaired.dirAt ghost.key).sealedParts

/-- The path of the open part of a writer. -/
def Active.path (active : Active) : PartPath := ⟨active.key, active.number, false⟩

/-- A log whose open parts partly wait, under the paths still to come. -/
structure Recovering (v : Vendor) (log : Log) (lay : DirKey → Layout) (repaired : Disk)
    (ghosts : List Active) (todo : List PartPath) : Prop where
  inv : LogInv v { log with disk := repaired, active := log.active ++ ghosts } lay
  agree : ∀ key, (∀ ghost ∈ ghosts, ghost.key ≠ key) → log.disk.dirAt key = repaired.dirAt key
  waits : ∀ ghost ∈ ghosts, Waits v log.disk repaired lay ghost ∧ ghost.path ∈ todo

section

variable {log log' : Log} {lay : DirKey → Layout} {repaired : Disk} {ghosts : List Active}
  {path : PartPath} {todo : List PartPath}

/-- The parts of a writer with nothing pending are recoverable. -/
theorem recoverable_of_held {vol : Volume} {w : PartWriter} (h : vol.Held v w)
    (hpending : vol.pending = []) : Recoverable v vol.files vol.header vol.blocks where
  span := by
    intro config r first last hopen hspan
    obtain ⟨r', hopen', hanswers⟩ := h.opens config
    obtain rfl := Except.ok.inj (hopen.symm.trans hopen')
    rw [hanswers.span, spanOfRecs] at hspan
    split at hspan
    · rename_i a b _ hlast
      obtain ⟨-, rfl⟩ := Prod.mk.inj (Option.some.inj hspan)
      exact hanswers.timed.2 b (List.mem_of_getLast? hlast)
    · cases hspan
  adopts := by
    intro blockBytes level codec config w' hok
    have hw := h.writes
    rw [hpending] at hw
    rw [← h.files] at hok
    exact (hw.readopt hok).1

/-- A log all of whose writers stopped with nothing pending is one whose parts all wait. -/
theorem LogInv.recovering (h : LogInv v log lay)
    (hstopped : ∀ active ∈ log.active, active.writer.blockRecords = 0) (config : Config) :
    Recovering v ⟨config, log.disk, [], [], SortedMap.empty⟩ lay log.disk log.active
      log.disk.allParts where
  inv := ⟨h.dirs, h.distinct, fun _ he => (by cases he), fun _ _ hget => (by cases hget)⟩
  agree := fun _ _ => rfl
  waits := by
    intro ghost hghost
    obtain ⟨index, hindex⟩ := List.mem_iff_getElem?.mp hghost
    obtain ⟨vol, hvol, hnumber, hheld⟩ := h.active hindex
    have hpending : vol.pending = [] := by
      have hcount := hheld.writes.blockRecords
      rw [hstopped ghost hghost] at hcount
      exact List.length_eq_zero_iff.mp hcount.symm
    have hopen : (log.disk.dirAt ghost.key).openParts.entries = [(ghost.number, vol.files)] := by
      rw [(h.dirs ghost.key).openParts, hvol, ← hnumber]
      rfl
    refine ⟨⟨⟨vol, hvol, hnumber, hpending, vol.files, hopen, recoverable_of_held hheld hpending⟩,
      rfl⟩, ?_⟩
    have hget : log.disk.get ghost.key = some (log.disk.dirAt ghost.key) := by
      unfold Disk.dirAt at hopen ⊢
      cases hdir : log.disk.get ghost.key with
      | none =>
        rw [hdir] at hopen
        cases hopen
      | some dir => rfl
    refine List.mem_flatMap.mpr ⟨(ghost.key, log.disk.dirAt ghost.key),
      (SortedMap.get_eq_some_iff _ _ _).mp hget, ?_⟩
    rw [Dir.paths, hopen]
    exact List.mem_append_right _ (List.mem_singleton_self _)

/-- Nothing waits any more. -/
theorem Recovering.done (h : Recovering v log lay repaired ghosts []) : LogInv v log lay := by
  have hnil : ghosts = [] := by
    cases ghosts with
    | nil => rfl
    | cons ghost ghosts => cases (h.waits ghost (by simp)).2
  subst hnil
  have hinv := h.inv
  refine ⟨?_, ?_, hinv.held, hinv.lastTs⟩
  · intro key
    have hdir := hinv.dirs key
    rw [h.agree key (by simp)]
    simpa [Log.writerAt] using hdir
  · have hdistinct := hinv.distinct
    rwa [List.append_nil] at hdistinct

/-- What `recover` notes of a part's newest timestamp. -/
theorem Recovering.noteSpan (h : Recovering v log lay repaired ghosts todo)
    (partition : Option String) {span : Option (Nat × Nat)}
    (hlast : ∀ first last, span = some (first, last) → last < 2 ^ 64) :
    Recovering v (log.noteSpan partition span) lay repaired ghosts todo := by
  cases hspan : span with
  | none => exact h
  | some ends =>
    obtain ⟨first, last⟩ := ends
    have hlt := hlast first last hspan
    refine ⟨⟨h.inv.dirs, h.inv.distinct, h.inv.held, ?_⟩, h.agree, h.waits⟩
    intro s ts hget
    have hold := h.inv.lastTs
    rw [show Log.lastTs _ = log.lastTs.insert (streamKey partition) _ from rfl,
      SortedMap.get_insert] at hget
    split at hget
    · obtain rfl := Option.some.inj hget
      cases hseen : log.lastTs.get (streamKey partition) with
      | none => simpa using hlt
      | some seen =>
        have hseen := hold _ seen hseen
        rw [Option.getD_some]
        omega
    · exact hold s ts hget

/-- A path that no waiting part has is done. -/
theorem Recovering.skip (h : Recovering v log lay repaired ghosts (path :: todo))
    (hpath : ∀ ghost ∈ ghosts, ghost.path ≠ path) : Recovering v log lay repaired ghosts todo := by
  refine ⟨h.inv, h.agree, ?_⟩
  intro ghost hghost
  obtain ⟨hwaits, htodo⟩ := h.waits ghost hghost
  exact ⟨hwaits, (List.mem_cons.mp htodo).resolve_left (hpath ghost hghost)⟩

/-- A file on disk is that of a standing part. -/
theorem stands_of_fileAt {disk : Disk} {files : PartFiles} (hdisk : DiskHolds v disk lay)
    (hfile : disk.fileAt path = some files) : ∃ vol, Stands lay path vol ∧ vol.files = files := by
  obtain ⟨key, number, isSealed⟩ := path
  obtain ⟨writer, hdir⟩ := hdisk key
  unfold Disk.fileAt at hfile
  dsimp only at hfile
  cases isSealed with
  | true =>
    rw [if_pos rfl, SortedMap.get_eq_some_iff, hdir.sealedParts] at hfile
    obtain ⟨vol, hvol, hentry⟩ := List.mem_map.mp hfile
    obtain ⟨rfl, rfl⟩ := Prod.mk.inj hentry
    exact ⟨vol, .closed hvol, rfl⟩
  | false =>
    rw [if_neg Bool.false_ne_true, SortedMap.get_eq_some_iff, hdir.openParts] at hfile
    obtain ⟨vol, hvol, hentry⟩ := List.mem_map.mp hfile
    obtain ⟨rfl, rfl⟩ := Prod.mk.inj hentry
    exact ⟨vol, .current (Option.mem_toList.mp hvol), rfl⟩

/-- The file of a path is that of a waiting part, or one the repaired disk has too. -/
theorem Recovering.fileAt (h : Recovering v log lay repaired ghosts (path :: todo))
    {files : PartFiles} (hfile : log.disk.fileAt path = some files) :
    (∃ ghost ∈ ghosts, ghost.path = path ∧ ∃ vol, (lay ghost.key).current = some vol ∧
      vol.number = ghost.number ∧ vol.pending = [] ∧ Recoverable v files vol.header vol.blocks) ∨
    (∀ ghost ∈ ghosts, ghost.path ≠ path) ∧ repaired.fileAt path = some files := by
  obtain ⟨key, number, isSealed⟩ := path
  by_cases hghost : ∃ ghost ∈ ghosts, ghost.key = key
  · obtain ⟨ghost, hmem, rfl⟩ := hghost
    obtain ⟨⟨⟨vol, hvol, hnumber, hpending, found, hopen, hrecover⟩, hsealed⟩, -⟩ :=
      h.waits ghost hmem
    unfold Disk.fileAt at hfile ⊢
    dsimp only at hfile ⊢
    cases isSealed with
    | true =>
      right
      rw [if_pos rfl] at hfile ⊢
      refine ⟨fun g _ hpath => Bool.false_ne_true (congrArg PartPath.isSealed hpath), ?_⟩
      rwa [← hsealed]
    | false =>
      left
      rw [if_neg Bool.false_ne_true, SortedMap.get_eq_some_iff, hopen] at hfile
      obtain ⟨rfl, rfl⟩ := Prod.mk.inj (List.mem_singleton.mp hfile)
      exact ⟨ghost, hmem, rfl, vol, hvol, hnumber, hpending, hrecover⟩
  · right
    have hagree := h.agree key fun ghost hmem hkey => hghost ⟨ghost, hmem, hkey⟩
    refine ⟨fun g hg hpath => hghost ⟨g, hg, congrArg PartPath.dir hpath⟩, ?_⟩
    unfold Disk.fileAt at hfile ⊢
    rwa [← hagree]

/-- Timestamps a reader of a part reports are `u64`s. -/
theorem Recovering.span_lt (h : Recovering v log lay repaired ghosts (path :: todo))
    {files : PartFiles} (hfile : log.disk.fileAt path = some files) {config : Option DictConfig}
    {r : PartReader} (hopen : PartReader.openPart v files path.isSealed config = .ok r)
    {first last : Nat} (hspan : r.span = some (first, last)) : last < 2 ^ 64 := by
  rcases h.fileAt hfile with ⟨ghost, -, rfl, vol, -, -, -, hrecover⟩ | ⟨-, hrepaired⟩
  · exact hrecover.span config r first last hopen hspan
  · have hdisk : DiskHolds v repaired lay := h.inv.diskHolds
    obtain ⟨vol, hstands, rfl⟩ := stands_of_fileAt hdisk hrepaired
    obtain ⟨r', hopen', hanswers⟩ := hstands.opens hdisk config
    obtain rfl := Except.ok.inj (hopen.symm.trans hopen')
    rw [hanswers.span, spanOfRecs] at hspan
    split at hspan
    · rename_i a b _ hlast
      obtain ⟨-, rfl⟩ := Prod.mk.inj (Option.some.inj hspan)
      exact hanswers.timed.2 b (List.mem_of_getLast? hlast)
    · cases hspan

/-- **A waiting part gets its writer.** -/
theorem Recovering.adopt (h : Recovering v log lay repaired ghosts (path :: todo)) {ghost : Active}
    (hghost : ghost ∈ ghosts) (hpath : ghost.path = path) {vol : Volume}
    (hvol : (lay ghost.key).current = some vol) (hnumber : vol.number = ghost.number)
    (hpending : vol.pending = []) {w : PartWriter} (hw : Writes v w vol.header vol.blocks []) :
    ∃ lay' repaired' ghosts', SameRecs lay lay' ∧
      Recovering v { log with
        active := log.active ++ [⟨path.dir.bucket, path.dir.partition, path.number, w⟩]
        disk := log.disk.storeOpen path.dir path.number w.files } lay' repaired' ghosts' todo := by
  subst hpath
  obtain ⟨⟨⟨vol', hvol', -, -, files, hopen, -⟩, hsealed⟩, -⟩ := h.waits ghost hghost
  have hdir := h.inv.dirs ghost.key
  have hrepairedOpen : (repaired.dirAt ghost.key).openParts.entries = [(ghost.number, vol.files)] := by
    have hparts := hdir.openParts
    rw [hvol] at hparts
    rw [← hnumber]
    exact hparts
  -- the two disks agree about the directory once the writer's files are stored
  have hsame : Dir.mk (log.disk.dirAt ghost.key).sealedParts
      ((log.disk.dirAt ghost.key).openParts.insert ghost.number w.files)
      = ⟨(repaired.dirAt ghost.key).sealedParts,
          (repaired.dirAt ghost.key).openParts.insert ghost.number w.files⟩ := by
    have hentries := (SortedMap.entries_insert_single hopen w.files).trans
      (SortedMap.entries_insert_single hrepairedOpen w.files).symm
    rw [hsealed]
    congr 1
    cases hl : (log.disk.dirAt ghost.key).openParts.insert ghost.number w.files with
    | mk entries sorted =>
      cases hr : (repaired.dirAt ghost.key).openParts.insert ghost.number w.files with
      | mk entries' sorted' =>
        rw [hl, hr] at hentries
        obtain rfl := (show entries = entries' from hentries)
        rfl
  have hwhole : Writes v w vol.header (vol.blocks ++ []) [] := by
    rw [List.append_nil]
    exact hw
  have hwrite := hdir.write hvol hwhole
  rw [hnumber] at hwrite
  have hnew : Active.key ⟨ghost.key.bucket, ghost.key.partition, ghost.number, w⟩ = ghost.key := rfl
  have hdistinct := h.inv.distinct
  have hghostIn : ghost ∈ log.active ++ ghosts := List.mem_append_right _ hghost
  have hfree : ∀ active ∈ log.active, active.key ≠ ghost.key := by
    intro active hactive hkey
    have hnodup := hdistinct
    rw [DistinctKeys, List.map_append] at hnodup
    exact (List.disjoint_of_nodup_append hnodup) (List.mem_map_of_mem hactive)
      (by rw [hkey]; exact List.mem_map_of_mem hghost)
  -- the writer takes the ghost's place
  have hperm : DistinctKeys Active.key ((log.active ++ [⟨ghost.key.bucket, ghost.key.partition,
      ghost.number, w⟩]) ++ ghosts.filter fun g => g.key ≠ ghost.key) := by
    rw [List.append_assoc, DistinctKeys, List.map_append, List.singleton_append, List.map_cons, hnew]
    rw [DistinctKeys, List.map_append] at hdistinct
    have hrest : ((ghosts.filter fun g => g.key ≠ ghost.key).map Active.key).Sublist
        (ghosts.map Active.key) := List.filter_sublist.map _
    rw [List.nodup_middle, List.nodup_cons]
    refine ⟨?_, hdistinct.sublist (List.Sublist.append (List.Sublist.refl _) hrest)⟩
    intro hmem
    rcases List.mem_append.mp hmem with hmem | hmem
    · obtain ⟨active, hactive, hkey⟩ := List.mem_map.mp hmem
      exact hfree active hactive hkey
    · obtain ⟨g, hg, hkey⟩ := List.mem_map.mp hmem
      exact of_decide_eq_true (List.mem_filter.mp hg).2 hkey
  refine ⟨Function.update lay ghost.key { lay ghost.key with current := some (vol.grown w [] []) },
    repaired.insert ghost.key ⟨(log.disk.dirAt ghost.key).sealedParts,
      (log.disk.dirAt ghost.key).openParts.insert ghost.number w.files⟩,
    ghosts.filter fun g => g.key ≠ ghost.key, sameRecs_update ?_, ?_, ?_, ?_⟩
  · have hkept : recsOf [] ++ ([] : List Rec) = vol.pending ++ [] := by
      rw [hpending]
      rfl
    have hrecs := recs_grown hvol w hkept
    rwa [List.append_nil] at hrecs
  · refine h.inv.change ghost.key (some (ghost.number, w)) rfl ?_ hperm rfl rfl (by rw [hsame]; exact hwrite) ?_
    · intro k
      show Option.map _ (findKey Active.key k ((log.active ++ [⟨ghost.key.bucket,
          ghost.key.partition, ghost.number, w⟩]) ++ ghosts.filter fun g => g.key ≠ ghost.key))
        = if k = ghost.key then some (ghost.number, w)
          else Option.map _ (findKey Active.key k (log.active ++ ghosts))
      by_cases hk : k = ghost.key
      · have hfound := findKey_of_mem hperm (a := ⟨ghost.key.bucket, ghost.key.partition,
          ghost.number, w⟩) (by simp)
        rw [hnew] at hfound
        rw [if_pos hk, hk, hfound]
        rfl
      · rw [if_neg hk]
        congr 1
        refine Option.ext ?_
        intro c
        rw [findKey_eq_some hperm, findKey_eq_some hdistinct]
        refine and_congr_left ?_
        rintro rfl
        have hother : c ≠ ⟨ghost.key.bucket, ghost.key.partition, ghost.number, w⟩ := by
          rintro rfl
          exact hk rfl
        simp [hother, hk]
    · intro number isSealed held hold
      obtain ⟨ghostly, -, hheld⟩ := hdir.current vol hvol
      exact hold.write hvol hheld (by rw [List.append_nil]; exact hw)
  · intro key hkey
    show Disk.dirAt (log.disk.insert ghost.key _) key = _
    rw [dirAt_insert, dirAt_insert]
    by_cases hk : key = ghost.key
    · rw [if_pos hk, if_pos hk]
      rfl
    · rw [if_neg hk, if_neg hk]
      refine h.agree key ?_
      rintro g hg rfl
      exact hkey g (List.mem_filter.mpr ⟨hg, decide_eq_true hk⟩) rfl
  · intro g hg
    obtain ⟨hmem, hne⟩ := List.mem_filter.mp hg
    have hne : g.key ≠ ghost.key := of_decide_eq_true hne
    obtain ⟨⟨⟨vol₁, hvol₁, hnumber₁, hpending₁, files₁, hopen₁, hrecover₁⟩, hsealed₁⟩, htodo⟩ :=
      h.waits g hmem
    refine ⟨⟨⟨vol₁, ?_, hnumber₁, hpending₁, files₁, ?_, hrecover₁⟩, ?_⟩,
      (List.mem_cons.mp htodo).resolve_left ?_⟩
    · rw [Function.update_of_ne hne]
      exact hvol₁
    · show (Disk.dirAt (log.disk.insert ghost.key _) g.key).openParts.entries = _
      rw [dirAt_insert, if_neg hne]
      exact hopen₁
    · show (Disk.dirAt (log.disk.insert ghost.key _) g.key).sealedParts = _
      rw [dirAt_insert, if_neg hne, dirAt_insert, if_neg hne]
      exact hsealed₁
    · intro hpath
      exact hne (congrArg PartPath.dir hpath)

/-- Sealing a part that no longer waits. -/
theorem Recovering.sealAt (lawful : v.Lawful) (h : Recovering v log lay repaired ghosts todo)
    {index : Nat} (hok : log.sealAt v index = .ok log') :
    ∃ lay' repaired', SameRecs lay lay' ∧ Recovering v log' lay' repaired' ghosts todo := by
  unfold Log.sealAt at hok
  cases hindex : log.active[index]? with
  | none =>
    rw [hindex] at hok
    cases hok
  | some active =>
    rw [hindex] at hok
    obtain ⟨⟨footer, files⟩, hseal, hok⟩ := bind_eq_ok.mp hok
    obtain rfl := Except.ok.inj hok
    obtain ⟨hlt, -⟩ := List.getElem?_eq_some_iff.mp hindex
    have hindex' : (log.active ++ ghosts)[index]? = some active := by
      rw [List.getElem?_append_left hlt, hindex]
    have hghost : Log.sealAt v { log with disk := repaired, active := log.active ++ ghosts } index
        = .ok { log with
          active := (log.active ++ ghosts).eraseIdx index
          disk := repaired.storeSealed active.key active.number files } := by
      unfold Log.sealAt
      dsimp only
      rw [hindex']
      dsimp only
      rw [hseal]
      rfl
    obtain ⟨active', files', l, hactive', hlog', hinv', hrecs⟩ := h.inv.sealAt_update lawful hghost
    obtain rfl := Option.some.inj (hindex'.symm.trans hactive')
    -- the ghosts are of other directories
    have hne : ∀ ghost ∈ ghosts, ghost.key ≠ active.key := by
      intro ghost hghost hkey
      have hnodup := h.inv.distinct
      rw [DistinctKeys, List.map_append] at hnodup
      exact (List.disjoint_of_nodup_append hnodup)
        (List.mem_map_of_mem (List.mem_of_getElem? hindex))
        (by rw [← hkey]; exact List.mem_map_of_mem hghost)
    have hagree := h.agree active.key hne
    refine ⟨_, repaired.storeSealed active.key active.number files, sameRecs_update hrecs, ?_, ?_, ?_⟩
    · rw [List.eraseIdx_append_of_lt_length hlt] at hinv'
      exact hinv'
    · intro key hkey
      show Disk.dirAt (log.disk.insert active.key _) key = Disk.dirAt (repaired.insert active.key _) key
      rw [dirAt_insert, dirAt_insert, hagree]
      by_cases hk : key = active.key
      · rw [if_pos hk, if_pos hk]
      · rw [if_neg hk, if_neg hk]
        exact h.agree key hkey
    · intro ghost hghost
      obtain ⟨⟨⟨vol, hvol, hnumber, hpending, found, hopen, hrecover⟩, hsealed⟩, htodo⟩ :=
        h.waits ghost hghost
      have hother := hne ghost hghost
      refine ⟨⟨⟨vol, ?_, hnumber, hpending, found, ?_, hrecover⟩, ?_⟩, htodo⟩
      · rw [Function.update_of_ne hother]
        exact hvol
      · show (Disk.dirAt (log.disk.insert active.key _) ghost.key).openParts.entries = _
        rw [dirAt_insert, if_neg hother]
        exact hopen
      · show (Disk.dirAt (log.disk.insert active.key _) ghost.key).sealedParts
          = (Disk.dirAt (repaired.insert active.key _) ghost.key).sealedParts
        rw [dirAt_insert, if_neg hother, dirAt_insert, if_neg hother]
        exact hsealed

/-- An open part that has no writer waits for one. -/
theorem Recovering.waiting (h : Recovering v log lay repaired ghosts (path :: todo))
    {files : PartFiles} (hfile : log.disk.fileAt path = some files) (hopen : ¬ path.isSealed = true)
    (hfree : ¬ (log.activeIndex path.dir).isSome = true) :
    ∃ ghost ∈ ghosts, ghost.path = path ∧ ∃ vol, (lay ghost.key).current = some vol ∧
      vol.number = ghost.number ∧ vol.pending = [] ∧ Recoverable v files vol.header vol.blocks := by
  rcases h.fileAt hfile with hwaits | ⟨hnone, hrepaired⟩
  · exact hwaits
  · obtain ⟨vol, hstands, -⟩ := stands_of_fileAt h.inv.diskHolds hrepaired
    cases hstands with
    | closed _ => exact absurd rfl hopen
    | @current key _ hvol =>
      -- its writer is in the log, or it is a ghost and waits under this path
      obtain ⟨w, hwriter, -⟩ := (h.inv.dirs key).current vol hvol
      obtain ⟨active, hfound, hentry⟩ := Option.map_eq_some_iff.mp hwriter
      obtain ⟨hmem, rfl⟩ := mem_of_findKey hfound
      rcases List.mem_append.mp hmem with hmem | hmem
      · refine absurd ?_ hfree
        cases hindex : log.activeIndex active.key with
        | none => exact absurd rfl (findKey_eq_none.mp (findKey_of_findIdx hindex) active hmem)
        | some index =>
          show (log.activeIndex active.key).isSome = true
          rw [hindex]
          rfl
      · refine absurd ?_ (hnone active hmem)
        rw [Active.path, (Prod.mk.inj hentry).1]
        rfl

/-- **One round of recovery** takes its path off what is to come, and keeps the records. -/
theorem Recovering.recover (lawful : v.Lawful)
    (h : Recovering v log lay repaired ghosts (path :: todo)) {clock : Nat}
    (hok : log.recover v clock path = .ok log') :
    ∃ lay' repaired' ghosts', SameRecs lay lay' ∧
      Recovering v log' lay' repaired' ghosts' todo := by
  unfold Log.recover at hok
  cases hfile : log.disk.fileAt path with
  | none =>
    rw [hfile] at hok
    cases hok
  | some files =>
    rw [hfile] at hok
    obtain ⟨r, hopen, hok⟩ := bind_eq_ok.mp hok
    have h₁ := h.noteSpan path.dir.partition fun first last hspan => h.span_lt hfile hopen hspan
    have hfile₁ : (log.noteSpan path.dir.partition r.span).disk.fileAt path = some files := by
      cases r.span <;> exact hfile
    generalize log.noteSpan path.dir.partition r.span = noted at h₁ hfile₁ hok
    unfold Log.takeOver at hok
    split at hok
    · -- sealed, or its directory has a writer already
      rename_i hskip
      obtain rfl := Except.ok.inj hok
      refine ⟨lay, repaired, ghosts, fun _ => rfl, h₁.skip ?_⟩
      rintro ghost hghost rfl
      rcases hskip with hsealed | hactive
      · cases hsealed
      · obtain ⟨index, hindex⟩ := Option.isSome_iff_exists.mp hactive
        obtain ⟨active, hget, hkey⟩ := getElem_of_findIdx hindex
        have hnodup := h₁.inv.distinct
        rw [DistinctKeys, List.map_append] at hnodup
        exact (List.disjoint_of_nodup_append hnodup)
          (List.mem_map_of_mem (List.mem_of_getElem? hget))
          (by rw [show active.key = ghost.key from hkey]; exact List.mem_map_of_mem hghost)
    · rename_i hopenPart
      obtain ⟨hunsealed, hfree⟩ := not_or.mp hopenPart
      obtain ⟨w, hadopt, hok⟩ := bind_eq_ok.mp hok
      obtain ⟨bucket, -, hok⟩ := bind_eq_ok.mp hok
      -- an open part of a directory without a writer is adopted, and sealed if it is full
      obtain ⟨ghost, hghost, hpath, vol, hvol, hnumber, hpending, hrecover⟩ :=
        h₁.waiting hfile₁ hunsealed hfree
      obtain ⟨lay₂, repaired₂, ghosts₂, hsame₂, h₂⟩ :=
        h₁.adopt hghost hpath hvol hnumber hpending (hrecover.adopts _ _ _ _ _ hadopt)
      split at hok
      · obtain ⟨lay₃, repaired₃, hsame₃, h₃⟩ := h₂.sealAt lawful hok
        exact ⟨lay₃, repaired₃, ghosts₂, hsame₂.trans hsame₃, h₃⟩
      · obtain rfl := Except.ok.inj hok
        exact ⟨lay₂, repaired₂, ghosts₂, hsame₂, h₂⟩

theorem Recovering.run (lawful : v.Lawful) {paths : List (PartPath × Nat)} {clock : Nat → Nat}
    (h : Recovering v log lay repaired ghosts (paths.map Prod.fst))
    (hok : paths.foldlM (fun log e => log.recover v (clock e.2) e.1) log = .ok log') :
    ∃ lay', LogInv v log' lay' ∧ SameRecs lay lay' := by
  induction paths generalizing log lay repaired ghosts with
  | nil =>
    obtain rfl := Except.ok.inj hok
    exact ⟨lay, h.done, fun _ => rfl⟩
  | cons e paths ih =>
    rw [List.foldlM_cons] at hok
    obtain ⟨log₁, hrecover, hok⟩ := bind_eq_ok.mp hok
    obtain ⟨lay₁, repaired₁, ghosts₁, hsame₁, h₁⟩ := h.recover lawful hrecover
    obtain ⟨lay₂, h₂, hsame₂⟩ := ih h₁ hok
    exact ⟨lay₂, h₂, hsame₁.trans hsame₂⟩

/-- **A clean reopen** finds every record again. -/
theorem LogInv.reopen (lawful : v.Lawful) (h : LogInv v log lay) {clock : Nat → Nat}
    (hok : log.reopen v clock = .ok log') : ∃ lay', LogInv v log' lay' ∧ SameRecs lay lay' := by
  obtain ⟨stopped, hflush, hok⟩ := bind_eq_ok.mp hok
  obtain ⟨⟨lay₁, h₁, hsame₁⟩, hstopped⟩ := h.flush lawful hflush
  have hrecovering := h₁.recovering hstopped stopped.config
  have hpaths : stopped.disk.allParts = stopped.disk.allParts.zipIdx.map Prod.fst := by simp
  rw [hpaths] at hrecovering
  obtain ⟨lay₂, h₂, hsame₂⟩ := hrecovering.run lawful hok
  exact ⟨lay₂, h₂, hsame₁.trans hsame₂⟩

end

end Okm.Series
