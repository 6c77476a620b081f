import Okm.Series.Log

/-!
# What a directory of parts holds

`DirHolds` says what stands in one directory, oldest part first: sealed parts, and
possibly an open one that a writer holds. Their offsets start at zero and go on from
part to part. Each thing an operation does in a directory is a lemma here: its writer
writes, its open part is sealed, a new part is created. All of them leave the readers
held in the cache good for the files they were opened from (`HeldOk`), or make the
data file longer than those readers remember.
-/

namespace Okm.Series

open Lib Model

variable {v : Vendor}

/-! ## Readers that answer exactly -/

/-- The reader answers exactly the rows of these records. -/
structure Answers (v : Vendor) (r : PartReader) (data : Bytes) (first : Nat) (recs : List Rec) :
    Prop where
  offsetSpan : r.offsetSpan = (first, first + recs.length)
  span : r.span = spanOfRecs recs
  timed : Timed recs
  readFrom : ∀ start limit out, r.readFrom v data start limit out
    = .ok (fill limit out ((Select.offset start).want (rowsOf first recs)))
  readByTime : ∀ start stop limit out, r.readByTime v data start stop limit out
    = .ok (fill limit out ((Select.time start stop).want (rowsOf first recs)))

section

variable {r : PartReader} {header : PartHeader} {blocks : List Stored} {data after : Bytes}
  {first : Nat} {recs : List Rec}

theorem Opened.answers (opened : Opened r header blocks)
    (sound : BlocksAt v partHeaderLen header.firstOffset blocks) (timed : Timed (recsOf blocks))
    (decodes : Decodes r.dict (recsOf blocks)) :
    Answers v r (dataOf header blocks after) header.firstOffset (recsOf blocks) where
  offsetSpan := opened.offsetSpan
  span := opened.span
  timed := timed
  readFrom := fun start _ _ => opened.readFrom sound timed decodes start
  readByTime := fun start stop _ _ => opened.readByTime sound timed decodes start stop

/-- A part is passed over only when nothing in it is wanted. -/
theorem Answers.visitFrom (h : Answers v r data first recs) (start limit : Nat) (rows : List Row) :
    visitFrom v start limit r data rows
      = .ok (fill limit rows ((Select.offset start).want (rowsOf first recs))) := by
  rw [Okm.Series.visitFrom, h.offsetSpan]
  dsimp only
  split
  · rename_i hstop
    have hnone : (Select.offset start).want (rowsOf first recs) = [] := by
      refine List.filter_eq_nil_iff.mpr ?_
      intro row hrow hwant
      obtain ⟨_, _, _, _, _, hlt⟩ := mem_rowsOf hrow
      have hge : start ≤ row.2.1 := of_decide_eq_true hwant
      omega
    rw [hnone, fill_nil]
  · have hsame : (Select.offset (max start first)).want (rowsOf first recs)
        = (Select.offset start).want (rowsOf first recs) := by
      refine List.filter_congr ?_
      intro row hrow
      obtain ⟨_, _, _, _, hge, _⟩ := mem_rowsOf hrow
      show decide _ = decide _
      rw [decide_eq_decide]
      omega
    rw [h.readFrom, hsame]

theorem Answers.visitByTime (h : Answers v r data first recs) (start stop limit : Nat)
    (rows : List Row) :
    visitByTime v start stop limit r data rows
      = .ok (fill limit rows ((Select.time start stop).want (rowsOf first recs))) := by
  unfold Okm.Series.visitByTime
  rw [h.span, spanOfRecs]
  cases hhead : recs.head? with
  | none =>
    rw [List.head?_eq_none_iff.mp hhead]
    exact congrArg _ (fill_nil limit rows).symm
  | some head =>
    cases hlast : recs.getLast? with
    | none =>
      rw [List.getLast?_eq_none_iff.mp hlast] at hhead
      cases hhead
    | some last =>
      dsimp only
      split
      · rename_i hmiss
        -- every record stands between the first and the last one
        have hbetween : ∀ rec ∈ recs, head.ts ≤ rec.ts ∧ rec.ts ≤ last.ts := by
          intro rec hrec
          have hpair := h.timed.1
          constructor
          · cases recs with
            | nil => cases hrec
            | cons a recs =>
              obtain rfl := Option.some.inj hhead
              rcases List.mem_cons.mp hrec with rfl | hrec
              · exact Nat.le_refl _
              · exact (List.pairwise_cons.mp hpair).1 rec hrec
          · obtain ⟨init, hinit⟩ := List.getLast?_eq_some_iff.mp hlast
            rw [hinit] at hrec hpair
            rcases List.mem_append.mp hrec with hrec | hrec
            · exact (List.pairwise_append.mp hpair).2.2 rec hrec last (by simp)
            · rw [List.mem_singleton.mp hrec]
        have hnone : (Select.time start stop).want (rowsOf first recs) = [] := by
          refine List.filter_eq_nil_iff.mpr ?_
          intro row hrow hwant
          obtain ⟨rec, hrec, hts, -, -, -⟩ := mem_rowsOf hrow
          have hrange : start ≤ row.1 ∧ row.1 ≤ stop := of_decide_eq_true hwant
          have hb := hbetween rec hrec
          omega
        rw [hnone, fill_nil]
      · exact h.readByTime start stop limit rows

end

/-- What a query selects. -/
def Query.select : Query → Select
  | .offset start => .offset start
  | .time start stop => .time start stop

theorem Answers.visit {r : PartReader} {data : Bytes} {first : Nat} {recs : List Rec}
    (h : Answers v r data first recs) (query : Query) (limit : Nat) (rows : List Row) :
    query.visit v limit r data rows
      = .ok (fill limit rows (query.select.want (rowsOf first recs))) := by
  cases query with
  | offset start => exact h.visitFrom start limit rows
  | time start stop => exact h.visitByTime start stop limit rows

/-! ## Volumes -/

/-- A part as it stands: its files, what they hold and what is still in the buffer. -/
structure Volume where
  number : Nat
  files : PartFiles
  header : PartHeader
  blocks : List Stored
  pending : List Rec

namespace Volume

def recs (vol : Volume) : List Rec := recsOf vol.blocks ++ vol.pending

def entry (vol : Volume) : Nat × PartFiles := (vol.number, vol.files)

def path (key : DirKey) (isSealed : Bool) (vol : Volume) : PartPath := ⟨key, vol.number, isSealed⟩

/-- The reader answers what is in the files of the part. -/
def AnsweredBy (v : Vendor) (vol : Volume) (r : PartReader) : Prop :=
  Answers v r vol.files.data vol.header.firstOffset (recsOf vol.blocks)

/-- A sealed part. -/
structure Closed (v : Vendor) (vol : Volume) : Prop where
  holds : Sealed v vol.files vol.header vol.blocks
  pending : vol.pending = []

/-- A part its writer holds. -/
structure Held (v : Vendor) (vol : Volume) (w : PartWriter) : Prop where
  files : w.files = vol.files
  writes : Writes v w vol.header vol.blocks vol.pending

variable {vol : Volume}

theorem Closed.opens (h : vol.Closed v) (config : Option DictConfig) :
    ∃ r, PartReader.openPart v vol.files true config = .ok r ∧ vol.AnsweredBy v r := by
  have hs := h.holds
  obtain ⟨footer, ffits, hrecords, hlast, hdata⟩ := hs.footer
  obtain ⟨r, hopen, opened, hdict⟩ :=
    openPart_sealed hs.fits hs.sound ffits hrecords hlast vol.files.dict config
  refine ⟨r, ?_, ?_⟩
  · rw [← hdata, ← hs.index] at hopen
    exact hopen
  · rw [AnsweredBy, hdata]
    exact opened.answers hs.sound hs.timed (by rw [hdict]; exact hs.decodes config)

theorem Held.opens {w : PartWriter} (h : vol.Held v w) (config : Option DictConfig) :
    ∃ r, PartReader.openPart v vol.files false config = .ok r ∧ vol.AnsweredBy v r := by
  have hw := h.writes
  have htimed := (Timed.append hw.timed).1
  have hdata : vol.files.data = dataOf vol.header vol.blocks [] := by
    rw [← h.files]
    exact hw.data
  have hindex : vol.files.index = indexOf vol.blocks := by
    rw [← h.files]
    exact hw.index
  obtain ⟨r, hopen, opened, hdict⟩ := openPart_whole hw.fits hw.sound htimed vol.files.dict config
  refine ⟨r, ?_, ?_⟩
  · rw [← hdata, ← hindex] at hopen
    exact hopen
  · rw [AnsweredBy, hdata]
    refine opened.answers hw.sound htimed ?_
    rw [hdict, ← h.files]
    exact hw.decodes config

end Volume

/-! ## A directory -/

/-- The parts of a directory, oldest first. -/
structure Layout where
  closed : List Volume
  current : Option Volume

namespace Layout

def empty : Layout := ⟨[], none⟩

def volumes (l : Layout) : List Volume := l.closed ++ l.current.toList

/-- Every record that was appended in the directory. -/
def recs (l : Layout) : List Rec := l.volumes.flatMap Volume.recs

end Layout

/-- Parts whose offsets go on from one to the next. -/
def Chained : Nat → List Volume → Prop
  | _, [] => True
  | first, vol :: vols => vol.header.firstOffset = first ∧ Chained (first + vol.recs.length) vols

theorem chained_append {first : Nat} {as bs : List Volume} :
    Chained first (as ++ bs) ↔
      Chained first as ∧ Chained (first + (as.flatMap Volume.recs).length) bs := by
  induction as generalizing first with
  | nil => simp [Chained]
  | cons a as ih =>
    rw [List.cons_append, Chained, Chained, ih, List.flatMap_cons, List.length_append,
      ← Nat.add_assoc]
    simp only [and_assoc]

structure DirHolds (v : Vendor) (dir : Dir) (writer : Option (Nat × PartWriter)) (l : Layout) :
    Prop where
  sealedParts : dir.sealedParts.entries = l.closed.map Volume.entry
  openParts : dir.openParts.entries = l.current.toList.map Volume.entry
  closed : ∀ vol ∈ l.closed, vol.Closed v
  current : ∀ vol, l.current = some vol → ∃ w, writer = some (vol.number, w) ∧ vol.Held v w
  writer : l.current = none → writer = none
  chained : Chained 0 l.volumes
  numbers : (l.volumes.map Volume.number).Pairwise (· < ·)

section

variable {dir : Dir} {writer : Option (Nat × PartWriter)} {l : Layout} {key : DirKey}

theorem dirHolds_empty : DirHolds v Dir.empty none Layout.empty where
  sealedParts := rfl
  openParts := rfl
  closed := by simp [Layout.empty]
  current := by simp [Layout.empty]
  writer := fun _ => rfl
  chained := trivial
  numbers := List.Pairwise.nil

theorem DirHolds.paths (h : DirHolds v dir writer l) :
    dir.paths key = l.closed.map (Volume.path key true) ++ l.current.toList.map (Volume.path key false) := by
  rw [Dir.paths, h.sealedParts, h.openParts, List.map_map]
  cases l.current <;> rfl

/-- What is held for a part of the directory. A reader of a sealed part is good. One of
an open part was opened from a file that was no longer than it is, and is good while it is
no longer; or the part is sealed by now, and its old name is gone. -/
inductive HeldOk (v : Vendor) (l : Layout) (number : Nat) (held : CachedReader) : Bool → Prop where
  | closed {vol : Volume} : vol ∈ l.closed → vol.number = number →
      vol.AnsweredBy v held.reader → HeldOk v l number held true
  | current {vol : Volume} : l.current = some vol → vol.number = number →
      held.bytes ≤ vol.files.data.length →
      (held.bytes = vol.files.data.length → vol.AnsweredBy v held.reader) →
      HeldOk v l number held false
  | renamed {vol : Volume} : vol ∈ l.closed → vol.number = number → HeldOk v l number held false

theorem mem_volumes {vol : Volume} :
    vol ∈ l.volumes ↔ vol ∈ l.closed ∨ l.current = some vol := by
  rw [Layout.volumes, List.mem_append]
  cases l.current with
  | none => simp
  | some cur => simp [eq_comm]

/-! ## The writer writes -/

/-- A volume with more in it. -/
def Volume.grown (vol : Volume) (w : PartWriter) (more : List Stored) (pending : List Rec) : Volume :=
  ⟨vol.number, w.files, vol.header, vol.blocks ++ more, pending⟩

/-- Blocks make a data file longer. -/
theorem Volume.Held.grown_data {vol : Volume} {w w' : PartWriter} {more : List Stored}
    {pending : List Rec} (h : vol.Held v w)
    (hw : Writes v w' vol.header (vol.blocks ++ more) pending) :
    (vol.grown w' more pending).files.data = vol.files.data ++ bytesOf more := by
  show w'.file = _
  rw [hw.data, ← h.files]
  show _ = w.file ++ bytesOf more
  rw [h.writes.data]
  simp [dataOf, List.append_assoc]

/-- **The writer of the open part wrote**: the directory holds that. -/
theorem DirHolds.write {vol : Volume} {w' : PartWriter} {more : List Stored} {pending : List Rec}
    (h : DirHolds v dir writer l) (hvol : l.current = some vol)
    (hw : Writes v w' vol.header (vol.blocks ++ more) pending) :
    DirHolds v { dir with openParts := dir.openParts.insert vol.number w'.files }
      (some (vol.number, w')) { l with current := some (vol.grown w' more pending) } := by
  have hopen : dir.openParts.entries = [(vol.number, vol.files)] := by
    rw [h.openParts, hvol]
    rfl
  have hvolumes : l.volumes = l.closed ++ [vol] := by
    rw [Layout.volumes, hvol]
    rfl
  have hchain := h.chained
  have hnumbers := h.numbers
  rw [hvolumes] at hchain hnumbers
  refine ⟨h.sealedParts, ?_, h.closed, ?_, ?_, ?_, ?_⟩
  · exact SortedMap.entries_insert_single hopen w'.files
  · intro vol' hvol'
    rw [← Option.some.inj hvol']
    exact ⟨w', rfl, rfl, hw⟩
  · intro hnone
    cases hnone
  · refine chained_append.mpr ⟨(chained_append.mp hchain).1, ?_, trivial⟩
    exact (chained_append.mp hchain).2.1
  · show ((l.closed ++ [vol.grown w' more pending]).map Volume.number).Pairwise _
    rw [List.map_append] at hnumbers ⊢
    exact hnumbers

/-- Readers held for the directory are still good, or the file has outgrown them. -/
theorem HeldOk.write {vol : Volume} {w w' : PartWriter} {more : List Stored} {pending : List Rec}
    {number : Nat} {isSealed : Bool} {cached : CachedReader} (h : HeldOk v l number cached isSealed)
    (hvol : l.current = some vol) (held : vol.Held v w)
    (hw : Writes v w' vol.header (vol.blocks ++ more) pending) :
    HeldOk v { l with current := some (vol.grown w' more pending) } number cached isSealed := by
  cases h with
  | closed hmem hnumber hgood => exact .closed hmem hnumber hgood
  | renamed hmem hnumber => exact .renamed hmem hnumber
  | @current found hcurrent hnumber hle heq =>
    rw [hvol] at hcurrent
    obtain rfl := Option.some.inj hcurrent
    have hdata := held.grown_data hw
    refine .current rfl hnumber ?_ ?_
    · rw [hdata, List.length_append]
      omega
    · rw [hdata, List.length_append]
      intro hlen
      have hmany := length_bytesOf_ge more
      have hnil : more = [] := List.length_eq_zero_iff.mp (by omega)
      subst hnil
      have hgood := heq (by simpa [bytesOf] using hlen)
      rw [Volume.AnsweredBy, hdata]
      simpa [Volume.AnsweredBy, Volume.grown, bytesOf] using hgood

/-! ## The open part is sealed -/

/-- The volume a sealed part leaves. -/
def Volume.finished (vol : Volume) (files : PartFiles) (more : List Stored) : Volume :=
  ⟨vol.number, files, vol.header, vol.blocks ++ more, []⟩

/-- **The open part was sealed**: it is the last of the sealed ones. -/
theorem DirHolds.finish {vol : Volume} {files : PartFiles} {more : List Stored}
    (h : DirHolds v dir writer l) (hvol : l.current = some vol)
    (hs : Sealed v files vol.header (vol.blocks ++ more)) :
    DirHolds v ⟨dir.sealedParts.insert vol.number files, dir.openParts.erase vol.number⟩ none
      ⟨l.closed ++ [vol.finished files more], none⟩ := by
  have hopen : dir.openParts.entries = [(vol.number, vol.files)] := by
    rw [h.openParts, hvol]
    rfl
  have hvolumes : l.volumes = l.closed ++ [vol] := by
    rw [Layout.volumes, hvol]
    rfl
  have hchain := h.chained
  have hnumbers := h.numbers
  rw [hvolumes] at hchain hnumbers
  have hlast : ∀ e ∈ dir.sealedParts.entries, e.1 < vol.number := by
    intro e he
    rw [h.sealedParts] at he
    obtain ⟨old, hold, rfl⟩ := List.mem_map.mp he
    rw [List.map_append] at hnumbers
    exact (List.pairwise_append.mp hnumbers).2.2 old.number (List.mem_map_of_mem hold) vol.number
      (by simp)
  refine ⟨?_, SortedMap.entries_erase_single hopen, ?_, fun _ hnone => (by cases hnone),
    fun _ => rfl, ?_, ?_⟩
  · rw [SortedMap.entries_insert_last hlast, h.sealedParts, List.map_append]
    rfl
  · intro old hold
    rcases List.mem_append.mp hold with hold | hold
    · exact h.closed old hold
    · rw [List.mem_singleton.mp hold]
      exact ⟨hs, rfl⟩
  · rw [Layout.volumes, Option.toList_none, List.append_nil]
    exact chained_append.mpr ⟨(chained_append.mp hchain).1, (chained_append.mp hchain).2.1, trivial⟩
  · rw [Layout.volumes, Option.toList_none, List.append_nil]
    rw [List.map_append] at hnumbers ⊢
    exact hnumbers

/-- A sealed volume has every record the open one had. -/
theorem recs_finish {vol : Volume} {files : PartFiles} {more : List Stored}
    (hvol : l.current = some vol) (hmore : recsOf more = vol.pending) :
    (Layout.mk (l.closed ++ [vol.finished files more]) none).recs = l.recs := by
  simp [Layout.recs, Layout.volumes, hvol, Volume.finished, Volume.recs, hmore]

theorem HeldOk.finish {vol : Volume} {files : PartFiles} {more : List Stored} {number : Nat}
    {isSealed : Bool} {cached : CachedReader} (h : HeldOk v l number cached isSealed)
    (hvol : l.current = some vol) :
    HeldOk v ⟨l.closed ++ [vol.finished files more], none⟩ number cached isSealed := by
  cases h with
  | closed hmem hnumber hgood => exact .closed (List.mem_append_left _ hmem) hnumber hgood
  | renamed hmem hnumber => exact .renamed (List.mem_append_left _ hmem) hnumber
  | current hcurrent hnumber hle heq =>
    rw [hvol] at hcurrent
    obtain rfl := Option.some.inj hcurrent
    exact .renamed (List.mem_append_right _ (List.mem_singleton_self (vol.finished files more)))
      hnumber

/-! ## A new part -/

/-- **A part was created** in a directory without an open one, numbered past the others
and with the offset they end at. -/
theorem DirHolds.create {number : Nat} {header : PartHeader} {w : PartWriter}
    (h : DirHolds v dir writer l) (hnone : l.current = none)
    (hnumber : ∀ vol ∈ l.closed, vol.number < number) (hfirst : header.firstOffset = l.recs.length)
    (hw : Writes v w header [] []) :
    DirHolds v { dir with openParts := dir.openParts.insert number w.files } (some (number, w))
      { l with current := some ⟨number, w.files, header, [], []⟩ } := by
  have hopen : dir.openParts.entries = [] := by
    rw [h.openParts, hnone]
    rfl
  have hvolumes : l.volumes = l.closed := by
    rw [Layout.volumes, hnone, Option.toList_none, List.append_nil]
  have hchain := h.chained
  have hnumbers := h.numbers
  rw [hvolumes] at hchain hnumbers
  refine ⟨h.sealedParts, ?_, h.closed, ?_, ?_, ?_, ?_⟩
  · rw [SortedMap.entries_insert_last (by rw [hopen]; simp), hopen]
    rfl
  · intro vol hvol
    obtain rfl := Option.some.inj hvol
    exact ⟨w, rfl, rfl, hw⟩
  · intro hcur
    cases hcur
  · refine chained_append.mpr ⟨hchain, ?_, trivial⟩
    rw [Nat.zero_add, ← hvolumes]
    exact hfirst
  · show ((l.closed ++ [_]).map Volume.number).Pairwise _
    rw [List.map_append]
    refine List.pairwise_append.mpr ⟨hnumbers, List.pairwise_singleton _ _, ?_⟩
    intro a ha b hb
    obtain ⟨vol, hvol, rfl⟩ := List.mem_map.mp ha
    rw [List.mem_singleton.mp hb]
    exact hnumber vol hvol

theorem recs_create {number : Nat} {header : PartHeader} {w : PartWriter}
    (hnone : l.current = none) :
    (Layout.mk l.closed (some ⟨number, w.files, header, [], []⟩)).recs = l.recs := by
  simp [Layout.recs, Layout.volumes, hnone, Volume.recs, recsOf]

theorem HeldOk.create {vol : Volume} {number : Nat} {isSealed : Bool} {cached : CachedReader}
    (h : HeldOk v l number cached isSealed) (hnone : l.current = none) :
    HeldOk v { l with current := some vol } number cached isSealed := by
  cases h with
  | closed hmem hnumber hgood => exact .closed hmem hnumber hgood
  | renamed hmem hnumber => exact .renamed hmem hnumber
  | current hcurrent hnumber hle heq =>
    rw [hnone] at hcurrent
    cases hcurrent

/-! ## Where the offsets go on -/

/-- The end of a reader that answers a volume. -/
theorem Volume.AnsweredBy.stop {vol : Volume} {r : PartReader} (h : vol.AnsweredBy v r) :
    r.offsetSpan.2 = vol.header.firstOffset + (recsOf vol.blocks).length := by
  rw [h.offsetSpan]

/-- The number after the last one is past every sealed part. -/
theorem lt_nextNumber {dir : Dir} {e : Nat × PartFiles} (he : e ∈ dir.sealedParts.entries) :
    e.1 < dir.nextNumber := by
  obtain ⟨last, hlast, hle⟩ : ∃ last, dir.lastNumber = some last ∧ e.1 ≤ last := by
    obtain ⟨init, final, hsplit⟩ : ∃ init final, dir.sealedParts.entries = init ++ [final] := by
      rcases List.eq_nil_or_concat' dir.sealedParts.entries with hnil | h
      · rw [hnil] at he
        cases he
      · exact h
    have hfinal : e.1 ≤ final.1 := by
      have hsorted := dir.sealedParts.sorted
      rw [hsplit] at he hsorted
      rcases List.mem_append.mp he with he | he
      · exact Nat.le_of_lt ((List.pairwise_append.mp hsorted).2.2 e he final (by simp))
      · rw [List.mem_singleton.mp he]
    rw [Dir.lastNumber, hsplit, List.getLast?_concat, Option.map_some]
    cases dir.openParts.entries.getLast?.map Prod.fst with
    | none => exact ⟨final.1, rfl, hfinal⟩
    | some other => exact ⟨max final.1 other, rfl, Nat.le_trans hfinal (Nat.le_max_left _ _)⟩
  rw [Dir.nextNumber, hlast]
  exact Nat.lt_succ_of_le hle

/-- The number a new part gets is past those of the directory. -/
theorem DirHolds.freeNumber {number : Nat} (h : DirHolds v dir writer l)
    (hok : Log.freeNumber dir = .ok number) : ∀ vol ∈ l.closed, vol.number < number := by
  intro vol hvol
  have hnext : vol.number < dir.nextNumber := by
    refine lt_nextNumber (e := vol.entry) ?_
    rw [h.sealedParts]
    exact List.mem_map_of_mem hvol
  unfold Log.freeNumber at hok
  split at hok
  · cases hok
  · cases hfind : (List.range' dir.nextNumber (min (2 ^ 32 - 1 - dir.nextNumber) 1024)).find?
        fun number => (dir.openParts.get number).isNone with
    | none =>
      rw [hfind] at hok
      cases hok
    | some found =>
      rw [hfind] at hok
      obtain rfl := Except.ok.inj hok
      have hrange := List.mem_range'_1.mp (List.mem_of_find?_eq_some hfind)
      exact Nat.lt_of_lt_of_le hnext hrange.1

end

end Okm.Series
