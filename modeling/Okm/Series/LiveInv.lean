import Okm.Series.DirInv
import Okm.Series.Live

/-!
# What a live reader answers

The writer is always in one of three places of a flush (`Writing`), and what stands on disk
there is a view of the part: whole blocks with their rows, and behind them possibly one block
whose row is missing (`View`). Views only grow. A read knows some of the blocks its view has,
all of those it had when it began, and all there are while the file is as long as it measured
(`LiveInv`); that is kept by every harmless operation, and `live_reads` follows.
-/

namespace Okm.Series

open Lib Model

variable {v : Vendor}

/-! ## What stands on disk -/

theorem dataOf_append (header : PartHeader) (as bs : List Stored) (after : Bytes) :
    dataOf header (as ++ bs) after = dataOf header as (bytesOf bs ++ after) := by
  simp only [dataOf, bytesOf_append, List.append_assoc]

theorem dataOf_snoc (header : PartHeader) (blocks : List Stored) (s : Stored) :
    dataOf header (blocks ++ [s]) [] = dataOf header blocks s.bytes := by
  rw [dataOf_append, List.append_nil, bytesOf_cons]
  exact congrArg _ (List.append_nil _)

/-- The blocks that have their rows, and the bytes behind them. -/
structure View where
  header : PartHeader
  blocks : List Stored
  after : Bytes

namespace View

/-- How long the data file is. -/
def length (p : View) : Nat := (dataOf p.header p.blocks p.after).length

/-- The files are this view. -/
structure Of (v : Vendor) (files : PartFiles) (p : View) : Prop where
  fits : p.header.Fits
  data : files.data = dataOf p.header p.blocks p.after
  index : files.index = indexOf p.blocks
  sound : BlocksAt v partHeaderLen p.header.firstOffset p.blocks
  timed : Timed (recsOf p.blocks)
  decodes : ∀ config, Decodes (PartReader.loadDict v files.dict config) (recsOf p.blocks)

/-- The part goes on. A view without a block behind its rows stays as it is until the file
is longer. -/
structure Grows (p p' : View) : Prop where
  header : p'.header = p.header
  blocks : p.blocks <+: p'.blocks
  length : p.length ≤ p'.length
  settled : p'.length = p.length → p.after = [] → p' = p

theorem Grows.refl (p : View) : p.Grows p := ⟨rfl, List.prefix_refl _, le_refl _, fun _ _ => rfl⟩

end View

/-- The writer's place in a flush, and the view it leaves on disk. -/
inductive Writing (v : Vendor) (pending : List Rec) : PartWriter → Flushing → View → Prop where
  | idle {w : PartWriter} {header : PartHeader} {blocks : List Stored}
      (holds : Writes v w header blocks pending) : Writing v pending w .idle ⟨header, blocks, []⟩
  | filed {w : PartWriter} {header : PartHeader} {blocks : List Stored}
      (holds : Writes v w header blocks pending) (nonempty : pending ≠ [])
      (known : ∀ config, Knows w.dict (PartReader.loadDict v w.files.dict config)) :
      Writing v pending w .filed ⟨header, blocks, []⟩
  | written {w : PartWriter} {header : PartHeader} {blocks : List Stored} {block : BlockHeader}
      {payload : Bytes} (holds : Writes v w header blocks pending)
      (known : ∀ config, Knows w.dict (PartReader.loadDict v w.files.dict config))
      (sound : Stored.Sound v ⟨block, payload, pending⟩
        (header.firstOffset + (recsOf blocks).length)) (walks : Walks w.block pending) :
      Writing v pending (w.writeData block payload) (.written block)
        ⟨header, blocks, Stored.bytes ⟨block, payload, pending⟩⟩

section

variable {w : PartWriter} {flushing : Flushing} {pending : List Rec} {p : View}

theorem Writes.view {header : PartHeader} {blocks : List Stored}
    (h : Writes v w header blocks pending) : View.Of v w.files ⟨header, blocks, []⟩ :=
  ⟨h.fits, h.data, h.index, h.sound, (Timed.append h.timed).1, h.decodes⟩

theorem Writing.view (h : Writing v pending w flushing p) : p.Of v w.files := by
  cases h with
  | idle holds => exact holds.view
  | filed holds => exact holds.view
  | written holds known sound walks =>
    have hview := holds.view
    refine ⟨hview.fits, ?_, hview.index, hview.sound, hview.timed, hview.decodes⟩
    exact (holds.tallies.writeData_file _ _).trans (dataOf_snoc _ _ _)

/-- What is flushed is in the blocks that have their rows. -/
theorem Writing.flushed {s : Live} (h : Writing v pending s.writer s.flushing p) :
    s.flushed = (recsOf p.blocks).length := by
  obtain ⟨w, flushing, cache, reads⟩ := s
  dsimp only at h
  cases h with
  | idle holds => exact holds.records
  | filed holds => exact holds.records
  | @written w header blocks block payload holds =>
    show w.records + block.records - block.records = _
    rw [Nat.add_sub_cancel, holds.records]

end

/-! ## What a reader knows -/

/-- These are blocks of the view, and all of them while the file is as long as it was. -/
structure View.Knows (p : View) (bytes : Nat) (known : List Stored) : Prop where
  begins : known <+: p.blocks
  short : bytes ≤ p.length
  current : bytes = p.length → known = p.blocks ∧ p.after = []

/-- A reader of the blocks it knows. -/
structure Knowing (p : View) (reader : PartReader) (known : List Stored) : Prop where
  begins : known <+: p.blocks
  opened : Opened reader p.header known
  decodes : Decodes reader.dict (recsOf known)

/-- A reader held for a length. -/
def CachedReader.Good (p : View) (since : Nat) (held : CachedReader) : Prop :=
  ∃ known, p.Knows held.bytes known ∧ Knowing p held.reader known ∧ since ≤ (recsOf known).length

/-- What a read has seen so far. -/
def LiveRead.Good (p : View) (rows : List Row) (read : LiveRead) : Prop :=
  match read.at_ with
  | .measured bytes => bytes ≤ p.length ∧ read.since ≤ (recsOf p.blocks).length
  | .loaded bytes dict => bytes ≤ p.length ∧ read.since ≤ (recsOf p.blocks).length
      ∧ Decodes dict (recsOf p.blocks)
  | .indexed bytes dict header indexRows => ∃ known, p.Knows bytes known ∧ header = p.header
      ∧ indexRows = rowsFrom partHeaderLen known ∧ Decodes dict (recsOf known)
      ∧ read.since ≤ (recsOf known).length
  | .built held => held.Good p read.since
  | .ready reader => ∃ known, Knowing p reader known ∧ read.since ≤ (recsOf known).length
  | .answered answer => read.Right rows answer

/-- What a run keeps. -/
structure LiveInv (v : Vendor) (past : List (LiveOp × Option Nat)) (s : Live) (pending : List Rec)
    (p : View) : Prop where
  writing : Writing v pending s.writer s.flushing p
  rows : rowsWritten past = rowsOf p.header.firstOffset (recsOf p.blocks ++ pending)
  cache : ∀ held, s.cache = some held → held.Good p 0
  reads : ∀ read ∈ s.reads, read.Good p (rowsWritten past)

section

variable {p p' : View} {bytes : Nat} {known : List Stored} {rows more : List Row}

theorem View.Knows.grow (h : p.Knows bytes known) (grows : p.Grows p') : p'.Knows bytes known := by
  refine ⟨h.begins.trans grows.blocks, le_trans h.short grows.length, fun hbytes => ?_⟩
  have hshort := h.short
  have hlength := grows.length
  -- a file as long as it was measured has not grown in between
  obtain ⟨hknown, hafter⟩ := h.current (by omega)
  rw [grows.settled (by omega) hafter]
  exact ⟨hknown, hafter⟩

theorem Knowing.grow {reader : PartReader} (h : Knowing p reader known) (grows : p.Grows p') :
    Knowing p' reader known :=
  ⟨h.begins.trans grows.blocks, grows.header ▸ h.opened, h.decodes⟩

theorem CachedReader.Good.grow {since : Nat} {held : CachedReader} (h : held.Good p since)
    (grows : p.Grows p') : held.Good p' since := by
  obtain ⟨known, hknows, hknowing, hsince⟩ := h
  exact ⟨known, hknows.grow grows, hknowing.grow grows, hsince⟩

theorem length_recsOf_le {as bs : List Stored} (h : as <+: bs) :
    (recsOf as).length ≤ (recsOf bs).length := by
  obtain ⟨rest, rfl⟩ := h
  rw [recsOf_append, List.length_append]
  exact Nat.le_add_right _ _

theorem LiveRead.Right.grow {read : LiveRead} {answer : Except Error (List Row)}
    (h : read.Right rows answer) (more : List Row) : read.Right (rows ++ more) answer := by
  obtain ⟨n, hsince, hn, hanswer⟩ := h
  refine ⟨n, hsince, ?_, ?_⟩
  · rw [List.length_append]
    omega
  · rw [List.take_append_of_le_length hn]
    exact hanswer

/-- **A read stays good while the part goes on**, when the dictionary it may hold knows the
new blocks. -/
theorem LiveRead.Good.grow {read : LiveRead} (h : read.Good p rows) (grows : p.Grows p')
    (hdict : ∀ bytes dict, read.at_ = .loaded bytes dict → Decodes dict (recsOf p.blocks) →
      Decodes dict (recsOf p'.blocks)) (more : List Row) : read.Good p' (rows ++ more) := by
  have hlength := grows.length
  have hrecs := length_recsOf_le grows.blocks
  unfold LiveRead.Good at h ⊢
  cases hat : read.at_ with
  | measured bytes =>
    rw [hat] at h
    exact ⟨le_trans h.1 hlength, le_trans h.2 hrecs⟩
  | loaded bytes dict =>
    rw [hat] at h
    exact ⟨le_trans h.1 hlength, le_trans h.2.1 hrecs, hdict bytes dict hat h.2.2⟩
  | indexed bytes dict header indexRows =>
    rw [hat] at h
    obtain ⟨known, hknows, hheader, hrows, hdecodes, hsince⟩ := h
    exact ⟨known, hknows.grow grows, hheader.trans grows.header.symm, hrows, hdecodes, hsince⟩
  | built held =>
    rw [hat] at h
    exact CachedReader.Good.grow h grows
  | ready reader =>
    rw [hat] at h
    obtain ⟨known, hknowing, hsince⟩ := h
    exact ⟨known, hknowing.grow grows, hsince⟩
  | answered answer =>
    rw [hat] at h
    exact LiveRead.Right.grow h more

end

/-! ## One step of a read -/

section

variable {p : View} {files : PartFiles} {cache : Option CachedReader} {rows : List Row}
  {pending : List Rec}

/-- The rows of the blocks a reader knows are the first of all rows. -/
theorem take_rowsOf {as bs : List Stored} (h : as <+: bs) (first : Nat) (pending : List Rec) :
    (rowsOf first (recsOf bs ++ pending)).take (recsOf as).length = rowsOf first (recsOf as) := by
  obtain ⟨rest, rfl⟩ := h
  rw [recsOf_append, List.append_assoc, rowsOf_append, List.take_left' (length_rowsOf _ _)]

/-- **A read begins well.** -/
theorem first_good (of : p.Of v files) (hcache : ∀ held, cache = some held → held.Good p 0)
    (hrows : rows = rowsOf p.header.firstOffset (recsOf p.blocks ++ pending)) (start limit : Nat) :
    LiveRead.Good p rows
      ⟨start, limit, (recsOf p.blocks).length, Reading.first files cache limit⟩ := by
  have hdata : files.data.length = p.length := congrArg List.length of.data
  unfold Reading.first
  by_cases hzero : limit = 0
  · rw [if_pos hzero]
    refine ⟨(recsOf p.blocks).length, le_refl _, ?_, ?_⟩
    · rw [hrows, length_rowsOf, List.length_append]
      exact Nat.le_add_right _ _
    · dsimp only
      rw [hzero, List.take_zero]
  · rw [if_neg hzero]
    cases hc : cache with
    | none => exact ⟨le_of_eq hdata, le_refl _⟩
    | some held =>
      dsimp only
      split
      · rename_i hbytes
        -- a reader held for this length knows every block
        obtain ⟨known, hknows, hknowing, -⟩ := hcache held hc
        obtain ⟨rfl, -⟩ := hknows.current (hbytes.trans hdata)
        exact ⟨_, hknowing, le_refl _⟩
      · exact ⟨le_of_eq hdata, le_refl _⟩

/-- **Reading the records**: a reader answers the wanted rows of the blocks it knows. -/
theorem ready_right (of : p.Of v files)
    (hrows : rows = rowsOf p.header.firstOffset (recsOf p.blocks ++ pending)) {read : LiveRead}
    {reader : PartReader} {known : List Stored} (h : Knowing p reader known)
    (hsince : read.since ≤ (recsOf known).length) :
    read.Right rows (visitFrom v read.start read.limit reader files.data []) := by
  obtain ⟨begins, opened, decodes⟩ := h
  have htake := take_rowsOf begins p.header.firstOffset pending
  have hle := length_recsOf_le begins
  obtain ⟨rest, hblocks⟩ := begins
  have hsound := of.sound
  have htimed := of.timed
  rw [← hblocks] at hsound htimed
  rw [recsOf_append] at htimed
  have hdata : files.data = dataOf p.header known (bytesOf rest ++ p.after) := by
    rw [of.data, ← hblocks, dataOf_append]
  have answers : Answers v reader files.data p.header.firstOffset (recsOf known) := by
    rw [hdata]
    exact opened.answers (blocksAt_append.mp hsound).1 (Timed.append htimed).1 decodes
  refine ⟨(recsOf known).length, hsince, ?_, ?_⟩
  · rw [hrows, length_rowsOf, List.length_append]
    omega
  · rw [hrows, htake, answers.visitFrom, fill, List.nil_append, List.length_nil, Nat.sub_zero]

/-- **One step of a read**, whatever step it is at. When it reads the index, the file is
longer than it measured or every block has its row. -/
theorem next_good (config : Option DictConfig) (of : p.Of v files)
    (hcache : ∀ held, cache = some held → held.Good p 0)
    (hrows : rows = rowsOf p.header.firstOffset (recsOf p.blocks ++ pending)) {read : LiveRead}
    (h : read.Good p rows)
    (hindex : ∀ bytes dict, read.at_ = .loaded bytes dict → bytes = p.length → p.after = []) :
    LiveRead.Good p rows { read with at_ := (read.next v config files cache).1 } ∧
      ∀ held, (read.next v config files cache).2 = some held → held.Good p 0 := by
  unfold LiveRead.Good at h
  unfold LiveRead.next
  cases hat : read.at_ with
  | measured bytes =>
    rw [hat] at h
    exact ⟨⟨h.1, h.2, of.decodes config⟩, hcache⟩
  | loaded bytes dict =>
    rw [hat] at h
    dsimp only
    have hheader : PartWriter.readHeader files.data = .ok p.header := by
      rw [of.data]
      exact readHeader_dataOf of.fits
    have hread : readIndex files.index = rowsFrom partHeaderLen p.blocks := by
      have hwhole := readIndex_indexOf of.sound (show ([] : Bytes).length < indexRowLen by decide)
      rwa [List.append_nil, ← of.index] at hwhole
    rw [hheader, hread]
    -- from here on the read knows the blocks there are now, whatever is flushed later
    refine ⟨⟨p.blocks, ⟨List.prefix_refl _, h.1, ?_⟩, rfl, rfl, h.2.2, h.2.1⟩, hcache⟩
    exact fun hbytes => ⟨rfl, hindex bytes dict hat hbytes⟩
  | indexed bytes dict header indexRows =>
    rw [hat] at h
    obtain ⟨known, hknows, rfl, rfl, hdecodes, hsince⟩ := h
    obtain ⟨rest, hblocks⟩ := hknows.begins
    have hsound := of.sound
    have htimed := of.timed
    rw [← hblocks] at hsound htimed
    rw [recsOf_append] at htimed
    have hspan : PartReader.spanOf v files.data (rowsFrom partHeaderLen known) none
        = .ok (spanOfRecs (recsOf known)) := by
      rw [of.data, ← hblocks]
      exact spanOf_open hsound (Timed.append htimed).1
    have hopened := opened_open (blocksAt_append.mp hsound).1 dict
    dsimp only
    rw [hspan]
    exact ⟨⟨known, hknows, ⟨hknows.begins, hopened, hdecodes⟩, hsince⟩, hcache⟩
  | built held =>
    rw [hat] at h
    obtain ⟨known, hknows, hknowing, hsince⟩ := h
    refine ⟨⟨known, hknowing, hsince⟩, fun held' hheld => ?_⟩
    obtain rfl := Option.some.inj hheld
    exact ⟨known, hknows, hknowing, Nat.zero_le _⟩
  | ready reader =>
    rw [hat] at h
    obtain ⟨known, hknowing, hsince⟩ := h
    exact ⟨ready_right of hrows hknowing hsince, hcache⟩
  | answered answer =>
    rw [hat] at h
    exact ⟨h, hcache⟩

end

end Okm.Series
