import Okm.Series.Scan

/-!
# The image of a part

`Image` is what a part holds, apart from bytes: its header and its blocks, each with
the records in it. `Image.data` and `Image.index` are the files that say so. An
opened reader (`Opened`) knows some of the blocks, and **what it answers is exactly
the wanted rows of those blocks**, up to the limit: the search over the index rows
skips only blocks without a wanted row, and the early stop of a time scan leaves
only later ones.
-/

namespace Okm.Series

open Lib Model

variable {v : Vendor}

/-! ## Blocks -/

/-- A block as it stands in the data file. -/
structure Stored where
  header : BlockHeader
  payload : Bytes
  recs : List Rec

namespace Stored

def bytes (s : Stored) : Bytes := s.header.encode ++ s.payload

/-- The index row of a block at a byte of the file. -/
def row (s : Stored) (at_ : Nat) : IndexRow :=
  ⟨s.header.firstTs, s.header.firstOffset, at_, s.header.lenC, s.header.lenU, s.header.records⟩

/-- The header says what is in the block, and the payload walks out as its records. -/
structure Sound (v : Vendor) (s : Stored) (offset : Nat) : Prop where
  fits : s.header.Fits
  lenC : s.payload.length = s.header.lenC
  lenC_pos : 0 < s.header.lenC
  raw : ∃ raw, decodePayload v s.payload s.header = some raw ∧ raw.length = s.header.lenU ∧
    Walks raw s.recs
  records : s.header.records = s.recs.length
  firstOffset : s.header.firstOffset = offset
  firstTs : ∀ r ∈ s.recs.head?, s.header.firstTs = r.ts
  nonempty : s.recs ≠ []

variable {s : Stored} {offset : Nat}

theorem Sound.length_bytes (h : s.Sound v offset) :
    s.bytes.length = blockHeaderLen + s.header.lenC := by
  rw [bytes, List.length_append, BlockHeader.length_encode, h.lenC]

end Stored

/-- The records of a list of blocks. -/
def recsOf (blocks : List Stored) : List Rec := blocks.flatMap Stored.recs

/-- The index rows of blocks from a byte of the file on. -/
def rowsFrom : Nat → List Stored → List IndexRow
  | _, [] => []
  | at_, s :: blocks => s.row at_ :: rowsFrom (at_ + s.bytes.length) blocks

/-- Blocks standing one after another, from a byte and an offset on. -/
def BlocksAt (v : Vendor) : Nat → Nat → List Stored → Prop
  | _, _, [] => True
  | at_, offset, s :: blocks =>
    s.Sound v offset ∧ at_ < 2 ^ 32 ∧
      BlocksAt v (at_ + s.bytes.length) (offset + s.recs.length) blocks

/-- The bytes of blocks. -/
def bytesOf (blocks : List Stored) : Bytes := blocks.flatMap Stored.bytes

@[simp] theorem bytesOf_cons (s : Stored) (blocks : List Stored) :
    bytesOf (s :: blocks) = s.bytes ++ bytesOf blocks := rfl

@[simp] theorem recsOf_cons (s : Stored) (blocks : List Stored) :
    recsOf (s :: blocks) = s.recs ++ recsOf blocks := rfl

@[simp] theorem bytesOf_append (as bs : List Stored) : bytesOf (as ++ bs) = bytesOf as ++ bytesOf bs :=
  List.flatMap_append

@[simp] theorem recsOf_append (as bs : List Stored) : recsOf (as ++ bs) = recsOf as ++ recsOf bs :=
  List.flatMap_append

section

variable {at_ offset : Nat}

theorem blocksAt_append {as bs : List Stored} :
    BlocksAt v at_ offset (as ++ bs) ↔ BlocksAt v at_ offset as ∧
      BlocksAt v (at_ + (bytesOf as).length) (offset + (recsOf as).length) bs := by
  induction as generalizing at_ offset with
  | nil => simp [BlocksAt, bytesOf, recsOf]
  | cons a as ih =>
    rw [List.cons_append, BlocksAt, BlocksAt, ih, bytesOf_cons, recsOf_cons, List.length_append,
      List.length_append, ← Nat.add_assoc, ← Nat.add_assoc]
    simp only [and_assoc]

theorem rowsFrom_append (as bs : List Stored) :
    rowsFrom at_ (as ++ bs) = rowsFrom at_ as ++ rowsFrom (at_ + (bytesOf as).length) bs := by
  induction as generalizing at_ with
  | nil => rfl
  | cons a as ih =>
    rw [List.cons_append, rowsFrom, rowsFrom, ih, bytesOf_cons, List.length_append, ← Nat.add_assoc,
      List.cons_append]

theorem fits_rowsFrom {blocks : List Stored} (h : BlocksAt v at_ offset blocks) :
    ∀ row ∈ rowsFrom at_ blocks, row.Fits := by
  induction blocks generalizing at_ offset with
  | nil => simp [rowsFrom]
  | cons s blocks ih =>
    intro row hrow
    obtain ⟨sound, hat, hrest⟩ := h
    rcases List.mem_cons.mp hrow with rfl | hrow
    · exact ⟨sound.fits.firstTs, sound.fits.firstOffset, hat, sound.fits.lenC, sound.fits.lenU,
        sound.fits.records⟩
    · exact ih hrest row hrow

end

/-! ## Reading one block -/

/-- **A block is read back** from where its row says it stands. -/
theorem readBlockAt_stored {s : Stored} {offset : Nat} (sound : s.Sound v offset)
    (before after : Bytes) (lenC : BlockHeader → Nat) (hlen : lenC s.header = s.header.lenC) :
    ∃ raw, readBlockAt v (before ++ s.bytes ++ after) before.length lenC = .ok (s.header, raw) ∧
      Walks raw s.recs := by
  obtain ⟨raw, hraw, -, walks⟩ := sound.raw
  refine ⟨raw, ?_, walks⟩
  rw [readBlockAt, List.append_assoc, List.drop_left, Stored.bytes, List.append_assoc,
    takeExact_append s.header.length_encode]
  dsimp only
  rw [BlockHeader.decode_encode sound.fits]
  dsimp only
  rw [hlen, takeExact_append sound.lenC]
  dsimp only
  rw [hraw]

/-! ## The loops over the rows -/

section

variable {dict : Option Dict} {start stop limit offset : Nat} {blocks : List Stored}

theorem readRows_blocks (before : Bytes) {after : Bytes} (out : List Row)
    (sound : BlocksAt v before.length offset blocks) (timed : Timed (recsOf blocks))
    (decodes : Decodes dict (recsOf blocks)) :
    PartReader.readRows v dict (before ++ bytesOf blocks ++ after) start limit
        (rowsFrom before.length blocks) out
      = .ok (fill limit out ((Select.offset start).want (rowsOf offset (recsOf blocks)))) := by
  induction blocks generalizing before offset out with
  | nil => simp [rowsFrom, PartReader.readRows, recsOf, rowsOf, Select.want]
  | cons s blocks ih =>
    obtain ⟨hs, hat, hrest⟩ := sound
    obtain ⟨timedS, timedRest⟩ := Timed.append (show Timed (s.recs ++ recsOf blocks) from timed)
    have hdecodes : Decodes dict s.recs ∧ Decodes dict (recsOf blocks) :=
      ⟨fun r hr => decodes r (List.mem_append_left _ hr),
        fun r hr => decodes r (List.mem_append_right _ hr)⟩
    rw [rowsFrom, PartReader.readRows, recsOf_cons, rowsOf_append, Select.want_append]
    split
    · rename_i hfull
      rw [fill_full hfull]
    · obtain ⟨raw, hread, walks⟩ := readBlockAt_stored hs before (bytesOf blocks ++ after)
        BlockHeader.lenC rfl
      have hdata : before ++ bytesOf (s :: blocks) ++ after
          = before ++ s.bytes ++ (bytesOf blocks ++ after) := by
        simp [List.append_assoc]
      have hscan := scanBlock_walks (.offset start) limit out walks hs.nonempty hs.firstTs timedS
        hdecodes.1
      have hnext := ih (before ++ s.bytes)
        (fill limit out ((Select.offset start).want (rowsOf offset s.recs)))
        (by rw [List.length_append]; exact hrest) timedRest hdecodes.2
      rw [List.length_append] at hnext
      rw [hdata]
      show (readBlockAt v _ before.length _ >>= _) = _
      rw [hread]
      show (scanBlock s.header raw _ limit dict out >>= _) = _
      rw [hscan, hs.firstOffset]
      show PartReader.readRows v dict _ start limit _ _ = _
      rw [← List.append_assoc, hnext, fill_append]

theorem readRowsByTime_blocks (before : Bytes) {after : Bytes} (out : List Row)
    (sound : BlocksAt v before.length offset blocks) (timed : Timed (recsOf blocks))
    (decodes : Decodes dict (recsOf blocks)) :
    PartReader.readRowsByTime v dict (before ++ bytesOf blocks ++ after) start stop limit
        (rowsFrom before.length blocks) out
      = .ok (fill limit out ((Select.time start stop).want (rowsOf offset (recsOf blocks)))) := by
  induction blocks generalizing before offset out with
  | nil => simp [rowsFrom, PartReader.readRowsByTime, recsOf, rowsOf, Select.want]
  | cons s blocks ih =>
    obtain ⟨hs, hat, hrest⟩ := sound
    obtain ⟨timedS, timedRest⟩ := Timed.append (show Timed (s.recs ++ recsOf blocks) from timed)
    have hlater := (List.pairwise_append.mp timed.1).2.2
    have hdecodes : Decodes dict s.recs ∧ Decodes dict (recsOf blocks) :=
      ⟨fun r hr => decodes r (List.mem_append_left _ hr),
        fun r hr => decodes r (List.mem_append_right _ hr)⟩
    rw [rowsFrom, PartReader.readRowsByTime]
    split
    · rename_i hstop
      rcases hstop with hfull | hpast
      · rw [fill_full hfull]
      · -- the block starts past the range, and so does everything behind it
        have hnone : ∀ r ∈ recsOf (s :: blocks), stop < r.ts := by
          cases hrecs : s.recs with
          | nil => exact absurd hrecs hs.nonempty
          | cons first recs =>
            have hfirst : s.header.firstTs = first.ts := hs.firstTs first (by rw [hrecs]; rfl)
            have hpast' : stop < first.ts := by
              rw [← hfirst]
              exact hpast
            rw [recsOf_cons, hrecs, List.cons_append] at timed ⊢
            intro r hr
            rcases List.mem_cons.mp hr with rfl | hr
            · exact hpast'
            · exact Nat.lt_of_lt_of_le hpast' ((List.pairwise_cons.mp timed.1).1 r hr)
        rw [Select.want_time_nil hnone, fill_nil]
    · -- the block is read and scanned
      obtain ⟨raw, hread, walks⟩ := readBlockAt_stored hs before (bytesOf blocks ++ after)
        BlockHeader.lenC rfl
      have hdata : before ++ bytesOf (s :: blocks) ++ after
          = before ++ s.bytes ++ (bytesOf blocks ++ after) := by
        simp [List.append_assoc]
      have hscan := scanBlock_walks (.time start stop) limit out walks hs.nonempty hs.firstTs timedS
        hdecodes.1
      have hnext := ih (before ++ s.bytes)
        (fill limit out ((Select.time start stop).want (rowsOf offset s.recs)))
        (by rw [List.length_append]; exact hrest) timedRest hdecodes.2
      rw [List.length_append] at hnext
      rw [hdata, recsOf_cons, rowsOf_append, Select.want_append]
      show (readBlockAt v _ before.length _ >>= _) = _
      rw [hread]
      show (scanBlock s.header raw _ limit dict out >>= _) = _
      rw [hscan, hs.firstOffset]
      show (if stop < endTs s.header.firstTs s.recs then _ else
        PartReader.readRowsByTime v dict _ start stop limit _ _) = _
      split
      · rename_i hpast
        -- its last record is past the range, so nothing behind it is wanted
        have hnone : ∀ r ∈ recsOf blocks, stop < r.ts := by
          intro r hr
          have hlast := List.getLast?_eq_some_getLast hs.nonempty
          rw [endTs, hlast] at hpast
          exact Nat.lt_of_lt_of_le hpast (hlater _ (List.mem_of_getLast? hlast) r hr)
        rw [Select.want_time_nil hnone, List.append_nil]
      · rw [← List.append_assoc, hnext, fill_append]

end

/-! ## The search over the rows -/

/-- The blocks a search skips hold no wanted row, when a block before one that passes
the test holds none. -/
theorem startRow_skips (select : Select) (before : IndexRow → Bool) {at_ offset : Nat}
    {blocks : List Stored} (sound : BlocksAt v at_ offset blocks) (timed : Timed (recsOf blocks))
    (hskip : ∀ i n s t, BlocksAt v i n [s, t] → Timed (s.recs ++ t.recs) →
      before (t.row (i + s.bytes.length)) = true → select.want (rowsOf n s.recs) = []) :
    ∃ skipped rest, blocks = skipped ++ rest ∧
      (rowsFrom at_ blocks).drop (PartReader.startRow (rowsFrom at_ blocks) before)
        = rowsFrom (at_ + (bytesOf skipped).length) rest ∧
      select.want (rowsOf offset (recsOf skipped)) = [] := by
  induction blocks generalizing at_ offset with
  | nil => exact ⟨[], [], rfl, by simp [rowsFrom], rfl⟩
  | cons s blocks ih =>
    -- a search that stops here skips nothing
    have hstay : PartReader.startRow (rowsFrom at_ (s :: blocks)) before = 0 →
        ∃ skipped rest, s :: blocks = skipped ++ rest ∧
          (rowsFrom at_ (s :: blocks)).drop
              (PartReader.startRow (rowsFrom at_ (s :: blocks)) before)
            = rowsFrom (at_ + (bytesOf skipped).length) rest ∧
          select.want (rowsOf offset (recsOf skipped)) = [] := by
      intro hzero
      exact ⟨[], s :: blocks, rfl, by rw [hzero]; rfl, rfl⟩
    by_cases hs : before (s.row at_) = true
    · cases blocks with
      | nil =>
        refine hstay ?_
        simp [PartReader.startRow, rowsFrom, hs]
      | cons t post =>
        by_cases ht : before (t.row (at_ + s.bytes.length)) = true
        · -- both pass: the first block is skipped, and the search goes on
          obtain ⟨hsound, hat, hrest⟩ := sound
          obtain ⟨timedS, timedRest⟩ := Timed.append (show Timed (s.recs ++ recsOf (t :: post)) from timed)
          have hpair : Timed (s.recs ++ t.recs) := by
            rw [recsOf_cons, recsOf_cons, ← List.append_assoc] at timed
            exact (Timed.append timed).1
          have hnone := hskip at_ offset s t ⟨hsound, hat, hrest.1, hrest.2.1, trivial⟩ hpair ht
          obtain ⟨skipped, rest, hsplit, hdrop, hskipped⟩ := ih hrest timedRest
          have hstart : PartReader.startRow (rowsFrom at_ (s :: t :: post)) before
              = PartReader.startRow (rowsFrom (at_ + s.bytes.length) (t :: post)) before + 1 := by
            simp [PartReader.startRow, rowsFrom, hs, ht]
          refine ⟨s :: skipped, rest, by rw [hsplit]; rfl, ?_, ?_⟩
          · rw [hstart]
            show (s.row at_ :: rowsFrom (at_ + s.bytes.length) (t :: post)).drop _ = _
            rw [List.drop_succ_cons, hdrop, bytesOf_cons, List.length_append, Nat.add_assoc]
          · rw [recsOf_cons, rowsOf_append, Select.want_append, hnone, hskipped]
            rfl
        · refine hstay ?_
          simp [PartReader.startRow, rowsFrom, hs, ht]
    · refine hstay ?_
      simp [PartReader.startRow, rowsFrom, hs]

/-! ## An opened part -/

/-- The first and the last timestamp of records. -/
def spanOfRecs (recs : List Rec) : Option (Nat × Nat) :=
  match recs.head?, recs.getLast? with
  | some first, some last => some (first.ts, last.ts)
  | _, _ => none

/-- A reader that knows these blocks of a part. -/
structure Opened (r : PartReader) (header : PartHeader) (blocks : List Stored) : Prop where
  head : r.header = header
  rows : r.rows = rowsFrom partHeaderLen blocks
  offsetSpan : r.offsetSpan = (header.firstOffset, header.firstOffset + (recsOf blocks).length)
  span : r.span = spanOfRecs (recsOf blocks)

/-- The bytes of a part: its header, its blocks, and what follows them. -/
def dataOf (header : PartHeader) (blocks : List Stored) (after : Bytes) : Bytes :=
  header.encode ++ bytesOf blocks ++ after

section

variable {r : PartReader} {header : PartHeader} {blocks : List Stored} {after : Bytes}
  {limit : Nat} {out : List Row}

/-- **`read_from` is exact** on the blocks the reader knows. -/
theorem Opened.readFrom (opened : Opened r header blocks)
    (sound : BlocksAt v partHeaderLen header.firstOffset blocks) (timed : Timed (recsOf blocks))
    (decodes : Decodes r.dict (recsOf blocks)) (start : Nat) :
    r.readFrom v (dataOf header blocks after) start limit out
      = .ok (fill limit out
          ((Select.offset start).want (rowsOf header.firstOffset (recsOf blocks)))) := by
  obtain ⟨skipped, rest, rfl, hdrop, hnone⟩ := startRow_skips (.offset start)
    (fun row => row.firstOffset ≤ start) sound timed (by
      intro i n s t hblocks _ hbefore
      -- the next block starts at or below the offset, so this one ends below it
      have hle : t.header.firstOffset ≤ start := of_decide_eq_true hbefore
      rw [hblocks.2.2.1.firstOffset] at hle
      refine List.filter_eq_nil_iff.mpr ?_
      intro row hrow hwant
      obtain ⟨_, _, _, _, _, hlt⟩ := mem_rowsOf hrow
      have hge : start ≤ row.2.1 := by simpa [Select.wants] using hwant
      omega)
  have hlen : partHeaderLen + (bytesOf skipped).length = (header.encode ++ bytesOf skipped).length := by
    rw [List.length_append, PartHeader.length_encode]
  have hdata : dataOf header (skipped ++ rest) after
      = header.encode ++ bytesOf skipped ++ bytesOf rest ++ after := by
    rw [dataOf, bytesOf_append, ← List.append_assoc]
  have hrest := (blocksAt_append.mp sound).2
  rw [recsOf_append] at timed decodes
  rw [PartReader.readFrom, opened.rows, hdrop, hdata, hlen,
    readRows_blocks _ _ (by rw [← hlen]; exact hrest) (Timed.append timed).2
      (fun s hs => decodes s (List.mem_append_right _ hs)),
    recsOf_append, rowsOf_append, Select.want_append, hnone, List.nil_append]

/-- **`read_by_time` is exact** on the blocks the reader knows. -/
theorem Opened.readByTime (opened : Opened r header blocks)
    (sound : BlocksAt v partHeaderLen header.firstOffset blocks) (timed : Timed (recsOf blocks))
    (decodes : Decodes r.dict (recsOf blocks)) (start stop : Nat) :
    r.readByTime v (dataOf header blocks after) start stop limit out
      = .ok (fill limit out
          ((Select.time start stop).want (rowsOf header.firstOffset (recsOf blocks)))) := by
  obtain ⟨skipped, rest, rfl, hdrop, hnone⟩ := startRow_skips (.time start stop)
    (fun row => row.firstTs < start) sound timed (by
      intro i n s t hblocks hpair hbefore
      -- the next block starts below the range, and this one not after it
      have hlt : t.header.firstTs < start := of_decide_eq_true hbefore
      refine List.filter_eq_nil_iff.mpr ?_
      intro row hrow hwant
      obtain ⟨rec, hrec, hts, -, -, -⟩ := mem_rowsOf hrow
      obtain ⟨first, hfirst⟩ : ∃ first, t.recs.head? = some first := by
        cases hrecs : t.recs with
        | nil => exact absurd hrecs hblocks.2.2.1.nonempty
        | cons first recs => exact ⟨first, rfl⟩
      have hle := (List.pairwise_append.mp hpair.1).2.2 rec hrec first (List.mem_of_mem_head? hfirst)
      rw [hblocks.2.2.1.firstTs first hfirst] at hlt
      have hge : start ≤ row.1 ∧ row.1 ≤ stop := by simpa [Select.wants] using hwant
      omega)
  have hlen : partHeaderLen + (bytesOf skipped).length = (header.encode ++ bytesOf skipped).length := by
    rw [List.length_append, PartHeader.length_encode]
  have hdata : dataOf header (skipped ++ rest) after
      = header.encode ++ bytesOf skipped ++ bytesOf rest ++ after := by
    rw [dataOf, bytesOf_append, ← List.append_assoc]
  have hrest := (blocksAt_append.mp sound).2
  rw [recsOf_append] at timed decodes
  rw [PartReader.readByTime, opened.rows, hdrop, hdata, hlen,
    readRowsByTime_blocks _ _ (by rw [← hlen]; exact hrest) (Timed.append timed).2
      (fun s hs => decodes s (List.mem_append_right _ hs)),
    recsOf_append, rowsOf_append, Select.want_append, hnone, List.nil_append]

end

/-! ## Opening -/

section

variable {header : PartHeader} {blocks more : List Stored} {after tail : Bytes}

/-- The index of these blocks. -/
def indexOf (blocks : List Stored) : Bytes :=
  indexHeader ++ (rowsFrom partHeaderLen blocks).flatMap IndexRow.encode

theorem readHeader_dataOf (fits : header.Fits) :
    PartWriter.readHeader (dataOf header blocks after) = .ok header := by
  rw [PartWriter.readHeader, dataOf, List.append_assoc, takeExact_append header.length_encode]
  dsimp only
  rw [PartHeader.decode_encode fits]

/-- **The index is read back**; a torn row at its end is not a row. -/
theorem readIndex_indexOf {offset : Nat} (sound : BlocksAt v partHeaderLen offset blocks)
    {tail : Bytes} (htail : tail.length < indexRowLen) :
    readIndex (indexOf blocks ++ tail) = rowsFrom partHeaderLen blocks := by
  have hlen : ¬ (indexOf blocks ++ tail).length < indexHeaderLen := by
    rw [indexOf, List.append_assoc, List.length_append]
    exact Nat.not_lt.mpr (Nat.le_add_right _ _)
  have hdrop : (indexOf blocks ++ tail).drop indexHeaderLen
      = (rowsFrom partHeaderLen blocks).flatMap IndexRow.encode ++ tail := rfl
  have hread : ∀ row ∈ rowsFrom partHeaderLen blocks, Reads getIndexRow row.encode (id row) :=
    fun row hrow => getIndexRow_encode (fits_rowsFrom sound row hrow)
  have hnone : getIndexRow tail = none := by
    rw [getIndexRow, takeExact, if_neg (Nat.not_le.mpr htail)]
    rfl
  have hmany : (rowsFrom partHeaderLen blocks).length
      ≤ ((rowsFrom partHeaderLen blocks).flatMap IndexRow.encode).length :=
    length_le_flatMap fun row _ => List.ne_nil_of_length_pos (by rw [row.length_encode]; decide)
  have hrounds : (rowsFrom partHeaderLen blocks).length ≤ (indexOf blocks ++ tail).length := by
    simp only [indexOf, List.length_append]
    omega
  rw [readIndex, if_neg hlen, hdrop, frames_flatMap_of_none hread hnone hrounds, List.map_id]

theorem getLast_rowsFrom (init : List Stored) (s : Stored) (at_ : Nat) :
    (rowsFrom at_ (init ++ [s])).getLast? = some (s.row (at_ + (bytesOf init).length)) := by
  rw [rowsFrom_append]
  exact List.getLast?_concat

/-- The timestamps blocks start and end at. -/
theorem spanOfRecs_blocks {s last : Stored} {init rest : List Stored} {at_ offset : Nat}
    (hblocks : blocks = s :: rest) (hlast : blocks = init ++ [last])
    (sound : BlocksAt v at_ offset blocks) :
    spanOfRecs (recsOf blocks) = some (s.header.firstTs, endTs last.header.firstTs last.recs) := by
  have hs : s.Sound v offset := by
    rw [hblocks] at sound
    exact sound.1
  have hl : last.recs ≠ [] := by
    rw [hlast] at sound
    exact (blocksAt_append.mp sound).2.1.nonempty
  obtain ⟨first, hfirst⟩ : ∃ first, s.recs.head? = some first := by
    cases hrecs : s.recs with
    | nil => exact absurd hrecs hs.nonempty
    | cons first recs => exact ⟨first, rfl⟩
  have hhead : (recsOf blocks).head? = some first := by
    rw [hblocks, recsOf_cons, List.head?_append, hfirst]
    rfl
  have hend : (recsOf blocks).getLast? = last.recs.getLast? := by
    rw [hlast, recsOf_append, recsOf_cons]
    show (recsOf init ++ (last.recs ++ [])).getLast? = _
    rw [List.append_nil, List.getLast?_append, List.getLast?_eq_some_getLast hl]
    rfl
  rw [spanOfRecs, hhead, hend, List.getLast?_eq_some_getLast hl, hs.firstTs first hfirst, endTs,
    List.getLast?_eq_some_getLast hl]
  rfl

/-- The span of the blocks an index knows, in a file that may hold more of them. -/
theorem spanOf_open (sound : BlocksAt v partHeaderLen header.firstOffset (blocks ++ more))
    (timed : Timed (recsOf blocks)) :
    PartReader.spanOf v (dataOf header (blocks ++ more) after) (rowsFrom partHeaderLen blocks) none
      = .ok (spanOfRecs (recsOf blocks)) := by
  have hsound := (blocksAt_append.mp sound).1
  rcases List.eq_nil_or_concat' blocks with rfl | ⟨init, last, rfl⟩
  · rfl
  · obtain ⟨s, rest, hcons⟩ : ∃ s rest, init ++ [last] = s :: rest :=
      List.exists_cons_of_ne_nil (by simp)
    have hlast := (blocksAt_append.mp hsound).2.1
    have hlen : partHeaderLen + (bytesOf init).length = (header.encode ++ bytesOf init).length := by
      rw [List.length_append, PartHeader.length_encode]
    have hdata : dataOf header (init ++ [last] ++ more) after
        = (header.encode ++ bytesOf init) ++ last.bytes ++ (bytesOf more ++ after) := by
      simp [dataOf, List.append_assoc, bytesOf]
    obtain ⟨raw, hread, walks⟩ := readBlockAt_stored hlast (header.encode ++ bytesOf init)
      (bytesOf more ++ after) (fun _ => last.header.lenC) rfl
    have htimed : Timed last.recs := by
      rw [recsOf_append] at timed
      have h := (Timed.append timed).2
      rwa [recsOf_cons, show recsOf [] = [] from rfl, List.append_nil] at h
    have hts := lastTsOf_walks walks hlast.nonempty hlast.firstTs htimed
    have hhead : (rowsFrom partHeaderLen (init ++ [last])).head? = some (s.row partHeaderLen) := by
      rw [hcons]
      rfl
    unfold PartReader.spanOf
    rw [hhead, getLast_rowsFrom, spanOfRecs_blocks hcons rfl hsound]
    dsimp only
    rw [hdata, show (last.row (partHeaderLen + (bytesOf init).length)).fileOffset
      = (header.encode ++ bytesOf init).length from hlen]
    show (readBlockAt v _ _ _ >>= _) = _
    rw [show (fun _ : BlockHeader => (last.row (partHeaderLen + (bytesOf init).length)).lenC)
      = fun _ => last.header.lenC from rfl, hread]
    show (lastTsOf raw last.header.firstTs >>= _) = _
    rw [hts]
    rfl

/-- A reader of an open part that has the rows of the blocks. -/
theorem opened_open (sound : BlocksAt v partHeaderLen header.firstOffset blocks)
    (dict : Option Dict) :
    Opened ⟨header, none, rowsFrom partHeaderLen blocks, false, dict, spanOfRecs (recsOf blocks)⟩
      header blocks := by
  refine ⟨rfl, rfl, ?_, rfl⟩
  rw [PartReader.offsetSpan]
  dsimp only
  rcases List.eq_nil_or_concat' blocks with rfl | ⟨init, last, rfl⟩
  · rfl
  · have hlast := (blocksAt_append.mp sound).2.1
    rw [getLast_rowsFrom]
    dsimp only [Stored.row]
    rw [hlast.firstOffset, hlast.records, recsOf_append, List.length_append, Nat.add_assoc]
    simp [recsOf]

/-- **An open part opens** with the blocks its index knows. -/
theorem openPart_open (fits : header.Fits)
    (sound : BlocksAt v partHeaderLen header.firstOffset (blocks ++ more))
    (timed : Timed (recsOf blocks)) (htail : tail.length < indexRowLen) (dict : Option Bytes)
    (config : Option DictConfig) :
    ∃ r, PartReader.openPart v
        ⟨dataOf header (blocks ++ more) after, indexOf blocks ++ tail, dict⟩ false config = .ok r ∧
      Opened r header blocks ∧ r.dict = PartReader.loadDict v dict config ∧ r.isSealed = false ∧
      r.footer = none := by
  have hsound := (blocksAt_append.mp sound).1
  have hspan : PartReader.spanOf v (dataOf header (blocks ++ more) after)
      (rowsFrom partHeaderLen blocks) none = .ok (spanOfRecs (recsOf blocks)) :=
    spanOf_open sound timed
  refine ⟨_, ?_, opened_open hsound (PartReader.loadDict v dict config), rfl, rfl, rfl⟩
  simp only [PartReader.openPart, readHeader_dataOf fits, readIndex_indexOf hsound htail, bind,
    Except.bind, Bool.false_eq_true, if_false, hspan]

/-- An open part whose index is whole opens with every block. -/
theorem openPart_whole (fits : header.Fits)
    (sound : BlocksAt v partHeaderLen header.firstOffset blocks) (timed : Timed (recsOf blocks))
    (dict : Option Bytes) (config : Option DictConfig) :
    ∃ r, PartReader.openPart v ⟨dataOf header blocks [], indexOf blocks, dict⟩ false config = .ok r ∧
      Opened r header blocks ∧ r.dict = PartReader.loadDict v dict config := by
  have hsound : BlocksAt v partHeaderLen header.firstOffset (blocks ++ []) := by
    rw [List.append_nil]
    exact sound
  obtain ⟨r, hopen, opened, hdict, -⟩ :=
    openPart_open fits hsound timed (show ([] : Bytes).length < indexRowLen by decide) dict config
  rw [List.append_nil, List.append_nil] at hopen
  exact ⟨r, hopen, opened, hdict⟩

/-- **A sealed part opens** with every block, from its footer. -/
theorem openPart_sealed (fits : header.Fits)
    (sound : BlocksAt v partHeaderLen header.firstOffset blocks) {footer : Footer}
    (ffits : footer.Fits) (hrecords : footer.records = (recsOf blocks).length)
    (hlast : ∀ r ∈ (recsOf blocks).getLast?, footer.lastTs = r.ts) (dict : Option Bytes)
    (config : Option DictConfig) :
    ∃ r, PartReader.openPart v
        ⟨dataOf header blocks footer.encode, indexOf blocks, dict⟩ true config = .ok r ∧
      Opened r header blocks ∧ r.dict = PartReader.loadDict v dict config := by
  -- the footer is the last bytes of the file
  have hfooter : readFooter (dataOf header blocks footer.encode) = some footer := by
    have hlen : (dataOf header blocks footer.encode).length
        = (header.encode ++ bytesOf blocks).length + footerLen := by
      rw [dataOf, List.length_append, Footer.length_encode]
    have hbig : ¬ (dataOf header blocks footer.encode).length < footerLen + partHeaderLen := by
      rw [hlen, List.length_append, PartHeader.length_encode]
      omega
    rw [readFooter, if_neg hbig, hlen, Nat.add_sub_cancel, dataOf, List.drop_left,
      Footer.decode_encode ffits]
  -- the span is from the first block to the footer's last time
  have hspan : PartReader.spanOf v (dataOf header blocks footer.encode)
      (rowsFrom partHeaderLen blocks) (some footer) = .ok (spanOfRecs (recsOf blocks)) := by
    rcases List.eq_nil_or_concat' blocks with rfl | ⟨init, last, rfl⟩
    · rfl
    · obtain ⟨s, rest, hcons⟩ : ∃ s rest, init ++ [last] = s :: rest :=
        List.exists_cons_of_ne_nil (by simp)
      have hl := (blocksAt_append.mp sound).2.1.nonempty
      have hend : (recsOf (init ++ [last])).getLast? = last.recs.getLast? := by
        rw [recsOf_append, recsOf_cons, show recsOf [] = [] from rfl, List.append_nil,
          List.getLast?_append, List.getLast?_eq_some_getLast hl]
        rfl
      have hts : footer.lastTs = endTs last.header.firstTs last.recs := by
        rw [endTs, List.getLast?_eq_some_getLast hl]
        exact hlast _ (by rw [hend, List.getLast?_eq_some_getLast hl]; rfl)
      have hhead : (rowsFrom partHeaderLen (init ++ [last])).head? = some (s.row partHeaderLen) := by
        rw [hcons]
        rfl
      unfold PartReader.spanOf
      rw [hhead, getLast_rowsFrom, spanOfRecs_blocks hcons rfl sound, ← hts]
      rfl
  have hindex := readIndex_indexOf sound (show ([] : Bytes).length < indexRowLen by decide)
  rw [List.append_nil] at hindex
  refine ⟨⟨header, some footer, rowsFrom partHeaderLen blocks, true,
    PartReader.loadDict v dict config, spanOfRecs (recsOf blocks)⟩, ?_, ⟨rfl, rfl, ?_, rfl⟩, rfl⟩
  · simp only [PartReader.openPart, readHeader_dataOf fits, hindex, bind, Except.bind, if_true,
      hfooter, hspan]
  · rw [PartReader.offsetSpan]
    dsimp only
    rw [hrecords]

end

end Okm.Series
