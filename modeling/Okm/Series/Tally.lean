import Okm.Series.Image

/-!
# What a writer's counters say

`Tallies` is a part writer and its files apart from the dictionary: the blocks in the
files, the records in the buffer, and every counter the writer keeps of them. A record
that is buffered keeps it (`Tallies.push`), and so does the buffer that reaches the
files as one block (`Tallies.land`), whatever the bytes of a record mean.
-/

namespace Okm.Series

open Lib Model

variable {v : Vendor}

structure Tallies (v : Vendor) (w : PartWriter) (header : PartHeader) (blocks : List Stored)
    (pending : List Rec) : Prop where
  fits : header.Fits
  data : w.file = dataOf header blocks []
  index : w.index = indexOf blocks
  sound : BlocksAt v partHeaderLen header.firstOffset blocks
  timed : Timed (recsOf blocks ++ pending)
  fileOff : w.fileOff = w.file.length
  nextOffset : w.nextOffset = header.firstOffset + (recsOf blocks ++ pending).length
  nextFits : w.nextOffset < 2 ^ 64
  lastTs : w.lastTs = (recsOf blocks ++ pending).getLast?.map Rec.ts
  blockRecords : w.blockRecords = pending.length
  recordsFit : pending.length < 2 ^ 32
  block : ∃ chunks : List (Bytes × (Nat × Bytes)), w.block = chunks.flatMap Prod.fst ∧
    (∀ c ∈ chunks, Reads getRecord c.1 c.2) ∧ Deltas (chunks.map Prod.snd) pending
  blockFirstTs : ∀ r ∈ pending.head?, w.blockFirstTs = r.ts
  blockFirstOffset : pending ≠ [] → w.blockFirstOffset = header.firstOffset + (recsOf blocks).length
  records : w.records = (recsOf blocks).length
  blocksCount : w.blocks = blocks.length

variable {w w' : PartWriter} {header : PartHeader} {blocks : List Stored} {pending : List Rec}

/-- The raw bytes of a stored block. -/
def Stored.raw (v : Vendor) (s : Stored) : Bytes := (decodePayload v s.payload s.header).getD []

/-- A sound block opens to its raw bytes. -/
theorem Stored.Sound.opens {s : Stored} {offset : Nat} (h : s.Sound v offset) :
    decodePayload v s.payload s.header = some (s.raw v) ∧ (s.raw v).length = s.header.lenU ∧
      Walks (s.raw v) s.recs := by
  obtain ⟨raw, hraw, hlen, walks⟩ := h.raw
  have hsame : s.raw v = raw := by rw [Stored.raw, hraw, Option.getD_some]
  rw [hsame]
  exact ⟨hraw, hlen, walks⟩

/-- The delta of a record is from the last one there is, and time did not step back. -/
theorem Tallies.stamp (h : Tallies v w header blocks pending) {ts delta : Nat} {head : PartHeader}
    (hts : ts < 2 ^ 64) (hok : w.stamp ts = .ok (delta, head)) :
    (∀ last ∈ (recsOf blocks ++ pending).getLast?, delta = ts - last.ts) ∧ delta < 2 ^ 64 ∧
      ∀ r ∈ recsOf blocks ++ pending, r.ts ≤ ts := by
  unfold PartWriter.stamp at hok
  cases hl : (recsOf blocks ++ pending).getLast? with
  | none =>
    have hnil := List.getLast?_eq_none_iff.mp hl
    rw [h.lastTs, hl] at hok
    obtain ⟨rfl, -⟩ := Prod.mk.inj (Except.ok.inj hok)
    refine ⟨fun last hlast => (by cases hlast), hts, ?_⟩
    intro r hr
    rw [hnil] at hr
    cases hr
  | some last =>
    rw [h.lastTs, hl] at hok
    dsimp only [Option.map_some] at hok
    split at hok
    · cases hok
    · rename_i hle
      obtain ⟨rfl, -⟩ := Prod.mk.inj (Except.ok.inj hok)
      refine ⟨fun r hr => (by rw [Option.some.inj hr]), by omega, ?_⟩
      intro r hr
      -- every record stands at or before the last one
      have hlast : r.ts ≤ last.ts := by
        obtain ⟨init, hinit⟩ := List.getLast?_eq_some_iff.mp hl
        have hpair := h.timed.1
        rw [hinit] at hr hpair
        rcases List.mem_append.mp hr with hr | hr
        · exact (List.pairwise_append.mp hpair).2.2 r hr last (by simp)
        · rw [List.mem_singleton.mp hr]
      omega

/-- The buffer is empty when nothing is pending, and only then. -/
theorem Tallies.block_eq_nil (h : Tallies v w header blocks pending) :
    w.block = [] ↔ pending = [] := by
  obtain ⟨chunks, hblock, hchunks, hdeltas⟩ := h.block
  rw [hblock, ← List.length_eq_zero_iff, ← List.length_eq_zero_iff, ← hdeltas.length,
    List.length_map]
  constructor
  · intro hzero
    have hle : chunks.length ≤ (chunks.flatMap Prod.fst).length := length_le_flatMap fun c hc =>
      (hchunks c hc).ne_nil (show getRecord [] = none from rfl)
    omega
  · intro hzero
    rw [List.length_eq_zero_iff.mp hzero]
    rfl

/-- **One record more in the buffer**, whatever its bytes mean. -/
theorem Tallies.push (h : Tallies v w header blocks pending) {ts delta : Nat} {head : PartHeader}
    (hts : ts < 2 ^ 64) (hstamp : w.stamp ts = .ok (delta, head)) {enc chunk : Bytes}
    (hrecord : putRecord delta enc = some chunk) (hnext : w.nextOffset + 1 < 2 ^ 64)
    (hmany : w.blockRecords + 1 < 2 ^ 32) (body : Body) (header' : PartHeader)
    (dict : Option Dict) :
    Tallies v { w with
      header := header'
      dict := dict
      block := w.block ++ chunk
      blockFirstTs := if w.block = [] then ts else w.blockFirstTs
      blockFirstOffset := if w.block = [] then w.nextOffset else w.blockFirstOffset
      nextOffset := w.nextOffset + 1
      blockRecords := w.blockRecords + 1
      lastTs := some ts } header blocks (pending ++ [⟨ts, enc, body⟩]) := by
  obtain ⟨hdelta, hdelta64, hback⟩ := h.stamp hts hstamp
  have hnil := h.block_eq_nil
  obtain ⟨chunks, hblock, hchunks, hdeltas⟩ := h.block
  refine ⟨h.fits, h.data, h.index, h.sound, ?_, h.fileOff, ?_, hnext, ?_, ?_, ?_, ?_, ?_, ?_,
    h.records, h.blocksCount⟩
  · -- times do not go back
    rw [← List.append_assoc]
    refine ⟨List.pairwise_append.mpr ⟨h.timed.1, List.pairwise_singleton _ _, ?_⟩, ?_⟩
    · intro r hr s hs
      rw [List.mem_singleton.mp hs]
      exact hback r hr
    · -- the first record of a block gives it its time and its offset
      intro r hr
      rcases List.mem_append.mp hr with hr | hr
      · exact h.timed.2 r hr
      · rw [List.mem_singleton.mp hr]
        exact hts
  · show w.nextOffset + 1 = _
    rw [h.nextOffset]
    simp only [List.length_append, List.length_singleton, Nat.add_assoc]
  · rw [← List.append_assoc, List.getLast?_concat]
    rfl
  · show w.blockRecords + 1 = _
    rw [h.blockRecords, List.length_append]
    rfl
  · rw [List.length_append, List.length_singleton, ← h.blockRecords]
    exact hmany
  · -- the buffer is the chunks in order, each a record with its delta
    refine ⟨chunks ++ [(chunk, (delta, enc))], ?_, ?_, ?_⟩
    · show w.block ++ chunk = _
      rw [hblock, List.flatMap_append, List.flatMap_cons, List.flatMap_nil, List.append_nil]
    · intro c hc
      rcases List.mem_append.mp hc with hc | hc
      · exact hchunks c hc
      · rw [List.mem_singleton.mp hc]
        exact getRecord_putRecord hdelta64 hrecord
    · rw [List.map_append]
      refine hdeltas.concat (r := ⟨ts, enc, body⟩) ?_
      intro last hlast
      exact hdelta last (by rw [List.getLast?_append, hlast]; rfl)
  · intro r hr
    show (if w.block = [] then ts else w.blockFirstTs) = r.ts
    cases pending with
    | nil =>
      rw [if_pos (hnil.mpr rfl), ← Option.some.inj hr]
    | cons p pending =>
      rw [if_neg fun hempty => by cases hnil.mp hempty]
      exact h.blockFirstTs r hr
  · intro _
    show (if w.block = [] then w.nextOffset else w.blockFirstOffset) = _
    cases hp : pending with
    | nil =>
      rw [if_pos (hnil.mpr hp), h.nextOffset, hp, List.append_nil]
    | cons p rest =>
      rw [if_neg fun hempty => by rw [hnil.mp hempty] at hp; cases hp]
      exact h.blockFirstOffset (by rw [hp]; simp)

/-- The buffered block, packed, is a sound block of the pending records, and opens to the
buffer. -/
theorem Tallies.packBlock (lawful : v.Lawful) (h : Tallies v w header blocks pending)
    (hne : pending ≠ []) {block : BlockHeader} {payload : Bytes}
    (hok : w.packBlock v = .ok (block, payload)) :
    Stored.Sound v ⟨block, payload, pending⟩ (header.firstOffset + (recsOf blocks).length) ∧
      decodePayload v payload block = some w.block := by
  unfold PartWriter.packBlock at hok
  obtain ⟨⟨codec, stored⟩, hstored, hok⟩ := bind_eq_ok.mp hok
  unfold PartWriter.compressBlock at hstored
  dsimp only at hok
  split at hok
  · cases hok
  rename_i hsmall
  obtain ⟨rfl, rfl⟩ := Prod.mk.inj (Except.ok.inj hok)
  simp only [not_or, Nat.not_le] at hsmall
  obtain ⟨chunks, hblock, hchunks, hdeltas⟩ := h.block
  have hmany : chunks.length ≤ (chunks.flatMap Prod.fst).length := length_le_flatMap fun c hc =>
    (hchunks c hc).ne_nil (show getRecord [] = none from rfl)
  have hlen : chunks.length = pending.length := by
    rw [← hdeltas.length, List.length_map]
  have hpos : 0 < pending.length := List.length_pos_iff.mpr hne
  have hraw : 0 < w.block.length := by
    rw [hblock]
    omega
  have hwalks : Walks w.block pending := by
    refine ⟨chunks.map Prod.snd, ?_, hdeltas⟩
    have hframes := frames_flatMap_of_none hchunks (show getRecord [] = none from rfl) hmany
    rwa [List.append_nil, ← hblock] at hframes
  -- what is stored opens to the buffer, compressed or not
  obtain ⟨hopen, hpayload⟩ : decodePayload v stored
      ⟨codec, w.blockRecords, stored.length, w.block.length, w.blockFirstTs, w.blockFirstOffset⟩
        = some w.block ∧ 0 < stored.length := by
    cases hcodec : w.codec with
    | raw =>
      rw [hcodec] at hstored
      obtain ⟨rfl, rfl⟩ := Prod.mk.inj (Except.ok.inj hstored)
      exact ⟨rfl, hraw⟩
    | zstd =>
      rw [hcodec] at hstored
      dsimp only at hstored
      cases hpack : v.compress w.level w.block with
      | none =>
        rw [hpack] at hstored
        cases hstored
      | some packed =>
        rw [hpack] at hstored
        dsimp only at hstored
        split at hstored
        · obtain ⟨rfl, rfl⟩ := Prod.mk.inj (Except.ok.inj hstored)
          exact ⟨(lawful _ _ _ hpack).1, List.length_pos_iff.mpr (lawful _ _ _ hpack).2⟩
        · obtain ⟨rfl, rfl⟩ := Prod.mk.inj (Except.ok.inj hstored)
          exact ⟨rfl, hraw⟩
  obtain ⟨first, rest, hpending⟩ := List.exists_cons_of_ne_nil hne
  have hts : w.blockFirstTs < 2 ^ 64 := by
    rw [h.blockFirstTs first (by rw [hpending]; rfl)]
    exact h.timed.2 first (by rw [hpending]; simp)
  have hoffset := h.blockFirstOffset hne
  have hnext := h.nextOffset
  have hfits := h.nextFits
  rw [List.length_append] at hnext
  refine ⟨?_, hopen⟩
  exact {
    fits := ⟨by rw [h.blockRecords]; exact h.recordsFit, hsmall.1, hsmall.2, hts, by
      show w.blockFirstOffset < 2 ^ 64
      omega⟩
    lenC := rfl
    lenC_pos := hpayload
    raw := ⟨w.block, hopen, rfl, hwalks⟩
    records := h.blockRecords
    firstOffset := hoffset
    firstTs := h.blockFirstTs
    nonempty := hne }

/-- The counters say nothing of the dictionary. -/
theorem Tallies.withDict (h : Tallies v w header blocks pending) (dict : Option Dict) :
    Tallies v { w with dict := dict } header blocks pending :=
  ⟨h.fits, h.data, h.index, h.sound, h.timed, h.fileOff, h.nextOffset, h.nextFits, h.lastTs,
    h.blockRecords, h.recordsFit, h.block, h.blockFirstTs, h.blockFirstOffset, h.records,
    h.blocksCount⟩

/-- The row of a block that was placed. -/
theorem fromHeader_row {block : BlockHeader} {payload : Bytes} {at_ : Nat} {row : IndexRow}
    (hrow : IndexRow.fromHeader block at_ = some row) :
    at_ < 2 ^ 32 ∧ row = (Stored.mk block payload pending).row at_ := by
  unfold IndexRow.fromHeader at hrow
  split at hrow
  · rename_i hlt
    exact ⟨hlt, (Option.some.inj hrow).symm⟩
  · cases hrow

/-- The block reaches the data file. -/
theorem Tallies.writeData_file (h : Tallies v w header blocks pending) (block : BlockHeader)
    (payload : Bytes) : (w.writeData block payload).file
      = dataOf header (blocks ++ [⟨block, payload, pending⟩]) [] := by
  show writeAt w.file w.fileOff (block.encode ++ payload) = _
  rw [h.fileOff, writeAt_end, h.data]
  simp [dataOf, Stored.bytes, List.append_assoc, bytesOf]

/-- **The row behind its block**: what was pending is one more block of the files. -/
theorem Tallies.land (h : Tallies v w header blocks pending) {block : BlockHeader} {payload : Bytes}
    (hsound : Stored.Sound v ⟨block, payload, pending⟩
      (header.firstOffset + (recsOf blocks).length))
    (hok : (w.writeData block payload).writeIndex block = .ok w') :
    Tallies v w' header (blocks ++ [⟨block, payload, pending⟩]) [] := by
  unfold PartWriter.writeIndex at hok
  rw [show (PartWriter.writeData w block payload).fileOff = w.fileOff from rfl] at hok
  cases hrow : IndexRow.fromHeader block w.fileOff with
  | none =>
    rw [hrow] at hok
    cases hok
  | some row =>
    rw [hrow] at hok
    obtain rfl := Except.ok.inj hok
    obtain ⟨hlt, hat⟩ : w.fileOff < 2 ^ 32 ∧ row = (Stored.mk block payload pending).row w.fileOff :=
      fromHeader_row hrow
    -- the row points to where the block begins
    have hplace : w.fileOff = partHeaderLen + (bytesOf blocks).length := by
      rw [h.fileOff, h.data, dataOf, List.append_nil, List.length_append, PartHeader.length_encode]
    refine ⟨h.fits, h.writeData_file block payload, ?_, ?_, ?_, ?_, ?_, h.nextFits, ?_, rfl,
      by decide, ⟨[], rfl, by simp, rfl⟩, by simp, fun hnil => absurd rfl hnil, ?_, ?_⟩
    · show w.index ++ row.encode = _
      rw [h.index, hat, indexOf, indexOf, rowsFrom_append, List.flatMap_append, ← hplace,
        List.append_assoc]
      simp [rowsFrom]
    · refine blocksAt_append.mpr ⟨h.sound, hsound, ?_, trivial⟩
      rw [← hplace]
      exact hlt
    · -- the counts pass from the buffer to the blocks
      rw [recsOf_append, List.append_nil]
      simpa [recsOf] using h.timed
    · show w.fileOff + blockHeaderLen + block.lenC = (writeAt w.file w.fileOff _).length
      rw [h.fileOff, writeAt_end, List.length_append, List.length_append,
        BlockHeader.length_encode, Nat.add_assoc, ← hsound.lenC]
    · show w.nextOffset = _
      rw [h.nextOffset]
      simp [recsOf]
    · show w.lastTs = _
      rw [h.lastTs]
      simp [recsOf]
    · show w.records + block.records = _
      rw [h.records, show block.records = pending.length from hsound.records]
      simp [recsOf]
    · show w.blocks + 1 = _
      rw [h.blocksCount]
      simp

end Okm.Series
