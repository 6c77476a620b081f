import Okm.Series.Fidelity
import Okm.Series.LogRun

/-!
# A code for two strings

A part has 240 kind bytes for the blocks of its dictionary, and a flush takes the next
one. The string that is promoted after that is written with the last kind byte again,
and reads back as the string that had it first: a read answers a record that was never
appended (`saturated_read`).

Each record up to there leaves the writer as the last one did, with one block more in the
dictionary (`Filling.append`). The one after them writes the very bytes that appending the
last word again would write, and a block of the dictionary that no code names
(`read_twin`).
-/

namespace Okm.Series

open Lib Model

variable {v : Vendor}

/-! ## Two strings with one code -/

def textBody (text : String) : Body := ⟨[(1, .str text)]⟩

theorem encodeWith_coded {d d' : Dict} {text : String} {code : UInt8} {id : Nat}
    (hsettle : d.settle v text = .ok (some (code, id), d')) (hwidth : d'.width code = some 2) :
    (textBody text).encodeWith v (some d)
      = .ok (putVarint 1 ++ code :: (beBytes 8 id).drop 6, some d') := by
  simp [Body.encodeWith, textBody, encodeItems, encodeItem, settleIn, writeSettled, hsettle, hwidth,
    Except.map, bind, Except.bind]

/-- The dictionary of a writer has no part in what it buffers, other than through the
encoding. -/
theorem buffer_twin {w b : PartWriter} {ts : Nat} {old new : Body} {enc : Bytes}
    {dict dict' : Option Dict} (hold : old.encodeWith v w.dict = .ok (enc, dict))
    (hnew : new.encodeWith v w.dict = .ok (enc, dict')) (hok : w.buffer v ts old = .ok b) :
    (b.dict = dict ∧ b.blockBytes = w.blockBytes ∧ b.blockRecords ≠ 0) ∧
      w.buffer v ts new = .ok { b with dict := dict' } := by
  unfold PartWriter.buffer at hok ⊢
  obtain ⟨coded, hcoded, hok⟩ := bind_eq_ok.mp hok
  obtain rfl := Except.ok.inj (hold.symm.trans hcoded)
  obtain ⟨⟨delta, header⟩, hstamp, hok⟩ := bind_eq_ok.mp hok
  simp only [hnew, hstamp, bind, Except.bind] at hok ⊢
  cases hrecord : putRecord delta enc with
  | none =>
    rw [hrecord] at hok
    cases hok
  | some chunk =>
    rw [hrecord] at hok
    dsimp only at hok ⊢
    split at hok
    · cases hok
    · rename_i hfits
      obtain rfl := Except.ok.inj hok
      rw [if_neg hfits]
      exact ⟨⟨rfl, rfl, Nat.succ_ne_zero _⟩, rfl⟩

/-- The same of the flush, which closes the open block of each dictionary. -/
theorem flush_twin {b w : PartWriter} {d d' flushed flushed' : Dict} (hdict : b.dict = some d)
    (hflush : d.flushIfDirty v = .ok flushed) (hflush' : d'.flushIfDirty v = .ok flushed')
    (hsome : b.blockRecords ≠ 0) (hok : b.flushBlock v = .ok w) :
    (w.dict = some flushed ∧ w.blockRecords = 0) ∧
      ({ b with dict := some d' } : PartWriter).flushBlock v
        = .ok { w with dict := some flushed' } := by
  unfold PartWriter.flushBlock at hok ⊢
  rw [if_neg hsome] at hok ⊢
  have hfirst : b.flushDict v = .ok { b with dict := some flushed } := by
    rw [PartWriter.flushDict, hdict]
    dsimp only
    rw [hflush]
    rfl
  have hsecond : PartWriter.flushDict v { b with dict := some d' }
      = .ok { b with dict := some flushed' } := by
    rw [PartWriter.flushDict]
    dsimp only
    rw [hflush']
    rfl
  -- the block packed does not depend on the dictionary
  obtain ⟨b', hb', hok⟩ := bind_eq_ok.mp hok
  obtain rfl := Except.ok.inj (hfirst.symm.trans hb')
  obtain ⟨⟨block, payload⟩, hpack, hok⟩ := bind_eq_ok.mp hok
  rw [show PartWriter.packBlock v { b with dict := some flushed } = b.packBlock v from rfl] at hpack
  rw [hsecond]
  show _ ∧ (PartWriter.packBlock v { b with dict := some flushed' } >>= _) = _
  rw [show PartWriter.packBlock v { b with dict := some flushed' } = b.packBlock v from rfl, hpack]
  show _ ∧ PartWriter.writeIndex (PartWriter.writeData _ block payload) block = _
  dsimp only at hok
  unfold PartWriter.writeIndex at hok ⊢
  rw [show (PartWriter.writeData { b with dict := some flushed } block payload).fileOff = b.fileOff
    from rfl] at hok
  rw [show (PartWriter.writeData { b with dict := some flushed' } block payload).fileOff = b.fileOff
    from rfl]
  cases hrow : IndexRow.fromHeader block b.fileOff with
  | none =>
    rw [hrow] at hok
    cases hok
  | some row =>
    rw [hrow] at hok
    obtain rfl := Except.ok.inj hok
    exact ⟨⟨rfl, rfl⟩, rfl⟩

/-! ## Words -/

/-- Words of three bytes, the last ones first. -/
def word (n : Nat) : String := String.ofList [hexDigit (15 - n / 16), hexDigit (15 - n % 16), 'x']

theorem hexDigit_inj : ∀ a < 16, ∀ b < 16, hexDigit a = hexDigit b → a = b := by decide

theorem word_inj {m n : Nat} (hm : m < 256) (hn : n < 256) (h : word m = word n) : m = n := by
  have hlist := String.ofList_injective h
  rw [List.cons.injEq, List.cons.injEq] at hlist
  have hhigh := hexDigit_inj _ (by omega) _ (by omega) hlist.1
  have hlow := hexDigit_inj _ (by omega) _ (by omega) hlist.2.1
  omega

theorem length_word (n : Nat) : (strBytes (word n)).length = 3 := by
  have hall : ∀ a < 16, ∀ b < 16,
      (strBytes (String.ofList [hexDigit a, hexDigit b, 'x'])).length = 3 := by decide +kernel
  exact hall _ (by omega) _ (by omega)

theorem payload_word (n : Nat) : (blockPayload [word n]).length = 4 := by
  rw [blockPayload, List.flatMap_cons, List.flatMap_nil, List.append_nil, putText,
    List.length_append, length_word]
  rfl

/-! ## A dictionary of words -/

/-- That many words were flushed one by one, each into a block of its own. -/
structure Dict.Filled (d : Dict) (n : Nat) : Prop where
  openBlock : d.openBlock = n
  size : d.blocks.length = n + 1
  widths : ∀ b ∈ d.blocks, b.width = 2
  openEntries : d.openEntries = []
  blockEntries : d.blockEntries = 1000
  tiers : d.tiers = [(0, 1)]
  counts : d.counts.entries = []
  old : ∀ k < n, d.promoted.get (word k) = some (codeOf k, 0)
  fresh : ∀ text, (∀ k < n, text ≠ word k) → d.promoted.get text = none
  placed : dictFileHeaderLen ≤ d.fileOffset
  file : d.file.isSome

section

variable {d : Dict} {n : Nat}

theorem Dict.Filled.openBlock_eq (h : d.Filled n) :
    ∃ block, d.blocks[d.openBlock]? = some block ∧ block.width = 2 ∧ block.entries = [] := by
  have hlt : d.openBlock < d.blocks.length := by
    rw [h.openBlock, h.size]
    exact Nat.lt_succ_self n
  have hget := List.getElem?_eq_getElem hlt
  have hentries := h.openEntries
  rw [Dict.openEntries, hget] at hentries
  exact ⟨_, hget, h.widths _ (List.getElem_mem hlt), hentries⟩

/-- A longer list of strings is no wider. -/
theorem Dict.Filled.widths_enter (h : d.Filled n) (counts : SortedMap Nat Nat) (text : String) :
    ∀ b ∈ (Dict.enter { d with counts := counts } text).1.blocks, b.width = 2 := by
  intro b hb
  obtain ⟨i, hi⟩ := List.mem_iff_getElem?.mp hb
  have hget : Option.map _ d.blocks[i]? = some b := (List.getElem?_modify ..).symm.trans hi
  obtain ⟨old, hold, rfl⟩ := Option.map_eq_some_iff.mp hget
  have hwas := h.widths old (List.mem_of_getElem? hold)
  dsimp only
  split
  · exact hwas
  · exact hwas

/-- The last kind byte stays. -/
theorem codeOf_min {n : Nat} (hn : n < 256) : codeOf n = codeOf (min n 239) := by
  rcases Nat.lt_or_ge n 240 with hlt | hge
  · rw [Nat.min_eq_left (by omega)]
  · rw [Nat.min_eq_right (by omega), codeOf, if_pos hn]
    show UInt8.ofNat (min 255 (16 + n)) = 255
    rw [Nat.min_eq_left (by omega)]
    rfl

/-- A kind byte stands for a block of two-byte ids. -/
theorem width_codeOf {blocks : List Block} (hblocks : d.blocks = blocks)
    (hwidths : ∀ b ∈ blocks, b.width = 2) {k : Nat} (hk : k < blocks.length) (hcode : k < 256) :
    d.width (codeOf k) = some 2 := by
  subst hblocks
  have hlt : min k 239 < d.blocks.length := Nat.lt_of_le_of_lt (Nat.min_le_left k 239) hk
  rw [codeOf_min hcode, Dict.width, Dict.blockOf_codeOf (by omega), List.getElem?_eq_getElem hlt]
  show some (d.blocks[min k 239].width) = some 2
  rw [hwidths _ (List.getElem_mem hlt)]

/-- **A new word is promoted at once**, into the open block. -/
theorem Dict.Filled.settle (h : d.Filled n) (hn : n < 256) : ∃ counts : SortedMap Nat Nat,
    counts.entries = [] ∧ d.settle v (word n)
      = .ok (some (codeOf n, 0), (Dict.enter { d with counts := counts } (word n)).1) := by
  have hempty : d.counts = SortedMap.empty := by
    refine SortedMap.ext_get ?_
    intro key
    rw [(SortedMap.get_eq_none_iff d.counts key).mpr (by rw [h.counts]; simp)]
    rfl
  refine ⟨(SortedMap.empty.insert (Dict.hashOf v (word n)) 1).erase (Dict.hashOf v (word n)),
    SortedMap.entries_erase_single rfl, ?_⟩
  have hfresh : d.promoted.get (word n) = none := by
    refine h.fresh _ ?_
    intro k hk heq
    exact absurd (word_inj (by omega) hn heq.symm) (Nat.ne_of_lt hk)
  have hcounted : d.count (Dict.hashOf v (word n))
      = .ok (1, { d with counts := SortedMap.empty.insert (Dict.hashOf v (word n)) 1 }) := by
    unfold Dict.count
    rw [hempty]
    rfl
  obtain ⟨block, hblock, hwidth, -⟩ := h.openBlock_eq
  -- the first occurrence is promoted
  have hearns : ∀ counts, Dict.earns { d with counts := counts } 1 (word n) = true := by
    intro counts
    unfold Dict.earns
    rw [show ({ d with counts := counts } : Dict).blocks[d.openBlock]? = some block from hblock]
    dsimp only
    rw [hwidth, length_word, h.tiers]
    rfl
  -- the open block has room
  have hready : ∀ counts : SortedMap Nat Nat,
      Dict.ready v { d with counts := counts } = { d with counts := counts } := by
    intro counts
    unfold Dict.ready
    rw [if_neg]
    show ¬ d.blockEntries ≤ d.openEntries.length
    rw [h.blockEntries, h.openEntries]
    decide
  unfold Dict.settle
  rw [hfresh]
  dsimp only
  rw [hcounted]
  show (if _ then _ else _) = _
  rw [if_pos (hearns _)]
  unfold Dict.promote
  rw [hready]
  show Except.ok (some (codeOf d.openBlock, d.openEntries.length), _) = _
  rw [h.openBlock, h.openEntries]
  rfl

/-- A word finds room while there are kind bytes. -/
theorem Dict.Filled.fits (h : d.Filled n) (hn : n < 240) (m : Nat) : d.Fits v (word m) := by
  intro _ count d' hcount _
  obtain ⟨counts, rfl⟩ := Dict.count_eq hcount
  obtain ⟨block, hblock, hwidth, -⟩ := h.openBlock_eq
  have hopenWidth : d.openWidth = 2 := by
    rw [Dict.openWidth, hblock]
    exact hwidth
  have hready : ∀ counts : SortedMap Nat Nat,
      Dict.ready v { d with counts := counts } = { d with counts := counts } := by
    intro counts
    unfold Dict.ready
    rw [if_neg]
    show ¬ d.blockEntries ≤ d.openEntries.length
    rw [h.blockEntries, h.openEntries]
    decide
  refine ⟨?_, ?_, ?_, ?_, ?_⟩ <;> rw [hready]
  · show d.openBlock < 240
    rw [h.openBlock]
    exact hn
  · show d.openWidth ≤ 8
    rw [hopenWidth]
    decide
  · show d.openEntries.length < 256 ^ d.openWidth
    rw [h.openEntries, hopenWidth]
    decide
  · show (blockPayload (d.openEntries ++ [word m])).length < 2 ^ 32
    rw [h.openEntries, List.nil_append, payload_word]
    decide
  · exact h.placed

/-- **A block with strings in it is written at the end of the file**, and a fresh one of
its width follows. -/
theorem flush_dirty {file : Bytes} {block : Block} (hblock : d.blocks[d.openBlock]? = some block)
    (hne : block.entries ≠ []) (hfile : d.file = some file)
    (hcompress : ∀ level raw, (v.compress level raw).isSome) :
    ∃ prev chunk, Dict.packBlock v d.level prev block = .ok chunk ∧
      d.flushIfDirty v = .ok (Dict.pushBlock { d with
        file := some (writeAt file d.fileOffset chunk)
        fileOffset := d.fileOffset + chunk.length
        blocks := d.blocks.set d.openBlock { block with fileOffset := d.fileOffset } } block.width) := by
  have hpack : ∀ prev, ∃ chunk, Dict.packBlock v d.level prev block = .ok chunk := by
    intro prev
    obtain ⟨packed, hpacked⟩ :=
      Option.isSome_iff_exists.mp (hcompress d.level (blockPayload block.entries))
    unfold Dict.packBlock
    dsimp only
    rw [hpacked]
    exact ⟨_, rfl⟩
  have hdirty : ¬ d.openEntries = [] := by
    rw [Dict.openEntries, hblock]
    exact hne
  obtain ⟨hlt, -⟩ := List.getElem?_eq_some_iff.mp hblock
  unfold Dict.flushIfDirty Dict.flushOpenBlock
  rw [if_neg hdirty, hblock]
  dsimp only
  rw [if_neg hne]
  obtain ⟨chunk, hchunk⟩ := hpack (if d.openBlock = 0 then 0
    else ((d.blocks[d.openBlock - 1]?).map Block.fileOffset).getD 0)
  refine ⟨_, chunk, hchunk, ?_⟩
  rw [hchunk, hfile]
  show Except.ok (Dict.pushBlock _ (Dict.openWidth _)) = _
  rw [Dict.openWidth]
  dsimp only
  rw [List.getElem?_set_self hlt]
  rfl

/-- **Flushing a new word** closes its block, and the dictionary is one word fuller. -/
theorem Dict.Filled.flush (h : d.Filled n) (hn : n < 256) {counts : SortedMap Nat Nat}
    (hcounts : counts.entries = []) (hcompress : ∀ level raw, (v.compress level raw).isSome) :
    ∃ flushed prev chunk at_,
      (Dict.enter { d with counts := counts } (word n)).1.flushIfDirty v = .ok flushed ∧
      Dict.packBlock v d.level prev ⟨2, [word n], at_⟩ = .ok chunk ∧
      flushed.file = (d.file.map fun file => writeAt file d.fileOffset chunk) ∧
      flushed.Filled (n + 1) := by
  obtain ⟨block, hblock, hwidth, hentries⟩ := h.openBlock_eq
  obtain ⟨file, hfile⟩ := Option.isSome_iff_exists.mp h.file
  have hopen : (Dict.enter { d with counts := counts } (word n)).1.blocks[d.openBlock]?
      = some ⟨2, [word n], block.fileOffset⟩ := by
    show (d.blocks.modify d.openBlock _)[d.openBlock]? = _
    rw [List.getElem?_modify_eq, hblock]
    show some (Block.mk block.width (block.entries ++ [word n]) block.fileOffset) = _
    rw [hwidth, hentries]
    rfl
  -- the new string fills the open block, which is written
  obtain ⟨prev, chunk, hchunk, hflush⟩ :=
    flush_dirty hopen (List.cons_ne_nil _ _) hfile hcompress
  refine ⟨_, prev, chunk, _, hflush, hchunk, by rw [hfile]; rfl, ?_⟩
  have hlength : (d.blocks.modify d.openBlock fun b => { b with entries := b.entries ++ [word n] }).length
      = n + 1 := by rw [List.length_modify, h.size]
  constructor
  · show (List.set _ _ _).length = _
    rw [List.length_set]
    exact hlength
  · show (List.set _ _ _ ++ [_]).length = _
    rw [List.length_append, List.length_set]
    exact congrArg (· + 1) hlength
  · intro b hb
    rcases List.mem_append.mp hb with hb | hb
    · rcases List.mem_or_eq_of_mem_set hb with hb | rfl
      · exact h.widths_enter counts (word n) b hb
      · rfl
    · rw [List.mem_singleton.mp hb]
  · show (Option.map _ (List.set _ _ _ ++ [_])[(List.set _ _ _).length]?).getD [] = []
    simp
  · exact h.blockEntries
  · exact h.tiers
  · exact hcounts
  · intro k hk
    show (d.promoted.insert (word n) _).get (word k) = _
    rw [SortedMap.get_insert]
    -- the new word, or one of the earlier ones
    by_cases hkn : word k = word n
    · obtain rfl := word_inj (by omega) hn hkn
      rw [if_pos rfl]
      show some (codeOf d.openBlock, d.openEntries.length) = _
      rw [h.openBlock, h.openEntries]
      rfl
    · rw [if_neg hkn]
      refine h.old k ?_
      rcases Nat.lt_or_ge k n with hlt | hge
      · exact hlt
      · exact absurd (by rw [show k = n by omega]) hkn
  · intro text htext
    show (d.promoted.insert (word n) _).get text = _
    rw [SortedMap.get_insert, if_neg (htext n (Nat.lt_succ_self n))]
    exact h.fresh text fun k hk => htext k (Nat.lt_succ_of_lt hk)
  · exact Nat.le_trans h.placed (Nat.le_add_right _ _)
  · rfl

end

/-! ## A writer of words -/

/-- A writer that flushes each record, with nothing but words in it. -/
structure Filling (w : PartWriter) (n : Nat) : Prop where
  dict : ∃ d, w.dict = some d ∧ d.Filled n
  block : w.block = []
  blockRecords : w.blockRecords = 0
  blockBytes : w.blockBytes = 0
  codec : w.codec = .raw
  lastTs : w.lastTs = none ∨ w.lastTs = some 0
  nextOffset : w.nextOffset = n
  fileOff : w.fileOff ≤ partHeaderLen + 49 * n

/-- **One word more.** -/
theorem Filling.append {w : PartWriter} {n : Nat} (h : Filling w n) (hn : n < 256)
    (hcompress : ∀ level raw, (v.compress level raw).isSome) :
    ∃ w', w.append v 0 (textBody (word n)) = .ok (n, w') ∧ Filling w' (n + 1) := by
  obtain ⟨d, hdict, filled⟩ := h.dict
  obtain ⟨counts, hcounts, hsettle⟩ := filled.settle (v := v) hn
  obtain ⟨flushed, prev, dictChunk, at_, hdirty, -, -, hfilled⟩ := filled.flush hn hcounts hcompress
  have hwidth := width_codeOf (d := (Dict.enter { d with counts := counts } (word n)).1) (k := n) rfl
    (filled.widths_enter counts (word n))
    (by
      show n < (d.blocks.modify d.openBlock _).length
      rw [List.length_modify, filled.size]
      exact Nat.lt_succ_self n) hn
  have hencode := encodeWith_coded hsettle hwidth
  rw [← hdict] at hencode
  obtain ⟨head, hstamp⟩ : ∃ head, w.stamp 0 = .ok (0, head) := by
    unfold PartWriter.stamp
    rcases h.lastTs with hnone | hzero
    · rw [hnone]
      exact ⟨_, rfl⟩
    · rw [hzero]
      exact ⟨_, rfl⟩
  obtain ⟨chunk, hrecord, hlength⟩ : ∃ chunk, putRecord 0 (putVarint 1 ++ codeOf n ::
      (beBytes 8 0).drop 6) = some chunk ∧ chunk.length = 9 := ⟨_, rfl, rfl⟩
  -- the buffered writer
  have hsmall : ¬ (2 ^ 64 ≤ w.nextOffset + 1 ∨ 2 ^ 32 ≤ w.blockRecords + 1) := by
    rw [h.nextOffset, h.blockRecords]
    omega
  have hbuffer : w.buffer v 0 (textBody (word n)) = .ok { w with
      header := head
      dict := some (Dict.enter { d with counts := counts } (word n)).1
      block := chunk
      blockFirstTs := 0
      blockFirstOffset := w.nextOffset
      nextOffset := w.nextOffset + 1
      blockRecords := w.blockRecords + 1
      lastTs := some 0 } := by
    simp only [PartWriter.buffer, hencode, hstamp, hrecord, if_neg hsmall, h.block, bind,
      Except.bind, if_true, List.nil_append]
  have hrow : ∀ block, IndexRow.fromHeader block w.fileOff
      = some ⟨block.firstTs, block.firstOffset, w.fileOff, block.lenC, block.lenU, block.records⟩ := by
    intro block
    have hplace := h.fileOff
    unfold IndexRow.fromHeader
    rw [if_pos (by unfold partHeaderLen at hplace; omega)]
  have hfits : ¬ (2 ^ 32 ≤ chunk.length ∨ 2 ^ 32 ≤ chunk.length) := by
    rw [hlength]
    decide
  have happend : ∃ w', w.append v 0 (textBody (word n)) = .ok (w.nextOffset, w') ∧
      w'.dict = some flushed ∧ w'.block = [] ∧ w'.blockRecords = 0 ∧ w'.blockBytes = w.blockBytes ∧
      w'.codec = w.codec ∧ w'.lastTs = some 0 ∧ w'.nextOffset = w.nextOffset + 1 ∧
      w'.fileOff = w.fileOff + blockHeaderLen + chunk.length := by
    simp only [PartWriter.append, hbuffer, bind, Except.bind, PartWriter.flushFull, h.blockBytes,
      Nat.zero_le, if_true, PartWriter.flushBlock, h.blockRecords, Nat.zero_add, one_ne_zero,
      if_false, PartWriter.flushDict, hdirty, Except.map, PartWriter.packBlock,
      PartWriter.compressBlock, h.codec, if_neg hfits, PartWriter.writeIndex, PartWriter.writeData,
      hrow]
    exact ⟨_, rfl, rfl, rfl, rfl, rfl, rfl, rfl, rfl, rfl⟩
  obtain ⟨w', hok, hdict', hblock, hrecords, hbytes, hcodec, hts, hnext, hoff⟩ := happend
  rw [h.nextOffset] at hok hnext
  refine ⟨w', hok, ⟨⟨flushed, hdict', hfilled⟩, hblock, hrecords, hbytes.trans h.blockBytes,
    hcodec.trans h.codec, Or.inr hts, hnext, ?_⟩⟩
  have hplace := h.fileOff
  rw [hoff, hlength]
  unfold blockHeaderLen
  omega

/-! ## The last word again -/

/-- **The record of the word past the last kind byte is that of the word that has it.** -/
theorem append_twin {w wNew : PartWriter} {offset : Nat} {d : Dict} (h : Filling w 240)
    (hdict : w.dict = some d) (hcompress : ∀ level raw, (v.compress level raw).isSome)
    (hok : w.append v 0 (textBody (word 240)) = .ok (offset, wNew)) :
    w.append v 0 (textBody (word 239)) = .ok (offset, { wNew with dict := some d }) ∧
      wNew.blockRecords = 0 ∧ ∃ flushed prev chunk at_, wNew.dict = some flushed ∧
        Dict.packBlock v d.level prev ⟨2, [word 240], at_⟩ = .ok chunk ∧
        flushed.file = (d.file.map fun file => writeAt file d.fileOffset chunk) := by
  obtain ⟨e, he, filled⟩ := h.dict
  obtain rfl := Option.some.inj (hdict.symm.trans he)
  obtain ⟨counts, hcounts, hsettle⟩ := filled.settle (v := v) (by omega)
  obtain ⟨flushed, prev, chunk, at_, hdirty, hchunk, hfile, -⟩ :=
    filled.flush (by omega) hcounts hcompress
  have hwidth := width_codeOf (d := (Dict.enter { d with counts := counts } (word 240)).1) (k := 240)
    rfl (filled.widths_enter counts (word 240))
    (by
      show 240 < (d.blocks.modify d.openBlock _).length
      rw [List.length_modify, filled.size]
      decide) (by omega)
  -- block 240 has the code of block 239, so both strings are written as one
  have hsettleOld : d.settle v (word 239) = .ok (some (codeOf 240, 0), d) := by
    unfold Dict.settle
    rw [filled.old 239 (by omega), codeOf_min (show 240 < 256 by decide)]
    rfl
  have hwidthOld : d.width (codeOf 240) = some 2 :=
    width_codeOf rfl filled.widths (by rw [filled.size]; decide) (by omega)
  have hencodeNew := encodeWith_coded hsettle hwidth
  have hencodeOld := encodeWith_coded hsettleOld hwidthOld
  rw [← hdict] at hencodeOld hencodeNew
  obtain ⟨b, hbuffer, hok⟩ := bind_eq_ok.mp hok
  obtain ⟨written, hflush, hok⟩ := bind_eq_ok.mp hok
  obtain ⟨rfl, rfl⟩ := Prod.mk.inj (Except.ok.inj hok)
  obtain ⟨⟨hb, hbytes, hsome⟩, hbufferOld⟩ := buffer_twin hencodeNew hencodeOld hbuffer
  -- every record fills its block
  have hfull : b.blockBytes ≤ b.block.length := by
    rw [hbytes, h.blockBytes]
    exact Nat.zero_le _
  have hclean : d.flushIfDirty v = .ok d := by
    unfold Dict.flushIfDirty
    rw [if_pos filled.openEntries]
  unfold PartWriter.flushFull at hflush
  rw [if_pos hfull] at hflush
  obtain ⟨⟨hwritten, hrecords⟩, hflushOld⟩ := flush_twin hb hdirty hclean hsome hflush
  refine ⟨?_, hrecords, flushed, prev, chunk, at_, hwritten, hchunk, hfile⟩
  rw [← hdict] at hflushOld
  show (w.buffer v 0 (textBody (word 239)) >>= _) = _
  rw [hbufferOld]
  show (PartWriter.flushFull v { b with dict := _ } >>= _) = _
  unfold PartWriter.flushFull
  rw [if_pos hfull, hflushOld, hdict]
  rfl

/-- **The part reads as if the word that has the code had been appended.** -/
theorem read_twin (lawful : v.Lawful) {vol : Volume} {w wNew : PartWriter} {offset : Nat}
    (hheld : vol.Held v w) (h : Filling w 240)
    (hcompress : ∀ level raw, (v.compress level raw).isSome)
    (hok : w.append v 0 (textBody (word 240)) = .ok (offset, wNew)) :
    offset = vol.header.firstOffset + vol.recs.length ∧ ∃ enc,
      PartWriter.readHeader wNew.files.data = .ok vol.header ∧
      ∀ config, ∃ r, PartReader.openPart v wNew.files false config = .ok r ∧
        Answers v r wNew.files.data vol.header.firstOffset
          (vol.recs ++ [⟨0, enc, textBody (word 239)⟩]) := by
  obtain ⟨d, hdict, filled⟩ := h.dict
  obtain ⟨file, closed, last, holds⟩ := hheld.writes.dict d hdict
  obtain ⟨hold, hflushed, flushed, prev, chunk, at_, hwritten, hchunk, hfile⟩ :=
    append_twin h hdict hcompress hok
  have hgrownFile : wNew.files.dict = some (file ++ chunk) := by
    have hoffset : d.fileOffset = file.length := by
      rcases holds.offset with heq | ⟨hzero, -, -⟩
      · exact heq
      · have hplaced := filled.placed
        rw [hzero] at hplaced
        exact absurd hplaced (by decide)
    unfold PartWriter.files
    rw [hwritten]
    dsimp only
    rw [hfile, holds.contents, Option.map_some, hoffset, writeAt_end]
  -- the old word has its code, so it promotes nothing
  have hroom : FitsItems v w.dict (textBody (word 239)).items := by
    refine ⟨?_, fun _ _ _ => trivial⟩
    intro text e htext he
    obtain rfl := Value.str.inj htext
    obtain rfl := Option.some.inj (hdict.symm.trans he)
    intro hfresh
    rw [filled.old 239 (by omega)] at hfresh
    cases hfresh
  obtain ⟨hoffset, ⟨enc, more, pending, hw, hrecs⟩, -⟩ :=
    hheld.writes.append lawful (by omega) hroom hold
  obtain rfl : pending = [] := by
    rw [← List.length_eq_zero_iff, ← hw.blockRecords]
    exact hflushed
  rw [List.append_nil] at hrecs
  have hall : recsOf (vol.blocks ++ more) = vol.recs ++ [⟨0, enc, textBody (word 239)⟩] := by
    rw [recsOf_append, hrecs, Volume.recs, List.append_assoc]
  have htimed : Timed (recsOf (vol.blocks ++ more)) := by
    have h := hw.timed
    rwa [List.append_nil] at h
  have hfiles : wNew.files = ⟨dataOf vol.header (vol.blocks ++ more) [],
      indexOf (vol.blocks ++ more), some (file ++ chunk)⟩ := by
    rw [← hw.data, ← hw.index, ← hgrownFile]
    rfl
  rw [hfiles]
  refine ⟨hoffset, enc, readHeader_dataOf hw.fits, ?_⟩
  intro config
  obtain ⟨r, hopen, opened, hrdict⟩ :=
    openPart_whole hw.fits hw.sound htimed (some (file ++ chunk)) config
  -- a reader loads the old blocks and one more
  have hdecodes : Decodes r.dict (recsOf (vol.blocks ++ more)) := by
    obtain ⟨found, hfound, -⟩ := holds.onFile
    have hsound : Block.Sound ⟨2, [word 240], at_⟩ := by
      refine ⟨Or.inl rfl, show [word 240].length < 2 ^ 32 by decide, ?_⟩
      show (blockPayload [word 240]).length < 2 ^ 32
      rw [payload_word]
      decide
    have hgrown : FileHolds v (file ++ chunk) (found ++ [⟨2, [word 240], chunk.length⟩]) :=
      hfound.snoc (packBlock_reads lawful hsound hchunk) rfl (packBlock_ne_nil hchunk)
    have hdecodesOld := hw.decodes config
    rw [show PartWriter.files { wNew with dict := some d }
      = ⟨wNew.file, wNew.index, d.file⟩ from rfl, holds.contents] at hdecodesOld
    rw [hrdict]
    refine hdecodesOld.mono ?_
    intro code id r hr
    rw [resolveIn_loadDict] at hr ⊢
    exact Dict.load_extends (readBlocks_file hfound) (readBlocks_file hgrown) _ _ _ _ code id r hr
  refine ⟨r, hopen, ?_⟩
  rw [← hall]
  exact opened.answers hw.sound htimed hdecodes

/-! ## A log of words -/

/-- A log of one stream whose records are flushed one by one, and whose strings of three
bytes earn a code at once. -/
def crowdedConfig : Config := ⟨.ns, 1, 0, 1000000, 1, .raw, some ⟨[(0, 1)], 1000⟩, none⟩

def wordAppend (n : Nat) : LogOp := .append 0 0 (textBody (word n))

/-- Where the next record lands: in the one part there is, which is full of words. -/
structure Crowding (landing : Log.Landing) (n : Nat) : Prop where
  place : landing.partition = none ∧ landing.bucket = 0 ∧ landing.ts = 0 ∧ landing.index = 0
  config : landing.log.config = crowdedConfig
  cache : landing.log.cache = []
  active : landing.log.active = [landing.active]
  key : landing.active.key = dirKey 0 none
  dirs : landing.log.disk.entries.map Prod.fst = [dirKey 0 none]
  sealedParts : (landing.log.disk.dirAt (dirKey 0 none)).sealedParts.entries = []
  filling : Filling landing.active.writer n

theorem filled_create (level : Int) : (Dict.create ⟨[(0, 1)], 1000⟩ level).Filled 0 where
  openBlock := rfl
  size := rfl
  widths := by
    intro b hb
    rw [List.mem_singleton.mp hb]
  openEntries := rfl
  blockEntries := rfl
  tiers := rfl
  counts := rfl
  old := fun k hk => absurd hk (Nat.not_lt_zero k)
  fresh := fun _ _ => rfl
  placed := Nat.le_refl _
  file := rfl

/-- The first record finds an empty disk, and a part is created for it. -/
theorem crowding_fresh : ∃ landing,
    (∀ body, (Log.fresh crowdedConfig).land v 0 0 body = .ok landing) ∧ Crowding landing 0 := by
  have hland : ∀ body, (Log.fresh crowdedConfig).land v 0 0 body = .ok ⟨none, 0, 0,
      { Log.fresh crowdedConfig with
        active := [⟨0, none, 0, PartWriter.create ⟨.ns, 0, 0, 0, 0⟩ 0 1 .raw (some ⟨[(0, 1)], 1000⟩)⟩]
        disk := Disk.storeOpen SortedMap.empty (dirKey 0 none) 0
          (PartWriter.create ⟨.ns, 0, 0, 0, 0⟩ 0 1 .raw (some ⟨[(0, 1)], 1000⟩)).files }, 0,
      ⟨0, none, 0, PartWriter.create ⟨.ns, 0, 0, 0, 0⟩ 0 1 .raw (some ⟨[(0, 1)], 1000⟩)⟩⟩ :=
    fun body => rfl
  refine ⟨_, hland, ⟨⟨rfl, rfl, rfl, rfl⟩, rfl, rfl, rfl, rfl, rfl, rfl, ?_⟩⟩
  exact ⟨⟨_, rfl, filled_create 1⟩, rfl, rfl, rfl, rfl, Or.inl rfl, rfl, Nat.le_refl _⟩

/-- The only writer takes the next record too, while its part has room. -/
theorem land_again {log : Log} {active : Active} (hconfig : log.config = crowdedConfig)
    (hts : log.lastTs.get (streamKey none) = some 0) (hactive : log.active = [active])
    (hkey : active.key = dirKey 0 none) (hroom : log.isFull active.writer = false) (body : Body) :
    log.land v 0 0 body = .ok ⟨none, 0, 0, log, 0, active⟩ := by
  have hpartition : log.partitionFor v body = .ok none := by
    unfold Log.partitionFor
    rw [hconfig]
    rfl
  have hnow : log.now none 0 = 0 := by
    unfold Log.now
    rw [hts]
    rfl
  have hbucket : log.config.bucketOf 0 = .ok 0 := by
    rw [hconfig]
    rfl
  have hstale : log.sealPartsOlderThan v 0 (some none) = .ok log := by
    unfold Log.sealPartsOlderThan
    rw [show log.staleIndexes 0 (some none) = [] by simp [Log.staleIndexes]]
    rfl
  have hindex : log.activeIndex (dirKey 0 none) = some 0 := by
    unfold Log.activeIndex
    rw [hactive]
    simp [hkey]
  have hfirst : log.active[0]? = some active := by
    rw [hactive]
    rfl
  have hensure : log.ensurePart v 0 none 0 0 = .ok log := by
    unfold Log.ensurePart
    simp only [hstale, hindex, hfirst, hroom, bind, Except.bind]
    rfl
  unfold Log.land
  simp only [hpartition, hnow, hbucket, hensure, hindex, hfirst, bind, Except.bind]

/-- **A word is appended**, and the next one lands behind it. -/
theorem Crowding.append {log : Log} {landing : Log.Landing} {n : Nat} (h : Crowding landing n)
    (hland : ∀ body, log.land v 0 0 body = .ok landing) (hn : n < 256)
    (hcompress : ∀ level raw, (v.compress level raw).isSome) : ∃ wNew log' landing',
      landing.active.writer.append v 0 (textBody (word n)) = .ok (n, wNew) ∧
      log' = { landing.log.setWriter 0 landing.active wNew with
        lastTs := landing.log.lastTs.insert (streamKey none) 0 } ∧
      log.append v 0 0 (textBody (word n)) = .ok (⟨none, 0, (0, n, textBody (word n))⟩, log') ∧
      (∀ body, log'.land v 0 0 body = .ok landing') ∧ Crowding landing' (n + 1) := by
  obtain ⟨hpart, hbucket, hts, hindex⟩ := h.place
  obtain ⟨wNew, happend, hfilling⟩ := h.filling.append hn hcompress
  obtain ⟨dir, hentries⟩ := SortedMap.entries_of_keys h.dirs
  refine ⟨wNew, _, ⟨none, 0, 0, { landing.log.setWriter 0 landing.active wNew with
      lastTs := landing.log.lastTs.insert (streamKey none) 0 }, 0,
      { landing.active with writer := wNew }⟩, happend, rfl, ?_, ?_, ?_⟩
  · show (log.land v 0 0 _ >>= _) = _
    rw [hland]
    show (landing.active.writer.append v landing.ts _ >>= _) = _
    rw [hts, happend]
    show Except.ok (Log.Appended.mk landing.partition landing.bucket (0, n, _),
      { landing.log.setWriter landing.index landing.active wNew with
        lastTs := landing.log.lastTs.insert (streamKey landing.partition) 0 }) = _
    rw [hpart, hbucket, hindex]
  · -- the next record lands where this one did
    have hactive : landing.log.active.set 0 { landing.active with writer := wNew }
        = [{ landing.active with writer := wNew }] := by
      rw [h.active]
      rfl
    refine land_again h.config ?_ hactive h.key ?_
    · show (SortedMap.insert _ _ _).get _ = _
      rw [SortedMap.get_insert, if_pos rfl]
    · -- it is far from the size at which a part is full
      have hplace := hfilling.fileOff
      show decide (landing.log.config.partBytes ≤ wNew.fileOff + wNew.block.length) = false
      rw [h.config, hfilling.block]
      refine decide_eq_false ?_
      show ¬ 1000000 ≤ wNew.fileOff + 0
      unfold partHeaderLen at hplace
      omega
  · refine ⟨⟨rfl, rfl, rfl, rfl⟩, h.config, h.cache, ?_, h.key, ?_, ?_, hfilling⟩
    · show landing.log.active.set 0 _ = _
      rw [h.active]
      rfl
    · show (SortedMap.insert landing.log.disk landing.active.key _).entries.map Prod.fst = _
      rw [h.key, SortedMap.entries_insert_single hentries]
      rfl
    · show (Disk.dirAt (SortedMap.insert landing.log.disk landing.active.key _) _).sealedParts.entries = _
      rw [h.key, dirAt_insert, if_pos rfl]
      exact h.sealedParts

/-- A word's record has its time in the first bucket, and room until the last kind byte
is taken. -/
theorem Crowding.meets {log : Log} {landing : Log.Landing} {n : Nat} (h : Crowding landing n)
    (hland : ∀ body, log.land v 0 0 body = .ok landing) (hn : n < 256)
    (hcompress : ∀ level raw, (v.compress level raw).isSome) :
    (wordAppend n).StaysIn v 0 log ∧ (n < 240 → (wordAppend n).Roomy v log) := by
  obtain ⟨wNew, log', landing', -, -, happend, -⟩ := h.append hland hn hcompress
  obtain ⟨hpart, hbucket⟩ := append_lands happend
  constructor
  · intro stream hstream
    obtain rfl := Except.ok.inj (hpart.symm.trans hstream)
    exact hbucket
  · intro hroom found hfound
    obtain rfl := Except.ok.inj ((hland _).symm.trans hfound)
    refine ⟨?_, fun _ _ _ => trivial⟩
    intro text d htext hdict
    obtain rfl := Value.str.inj htext
    obtain ⟨e, he, filled⟩ := h.filling.dict
    obtain rfl := Option.some.inj (hdict.symm.trans he)
    exact filled.fits hroom n

/-- **The dictionary fills up**, a word at a time. -/
theorem crowding_run (hcompress : ∀ level raw, (v.compress level raw).isSome) {n : Nat}
    (hn : n ≤ 240) : ∃ past log landing,
      Trace (Log.step v) (fun _ log op => op.StaysIn v 0 log ∧ op.Roomy v log)
        (Log.fresh crowdedConfig) past log ∧
      (∀ body, log.land v 0 0 body = .ok landing) ∧ Crowding landing n := by
  induction n with
  | zero =>
    obtain ⟨landing, hland, h⟩ := crowding_fresh (v := v)
    exact ⟨[], _, landing, .nil, hland, h⟩
  | succ n ih =>
    obtain ⟨past, log, landing, run, hland, h⟩ := ih (by omega)
    obtain ⟨hstays, hroomy⟩ := h.meets hland (by omega) hcompress
    obtain ⟨wNew, log', landing', -, -, happend, hland', h'⟩ := h.append hland (by omega) hcompress
    have hstep : log.step v (wordAppend n)
        = .ok (.appended ⟨none, 0, (0, n, textBody (word n))⟩, log') := by
      show (log.append v 0 0 _ >>= _) = _
      rw [happend]
      rfl
    exact ⟨_, log', landing', run.snoc ⟨hstays, hroomy (by omega)⟩ hstep, hland', h'⟩

/-! ## What is read -/

/-- From the last offset on, only the last row is wanted. -/
theorem want_last (first : Nat) (recs : List Rec) (r : Rec) :
    (Select.offset (first + recs.length)).want (rowsOf first (recs ++ [r]))
      = [(r.ts, first + recs.length, r.body)] := by
  rw [rowsOf_append, Select.want_append]
  have hnone : (Select.offset (first + recs.length)).want (rowsOf first recs) = [] := by
    refine List.filter_eq_nil_iff.mpr ?_
    intro row hrow hwant
    obtain ⟨_, _, _, _, _, hlt⟩ := mem_rowsOf hrow
    have hge : first + recs.length ≤ row.2.1 := of_decide_eq_true hwant
    omega
  rw [hnone, List.nil_append]
  simp [rowsOf, Select.want, Select.wants]

/-- A read of a log that has one part, and that one open. -/
theorem read_single (log : Log) (key : DirKey) (number start : Nat) {first : Nat}
    {files : PartFiles} {r : PartReader} {header : PartHeader} {recs : List Rec}
    (hdirs : log.disk.entries.map Prod.fst = [key])
    (hsealed : (log.disk.dirAt key).sealedParts.entries = [])
    (hopenParts : (log.disk.dirAt key).openParts.entries = [(number, files)])
    (hcache : log.cache = []) (hheader : PartWriter.readHeader files.data = .ok header)
    (hopen : PartReader.openPart v files false log.config.dict = .ok r)
    (answers : Answers v r files.data first recs) :
    ∃ log', log.read v (.stream key.partition) (.offset start) 1
      = .ok (((Select.offset start).want (rowsOf first recs)).take 1, log') := by
  -- one directory with one open part
  have hpaths : log.disk.allParts = [⟨key, number, false⟩] := by
    obtain ⟨dir, hentries⟩ := SortedMap.entries_of_keys hdirs
    have hdir : log.disk.dirAt key = dir := by
      have hmem : (key, dir) ∈ log.disk.entries := by
        rw [hentries]
        exact List.mem_singleton_self _
      exact dirAt_of_mem hmem
    rw [hdir] at hsealed hopenParts
    rw [Disk.allParts, hentries]
    simp [Dir.paths, hsealed, hopenParts]
  have hfile : log.disk.fileAt ⟨key, number, false⟩ = some files := by
    show (log.disk.dirAt key).openParts.get number = _
    rw [SortedMap.get_eq_some_iff, hopenParts]
    exact List.mem_singleton_self _
  have hparts : log.disk.partsByOffset = [⟨key, number, false⟩] := by
    have hfirst : log.disk.firstOffsetOf ⟨key, number, false⟩ = .ok header.firstOffset := by
      rw [Disk.firstOffsetOf, hfile]
      dsimp only
      rw [hheader]
      rfl
    have hkeyed : log.disk.keyedPart ⟨key, number, false⟩
        = some (header.firstOffset, ⟨key, number, false⟩) := by
      rw [Disk.keyedPart, hfirst]
    rw [Disk.partsByOffset, Disk.keyed, hpaths, List.filterMap_cons, hkeyed]
    rfl
  -- which answers what it holds
  have hvisit : visitFrom v start 1 r files.data []
      = .ok (fill 1 [] ((Select.offset start).want (rowsOf first recs))) :=
    answers.visitFrom start 1 []
  have hreader : readerFor v log.config.dict files log.cache ⟨key, number, false⟩
      = .ok (r, log.cache.hold ⟨key, number, false⟩ ⟨files.data.length, r⟩) := by
    rw [hcache]
    show (PartReader.openPart v files false log.config.dict >>= _) = _
    rw [hopen]
    rfl
  have hcovers : (Which.stream key.partition).covers key.partition = true := by
    simp [Which.covers]
  refine ⟨{ log with cache := log.cache.hold ⟨key, number, false⟩ ⟨files.data.length, r⟩ }, ?_⟩
  show (readStreams v _ _ _ _ _ 1 >>= _) = _
  unfold readStreams
  rw [hparts]
  unfold readParts
  rw [if_neg (by decide), if_pos hcovers, hfile]
  dsimp only
  rw [hreader]
  show ((visitFrom v start 1 r files.data [] >>= _) >>= _) >>= _ = _
  rw [hvisit]
  show Except.ok (fill 1 [] _, _) = _
  rw [fill, List.nil_append]
  rfl

theorem plainVendor_compresses (level : Int) (raw : Bytes) :
    (plainVendor.compress level raw).isSome = true := rfl

/-- **A read answers a record that was never appended**: the word the last append
promoted has the code of the one before. -/
theorem saturated_read : ∃ past log start row log',
    Trace (Log.step plainVendor) (fun _ log op => op.StaysIn plainVendor 0 log)
        (Log.fresh crowdedConfig) past log ∧
      log.read plainVendor (.stream none) (.offset start) 1 = .ok ([row], log') ∧
      row ∉ keptRows none (past.map Prod.snd) := by
  obtain ⟨past, log, landing, run, hland, h⟩ :=
    crowding_run plainVendor_compresses (Nat.le_refl 240)
  obtain ⟨lay, hinv⟩ := runInv_run plainVendor_lawful (run.mono fun _ _ _ hmeets => hmeets.2)
  have hbucket := inBucket_run (run.mono fun _ _ _ hmeets => hmeets.1)
  obtain ⟨hstays, -⟩ := h.meets hland (by omega) plainVendor_compresses
  obtain ⟨wNew, next, landing', hnew, hnext, happend, -, -⟩ :=
    h.append hland (by omega) plainVendor_compresses
  have hstep : log.step plainVendor (wordAppend 240)
      = .ok (.appended ⟨none, 0, (0, 240, textBody (word 240))⟩, next) := by
    show (log.append plainVendor 0 0 _ >>= _) = _
    rw [happend]
    rfl
  -- the part the record landed in
  obtain ⟨⟨lay₁, h₁, hsame₁⟩, hactive, -, -⟩ :=
    hinv.inv.land plainVendor_lawful (by omega) (by omega) (hland (textBody (word 240)))
  obtain ⟨vol, hvol, hnumber, hheld⟩ := h₁.active hactive
  obtain ⟨hoffset, enc, hheader, hopens⟩ :=
    read_twin plainVendor_lawful hheld h.filling plainVendor_compresses hnew
  obtain ⟨r, hopen, hanswers⟩ := hopens landing.log.config.dict
  obtain ⟨dir, hentries⟩ := SortedMap.entries_of_keys h.dirs
  have hopenParts : (landing.log.disk.dirAt (dirKey 0 none)).openParts.entries
      = [(landing.active.number, vol.files)] := by
    rw [← h.key, (h₁.dirs landing.active.key).openParts, hvol, ← hnumber]
    rfl
  obtain ⟨log', hread⟩ := read_single next (dirKey 0 none) landing.active.number 240
    (by
      rw [hnext]
      show (SortedMap.insert landing.log.disk landing.active.key _).entries.map Prod.fst = _
      rw [h.key, SortedMap.entries_insert_single hentries]
      rfl)
    (by
      rw [hnext]
      show (Disk.dirAt (SortedMap.insert landing.log.disk landing.active.key _) _).sealedParts.entries = _
      rw [h.key, dirAt_insert, if_pos rfl]
      exact h.sealedParts)
    (by
      rw [hnext]
      show (Disk.dirAt (SortedMap.insert landing.log.disk landing.active.key _) _).openParts.entries = _
      rw [h.key, dirAt_insert, if_pos rfl]
      exact SortedMap.entries_insert_single hopenParts _)
    (by rw [hnext]; exact h.cache) hheader (by rw [hnext]; exact hopen) hanswers
  rw [hoffset, want_last, ← hoffset] at hread
  refine ⟨_, _, 240, _, log',
    (run.mono fun _ _ _ hmeets => hmeets.1).snoc hstays hstep, hread, ?_⟩
  -- the rows before it have lower offsets, and the last one has the new word
  intro hmem
  obtain ⟨did, hdid, hrow⟩ := List.mem_map.mp hmem
  obtain ⟨hdid, hpart⟩ := List.mem_filter.mp hdid
  rw [List.map_append, List.map_singleton, kept_snoc] at hdid
  rcases mem_noteKept hdid with hbefore | hlast
  · have hin : did.row ∈ rowsOf 0 (lay (dirKey 0 none)).recs := by
      rw [hinv.rows]
      refine List.mem_map_of_mem (List.mem_filter.mpr ⟨hbefore, ?_⟩)
      rw [hbucket did hbefore, of_decide_eq_true hpart]
      exact decide_eq_true rfl
    obtain ⟨_, _, _, _, _, hlt⟩ := mem_rowsOf hin
    rw [h.key] at hvol
    have hlength := h₁.length_recs hvol
    rw [hsame₁, ← hoffset] at hlength
    rw [hrow, hlength] at hlt
    exact absurd hlt (by simp)
  · obtain rfl := LogAnswer.appended.inj hlast
    have hbody := congrArg (fun row : Row => row.2.2) hrow
    have hword : word 240 = word 239 := by simpa [textBody] using hbody
    exact absurd (word_inj (by omega) (by omega) hword) (by omega)

end Okm.Series
