import Okm.Series.PartInv

/-!
# Part operations over a part's life

`append`, `seal` and `adopt` against `Writes`: appending adds one record behind
everything written so far, whether or not it fills a block; a sealed part is a data
file with every record and a footer that counts them; and adopting the files of a
writer with nothing pending gives that writer's records back, under a dictionary in
which every code already written still has its meaning.
-/

namespace Okm.Series

open Lib Model

variable {v : Vendor} {w w' : PartWriter} {header : PartHeader} {blocks : List Stored}
  {pending : List Rec}

/-! ## Appending -/

/-- A flush of whatever is pending. -/
theorem Writes.flush (lawful : v.Lawful) (h : Writes v w header blocks pending)
    (hok : w.flushBlock v = .ok w') :
    (∃ more, recsOf more = pending ∧ Writes v w' header (blocks ++ more) []) ∧
      Continues v w w' := by
  by_cases hne : pending = []
  · subst hne
    rw [h.flushBlock_nil] at hok
    obtain rfl := Except.ok.inj hok
    exact ⟨⟨[], rfl, by rwa [List.append_nil]⟩, Continues.refl v w⟩
  · obtain ⟨⟨s, hs, hw'⟩, hdict⟩ := h.flushBlock lawful hne hok
    refine ⟨⟨[s], ?_, hw'⟩, hdict⟩
    rw [recsOf_cons, hs]
    exact List.append_nil _

/-- **One record more**, in the buffer or already in a block. -/
theorem Writes.append (lawful : v.Lawful) (h : Writes v w header blocks pending) {ts offset : Nat}
    {body : Body} (hts : ts < 2 ^ 64) (fits : FitsItems v w.dict body.items)
    (hok : w.append v ts body = .ok (offset, w')) :
    offset = header.firstOffset + (recsOf blocks ++ pending).length ∧
      (∃ enc more pending', Writes v w' header (blocks ++ more) pending' ∧
        recsOf more ++ pending' = pending ++ [⟨ts, enc, body⟩]) ∧ Continues v w w' := by
  obtain ⟨buffered, hbuffer, hok⟩ := bind_eq_ok.mp hok
  obtain ⟨flushed, hflush, hok⟩ := bind_eq_ok.mp hok
  obtain ⟨rfl, rfl⟩ := Prod.mk.inj (Except.ok.inj hok)
  refine ⟨h.nextOffset, ?_⟩
  obtain ⟨⟨enc, hbuffered⟩, hdict⟩ := h.buffer lawful hts fits hbuffer
  unfold PartWriter.flushFull at hflush
  split at hflush
  · obtain ⟨⟨more, hmore, hw'⟩, hmoredict⟩ := hbuffered.flush lawful hflush
    exact ⟨⟨enc, more, [], hw', by rw [hmore, List.append_nil]⟩, hdict.trans hmoredict⟩
  · obtain rfl := Except.ok.inj hflush
    exact ⟨⟨enc, [], pending ++ [⟨ts, enc, body⟩], by rwa [List.append_nil], rfl⟩, hdict⟩

/-! ## Sealing -/

/-- What a sealed part holds. -/
structure Sealed (v : Vendor) (files : PartFiles) (header : PartHeader) (blocks : List Stored) :
    Prop where
  fits : header.Fits
  footer : ∃ footer : Footer, footer.Fits ∧ footer.records = (recsOf blocks).length ∧
    (∀ r ∈ (recsOf blocks).getLast?, footer.lastTs = r.ts) ∧
    files.data = dataOf header blocks footer.encode
  index : files.index = indexOf blocks
  sound : BlocksAt v partHeaderLen header.firstOffset blocks
  timed : Timed (recsOf blocks)
  nextFits : header.firstOffset + (recsOf blocks).length < 2 ^ 64
  decodes : ∀ config, Decodes (PartReader.loadDict v files.dict config) (recsOf blocks)

theorem length_bytesOf_ge (blocks : List Stored) : blocks.length ≤ (bytesOf blocks).length := by
  refine length_le_flatMap ?_
  intro s hs
  refine List.ne_nil_of_length_pos ?_
  rw [Stored.bytes, List.length_append, BlockHeader.length_encode]
  exact Nat.lt_of_lt_of_le (by decide) (Nat.le_add_right _ _)

/-- A part has fewer than `2 ^ 32` blocks: each starts below that byte. -/
theorem length_blocks_lt {blocks : List Stored} {offset : Nat}
    (h : BlocksAt v partHeaderLen offset blocks) : blocks.length < 2 ^ 32 := by
  rcases List.eq_nil_or_concat' blocks with rfl | ⟨init, last, rfl⟩
  · decide
  · have hlast := (blocksAt_append.mp h).2
    have hlen := length_bytesOf_ge init
    have hat := hlast.2.1
    have hhead : 1 ≤ partHeaderLen := by decide
    rw [List.length_append, List.length_singleton]
    omega

/-- **A sealed part** holds everything that was appended. -/
theorem Writes.sealPart (lawful : v.Lawful) (h : Writes v w header blocks pending)
    {footer : Footer} {files : PartFiles} (hok : w.sealPart v = .ok (footer, files)) :
    (∃ more, recsOf more = pending ∧ Sealed v files header (blocks ++ more)) ∧
      ∀ config config', Knows (PartReader.loadDict v w.files.dict config)
        (PartReader.loadDict v files.dict config') := by
  unfold PartWriter.sealPart at hok
  obtain ⟨flushed, hflush, hok⟩ := bind_eq_ok.mp hok
  obtain ⟨finished, hfinish, hok⟩ := bind_eq_ok.mp hok
  obtain ⟨rfl, rfl⟩ := Prod.mk.inj (Except.ok.inj hok)
  obtain ⟨⟨more, hmore, hw⟩, hdict⟩ := h.flush lawful hflush
  -- finishing the dictionary leaves everything else, and takes no code away
  obtain ⟨dict, rfl, hgrows⟩ : ∃ dict, finished = { flushed with dict := dict } ∧
      GrowsIn v flushed.dict dict := by
    unfold PartWriter.finishDict at hfinish
    cases hd : flushed.dict with
    | none =>
      rw [hd] at hfinish
      obtain rfl := Except.ok.inj hfinish
      exact ⟨none, by rw [← hd], trivial⟩
    | some d =>
      rw [hd] at hfinish
      dsimp only at hfinish
      cases hfin : d.finish v with
      | error e =>
        rw [hfin] at hfinish
        cases hfinish
      | ok d' =>
        rw [hfin] at hfinish
        obtain rfl := Except.ok.inj hfinish
        exact ⟨some d', rfl, ((hw.dict d hd).finish lawful hfin).1⟩
  have hnext := hw.nextOffset
  have hnext64 := hw.nextFits
  rw [List.append_nil] at hnext
  have hlast : flushed.lastTs = (recsOf (blocks ++ more)).getLast?.map Rec.ts := by
    have h := hw.lastTs
    rwa [List.append_nil] at h
  have htimed : Timed (recsOf (blocks ++ more)) := by
    have h := hw.timed
    rwa [List.append_nil] at h
  refine ⟨⟨more, hmore, hw.fits, ?_, hw.index, hw.sound, htimed, by omega, ?_⟩, ?_⟩
  · refine ⟨⟨flushed.records, flushed.lastTs.getD 0, flushed.blocks,
      (v.xxh64 flushed.digested).toNat⟩, ⟨?_, ?_, ?_, ?_⟩, hw.records, ?_, ?_⟩
    · show flushed.records < 2 ^ 64
      rw [hw.records]
      omega
    · show flushed.lastTs.getD 0 < 2 ^ 64
      rw [hlast]
      cases hl : (recsOf (blocks ++ more)).getLast? with
      | none => decide
      | some r => exact htimed.2 r (List.mem_of_getLast? hl)
    · show flushed.blocks < 2 ^ 32
      rw [hw.blocksCount]
      exact length_blocks_lt hw.sound
    · exact (v.xxh64 flushed.digested).toNat_lt
    · intro r hr
      show flushed.lastTs.getD 0 = r.ts
      rw [hlast, hr]
      rfl
    · show writeAt flushed.file flushed.fileOff _ = _
      rw [hw.fileOff, writeAt_end, hw.data]
      simp [dataOf]
  · intro config
    exact (hw.decodes config).mono (knows_files hgrows config config)
  · intro config config'
    exact (hdict.knows config config).trans (knows_files hgrows config config')

/-! ## Adoption -/

/-- A stored block is a whole block to `adopt`. -/
theorem getBlock_stored {s : Stored} {offset : Nat} (sound : s.Sound v offset) {raw : Bytes}
    (hraw : decodePayload v s.payload s.header = some raw) (hlen : raw.length = s.header.lenU)
    (walks : Walks raw s.recs) : Reads (PartWriter.getBlock v) s.bytes (s.header, raw) := by
  intro rest
  obtain ⟨records, hframes, hdeltas⟩ := walks
  have hsome : ¬ (s.header.records = 0 ∨ s.header.lenC = 0) := by
    rintro (hzero | hzero)
    · rw [sound.records] at hzero
      exact sound.nonempty (List.length_eq_zero_iff.mp hzero)
    · exact Nat.ne_of_gt sound.lenC_pos hzero
  have hcount : (frames getRecord s.header.lenU raw).1.length = s.header.records := by
    rw [← hlen, hframes, sound.records]
    exact hdeltas.length
  simp only [PartWriter.getBlock, Stored.bytes, List.append_assoc,
    takeExact_append s.header.length_encode, Option.bind_eq_bind, Option.bind_some,
    BlockHeader.decode_encode sound.fits, hsome, if_false, takeExact_append sound.lenC, hraw, hlen,
    hcount, ne_eq, not_true_eq_false]

theorem sound_of_mem {at_ offset : Nat} (sound : BlocksAt v at_ offset blocks) {s : Stored}
    (hs : s ∈ blocks) : ∃ n, s.Sound v n := by
  induction blocks generalizing at_ offset with
  | nil => cases hs
  | cons t blocks ih =>
    rcases List.mem_cons.mp hs with rfl | hs
    · exact ⟨offset, sound.1⟩
    · exact ih sound.2.2 hs

/-- What the loop of `adopt` has gathered of blocks from a byte on. -/
theorem foldlM_note {at_ offset : Nat} {raw : Stored → Bytes}
    (sound : BlocksAt v at_ offset blocks) (timed : Timed (recsOf blocks))
    (hraw : ∀ s ∈ blocks, Walks (raw s) s.recs) (a : PartWriter.Adopted) (hat : a.fileOff = at_)
    (hoff : a.nextOffset = offset) :
    (blocks.map fun s => (s.header, raw s)).foldlM PartWriter.Adopted.note a = .ok {
      fileOff := at_ + (bytesOf blocks).length
      nextOffset := offset + (recsOf blocks).length
      lastTs := ((recsOf blocks).getLast?.map Rec.ts).or a.lastTs
      records := a.records + (recsOf blocks).length
      blocks := a.blocks + blocks.length
      digested := a.digested ++ blocks.flatMap raw
      rows := a.rows ++ rowsFrom at_ blocks } := by
  induction blocks generalizing at_ offset a with
  | nil =>
    subst hat hoff
    simp [bytesOf, recsOf, rowsFrom]
    rfl
  | cons s blocks ih =>
    have walks := hraw s (by simp)
    obtain ⟨hs, hlt, hrest⟩ := sound
    obtain ⟨timedS, timedRest⟩ := Timed.append (show Timed (s.recs ++ recsOf blocks) from timed)
    -- one block: its row, its last time, its counts
    have hrow : IndexRow.fromHeader s.header a.fileOff = some (s.row at_) := by
      rw [hat, IndexRow.fromHeader, if_pos hlt]
      rfl
    have hts := lastTsOf_walks walks hs.nonempty hs.firstTs timedS
    obtain ⟨next, hnext⟩ : ∃ next : PartWriter.Adopted, next = {
        fileOff := at_ + s.bytes.length
        nextOffset := offset + s.recs.length
        lastTs := some (endTs s.header.firstTs s.recs)
        records := a.records + s.recs.length
        blocks := a.blocks + 1
        digested := a.digested ++ raw s
        rows := a.rows ++ [s.row at_] } := ⟨_, rfl⟩
    have hnote : a.note (s.header, raw s) = .ok next := by
      rw [PartWriter.Adopted.note, hrow]
      show (lastTsOf (raw s) s.header.firstTs >>= _) = _
      rw [hts, hnext, hs.length_bytes, ← Nat.add_assoc, hat, ← hs.firstOffset, ← hs.records]
      rfl
    have hfold := ih hrest timedRest (fun t ht => hraw t (by simp [ht])) next
      (by rw [hnext]) (by rw [hnext])
    -- the last time is that of the last block that has one
    have hend : ((recsOf (s :: blocks)).getLast?.map Rec.ts).or a.lastTs
        = ((recsOf blocks).getLast?.map Rec.ts).or (some (endTs s.header.firstTs s.recs)) := by
      rw [recsOf_cons, List.getLast?_append, endTs, List.getLast?_eq_some_getLast hs.nonempty]
      cases (recsOf blocks).getLast? with
      | none => rfl
      | some last => rfl
    rw [List.map_cons, List.foldlM_cons, hnote]
    show List.foldlM PartWriter.Adopted.note _ _ = _
    rw [hfold, hend, hnext]
    simp only [bytesOf_cons, recsOf_cons, List.length_append, List.length_cons, rowsFrom,
      List.flatMap_cons, List.append_assoc, List.singleton_append, Nat.add_assoc, Nat.add_comm 1]

/-- **Adoption** finds the whole blocks of a data file, cuts what follows them and
writes their index anew. -/
theorem adopt_dataOf (index : Bytes) {tail : Bytes} {dictFile : Option Bytes} {level : Int}
    {config : Option DictConfig} {dict : Option Dict} (fits : header.Fits)
    (sound : BlocksAt v partHeaderLen header.firstOffset blocks) (timed : Timed (recsOf blocks))
    (htail : PartWriter.getBlock v tail = none)
    (hdict : PartWriter.adoptDict v dictFile level config = .ok dict) (blockBytes : Nat)
    (codec : Codec) :
    PartWriter.adopt v ⟨dataOf header blocks tail, index, dictFile⟩ blockBytes level
      codec config = .ok {
        file := dataOf header blocks []
        index := indexOf blocks
        header := header
        blockBytes := blockBytes
        level := level
        codec := codec
        nextOffset := header.firstOffset + (recsOf blocks).length
        lastTs := (recsOf blocks).getLast?.map Rec.ts
        fileOff := (dataOf header blocks []).length
        block := []
        blockFirstTs := 0
        blockFirstOffset := header.firstOffset + (recsOf blocks).length
        blockRecords := 0
        records := (recsOf blocks).length
        blocks := blocks.length
        digested := blocks.flatMap (Stored.raw v)
        dict := dict
        beside := dictFile } := by
  have hreads : ∀ s ∈ blocks, Reads (PartWriter.getBlock v) s.bytes (s.header, s.raw v) := by
    intro s hs
    obtain ⟨n, hsound⟩ := sound_of_mem sound hs
    obtain ⟨hraw, hlen, walks⟩ := hsound.opens
    exact getBlock_stored hsound hraw hlen walks
  have walks : ∀ s ∈ blocks, Walks (s.raw v) s.recs := by
    intro s hs
    obtain ⟨n, hsound⟩ := sound_of_mem sound hs
    exact hsound.opens.2.2
  have hlen : (dataOf header blocks []).length = partHeaderLen + (bytesOf blocks).length := by
    rw [dataOf, List.append_nil, List.length_append, PartHeader.length_encode]
  -- the walk ends at the tail, which is no block
  have hrounds : blocks.length ≤ (dataOf header blocks tail).length := by
    have hmany := length_bytesOf_ge blocks
    rw [dataOf, List.length_append, List.length_append]
    omega
  have hdrop : (dataOf header blocks tail).drop partHeaderLen = blocks.flatMap Stored.bytes ++ tail := by
    rw [dataOf, List.append_assoc, ← header.length_encode, List.drop_left]
    rfl
  have hfound : (frames (PartWriter.getBlock v) (dataOf header blocks tail).length
      ((dataOf header blocks tail).drop partHeaderLen)).1
        = blocks.map fun s => (s.header, s.raw v) := by
    rw [hdrop, frames_flatMap_of_none hreads htail hrounds]
  -- the blocks are counted one by one, and the file cut behind the last
  have hfold := foldlM_note sound timed walks
    ⟨partHeaderLen, header.firstOffset, none, 0, 0, [], []⟩ rfl rfl
  have htake : (dataOf header blocks tail).take (partHeaderLen + (bytesOf blocks).length)
      = dataOf header blocks [] := by
    have hsplit : dataOf header blocks tail = dataOf header blocks [] ++ tail := by simp [dataOf]
    rw [← hlen, hsplit, List.take_left]
  simp only [PartWriter.adopt, hdict, readHeader_dataOf fits, hfound, hfold, bind, Except.bind,
    htake, hlen, indexOf, List.nil_append, Option.or_none, Nat.zero_add]

/-- What adoption needs of the dictionary file: a writer's dictionary stands behind
it, and it decodes the records that survived. -/
structure Beside (v : Vendor) (dict : Option Bytes) (recs : List Rec) : Prop where
  file : DictFile v dict
  decodes : ∀ config, Decodes (PartReader.loadDict v dict config) recs

/-- The dictionary of an adopted part knows what its file says. -/
theorem adoptDict_inv {dictFile : Option Bytes} (hfile : DictFile v dictFile) {level : Int}
    {config : Option DictConfig} {dict : Option Dict}
    (hdict : PartWriter.adoptDict v dictFile level config = .ok dict) :
    InvIn v dict ∧ ∀ d, dict = some d → d.file = dictFile := by
  cases config with
  | none =>
    obtain rfl := Except.ok.inj hdict
    exact ⟨fun d hd => (by cases hd), fun d hd => (by cases hd)⟩
  | some config =>
    cases dictFile with
    | none => cases hdict
    | some bytes =>
      obtain ⟨d, closed, last, holds⟩ := hfile bytes rfl
      obtain ⟨d', hok, hinv, -⟩ := holds.adopt config level
      have hsome : PartWriter.adoptDict v (some bytes) level (some config) = .ok (some d') := by
        rw [PartWriter.adoptDict, hok]
        rfl
      rw [hsome] at hdict
      obtain rfl := Except.ok.inj hdict
      refine ⟨fun e he => (by rwa [← Option.some.inj he]), ?_⟩
      intro e he
      rw [← Option.some.inj he]
      obtain ⟨found, hholds, -⟩ := holds.onFile
      obtain ⟨d'', w, hok', hcontents, -⟩ := Dict.adopt_fields hholds config level
      rw [hok] at hok'
      rw [Except.ok.inj hok']
      exact hcontents

theorem files_dict {file : Option Bytes} (hkept : ∀ d, w.dict = some d → d.file = file)
    (hbeside : w.dict = none → w.beside = file) : w.files.dict = file := by
  unfold PartWriter.files
  cases hw : w.dict with
  | none => exact hbeside hw
  | some d => exact hkept d hw

/-- **An adopted part** is a writer of the whole blocks it found. -/
theorem adopt_writes {tail index : Bytes} {dictFile : Option Bytes} {level : Int}
    {config : Option DictConfig} (fits : header.Fits)
    (sound : BlocksAt v partHeaderLen header.firstOffset blocks) (timed : Timed (recsOf blocks))
    (hnext : header.firstOffset + (recsOf blocks).length < 2 ^ 64)
    (htail : PartWriter.getBlock v tail = none) (beside : Beside v dictFile (recsOf blocks))
    {blockBytes : Nat} {codec : Codec}
    (hok : PartWriter.adopt v ⟨dataOf header blocks tail, index, dictFile⟩ blockBytes level codec
      config = .ok w') : Writes v w' header blocks [] ∧ w'.files.dict = dictFile := by
  obtain ⟨dict, hdict, -⟩ := bind_eq_ok.mp hok
  have hadopt := adopt_dataOf index fits sound timed htail hdict blockBytes codec
  rw [hadopt] at hok
  obtain ⟨hinv, hsame⟩ := adoptDict_inv beside.file hdict
  have hfiles : w'.files.dict = dictFile := by
    rw [← Except.ok.inj hok]
    exact files_dict hsame fun _ => rfl
  refine ⟨?_, hfiles⟩
  obtain rfl := Except.ok.inj hok
  refine ⟨fits, rfl, rfl, sound, by rwa [List.append_nil], rfl, by rw [List.append_nil], hnext,
    by rw [List.append_nil], rfl, by decide, ⟨[], rfl, by simp, rfl⟩, by simp,
    fun hne => absurd rfl hne, rfl, rfl, hinv, fun _ => beside.file, fun _ _ _ hr => by (cases hr),
    ?_⟩
  intro config
  rw [hfiles]
  exact beside.decodes config

/-- The files of a writer with nothing pending are adopted as they are. -/
theorem Writes.readopt (h : Writes v w header blocks []) {w' : PartWriter} {blockBytes : Nat}
    {level : Int} {codec : Codec} {config : Option DictConfig}
    (hok : PartWriter.adopt v w.files blockBytes level codec config = .ok w') :
    Writes v w' header blocks [] ∧ w'.files.dict = w.files.dict := by
  have htimed := h.timed
  have hnext := h.nextFits
  rw [h.nextOffset] at hnext
  rw [List.append_nil] at htimed hnext
  have hfile : DictFile v w.files.dict := by
    intro file hfile
    unfold PartWriter.files at hfile
    cases hw : w.dict with
    | none =>
      rw [hw] at hfile
      exact h.beside hw file hfile
    | some d =>
      rw [hw] at hfile
      obtain ⟨file', closed, last, holds⟩ := h.dict d hw
      have hsame := holds.contents
      rw [show d.file = some file from hfile] at hsame
      obtain rfl := Option.some.inj hsame
      exact ⟨d, closed, last, holds⟩
  have hfiles : w.files = ⟨dataOf header blocks [], w.files.index, w.files.dict⟩ := by
    rw [← h.data]
    rfl
  rw [hfiles] at hok
  exact adopt_writes h.fits h.sound htimed hnext rfl ⟨hfile, h.decodes⟩ hok

end Okm.Series
