import Okm.Series.Fault
import Okm.Series.Fidelity

/-!
# Parts written through failures

`Whole` is a writer whose files, counters and digest tally with the records it was
given, and whose dictionary knows them, whatever bytes failed writes left behind it. A
flush keeps it exactly when no failure strikes behind the moved buffer and the `.tail`
file is not lost (`flush_whole_iff`), so a run of such calls ends in a writer whose next
flush or seal leaves every record an append has answered for, to be read back as the
body it was given (`failures_keep_records`).

One failed write is enough to break it: the next block claims the lost records, and
`adopt` will cut it off (`lost_block_miscounts`).
-/

namespace Okm.Series

open Lib Model

variable {v : Vendor} {w w' : PartWriter} {header : PartHeader} {blocks : List Stored}
  {pending : List Rec} {clean : Option Dict}

/-! ## Writers over a littered dictionary -/

/-- Readers of the files find what they would find without the litter. -/
theorem LitteredIn.knows_files (hinv : InvIn v clean) (hlit : LitteredIn clean w.dict)
    (config : Option DictConfig) :
    Knows (PartReader.loadDict v { w with dict := clean }.files.dict config)
      (PartReader.loadDict v w.files.dict config) := by
  unfold PartWriter.files
  cases hw : w.dict with
  | none =>
    rw [hw] at hlit
    cases clean with
    | some c => exact (hlit : False).elim
    | none => exact knows_loadDict w.beside config config
  | some d =>
    rw [hw] at hlit
    cases clean with
    | none => exact (hlit : False).elim
    | some c =>
      obtain ⟨file, closed, last, holds⟩ := hinv c rfl
      obtain ⟨found, hfile, -⟩ := holds.onFile
      intro code id r hr
      rw [resolveIn_loadDict] at hr ⊢
      exact Dict.load_littered holds.contents hfile hlit _ _ _ _ code id r hr

/-- A flush over litter does what it does without. -/
theorem flushDict_clean (hinv : InvIn v clean) (hlit : LitteredIn clean w.dict)
    (hok : w.flushDict v = .ok w') :
    ∃ clean' dict, w' = { w with dict := dict } ∧ LitteredIn clean' dict ∧
      { w with dict := clean }.flushDict v = .ok { w with dict := clean' } := by
  unfold PartWriter.flushDict at hok ⊢
  cases hw : w.dict with
  | none =>
    rw [hw] at hok hlit
    cases clean with
    | some c => exact (hlit : False).elim
    | none => exact ⟨none, none, by rw [← Except.ok.inj hok, ← hw], trivial, rfl⟩
  | some d =>
    rw [hw] at hok hlit
    cases clean with
    | none => exact (hlit : False).elim
    | some c =>
      dsimp only at hok ⊢
      cases hd : d.flushIfDirty v with
      | error e =>
        rw [hd] at hok
        cases hok
      | ok d' =>
        rw [hd] at hok
        obtain ⟨c', hclean, hlit'⟩ := Dict.Littered.flushIfDirty hlit (hinv c rfl) hd
        refine ⟨some c', some d', (Except.ok.inj hok).symm, hlit', ?_⟩
        rw [hclean]
        rfl

/-! ## Whole writers and parts -/

/-- A writer whose files, counters, dictionary and digest tally, but for litter behind its
dictionary. -/
structure Whole (v : Vendor) (w : PartWriter) (header : PartHeader) (blocks : List Stored)
    (pending : List Rec) : Prop where
  writes : ∃ clean, LitteredIn clean w.dict ∧
    Writes v { w with dict := clean } header blocks pending
  digested : w.digested = blocks.flatMap (Stored.raw v)

/-- A part as `seal` is to leave it: blocks that hold the records they count, from
consecutive offsets on, each decoded under the dictionary beside them, and a footer with
their total and the digest of their bytes. -/
structure SealedWhole (v : Vendor) (files : PartFiles) (footer : Footer) (header : PartHeader)
    (blocks : List Stored) : Prop where
  part : Sealed v files header blocks
  data : files.data = dataOf header blocks footer.encode
  records : footer.records = (recsOf blocks).length
  blocksCount : footer.blocks = blocks.length
  digest : footer.digest = (v.xxh64 (blocks.flatMap (Stored.raw v))).toNat

theorem whole_create {header : PartHeader} (fits : header.Fits) (blockBytes : Nat) (level : Int)
    (codec : Codec) (dict : Option DictConfig) :
    Whole v (PartWriter.create header blockBytes level codec dict) header [] [] :=
  ⟨⟨_, LitteredIn.refl _, writes_create fits blockBytes level codec dict⟩, rfl⟩

/-- **An adopted part** is whole again. -/
theorem whole_adopt {tail index : Bytes} {dictFile : Option Bytes} {level : Int}
    {config : Option DictConfig} (fits : header.Fits)
    (sound : BlocksAt v partHeaderLen header.firstOffset blocks) (timed : Timed (recsOf blocks))
    (hnext : header.firstOffset + (recsOf blocks).length < 2 ^ 64)
    (htail : PartWriter.getBlock v tail = none) (beside : Beside v dictFile (recsOf blocks))
    {blockBytes : Nat} {codec : Codec}
    (hok : PartWriter.adopt v ⟨dataOf header blocks tail, index, dictFile⟩ blockBytes level codec
      config = .ok w') : Whole v w' header blocks [] := by
  refine ⟨⟨_, LitteredIn.refl _, (adopt_writes fits sound timed hnext htail beside hok).1⟩, ?_⟩
  obtain ⟨dict, hdict, -⟩ := bind_eq_ok.mp hok
  rw [adopt_dataOf index fits sound timed htail hdict blockBytes codec] at hok
  rw [← Except.ok.inj hok]

theorem Whole.tallies (h : Whole v w header blocks pending) : Tallies v w header blocks pending := by
  obtain ⟨clean, -, hw⟩ := h.writes
  exact hw.tallies.withDict w.dict

/-- What is in the blocks is decoded under the dictionary file. -/
theorem Whole.decodes (h : Whole v w header blocks pending) (config : Option DictConfig) :
    Decodes (PartReader.loadDict v w.files.dict config) (recsOf blocks) := by
  obtain ⟨clean, hlit, hw⟩ := h.writes
  exact (hw.decodes config).mono (hlit.knows_files hw.dict config)

/-! ## Flushing -/

theorem writeIndex_digested {block : BlockHeader} (h : w.writeIndex block = .ok w') :
    w'.digested = w.digested := by
  unfold PartWriter.writeIndex at h
  cases hrow : IndexRow.fromHeader block w.fileOff with
  | none =>
    rw [hrow] at h
    cases h
  | some row =>
    rw [hrow] at h
    rw [← Except.ok.inj h]

/-- The row of a block has nothing to do with the dictionary. -/
theorem writeIndex_withDict {block : BlockHeader} (dict : Option Dict)
    (h : w.writeIndex block = .ok w') :
    { w with dict := dict }.writeIndex block = .ok { w' with dict := dict } ∧ w'.dict = w.dict := by
  unfold PartWriter.writeIndex at h ⊢
  dsimp only
  cases hrow : IndexRow.fromHeader block w.fileOff with
  | none =>
    rw [hrow] at h
    cases h
  | some row =>
    rw [hrow] at h
    rw [← Except.ok.inj h]
    exact ⟨rfl, rfl⟩

/-- **A flush that answers** puts what was pending into the files. -/
theorem Whole.flush (lawful : v.Lawful) (h : Whole v w header blocks pending)
    (hok : w.flushBlock v = .ok w') :
    ∃ more, recsOf more = pending ∧ Whole v w' header (blocks ++ more) [] := by
  have hrecords := h.tallies.blockRecords
  unfold PartWriter.flushBlock at hok
  by_cases hzero : w.blockRecords = 0
  · rw [if_pos hzero] at hok
    obtain rfl := Except.ok.inj hok
    have hnil : pending = [] := List.length_eq_zero_iff.mp (hrecords ▸ hzero)
    subst hnil
    exact ⟨[], rfl, by rwa [List.append_nil]⟩
  · rw [if_neg hzero] at hok
    obtain ⟨w₁, hdict, hok⟩ := bind_eq_ok.mp hok
    obtain ⟨⟨block, payload⟩, hpack, hok⟩ := bind_eq_ok.mp hok
    have hne : pending ≠ [] := by
      rintro rfl
      exact hzero hrecords
    obtain ⟨clean, hlit, hw⟩ := h.writes
    -- the strings of the pending records are in the file, under the litter or not
    obtain ⟨clean', dict, rfl, hlit', hclean⟩ := flushDict_clean hw.dict hlit hdict
    obtain ⟨dict', heq, hinv, hgrows, hfiled⟩ := hw.flushDict lawful hclean
    obtain rfl : clean' = dict' := congrArg PartWriter.dict heq
    obtain ⟨hsound, hopen⟩ := (h.tallies.withDict dict).packBlock lawful hne hpack
    obtain ⟨hrow, hkept⟩ := writeIndex_withDict clean' hok
    obtain ⟨hland, -⟩ := (hw.withDict hinv hgrows).land hfiled hsound hrow
    refine ⟨[⟨block, payload, pending⟩], List.append_nil _, ⟨clean', ?_, hland⟩, ?_⟩
    · rw [hkept]
      exact hlit'
    · have hraw : Stored.raw v ⟨block, payload, pending⟩ = w.block := by
        rw [Stored.raw, hopen]
        rfl
      have hfed : w'.digested = w.digested ++ w.block := writeIndex_digested hok
      rw [hfed, h.digested, List.flatMap_append, List.flatMap_cons, List.flatMap_nil,
        List.append_nil, hraw]

/-- A dictionary write that fails leaves litter, unless the `.tail` file is lost. -/
theorem Whole.tryDict_error (h : Whole v w header blocks pending) {fault : Option FlushFault}
    {e : Error} (htail : ¬ w.TailLost v fault) (herr : w.tryDict v fault = (.error e, w')) :
    Whole v w' header blocks pending := by
  obtain ⟨clean, hlit, hw⟩ := h.writes
  unfold PartWriter.tryDict at herr
  cases hd : w.dict with
  | none =>
    rw [hd] at herr
    cases (Prod.mk.inj herr).1
  | some d =>
    rw [hd] at herr hlit
    cases clean with
    | none => exact (hlit : False).elim
    | some c =>
      obtain ⟨hanswer, rfl⟩ := Prod.mk.inj herr
      rcases Dict.Littered.tryFlushIfDirty_error hlit (hw.dict c rfl) (Prod.ext hanswer rfl)
        with ⟨hlit', -⟩ | ⟨hfails, -⟩
      · exact ⟨⟨some c, hlit', hw⟩, h.digested⟩
      · exact absurd ⟨d, hd, hfails⟩ htail

/-- A kept flush keeps the writer whole, and the records what they are. -/
theorem Whole.tryFlushBlock (lawful : v.Lawful) (h : Whole v w header blocks pending)
    {fault : Option FlushFault} (hkeeps : PartWriter.FlushKeeps v fault w) :
    ∃ blocks' pending', Whole v (w.tryFlushBlock v fault).2 header blocks' pending' ∧
      recsOf blocks' ++ pending' = recsOf blocks ++ pending := by
  rcases PartWriter.tryFlushBlock_answers hkeeps with hok | ⟨htail, e, herr⟩
  · obtain ⟨more, hmore, hw⟩ := h.flush lawful
      (PartWriter.tryFlushBlock_ok (Prod.ext hok rfl : w.tryFlushBlock v fault = (.ok (), _)))
    exact ⟨blocks ++ more, [], hw, by rw [List.append_nil, recsOf_append, hmore]⟩
  · exact ⟨blocks, pending, h.tryDict_error htail herr, rfl⟩

/-- **A flush keeps a writer whole exactly when no failure strikes behind the moved
buffer** and the dictionary's `.tail` file is not lost. -/
theorem flush_whole_iff (lawful : v.Lawful) (h : Whole v w header blocks pending)
    (fault : Option FlushFault) :
    (∃ header' blocks' pending', Whole v (w.tryFlushBlock v fault).2 header' blocks' pending') ↔
      PartWriter.FlushKeeps v fault w := by
  constructor
  · intro hwhole
    by_contra hstruck
    obtain ⟨header', blocks', pending', hleft⟩ := hwhole
    rcases PartWriter.tryFlushBlock_struck hstruck with
      ⟨hsome, hblock, hrecords⟩ | ⟨d, d', hd, hne, hflush, hdict⟩
    · -- an empty buffer counts records
      have hnil := hleft.tallies.block_eq_nil.mp hblock
      have hcount := hleft.tallies.blockRecords
      rw [hrecords, hnil] at hcount
      exact hsome hcount
    · -- the open block of the dictionary is in its file
      obtain ⟨clean, hlit, hw⟩ := h.writes
      obtain ⟨clean', hlit', hw'⟩ := hleft.writes
      rw [hd] at hlit
      rw [hdict] at hlit'
      cases clean with
      | none => exact hlit
      | some c =>
        cases clean' with
        | none => exact hlit'
        | some c' =>
          exact Dict.tail_breaks lawful (hw.dict c rfl) hlit hne hflush
            ⟨c', hw'.dict c' rfl, hlit'⟩
  · intro hkeeps
    obtain ⟨blocks', pending', hw, -⟩ := h.tryFlushBlock lawful hkeeps
    exact ⟨header, blocks', pending', hw⟩

/-! ## Sealing -/

/-- The dictionary's last write over litter: readers of the file know what they would know
without. -/
theorem finishDict_clean (lawful : v.Lawful) (hinv : InvIn v clean)
    (hlit : LitteredIn clean w.dict) (hok : w.finishDict v = .ok w') :
    ∃ dict clean', w' = { w with dict := dict } ∧
      { w with dict := clean }.finishDict v = .ok { w with dict := clean' } ∧
      ∀ config, Knows (PartReader.loadDict v { w with dict := clean' }.files.dict config)
        (PartReader.loadDict v w'.files.dict config) := by
  unfold PartWriter.finishDict at hok ⊢
  cases hw : w.dict with
  | none =>
    rw [hw] at hok hlit
    cases clean with
    | some c => exact (hlit : False).elim
    | none =>
      refine ⟨none, none, by rw [← Except.ok.inj hok, ← hw], rfl, fun config => ?_⟩
      rw [← Except.ok.inj hok]
      unfold PartWriter.files
      rw [hw]
      exact knows_loadDict w.beside config config
  | some d =>
    rw [hw] at hok hlit
    cases clean with
    | none => exact (hlit : False).elim
    | some c =>
      dsimp only at hok ⊢
      cases hd : d.finish v with
      | error e =>
        rw [hd] at hok
        cases hok
      | ok d' =>
        rw [hd] at hok
        obtain ⟨c', hclean, hlit'⟩ := Dict.Littered.flushOpenBlock hlit (hinv c rfl) hd
        obtain ⟨file, found, hcontents, hfile⟩ := (hinv c rfl).finish_file lawful hclean
        refine ⟨some d', some c', (Except.ok.inj hok).symm, ?_, fun config => ?_⟩
        · rw [Dict.finish, hclean]
          rfl
        · rw [← Except.ok.inj hok]
          intro code id r hr
          rw [resolveIn_loadDict] at hr ⊢
          exact Dict.load_littered hcontents hfile hlit' _ _ _ _ code id r hr

/-- **A sealed part** holds what was written and what was pending. -/
theorem Whole.sealPart (lawful : v.Lawful) (h : Whole v w header blocks pending) {footer : Footer}
    {files : PartFiles} (hok : w.sealPart v = .ok (footer, files)) :
    ∃ more, recsOf more = pending ∧ SealedWhole v files footer header (blocks ++ more) := by
  unfold PartWriter.sealPart at hok
  obtain ⟨flushed, hflush, hok⟩ := bind_eq_ok.mp hok
  obtain ⟨finished, hfinish, hok⟩ := bind_eq_ok.mp hok
  obtain ⟨rfl, rfl⟩ := Prod.mk.inj (Except.ok.inj hok)
  obtain ⟨more, hmore, hw⟩ := h.flush lawful hflush
  obtain ⟨clean, hlit, hwrites⟩ := hw.writes
  obtain ⟨dict, clean', rfl, hclean, hknows⟩ := finishDict_clean lawful hwrites.dict hlit hfinish
  -- the part without litter is sealed by the same steps
  have hseal : { flushed with dict := clean }.sealPart v = .ok (⟨flushed.records,
      flushed.lastTs.getD 0, flushed.blocks, (v.xxh64 flushed.digested).toNat⟩,
      { { flushed with dict := clean' }.files with
        data := writeAt flushed.file flushed.fileOff (Footer.encode ⟨flushed.records,
          flushed.lastTs.getD 0, flushed.blocks, (v.xxh64 flushed.digested).toNat⟩) }) := by
    refine bind_eq_ok.mpr ⟨_, hwrites.flushBlock_nil, bind_eq_ok.mpr ⟨_, hclean, rfl⟩⟩
  obtain ⟨⟨nothing, hnothing, hs⟩, -⟩ := hwrites.sealPart lawful hseal
  have hnil : nothing = [] := by
    cases nothing with
    | nil => rfl
    | cons s nothing =>
      have hlen := hs.sound
      rw [blocksAt_append] at hlen
      exact absurd (List.append_eq_nil_iff.mp hnothing).1 hlen.2.1.nonempty
  subst hnil
  rw [List.append_nil] at hs
  have t := hw.tallies
  refine ⟨more, hmore, ⟨hs.fits, hs.footer, hs.index, hs.sound, hs.timed, hs.nextFits,
    fun config => (hs.decodes config).mono (hknows config)⟩, ?_, t.records, t.blocksCount, ?_⟩
  · show writeAt flushed.file flushed.fileOff _ = _
    rw [t.fileOff, writeAt_end, t.data]
    simp [dataOf]
  · exact congrArg (fun bytes => (v.xxh64 bytes).toNat) hw.digested

/-! ## Appending -/

/-- What an append needs: no counter overflows, its strings have room, and no failure strikes
behind a moved buffer. -/
structure AppendKeeps (v : Vendor) (fault : AppendFault) (w : PartWriter) (ts : Nat) (body : Body) :
    Prop where
  counts : w.nextOffset + 1 < 2 ^ 64 ∧ w.blockRecords + 1 < 2 ^ 32
  fits : TryFitsItems v fault.dict w.dict body.items
  flush : (w.tryRecord v fault.dict ts body).1.isOk = true →
    (w.tryRecord v fault.dict ts body).2.blockBytes
      ≤ (w.tryRecord v fault.dict ts body).2.block.length →
    (w.tryRecord v fault.dict ts body).2.FlushKeeps v fault.flush

instance (v : Vendor) (fault : AppendFault) (w : PartWriter) (ts : Nat) (body : Body) :
    Decidable (AppendKeeps v fault w ts body) :=
  decidable_of_iff ((w.nextOffset + 1 < 2 ^ 64 ∧ w.blockRecords + 1 < 2 ^ 32) ∧
      TryFitsItems v fault.dict w.dict body.items ∧
      ((w.tryRecord v fault.dict ts body).1.isOk = true →
        (w.tryRecord v fault.dict ts body).2.blockBytes
          ≤ (w.tryRecord v fault.dict ts body).2.block.length →
        (w.tryRecord v fault.dict ts body).2.FlushKeeps v fault.flush))
    ⟨fun h => ⟨h.1, h.2.1, h.2.2⟩, fun h => ⟨h.counts, h.fits, h.flush⟩⟩

/-- An append that is refused before it is buffered starts at most an empty block. -/
theorem Writes.reopen (h : Writes v w header blocks pending) (ts : Nat) (header' : PartHeader) :
    Writes v { w with
      header := header'
      blockFirstTs := if w.block = [] then ts else w.blockFirstTs
      blockFirstOffset := if w.block = [] then w.nextOffset else w.blockFirstOffset }
      header blocks pending := by
  have hblock : pending ≠ [] → w.block ≠ [] := fun hne hnil => hne (h.tallies.block_eq_nil.mp hnil)
  refine ⟨h.fits, h.data, h.index, h.sound, h.timed, h.fileOff, h.nextOffset, h.nextFits, h.lastTs,
    h.blockRecords, h.recordsFit, h.block, ?_, ?_, h.records, h.blocksCount, h.dict, h.beside,
    h.decodesPending, h.decodes⟩
  · intro r hr
    dsimp only
    rw [if_neg (hblock fun hnil => by rw [hnil] at hr; cases hr)]
    exact h.blockFirstTs r hr
  · intro hne
    dsimp only
    rw [if_neg (hblock hne)]
    exact h.blockFirstOffset hne

/-- **One record buffered**, or refused with the writer as whole as before. -/
theorem Whole.tryRecord (lawful : v.Lawful) (h : Whole v w header blocks pending)
    {faults : List (Option DictFault)} {ts : Nat} (hts : ts < 2 ^ 64) {body : Body}
    (hnext : w.nextOffset + 1 < 2 ^ 64) (hmany : w.blockRecords + 1 < 2 ^ 32)
    (fits : TryFitsItems v faults w.dict body.items) :
    ((w.tryRecord v faults ts body).1 = .ok () ∧ ∃ enc,
      Whole v (w.tryRecord v faults ts body).2 header blocks (pending ++ [⟨ts, enc, body⟩])) ∨
    ((∃ e, (w.tryRecord v faults ts body).1 = .error e) ∧
      Whole v (w.tryRecord v faults ts body).2 header blocks pending) := by
  obtain ⟨clean, hlit, hw⟩ := h.writes
  obtain ⟨clean', hinv, hgrows, hlit', hread⟩ := tryEncodeItems_decodes lawful hw.dict hlit fits
  unfold PartWriter.tryRecord PartWriter.tryEncode
  cases hencode : tryEncodeItems v faults w.dict body.items with
  | mk answer dict =>
    rw [hencode] at hlit' hread
    cases answer with
    | error e => exact Or.inr ⟨⟨e, rfl⟩, ⟨clean', hlit', hw.withDict hinv hgrows⟩, h.digested⟩
    | ok encoded =>
      dsimp only
      unfold PartWriter.tryBuffer
      cases hstamp : w.stamp ts with
      | error e => exact Or.inr ⟨⟨e, rfl⟩, ⟨clean', hlit', hw.withDict hinv hgrows⟩, h.digested⟩
      | ok stamped =>
        obtain ⟨delta, header'⟩ := stamped
        dsimp only
        cases hrecord : putRecord delta encoded with
        | none =>
          exact Or.inr ⟨⟨_, rfl⟩, ⟨clean', hlit', (hw.withDict hinv hgrows).reopen ts header'⟩,
            h.digested⟩
        | some chunk =>
          have hcount : ¬ (2 ^ 64 ≤ w.nextOffset + 1 ∨ 2 ^ 32 ≤ w.blockRecords + 1) := by omega
          dsimp only
          rw [if_neg hcount]
          exact Or.inl ⟨rfl, encoded, ⟨clean', hlit', hw.push hts hstamp hrecord hnext hmany header'
            hinv hgrows (hread encoded rfl (length_of_putRecord hrecord))⟩, h.digested⟩

/-- **A kept append**: the record is behind the others, or nothing was added, and the
answer, if there is one, is its offset. -/
theorem Whole.tryAppend (lawful : v.Lawful) (h : Whole v w header blocks pending)
    {fault : AppendFault} {ts : Nat} (hts : ts < 2 ^ 64) {body : Body}
    (hkeeps : AppendKeeps v fault w ts body) :
    ∃ blocks' pending' added, Whole v (w.tryAppend v fault ts body).2 header blocks' pending' ∧
      recsOf blocks' ++ pending' = recsOf blocks ++ pending ++ added ∧
      ∀ offset, (w.tryAppend v fault ts body).1 = .ok offset →
        offset = header.firstOffset + (recsOf blocks ++ pending).length ∧
        ∃ enc, added = [⟨ts, enc, body⟩] := by
  have hrecord := h.tryRecord lawful hts hkeeps.counts.1 hkeeps.counts.2 hkeeps.fits
  have hflush := hkeeps.flush
  unfold PartWriter.tryAppend
  cases hb : w.tryRecord v fault.dict ts body with
  | mk answer buffered =>
    rw [hb] at hrecord hflush
    rcases hrecord with ⟨hok, enc, hwhole⟩ | ⟨⟨e, herr⟩, hwhole⟩
    · obtain rfl : answer = .ok () := hok
      have hwhole : Whole v buffered header blocks (pending ++ [⟨ts, enc, body⟩]) := hwhole
      -- the buffer with the record in it is flushed when it is full
      have hleft : ∃ blocks' pending',
          Whole v (buffered.tryFlushFull v fault.flush).2 header blocks' pending' ∧
          recsOf blocks' ++ pending' = recsOf blocks ++ (pending ++ [⟨ts, enc, body⟩]) := by
        unfold PartWriter.tryFlushFull
        by_cases hfull : buffered.blockBytes ≤ buffered.block.length
        · rw [if_pos hfull]
          exact hwhole.tryFlushBlock lawful (hflush rfl hfull)
        · rw [if_neg hfull]
          exact ⟨blocks, _, hwhole, rfl⟩
      obtain ⟨blocks', pending', hw, hrecs⟩ := hleft
      refine ⟨blocks', pending', [⟨ts, enc, body⟩], ?_, by rw [hrecs, List.append_assoc],
        fun offset hanswer => ⟨?_, enc, rfl⟩⟩
      · dsimp only
        cases hf : buffered.tryFlushFull v fault.flush with
        | mk answer left =>
          rw [hf] at hw
          cases answer with
          | error e => exact hw
          | ok u => exact hw
      · dsimp only at hanswer
        cases hf : buffered.tryFlushFull v fault.flush with
        | mk answer left =>
          rw [hf] at hanswer
          cases answer with
          | error e => cases hanswer
          | ok u => rw [← Except.ok.inj hanswer, h.tallies.nextOffset]
    · obtain rfl : answer = .error e := herr
      exact ⟨blocks, pending, [], hwhole, (List.append_nil _).symm, fun offset hok => by cases hok⟩

/-! ## Runs -/

/-- One call on a part writer, with the failures it meets. -/
inductive PartCall where
  | append (ts : UInt64) (body : Body) (fault : AppendFault)
  | flush (fault : Option FlushFault)

namespace PartCall

/-- What a call answers, and the writer it leaves: an append answers an offset. -/
def step (v : Vendor) (w : PartWriter) :
    PartCall → Except Error (Except Error (Option Nat) × PartWriter)
  | append ts body fault =>
    let (answer, left) := w.tryAppend v fault ts.toNat body
    .ok (answer.map some, left)
  | flush fault =>
    let (answer, left) := w.tryFlushBlock v fault
    .ok (answer.map fun _ => none, left)

/-- No failure of the call strikes behind a moved buffer, and every string has room. -/
def Kept (v : Vendor) (w : PartWriter) : PartCall → Prop
  | append ts body fault => AppendKeeps v fault w ts.toNat body
  | flush fault => w.FlushKeeps v fault

instance (v : Vendor) (w : PartWriter) : (c : PartCall) → Decidable (c.Kept v w)
  | append ts body fault => inferInstanceAs (Decidable (AppendKeeps v fault w ts.toNat body))
  | flush fault => inferInstanceAs (Decidable (w.FlushKeeps v fault))

end PartCall

/-- The rows a run's appends have answered for. -/
def answeredRows (past : List (PartCall × Except Error (Option Nat))) : List Row :=
  past.filterMap fun entry => match entry with
    | (.append ts body _, .ok (some offset)) => some (ts.toNat, offset, body)
    | _ => none

/-- Whoever opens the part and reads from the row's offset on gets the row. -/
def ReadsAt (v : Vendor) (files : PartFiles) (isSealed : Bool) (row : Row) : Prop :=
  ∀ config, ∃ r, PartReader.openPart v files isSealed config = .ok r ∧
    r.readFrom v files.data row.2.1 1 [] = .ok [row]

/-- What a writer owes: it is whole, every row it has answered for is in its blocks or in
its buffer, and the next flush or seal that answers leaves all of them in blocks, to be
read back. -/
def KeepsRecords (v : Vendor) (w : PartWriter) (answered : List Row) : Prop :=
  ∃ header blocks pending, Whole v w header blocks pending ∧
    (∀ row ∈ answered, row ∈ rowsOf header.firstOffset (recsOf blocks ++ pending)) ∧
    (∀ fault w', w.tryFlushBlock v fault = (.ok (), w') →
      (∃ more, recsOf more = pending ∧ Whole v w' header (blocks ++ more) []) ∧
      ∀ row ∈ answered, ReadsAt v w'.files false row) ∧
    ∀ footer files, w.sealPart v = .ok (footer, files) →
      (∃ more, recsOf more = pending ∧ SealedWhole v files footer header (blocks ++ more)) ∧
      ∀ row ∈ answered, ReadsAt v files true row

/-- The rows of a whole writer's blocks are read back. -/
theorem Whole.readsAt (h : Whole v w header blocks pending) {row : Row}
    (hrow : row ∈ rowsOf header.firstOffset (recsOf blocks)) : ReadsAt v w.files false row := by
  intro config
  have t := h.tallies
  have htimed := (Timed.append t.timed).1
  obtain ⟨r, hopen, opened, hdict⟩ := openPart_whole t.fits t.sound htimed w.files.dict config
  obtain ⟨more, hwant⟩ := Select.want_head hrow
  have hread : r.readFrom v (dataOf header blocks []) row.2.1 1 [] = _ :=
    opened.readFrom t.sound htimed (by rw [hdict]; exact h.decodes config) row.2.1
  rw [hwant] at hread
  refine ⟨r, ?_, ?_⟩
  · rw [← t.data, ← t.index] at hopen
    exact hopen
  · rw [← t.data] at hread
    exact hread

/-- The rows of a sealed part are read back. -/
theorem SealedWhole.readsAt {files : PartFiles} {footer : Footer}
    (h : SealedWhole v files footer header blocks) {row : Row}
    (hrow : row ∈ rowsOf header.firstOffset (recsOf blocks)) : ReadsAt v files true row := by
  intro config
  obtain ⟨footer', ffits, hrecords, hlast, hdata⟩ := h.part.footer
  obtain ⟨r, hopen, opened, hdict⟩ :=
    openPart_sealed h.part.fits h.part.sound ffits hrecords hlast files.dict config
  obtain ⟨more, hwant⟩ := Select.want_head hrow
  have hread : r.readFrom v (dataOf header blocks footer'.encode) row.2.1 1 [] = _ :=
    opened.readFrom h.part.sound h.part.timed (by rw [hdict]; exact h.part.decodes config) row.2.1
  rw [hwant] at hread
  refine ⟨r, ?_, ?_⟩
  · rw [← hdata, ← h.part.index] at hopen
    exact hopen
  · rw [← hdata] at hread
    exact hread

/-- A whole writer owes nothing it does not hold. -/
theorem Whole.keeps (lawful : v.Lawful) (h : Whole v w header blocks pending) {answered : List Row}
    (hstands : ∀ row ∈ answered, row ∈ rowsOf header.firstOffset (recsOf blocks ++ pending)) :
    KeepsRecords v w answered := by
  have hblocks : ∀ more : List Stored, recsOf more = pending →
      ∀ row ∈ answered, row ∈ rowsOf header.firstOffset (recsOf (blocks ++ more)) := by
    intro more hmore row hrow
    rw [recsOf_append, hmore]
    exact hstands row hrow
  refine ⟨header, blocks, pending, h, hstands, ?_, ?_⟩
  · intro fault w' hok
    obtain ⟨more, hmore, hw⟩ := h.flush lawful (PartWriter.tryFlushBlock_ok hok)
    exact ⟨⟨more, hmore, hw⟩, fun row hrow => hw.readsAt (hblocks more hmore row hrow)⟩
  · intro footer files hok
    obtain ⟨more, hmore, hs⟩ := h.sealPart lawful hok
    exact ⟨⟨more, hmore, hs⟩, fun row hrow => hs.readsAt (hblocks more hmore row hrow)⟩

/-- **One kept call** keeps the writer whole and the rows where they are, and the row it
answers for is behind them. -/
theorem Whole.call (lawful : v.Lawful) (h : Whole v w header blocks pending) {c : PartCall}
    (kept : c.Kept v w) {answer : Except Error (Option Nat)} (hok : c.step v w = .ok (answer, w')) :
    ∃ blocks' pending' added, Whole v w' header blocks' pending' ∧
      recsOf blocks' ++ pending' = recsOf blocks ++ pending ++ added ∧
      ∀ row ∈ answeredRows [(c, answer)],
        row ∈ rowsOf header.firstOffset (recsOf blocks' ++ pending') := by
  cases c with
  | flush fault =>
    obtain ⟨-, rfl⟩ := Prod.mk.inj (Except.ok.inj hok)
    obtain ⟨blocks', pending', hw, hrecs⟩ := h.tryFlushBlock lawful kept
    exact ⟨blocks', pending', [], hw, by rw [hrecs, List.append_nil], by simp [answeredRows]⟩
  | append ts body fault =>
    have hstep : PartCall.step v w (.append ts body fault)
        = .ok ((w.tryAppend v fault ts.toNat body).1.map some,
          (w.tryAppend v fault ts.toNat body).2) := rfl
    rw [hstep] at hok
    obtain ⟨rfl, rfl⟩ := Prod.mk.inj (Except.ok.inj hok)
    obtain ⟨blocks', pending', added, hw, hrecs, hanswer⟩ := h.tryAppend lawful ts.toNat_lt kept
    refine ⟨blocks', pending', added, hw, hrecs, fun row hrow => ?_⟩
    cases happend : (w.tryAppend v fault ts.toNat body).1 with
    | error e =>
      rw [happend] at hrow
      cases hrow
    | ok offset =>
      rw [happend] at hrow
      obtain ⟨hoffset, enc, hadded⟩ := hanswer offset happend
      rw [show row = _ from List.mem_singleton.mp hrow, hrecs, hadded, rowsOf_append, ← hoffset]
      exact List.mem_append_right _ (List.mem_singleton_self _)

theorem answeredRows_append (past more : List (PartCall × Except Error (Option Nat))) :
    answeredRows (past ++ more) = answeredRows past ++ answeredRows more := List.filterMap_append

/-- **Failures before the buffer is moved out lose nothing**: whatever the run, every record
an append answered for is in the blocks or in the buffer, and the next flush or seal that
answers leaves an intact part from which each is read back. -/
theorem failures_keep_records (lawful : v.Lawful) (h : Whole v w header blocks pending)
    {past : List (PartCall × Except Error (Option Nat))}
    (run : Trace (PartCall.step v) (fun _ w c => c.Kept v w) w past w') :
    KeepsRecords v w' (answeredRows past) := by
  have hrun : ∃ blocks' pending', Whole v w' header blocks' pending' ∧
      ∀ row ∈ answeredRows past, row ∈ rowsOf header.firstOffset (recsOf blocks' ++ pending') := by
    refine run.invariant (fun past w' => ∃ blocks' pending', Whole v w' header blocks' pending' ∧
      ∀ row ∈ answeredRows past, row ∈ rowsOf header.firstOffset (recsOf blocks' ++ pending'))
      ⟨blocks, pending, h, by simp [answeredRows]⟩ ?_
    intro past w₁ c answer w₂ hinv kept hok
    obtain ⟨blocks₁, pending₁, hw₁, hstands⟩ := hinv
    obtain ⟨blocks₂, pending₂, added, hw₂, hrecs, hanswer⟩ := hw₁.call lawful kept hok
    refine ⟨blocks₂, pending₂, hw₂, fun row hrow => ?_⟩
    rw [answeredRows_append] at hrow
    rcases List.mem_append.mp hrow with hrow | hrow
    · rw [hrecs, rowsOf_append]
      exact List.mem_append_left _ (hstands row hrow)
    · exact hanswer row hrow
  obtain ⟨blocks', pending', hw, hstands⟩ := hrun
  exact hw.keeps lawful hstands

/-- A part whose every long string earns a code at once, two to a block. -/
def codedPart : PartWriter :=
  PartWriter.create ⟨.ns, 0, 0, 0, 0⟩ 65536 1 .raw (some ⟨[(0, 1)], 2⟩)

def wordCall (ts : UInt64) (text : String) (fault : AppendFault) : PartCall :=
  .append ts ⟨[(1, .str text)]⟩ fault

/-- The third word finds the block full, and its write torn. A flush fails in the
dictionary, an append comes from the past with a word of its own, and the calls behind
them answer. -/
def tornCalls : List PartCall :=
  [wordCall 5 "granite" {}, wordCall 5 "marble" {},
    wordCall 6 "basalt" { dict := [some (.payload 3)] }, .flush (some (.dict .sync)),
    wordCall 3 "obsidian" {}, wordCall 7 "basalt" {}, .flush none, wordCall 8 "obsidian" {}]

/-- Every word an append answered for is kept, through a torn block, a failed flush and a
refused append. -/
theorem failures_keep_records_torn : ∃ past w,
    runGuarded (PartCall.step plainVendor) (fun _ w c => c.Kept plainVendor w) codedPart tornCalls
        = some (past, w) ∧
      past.map (fun entry => entry.2.isOk) = [true, true, true, false, false, true, true, true] ∧
      answeredRows past = [(5, 0, ⟨[(1, .str "granite")]⟩), (5, 1, ⟨[(1, .str "marble")]⟩),
        (6, 2, ⟨[(1, .str "basalt")]⟩), (7, 3, ⟨[(1, .str "basalt")]⟩),
        (8, 4, ⟨[(1, .str "obsidian")]⟩)] ∧
      KeepsRecords plainVendor w (answeredRows past) := by
  have hanswers : (runGuarded (PartCall.step plainVendor) (fun _ w c => c.Kept plainVendor w)
      codedPart tornCalls).map
        (fun run => (run.1.map fun entry => entry.2.isOk, answeredRows run.1))
      = some ([true, true, true, false, false, true, true, true],
        [(5, 0, ⟨[(1, .str "granite")]⟩), (5, 1, ⟨[(1, .str "marble")]⟩),
          (6, 2, ⟨[(1, .str "basalt")]⟩), (7, 3, ⟨[(1, .str "basalt")]⟩),
          (8, 4, ⟨[(1, .str "obsidian")]⟩)]) := by decide +kernel
  obtain ⟨⟨past, w⟩, hrun, hanswers⟩ := Option.map_eq_some_iff.mp hanswers
  obtain ⟨hoks, hrows⟩ := Prod.mk.inj hanswers
  have hfits : PartHeader.Fits ⟨.ns, 0, 0, 0, 0⟩ := ⟨by decide, by decide, by decide, by decide⟩
  exact ⟨past, w, hrun, hoks, hrows, failures_keep_records plainVendor_lawful
    (whole_create hfits 65536 1 .raw (some ⟨[(0, 1)], 2⟩)) (Trace.runGuarded hrun)⟩

/-! ## One lost block -/

/-- A part that flushes every record as it comes. -/
def eagerPart : PartWriter := PartWriter.create ⟨.ns, 0, 0, 0, 0⟩ 1 1 .raw none

/-- The writer after an append whose block cannot be synced. -/
def unsyncedPart : PartWriter :=
  (eagerPart.tryAppend plainVendor { flush := some .sync } 1 ⟨[(1, .u64 7)]⟩).2

/-- One more append, which answers. -/
def nextAppend : Except Error Nat × PartWriter :=
  unsyncedPart.tryAppend plainVendor {} 2 ⟨[(1, .u64 8)]⟩

/-- What a reader finds at the first block: the records it counts, and how many there are. -/
def firstBlock (w : PartWriter) : Except Error (Nat × Nat) :=
  (readBlockAt plainVendor w.file partHeaderLen BlockHeader.lenC).map fun found =>
    (found.1.records, (frames getRecord found.2.length found.2).1.length)

/-- **A lost block is claimed by the next one.** The failed append leaves no buffer and one
counted record; the next answers, and its block counts two records and holds one. Adopting
the part cuts that block off, the acknowledged record with it. -/
theorem lost_block_miscounts :
    ¬ KeepsRecords plainVendor unsyncedPart [] ∧ nextAppend.1 = .ok 1 ∧
    firstBlock nextAppend.2 = .ok (2, 1) ∧
    (PartWriter.adopt plainVendor nextAppend.2.files 1 1 .raw none).map PartWriter.records
      = .ok 0 := by
  refine ⟨?_, by decide +kernel, by decide +kernel, by decide +kernel⟩
  rintro ⟨header, blocks, pending, hw, -⟩
  -- an empty buffer holds no pending record, the count says one
  have hpending : pending = [] := hw.tallies.block_eq_nil.mp (by decide +kernel)
  have hcount : unsyncedPart.blockRecords = pending.length := hw.tallies.blockRecords
  rw [hpending] at hcount
  exact absurd hcount (by decide +kernel)

/-! ## One lost `.tail` file -/

/-- The word a reader finds at an offset of the part. -/
def wordAt (w : PartWriter) (offset : Nat) : Except Error (Option Value) := do
  let r ← PartReader.openPart plainVendor w.files false none
  let rows ← r.readFrom plainVendor w.files.data offset 1 []
  .ok (rows.head?.bind fun row => row.2.2.get 1)

/-- **A lost `.tail` file shifts codes.** The flush that fails has written the block of
"granite", the next one writes it again, and the code of "marble" means "granite" to a
reader. -/
theorem tail_shifts_codes :
    (runAll (PartCall.step plainVendor) codedPart [wordCall 5 "granite" {},
      .flush (some (.dict .tail)), .flush none, wordCall 6 "marble" {}, .flush none]).map
        (fun run => (run.1.map fun entry => entry.2.isOk, wordAt run.2 1))
      = .ok ([true, false, true, true, true], .ok (some (.str "granite"))) := by
  decide +kernel

end Okm.Series
