import Okm.Series.Tally

/-!
# A part while it is written

`Writes` says what a part writer and its files hold: the blocks in the files, the
records still in the buffer, and that every record is decoded under the dictionary
a reader would load. It holds of a fresh part, buffering a record and flushing the
block keep it, a sealed part holds everything that was appended, and adopting the
files a writer left gives a writer of the flushed blocks again.
-/

namespace Okm.Series

open Lib Model

variable {v : Vendor}

/-- A dictionary file some writer's dictionary stands behind. -/
def DictFile (v : Vendor) (dict : Option Bytes) : Prop :=
  ∀ file, dict = some file → ∃ (d : Dict) (closed : List Block) (last : Block),
    d.Holds v file closed last

structure Writes (v : Vendor) (w : PartWriter) (header : PartHeader) (blocks : List Stored)
    (pending : List Rec) : Prop where
  fits : header.Fits
  data : w.file = dataOf header blocks []
  index : w.index = indexOf blocks
  sound : BlocksAt v partHeaderLen header.firstOffset blocks
  timed : Timed (recsOf blocks ++ pending)
  fileOff : w.fileOff = w.file.length
  nextOffset : w.nextOffset = header.firstOffset + (recsOf blocks ++ pending).length
  nextFits : w.nextOffset < 2 ^ 64
  lastTs : w.lastTs = (recsOf blocks ++ pending).getLast?.map Rec.ts
  blockRecords : w.blockRecords = pending.length
  recordsFit : pending.length < 2 ^ 32
  block : ∃ chunks : List (Bytes × (Nat × Bytes)), w.block = chunks.flatMap Prod.fst ∧
    (∀ c ∈ chunks, Reads getRecord c.1 c.2) ∧ Deltas (chunks.map Prod.snd) pending
  blockFirstTs : ∀ r ∈ pending.head?, w.blockFirstTs = r.ts
  blockFirstOffset : pending ≠ [] → w.blockFirstOffset = header.firstOffset + (recsOf blocks).length
  records : w.records = (recsOf blocks).length
  blocksCount : w.blocks = blocks.length
  dict : InvIn v w.dict
  beside : w.dict = none → DictFile v w.beside
  decodesPending : ∀ reader, Knows w.dict reader → Decodes reader pending
  decodes : ∀ config, Decodes (PartReader.loadDict v w.files.dict config) (recsOf blocks)

/-! ## A fresh part -/

theorem writes_create {header : PartHeader} (fits : header.Fits) (blockBytes : Nat) (level : Int)
    (codec : Codec) (dict : Option DictConfig) :
    Writes v (PartWriter.create header blockBytes level codec dict) header [] [] where
  fits := fits
  data := by simp [PartWriter.create, dataOf, bytesOf]
  index := by simp [PartWriter.create, indexOf, rowsFrom]
  sound := trivial
  timed := ⟨List.Pairwise.nil, by simp [recsOf]⟩
  fileOff := by simp [PartWriter.create]
  nextOffset := rfl
  nextFits := fits.firstOffset
  lastTs := rfl
  blockRecords := rfl
  recordsFit := by decide
  block := ⟨[], rfl, by simp, rfl⟩
  blockFirstTs := by simp
  blockFirstOffset := fun h => absurd rfl h
  records := rfl
  blocksCount := rfl
  dict := by
    intro d hd
    obtain ⟨config, -, rfl⟩ := Option.map_eq_some_iff.mp hd
    exact ⟨_, _, _, Dict.holds_create config level⟩
  beside := by
    intro _ file hfile
    cases hfile
  decodesPending := fun _ _ _ hr => by cases hr
  decodes := fun _ _ hr => by cases hr

/-! ## What readers load while the dictionary grows -/

theorem resolveIn_loadDict (dict : Option Bytes) (config : Option DictConfig) (code : UInt8)
    (id : Nat) : resolveIn (PartReader.loadDict v dict config) code id
      = (Dict.load v dict (config.getD DictConfig.default) 1).resolve code id := by
  cases dict with
  | some bytes => rfl
  | none =>
    show none = Dict.resolve _ code id
    have hblock : (Dict.load v none (config.getD DictConfig.default) 1).blockOf code = none := by
      unfold Dict.blockOf
      split
      · rfl
      · exact List.getElem?_nil
    rw [Dict.resolve, hblock]
    rfl

/-- The tuning a reader is given changes no meaning. -/
theorem knows_loadDict (dict : Option Bytes) (config config' : Option DictConfig) :
    Knows (PartReader.loadDict v dict config) (PartReader.loadDict v dict config') := by
  intro code id r hr
  rw [resolveIn_loadDict] at hr ⊢
  exact (Dict.Grows.refl (v := v) { Dict.create DictConfig.default 1 with file := dict }).2
    _ _ _ _ code id r hr

/-- **A reader that loads the dictionary later knows every code an earlier one knew.** -/
theorem knows_files {w : PartWriter} {dict : Option Dict} (h : GrowsIn v w.dict dict)
    (config config' : Option DictConfig) :
    Knows (PartReader.loadDict v w.files.dict config)
      (PartReader.loadDict v { w with dict := dict }.files.dict config') := by
  unfold PartWriter.files
  cases hw : w.dict with
  | none =>
    rw [hw] at h
    cases dict with
    | some d => exact (h : False).elim
    | none => exact knows_loadDict w.beside config config'
  | some d =>
    rw [hw] at h
    cases dict with
    | none => exact (h : False).elim
    | some d' =>
      intro code id r hr
      rw [resolveIn_loadDict] at hr ⊢
      exact h.2 _ _ _ _ code id r hr

/-- The dictionary of `w'` goes on from that of `w`. -/
def Continues (v : Vendor) (w w' : PartWriter) : Prop :=
  GrowsIn v w.dict w'.dict ∧ w'.beside = w.beside

theorem Continues.refl (v : Vendor) (w : PartWriter) : Continues v w w := ⟨GrowsIn.refl v _, rfl⟩

theorem Continues.trans {a b c : PartWriter} (hab : Continues v a b) (hbc : Continues v b c) :
    Continues v a c := ⟨hab.1.trans hbc.1, hbc.2.trans hab.2⟩

theorem Continues.knows {w w' : PartWriter} (h : Continues v w w')
    (config config' : Option DictConfig) :
    Knows (PartReader.loadDict v w.files.dict config)
      (PartReader.loadDict v w'.files.dict config') := by
  have hfiles : w'.files.dict = { w with dict := w'.dict }.files.dict := by
    unfold PartWriter.files
    rw [h.2]
  rw [hfiles]
  exact knows_files h.1 config config'

/-- With everything in the file, a reader knows what the writer knows. -/
theorem knows_filed {d : Dict} (h : d.Filed v) (config : Option DictConfig) :
    Knows (some d) (PartReader.loadDict v d.file config) := by
  intro code id r hr
  rw [resolveIn_loadDict]
  exact h _ _ code id r hr

theorem Decodes.mono {dict dict' : Option Dict} {recs : List Rec} (h : Decodes dict recs)
    (hknows : Knows dict dict') : Decodes dict' recs :=
  fun r hr => decodeWith_mono hknows (h r hr)

/-! ## Buffering -/

section

variable {w w' : PartWriter} {header : PartHeader} {blocks : List Stored} {pending : List Rec}

/-- The writer's counters, apart from its dictionary. -/
theorem Writes.tallies (h : Writes v w header blocks pending) : Tallies v w header blocks pending :=
  ⟨h.fits, h.data, h.index, h.sound, h.timed, h.fileOff, h.nextOffset, h.nextFits, h.lastTs,
    h.blockRecords, h.recordsFit, h.block, h.blockFirstTs, h.blockFirstOffset, h.records,
    h.blocksCount⟩

/-- Counters and dictionary together. -/
theorem Tallies.writes (t : Tallies v w header blocks pending) (dict : InvIn v w.dict)
    (beside : w.dict = none → DictFile v w.beside)
    (decodesPending : ∀ reader, Knows w.dict reader → Decodes reader pending)
    (decodes : ∀ config, Decodes (PartReader.loadDict v w.files.dict config) (recsOf blocks)) :
    Writes v w header blocks pending :=
  ⟨t.fits, t.data, t.index, t.sound, t.timed, t.fileOff, t.nextOffset, t.nextFits, t.lastTs,
    t.blockRecords, t.recordsFit, t.block, t.blockFirstTs, t.blockFirstOffset, t.records,
    t.blocksCount, dict, beside, decodesPending, decodes⟩

/-- **One record more in the buffer**, encoded under a dictionary that goes on from the
writer's own. -/
theorem Writes.push (h : Writes v w header blocks pending) {ts delta : Nat} {head : PartHeader}
    (hts : ts < 2 ^ 64) (hstamp : w.stamp ts = .ok (delta, head)) {enc chunk : Bytes}
    (hrecord : putRecord delta enc = some chunk) (hnext : w.nextOffset + 1 < 2 ^ 64)
    (hmany : w.blockRecords + 1 < 2 ^ 32) {body : Body} (header' : PartHeader)
    {dict : Option Dict} (hinv : InvIn v dict) (hgrows : GrowsIn v w.dict dict)
    (hdecode : ∀ reader, Knows dict reader → Body.decodeWith enc reader = some body) :
    Writes v { w with
      header := header'
      dict := dict
      block := w.block ++ chunk
      blockFirstTs := if w.block = [] then ts else w.blockFirstTs
      blockFirstOffset := if w.block = [] then w.nextOffset else w.blockFirstOffset
      nextOffset := w.nextOffset + 1
      blockRecords := w.blockRecords + 1
      lastTs := some ts } header blocks (pending ++ [⟨ts, enc, body⟩]) := by
  refine (h.tallies.push hts hstamp hrecord hnext hmany body header' dict).writes hinv ?_ ?_ ?_
  · intro hnone
    cases hw : w.dict with
    | none => exact h.beside hw
    | some d =>
      rw [hw, show dict = none from hnone] at hgrows
      exact (hgrows : False).elim
  · intro reader hreader r hr
    rcases List.mem_append.mp hr with hr | hr
    · exact h.decodesPending reader (hgrows.knows.trans hreader) r hr
    · rw [List.mem_singleton.mp hr]
      exact hdecode reader hreader
  · intro config
    exact (h.decodes config).mono (knows_files hgrows config config)

/-- What fits a record's length field is short. -/
theorem length_of_putRecord {delta : Nat} {enc chunk : Bytes}
    (hrecord : putRecord delta enc = some chunk) : enc.length < 2 ^ 64 := by
  unfold putRecord at hrecord
  dsimp only at hrecord
  split at hrecord
  · omega
  · cases hrecord

/-- A record the writer buffers. -/
theorem Writes.buffer (lawful : v.Lawful) (h : Writes v w header blocks pending) {ts : Nat}
    {body : Body} (hts : ts < 2 ^ 64) (fits : FitsItems v w.dict body.items)
    (hok : w.buffer v ts body = .ok w') :
    (∃ enc, Writes v w' header blocks (pending ++ [⟨ts, enc, body⟩])) ∧ Continues v w w' := by
  obtain ⟨⟨enc, dict⟩, hencode, hok⟩ := bind_eq_ok.mp hok
  obtain ⟨⟨delta, head⟩, hstamp, hok⟩ := bind_eq_ok.mp hok
  dsimp only at hok
  cases hrecord : putRecord delta enc with
  | none =>
    rw [hrecord] at hok
    cases hok
  | some chunk =>
    rw [hrecord] at hok
    dsimp only at hok
    split at hok
    · cases hok
    rename_i hcount
    obtain rfl := Except.ok.inj hok
    obtain ⟨hdict, hgrows, hdecode⟩ :=
      encodeWith_decodes lawful h.dict fits hencode (length_of_putRecord hrecord)
    simp only [not_or, Nat.not_le] at hcount
    exact ⟨⟨enc, h.push hts hstamp hrecord hcount.1 hcount.2 head hdict hgrows hdecode⟩,
      hgrows, rfl⟩

/-! ## Flushing -/

/-- The dictionary step: the strings pending records may refer to are in the file. -/
theorem Writes.flushDict (lawful : v.Lawful) (h : Writes v w header blocks pending)
    (hok : w.flushDict v = .ok w') :
    ∃ dict, w' = { w with dict := dict } ∧ InvIn v dict ∧ GrowsIn v w.dict dict ∧
      ∀ config, Knows dict (PartReader.loadDict v w'.files.dict config) := by
  unfold PartWriter.flushDict at hok
  cases hw : w.dict with
  | none =>
    rw [hw] at hok
    obtain rfl := Except.ok.inj hok
    refine ⟨none, ?_, fun d hd => by (cases hd), trivial, fun config => knows_none _⟩
    rw [← hw]
  | some d =>
    rw [hw] at hok
    dsimp only at hok
    cases hd : d.flushIfDirty v with
    | error e =>
      rw [hd] at hok
      cases hok
    | ok d' =>
      rw [hd] at hok
      obtain rfl := Except.ok.inj hok
      obtain ⟨hinv, hgrows, hfiled⟩ := (h.dict d hw).flushIfDirty lawful hd
      refine ⟨some d', rfl, ?_, hgrows, fun config => knows_filed hfiled config⟩
      intro e he
      rw [← Option.some.inj he]
      exact hinv

/-- A dictionary that goes on from the writer's own takes its place. -/
theorem Writes.withDict (h : Writes v w header blocks pending) {dict : Option Dict}
    (hinv : InvIn v dict) (hgrows : GrowsIn v w.dict dict) :
    Writes v { w with dict := dict } header blocks pending := by
  refine (h.tallies.withDict dict).writes hinv ?_ ?_ ?_
  · intro hnone
    cases hw : w.dict with
    | none => exact h.beside hw
    | some d =>
      rw [hw, show dict = none from hnone] at hgrows
      exact (hgrows : False).elim
  · intro reader hreader
    exact h.decodesPending reader (hgrows.knows.trans hreader)
  · intro config
    exact (h.decodes config).mono (knows_files hgrows config config)

/-- **The row behind its block**: with the strings of the pending records in the
dictionary's file, they are records of the files. -/
theorem Writes.land (h : Writes v w header blocks pending) {block : BlockHeader} {payload : Bytes}
    (hfiled : ∀ config, Knows w.dict (PartReader.loadDict v w.files.dict config))
    (hsound : Stored.Sound v ⟨block, payload, pending⟩
      (header.firstOffset + (recsOf blocks).length))
    (hok : (w.writeData block payload).writeIndex block = .ok w') :
    Writes v w' header (blocks ++ [⟨block, payload, pending⟩]) [] ∧ w'.dict = w.dict ∧
      w'.beside = w.beside ∧ w'.file = (w.writeData block payload).file := by
  have htallies := h.tallies.land hsound hok
  unfold PartWriter.writeIndex at hok
  rw [show (PartWriter.writeData w block payload).fileOff = w.fileOff from rfl] at hok
  cases hrow : IndexRow.fromHeader block w.fileOff with
  | none =>
    rw [hrow] at hok
    cases hok
  | some row =>
    rw [hrow] at hok
    obtain rfl := Except.ok.inj hok
    refine ⟨htallies.writes h.dict h.beside (fun _ _ _ hr => by (cases hr)) ?_, rfl, rfl, rfl⟩
    intro config r hr
    rw [recsOf_append] at hr
    rcases List.mem_append.mp hr with hr | hr
    · exact h.decodes config r hr
    · exact h.decodesPending _ (hfiled config) r (by simpa [recsOf] using hr)

/-- **A flushed block**: what was pending is in the files. -/
theorem Writes.flushBlock (lawful : v.Lawful) (h : Writes v w header blocks pending)
    (hne : pending ≠ []) (hok : w.flushBlock v = .ok w') :
    (∃ s : Stored, s.recs = pending ∧ Writes v w' header (blocks ++ [s]) []) ∧
      Continues v w w' := by
  unfold PartWriter.flushBlock at hok
  rw [if_neg (by
    rw [h.blockRecords]
    exact fun hzero => hne (List.length_eq_zero_iff.mp hzero))] at hok
  obtain ⟨w₁, hdict, hok⟩ := bind_eq_ok.mp hok
  obtain ⟨⟨block, payload⟩, hpack, hok⟩ := bind_eq_ok.mp hok
  obtain ⟨dict, rfl, hinv, hgrows, hfiled⟩ := h.flushDict lawful hdict
  have hsound := ((h.tallies.withDict dict).packBlock lawful hne hpack).1
  obtain ⟨hland, hkept, hbeside, -⟩ := (h.withDict hinv hgrows).land hfiled hsound hok
  refine ⟨⟨_, rfl, hland⟩, ?_, hbeside⟩
  rw [hkept]
  exact hgrows

theorem Writes.flushBlock_nil (h : Writes v w header blocks []) : w.flushBlock v = .ok w := by
  have hzero : w.blockRecords = 0 := h.blockRecords
  rw [PartWriter.flushBlock, if_pos hzero]

end

end Okm.Series
