import Okm.Series.Body

/-!
# Dictionary writes that fail

`flush_open_block` and its callers once more, now with what a failed write leaves
behind: `close_block` keeps the error to itself and the full block open, `flush_if_dirty`
hands it on.

A write that fails before the file offset moves leaves bytes where the next block will
go. The dictionary is then `Littered`: one that `Dict.Inv` knows, but for bytes behind the
last block of its file. Whoever loads the file finds the blocks in front of them
(`load_littered`), and the next write goes over them, so no code changes its meaning
(`tryEncodeItems_reads`).

The `.tail` file is written last. When that fails the block is in the file and still open,
and will be written a second time: no dictionary of `Dict.Inv` stands behind this one
(`tail_breaks`).
-/

namespace Okm.Series

open Lib Model

variable {v : Vendor}

/-- A failure inside `flush_open_block`: of zstd, of a write to the dictionary file after so
many bytes, or of the `.tail` file beside it. -/
inductive DictFault where
  | compress
  | seek
  | header (written : Nat)
  | payload (written : Nat)
  | sync
  | tail
  deriving DecidableEq

/-- What of the block reached the file when its write failed. -/
def DictFault.torn (chunk : Bytes) : DictFault → Option Bytes
  | .seek => some []
  | .header written => some (chunk.take (min written dictBlockHeaderLen))
  | .payload written => some (chunk.take (dictBlockHeaderLen + written))
  | .sync => some chunk
  | _ => none

namespace Dict

/-! ## Calls that may fail -/

/-- The writes of a packed block. The offsets move in front of the `.tail` file. -/
def tryWrite (fault : Option DictFault) (dict : Dict) (block : Block) (chunk : Bytes) :
    Except Error Unit × Dict :=
  match dict.file with
  | none => (.error .badPath, dict)
  | some file =>
    let at_ := dict.fileOffset
    match fault.bind (DictFault.torn chunk) with
    | some bytes => (.error .io, { dict with file := some (writeAt file at_ bytes) })
    | none =>
      (if fault = some .tail then .error .io else .ok (), { dict with
        file := some (writeAt file at_ chunk)
        fileOffset := at_ + chunk.length
        blocks := dict.blocks.set dict.openBlock { block with fileOffset := at_ } })

/-- `flush_open_block`, with what it leaves. -/
def tryFlushOpenBlock (v : Vendor) (fault : Option DictFault) (dict : Dict) :
    Except Error Unit × Dict :=
  match dict.blocks[dict.openBlock]? with
  | none => (.ok (), dict)
  | some block =>
    if block.entries = [] then (.ok (), dict)
    else
      let prev :=
        if dict.openBlock = 0 then 0
        else ((dict.blocks[dict.openBlock - 1]?).map Block.fileOffset).getD 0
      match if fault = some .compress then .error .codec else packBlock v dict.level prev block with
      | .error e => (.error e, dict)
      | .ok chunk => dict.tryWrite fault block chunk

/-- `flush_if_dirty`, with what it leaves. -/
def tryFlushIfDirty (v : Vendor) (fault : Option DictFault) (dict : Dict) :
    Except Error Unit × Dict :=
  if dict.openEntries = [] then (.ok (), dict)
  else
    match dict.tryFlushOpenBlock v fault with
    | (.error e, left) => (.error e, left)
    | (.ok (), left) => (.ok (), left.pushBlock left.openWidth)

/-- `close_block`: the error of the write goes nowhere. -/
def tryCloseBlock (v : Vendor) (fault : Option DictFault) (dict : Dict) : Dict :=
  match dict.tryFlushOpenBlock v fault with
  | (.error _, left) => left
  | (.ok (), left) => left.pushBlock (left.openWidth * 2)

/-- What `promote` enters into. -/
def tryReady (v : Vendor) (fault : Option DictFault) (dict : Dict) : Dict :=
  if dict.blockEntries ≤ dict.openEntries.length then dict.tryCloseBlock v fault else dict

/-- `promote`. -/
def tryPromote (v : Vendor) (fault : Option DictFault) (dict : Dict) (text : String) :
    Dict × (UInt8 × Nat) :=
  (dict.tryReady v fault).enter text

/-- `settle`, with what it leaves. -/
def trySettle (v : Vendor) (fault : Option DictFault) (dict : Dict) (text : String) :
    Except Error (Option (UInt8 × Nat)) × Dict :=
  match dict.promoted.get text with
  | some coded => (.ok (some coded), dict)
  | none =>
    match dict.count (hashOf v text) with
    | .error e => (.error e, dict)
    | .ok (count, dict) =>
      if dict.earns count text then
        let (dict, coded) :=
          { dict with counts := dict.counts.erase (hashOf v text) }.tryPromote v fault text
        (.ok (some coded), dict)
      else (.ok none, dict)

end Dict

/-- What `settle` answers when there is a dictionary to ask. -/
def trySettleIn (v : Vendor) (fault : Option DictFault) (dict : Option Dict) (text : String) :
    Except Error (Option (UInt8 × Nat)) × Option Dict :=
  match dict with
  | none => (.ok none, none)
  | some d =>
    let (settled, d) := d.trySettle v fault text
    (settled, some d)

/-- One item of `encode_with`: only a string asks the dictionary. -/
def tryEncodeItem (v : Vendor) (fault : Option DictFault) (dict : Option Dict)
    (item : UInt16 × Value) : Except Error Bytes × Option Dict :=
  match item.2 with
  | .str text =>
    match trySettleIn v fault dict text with
    | (.error e, dict) => (.error e, dict)
    | (.ok settled, dict) => (writeSettled dict item.1 text settled, dict)
  | _ => ((encodeItem v dict item).map Prod.fst, dict)

/-- `encode_with`, with what it leaves: each item meets its own failure. -/
def tryEncodeItems (v : Vendor) : List (Option DictFault) → Option Dict → List (UInt16 × Value) →
    Except Error Bytes × Option Dict
  | _, dict, [] => (.ok [], dict)
  | faults, dict, item :: items =>
    match tryEncodeItem v (faults.headD none) dict item with
    | (.error e, dict) => (.error e, dict)
    | (.ok chunk, dict) =>
      match tryEncodeItems v faults.tail dict items with
      | (.error e, dict) => (.error e, dict)
      | (.ok rest, dict) => (.ok (chunk ++ rest), dict)

/-! ## Calls without a fault -/

namespace Dict

theorem tryFlushOpenBlock_none (v : Vendor) (d : Dict) :
    d.tryFlushOpenBlock v none = match d.flushOpenBlock v with
      | .error e => (.error e, d)
      | .ok d' => (.ok (), d') := by
  unfold tryFlushOpenBlock flushOpenBlock
  cases hblock : d.blocks[d.openBlock]? with
  | none => rfl
  | some block =>
    dsimp only
    by_cases hnil : block.entries = []
    · rw [if_pos hnil, if_pos hnil]
    · rw [if_neg hnil, if_neg hnil, if_neg nofun]
      cases hchunk : packBlock v d.level _ block with
      | error e => rfl
      | ok chunk =>
        cases hfile : d.file with
        | none => simp only [tryWrite, hfile, bind, Except.bind]
        | some file => simp [tryWrite, hfile, bind, Except.bind]

theorem tryPromote_none (v : Vendor) (d : Dict) (text : String) :
    d.tryPromote v none text = d.promote v text := by
  unfold tryPromote promote tryReady ready tryCloseBlock closeBlock
  rw [tryFlushOpenBlock_none]
  cases d.flushOpenBlock v with
  | error e => rfl
  | ok d' => rfl

theorem trySettle_none (v : Vendor) (d : Dict) (text : String) :
    d.trySettle v none text = match d.settle v text with
      | .error e => (.error e, d)
      | .ok (coded, d') => (.ok coded, d') := by
  unfold trySettle settle
  cases d.promoted.get text with
  | some coded => rfl
  | none =>
    cases d.count (hashOf v text) with
    | error e => rfl
    | ok counted =>
      simp only [bind, Except.bind, tryPromote_none]
      split
      · rfl
      · rfl

end Dict

/-- **Encoding without a fault** is the ordinary one. -/
theorem tryEncodeItems_ok {dict left : Option Dict} {items : List (UInt16 × Value)} {bytes : Bytes}
    (hok : tryEncodeItems v [] dict items = (.ok bytes, left)) :
    encodeItems v dict items = .ok (bytes, left) := by
  -- without a fault one item is encoded as it always is
  have hone : ∀ dict item chunk left, tryEncodeItem v none dict item = (.ok chunk, left) →
      encodeItem v dict item = .ok (chunk, left) := by
    intro dict item chunk left hok
    obtain ⟨tag, value⟩ := item
    cases value with
    | str text =>
      cases dict with
      | none =>
        obtain ⟨hchunk, rfl⟩ := Prod.mk.inj hok
        exact bind_eq_ok.mpr ⟨_, rfl, bind_eq_ok.mpr ⟨chunk, hchunk, rfl⟩⟩
      | some d =>
        simp only [tryEncodeItem, trySettleIn, Dict.trySettle_none] at hok
        simp only [encodeItem, settleIn]
        cases hsettle : d.settle v text with
        | error e =>
          rw [hsettle] at hok
          cases (Prod.mk.inj hok).1
        | ok settled =>
          rw [hsettle] at hok
          obtain ⟨hchunk, rfl⟩ := Prod.mk.inj hok
          exact bind_eq_ok.mpr ⟨_, rfl, bind_eq_ok.mpr ⟨chunk, hchunk, rfl⟩⟩
    | bytes _ | u64 _ | i64 _ | f64 _ =>
      obtain ⟨hchunk, rfl⟩ := Prod.mk.inj hok
      rw [← Except.ok.inj hchunk]
      rfl
  induction items generalizing dict bytes with
  | nil =>
    obtain ⟨hbytes, rfl⟩ := Prod.mk.inj hok
    rw [← Except.ok.inj hbytes]
    rfl
  | cons item items ih =>
    unfold tryEncodeItems at hok
    cases hfirst : tryEncodeItem v none dict item with
    | mk answer next =>
      rw [List.headD_nil, hfirst] at hok
      cases answer with
      | error e => cases (Prod.mk.inj hok).1
      | ok chunk =>
        dsimp only [List.tail_nil] at hok
        cases hmore : tryEncodeItems v [] next items with
        | mk answer last =>
          rw [hmore] at hok
          cases answer with
          | error e => cases (Prod.mk.inj hok).1
          | ok rest =>
            obtain ⟨hbytes, rfl⟩ := Prod.mk.inj hok
            rw [← Except.ok.inj hbytes]
            exact bind_eq_ok.mpr ⟨_, hone _ _ _ _ hfirst, bind_eq_ok.mpr ⟨_, ih hmore, rfl⟩⟩

/-! ## Bytes nobody refers to -/

namespace Dict

/-- `d` is `clean`, but for bytes behind the last block of its file. -/
def Littered (clean d : Dict) : Prop :=
  ∃ litter, d = { clean with file := clean.file.map (· ++ litter) }

variable {c d d' left : Dict} {fault : Option DictFault} {text : String}

theorem Littered.refl (c : Dict) : Littered c c := ⟨[], by simp⟩

theorem Littered.pushBlock (h : Littered c d) (width : Nat) :
    Littered (c.pushBlock width) (d.pushBlock width) := by
  obtain ⟨litter, rfl⟩ := h
  exact ⟨litter, rfl⟩

theorem Littered.enter (h : Littered c d) (text : String) :
    Littered (c.enter text).1 (d.enter text).1 ∧ (d.enter text).2 = (c.enter text).2 := by
  obtain ⟨litter, rfl⟩ := h
  exact ⟨⟨litter, rfl⟩, rfl⟩

theorem Littered.setCounts (h : Littered c d) (counts : SortedMap Nat Nat) :
    Littered { c with counts := counts } { d with counts := counts } := by
  obtain ⟨litter, rfl⟩ := h
  exact ⟨litter, rfl⟩

theorem Littered.resolve (h : Littered c d) (code : UInt8) (id : Nat) :
    d.resolve code id = c.resolve code id := by
  obtain ⟨litter, rfl⟩ := h
  rfl

theorem Littered.promoted (h : Littered c d) : d.promoted = c.promoted := by
  obtain ⟨litter, rfl⟩ := h
  rfl

theorem Littered.openEntries (h : Littered c d) : d.openEntries = c.openEntries := by
  obtain ⟨litter, rfl⟩ := h
  rfl

theorem Littered.openWidth (h : Littered c d) : d.openWidth = c.openWidth := by
  obtain ⟨litter, rfl⟩ := h
  rfl

/-- **The file of a littered dictionary says what the clean one's says.** -/
theorem load_littered {file : Bytes} {found : List DecodedBlock} (hcontents : c.file = some file)
    (hfile : FileHolds v file found) (hlit : Littered c d) (config : DictConfig) (level : Int)
    (config' : DictConfig) (level' : Int) :
    (load v c.file config level).Extends (load v d.file config' level') := by
  obtain ⟨litter, rfl⟩ := hlit
  obtain ⟨rounds, hread⟩ := readBlocks_prefix hfile litter
  rw [hcontents, Option.map_some]
  exact load_extends (readBlocks_file hfile) hread config level config' level'

/-! ## One write -/

/-- What a write leaves that failed before the offsets moved: bytes where the next block
goes, or nothing. -/
def Torn (d left : Dict) : Prop :=
  left = d ∨ d.openEntries ≠ [] ∧ ∃ file bytes, d.file = some file ∧
    left = { d with file := some (writeAt file d.fileOffset bytes) }

/-- The `.tail` file is reached and cannot be written. -/
def TailFails (v : Vendor) (fault : Option DictFault) (d : Dict) : Prop :=
  fault = some .tail ∧ d.openEntries ≠ [] ∧ (d.flushOpenBlock v).isOk = true

instance (v : Vendor) (fault : Option DictFault) (d : Dict) : Decidable (d.TailFails v fault) :=
  inferInstanceAs (Decidable (_ ∧ _ ∧ _))

/-- **What a write of the open block does**: it is the ordinary one, it fails before the
offsets move, or it fails with everything done but the `.tail` file. -/
theorem tryFlushOpenBlock_cases (v : Vendor) (fault : Option DictFault) (d : Dict) :
    (∃ d', d.tryFlushOpenBlock v fault = (.ok (), d') ∧ d.flushOpenBlock v = .ok d' ∧
      ¬ d.TailFails v fault) ∨
    (∃ e left, d.tryFlushOpenBlock v fault = (.error e, left) ∧ Torn d left ∧
      ¬ d.TailFails v fault) ∨
    (∃ e d', d.tryFlushOpenBlock v fault = (.error e, d') ∧ d.flushOpenBlock v = .ok d' ∧
      d.TailFails v fault) := by
  unfold tryFlushOpenBlock
  cases hblock : d.blocks[d.openBlock]? with
  | none =>
    -- no open block, or an empty one: nothing to write
    have hentries : d.openEntries = [] := by rw [openEntries, hblock]; rfl
    have hflush : d.flushOpenBlock v = .ok d := by rw [flushOpenBlock, hblock]
    exact Or.inl ⟨d, rfl, hflush, fun h => h.2.1 hentries⟩
  | some block =>
    have hentries : d.openEntries = block.entries := by rw [openEntries, hblock]; rfl
    by_cases hnil : block.entries = []
    · have hflush : d.flushOpenBlock v = .ok d := by
        rw [flushOpenBlock, hblock]
        dsimp only
        rw [if_pos hnil]
      dsimp only
      rw [if_pos hnil]
      exact Or.inl ⟨d, rfl, hflush, fun h => h.2.1 (hentries.trans hnil)⟩
    · have hflush := flushOpenBlock.eq_1 v d
      rw [hblock] at hflush
      dsimp only at hflush ⊢
      rw [if_neg hnil] at hflush ⊢
      -- a failure before the write leaves the dictionary as it was
      by_cases hcompress : fault = some .compress
      · rw [if_pos hcompress]
        refine Or.inr (Or.inl ⟨_, d, rfl, Or.inl rfl, fun h => ?_⟩)
        have htail := h.1
        rw [hcompress] at htail
        cases htail
      · rw [if_neg hcompress]
        cases hchunk : packBlock v d.level _ block with
        | error e =>
          rw [hchunk] at hflush
          refine Or.inr (Or.inl ⟨e, d, rfl, Or.inl rfl, fun h => ?_⟩)
          have hok := h.2.2
          rw [hflush] at hok
          cases hok
        | ok chunk =>
          rw [hchunk] at hflush
          dsimp only
          unfold tryWrite
          cases hfile : d.file with
          | none =>
            simp only [hfile, bind, Except.bind] at hflush
            refine Or.inr (Or.inl ⟨_, d, rfl, Or.inl rfl, fun h => ?_⟩)
            have hok := h.2.2
            rw [hflush] at hok
            cases hok
          | some file =>
            simp only [hfile, bind, Except.bind] at hflush
            dsimp only
            -- a torn write leaves some of the chunk behind the file
            cases htorn : fault.bind (DictFault.torn chunk) with
            | some bytes =>
              refine Or.inr (Or.inl ⟨_, _, rfl, Or.inr ⟨?_, file, bytes, hfile, rfl⟩, fun h => ?_⟩)
              · rwa [hentries]
              · rw [h.1] at htorn
                cases htorn
            | none =>
              dsimp only
              -- past the write, only the tail can fail: the block is out all the same
              by_cases htail : fault = some .tail
              · rw [if_pos htail]
                exact Or.inr (Or.inr ⟨_, _, rfl, hflush, htail, by rwa [hentries], by
                  rw [hflush]; rfl⟩)
              · rw [if_neg htail]
                exact Or.inl ⟨_, rfl, hflush, fun h => htail h.1⟩

/-- A torn write litters the file, and nothing else. -/
theorem Littered.torn (h : Littered c d) (hinv : c.Inv v) (htorn : Torn d left) :
    Littered c left := by
  rcases htorn with rfl | ⟨hne, file, bytes, hfile, rfl⟩
  · exact h
  · obtain ⟨clean, closed, last, holds⟩ := hinv
    rw [h.openEntries, holds.openEntries_eq] at hne
    obtain ⟨litter, rfl⟩ := h
    rw [holds.contents, Option.map_some] at hfile
    obtain rfl := Option.some.inj hfile
    refine ⟨bytes ++ litter.drop bytes.length, ?_⟩
    show { c with file := some (writeAt (clean ++ litter) c.fileOffset bytes) } = _
    rw [holds.fileOffset_eq hne, writeAt_append, holds.contents]
    rfl

/-- A block written over litter is the block written to the clean file. -/
theorem Littered.flushOpenBlock (h : Littered c d) (hinv : c.Inv v)
    (hok : d.flushOpenBlock v = .ok d') :
    ∃ c', c.flushOpenBlock v = .ok c' ∧ Littered c' d' := by
  obtain ⟨file, closed, last, holds⟩ := hinv
  obtain ⟨litter, rfl⟩ := h
  unfold Dict.flushOpenBlock at hok ⊢
  simp only [holds.open_eq] at hok ⊢
  by_cases hnil : last.entries = []
  · rw [if_pos hnil] at hok ⊢
    exact ⟨c, rfl, litter, (Except.ok.inj hok).symm⟩
  · rw [if_neg hnil] at hok ⊢
    obtain ⟨chunk, hchunk, hok⟩ := bind_eq_ok.mp hok
    simp only [holds.contents, Option.map_some, holds.fileOffset_eq hnil, writeAt_append] at hok
    obtain ⟨c', hc'⟩ : ∃ c' : Dict, c' = { c with
        file := some (file ++ chunk)
        fileOffset := file.length + chunk.length
        blocks := c.blocks.set c.openBlock { last with fileOffset := file.length } } := ⟨_, rfl⟩
    refine ⟨c', bind_eq_ok.mpr ⟨chunk, hchunk, ?_⟩, litter.drop chunk.length, ?_⟩
    · simp only [holds.contents, holds.fileOffset_eq hnil, writeAt_end, hc']
    · rw [← Except.ok.inj hok, hc']
      simp

/-- **No dictionary of the invariant stands behind one that lost its `.tail` write**: its
open block is in the file already. -/
theorem tail_breaks (lawful : v.Lawful) (hinv : c.Inv v) (hlit : Littered c d)
    (hne : d.openEntries ≠ []) (hok : d.flushOpenBlock v = .ok d') :
    ¬ ∃ c', c'.Inv v ∧ Littered c' d' := by
  rintro ⟨c', ⟨file', closed', last', holds'⟩, litter', rfl⟩
  obtain ⟨c₁, hclean, litter₁, heq⟩ := hlit.flushOpenBlock hinv hok
  obtain ⟨file, closed, last, holds⟩ := hinv
  rw [hlit.openEntries, holds.openEntries_eq] at hne
  obtain ⟨chunk, prev, hchunk, rfl⟩ := holds.flushOpenBlock hne hclean
  obtain ⟨⟨found, hfile, hshape⟩, -⟩ := holds.onFile_snoc lawful hne file.length hchunk
  obtain ⟨found', hfile', hshape'⟩ := holds'.onFile
  -- both are the bytes in front of the offset
  have hoffset : c'.fileOffset = (file ++ chunk).length := by
    rw [List.length_append]
    exact congrArg Dict.fileOffset heq
  have hplace : c'.fileOffset = file'.length := by
    rcases holds'.offset with hplace | ⟨hzero, -⟩
    · exact hplace
    · have hlong := hfile.length
      rw [hzero] at hoffset
      rw [← hoffset, dictFileHeaderLen] at hlong
      omega
  have hcontents : some (file' ++ litter') = some (file ++ chunk ++ litter₁) := by
    have hboth := congrArg Dict.file heq
    rwa [show ({ c' with file := c'.file.map (· ++ litter') } : Dict).file
      = c'.file.map (· ++ litter') from rfl, holds'.contents] at hboth
  have hsame : file' = file ++ chunk :=
    (List.append_inj (Option.some.inj hcontents) (hplace.symm.trans hoffset)).1
  -- the file has one block more than are closed
  rw [hsame] at hfile'
  have hfound : found' = found := (readBlocks_file hfile').symm.trans (readBlocks_file hfile)
  have hmany := congrArg List.length hshape
  have hmany' := congrArg List.length hshape'
  have hopen := congrArg Dict.openBlock heq
  have hclosed : closed'.length = closed.length := by
    rw [← holds'.openBlock, ← holds.openBlock]
    exact hopen
  rw [hfound] at hmany'
  simp only [List.length_map, List.length_append, List.length_singleton] at hmany hmany'
  omega

/-! ## Strings settled over failures -/

/-- A place for one more string in the open block: what `Room` asks of the block a string is
entered in. -/
structure HasRoom (d : Dict) (text : String) : Prop where
  index : d.openBlock < 240
  width : d.openWidth ≤ 8
  id : d.openEntries.length < 256 ^ d.openWidth
  payload : (blockPayload (d.openEntries ++ [text])).length < 2 ^ 32
  placed : dictFileHeaderLen ≤ d.fileOffset

/-- Room for a string where it ends up: a full block was closed, or could not be and takes
one more. -/
def TryRoom (v : Vendor) (fault : Option DictFault) (d : Dict) (text : String) : Prop :=
  (d.blockEntries ≤ d.openEntries.length → ¬ d.TailFails v fault) ∧
    (d.tryReady v fault).HasRoom text

/-- Room for a string that earns a code now. -/
def TryFits (v : Vendor) (fault : Option DictFault) (d : Dict) (text : String) : Prop :=
  d.promoted.get text = none → ∀ counted : Nat × Dict, d.count (hashOf v text) = .ok counted →
    counted.2.earns counted.1 text = true →
    TryRoom v fault { counted.2 with counts := counted.2.counts.erase (hashOf v text) } text

instance HasRoom.decidable (d : Dict) (text : String) : Decidable (d.HasRoom text) :=
  decidable_of_iff (d.openBlock < 240 ∧ d.openWidth ≤ 8 ∧
      d.openEntries.length < 256 ^ d.openWidth ∧
      (blockPayload (d.openEntries ++ [text])).length < 2 ^ 32 ∧
      dictFileHeaderLen ≤ d.fileOffset)
    ⟨fun h => ⟨h.1, h.2.1, h.2.2.1, h.2.2.2.1, h.2.2.2.2⟩,
      fun h => ⟨h.index, h.width, h.id, h.payload, h.placed⟩⟩

instance TryFits.decidable (v : Vendor) (fault : Option DictFault) (d : Dict) (text : String) :
    Decidable (d.TryFits v fault text) :=
  haveI : DecidablePred fun counted : Nat × Dict => counted.2.earns counted.1 text = true →
      TryRoom v fault { counted.2 with counts := counted.2.counts.erase (hashOf v text) } text :=
    fun _ => inferInstanceAs (Decidable (_ = true → (_ → ¬ TailFails _ _ _) ∧ HasRoom _ _))
  inferInstanceAs (Decidable (_ → _))

theorem Littered.hasRoom (h : Littered c d) (room : d.HasRoom text) : c.HasRoom text := by
  obtain ⟨litter, rfl⟩ := h
  exact ⟨room.index, room.width, room.id, room.payload, room.placed⟩

theorem Littered.full (h : Littered c d) (hfull : d.blockEntries ≤ d.openEntries.length) :
    c.blockEntries ≤ c.openEntries.length := by
  obtain ⟨litter, rfl⟩ := h
  exact hfull

/-- **A full block that was closed, or could not be**: either way no code changes. -/
theorem Inv.tryReady (lawful : v.Lawful) (hinv : c.Inv v) (hlit : Littered c d)
    (htail : d.blockEntries ≤ d.openEntries.length → ¬ d.TailFails v fault) :
    ∃ c', c'.Inv v ∧ c.Grows v c' ∧ Littered c' (d.tryReady v fault) := by
  unfold Dict.tryReady
  by_cases hfull : d.blockEntries ≤ d.openEntries.length
  · rw [if_pos hfull, tryCloseBlock]
    rcases tryFlushOpenBlock_cases v fault d with
      ⟨d', htry, hflush, -⟩ | ⟨e, left, htry, htorn, -⟩ | ⟨e, d', -, -, hfails⟩
    · -- the block is in the file, and a wider one is open
      obtain ⟨c₁, hclean, hlit₁⟩ := hlit.flushOpenBlock hinv hflush
      obtain ⟨hinv', hgrows⟩ := hinv.ready lawful
      have hready : c.ready v = c₁.pushBlock (c₁.openWidth * 2) := by
        rw [Dict.ready, if_pos (hlit.full hfull), closeBlock, hclean]
      rw [hready] at hinv' hgrows
      refine ⟨_, hinv', hgrows, ?_⟩
      rw [htry]
      dsimp only
      rw [hlit₁.openWidth]
      exact hlit₁.pushBlock _
    · -- the full block stays open
      rw [htry]
      exact ⟨c, hinv, Grows.refl c, hlit.torn hinv htorn⟩
    · exact absurd hfails (htail hfull)
  · rw [if_neg hfull]
    exact ⟨c, hinv, Grows.refl c, hlit⟩

/-- **Promotion** where there is room. -/
theorem Inv.tryPromote (lawful : v.Lawful) (hinv : c.Inv v) (hlit : Littered c d)
    (room : d.TryRoom v fault text) :
    ∃ c', c'.Inv v ∧ c.Grows v c' ∧ Littered c' (d.tryPromote v fault text).1 ∧
      c'.promoted.get text = some (d.tryPromote v fault text).2 := by
  obtain ⟨htail, hroom⟩ := room
  obtain ⟨ready, ⟨file, closed, last, holds⟩, hgrows, hready⟩ := hinv.tryReady lawful hlit htail
  have hroom := hready.hasRoom hroom
  obtain ⟨hinv', hmore, hget⟩ :=
    holds.enter hroom.index hroom.width hroom.id hroom.payload hroom.placed
  obtain ⟨hlit', hcoded⟩ := hready.enter text
  exact ⟨_, hinv', hgrows.trans hmore, hlit', by rw [hget]; exact congrArg some hcoded.symm⟩

/-- **Settling a string** keeps the meaning of every code, and a code it answers means the
string and fits its width. -/
theorem Inv.trySettle (lawful : v.Lawful) (hinv : c.Inv v) (hlit : Littered c d)
    (fits : d.TryFits v fault text) :
    ∃ c', c'.Inv v ∧ c.Grows v c' ∧ Littered c' (d.trySettle v fault text).2 ∧
      ∀ code id, (d.trySettle v fault text).1 = .ok (some (code, id)) →
        ∃ w, c'.resolve code id = some (w, text) ∧ Written w ∧ id < 256 ^ w := by
  unfold Dict.trySettle
  cases hget : d.promoted.get text with
  | some found =>
    refine ⟨c, hinv, Grows.refl c, hlit, ?_⟩
    intro code id heq
    obtain ⟨file, closed, last, holds⟩ := hinv
    obtain rfl := Option.some.inj (Except.ok.inj heq)
    rw [hlit.promoted] at hget
    exact holds.resolve_promoted hget
  | none =>
    dsimp only
    cases hcount : d.count (hashOf v text) with
    | error e => exact ⟨c, hinv, Grows.refl c, hlit, fun code id heq => by cases heq⟩
    | ok counted =>
      obtain ⟨n, d₁⟩ := counted
      have hroom := fits hget _ hcount
      obtain ⟨counts, rfl⟩ := count_eq hcount
      obtain ⟨file, closed, last, holds⟩ := hinv
      dsimp only at hroom ⊢
      split
      · rename_i hearns
        -- the string is promoted, and its occurrences are forgotten
        have hcounted : Inv v { c with counts := counts.erase (hashOf v text) } :=
          ⟨file, closed, last, holds.setCounts _⟩
        obtain ⟨c', hinv', hgrows, hlit', hpromoted⟩ :=
          hcounted.tryPromote lawful (hlit.setCounts _) (hroom hearns)
        refine ⟨c', hinv', hgrows, hlit', ?_⟩
        intro code id heq
        obtain ⟨file', closed', last', holds'⟩ := hinv'
        rw [Option.some.inj (Except.ok.inj heq)] at hpromoted
        exact holds'.resolve_promoted hpromoted
      · refine ⟨{ c with counts := counts }, ⟨file, closed, last, holds.setCounts counts⟩,
          grows_of_file (Extends.refl c) rfl, hlit.setCounts counts, ?_⟩
        intro code id heq
        cases heq

/-! ## Before a block of records -/

/-- A flush of the dictionary that answers is the ordinary one. -/
theorem tryFlushIfDirty_ok (hok : d.tryFlushIfDirty v fault = (.ok (), d')) :
    d.flushIfDirty v = .ok d' := by
  unfold Dict.tryFlushIfDirty at hok
  unfold Dict.flushIfDirty
  by_cases hnil : d.openEntries = []
  · rw [if_pos hnil] at hok ⊢
    rw [(Prod.mk.inj hok).2]
  · rw [if_neg hnil] at hok ⊢
    rcases tryFlushOpenBlock_cases v fault d with
      ⟨d₁, htry, hflush, -⟩ | ⟨e, left, htry, -⟩ | ⟨e, d₁, htry, -⟩
    · rw [htry] at hok
      exact bind_eq_ok.mpr ⟨d₁, hflush, congrArg Except.ok (Prod.mk.inj hok).2⟩
    · rw [htry] at hok
      cases (Prod.mk.inj hok).1
    · rw [htry] at hok
      cases (Prod.mk.inj hok).1

/-- Over litter it does what it does in the clean file. -/
theorem Littered.flushIfDirty (h : Littered c d) (hinv : c.Inv v)
    (hok : d.flushIfDirty v = .ok d') : ∃ c', c.flushIfDirty v = .ok c' ∧ Littered c' d' := by
  unfold Dict.flushIfDirty at hok ⊢
  rw [h.openEntries] at hok
  by_cases hnil : c.openEntries = []
  · rw [if_pos hnil] at hok ⊢
    rw [← Except.ok.inj hok]
    exact ⟨c, rfl, h⟩
  · rw [if_neg hnil] at hok ⊢
    obtain ⟨d₁, hflush, hok⟩ := bind_eq_ok.mp hok
    obtain ⟨c₁, hclean, hlit⟩ := h.flushOpenBlock hinv hflush
    rw [← Except.ok.inj hok, hlit.openWidth]
    exact ⟨_, bind_eq_ok.mpr ⟨c₁, hclean, rfl⟩, hlit.pushBlock _⟩

/-- One that fails leaves litter, unless it is the `.tail` file that fails. -/
theorem Littered.tryFlushIfDirty_error (h : Littered c d) (hinv : c.Inv v) {e : Error}
    (herr : d.tryFlushIfDirty v fault = (.error e, d')) :
    (Littered c d' ∧ ¬ d.TailFails v fault) ∨
      (d.TailFails v fault ∧ d.flushOpenBlock v = .ok d') := by
  unfold Dict.tryFlushIfDirty at herr
  by_cases hnil : d.openEntries = []
  · rw [if_pos hnil] at herr
    cases (Prod.mk.inj herr).1
  · rw [if_neg hnil] at herr
    rcases tryFlushOpenBlock_cases v fault d with
      ⟨d₁, htry, -⟩ | ⟨e', left, htry, htorn, hkept⟩ | ⟨e', d₁, htry, hflush, hfails⟩
    · rw [htry] at herr
      cases (Prod.mk.inj herr).1
    · rw [htry] at herr
      rw [← (Prod.mk.inj herr).2]
      exact Or.inl ⟨h.torn hinv htorn, hkept⟩
    · rw [htry] at herr
      rw [← (Prod.mk.inj herr).2]
      exact Or.inr ⟨hfails, hflush⟩

end Dict

/-! ## Bodies encoded over failures -/

/-- Littered, where there is a dictionary. -/
def LitteredIn : Option Dict → Option Dict → Prop
  | none, none => True
  | some c, some d => c.Littered d
  | _, _ => False

section

variable {clean dict : Option Dict} {faults : List (Option DictFault)}

theorem LitteredIn.refl (dict : Option Dict) : LitteredIn dict dict := by
  cases dict with
  | none => trivial
  | some d => exact Dict.Littered.refl d

theorem LitteredIn.resolveIn (h : LitteredIn clean dict) (code : UInt8) (id : Nat) :
    resolveIn dict code id = resolveIn clean code id := by
  cases clean with
  | none =>
    cases dict with
    | none => rfl
    | some d => exact (h : False).elim
  | some c =>
    cases dict with
    | none => exact (h : False).elim
    | some d => exact Dict.Littered.resolve h code id

/-- The string of an item has room where it ends up. -/
def TryFitsItem (v : Vendor) (fault : Option DictFault) (dict : Option Dict)
    (item : UInt16 × Value) : Prop :=
  ∀ text d, item.2 = .str text → dict = some d → d.TryFits v fault text

/-- Every string of the items has room when its turn comes. -/
def TryFitsItems (v : Vendor) : List (Option DictFault) → Option Dict → List (UInt16 × Value) → Prop
  | _, _, [] => True
  | faults, dict, item :: items =>
    TryFitsItem v (faults.headD none) dict item ∧
      TryFitsItems v faults.tail (tryEncodeItem v (faults.headD none) dict item).2 items

instance TryFitsItem.decidable (v : Vendor) (fault : Option DictFault) (dict : Option Dict)
    (item : UInt16 × Value) : Decidable (TryFitsItem v fault dict item) :=
  match item, dict with
  | (_, .str text), some d =>
    decidable_of_iff (d.TryFits v fault text)
      ⟨fun h _ _ htext hdict => Value.str.inj htext ▸ Option.some.inj hdict ▸ h,
        fun h => h text d rfl rfl⟩
  | (_, .str _), none => .isTrue (fun _ _ _ hdict => by cases hdict)
  | (_, .u64 _), _ => .isTrue (fun _ _ htext => by cases htext)
  | (_, .i64 _), _ => .isTrue (fun _ _ htext => by cases htext)
  | (_, .f64 _), _ => .isTrue (fun _ _ htext => by cases htext)
  | (_, .bytes _), _ => .isTrue (fun _ _ htext => by cases htext)

instance TryFitsItems.decidable (v : Vendor) : (faults : List (Option DictFault)) →
    (dict : Option Dict) → (items : List (UInt16 × Value)) →
    Decidable (TryFitsItems v faults dict items)
  | _, _, [] => .isTrue trivial
  | faults, dict, item :: items =>
    haveI := TryFitsItems.decidable v faults.tail
      (tryEncodeItem v (faults.headD none) dict item).2 items
    inferInstanceAs (Decidable (_ ∧ _))

/-- What an encoding over failures leaves: a dictionary with the codes of the old one, and
bytes that whoever knows its codes reads as what they stand for. -/
def Encodes (v : Vendor) (clean : Option Dict) (answer : Except Error Bytes × Option Dict)
    (means : Option Dict → Bytes → Prop) : Prop :=
  ∃ clean', InvIn v clean' ∧ GrowsIn v clean clean' ∧ LitteredIn clean' answer.2 ∧
    ∀ bytes, answer.1 = .ok bytes → bytes.length < 2 ^ 64 →
      ∀ reader, Knows clean' reader → means reader bytes

/-- The dictionary after settling a string, and what a code it answered means there. -/
theorem trySettleIn_codes (lawful : v.Lawful) {fault : Option DictFault} {text : String}
    (hinv : InvIn v clean) (hlit : LitteredIn clean dict)
    (fits : ∀ d, dict = some d → d.TryFits v fault text) :
    ∃ clean', InvIn v clean' ∧ GrowsIn v clean clean' ∧
      LitteredIn clean' (trySettleIn v fault dict text).2 ∧
      ∀ settled, (trySettleIn v fault dict text).1 = .ok settled →
        Codes (trySettleIn v fault dict text).2 text settled := by
  cases dict with
  | none =>
    refine ⟨clean, hinv, GrowsIn.refl v clean, hlit, ?_⟩
    intro settled heq code id hcoded
    rw [← Except.ok.inj heq] at hcoded
    cases hcoded
  | some d =>
    cases clean with
    | none => exact absurd hlit id
    | some c =>
      obtain ⟨c', hinv', hgrows, hlit', hcode⟩ := (hinv c rfl).trySettle lawful hlit (fits d rfl)
      refine ⟨some c', fun e he => by rwa [← Option.some.inj he], hgrows, hlit', ?_⟩
      intro settled heq code id hcoded
      rw [hcoded] at heq
      obtain ⟨w, hresolve, hw, hid⟩ := hcode code id heq
      rw [← hlit'.resolve] at hresolve
      exact ⟨_, w, rfl, hresolve, hw, hid⟩

/-- **One item**: what is written is read back by whoever knows the codes known by then. -/
theorem tryEncodeItem_reads (lawful : v.Lawful) {fault : Option DictFault} {item : UInt16 × Value}
    (hinv : InvIn v clean) (hlit : LitteredIn clean dict) (fits : TryFitsItem v fault dict item) :
    Encodes v clean (tryEncodeItem v fault dict item)
      fun reader chunk => Reads (getItem reader) chunk item := by
  obtain ⟨tag, value⟩ := item
  cases value with
  | str text =>
    obtain ⟨clean', hinv', hgrows, hlit', hcodes⟩ :=
      trySettleIn_codes lawful hinv hlit (fits text · rfl)
    unfold tryEncodeItem
    dsimp only
    cases hsettle : trySettleIn v fault dict text with
    | mk answer left =>
      rw [hsettle] at hlit' hcodes
      cases answer with
      | error e => exact ⟨clean', hinv', hgrows, hlit', fun chunk heq => by cases heq⟩
      | ok settled =>
        refine ⟨clean', hinv', hgrows, hlit', fun chunk hok hlen reader hreader => ?_⟩
        refine writeSettled_reads (hcodes settled rfl) hok hlen ?_
        intro code id r hr
        rw [hlit'.resolveIn] at hr
        exact hreader code id r hr
  | bytes _ | u64 _ | i64 _ | f64 _ =>
    -- the other values leave the dictionary alone
    refine ⟨clean, hinv, GrowsIn.refl v clean, hlit, fun chunk hok hlen reader _ => ?_⟩
    obtain rfl := Except.ok.inj hok
    exact (encodeItem_reads lawful (show InvIn v none from nofun) nofun rfl hlen).2.2 reader
      (knows_none reader)

/-- **A body**, item by item, each over its own failure. -/
theorem tryEncodeItems_reads (lawful : v.Lawful) {items : List (UInt16 × Value)}
    (hinv : InvIn v clean) (hlit : LitteredIn clean dict)
    (fits : TryFitsItems v faults dict items) :
    Encodes v clean (tryEncodeItems v faults dict items) fun reader bytes =>
      ∃ chunks : List (Bytes × (UInt16 × Value)), bytes = chunks.flatMap Prod.fst ∧
        items = chunks.map Prod.snd ∧ ∀ c ∈ chunks, Reads (getItem reader) c.1 c.2 := by
  induction items generalizing faults clean dict with
  | nil =>
    refine ⟨clean, hinv, GrowsIn.refl v clean, hlit, fun bytes hok _ reader _ => ?_⟩
    obtain rfl := Except.ok.inj hok
    exact ⟨[], rfl, rfl, by simp⟩
  | cons item items ih =>
    obtain ⟨clean₁, hinv₁, hgrows₁, hlit₁, hitem⟩ := tryEncodeItem_reads lawful hinv hlit fits.1
    obtain ⟨clean₂, hinv₂, hgrows₂, hlit₂, hrest⟩ := ih hinv₁ hlit₁ fits.2
    unfold tryEncodeItems
    cases hfirst : tryEncodeItem v (faults.headD none) dict item with
    | mk answer left =>
      rw [hfirst] at hlit₁ hitem hlit₂ hrest
      cases answer with
      | error e => exact ⟨clean₁, hinv₁, hgrows₁, hlit₁, fun bytes hok => by cases hok⟩
      | ok chunk =>
        dsimp only at hlit₂ hrest ⊢
        cases hmore : tryEncodeItems v faults.tail left items with
        | mk answer last =>
          rw [hmore] at hlit₂ hrest
          cases answer with
          | error e =>
            exact ⟨clean₂, hinv₂, hgrows₁.trans hgrows₂, hlit₂, fun bytes hok => by cases hok⟩
          | ok rest =>
            refine ⟨clean₂, hinv₂, hgrows₁.trans hgrows₂, hlit₂, fun bytes hok hlen reader hreader => ?_⟩
            obtain rfl := Except.ok.inj hok
            rw [List.length_append] at hlen
            obtain ⟨chunks, rfl, rfl, hchunks⟩ := hrest rest rfl (by omega) reader hreader
            have hread := hitem chunk rfl (by omega) reader (hgrows₂.knows.trans hreader)
            refine ⟨(chunk, item) :: chunks, rfl, rfl, fun c hc => ?_⟩
            rcases List.mem_cons.mp hc with rfl | hc
            · exact hread
            · exact hchunks c hc

/-- **An encoded body is decoded** by whoever knows the codes known once it was encoded. -/
theorem tryEncodeItems_decodes (lawful : v.Lawful) {items : List (UInt16 × Value)}
    (hinv : InvIn v clean) (hlit : LitteredIn clean dict)
    (fits : TryFitsItems v faults dict items) :
    Encodes v clean (tryEncodeItems v faults dict items) fun reader bytes =>
      Body.decodeWith bytes reader = some ⟨items⟩ := by
  obtain ⟨clean', hinv', hgrows, hlit', hreads⟩ := tryEncodeItems_reads lawful hinv hlit fits
  refine ⟨clean', hinv', hgrows, hlit', fun bytes hok hlen reader hreader => ?_⟩
  obtain ⟨chunks, rfl, hitems, hchunks⟩ := hreads bytes hok hlen reader hreader
  rw [decodeWith_chunks hchunks, ← hitems]

end

end Okm.Series
