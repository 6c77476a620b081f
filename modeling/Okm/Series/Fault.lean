import Okm.Series.DictFault
import Okm.Series.PartRun

/-!
# Writes that fail

`append` and `flush_block` once more, now with what a failed call leaves behind: a fault
says which of the steps to the outside fails, and how many bytes it wrote first. A call
without a fault is the call of `Part.lean` (`tryFlushBlock_ok`, `tryAppend_ok`).

`flush_block` moves the buffer out before the steps that may fail, and counts the block
at four different points behind them. `FlushKeeps` says when no failure strikes behind
that move: the call answers, or only the dictionary's write failed
(`tryFlushBlock_answers`). Otherwise it leaves an empty buffer that still counts its
records, or a dictionary that lost its `.tail` write (`tryFlushBlock_struck`).
-/

namespace Okm.Series

open Lib Model

/-- A failure inside `flush_block`: of the dictionary's own write, of zstd, or of a write
to one of the two files after so many bytes. -/
inductive FlushFault where
  | dict (fault : DictFault)
  | compress
  | seek
  | blockHeader (written : Nat)
  | payload (written : Nat)
  | sync
  | row (written : Nat)
  deriving DecidableEq

/-- The failures of one `append`: of the dictionary blocks its strings close, each item's
in its place, and of the flush of a full buffer. -/
structure AppendFault where
  dict : List (Option DictFault) := []
  flush : Option FlushFault := none

namespace FlushFault

/-- What of the block reached the data file when its write failed. -/
def torn (block : BlockHeader) (payload : Bytes) : FlushFault → Option Bytes
  | .seek => some []
  | .blockHeader written => some (block.encode.take written)
  | .payload written => some (block.encode ++ payload.take written)
  | .sync => some (block.encode ++ payload)
  | _ => none

/-- The dictionary's part of a failure. -/
def inDict : FlushFault → Option DictFault
  | .dict fault => some fault
  | _ => none

/-- The failure comes after the buffer is moved out. -/
def strikes (codec : Codec) : FlushFault → Bool
  | .dict _ => false
  | .compress => codec = .zstd
  | _ => true

end FlushFault

namespace PartWriter

/-! ## Calls that may fail -/

/-- The dictionary goes to disk first. -/
def tryDict (v : Vendor) (fault : Option FlushFault) (w : PartWriter) :
    Except Error Unit × PartWriter :=
  match w.dict with
  | none => (.ok (), w)
  | some d =>
    let (answer, left) := d.tryFlushIfDirty v (fault.bind FlushFault.inDict)
    (answer, { w with dict := some left })

/-- The header and the payload of the buffered block. -/
def tryPack (v : Vendor) (fault : Option FlushFault) (w : PartWriter) :
    Except Error (BlockHeader × Bytes) :=
  match fault, w.codec with
  | some .compress, .zstd => .error .codec
  | _, _ => w.packBlock v

/-- The index row of a block that is in the data file. -/
def tryRow (fault : Option FlushFault) (w : PartWriter) (block : BlockHeader) :
    Except Error Unit × PartWriter :=
  match IndexRow.fromHeader block w.fileOff, fault with
  | none, _ => (.error .overflow, { w with block := [] })
  | some row, some (.row written) =>
    (.error .io, { w with block := [], index := w.index ++ row.encode.take written })
  | some row, _ => (.ok (), { w with
      index := w.index ++ row.encode
      fileOff := w.fileOff + blockHeaderLen + block.lenC
      block := []
      blockRecords := 0
      blockFirstOffset := w.nextOffset })

/-- The writes of a packed block. The buffer is out already: `self` has none. -/
def tryWrite (fault : Option FlushFault) (w : PartWriter) (block : BlockHeader) (payload : Bytes) :
    Except Error Unit × PartWriter :=
  match fault.bind (FlushFault.torn block payload) with
  | some bytes => (.error .io, { w with block := [], file := writeAt w.file w.fileOff bytes })
  | none => (w.writeData block payload).tryRow fault block

/-- `flush_block`, with what it leaves. -/
def tryFlushBlock (v : Vendor) (fault : Option FlushFault) (w : PartWriter) :
    Except Error Unit × PartWriter :=
  if w.blockRecords = 0 then (.ok (), w)
  else
    match w.tryDict v fault with
    | (.error e, w) => (.error e, w)
    | (.ok (), w) =>
      match w.tryPack v fault with
      | .error e => (.error e, { w with block := [] })
      | .ok (block, payload) => w.tryWrite fault block payload

/-- The bytes of a record, and the dictionary behind them. -/
def tryEncode (v : Vendor) (faults : List (Option DictFault)) (w : PartWriter) (body : Body) :
    Except Error Bytes × Option Dict := tryEncodeItems v faults w.dict body.items

/-- One encoded record goes into the buffer. -/
def tryBuffer (w : PartWriter) (ts : Nat) (encoded : Bytes) (dict : Option Dict) :
    Except Error Unit × PartWriter :=
  match w.stamp ts with
  | .error e => (.error e, { w with dict := dict })
  | .ok (delta, header) =>
    let opened := { w with
      header := header
      dict := dict
      blockFirstTs := if w.block = [] then ts else w.blockFirstTs
      blockFirstOffset := if w.block = [] then w.nextOffset else w.blockFirstOffset }
    match putRecord delta encoded with
    | none => (.error .overflow, opened)
    | some chunk =>
      if 2 ^ 64 ≤ w.nextOffset + 1 ∨ 2 ^ 32 ≤ w.blockRecords + 1 then
        (.error .panic, { opened with block := w.block ++ chunk })
      else (.ok (), { opened with
        block := w.block ++ chunk
        nextOffset := w.nextOffset + 1
        blockRecords := w.blockRecords + 1
        lastTs := some ts })

/-- `append` up to its flush. -/
def tryRecord (v : Vendor) (faults : List (Option DictFault)) (w : PartWriter) (ts : Nat)
    (body : Body) : Except Error Unit × PartWriter :=
  match w.tryEncode v faults body with
  | (.error e, dict) => (.error e, { w with dict := dict })
  | (.ok encoded, dict) => w.tryBuffer ts encoded dict

/-- A full buffer is flushed. -/
def tryFlushFull (v : Vendor) (fault : Option FlushFault) (w : PartWriter) :
    Except Error Unit × PartWriter :=
  if w.blockBytes ≤ w.block.length then w.tryFlushBlock v fault else (.ok (), w)

/-- `append`, with what it leaves. -/
def tryAppend (v : Vendor) (fault : AppendFault) (w : PartWriter) (ts : Nat) (body : Body) :
    Except Error Nat × PartWriter :=
  match w.tryRecord v fault.dict ts body with
  | (.error e, left) => (.error e, left)
  | (.ok (), buffered) =>
    match buffered.tryFlushFull v fault.flush with
    | (.error e, left) => (.error e, left)
    | (.ok (), left) => (.ok w.nextOffset, left)

/-! ## Calls without a fault -/

variable {v : Vendor} {w w' : PartWriter}

theorem tryDict_ok {fault : Option FlushFault} (h : w.tryDict v fault = (.ok (), w')) :
    w.flushDict v = .ok w' := by
  unfold tryDict at h
  unfold flushDict
  cases hw : w.dict with
  | none =>
    rw [hw] at h
    rw [(Prod.mk.inj h).2]
  | some d =>
    rw [hw] at h
    obtain ⟨hanswer, rfl⟩ := Prod.mk.inj h
    dsimp only
    rw [Dict.tryFlushIfDirty_ok (Prod.ext hanswer rfl)]
    rfl

theorem tryPack_ok {fault : Option FlushFault} {block : BlockHeader} {payload : Bytes}
    (h : w.tryPack v fault = .ok (block, payload)) : w.packBlock v = .ok (block, payload) := by
  unfold tryPack at h
  split at h
  · cases h
  · exact h

theorem tryWrite_ok {fault : Option FlushFault} {block : BlockHeader} {payload : Bytes}
    (h : w.tryWrite fault block payload = (.ok (), w')) :
    (w.writeData block payload).writeIndex block = .ok w' := by
  unfold tryWrite at h
  split at h
  · cases (Prod.mk.inj h).1
  · unfold tryRow at h
    unfold writeIndex
    cases hrow : IndexRow.fromHeader block (w.writeData block payload).fileOff with
    | none =>
      rw [hrow] at h
      cases (Prod.mk.inj h).1
    | some row =>
      rw [hrow] at h
      dsimp only at h ⊢
      split at h
      · cases (Prod.mk.inj h).1
      · cases (Prod.mk.inj h).1
      · rw [← (Prod.mk.inj h).2]
        rename_i heq _ _
        rw [← Option.some.inj heq]

/-- **A flush that answers is the ordinary flush.** -/
theorem tryFlushBlock_ok {fault : Option FlushFault}
    (h : w.tryFlushBlock v fault = (.ok (), w')) : w.flushBlock v = .ok w' := by
  unfold tryFlushBlock at h
  unfold flushBlock
  by_cases hzero : w.blockRecords = 0
  · rw [if_pos hzero] at h ⊢
    rw [(Prod.mk.inj h).2]
  · rw [if_neg hzero] at h ⊢
    cases hd : w.tryDict v fault with
    | mk answer w₁ =>
      rw [hd] at h
      cases answer with
      | error e => cases (Prod.mk.inj h).1
      | ok u =>
        dsimp only at h
        refine bind_eq_ok.mpr ⟨w₁, tryDict_ok hd, ?_⟩
        cases hp : w₁.tryPack v fault with
        | error e =>
          rw [hp] at h
          cases (Prod.mk.inj h).1
        | ok packed =>
          obtain ⟨block, payload⟩ := packed
          rw [hp] at h
          exact bind_eq_ok.mpr ⟨_, tryPack_ok hp, tryWrite_ok h⟩

/-- A record that is buffered from its own encoding is buffered as ever. -/
theorem tryRecord_ok {ts : Nat} {body : Body} (h : w.tryRecord v [] ts body = (.ok (), w')) :
    w.buffer v ts body = .ok w' := by
  unfold tryRecord at h
  cases hencode : w.tryEncode v [] body with
  | mk answer dict =>
    rw [hencode] at h
    cases answer with
    | error e => cases (Prod.mk.inj h).1
    | ok encoded =>
      dsimp only at h
      unfold tryBuffer at h
      refine bind_eq_ok.mpr ⟨_, tryEncodeItems_ok hencode, ?_⟩
      cases hstamp : w.stamp ts with
      | error e =>
        rw [hstamp] at h
        cases (Prod.mk.inj h).1
      | ok stamped =>
        obtain ⟨delta, header⟩ := stamped
        rw [hstamp] at h
        refine bind_eq_ok.mpr ⟨_, rfl, ?_⟩
        dsimp only at h ⊢
        cases hrecord : putRecord delta encoded with
        | none =>
          rw [hrecord] at h
          cases (Prod.mk.inj h).1
        | some chunk =>
          rw [hrecord] at h
          dsimp only at h ⊢
          split at h
          · cases (Prod.mk.inj h).1
          · rename_i hcount
            rw [if_neg hcount, ← (Prod.mk.inj h).2]

/-- **An append that answers**, its record encoded without a failure, is the ordinary
append. -/
theorem tryAppend_ok {fault : Option FlushFault} {ts offset : Nat} {body : Body}
    (h : w.tryAppend v ⟨[], fault⟩ ts body = (.ok offset, w')) :
    w.append v ts body = .ok (offset, w') := by
  unfold tryAppend at h
  cases hrecord : w.tryRecord v [] ts body with
  | mk answer buffered =>
    rw [hrecord] at h
    cases answer with
    | error e => cases (Prod.mk.inj h).1
    | ok u =>
      dsimp only at h
      refine bind_eq_ok.mpr ⟨buffered, tryRecord_ok hrecord, ?_⟩
      cases hflush : buffered.tryFlushFull v fault with
      | mk answer left =>
        rw [hflush] at h
        cases answer with
        | error e => cases (Prod.mk.inj h).1
        | ok u =>
          obtain ⟨hoffset, rfl⟩ := Prod.mk.inj h
          refine bind_eq_ok.mpr ⟨left, ?_, ?_⟩
          · unfold tryFlushFull at hflush
            unfold flushFull
            split at hflush
            · rename_i hfull
              rw [if_pos hfull]
              exact tryFlushBlock_ok hflush
            · rename_i hfull
              rw [if_neg hfull, (Prod.mk.inj hflush).2]
          · rw [Except.ok.inj hoffset]

/-! ## Failures before the buffer is moved out -/

/-- The buffer can be packed and placed: zstd answers, and lengths and the file offset fit
their fields. -/
structure Packs (v : Vendor) (w : PartWriter) : Prop where
  compresses : w.codec = .zstd → v.compress w.level w.block ≠ none
  short : w.block.length < 2 ^ 32
  placed : w.fileOff < 2 ^ 32

instance (v : Vendor) (w : PartWriter) : Decidable (w.Packs v) :=
  decidable_of_iff ((w.codec = .zstd → v.compress w.level w.block ≠ none) ∧
      w.block.length < 2 ^ 32 ∧ w.fileOff < 2 ^ 32)
    ⟨fun h => ⟨h.1, h.2.1, h.2.2⟩, fun h => ⟨h.compresses, h.short, h.placed⟩⟩

/-- The dictionary's block is written and its `.tail` file is not. -/
def TailLost (v : Vendor) (fault : Option FlushFault) (w : PartWriter) : Prop :=
  ∃ d ∈ w.dict, d.TailFails v (fault.bind FlushFault.inDict)

/-- No failure strikes a flush behind the moved buffer: there is nothing to flush, the
dictionary's own write fails first, or nothing fails. -/
def FlushKeeps (v : Vendor) (fault : Option FlushFault) (w : PartWriter) : Prop :=
  w.blockRecords = 0 ∨ (¬ w.TailLost v fault ∧
    ((w.tryDict v fault).1.isOk = false ∨
      ((∀ f ∈ fault, f.strikes w.codec = false) ∧ w.Packs v)))

instance (v : Vendor) (fault : Option FlushFault) (w : PartWriter) :
    Decidable (w.TailLost v fault) := inferInstanceAs (Decidable (∃ d ∈ w.dict, _))

instance (v : Vendor) (fault : Option FlushFault) (w : PartWriter) :
    Decidable (FlushKeeps v fault w) :=
  inferInstanceAs (Decidable (_ ∨ (¬ w.TailLost v fault ∧ (_ ∨ (∀ f ∈ fault, _) ∧ w.Packs v))))

/-- Whatever the dictionary answers, it is all that changes. -/
theorem tryDict_left (fault : Option FlushFault) :
    ∃ dict, (w.tryDict v fault).2 = { w with dict := dict } := by
  unfold tryDict
  cases hw : w.dict with
  | none => exact ⟨w.dict, rfl⟩
  | some d => exact ⟨_, rfl⟩

/-- What is stored is never longer than the buffer. -/
theorem compressBlock_short {codec : Codec} {payload : Bytes}
    (h : w.compressBlock v = .ok (codec, payload)) : payload.length ≤ w.block.length := by
  unfold compressBlock at h
  split at h
  · rw [(Prod.mk.inj (Except.ok.inj h)).2]
  · split at h
    · cases h
    · split at h
      · rename_i hless
        rw [← (Prod.mk.inj (Except.ok.inj h)).2]
        exact Nat.le_of_lt hless
      · rw [(Prod.mk.inj (Except.ok.inj h)).2]

/-- A buffer is packed when zstd answers and its length fits. -/
theorem packBlock_iff : (∃ packed, w.packBlock v = .ok packed) ↔
    (w.codec = .zstd → v.compress w.level w.block ≠ none) ∧ w.block.length < 2 ^ 32 := by
  unfold packBlock
  constructor
  · intro h
    obtain ⟨packed, h⟩ := h
    obtain ⟨⟨codec, payload⟩, hstored, h⟩ := bind_eq_ok.mp h
    dsimp only at h
    split at h
    · cases h
    · rename_i hsmall
      simp only [not_or, Nat.not_le] at hsmall
      refine ⟨fun hcodec hnone => ?_, hsmall.2⟩
      unfold compressBlock at hstored
      rw [hcodec] at hstored
      dsimp only at hstored
      rw [hnone] at hstored
      cases hstored
  · intro h
    obtain ⟨hanswers, hshort⟩ := h
    obtain ⟨⟨codec, payload⟩, hstored⟩ : ∃ stored, w.compressBlock v = .ok stored := by
      unfold compressBlock
      cases hcodec : w.codec with
      | raw => exact ⟨_, rfl⟩
      | zstd =>
        dsimp only
        cases hc : v.compress w.level w.block with
        | none => exact absurd hc (hanswers hcodec)
        | some packed =>
          dsimp only
          split
          · exact ⟨_, rfl⟩
          · exact ⟨_, rfl⟩
    have hle := compressBlock_short hstored
    refine ⟨_, bind_eq_ok.mpr ⟨_, hstored, if_neg ?_⟩⟩
    omega

/-- Without a strike the steps behind the move are the ordinary ones. -/
theorem tryPack_eq {fault : Option FlushFault} (h : ∀ f ∈ fault, f.strikes w.codec = false) :
    w.tryPack v fault = w.packBlock v := by
  unfold tryPack
  split
  · rename_i hcodec
    have hstrike := h .compress rfl
    rw [hcodec] at hstrike
    cases hstrike
  · rfl

theorem tryWrite_answers {fault : Option FlushFault} {codec : Codec}
    (h : ∀ f ∈ fault, f.strikes codec = false) (hplaced : w.fileOff < 2 ^ 32)
    (block : BlockHeader) (payload : Bytes) :
    (w.tryWrite fault block payload).1 = .ok () := by
  have hrow : ∃ row, IndexRow.fromHeader block w.fileOff = some row := by
    unfold IndexRow.fromHeader
    rw [if_pos hplaced]
    exact ⟨_, rfl⟩
  obtain ⟨row, hrow⟩ := hrow
  have hrow' : IndexRow.fromHeader block (w.writeData block payload).fileOff = some row := hrow
  unfold tryWrite tryRow
  rw [hrow']
  cases fault with
  | none => rfl
  | some f =>
    have hf := h f rfl
    cases f with
    | dict _ => rfl
    | compress => rfl
    | _ => cases hf

/-- **A flush that is not struck answers**, unless the dictionary fails first. -/
theorem tryFlushBlock_answers {fault : Option FlushFault} (hkeeps : FlushKeeps v fault w) :
    (w.tryFlushBlock v fault).1 = .ok () ∨
      ¬ w.TailLost v fault ∧ ∃ e, w.tryDict v fault = (.error e, (w.tryFlushBlock v fault).2) := by
  unfold tryFlushBlock
  by_cases hzero : w.blockRecords = 0
  · rw [if_pos hzero]
    exact Or.inl rfl
  · rw [if_neg hzero]
    obtain ⟨dict, hleft⟩ := tryDict_left (v := v) (w := w) fault
    obtain ⟨htail, hkeeps⟩ := hkeeps.resolve_left hzero
    cases hd : w.tryDict v fault with
    | mk answer w₁ =>
      rw [hd] at hleft hkeeps
      obtain rfl : w₁ = { w with dict := dict } := hleft
      cases answer with
      | error e => exact Or.inr ⟨htail, e, rfl⟩
      | ok u =>
        rcases hkeeps with h | ⟨hunstruck, hpacks⟩
        · cases h
        · left
          obtain ⟨⟨block, payload⟩, hpacked⟩ :=
            packBlock_iff.mpr ⟨hpacks.compresses, hpacks.short⟩
          have hpack : { w with dict := dict }.tryPack v fault = .ok (block, payload) :=
            (tryPack_eq hunstruck).trans hpacked
          dsimp only
          rw [hpack]
          exact tryWrite_answers (w := { w with dict := dict }) hunstruck hpacks.placed block payload

/-- A row that is refused or torn leaves an empty buffer that still counts its records. -/
theorem tryRow_left (w : PartWriter) (fault : Option FlushFault) (block : BlockHeader) :
    ((w.tryRow fault block).2.block = [] ∧
      (w.tryRow fault block).2.blockRecords = w.blockRecords) ∨
    (w.fileOff < 2 ^ 32 ∧ ∀ written, fault ≠ some (.row written)) := by
  unfold tryRow
  cases hrow : IndexRow.fromHeader block w.fileOff with
  | none => exact Or.inl ⟨rfl, rfl⟩
  | some row =>
    have hplaced : w.fileOff < 2 ^ 32 := by
      unfold IndexRow.fromHeader at hrow
      split at hrow
      · rename_i hlt
        exact hlt
      · cases hrow
    split
    · cases ‹some row = none›
    · exact Or.inl ⟨rfl, rfl⟩
    · rename_i hnot
      exact Or.inr ⟨hplaced, fun written heq => hnot written heq⟩

/-- **A struck flush** leaves an empty buffer that still counts its records, or a
dictionary whose open block is in its file. -/
theorem tryFlushBlock_struck {fault : Option FlushFault} (hstruck : ¬ FlushKeeps v fault w) :
    (w.blockRecords ≠ 0 ∧ (w.tryFlushBlock v fault).2.block = [] ∧
      (w.tryFlushBlock v fault).2.blockRecords = w.blockRecords) ∨
    ∃ d d', w.dict = some d ∧ d.openEntries ≠ [] ∧ d.flushOpenBlock v = .ok d' ∧
      (w.tryFlushBlock v fault).2.dict = some d' := by
  obtain ⟨hsome, hlater⟩ := not_or.mp hstruck
  unfold tryFlushBlock
  rw [if_neg hsome]
  by_cases htail : w.TailLost v fault
  · -- the dictionary's block is written, and the call stops there
    right
    obtain ⟨d, hd, hfails⟩ := htail
    have hd : w.dict = some d := hd
    unfold tryDict
    rw [hd]
    dsimp only
    unfold Dict.tryFlushIfDirty
    rw [if_neg hfails.2.1]
    rcases Dict.tryFlushOpenBlock_cases v (fault.bind FlushFault.inDict) d with
      ⟨d', -, -, hkept⟩ | ⟨e, left, -, -, hkept⟩ | ⟨e, d', htry, hflush, -⟩
    · exact absurd hfails hkept
    · exact absurd hfails hkept
    · rw [htry]
      exact ⟨d, d', rfl, hfails.2.1, hflush, rfl⟩
  · left
    refine ⟨hsome, ?_⟩
    obtain ⟨hdict, hstruck⟩ := not_or.mp (fun h => hlater ⟨htail, h⟩)
    obtain ⟨dict, hleft⟩ := tryDict_left (v := v) (w := w) fault
    cases hd : w.tryDict v fault with
    | mk answer w₁ =>
      rw [hd] at hleft hdict
      obtain rfl : w₁ = { w with dict := dict } := hleft
      cases answer with
      | error e => exact absurd rfl hdict
      | ok u =>
        -- the dictionary is out, and the block is already taken from the buffer
        dsimp only
        cases hp : { w with dict := dict }.tryPack v fault with
        | error e => exact ⟨rfl, rfl⟩
        | ok packed =>
          -- packed, so the data write is next, then the directory row
          obtain ⟨block, payload⟩ := packed
          dsimp only
          unfold tryWrite
          cases ht : fault.bind (FlushFault.torn block payload) with
          | some bytes => exact ⟨rfl, rfl⟩
          | none =>
            rcases tryRow_left ({ w with dict := dict }.writeData block payload) fault block
              with hgone | ⟨hplaced, hrow⟩
            · exact hgone
            · -- nothing struck and the buffer packs: the flush was kept after all
              refine absurd ⟨fun f hf => ?_, ?_⟩ hstruck
              · obtain rfl : fault = some f := hf
                cases f with
                | dict _ => rfl
                | compress =>
                  cases hcodec : w.codec with
                  | raw => rfl
                  | zstd =>
                    have hrefused : { w with dict := dict }.tryPack v (some .compress)
                        = .error .codec := by
                      unfold tryPack
                      dsimp only
                      rw [hcodec]
                    rw [hrefused] at hp
                    cases hp
                | row written => exact absurd rfl (hrow written)
                | _ => cases ht
              · obtain ⟨hanswers, hshort⟩ := packBlock_iff.mp ⟨_, tryPack_ok hp⟩
                exact ⟨hanswers, hshort, hplaced⟩

end PartWriter

end Okm.Series
