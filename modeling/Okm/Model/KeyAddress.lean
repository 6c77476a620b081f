import Okm.Model.Slot

/-!
# Addresses under a header

Who writes a slot into a key and who reads it back out. `write_slot` is the one writer; the
change log (`carried`) and the drainer (`split_slot`) each tell the width of a slot from its
first byte, in code of their own.

A slot is one byte up to `0x0F` and two bytes from `0x1000` on, so the first byte of a key
behind its header says which: `split_slot` is the inverse of `write_slot` (`splitSlot_iff`),
the log reads the same number and the same width, and no face reaches into another.
-/

namespace Okm.Model

open Lib

/-! ## Writing -/

/-- `FIXED_FACE_MAX`. -/
def fixedFaceMax : UInt16 := 0x0F

/-- `slot(family, counter)`, with its asserts. -/
def slotNumber (family counter : UInt16) : Except Panic UInt16 :=
  if ¬ family ≤ 0x000F then .error .expect
  else if ¬ counter ≤ 0x0FFF then .error .expect
  else .ok ((family <<< 12) ||| counter)

/-- `write_slot`. -/
def writeSlot (buf : Bytes) (s : UInt16) : Except Panic Bytes :=
  if s ≤ fixedFaceMax then .ok (buf ++ [s.toUInt8])
  else if s >>> 12 ≠ 0 then .ok (buf ++ beBytes 2 s.toNat)
  else .error .expect

/-- `slot_len`. -/
def slotLen (s : UInt16) : Nat := if s ≤ fixedFaceMax then 1 else 2

/-- `KvIndex::entry_key_with`: the segment and the key tail follow the slot. -/
def entryKeyWith (nsHeader : Bytes) (s : UInt16) (segment keyTail : Bytes) : Except Panic Bytes := do
  let buf ← writeSlot nsHeader s
  .ok (buf ++ segment ++ keyTail)

/-! ## Reading -/

/-- `strip_prefix`. -/
def stripHeader (header key : Bytes) : Option Bytes :=
  if header <+: key then some (key.drop header.length) else none

/-- The number two bytes spell. -/
def wordOf (first second : UInt8) : UInt16 := UInt16.ofNat (beNat [first, second])

/-- `split_slot`. -/
def splitSlot (header key : Bytes) : Option (UInt16 × Bytes) :=
  match stripHeader header key with
  | none => none
  | some [] => none
  | some (first :: rest) =>
    if first ≤ 0x0F then some (first.toUInt16, rest)
    else
      match rest with
      | [] => none
      | second :: rest => some (wordOf first second, rest)

/-- The slot and its width as `carried` reads them off the bytes behind the header. -/
def slotAndWidth (rest : Bytes) : Option (UInt16 × Nat) :=
  match rest with
  | [] => none
  | first :: _ =>
    if first ≤ fixedFaceMax.toUInt8 then some (first.toUInt16, 1)
    else
      match rest.drop 1 with
      | [] => none
      | second :: _ => some (wordOf first second, 2)

/-- The faces that hold what was written, not what follows from it. -/
def truthFace (s : UInt16) : Bool :=
  if s ≤ fixedFaceMax then
    s == 0x00 || s == 0x01 || s == 0x02 || s == 0x03 || s == 0x04 || s == 0x05
  else s >>> 12 == 0x1 || s >>> 12 == 0x2

/-- `carried`: the entries the change log takes. A bare face is no row. -/
def carriedByLog (header key : Bytes) : Bool :=
  match stripHeader header key with
  | none => false
  | some rest =>
    match slotAndWidth rest with
    | none => false
    | some (s, width) => if rest.length = width then false else truthFace s

/-! ## Words and slots -/

namespace Slot

/-- The number of a slot as the code passes it. -/
def word (s : Slot) : UInt16 := UInt16.ofNat s.val

theorem val_lt (s : Slot) : s.val < 2 ^ 16 := by
  rcases s.wf with hfixed | ⟨-, hmax⟩
  · omega
  · omega

@[simp] theorem toNat_word (s : Slot) : s.word.toNat = s.val := by
  rw [word, UInt16.toNat_ofNat', Nat.mod_eq_of_lt s.val_lt]

theorem word_injective {s t : Slot} (h : s.word = t.word) : s = t := by
  have hval := congrArg UInt16.toNat h
  rw [toNat_word, toNat_word] at hval
  obtain ⟨m, hm⟩ := s
  obtain ⟨n, hn⟩ := t
  subst hval
  rfl

theorem word_le_iff (s : Slot) : s.word ≤ fixedFaceMax ↔ s.val ≤ 0x0F := by
  rw [UInt16.le_iff_toNat_le, toNat_word]
  rfl

theorem length_bytes (s : Slot) : s.bytes.length = slotLen s.word := by
  unfold bytes slotLen
  by_cases hfixed : s.val ≤ 0x0F
  · rw [if_pos hfixed, if_pos (s.word_le_iff.mpr hfixed)]
    rfl
  · rw [if_neg hfixed, if_neg (mt s.word_le_iff.mp hfixed), length_beBytes]

/-- The first byte of a slot tells its width. -/
theorem bytes_cases (s : Slot) :
    (∃ first, s.bytes = [first] ∧ first ≤ 0x0F ∧ first.toUInt16 = s.word) ∨
    ∃ first second, s.bytes = [first, second] ∧ ¬ first ≤ 0x0F ∧ wordOf first second = s.word := by
  unfold bytes
  rcases s.wf with hfixed | ⟨hmin, hmax⟩
  · left
    refine ⟨UInt8.ofNat s.val, if_pos hfixed, ?_, ?_⟩
    · rw [UInt8.le_iff_toNat_le, UInt8.toNat_ofNat']
      change s.val % 2 ^ 8 ≤ 15
      omega
    · rw [← UInt16.toNat_inj, UInt8.toNat_toUInt16, UInt8.toNat_ofNat', toNat_word]
      omega
  · right
    have hbe : beBytes 2 s.val = [UInt8.ofNat (s.val / 256), UInt8.ofNat s.val] := beBytes_two _
    refine ⟨UInt8.ofNat (s.val / 256), UInt8.ofNat s.val, ?_, ?_, ?_⟩
    · rw [if_neg (by omega), hbe]
    · rw [UInt8.le_iff_toNat_le, UInt8.toNat_ofNat']
      change ¬ s.val / 256 % 2 ^ 8 ≤ 15
      omega
    · rw [wordOf, ← hbe, beNat_beBytes (by omega), word]

end Slot

/-- The number a slot may have, as `write_slot` asserts it. -/
theorem word_wf (w : UInt16) :
    (w ≤ fixedFaceMax ∨ w >>> 12 ≠ 0) ↔ w.toNat ≤ 0x0F ∨ 0x1000 ≤ w.toNat ∧ w.toNat ≤ 0xFFFF := by
  have hlt : w.toNat < 2 ^ 16 := w.toNat_lt
  have hfixed : w ≤ fixedFaceMax ↔ w.toNat ≤ 0x0F := UInt16.le_iff_toNat_le
  have hshift : w >>> 12 = 0 ↔ w.toNat / 2 ^ 12 = 0 := by
    rw [← UInt16.toNat_inj, UInt16.toNat_shiftRight]
    change w.toNat >>> 12 = 0 ↔ _
    rw [Nat.shiftRight_eq_div_pow]
  rw [hfixed, ne_eq, hshift]
  omega

/-- **A declared slot keeps its two halves apart**: the family fills the high nibble and the
counter the rest. -/
theorem slotNumber_eq_ok {family counter w : UInt16} :
    slotNumber family counter = .ok w ↔
      (family.toNat ≤ 0xF ∧ counter.toNat ≤ 0xFFF)
        ∧ w.toNat = family.toNat * 0x1000 + counter.toNat := by
  have hfamily : family ≤ 0x000F ↔ family.toNat ≤ 0xF := UInt16.le_iff_toNat_le
  have hcounter : counter ≤ 0x0FFF ↔ counter.toNat ≤ 0xFFF := UInt16.le_iff_toNat_le
  have hword : family.toNat ≤ 0xF → counter.toNat ≤ 0xFFF →
      ((family <<< 12) ||| counter).toNat = family.toNat * 0x1000 + counter.toNat := by
    intro hf hc
    have hlt : counter.toNat < 2 ^ 12 := by omega
    have hor := Nat.shiftLeft_add_eq_or_of_lt hlt family.toNat
    rw [UInt16.toNat_or, UInt16.toNat_shiftLeft]
    change family.toNat <<< 12 % 2 ^ 16 ||| counter.toNat = _
    rw [Nat.shiftLeft_eq, Nat.mod_eq_of_lt (by omega), ← Nat.shiftLeft_eq, ← hor, Nat.shiftLeft_eq]
  unfold slotNumber
  rw [← hfamily, ← hcounter]
  by_cases hf : family ≤ 0x000F
  · by_cases hc : counter ≤ 0x0FFF
    · rw [if_neg (not_not_intro hf), if_neg (not_not_intro hc),
        ← hword (hfamily.mp hf) (hcounter.mp hc)]
      constructor
      · intro h
        rw [Except.ok.inj h]
        exact ⟨⟨hf, hc⟩, rfl⟩
      · exact fun h => congrArg Except.ok (UInt16.toNat_inj.mp h.2.symm)
    · rw [if_neg (not_not_intro hf), if_pos hc]
      exact iff_of_false (fun h => by cases h) fun h => hc h.1.2
  · rw [if_pos hf]
    exact iff_of_false (fun h => by cases h) fun h => hf h.1.1

/-- A slot of a counting family is one `write_slot` lets through, and names its declaration. -/
theorem slotNumber_inj {family counter family' counter' w : UInt16} (hpos : 1 ≤ family.toNat)
    (h : slotNumber family counter = .ok w) (h' : slotNumber family' counter' = .ok w) :
    (∃ s : Slot, s.word = w ∧ slotLen w = 2) ∧ family = family' ∧ counter = counter' := by
  obtain ⟨⟨hf, hc⟩, hw⟩ := slotNumber_eq_ok.mp h
  obtain ⟨⟨hf', hc'⟩, hw'⟩ := slotNumber_eq_ok.mp h'
  refine ⟨⟨⟨w.toNat, by omega⟩, UInt16.ofNat_toNat, ?_⟩, ?_, ?_⟩
  · have hwide : ¬ w ≤ fixedFaceMax := by
      rw [UInt16.le_iff_toNat_le]
      change ¬ w.toNat ≤ 15
      omega
    rw [slotLen, if_neg hwide]
  · rw [← UInt16.toNat_inj]
    omega
  · rw [← UInt16.toNat_inj]
    omega

/-- **What `write_slot` lets through is a slot**, and it writes its bytes. -/
theorem writeSlot_eq_ok {buf out : Bytes} {w : UInt16} :
    writeSlot buf w = .ok out ↔ ∃ s : Slot, s.word = w ∧ out = buf ++ s.bytes := by
  have hbytes : ∀ s : Slot, writeSlot buf s.word = .ok (buf ++ s.bytes) := by
    intro s
    unfold writeSlot Slot.bytes
    by_cases hfixed : s.val ≤ 0x0F
    · have hbyte : s.word.toUInt8 = UInt8.ofNat s.val := by
        rw [← UInt8.toNat_inj, UInt16.toNat_toUInt8, Slot.toNat_word, UInt8.toNat_ofNat']
      rw [if_pos (s.word_le_iff.mpr hfixed), if_pos hfixed, hbyte]
    · have hwf := (word_wf s.word).mpr (by
        rw [Slot.toNat_word]
        exact s.wf)
      have hnot := mt s.word_le_iff.mp hfixed
      rw [if_neg hnot, if_neg hfixed, if_pos (hwf.resolve_left hnot), Slot.toNat_word]
  constructor
  · intro h
    have hwf : w ≤ fixedFaceMax ∨ w >>> 12 ≠ 0 := by
      by_contra hno
      obtain ⟨hnot, hzero⟩ := not_or.mp hno
      rw [writeSlot, if_neg hnot, if_neg hzero] at h
      cases h
    have hword : UInt16.ofNat w.toNat = w := UInt16.ofNat_toNat
    refine ⟨⟨w.toNat, (word_wf w).mp hwf⟩, hword, ?_⟩
    have hwritten := hbytes ⟨w.toNat, (word_wf w).mp hwf⟩
    rw [Slot.word, hword, h] at hwritten
    exact Except.ok.inj hwritten
  · intro h
    obtain ⟨s, rfl, rfl⟩ := h
    exact hbytes s

/-- Two bytes past the fixed faces are a slot. -/
theorem exists_slot {first : UInt8} (h : ¬ first ≤ 0x0F) (second : UInt8) :
    ∃ s : Slot, s.word = wordOf first second ∧ s.bytes = [first, second] := by
  have hfirst : 15 < first.toNat := by
    rw [UInt8.le_iff_toNat_le] at h
    change ¬ first.toNat ≤ 15 at h
    omega
  have hnat : beNat [first, second] = first.toNat * 256 + second.toNat := by
    rw [beNat_cons, beNat_cons, beNat_nil]
    simp
  have hlt1 := first.toNat_lt
  have hlt2 := second.toNat_lt
  have hback : beBytes 2 (beNat [first, second]) = [first, second] := beBytes_beNat [first, second]
  have hwide : ¬ beNat [first, second] ≤ 0x0F := by omega
  exact ⟨⟨beNat [first, second], by omega⟩, rfl, (if_neg hwide).trans hback⟩

/-! ## Reading back -/

theorem stripHeader_append (header rest : Bytes) : stripHeader header (header ++ rest) = some rest := by
  rw [stripHeader, if_pos (List.prefix_append header rest), List.drop_left]

theorem stripHeader_eq_some {header key rest : Bytes} :
    stripHeader header key = some rest ↔ key = header ++ rest := by
  constructor
  · intro h
    unfold stripHeader at h
    split at h
    · rename_i hpre
      obtain ⟨more, rfl⟩ := hpre
      rw [List.drop_left] at h
      rw [Option.some.inj h]
    · cases h
  · intro h
    rw [h, stripHeader_append]

/-- **The drainer's reader is the inverse of `write_slot`**: it reads a slot and its suffix
exactly out of the key that was built from them. -/
theorem splitSlot_iff {header key rest : Bytes} {w : UInt16} :
    splitSlot header key = some (w, rest) ↔ ∃ s : Slot, s.word = w ∧ key = faceKey header s rest := by
  unfold splitSlot
  constructor
  · intro h
    split at h
    · cases h
    · cases h
    · rename_i first tail hstrip
      obtain rfl := stripHeader_eq_some.mp hstrip
      by_cases hfixed : first ≤ 0x0F
      · rw [if_pos hfixed] at h
        obtain ⟨rfl, rfl⟩ := Prod.mk.inj (Option.some.inj h)
        have hval : first.toNat ≤ 15 := UInt8.le_iff_toNat_le.mp hfixed
        refine ⟨⟨first.toNat, Or.inl hval⟩, ?_, ?_⟩
        · rw [← UInt16.toNat_inj, Slot.toNat_word, UInt8.toNat_toUInt16]
        · rw [faceKey, Slot.bytes, if_pos hval, UInt8.ofNat_toNat, List.append_assoc]
          rfl
      · rw [if_neg hfixed] at h
        cases tail with
        | nil => cases h
        | cons second tail =>
          obtain ⟨rfl, rfl⟩ := Prod.mk.inj (Option.some.inj h)
          obtain ⟨s, hword, hbytes⟩ := exists_slot hfixed second
          exact ⟨s, hword, by rw [faceKey, hbytes, List.append_assoc]; rfl⟩
  · intro h
    obtain ⟨s, rfl, rfl⟩ := h
    rw [faceKey, List.append_assoc, stripHeader_append]
    rcases s.bytes_cases with ⟨first, hbytes, hfixed, hword⟩ | ⟨first, second, hbytes, hwide, hword⟩
    · rw [hbytes, ← hword]
      exact if_pos hfixed
    · rw [hbytes, ← hword]
      exact if_neg hwide

/-- **The change log reads the same slot**, with the width `write_slot` gave it. -/
theorem slotAndWidth_eq (s : Slot) (suffix : Bytes) :
    slotAndWidth (s.bytes ++ suffix) = some (s.word, s.bytes.length) := by
  rcases s.bytes_cases with ⟨first, hbytes, hfixed, hword⟩ | ⟨first, second, hbytes, hwide, hword⟩
  · rw [hbytes, ← hword]
    exact if_pos hfixed
  · rw [hbytes, ← hword]
    exact if_neg hwide

/-- The bytes behind a header on which the log answers start with a slot. -/
theorem slotAndWidth_eq_some {rest : Bytes} {w : UInt16} {width : Nat}
    (h : slotAndWidth rest = some (w, width)) :
    ∃ s : Slot, s.word = w ∧ width = s.bytes.length ∧ rest = s.bytes ++ rest.drop width := by
  cases rest with
  | nil => cases h
  | cons first tail =>
    have hmax : fixedFaceMax.toUInt8 = 0x0F := rfl
    unfold slotAndWidth at h
    dsimp only at h
    rw [hmax] at h
    by_cases hfixed : first ≤ 0x0F
    · rw [if_pos hfixed] at h
      obtain ⟨rfl, rfl⟩ := Prod.mk.inj (Option.some.inj h)
      have hval : first.toNat ≤ 15 := UInt8.le_iff_toNat_le.mp hfixed
      have hbytes : Slot.bytes ⟨first.toNat, Or.inl hval⟩ = [first] := by
        rw [Slot.bytes, if_pos hval, UInt8.ofNat_toNat]
      refine ⟨⟨first.toNat, Or.inl hval⟩, ?_, ?_, ?_⟩
      · rw [← UInt16.toNat_inj, Slot.toNat_word, UInt8.toNat_toUInt16]
      · rw [hbytes]
        rfl
      · rw [hbytes]
        rfl
    · rw [if_neg hfixed] at h
      cases tail with
      | nil => cases h
      | cons second tail =>
        obtain ⟨rfl, rfl⟩ := Prod.mk.inj (Option.some.inj h)
        obtain ⟨s, hword, hbytes⟩ := exists_slot hfixed second
        exact ⟨s, hword, by rw [hbytes]; rfl, by rw [hbytes]; rfl⟩

/-- **The log takes exactly the rows of the truth faces**: the slot of the key is one, and
something follows it. -/
theorem carried_iff {header key : Bytes} :
    carriedByLog header key = true ↔
      ∃ (s : Slot) (suffix : Bytes), key = faceKey header s suffix ∧ suffix ≠ []
        ∧ truthFace s.word = true := by
  unfold carriedByLog
  constructor
  · intro h
    cases hstrip : stripHeader header key with
    | none =>
      rw [hstrip] at h
      cases h
    | some rest =>
      rw [hstrip] at h
      dsimp only at h
      cases hslot : slotAndWidth rest with
      | none =>
        rw [hslot] at h
        cases h
      | some answer =>
        obtain ⟨w, width⟩ := answer
        obtain ⟨s, rfl, rfl, hrest⟩ := slotAndWidth_eq_some hslot
        rw [hslot] at h
        dsimp only at h
        split at h
        · cases h
        · rename_i hmore
          refine ⟨s, rest.drop s.bytes.length, ?_, ?_, h⟩
          · rw [stripHeader_eq_some.mp hstrip, faceKey, List.append_assoc, ← hrest]
          · intro hnil
            rw [hnil, List.append_nil] at hrest
            exact hmore (congrArg List.length hrest)
  · intro h
    obtain ⟨s, suffix, rfl, hmore, htruth⟩ := h
    have hlen : ¬ (s.bytes ++ suffix).length = s.bytes.length := by
      have hpos := List.length_pos_iff.mpr hmore
      rw [List.length_append]
      omega
    rw [faceKey, List.append_assoc, stripHeader_append]
    dsimp only
    rw [slotAndWidth_eq]
    dsimp only
    rw [if_neg hlen, htruth]

/-! ## Addresses -/

/-- **The contract of an address** of one face beside another under a header. -/
structure Addressed (header : Bytes) (s t : Slot) (a b : Bytes) : Prop where
  /-- Both are written, each in its own width. -/
  written : writeSlot header s.word = .ok (faceKey header s []) ∧
    s.bytes.length = slotLen s.word
  /-- An index entry is an address of its slot. -/
  entry : ∀ front back, a = front ++ back →
    entryKeyWith header s.word front back = .ok (faceKey header s a)
  /-- Two addresses are one only where face and suffix are. -/
  apart : faceKey header s a = faceKey header t b ↔ s = t ∧ a = b
  /-- No face reaches into another. -/
  disjoint : faceKey header s [] <+: faceKey header t b ↔ s = t
  /-- The drainer splits the address, and splits nothing else so. -/
  split : ∀ key, splitSlot header key = some (s.word, a) ↔ key = faceKey header s a
  /-- The log reads the slot and where the suffix begins. -/
  read : slotAndWidth (s.bytes ++ a) = some (s.word, s.bytes.length)
    ∧ (s.bytes ++ a).drop s.bytes.length = a
  /-- The log takes the address of a truth face that is not bare. -/
  taken : carriedByLog header (faceKey header s a) = true ↔ a ≠ [] ∧ truthFace s.word = true

/-- **Addresses never collide**, and both readers recover what was written. -/
theorem addresses_recovered (header : Bytes) (s t : Slot) (a b : Bytes) :
    Addressed header s t a b where
  written := ⟨writeSlot_eq_ok.mpr ⟨s, rfl, List.append_nil _⟩, s.length_bytes⟩
  entry := by
    intro front back h
    have hwrite : writeSlot header s.word = .ok (header ++ s.bytes) :=
      writeSlot_eq_ok.mpr ⟨s, rfl, rfl⟩
    rw [entryKeyWith, hwrite, h, faceKey, ← List.append_assoc]
    rfl
  apart := faceKey_inj header s t a b
  disjoint := by
    constructor
    · intro h
      obtain ⟨more, hmore⟩ := h
      have hface : faceKey header s more = faceKey header t b := by
        rw [← hmore, faceKey, faceKey, List.append_nil]
      exact ((faceKey_inj header s t more b).mp hface).1
    · intro h
      rw [h, faceKey, faceKey, List.append_nil]
      exact List.prefix_append _ _
  split := by
    intro key
    rw [splitSlot_iff]
    constructor
    · intro h
      obtain ⟨s', hword, hkey⟩ := h
      rw [hkey, Slot.word_injective hword]
    · exact fun h => ⟨s, rfl, h⟩
  read := ⟨slotAndWidth_eq s a, List.drop_left⟩
  taken := by
    rw [carried_iff]
    constructor
    · intro h
      obtain ⟨s', suffix, hkey, hmore, htruth⟩ := h
      obtain ⟨rfl, rfl⟩ := (faceKey_inj header s s' a suffix).mp hkey
      exact ⟨hmore, htruth⟩
    · exact fun h => ⟨s, a, rfl, h⟩

end Okm.Model
