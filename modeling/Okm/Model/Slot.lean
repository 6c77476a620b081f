import Okm.Engine.ScanBounds

/-!
# Faces and slots

Every entry of a table lives under `[header][slot]`: a fixed face spends one
byte, a counting family (`0x1`..`0x5` in the high nibble) two. `write_slot`
asserts that nothing lies in between; here a `Slot` carries that proof. The two
widths cannot be confused, because a counting slot starts above every fixed one,
so keys of two faces never meet (`faceKey_inj`).
-/

namespace Okm.Model

open Lib

/-- A face number: a fixed face, or a counting-family member. -/
structure Slot where
  val : Nat
  wf : val ≤ 0x0F ∨ (0x1000 ≤ val ∧ val ≤ 0xFFFF)
  deriving DecidableEq

namespace Segment

/-- The counting families. -/
def vocabLabel : Nat := 0x1
def vocabId : Nat := 0x2
def index : Nat := 0x3
def reduce : Nat := 0x4
def lead : Nat := 0x5

end Segment

/-- `slot(family, counter)`, where its two asserts hold. -/
def slot (family counter : Nat) (h : 1 ≤ family ∧ family ≤ 0xF ∧ counter ≤ 0xFFF) : Slot :=
  ⟨family * 0x1000 + counter, by omega⟩

theorem firstIndex_bounds : 1 ≤ Segment.index ∧ Segment.index ≤ 0xF ∧ 1 ≤ 0xFFF := by decide

def primarySlot : Slot := ⟨0x00, by decide⟩
def dynamicSlot : Slot := ⟨0x01, by decide⟩
def fieldVocabIdSlot : Slot := ⟨0x02, by decide⟩
def fieldVocabNameSlot : Slot := ⟨0x03, by decide⟩
def predicateVocabIdSlot : Slot := ⟨0x04, by decide⟩
def predicateVocabNameSlot : Slot := ⟨0x05, by decide⟩
def metaSlot : Slot := ⟨0x0F, by decide⟩

/-- `write_slot`: the bytes a slot spends in a key. -/
def Slot.bytes (s : Slot) : Bytes :=
  if s.val ≤ 0x0F then [UInt8.ofNat s.val] else beBytes 2 s.val

/-- A key under a face: header, slot, whatever the face appends. -/
def faceKey (header : Bytes) (s : Slot) (suffix : Bytes) : Bytes := header ++ s.bytes ++ suffix

theorem beBytes_two (n : Nat) : beBytes 2 n = [UInt8.ofNat (n / 256), UInt8.ofNat n] := rfl

theorem ofNat_inj_of_lt {a b : Nat} (ha : a < 256) (hb : b < 256)
    (h : UInt8.ofNat a = UInt8.ofNat b) : a = b := by
  have h' := congrArg UInt8.toNat h
  rw [UInt8.toNat_ofNat', UInt8.toNat_ofNat'] at h'
  omega

/-- The bytes of a slot say where they end: no slot is a prefix of another. -/
theorem slot_bytes_append {s t : Slot} {a b : Bytes} (h : s.bytes ++ a = t.bytes ++ b) :
    s = t ∧ a = b := by
  obtain ⟨m, hm⟩ := s
  obtain ⟨n, hn⟩ := t
  unfold Slot.bytes at h
  simp only at h
  by_cases hm' : m ≤ 0x0F
  · by_cases hn' : n ≤ 0x0F
    · rw [if_pos hm', if_pos hn'] at h
      obtain ⟨hb, hab⟩ := List.cons_eq_cons.mp h
      have hmn := ofNat_inj_of_lt (by omega) (by omega) hb
      subst hmn
      exact ⟨rfl, by simpa using hab⟩
    · rw [if_pos hm', if_neg hn', beBytes_two] at h
      have hb := ofNat_inj_of_lt (by omega) (by omega) (List.cons_eq_cons.mp h).1
      omega
  · by_cases hn' : n ≤ 0x0F
    · rw [if_neg hm', if_pos hn', beBytes_two] at h
      have hb := ofNat_inj_of_lt (by omega) (by omega) (List.cons_eq_cons.mp h).1
      omega
    · rw [if_neg hm', if_neg hn'] at h
      have hlen : (beBytes 2 m).length = (beBytes 2 n).length := by simp
      obtain ⟨hb, hab⟩ := List.append_inj h hlen
      have hmn := beBytes_injective (w := 2) (by omega) (by omega) hb
      subst hmn
      exact ⟨rfl, hab⟩

/-- **Keys of two faces never meet.** -/
theorem faceKey_inj (header : Bytes) (s t : Slot) (a b : Bytes) :
    faceKey header s a = faceKey header t b ↔ s = t ∧ a = b := by
  refine ⟨fun h => ?_, fun h => by rw [h.1, h.2]⟩
  unfold faceKey at h
  rw [List.append_assoc, List.append_assoc] at h
  exact slot_bytes_append (List.append_cancel_left h)

theorem faceKey_ne_of_slot {header : Bytes} {s t : Slot} (h : s ≠ t) (a b : Bytes) :
    faceKey header s a ≠ faceKey header t b :=
  fun heq => h ((faceKey_inj header s t a b).mp heq).1

theorem faceKey_ne_of_suffix {header : Bytes} {s : Slot} {a b : Bytes} (h : a ≠ b) :
    faceKey header s a ≠ faceKey header s b :=
  fun heq => h ((faceKey_inj header s s a b).mp heq).2

/-! ## Text in keys and values -/

/-- The UTF-8 bytes of a string. -/
def strBytes (s : String) : Bytes := s.toUTF8.data.toList

/-- `String::from_utf8`. -/
def strOfBytes (b : Bytes) : Option String := String.fromUTF8? ⟨b.toArray⟩

theorem strBytes_injective {s t : String} (h : strBytes s = strBytes t) : s = t :=
  String.toByteArray_inj.mp (ByteArray.ext (Array.toList_inj.mp h))

@[simp] theorem strOfBytes_strBytes (s : String) : strOfBytes (strBytes s) = some s := by
  unfold strOfBytes strBytes String.fromUTF8?
  have hvalid : (⟨s.toUTF8.data.toList.toArray⟩ : ByteArray).IsValidUTF8 := s.isValidUTF8
  rw [dif_pos hvalid]
  exact congrArg some (String.toByteArray_inj.mp rfl)

/-- Text is read from its own bytes alone. -/
theorem strBytes_of_strOfBytes {b : Bytes} {s : String} (h : strOfBytes b = some s) :
    strBytes s = b := by
  unfold strOfBytes String.fromUTF8? at h
  split at h
  · obtain rfl := Option.some.inj h
    rfl
  · cases h

end Okm.Model
