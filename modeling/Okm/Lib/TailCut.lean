import Mathlib.Data.List.Basic

/-!
# Lists between a head and a tail

A list may be cut from both ends: a head it starts with, a tail of known length, and a
segment between them. Whether the segment starts with a probe can be told from the list
itself, by its first letters and one comparison of lengths (`carries_iff`); and whether it is
the probe likewise (`consumes_iff`).
-/

namespace Okm.Lib

variable {α : Type} {head probe k : List α} {w : Nat}

/-- What stands between the first `n` letters and the last `w`. -/
def between (n w : Nat) (k : List α) : List α := (k.drop n).take ((k.drop n).length - w)

theorem between_append (head segment tail : List α) :
    between head.length tail.length (head ++ (segment ++ tail)) = segment := by
  unfold between
  rw [List.drop_left, List.length_append, Nat.add_sub_cancel, List.take_left]

theorem between_head (head body : List α) :
    between head.length w (head ++ body) = body.take (body.length - w) := by
  unfold between
  rw [List.drop_left]

/-- The tail is cut from the end, so what is cut off in front of it does not matter. -/
theorem tail_drop {n : Nat} (h : n + w ≤ k.length) :
    (k.drop n).drop ((k.drop n).length - w) = k.drop (k.length - w) := by
  rw [List.drop_drop, List.length_drop]
  congr 1
  omega

/-- **A probe is carried by the segment exactly when a tail is left behind it.** -/
theorem carries_iff (hroom : head <+: k → head.length + w ≤ k.length) :
    head ++ probe <+: k ∧ (head ++ probe).length + w ≤ k.length ↔
      head <+: k ∧ probe <+: between head.length w k := by
  constructor
  · intro h
    obtain ⟨hcarries, hlen⟩ := h
    have hhead := (List.prefix_append _ probe).trans hcarries
    obtain ⟨body, rfl⟩ := hhead
    refine ⟨List.prefix_append _ _, ?_⟩
    simp only [List.length_append] at hlen
    rw [between_head, List.prefix_take_iff]
    exact ⟨(List.prefix_append_right_inj _).mp hcarries, by omega⟩
  · intro h
    obtain ⟨hhead, hprobe⟩ := h
    have hlen := hroom hhead
    obtain ⟨body, rfl⟩ := hhead
    rw [between_head, List.prefix_take_iff] at hprobe
    simp only [List.length_append] at hlen ⊢
    exact ⟨(List.prefix_append_right_inj _).mpr hprobe.1, by omega⟩

/-- Exactly a tail is left when the probe is the segment. -/
theorem consumes_iff (hroom : head <+: k → head.length + w ≤ k.length) :
    head ++ probe <+: k ∧ k.length = (head ++ probe).length + w ↔
      head <+: k ∧ between head.length w k = probe := by
  constructor
  · intro h
    obtain ⟨hcarries, hlen⟩ := h
    obtain ⟨hhead, hprobe⟩ := (carries_iff hroom).mp ⟨hcarries, by omega⟩
    refine ⟨hhead, (hprobe.eq_of_length ?_).symm⟩
    obtain ⟨body, rfl⟩ := hhead
    simp only [List.length_append] at hlen
    rw [between_head, List.length_take]
    omega
  · intro h
    obtain ⟨hhead, rfl⟩ := h
    obtain ⟨hcarries, -⟩ := (carries_iff hroom).mpr ⟨hhead, List.prefix_refl _⟩
    refine ⟨hcarries, ?_⟩
    have hlen := hroom hhead
    obtain ⟨body, rfl⟩ := hhead
    simp only [List.length_append] at hlen
    rw [between_head]
    simp only [List.length_append, List.length_take]
    omega

end Okm.Lib
