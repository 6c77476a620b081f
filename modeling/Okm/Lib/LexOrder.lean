import Mathlib.Data.List.Lex
import Mathlib.Data.UInt

/-!
# The byte order on keys

Ordered stores compare keys as byte strings: lexicographically, a proper prefix
first. Everything a prefix scan or a bounded scan relies on comes down to two
facts about that order, both proved here for lists over any linear order:

* a common prefix can be cancelled on both sides of a comparison;
* the keys carrying a prefix form an interval, so a key caught between two keys
  with the prefix carries it too.
-/

namespace Okm.Lib

/-- Bytes are ordered by value. -/
instance byteOrder : LinearOrder UInt8 where
  le_refl := UInt8.le_refl
  le_trans _ _ _ := UInt8.le_trans
  lt_iff_le_not_ge a b := by
    simp only [UInt8.lt_iff_toNat_lt, UInt8.le_iff_toNat_le]
    omega
  le_antisymm _ _ := UInt8.le_antisymm
  le_total := UInt8.le_total
  toDecidableLE := inferInstance
  toDecidableEq := inferInstance
  toDecidableLT := inferInstance

variable {α : Type} [LinearOrder α]

theorem nil_le (k : List α) : [] ≤ k := by
  cases k with
  | nil => exact le_refl _
  | cons a k => exact le_of_lt List.Lex.nil

theorem not_lt_nil (k : List α) : ¬ k < [] := not_lt.mpr (nil_le k)

theorem cons_lt_cons_iff (a b : α) (k l : List α) :
    a :: k < b :: l ↔ a < b ∨ a = b ∧ k < l := by
  constructor
  · intro h
    cases h with
    | rel h => exact Or.inl h
    | cons h => exact Or.inr ⟨rfl, h⟩
  · rintro (h | ⟨rfl, h⟩)
    · exact List.Lex.rel h
    · exact List.Lex.cons h

/-- A common prefix cancels. -/
@[simp] theorem append_lt_append_iff (p k l : List α) : p ++ k < p ++ l ↔ k < l := by
  induction p with
  | nil => rfl
  | cons a p ih => simp [ih]

@[simp] theorem append_le_append_iff (p k l : List α) : p ++ k ≤ p ++ l ↔ k ≤ l := by
  rw [← not_lt, ← not_lt, append_lt_append_iff]

theorem le_append (p k : List α) : p ≤ p ++ k := by
  have h := (append_le_append_iff p [] k).mpr (nil_le k)
  simpa using h

theorem prefix_le {p k : List α} (h : p <+: k) : p ≤ k := by
  obtain ⟨t, rfl⟩ := h
  exact le_append p t

/-- When neither side is a prefix of the other, the first difference decides
and whatever follows does not. -/
theorem append_lt_append_of_lt {k l : List α} (h : k < l) (hp : ¬ k <+: l) (s t : List α) :
    k ++ s < l ++ t := by
  induction k generalizing l with
  | nil => exact absurd (List.nil_prefix) hp
  | cons a k ih =>
    cases l with
    | nil => exact absurd h (not_lt_nil _)
    | cons b l =>
      rw [List.cons_append, List.cons_append, cons_lt_cons_iff]
      rcases (cons_lt_cons_iff a b k l).mp h with hab | ⟨rfl, hkl⟩
      · exact Or.inl hab
      · refine Or.inr ⟨rfl, ih hkl ?_⟩
        intro hpre
        exact hp (List.cons_prefix_cons.mpr ⟨rfl, hpre⟩)

/-- **The keys with a given prefix form an interval.** -/
theorem prefix_of_between {p s t k : List α} (hlo : p ++ s ≤ k) (hhi : k < p ++ t) :
    p <+: k := by
  by_contra hp
  rcases lt_or_ge k p with hk | hk
  · exact absurd (lt_of_le_of_lt (le_trans (le_append p s) hlo) hk) (lt_irrefl _)
  · have hlt : p < k := lt_of_le_of_ne hk (fun h => hp (h ▸ List.prefix_refl p))
    have h := append_lt_append_of_lt hlt hp t []
    rw [List.append_nil] at h
    exact absurd (lt_trans h hhi) (lt_irrefl _)

/-- What follows a key does not matter against a bound that is not longer. -/
theorem le_append_iff_of_length_le {p s : List α} (h : p.length ≤ s.length) (t : List α) :
    p ≤ s ++ t ↔ p ≤ s := by
  refine ⟨fun hle => ?_, fun hle => le_trans hle (le_append s t)⟩
  by_contra hnot
  have hlt : s < p := not_le.mp hnot
  have hpre : ¬ s <+: p := by
    intro hpre
    have heq : s = p := hpre.eq_of_length_le h
    exact absurd (heq ▸ hlt) (lt_irrefl _)
  have happ := append_lt_append_of_lt hlt hpre t []
  rw [List.append_nil] at happ
  exact absurd (lt_of_lt_of_le happ hle) (lt_irrefl _)

end Okm.Lib
