import Mathlib.Logic.Function.Basic

/-!
# A region derived from items

A store often keeps, beside its items, a region of entries computed from them: one entry
for each item, under a key the item determines. `Represents` says that a region holds the
entries of the items there are and nothing else. Where a key names its item (`OwnKeys`),
it is kept by writing the entry of a new item and by dropping the entry of an old one, so
replacing an item is the one after the other.
-/

namespace Okm.Lib

variable {ι α κ β : Type}

/-- An entry key names the item it belongs to. -/
def OwnKeys (entry : ι → α → κ × β) : Prop :=
  ∀ ⦃i j : ι⦄ ⦃a b : α⦄, (entry i a).1 = (entry j b).1 → i = j

/-- The region holds the entries of the items, each once, and no other. -/
def Represents (entry : ι → α → κ × β) (items : ι → Option α) (region : κ → Option β) : Prop :=
  ∀ k v, region k = some v ↔ ∃ i a, items i = some a ∧ entry i a = (k, v)

namespace Represents

variable {entry : ι → α → κ × β} {items : ι → Option α} {region region' : κ → Option β}
  {i : ι} {a : α} {k : κ}

theorem empty (h : ∀ k, region k = none) : Represents entry (fun _ => none) region := by
  intro k v
  rw [h k]
  constructor
  · intro hv
    cases hv
  · intro hex
    obtain ⟨i, a, hi, -⟩ := hex
    cases hi

theorem congr (h : Represents entry items region) (heq : ∀ k, region' k = region k) :
    Represents entry items region' := by
  intro k v
  rw [heq k]
  exact h k v

/-- The entry of an item there is. -/
theorem read (h : Represents entry items region) (hi : items i = some a) :
    region (entry i a).1 = some (entry i a).2 :=
  (h _ _).mpr ⟨i, a, hi, rfl⟩

/-- What the region holds belongs to an item there is. -/
theorem owner (h : Represents entry items region) {v : β} (hk : region k = some v) :
    ∃ i a, items i = some a ∧ entry i a = (k, v) := (h k v).mp hk

section

variable [DecidableEq ι] [DecidableEq κ] (own : OwnKeys entry)

include own

/-- **A new item writes its entry.** -/
theorem insert (h : Represents entry items region) (hi : items i = none)
    (hnew : region' (entry i a).1 = some (entry i a).2)
    (hold : ∀ k, k ≠ (entry i a).1 → region' k = region k) :
    Represents entry (Function.update items i (some a)) region' := by
  intro k v
  by_cases hk : k = (entry i a).1
  · subst hk
    rw [hnew]
    constructor
    · intro hv
      obtain rfl := Option.some.inj hv
      exact ⟨i, a, Function.update_self i _ items, rfl⟩
    · intro hex
      obtain ⟨j, b, hj, heq⟩ := hex
      have hkey : (entry j b).1 = (entry i a).1 := by rw [heq]
      obtain rfl := own hkey
      rw [Function.update_self] at hj
      obtain rfl := Option.some.inj hj
      rw [heq]
  · rw [hold k hk, h k v]
    constructor
    · intro hex
      obtain ⟨j, b, hj, heq⟩ := hex
      have hne : j ≠ i := by
        intro hji
        rw [hji, hi] at hj
        cases hj
      exact ⟨j, b, by rw [Function.update_of_ne hne, hj], heq⟩
    · intro hex
      obtain ⟨j, b, hj, heq⟩ := hex
      by_cases hji : j = i
      · subst hji
        rw [Function.update_self] at hj
        obtain rfl := Option.some.inj hj
        exact absurd (congrArg Prod.fst heq).symm hk
      · rw [Function.update_of_ne hji] at hj
        exact ⟨j, b, hj, heq⟩

/-- **An item that leaves drops its entry.** -/
theorem erase (h : Represents entry items region) (hi : items i = some a)
    (hgone : region' (entry i a).1 = none)
    (hold : ∀ k, k ≠ (entry i a).1 → region' k = region k) :
    Represents entry (Function.update items i none) region' := by
  intro k v
  by_cases hk : k = (entry i a).1
  · subst hk
    rw [hgone]
    constructor
    · intro hv
      cases hv
    · intro hex
      obtain ⟨j, b, hj, heq⟩ := hex
      have hkey : (entry j b).1 = (entry i a).1 := by rw [heq]
      obtain rfl := own hkey
      rw [Function.update_self] at hj
      cases hj
  · rw [hold k hk, h k v]
    constructor
    · intro hex
      obtain ⟨j, b, hj, heq⟩ := hex
      have hne : j ≠ i := by
        intro hji
        rw [hji, hi] at hj
        obtain rfl := Option.some.inj hj
        rw [hji] at heq
        exact hk (congrArg Prod.fst heq).symm
      exact ⟨j, b, by rw [Function.update_of_ne hne, hj], heq⟩
    · intro hex
      obtain ⟨j, b, hj, heq⟩ := hex
      have hne : j ≠ i := by
        intro hji
        rw [hji, Function.update_self] at hj
        cases hj
      rw [Function.update_of_ne hne] at hj
      exact ⟨j, b, hj, heq⟩

end

end Represents

end Okm.Lib
