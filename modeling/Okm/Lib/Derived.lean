import Okm.Lib.Overlay

/-!
# Entries derived from items

Beside its items a store keeps entries that are derived from them, any number for each. They
are never looked at to find out what to change: a write of an item deletes the keys its old
state had and puts the entries its new state has. That this keeps the entries those of the
items needs two things only, that a key tells the item it belongs to, and that an item gives
a key one value.
-/

namespace Okm.Lib

variable {ι κ α : Type}

/-- In a region a store reads as the entries of the items, and nothing else. -/
def Derived (region : κ → Prop) (entries : ι → List (κ × α)) (read : κ → Option α) : Prop :=
  ∀ k, region k → ∀ v, read k = some v ↔ ∃ i, (k, v) ∈ entries i

/-- A key belongs to one item at most. -/
def Owned (owns : ι → κ → Prop) : Prop := ∀ i j k, owns i k → owns j k → i = j

/-- A list gives each of its keys one value. -/
def OneValue (entries : List (κ × α)) : Prop :=
  ∀ k v w, (k, v) ∈ entries → (k, w) ∈ entries → v = w

variable {region : κ → Prop} {entries : ι → List (κ × α)} {read read' : κ → Option α}
  {owns : ι → κ → Prop}

/-- A write that stays out of the region, of items whose entries stay, keeps the rest. -/
theorem Derived.congr {entries' : ι → List (κ × α)} (h : Derived region entries read)
    (hentries : ∀ i, entries' i = entries i) (hread : ∀ k, region k → read' k = read k) :
    Derived region entries' read' := by
  intro k hk v
  rw [hread k hk, h k hk v]
  exact exists_congr fun i => by rw [hentries i]

section

variable [LinearOrder κ]

/-- The deletes of the old keys, then the puts of the new entries. -/
def replaceOps (old new : List (κ × α)) : List (Op κ α) :=
  (old.map fun e => (e.1, none)) ++ new.map fun e => (e.1, some e.2)

/-- **What a replace leaves at a key**: the new entry, or nothing where there was an old one
only. -/
theorem pending_replaceOps {old new : List (κ × α)} (hnew : OneValue new) (k : κ) :
    (∃ v, (k, v) ∈ new ∧ pending (replaceOps old new) k = some (some v)) ∨
    (∀ v, (k, v) ∉ new) ∧ pending (replaceOps old new) k
      = if k ∈ old.map Prod.fst then some none else none := by
  have hdel : pending (old.map fun e => (e.1, (none : Option α))) k
      = if k ∈ old.map Prod.fst then some none else none := by
    by_cases hk : k ∈ old.map Prod.fst
    · obtain ⟨e, he, rfl⟩ := List.mem_map.mp hk
      have hop : (e.1, (none : Option α)) ∈ old.map fun e => (e.1, (none : Option α)) :=
        List.mem_map.mpr ⟨e, he, rfl⟩
      rw [if_pos hk]
      refine pending_of_mem hop fun w hw => ?_
      obtain ⟨e', -, heq⟩ := List.mem_map.mp hw
      exact (Prod.mk.inj heq).2.symm
    · rw [if_neg hk]
      cases hp : pending (old.map fun e => (e.1, (none : Option α))) k with
      | none => rfl
      | some w =>
        obtain ⟨e, he, heq⟩ := List.mem_map.mp (mem_of_pending hp)
        exact absurd (List.mem_map.mpr ⟨e, he, (Prod.mk.inj heq).1⟩) hk
  unfold replaceOps
  rw [pending_append, hdel]
  cases hp : pending (new.map fun e => (e.1, some e.2)) k with
  | some w =>
    obtain ⟨e, he, heq⟩ := List.mem_map.mp (mem_of_pending hp)
    obtain ⟨rfl, rfl⟩ := Prod.mk.inj heq
    exact Or.inl ⟨e.2, he, rfl⟩
  | none =>
    refine Or.inr ⟨fun v hv => ?_, rfl⟩
    have hop : (k, some v) ∈ new.map fun e => (e.1, some e.2) := List.mem_map.mpr ⟨(k, v), hv, rfl⟩
    have hat := pending_of_mem hop fun w hw => by
      obtain ⟨e, he, heq⟩ := List.mem_map.mp hw
      obtain ⟨rfl, rfl⟩ := Prod.mk.inj heq
      exact congrArg some (hnew _ _ _ he hv)
    rw [hp] at hat
    cases hat

/-- **A replace of one item's entries keeps the entries those of the items.** -/
theorem Derived.replace [DecidableEq ι] (h : Derived region entries read)
    (howned : Owned owns) {i : ι} {old new : List (κ × α)} (hold : entries i = old)
    (hothers : ∀ j, ∀ e ∈ entries j, region e.1 → owns j e.1)
    (hnew : ∀ e ∈ new, region e.1 → owns i e.1) (hone : OneValue new)
    {entries' : ι → List (κ × α)} (hentries : ∀ j, entries' j = if j = i then new else entries j)
    (hread : ∀ k, region k → read' k = (pending (replaceOps old new) k).getD (read k)) :
    Derived region entries' read' := by
  intro k hk v
  rw [hread k hk]
  have hmem : (∃ j, (k, v) ∈ entries' j) ↔ (k, v) ∈ new ∨ ∃ j, j ≠ i ∧ (k, v) ∈ entries j := by
    constructor
    · rintro ⟨j, hj⟩
      rw [hentries j] at hj
      by_cases hji : j = i
      · rw [if_pos hji] at hj
        exact Or.inl hj
      · rw [if_neg hji] at hj
        exact Or.inr ⟨j, hji, hj⟩
    · rintro (hv | ⟨j, hji, hj⟩)
      · exact ⟨i, by rwa [hentries i, if_pos rfl]⟩
      · exact ⟨j, by rwa [hentries j, if_neg hji]⟩
  rw [hmem]
  -- a key of the new entries, one only of the old, or neither
  rcases pending_replaceOps hone k with ⟨w, hw, hpending⟩ | ⟨hno, hpending⟩
  · rw [hpending, Option.getD_some, Option.some.injEq]
    constructor
    · rintro rfl
      exact Or.inl hw
    · rintro (hv | ⟨j, hji, hj⟩)
      · exact hone _ _ _ hw hv
      · -- the key would belong to two items
        exact absurd (howned j i k (hothers j _ hj hk) (hnew _ hw hk)) hji
  · rw [hpending]
    by_cases hkey : k ∈ old.map Prod.fst
    · rw [if_pos hkey, Option.getD_some]
      constructor
      · intro hnone
        cases hnone
      rintro (hv | ⟨j, hji, hj⟩)
      · exact absurd hv (hno v)
      · obtain ⟨e, he, rfl⟩ := List.mem_map.mp hkey
        have hown := hothers i e (by rw [hold]; exact he) hk
        exact absurd (howned j i _ (hothers j _ hj hk) hown) hji
    · rw [if_neg hkey, Option.getD_none, h k hk v]
      constructor
      · rintro ⟨j, hj⟩
        refine Or.inr ⟨j, ?_, hj⟩
        rintro rfl
        rw [hold] at hj
        exact hkey (List.mem_map.mpr ⟨(k, v), hj, rfl⟩)
      · rintro (hv | ⟨j, -, hj⟩)
        · exact absurd hv (hno v)
        · exact ⟨j, hj⟩

end

end Okm.Lib
