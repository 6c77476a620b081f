import Okm.Lib.Keyed
import Okm.Lib.SortedMap

/-!
# Maps built by a loop

A loop over a list binds what each element gives, or fills the keys still free with it. Where
the keys of the elements are distinct, what the map answers afterwards is read off the list.
-/

namespace Okm.Lib.SortedMap

variable {κ α ι : Type} [LinearOrder κ] {key : ι → κ}

/-- Bind what each element gives under its key; an element may give nothing. -/
def bindAll (key : ι → κ) (image : ι → Option α) (m : SortedMap κ α) (xs : List ι) :
    SortedMap κ α :=
  xs.foldl (fun m x => (image x).elim m (m.insert (key x))) m

/-- Bind what each element gives where its key is still free. -/
def fillAll (key : ι → κ) (value : ι → α) (m : SortedMap κ α) (xs : List ι) : SortedMap κ α :=
  xs.foldl (fun m x => if (m.get (key x)).isSome then m else m.insert (key x) (value x)) m

section

variable [DecidableEq κ]

theorem get_bindAll_of_fresh {image : ι → Option α} {m : SortedMap κ α} {xs : List ι} {k : κ}
    (h : findKey key k xs = none) : (bindAll key image m xs).get k = m.get k := by
  induction xs generalizing m with
  | nil => rfl
  | cons x xs ih =>
    have hno := findKey_eq_none.mp h
    have hne : k ≠ key x := Ne.symm (hno x List.mem_cons_self)
    have hrest : findKey key k xs = none :=
      findKey_eq_none.mpr fun y hy => hno y (List.mem_cons_of_mem x hy)
    change (bindAll key image ((image x).elim m (m.insert (key x))) xs).get k = _
    rw [ih hrest]
    cases image x with
    | none => rfl
    | some v => exact get_insert_of_ne m v hne

/-- **A key answers what its element gave, or what it answered before.** -/
theorem get_bindAll {image : ι → Option α} {xs : List ι} (hkeys : DistinctKeys key xs)
    (m : SortedMap κ α) (k : κ) :
    (bindAll key image m xs).get k = ((findKey key k xs).bind image).or (m.get k) := by
  induction xs generalizing m with
  | nil => rfl
  | cons x xs ih =>
    obtain ⟨hnew, hrest⟩ := List.nodup_cons.mp hkeys
    change (bindAll key image ((image x).elim m (m.insert (key x))) xs).get k = _
    by_cases hk : key x = k
    · -- no later element has the key
      have hnone : findKey key k xs = none := by
        refine findKey_eq_none.mpr fun y hy hyk => hnew ?_
        rw [hk, ← hyk]
        exact List.mem_map_of_mem hy
      rw [get_bindAll_of_fresh hnone, findKey, List.find?_cons_of_pos (by simpa using hk),
        Option.bind_some]
      cases image x with
      | none => rfl
      | some v =>
        rw [← hk]
        exact get_insert_self m (key x) v
    · rw [ih hrest, findKey, findKey, List.find?_cons_of_neg (by simpa using hk)]
      congr 1
      cases image x with
      | none => rfl
      | some v => exact get_insert_of_ne m v (Ne.symm hk)

/-- **A key bound before keeps its value, a free one takes what the first of its elements
gave.** -/
theorem get_fillAll {value : ι → α} (m : SortedMap κ α) (xs : List ι) (k : κ) :
    (fillAll key value m xs).get k = (m.get k).or ((findKey key k xs).map value) := by
  induction xs generalizing m with
  | nil => simp [fillAll, findKey]
  | cons x xs ih =>
    change (fillAll key value (if (m.get (key x)).isSome then m
      else m.insert (key x) (value x)) xs).get k = _
    rw [ih]
    by_cases hk : key x = k
    · rw [findKey, findKey, List.find?_cons_of_pos (by simpa using hk), hk]
      cases hget : m.get k with
      | some v =>
        rw [if_pos Option.isSome_some, hget]
        rfl
      | none =>
        rw [if_neg (by simp), get_insert_self]
        rfl
    · rw [findKey, findKey, List.find?_cons_of_neg (by simpa using hk)]
      congr 1
      split
      · rfl
      · exact get_insert_of_ne m _ (Ne.symm hk)

theorem findKey_entries (m : SortedMap κ α) (k : κ) :
    (findKey Prod.fst k m.entries).map Prod.snd = m.get k := by
  cases h : findKey Prod.fst k m.entries with
  | none =>
    have hno := findKey_eq_none.mp h
    exact ((m.get_eq_none_iff k).mpr fun v hv => hno (k, v) hv rfl).symm
  | some e =>
    obtain ⟨hmem, hkey⟩ := mem_of_findKey h
    refine ((m.get_eq_some_iff k e.2).mpr ?_).symm
    rw [← hkey]
    exact hmem

/-- **A key of the second map answers there, any other in the first one.** -/
theorem get_extend (m n : SortedMap κ α) (k : κ) :
    (m.extend n).get k = (n.get k).or (m.get k) := by
  have hloop : m.extend n = bindAll Prod.fst (fun e => some e.2) m n.entries := rfl
  rw [hloop, get_bindAll n.nodup_keys, ← n.findKey_entries]
  cases findKey Prod.fst k n.entries <;> rfl

end

/-! ## Every value changed -/

/-- The same keys, each with the image of its value. -/
def mapValues {β : Type} (f : α → β) (m : SortedMap κ α) : SortedMap κ β :=
  ⟨m.entries.map fun e => (e.1, f e.2), List.pairwise_map.mpr m.sorted⟩

theorem get_mapValues [DecidableEq κ] {β : Type} (f : α → β) (m : SortedMap κ α) (k : κ) :
    (m.mapValues f).get k = (m.get k).map f := by
  cases h : m.get k with
  | none =>
    refine ((m.mapValues f).get_eq_none_iff k).mpr fun w hw => ?_
    obtain ⟨e, he, heq⟩ := List.mem_map.mp hw
    obtain ⟨rfl, -⟩ := Prod.mk.inj heq
    exact (m.get_eq_none_iff e.1).mp h e.2 he
  | some v =>
    have he := (m.get_eq_some_iff k v).mp h
    exact ((m.mapValues f).get_eq_some_iff k (f v)).mpr (List.mem_map.mpr ⟨(k, v), he, rfl⟩)

/-! ## Elements that say their own key -/

/-- Bind the pair each element reads as; an element may read as none. -/
def enterAll (pair : ι → Option (κ × α)) (m : SortedMap κ α) (xs : List ι) : SortedMap κ α :=
  xs.foldl (fun m x => (pair x).elim m fun p => m.insert p.1 p.2) m

section

variable [DecidableEq κ] {pair : ι → Option (κ × α)} {f : κ → Option α}

/-- What a key answers was there before, or some element gave it. -/
theorem mem_of_get_enterAll {m : SortedMap κ α} {xs : List ι} {k : κ} {v : α}
    (h : (enterAll pair m xs).get k = some v) :
    m.get k = some v ∨ ∃ x ∈ xs, pair x = some (k, v) := by
  induction xs generalizing m with
  | nil => exact Or.inl h
  | cons x xs ih =>
    rcases ih h with hget | ⟨y, hy, hpair⟩
    · dsimp only at hget
      cases hpair : pair x with
      | none =>
        rw [hpair] at hget
        exact Or.inl hget
      | some p =>
        rw [hpair, Option.elim_some, get_insert] at hget
        split at hget
        · rename_i hk
          obtain rfl := Option.some.inj hget
          exact Or.inr ⟨x, List.mem_cons_self, by rw [hpair, hk]⟩
        · exact Or.inl hget
    · exact Or.inr ⟨y, List.mem_cons_of_mem x hy, hpair⟩

/-- A key once bound stays bound. -/
theorem get_enterAll_isSome {m : SortedMap κ α} {xs : List ι} {k : κ}
    (h : (m.get k).isSome ∨ ∃ x ∈ xs, ∃ v, pair x = some (k, v)) :
    ((enterAll pair m xs).get k).isSome := by
  induction xs generalizing m with
  | nil =>
    rcases h with h | ⟨x, hx, -⟩
    · exact h
    · cases hx
  | cons x xs ih =>
    refine ih ?_
    have hstep : (m.get k).isSome → (((pair x).elim m fun p => m.insert p.1 p.2).get k).isSome := by
      intro hsome
      cases pair x with
      | none => exact hsome
      | some p =>
        rw [Option.elim_some, get_insert]
        split
        · rfl
        · exact hsome
    rcases h with h | ⟨y, hy, v, hpair⟩
    · exact Or.inl (hstep h)
    · rcases List.mem_cons.mp hy with rfl | hy
      · refine Or.inl ?_
        dsimp only
        rw [hpair, Option.elim_some, get_insert_self]
        rfl
      · exact Or.inr ⟨y, hy, v, hpair⟩

/-- **What the pairs say of a key is what it answers**: they are those of `f`, and all of
them. -/
theorem get_enterAll {xs : List ι} (hsound : ∀ x ∈ xs, ∀ k v, pair x = some (k, v) → f k = some v)
    (hcomplete : ∀ k v, f k = some v → ∃ x ∈ xs, pair x = some (k, v)) (k : κ) :
    (enterAll pair empty xs).get k = f k := by
  have hread : ∀ v, (enterAll pair empty xs).get k = some v → f k = some v := by
    intro v hget
    rcases mem_of_get_enterAll hget with hempty | ⟨x, hx, hpair⟩
    · cases hempty
    · exact hsound x hx k v hpair
  cases hf : f k with
  | none =>
    cases hget : (enterAll pair empty xs).get k with
    | none => rfl
    | some v =>
      have hk := hread v hget
      rw [hf] at hk
      cases hk
  | some v =>
    obtain ⟨x, hx, hpair⟩ := hcomplete k v hf
    obtain ⟨w, hw⟩ := Option.isSome_iff_exists.mp
      (@get_enterAll_isSome _ _ _ _ _ pair empty xs k (Or.inr ⟨x, hx, v, hpair⟩))
    have hk := hread w hw
    rw [hw, ← hf, hk]

end

end Okm.Lib.SortedMap
