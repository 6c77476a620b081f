import Mathlib.Algebra.GroupWithZero.Nat
import Mathlib.Data.List.Nodup

/-!
# Lists whose elements have distinct keys

A small table kept as a list: an element is found by its key, replaced where it
stands, taken out by its index, or pushed at the end. With keys distinct, each of
these changes what is found under one key only.
-/

namespace Okm.Lib

variable {α κ : Type} [DecidableEq κ] {key : α → κ}

/-- The element with this key. -/
def findKey (key : α → κ) (k : κ) (l : List α) : Option α := l.find? fun a => key a = k

/-- No key twice. -/
def DistinctKeys (key : α → κ) (l : List α) : Prop := (l.map key).Nodup

variable {l : List α} {k : κ} {a b : α} {i : Nat}

theorem mem_of_findKey (h : findKey key k l = some a) : a ∈ l ∧ key a = k := by
  unfold findKey at h
  have hkey := List.find?_some h
  exact ⟨List.mem_of_find?_eq_some h, of_decide_eq_true hkey⟩

theorem findKey_eq_none : findKey key k l = none ↔ ∀ a ∈ l, key a ≠ k := by
  simp [findKey]

theorem findKey_of_mem (hl : DistinctKeys key l) (ha : a ∈ l) : findKey key (key a) l = some a := by
  cases h : findKey key (key a) l with
  | none => exact absurd rfl (findKey_eq_none.mp h a ha)
  | some b =>
    obtain ⟨hb, hkey⟩ := mem_of_findKey h
    rw [List.inj_on_of_nodup_map hl hb ha hkey]

theorem findKey_eq_some (hl : DistinctKeys key l) :
    findKey key k l = some a ↔ a ∈ l ∧ key a = k := by
  constructor
  · exact mem_of_findKey
  · rintro ⟨ha, rfl⟩
    exact findKey_of_mem hl ha

/-- What the index search finds is what the key search finds. -/
theorem getElem_of_findIdx (h : l.findIdx? (fun a => key a = k) = some i) :
    ∃ a, l[i]? = some a ∧ key a = k := by
  obtain ⟨hi, hkey, -⟩ := List.findIdx?_eq_some_iff_getElem.mp h
  exact ⟨l[i], List.getElem?_eq_getElem hi, of_decide_eq_true hkey⟩

theorem findKey_of_findIdx (h : l.findIdx? (fun a => key a = k) = none) : findKey key k l = none := by
  refine findKey_eq_none.mpr ?_
  intro a ha
  exact of_decide_eq_false (List.findIdx?_eq_none_iff.mp h a ha)

/-- A sum over elements of which only one key counts. -/
theorem sum_filter_keyed (hl : DistinctKeys key l) {keep : α → Bool} {f : α → Nat}
    (hkeep : ∀ a, key a = k → keep a = true)
    (hzero : ∀ a ∈ l, keep a = true → key a ≠ k → f a = 0) :
    ((l.filter keep).map f).sum = ((findKey key k l).map f).getD 0 := by
  induction l with
  | nil => rfl
  | cons b l ih =>
    obtain ⟨hfresh, hrest⟩ := List.nodup_cons.mp hl
    have ih := ih hrest fun a ha => hzero a (List.mem_cons_of_mem b ha)
    by_cases hb : key b = k
    · -- no later element has the key
      have hnone : findKey key k l = none := by
        refine findKey_eq_none.mpr ?_
        intro a ha hak
        exact hfresh (by rw [hb, ← hak]; exact List.mem_map_of_mem ha)
      rw [hnone] at ih
      rw [List.filter_cons_of_pos (hkeep b hb), List.map_cons, List.sum_cons, ih, findKey,
        List.find?_cons_of_pos (by simpa using hb)]
      rfl
    · rw [findKey, List.find?_cons_of_neg (by simpa using hb)]
      cases hkb : keep b with
      | true =>
        rw [List.filter_cons_of_pos hkb, List.map_cons, List.sum_cons,
          hzero b (by simp) hkb hb, Nat.zero_add]
        exact ih
      | false =>
        rw [List.filter_cons_of_neg (by simp [hkb])]
        exact ih

/-! ## Changes -/

omit [DecidableEq κ] in
theorem DistinctKeys.set (hl : DistinctKeys key l) (hi : l[i]? = some a) (hkey : key b = key a) :
    DistinctKeys key (l.set i b) := by
  obtain ⟨hlt, rfl⟩ := List.getElem?_eq_some_iff.mp hi
  have hmap : (l.set i b).map key = l.map key := by
    rw [List.map_set, hkey]
    refine List.ext_getElem? ?_
    intro j
    by_cases hij : i = j
    · subst hij
      rw [List.getElem?_set_self (by simpa using hlt), List.getElem?_map, hi]
      rfl
    · rw [List.getElem?_set_ne hij]
  rw [DistinctKeys, hmap]
  exact hl

theorem findKey_set (hl : DistinctKeys key l) (hi : l[i]? = some a) (hkey : key b = key a) (k : κ) :
    findKey key k (l.set i b) = if key a = k then some b else findKey key k l := by
  have hset := hl.set hi hkey
  obtain ⟨hlt, rfl⟩ := List.getElem?_eq_some_iff.mp hi
  split
  · rename_i hk
    rw [← hk, ← hkey]
    exact findKey_of_mem hset (List.mem_set hlt b)
  · rename_i hk
    refine Option.ext ?_
    intro c
    rw [findKey_eq_some hset, findKey_eq_some hl]
    refine and_congr_left ?_
    rintro rfl
    rw [List.mem_iff_getElem?, List.mem_iff_getElem?]
    refine exists_congr ?_
    intro j
    -- the replaced place holds neither before nor after
    by_cases hij : i = j
    · subst hij
      rw [List.getElem?_set_self hlt, hi]
      constructor
      · intro hc
        rw [← Option.some.inj hc] at hk
        exact absurd hkey.symm hk
      · intro hc
        rw [← Option.some.inj hc] at hk
        exact absurd rfl hk
    · rw [List.getElem?_set_ne hij]

omit [DecidableEq κ] in
theorem DistinctKeys.eraseIdx (hl : DistinctKeys key l) (i : Nat) :
    DistinctKeys key (l.eraseIdx i) :=
  hl.sublist ((List.eraseIdx_sublist l i).map key)

theorem findKey_eraseIdx (hl : DistinctKeys key l) (hi : l[i]? = some a) (k : κ) :
    findKey key k (l.eraseIdx i) = if key a = k then none else findKey key k l := by
  obtain ⟨hlt, rfl⟩ := List.getElem?_eq_some_iff.mp hi
  have hsplit : l = l.take i ++ l[i] :: l.drop (i + 1) := by simp
  have herase : l.eraseIdx i = l.take i ++ l.drop (i + 1) := List.eraseIdx_eq_take_drop_succ l i
  have hdistinct := hl
  rw [DistinctKeys, hsplit, List.map_append, List.map_cons, List.nodup_middle,
    List.nodup_cons] at hdistinct
  split
  · rename_i hk
    refine findKey_eq_none.mpr ?_
    intro b hb hbk
    rw [herase] at hb
    refine hdistinct.1 ?_
    rw [← List.map_append, hk, ← hbk]
    exact List.mem_map_of_mem hb
  · rename_i hk
    refine Option.ext ?_
    intro c
    rw [findKey_eq_some (hl.eraseIdx i), findKey_eq_some hl]
    refine and_congr_left ?_
    rintro rfl
    rw [herase]
    constructor
    · intro hc
      rw [hsplit]
      rcases List.mem_append.mp hc with hc | hc
      · exact List.mem_append_left _ hc
      · exact List.mem_append_right _ (List.mem_cons_of_mem _ hc)
    · intro hc
      rw [hsplit] at hc
      rcases List.mem_append.mp hc with hc | hc
      · exact List.mem_append_left _ hc
      · rcases List.mem_cons.mp hc with rfl | hc
        · exact absurd rfl hk
        · exact List.mem_append_right _ hc

theorem DistinctKeys.push (hl : DistinctKeys key l) (hnew : findKey key (key b) l = none) :
    DistinctKeys key (l ++ [b]) := by
  rw [DistinctKeys, List.map_append, List.map_cons, List.map_nil, ← List.concat_eq_append]
  refine List.Nodup.concat ?_ hl
  intro hmem
  obtain ⟨a, ha, hkey⟩ := List.mem_map.mp hmem
  exact findKey_eq_none.mp hnew a ha hkey

theorem findKey_push (hnew : findKey key (key b) l = none) (k : κ) :
    findKey key k (l ++ [b]) = if key b = k then some b else findKey key k l := by
  rw [findKey, List.find?_append]
  split
  · rename_i hk
    subst hk
    rw [show List.find? _ l = none from hnew]
    simp
  · rename_i hk
    simp [findKey, hk]

end Okm.Lib
