import Mathlib.Order.Lattice
import Mathlib.Data.List.Nodup
import Mathlib.Tactic.Tauto

/-!
# The union of two ascending lists

Rows and keys, both in ascending key order, merged by two pointers: a key that stands in
both lists is taken once, with its row. The merge ascends (`pairwise_unionKeys`), holds the
keys of both lists (`fst_mem_unionKeys`), and carries a row for just the keys that have one.
-/

namespace Okm.Lib

variable {κ α : Type} [LinearOrder κ]

/-- The merge: `none` is a key without a row. -/
def unionKeys : List (κ × α) → List κ → List (κ × Option α)
  | [], keys => keys.map fun k => (k, none)
  | row :: rows, [] => (row :: rows).map fun r => (r.1, some r.2)
  | row :: rows, key :: keys =>
    if row.1 ≤ key then
      if key = row.1 then (row.1, some row.2) :: unionKeys rows keys
      else (row.1, some row.2) :: unionKeys rows (key :: keys)
    else (key, none) :: unionKeys (row :: rows) keys
termination_by rows keys => rows.length + keys.length

/-- The keys of the merge are those of either list. -/
theorem fst_mem_unionKeys {rows : List (κ × α)} {keys : List κ} {k : κ} :
    k ∈ (unionKeys rows keys).map Prod.fst ↔ k ∈ rows.map Prod.fst ∨ k ∈ keys := by
  fun_induction unionKeys rows keys with
  | case1 keys => simp
  | case2 row rows => simp
  | case3 row rows keys hle ih =>
    simp only [List.map_cons, List.mem_cons, ih]
    tauto
  | case4 row rows key keys hle hne ih =>
    simp only [List.map_cons, List.mem_cons, ih]
    tauto
  | case5 row rows key keys hle ih =>
    simp only [List.map_cons, List.mem_cons, ih]
    tauto

/-- **The merge ascends.** -/
theorem pairwise_unionKeys {rows : List (κ × α)} {keys : List κ}
    (hrows : (rows.map Prod.fst).Pairwise (· < ·)) (hkeys : keys.Pairwise (· < ·)) :
    ((unionKeys rows keys).map Prod.fst).Pairwise (· < ·) := by
  fun_induction unionKeys rows keys with
  | case1 keys =>
    rw [List.map_map]
    exact (List.map_id keys).symm ▸ hkeys
  | case2 row rows =>
    rw [List.map_map]
    exact hrows
  | case3 row rows keys hle ih =>
    obtain ⟨hhead, hrest⟩ := List.pairwise_cons.mp hrows
    obtain ⟨hkey, htail⟩ := List.pairwise_cons.mp hkeys
    refine List.pairwise_cons.mpr ⟨fun k hk => ?_, ih hrest htail⟩
    rcases fst_mem_unionKeys.mp hk with hk | hk
    · exact hhead k hk
    · exact hkey k hk
  | case4 row rows key keys hle hne ih =>
    obtain ⟨hhead, hrest⟩ := List.pairwise_cons.mp hrows
    refine List.pairwise_cons.mpr ⟨fun k hk => ?_, ih hrest hkeys⟩
    -- the key is behind the row, so everything it precedes is too
    have hlt : row.1 < key := lt_of_le_of_ne hle (Ne.symm hne)
    rcases fst_mem_unionKeys.mp hk with hk | hk
    · exact hhead k hk
    · rcases List.mem_cons.mp hk with rfl | hk
      · exact hlt
      · exact lt_trans hlt ((List.pairwise_cons.mp hkeys).1 k hk)
  | case5 row rows key keys hle ih =>
    obtain ⟨hkey, htail⟩ := List.pairwise_cons.mp hkeys
    have hlt : key < row.1 := not_le.mp hle
    refine List.pairwise_cons.mpr ⟨fun k hk => ?_, ih hrows htail⟩
    rcases fst_mem_unionKeys.mp hk with hk | hk
    · rcases List.mem_cons.mp hk with rfl | hk
      · exact hlt
      · exact lt_trans hlt ((List.pairwise_cons.mp hrows).1 k hk)
    · exact hkey k hk

omit [LinearOrder κ] in
theorem carried_iff {k : κ} {a : α} {row : κ × α} :
    (k, some a) = (row.1, some row.2) ↔ (k, a) = row := by
  simp [Prod.ext_iff]

/-- **A row is carried by its key**, and by no other. -/
theorem some_mem_unionKeys {rows : List (κ × α)} {keys : List κ} {k : κ} {a : α} :
    (k, some a) ∈ unionKeys rows keys ↔ (k, a) ∈ rows := by
  fun_induction unionKeys rows keys with
  | case1 keys => simp
  | case2 row rows =>
    rw [List.mem_map]
    constructor
    · rintro ⟨row', hrow', heq⟩
      rwa [carried_iff.mp heq.symm]
    · intro h
      exact ⟨_, h, rfl⟩
  | case3 row rows keys hle ih => rw [List.mem_cons, ih, List.mem_cons, carried_iff]
  | case4 row rows key keys hle hne ih => rw [List.mem_cons, ih, List.mem_cons, carried_iff]
  | case5 row rows key keys hle ih =>
    rw [List.mem_cons, ih]
    simp

/-- In an ascending merge a key carries one thing. -/
theorem unionKeys_unique {rows : List (κ × α)} {keys : List κ}
    (hrows : (rows.map Prod.fst).Pairwise (· < ·)) (hkeys : keys.Pairwise (· < ·)) {k : κ}
    {a b : Option α} (ha : (k, a) ∈ unionKeys rows keys) (hb : (k, b) ∈ unionKeys rows keys) :
    a = b := by
  have hnodup : ((unionKeys rows keys).map Prod.fst).Nodup :=
    (pairwise_unionKeys hrows hkeys).imp ne_of_lt
  exact congrArg Prod.snd (List.inj_on_of_nodup_map hnodup ha hb rfl)

/-- **A key without a row is the key of none.** -/
theorem none_mem_unionKeys {rows : List (κ × α)} {keys : List κ}
    (hrows : (rows.map Prod.fst).Pairwise (· < ·)) (hkeys : keys.Pairwise (· < ·)) {k : κ}
    (h : (k, none) ∈ unionKeys rows keys) : k ∉ rows.map Prod.fst := by
  intro hk
  obtain ⟨⟨k', a⟩, hrow, rfl⟩ := List.mem_map.mp hk
  cases unionKeys_unique hrows hkeys h (some_mem_unionKeys.mpr hrow)

end Okm.Lib
