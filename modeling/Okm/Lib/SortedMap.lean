import Mathlib.Algebra.BigOperators.Group.List.Basic
import Mathlib.Data.List.Pairwise
import Okm.Lib.LexOrder

/-!
# Finite ordered maps

What an ordered key-value store holds: finitely many bindings, in strictly
increasing key order. The order is a field of the structure, so a scan is a
plain filter of the entry list and two maps that answer every `get` alike are
equal.
-/

namespace Okm.Lib

variable {κ α : Type} [LinearOrder κ]

/-- A finite map kept as its entry list, strictly increasing in key. -/
structure SortedMap (κ α : Type) [LinearOrder κ] where
  entries : List (κ × α)
  sorted : entries.Pairwise (fun a b => a.1 < b.1)

namespace SortedMap

/-- The value bound to a key in an entry list. -/
def lookup (k : κ) : List (κ × α) → Option α
  | [] => none
  | e :: es => if e.1 = k then some e.2 else lookup k es

/-- Put a binding where the order wants it, replacing an older one. -/
def insertEntry (k : κ) (v : α) : List (κ × α) → List (κ × α)
  | [] => [(k, v)]
  | e :: es =>
    if k < e.1 then (k, v) :: e :: es
    else if e.1 = k then (k, v) :: es
    else e :: insertEntry k v es

theorem lookup_eq_none_of_lt {k : κ} {es : List (κ × α)} (h : ∀ e ∈ es, k < e.1) :
    lookup k es = none := by
  induction es with
  | nil => rfl
  | cons e es ih =>
    have hne : e.1 ≠ k := (h e (by simp)).ne'
    simp only [lookup, if_neg hne]
    exact ih (fun e' he' => h e' (by simp [he']))

theorem lookup_eq_some_iff {es : List (κ × α)} (hs : es.Pairwise (fun a b => a.1 < b.1))
    (k : κ) (v : α) : lookup k es = some v ↔ (k, v) ∈ es := by
  induction es with
  | nil => simp [lookup]
  | cons e es ih =>
    obtain ⟨hlt, hs⟩ := List.pairwise_cons.mp hs
    unfold lookup
    split
    · rename_i hk
      subst hk
      -- the tail holds only larger keys, so the head is the one binding
      have hno : ∀ w, (e.1, w) ∉ es := fun w hw => lt_irrefl _ (hlt (e.1, w) hw)
      simp only [Option.some.injEq, List.mem_cons, hno, or_false, Prod.ext_iff, true_and]
      exact eq_comm
    · rename_i hk
      rw [ih hs, List.mem_cons]
      constructor
      · exact Or.inr
      · rintro (h | h)
        · exact absurd (congrArg Prod.fst h).symm hk
        · exact h

theorem mem_insertEntry {k : κ} {v : α} {es : List (κ × α)}
    (hs : es.Pairwise (fun a b => a.1 < b.1)) {e : κ × α} :
    e ∈ insertEntry k v es ↔ e = (k, v) ∨ e ∈ es ∧ e.1 ≠ k := by
  induction es with
  | nil => simp [insertEntry]
  | cons d es ih =>
    obtain ⟨hlt, hs⟩ := List.pairwise_cons.mp hs
    unfold insertEntry
    split
    · rename_i hk
      -- the key is below all others, the same as the first, or further on
      have hne : ∀ e' ∈ d :: es, e'.1 ≠ k := by
        intro e' he'
        rcases List.mem_cons.mp he' with rfl | he'
        · exact hk.ne'
        · exact (lt_trans hk (hlt e' he')).ne'
      rw [List.mem_cons]
      constructor
      · rintro (rfl | he)
        · exact Or.inl rfl
        · exact Or.inr ⟨he, hne e he⟩
      · rintro (rfl | ⟨he, -⟩)
        · exact Or.inl rfl
        · exact Or.inr he
    · split
      · rename_i hk
        subst hk
        rw [List.mem_cons, List.mem_cons]
        constructor
        · rintro (rfl | he)
          · exact Or.inl rfl
          · exact Or.inr ⟨Or.inr he, (hlt e he).ne'⟩
        · rintro (rfl | ⟨rfl | he, hne⟩)
          · exact Or.inl rfl
          · exact absurd rfl hne
          · exact Or.inr he
      · rename_i hk
        rw [List.mem_cons, List.mem_cons, ih hs]
        constructor
        · rintro (rfl | rfl | ⟨he, hne⟩)
          · exact Or.inr ⟨Or.inl rfl, hk⟩
          · exact Or.inl rfl
          · exact Or.inr ⟨Or.inr he, hne⟩
        · rintro (rfl | ⟨rfl | he, hne⟩)
          · exact Or.inr (Or.inl rfl)
          · exact Or.inl rfl
          · exact Or.inr (Or.inr ⟨he, hne⟩)

theorem pairwise_insertEntry {es : List (κ × α)} (hs : es.Pairwise (fun a b => a.1 < b.1))
    (k : κ) (v : α) : (insertEntry k v es).Pairwise (fun a b => a.1 < b.1) := by
  induction es with
  | nil => simp [insertEntry]
  | cons d es ih =>
    obtain ⟨hlt, hs'⟩ := List.pairwise_cons.mp hs
    unfold insertEntry
    split
    · rename_i hk
      refine List.pairwise_cons.mpr ⟨?_, hs⟩
      intro e he
      rcases List.mem_cons.mp he with rfl | he
      · exact hk
      · exact lt_trans hk (hlt e he)
    · rename_i hnlt
      split
      · rename_i hk
        subst hk
        exact List.pairwise_cons.mpr ⟨hlt, hs'⟩
      · rename_i hk
        refine List.pairwise_cons.mpr ⟨?_, ih hs'⟩
        intro e he
        rcases (mem_insertEntry hs').mp he with rfl | ⟨he, -⟩
        · exact lt_of_le_of_ne (not_lt.mp hnlt) hk
        · exact hlt e he

/-! ## The operations -/

/-- The map without bindings. -/
def empty : SortedMap κ α := ⟨[], List.Pairwise.nil⟩

/-- The value bound to `k`. -/
def get (m : SortedMap κ α) (k : κ) : Option α := lookup k m.entries

/-- Bind `k` to `v`. -/
def insert (m : SortedMap κ α) (k : κ) (v : α) : SortedMap κ α :=
  ⟨insertEntry k v m.entries, pairwise_insertEntry m.sorted k v⟩

/-- Unbind `k`. -/
def erase (m : SortedMap κ α) (k : κ) : SortedMap κ α :=
  ⟨m.entries.filter (fun e => decide (e.1 ≠ k)), m.sorted.filter _⟩

/-- The bindings from `lo` on and before `hi`, in key order; no `hi` is no bound. -/
def range (m : SortedMap κ α) (lo : κ) (hi : Option κ) : List (κ × α) :=
  m.entries.filter (fun e => decide (lo ≤ e.1) && hi.all (fun h => decide (e.1 < h)))

theorem get_eq_some_iff (m : SortedMap κ α) (k : κ) (v : α) :
    m.get k = some v ↔ (k, v) ∈ m.entries :=
  lookup_eq_some_iff m.sorted k v

theorem nodup_keys (m : SortedMap κ α) : (m.entries.map Prod.fst).Nodup :=
  List.pairwise_map.mpr (m.sorted.imp fun h => ne_of_lt h)

theorem get_eq_none_iff (m : SortedMap κ α) (k : κ) :
    m.get k = none ↔ ∀ v, (k, v) ∉ m.entries := by
  rw [Option.eq_none_iff_forall_ne_some]
  exact forall_congr' fun v => not_congr (m.get_eq_some_iff k v)

@[simp] theorem get_empty (k : κ) : (empty : SortedMap κ α).get k = none := rfl

theorem get_insert [DecidableEq κ] (m : SortedMap κ α) (k : κ) (v : α) (k' : κ) :
    (m.insert k v).get k' = if k' = k then some v else m.get k' := by
  ext w
  rw [get_eq_some_iff]
  change (k', w) ∈ insertEntry k v m.entries ↔ _
  rw [mem_insertEntry m.sorted]
  split
  · rename_i h
    simp [h, eq_comm]
  · rename_i h
    simp [h, get_eq_some_iff]

@[simp] theorem get_insert_self (m : SortedMap κ α) (k : κ) (v : α) :
    (m.insert k v).get k = some v := by
  rw [get_insert, if_pos rfl]

theorem get_insert_of_ne (m : SortedMap κ α) {k k' : κ} (v : α) (h : k' ≠ k) :
    (m.insert k v).get k' = m.get k' := by
  rw [get_insert, if_neg h]

theorem get_erase [DecidableEq κ] (m : SortedMap κ α) (k k' : κ) :
    (m.erase k).get k' = if k' = k then none else m.get k' := by
  ext w
  rw [get_eq_some_iff]
  change (k', w) ∈ m.entries.filter _ ↔ _
  rw [List.mem_filter]
  split
  · rename_i h
    simp [h]
  · rename_i h
    simp [h, get_eq_some_iff]

@[simp] theorem get_erase_self (m : SortedMap κ α) (k : κ) : (m.erase k).get k = none := by
  rw [get_erase, if_pos rfl]

theorem get_erase_of_ne (m : SortedMap κ α) {k k' : κ} (h : k' ≠ k) :
    (m.erase k).get k' = m.get k' := by
  rw [get_erase, if_neg h]

/-! ## Maps are determined by what they answer -/

/-- Two strictly increasing lists with the same members are the same list. -/
theorem eq_of_mem_iff {es fs : List (κ × α)} (hes : es.Pairwise (fun a b => a.1 < b.1))
    (hfs : fs.Pairwise (fun a b => a.1 < b.1)) (h : ∀ e, e ∈ es ↔ e ∈ fs) : es = fs := by
  have irr : ∀ {l : List (κ × α)}, l.Pairwise (fun a b => a.1 < b.1) → l.Nodup :=
    fun hl => hl.imp (fun hab heq => absurd (congrArg Prod.fst heq) (ne_of_lt hab))
  have hperm : es.Perm fs := (List.perm_ext_iff_of_nodup (irr hes) (irr hfs)).mpr h
  exact hperm.eq_of_pairwise (fun a b _ _ hab hba => absurd (lt_trans hab hba) (lt_irrefl _))
    hes hfs

theorem ext_get {m n : SortedMap κ α} (h : ∀ k, m.get k = n.get k) : m = n := by
  obtain ⟨es, hes⟩ := m
  obtain ⟨fs, hfs⟩ := n
  have hmem : ∀ e, e ∈ es ↔ e ∈ fs := by
    rintro ⟨k, v⟩
    have hk := h k
    rw [← get_eq_some_iff ⟨es, hes⟩, ← get_eq_some_iff ⟨fs, hfs⟩, hk]
  have := eq_of_mem_iff hes hfs hmem
  subst this
  rfl

theorem mem_range (m : SortedMap κ α) (lo : κ) (hi : Option κ) (e : κ × α) :
    e ∈ m.range lo hi ↔ m.get e.1 = some e.2 ∧ lo ≤ e.1 ∧ ∀ h ∈ hi, e.1 < h := by
  rw [get_eq_some_iff, range, List.mem_filter]
  cases hi with
  | none => simp
  | some h => simp

theorem range_sorted (m : SortedMap κ α) (lo : κ) (hi : Option κ) :
    (m.range lo hi).Pairwise (fun a b => a.1 < b.1) :=
  m.sorted.filter _

/-- A scan sees nothing of what lies outside its bounds. -/
theorem range_congr {m n : SortedMap κ α} {lo : κ} {hi : Option κ}
    (h : ∀ k, lo ≤ k → (∀ u ∈ hi, k < u) → m.get k = n.get k) :
    m.range lo hi = n.range lo hi := by
  refine eq_of_mem_iff (m.range_sorted lo hi) (n.range_sorted lo hi) ?_
  intro e
  rw [mem_range, mem_range]
  constructor
  · rintro ⟨hg, hlo, hhi⟩
    exact ⟨(h e.1 hlo hhi) ▸ hg, hlo, hhi⟩
  · rintro ⟨hg, hlo, hhi⟩
    exact ⟨(h e.1 hlo hhi).symm ▸ hg, hlo, hhi⟩

/-- Behind the entry at index `m` an increasing list holds exactly its larger keys. -/
theorem drop_succ_eq_filter {es : List (κ × α)} (hs : es.Pairwise (fun a b => a.1 < b.1))
    {m : Nat} {e : κ × α} (h : es[m]? = some e) :
    es.drop (m + 1) = es.filter (fun e' => decide (e.1 < e'.1)) := by
  obtain ⟨hm, he⟩ := List.getElem?_eq_some_iff.mp h
  have hlt : ∀ (i j : Nat) (hi : i < es.length) (hj : j < es.length), i < j →
      es[i].1 < es[j].1 := fun i j hi hj hij => List.pairwise_iff_getElem.mp hs i j hi hj hij
  have hfront : (es.take (m + 1)).filter (fun e' => decide (e.1 < e'.1)) = [] := by
    refine List.filter_eq_nil_iff.mpr (fun e' he' => ?_)
    obtain ⟨i, hi, rfl⟩ := List.mem_iff_getElem.mp he'
    rw [List.length_take] at hi
    rw [List.getElem_take, decide_eq_true_iff, not_lt, ← he]
    rcases Nat.lt_or_ge i m with him | him
    · exact le_of_lt (hlt i m (by omega) hm him)
    · have : i = m := by omega
      subst this
      exact le_refl _
  have hback : (es.drop (m + 1)).filter (fun e' => decide (e.1 < e'.1)) = es.drop (m + 1) := by
    refine List.filter_eq_self.mpr (fun e' he' => ?_)
    obtain ⟨i, hi, rfl⟩ := List.mem_iff_getElem.mp he'
    rw [List.length_drop] at hi
    rw [List.getElem_drop, decide_eq_true_iff, ← he]
    exact hlt m (m + 1 + i) hm (by omega) (by omega)
  calc es.drop (m + 1)
      = (es.take (m + 1)).filter (fun e' => decide (e.1 < e'.1))
          ++ (es.drop (m + 1)).filter (fun e' => decide (e.1 < e'.1)) := by
        rw [hfront, hback, List.nil_append]
    _ = es.filter (fun e' => decide (e.1 < e'.1)) := by
        rw [← List.filter_append, List.take_append_drop]

/-- The map binding the listed pairs, a later pair winning. -/
def ofList (es : List (κ × α)) : SortedMap κ α :=
  es.foldl (fun m e => m.insert e.1 e.2) empty

/-- The bindings of `n` over those of `m`. -/
def extend (m n : SortedMap κ α) : SortedMap κ α :=
  n.entries.foldl (fun m e => m.insert e.1 e.2) m

/-! ## Parts and totals -/

/-- The bindings whose key passes. -/
def restrict (m : SortedMap κ α) (p : κ → Bool) : SortedMap κ α :=
  ⟨m.entries.filter (fun e => p e.1), m.sorted.filter _⟩

theorem get_restrict (m : SortedMap κ α) (p : κ → Bool) (k : κ) :
    (m.restrict p).get k = if p k then m.get k else none := by
  ext w
  rw [get_eq_some_iff]
  change (k, w) ∈ m.entries.filter _ ↔ _
  rw [List.mem_filter]
  by_cases h : p k
  · simp [h, get_eq_some_iff]
  · simp [h]

/-- A value summed over the bindings. -/
def total {M : Type} [AddCommMonoid M] (f : κ → α → M) (m : SortedMap κ α) : M :=
  (m.entries.map fun e => f e.1 e.2).sum

section

variable [DecidableEq κ]

theorem insert_perm (m : SortedMap κ α) (k : κ) (v : α) :
    (m.insert k v).entries.Perm ((k, v) :: (m.erase k).entries) := by
  have irr : ∀ {l : List (κ × α)}, l.Pairwise (fun a b => a.1 < b.1) → l.Nodup :=
    fun hl => hl.imp (fun hab heq => absurd (congrArg Prod.fst heq) (ne_of_lt hab))
  have hmem : ∀ e, e ∈ (m.erase k).entries ↔ e ∈ m.entries ∧ e.1 ≠ k := by
    intro e
    change e ∈ m.entries.filter _ ↔ _
    simp [List.mem_filter]
  refine (List.perm_ext_iff_of_nodup (irr (m.insert k v).sorted) ?_).mpr ?_
  · exact List.nodup_cons.mpr ⟨fun h => ((hmem _).mp h).2 rfl, irr (m.erase k).sorted⟩
  · intro e
    rw [List.mem_cons, hmem]
    exact mem_insertEntry m.sorted

theorem total_insert {M : Type} [AddCommMonoid M] (f : κ → α → M) (m : SortedMap κ α)
    (k : κ) (v : α) : total f (m.insert k v) = f k v + total f (m.erase k) := by
  have hperm := (m.insert_perm k v).map fun e => f e.1 e.2
  unfold total
  rw [hperm.sum_eq, List.map_cons, List.sum_cons]

/-- A total is one binding's share and the rest. -/
theorem total_of_get {M : Type} [AddCommMonoid M] (f : κ → α → M) {m : SortedMap κ α}
    {k : κ} {v : α} (h : m.get k = some v) : total f m = f k v + total f (m.erase k) := by
  have hsame : m.insert k v = m := by
    refine ext_get fun k' => ?_
    by_cases hk : k' = k
    · rw [hk, get_insert_self, h]
    · rw [get_insert_of_ne m v hk]
  rw [← total_insert f m k v, hsame]

theorem erase_of_get_none {m : SortedMap κ α} {k : κ} (h : m.get k = none) : m.erase k = m := by
  refine ext_get fun k' => ?_
  by_cases hk : k' = k
  · rw [hk, get_erase_self, h]
  · rw [get_erase_of_ne m hk]

end

/-- A key above all others goes to the end. -/
theorem entries_insert_last {m : SortedMap κ α} {k : κ} (h : ∀ e ∈ m.entries, e.1 < k) (v : α) :
    (m.insert k v).entries = m.entries ++ [(k, v)] := by
  have hinsert : ∀ es : List (κ × α), (∀ e ∈ es, e.1 < k) → insertEntry k v es = es ++ [(k, v)] := by
    intro es hes
    induction es with
    | nil => rfl
    | cons e es ih =>
      have hlt := hes e (by simp)
      have hrest := ih fun d hd => hes d (by simp [hd])
      rw [insertEntry, if_neg (not_lt_of_gt hlt), if_neg (ne_of_lt hlt), hrest]
      rfl
  exact hinsert m.entries h

/-- The only binding is replaced. -/
theorem entries_insert_single {m : SortedMap κ α} {k : κ} {v : α} (h : m.entries = [(k, v)])
    (v' : α) : (m.insert k v').entries = [(k, v')] := by
  show insertEntry k v' m.entries = _
  rw [h, insertEntry, if_neg (lt_irrefl k), if_pos rfl]

theorem entries_of_keys {m : SortedMap κ α} {k : κ} (h : m.entries.map Prod.fst = [k]) :
    ∃ v, m.entries = [(k, v)] := by
  obtain ⟨e, hentries, hkey⟩ := List.map_eq_singleton_iff.mp h
  exact ⟨e.2, by rw [hentries, ← hkey]⟩

/-- The only binding is removed. -/
theorem entries_erase_single {m : SortedMap κ α} {k : κ} {v : α} (h : m.entries = [(k, v)]) :
    (m.erase k).entries = [] := by
  show m.entries.filter _ = _
  rw [h]
  simp

/-- What a walk over the bindings collects, when only one key has anything. -/
theorem flatMap_single {β : Type} (m : SortedMap κ α) {k : κ} {f : κ → List β}
    (hother : ∀ e ∈ m.entries, e.1 ≠ k → f e.1 = []) (hnone : m.get k = none → f k = []) :
    m.entries.flatMap (fun e => f e.1) = f k := by
  have hwalk : ∀ es : List (κ × α), es.Pairwise (fun a b => a.1 < b.1) →
      (∀ e ∈ es, e.1 ≠ k → f e.1 = []) →
      es.flatMap (fun e => f e.1) = if (lookup k es).isSome then f k else [] := by
    intro es hs hes
    induction es with
    | nil => rfl
    | cons e es ih =>
      obtain ⟨hlt, hs⟩ := List.pairwise_cons.mp hs
      have hrest := ih hs fun d hd => hes d (by simp [hd])
      rw [List.flatMap_cons, hrest]
      by_cases hk : e.1 = k
      · -- the other keys are larger
        have hnone : lookup k es = none := lookup_eq_none_of_lt fun d hd => hk ▸ hlt d hd
        simp [lookup, hk, hnone]
      · rw [hes e (by simp) hk, List.nil_append]
        simp [lookup, hk]
  rw [hwalk m.entries m.sorted hother]
  cases hget : m.get k with
  | none => rw [show lookup k m.entries = none from hget, hnone hget]; rfl
  | some a => rw [show lookup k m.entries = some a from hget]; rfl

end SortedMap

end Okm.Lib
