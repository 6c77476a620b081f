import Okm.Engine.Storage

/-!
# What a scan bound lets through

Two facts the rest of the development reads scans with. `prefixEnd` is a bound
past every key carrying the prefix, and it does not exist exactly for a prefix
of `0xFF` bytes, above which there is nothing else. `Keyspace.under` is the
keyspace one tenant sees: the keys carrying its prefix, with the prefix removed;
a scan whose bounds both carry the prefix reads that keyspace and nothing else.
-/

namespace Okm

open Lib

/-! ## `prefixEnd` -/

/-- `prefixEnd` from the front: the tail takes the carry first. -/
theorem prefixEnd_cons (b : UInt8) (p : Bytes) :
    prefixEnd (b :: p) = match prefixEnd p with
      | some e => some (b :: e)
      | none => if b < 0xFF then some ((b + 1) :: List.replicate p.length 0x00) else none := by
  -- the loop runs over the reversed bytes, so `b` is the last one it reaches
  have hloop : ∀ q : Bytes, prefixEndLoop (q ++ [b]) = match prefixEndLoop q with
      | some e => some (e ++ [b])
      | none => if b < 0xFF then some (List.replicate q.length 0x00 ++ [b + 1]) else none := by
    intro q
    induction q with
    | nil => by_cases hb : b < 0xFF <;> simp [prefixEndLoop, hb]
    | cons a q ih =>
      by_cases ha : a < 0xFF
      · simp [prefixEndLoop, ha]
      · rw [List.cons_append, prefixEndLoop, if_neg ha, ih, prefixEndLoop, if_neg ha]
        cases prefixEndLoop q with
        | some e => simp
        | none => by_cases hb : b < 0xFF <;> simp [hb, List.replicate_succ]
  rw [prefixEnd, List.reverse_cons, hloop, prefixEnd]
  cases prefixEndLoop p.reverse with
  | some e => simp
  | none => by_cases hb : b < 0xFF <;> simp [hb]

@[simp] theorem prefixEnd_nil : prefixEnd [] = none := rfl

theorem not_lt_ff {b : UInt8} : ¬ b < 0xFF ↔ b = 0xFF := by
  rw [UInt8.lt_iff_toNat_lt, ← UInt8.toNat_inj]
  have h := b.toNat_lt
  change ¬ b.toNat < 255 ↔ b.toNat = 255
  omega

theorem lt_succ_of_lt_ff {b : UInt8} (h : b < 0xFF) : b < b + 1 := by
  have hb : b.toNat < 255 := UInt8.lt_iff_toNat_lt.mp h
  rw [UInt8.lt_iff_toNat_lt, UInt8.toNat_add]
  change b.toNat < (b.toNat + 1) % 256
  omega

/-- There is no bound exactly for a prefix of `0xFF` bytes. -/
theorem prefixEnd_eq_none_iff (p : Bytes) : prefixEnd p = none ↔ ∀ b ∈ p, b = 0xFF := by
  induction p with
  | nil => simp
  | cons b p ih =>
    rw [prefixEnd_cons]
    cases hp : prefixEnd p with
    | some e =>
      have hne : ¬ ∀ x ∈ p, x = 0xFF := fun h => by simp [ih.mpr h] at hp
      simp only [reduceCtorEq, false_iff]
      exact fun h => hne (fun x hx => h x (by simp [hx]))
    | none =>
      have hall := ih.mp hp
      by_cases hb : b < 0xFF
      · simp only [if_pos hb, reduceCtorEq, false_iff]
        exact fun h => not_lt_ff.mpr (h b (by simp)) hb
      · simp only [if_neg hb, true_iff]
        intro x hx
        rcases List.mem_cons.mp hx with rfl | hx
        · exact not_lt_ff.mp hb
        · exact hall x hx

/-- **The bound is past every key carrying the prefix.** -/
theorem lt_prefixEnd {p e k : Bytes} (he : prefixEnd p = some e) (hk : p <+: k) : k < e := by
  obtain ⟨t, rfl⟩ := hk
  induction p generalizing e with
  | nil => simp at he
  | cons b p ih =>
    rw [prefixEnd_cons] at he
    cases hp : prefixEnd p with
    | some e' =>
      rw [hp] at he
      obtain rfl := Option.some.inj he
      exact List.Lex.cons (ih hp)
    | none =>
      rw [hp] at he
      by_cases hb : b < 0xFF
      · simp only [if_pos hb, Option.some.injEq] at he
        subst he
        exact List.Lex.rel (lt_succ_of_lt_ff hb)
      · simp [if_neg hb] at he

theorem length_prefixEnd {p e : Bytes} (he : prefixEnd p = some e) : e.length = p.length := by
  induction p generalizing e with
  | nil => simp at he
  | cons b p ih =>
    rw [prefixEnd_cons] at he
    cases hp : prefixEnd p with
    | some e' =>
      rw [hp] at he
      obtain rfl := Option.some.inj he
      rw [List.length_cons, List.length_cons, ih hp]
    | none =>
      rw [hp] at he
      by_cases hb : b < 0xFF
      · simp only [if_pos hb, Option.some.injEq] at he
        subst he
        simp
      · simp [if_neg hb] at he

theorem lt_prefixEnd_self {p e : Bytes} (he : prefixEnd p = some e) : p < e :=
  lt_prefixEnd he (List.prefix_refl p)

/-- The last byte takes the increment where it can. -/
theorem prefixEnd_concat {p : Bytes} {c : UInt8} (hc : c ≠ 0xFF) :
    prefixEnd (p ++ [c]) = some (p ++ [c + 1]) := by
  have hlt : c < 0xFF := by
    by_contra hnot
    exact hc (not_lt_ff.mp hnot)
  unfold prefixEnd
  rw [List.reverse_append]
  simp [prefixEndLoop, hlt]

/-- A key below such a bound is not shorter than the prefix. -/
theorem length_le_of_lt_concat {p k : Bytes} {c : UInt8} (hc : c ≠ 0xFF) (hlo : p ++ [c] ≤ k)
    (hhi : ∀ e ∈ prefixEnd (p ++ [c]), k < e) : (p ++ [c]).length ≤ k.length := by
  have hhi := hhi _ (prefixEnd_concat hc)
  obtain ⟨t, rfl⟩ := prefix_of_between hlo hhi
  have ht := (append_le_append_iff _ _ _).mp hlo
  cases t with
  | nil => exact absurd (lt_of_lt_of_le List.Lex.nil ht) (lt_irrefl _)
  | cons a t => simp

/-- Zeros are the least bytes of their length. -/
theorem not_lt_zeros {n : Nat} {k : Bytes} (h : n ≤ k.length) : ¬ k < List.replicate n 0x00 := by
  induction n generalizing k with
  | zero => exact not_lt_nil k
  | succ n ih =>
    cases k with
    | nil => simp at h
    | cons c k =>
      intro hlt
      rw [List.replicate_succ] at hlt
      rcases (cons_lt_cons_iff _ _ _ _).mp hlt with hc | ⟨-, hk⟩
      · have := UInt8.lt_iff_toNat_lt.mp hc
        simp at this
      · exact ih (by simpa using h) hk

/-- **A key below the bound carries the prefix, unless it is shorter.** A shorter one may be
what the bound starts with, where the carry left zeros behind. -/
theorem prefix_of_lt_prefixEnd {p k : Bytes} (hlo : p ≤ k) (hhi : ∀ e ∈ prefixEnd p, k < e)
    (hlen : p.length ≤ k.length) : p <+: k := by
  induction p generalizing k with
  | nil => exact List.nil_prefix
  | cons b p ih =>
    cases k with
    | nil => simp at hlen
    | cons c k =>
      have hlen' : p.length ≤ k.length := by simpa using hlen
      have hnot : ¬ (c < b ∨ c = b ∧ k < p) := fun h =>
        absurd ((cons_lt_cons_iff _ _ _ _).mpr h) (not_lt.mpr hlo)
      have hbc : b ≤ c := not_lt.mp fun h => hnot (Or.inl h)
      -- with the first bytes equal the rest is the same question about `p`
      have hstep : c = b → (∀ e ∈ prefixEnd p, k < e) → b :: p <+: c :: k := by
        intro hcb hrest
        have hpk : p ≤ k := not_lt.mp fun h => hnot (Or.inr ⟨hcb, h⟩)
        exact List.cons_prefix_cons.mpr ⟨hcb.symm, ih hpk hrest hlen'⟩
      rw [prefixEnd_cons] at hhi
      cases hp : prefixEnd p with
      | some e =>
        rw [hp] at hhi
        rcases (cons_lt_cons_iff _ _ _ _).mp (hhi _ rfl) with hc | ⟨hcb, hk⟩
        · exact absurd hc (not_lt.mpr hbc)
        · refine hstep hcb fun u hu => ?_
          obtain rfl := Option.some.inj (hp.symm.trans hu)
          exact hk
      | none =>
        have hrest : ∀ e ∈ prefixEnd p, k < e := by simp [hp]
        rw [hp] at hhi
        by_cases hb : b < 0xFF
        · rw [if_pos hb] at hhi
          rcases (cons_lt_cons_iff _ _ _ _).mp (hhi _ rfl) with hc | ⟨-, hk⟩
          · refine hstep (le_antisymm ?_ hbc) hrest
            have hb' := UInt8.lt_iff_toNat_lt.mp hb
            have hc' := UInt8.lt_iff_toNat_lt.mp hc
            rw [UInt8.toNat_add] at hc'
            change b.toNat < 255 at hb'
            change c.toNat < (b.toNat + 1) % 256 at hc'
            rw [UInt8.le_iff_toNat_le]
            omega
          · exact absurd hk (not_lt_zeros hlen')
        · have hff := not_lt_ff.mp hb
          refine hstep (le_antisymm ?_ hbc) hrest
          rw [hff, UInt8.le_iff_toNat_le]
          have := c.toNat_lt
          change c.toNat ≤ 255
          omega

/-- Nothing of a prefix's own length lies between it and its bound. -/
theorem prefixEnd_le {p q : Bytes} (hlen : q.length = p.length) (hlt : p < q) :
    ∃ e, prefixEnd p = some e ∧ e ≤ q := by
  induction p generalizing q with
  | nil =>
    have hq : q = [] := List.length_eq_zero_iff.mp hlen
    exact absurd (hq ▸ hlt) (lt_irrefl _)
  | cons b p ih =>
    cases q with
    | nil => simp at hlen
    | cons c q =>
      have hlen' : q.length = p.length := by simpa using hlen
      rw [prefixEnd_cons]
      rcases (cons_lt_cons_iff _ _ _ _).mp hlt with hbc | ⟨rfl, hpq⟩
      · cases hp : prefixEnd p with
        | some e =>
          exact ⟨b :: e, rfl, le_of_lt ((cons_lt_cons_iff _ _ _ _).mpr (Or.inl hbc))⟩
        | none =>
          have hb := UInt8.lt_iff_toNat_lt.mp hbc
          have hc := c.toNat_lt
          have hff : b < 0xFF := by
            rw [UInt8.lt_iff_toNat_lt]
            change b.toNat < 255
            omega
          refine ⟨_, if_pos hff, not_lt.mp fun h => ?_⟩
          -- past the bumped byte only fewer zeros could be smaller
          rcases (cons_lt_cons_iff _ _ _ _).mp h with hcb | ⟨-, hq⟩
          · have hcb := UInt8.lt_iff_toNat_lt.mp hcb
            rw [UInt8.toNat_add] at hcb
            change c.toNat < (b.toNat + 1) % 256 at hcb
            omega
          · exact not_lt_zeros (le_of_eq hlen'.symm) hq
      · obtain ⟨e, he, hle⟩ := ih hlen' hpq
        refine ⟨b :: e, by rw [he], not_lt.mp fun h => ?_⟩
        rcases (cons_lt_cons_iff _ _ _ _).mp h with hbb | ⟨-, hqe⟩
        · exact absurd hbb (lt_irrefl _)
        · exact absurd (lt_of_lt_of_le hqe hle) (lt_irrefl _)

/-- **The ranges of two prefixes of one length do not meet.** -/
theorem eq_of_mem_ranges {p q k : Bytes} (hlen : q.length = p.length) (hp : p ≤ k)
    (hpe : ∀ e ∈ prefixEnd p, k < e) (hq : q ≤ k) (hqe : ∀ e ∈ prefixEnd q, k < e) : p = q := by
  rcases lt_trichotomy p q with hlt | heq | hlt
  · obtain ⟨e, he, hle⟩ := prefixEnd_le hlen hlt
    exact absurd (lt_of_lt_of_le (hpe e he) (le_trans hle hq)) (lt_irrefl _)
  · exact heq
  · obtain ⟨e, he, hle⟩ := prefixEnd_le hlen.symm hlt
    exact absurd (lt_of_lt_of_le (hqe e he) (le_trans hle hp)) (lt_irrefl _)

/-! ## The keyspace under a prefix -/

theorem drop_lt_drop {p k l : Bytes} (hk : p <+: k) (hl : p <+: l) (h : k < l) :
    k.drop p.length < l.drop p.length := by
  obtain ⟨s, rfl⟩ := hk
  obtain ⟨t, rfl⟩ := hl
  simpa using h

/-- Cut the prefix off the key of an entry. -/
def stripEntry (p : Bytes) (e : Bytes × Bytes) : Bytes × Bytes := (e.1.drop p.length, e.2)

/-- What a tenant bound to `p` sees: its own keys, without the prefix. -/
def Keyspace.under (p : Bytes) (store : Keyspace) : Keyspace where
  entries := (store.entries.filter (fun e => p.isPrefixOf e.1)).map (stripEntry p)
  sorted := by
    rw [List.pairwise_map]
    refine (store.sorted.filter _).imp_of_mem ?_
    intro a b ha hb hab
    have hpa := List.isPrefixOf_iff_prefix.mp (List.mem_filter.mp ha).2
    have hpb := List.isPrefixOf_iff_prefix.mp (List.mem_filter.mp hb).2
    exact drop_lt_drop hpa hpb hab

namespace Keyspace

theorem mem_under {p : Bytes} {store : Keyspace} {e : Bytes × Bytes} :
    e ∈ (store.under p).entries ↔ (p ++ e.1, e.2) ∈ store.entries := by
  obtain ⟨k, v⟩ := e
  simp only [under, List.mem_map, List.mem_filter, List.isPrefixOf_iff_prefix]
  refine ⟨?_, fun h => ⟨(p ++ k, v), ⟨h, List.prefix_append p k⟩, by simp [stripEntry]⟩⟩
  intro h
  obtain ⟨⟨k', v'⟩, ⟨hmem, ⟨t, ht⟩⟩, heq⟩ := h
  simp only at ht
  subst ht
  simp only [stripEntry, List.drop_left, Prod.mk.injEq] at heq
  obtain ⟨rfl, rfl⟩ := heq
  exact hmem

theorem get_under (p : Bytes) (store : Keyspace) (k : Bytes) :
    (store.under p).get k = store.get (p ++ k) := by
  ext v
  rw [SortedMap.get_eq_some_iff, SortedMap.get_eq_some_iff, mem_under]

/-- The scans of two keyspaces that agree under a prefix agree below it too. -/
theorem under_eq_iff (p : Bytes) (a b : Keyspace) :
    a.under p = b.under p ↔ ∀ k, a.get (p ++ k) = b.get (p ++ k) := by
  refine ⟨fun h k => ?_, fun h => SortedMap.ext_get fun k => ?_⟩
  · rw [← get_under, ← get_under, h]
  · rw [get_under, get_under, h k]

/-- A physical scan all of whose keys carry the prefix is the tenant's own scan. -/
theorem range_under {p lo : Bytes} {hi : Option Bytes} {store : Keyspace}
    (h : ∀ e ∈ store.range (p ++ lo) (hi.map (p ++ ·)), p <+: e.1) :
    (store.range (p ++ lo) (hi.map (p ++ ·))).map (stripEntry p)
      = (store.under p).range lo hi := by
  refine SortedMap.eq_of_mem_iff ?_ (SortedMap.range_sorted _ _ _) ?_
  · rw [List.pairwise_map]
    refine (SortedMap.range_sorted _ _ _).imp_of_mem ?_
    exact fun ha hb hab => drop_lt_drop (h _ ha) (h _ hb) hab
  · intro e
    obtain ⟨k, v⟩ := e
    rw [SortedMap.mem_range, get_under]
    have hhi : (∀ u ∈ hi.map (p ++ ·), p ++ k < u) ↔ ∀ u ∈ hi, k < u := by
      cases hi with
      | none => simp
      | some u => simp
    refine ⟨fun hmem => ?_, fun hmem => ?_⟩
    · obtain ⟨⟨k', v'⟩, hk', heq⟩ := List.mem_map.mp hmem
      obtain ⟨t, ht⟩ := h _ hk'
      simp only at ht
      subst ht
      simp only [stripEntry, List.drop_left, Prod.mk.injEq] at heq
      obtain ⟨rfl, rfl⟩ := heq
      rw [SortedMap.mem_range] at hk'
      exact ⟨hk'.1, (append_le_append_iff p _ _).mp hk'.2.1, hhi.mp hk'.2.2⟩
    · refine List.mem_map.mpr ⟨(p ++ k, v), ?_, by simp [stripEntry]⟩
      rw [SortedMap.mem_range]
      exact ⟨hmem.1, (append_le_append_iff p _ _).mpr hmem.2.1, hhi.mpr hmem.2.2⟩

/-- **A scan bounded below and above inside the prefix stays inside it.** -/
theorem range_prefix {p lo hi start : Bytes} {store : Keyspace} (hlo : p ++ lo ≤ start) :
    ∀ e ∈ store.range start (some (p ++ hi)), p <+: e.1 := by
  intro e he
  rw [SortedMap.mem_range] at he
  exact prefix_of_between (le_trans hlo he.2.1) (he.2.2 _ rfl)

/-- A prefix scan finds the keys that carry the prefix. -/
theorem mem_suffixes {store : Keyspace} {pfx sfx : Bytes} :
    sfx ∈ store.suffixes pfx ↔ ∃ v, store.get (pfx ++ sfx) = some v := by
  unfold suffixes
  constructor
  · intro h
    obtain ⟨e, he, rfl⟩ := List.mem_map.mp h
    obtain ⟨hmem, hpfx⟩ := List.mem_filter.mp he
    obtain ⟨t, ht⟩ := List.isPrefixOf_iff_prefix.mp hpfx
    rw [← ht, List.drop_left, ht]
    exact ⟨e.2, (store.get_eq_some_iff e.1 e.2).mpr hmem⟩
  · intro h
    obtain ⟨v, hv⟩ := h
    have hmem := (store.get_eq_some_iff _ v).mp hv
    refine List.mem_map.mpr ⟨(pfx ++ sfx, v), List.mem_filter.mpr ⟨hmem, ?_⟩, List.drop_left⟩
    exact List.isPrefixOf_iff_prefix.mpr (List.prefix_append pfx sfx)

/-- A prefix scan reads only the keys that carry the prefix. -/
theorem suffixes_congr {a b : Keyspace} {pfx : Bytes}
    (h : ∀ sfx, a.get (pfx ++ sfx) = b.get (pfx ++ sfx)) : a.suffixes pfx = b.suffixes pfx := by
  have hunder : a.under pfx = b.under pfx := (under_eq_iff pfx a b).mpr h
  have hscan : ∀ c : Keyspace, c.suffixes pfx = (c.under pfx).entries.map Prod.fst := by
    intro c
    rw [under, List.map_map]
    rfl
  rw [hscan a, hscan b, hunder]

theorem nodup_suffixes (store : Keyspace) (pfx : Bytes) : (store.suffixes pfx).Nodup := by
  unfold suffixes
  refine List.Nodup.map_on ?_ ((List.Nodup.of_map _ store.nodup_keys).filter _)
  intro a ha b hb hab
  obtain ⟨hamem, hapfx⟩ := List.mem_filter.mp ha
  obtain ⟨hbmem, hbpfx⟩ := List.mem_filter.mp hb
  obtain ⟨s, hs⟩ := List.isPrefixOf_iff_prefix.mp hapfx
  obtain ⟨t, ht⟩ := List.isPrefixOf_iff_prefix.mp hbpfx
  rw [← hs, ← ht, List.drop_left, List.drop_left] at hab
  have hkey : a.1 = b.1 := by rw [← hs, ← ht, hab]
  exact List.inj_on_of_nodup_map store.nodup_keys hamem hbmem hkey

/-- The prefix scan of a tenant's key is its own prefix scan. -/
theorem suffixes_under (p k : Bytes) (store : Keyspace) :
    store.suffixes (p ++ k) = Keyspace.suffixes (store.under p) k := by
  unfold suffixes under
  rw [List.filter_map, List.map_map, List.filter_filter]
  have hpred : ∀ e : Bytes × Bytes, (p ++ k).isPrefixOf e.1
      = ((fun e => k.isPrefixOf e.1) (stripEntry p e) && p.isPrefixOf e.1) := by
    intro e
    rw [Bool.eq_iff_iff, Bool.and_eq_true]
    simp only [List.isPrefixOf_iff_prefix, stripEntry]
    refine ⟨fun h => ?_, fun h => ?_⟩
    · obtain ⟨t, ht⟩ := h
      rw [← ht, List.append_assoc]
      exact ⟨by simp, List.prefix_append _ _⟩
    · obtain ⟨hk, ⟨t, ht⟩⟩ := h
      rw [← ht, List.drop_left] at hk
      rw [← ht]
      exact (List.prefix_append_right_inj p).mpr hk
  have hfilter : store.entries.filter (fun e => (p ++ k).isPrefixOf e.1)
      = store.entries.filter
          (fun e => ((fun e => k.isPrefixOf e.1) ∘ stripEntry p) e && p.isPrefixOf e.1) := by
    exact List.filter_congr (fun e _ => hpred e)
  rw [hfilter]
  refine List.map_congr_left ?_
  intro e he
  simp only [Function.comp, stripEntry, List.drop_drop, List.length_append]

end Keyspace

end Okm
