import Okm.Engine.ScanBounds
import Okm.Lib.TailCut
import Okm.Model.ScanRange

/-!
# Prefix and equality scans over an access method

The model of `scan_index`, `scan_index_exact`, `scan_covered` and `scan_prefix_iter`. All
four splice the probe behind the face and walk the keys that carry it. A probe that runs
past an entry's segment is answered by the bytes of the key tail behind it, so each walk
looks at the length that is left: less than a tail is no match, and exactly a tail is the
whole segment.

The first three walk keys that carry the probe, or cut what they are handed with care. The
iterator takes its bounds from `prefix_end` and cuts every key at the length of the probe.
A bound that carried holds keys shorter than the probe below it, and there the cut aborts.
-/

namespace Okm.Model

open Lib VirtualStorage KeyEncode

variable {K R : Type} [KeyEncode K]

section

variable {σ : Type} [VirtualStorage σ]

/-- `scan_index_filtered`: what is left behind the probe decides the match. -/
def scanIndexFiltered (index : KvIndex K R) (store : σ) (header encoded : Bytes) (exact : Bool) :
    Except Error (List (PrefixKey K)) :=
  (scanSuffix store (index.entryPrefix header encoded)).map fun suffixes =>
    suffixes.filterMap fun suffix =>
      let taken := index.keyPrefixWidth
      let matched : Bool := if exact then suffix.length = taken else taken ≤ suffix.length
      if matched then some (tailKey index suffix) else none

/-- `scan_index`. -/
def scanIndex (index : KvIndex K R) (store : σ) (header encoded : Bytes) :
    Except Error (List (PrefixKey K)) :=
  scanIndexFiltered index store header encoded false

/-- `scan_index_exact`. -/
def scanIndexExact (index : KvIndex K R) (store : σ) (header encoded : Bytes) :
    Except Error (List (PrefixKey K)) :=
  scanIndexFiltered index store header encoded true

/-- `scan_covered`, the covered fields decoded by `decodeCovered`. -/
def scanCovered {C : Type} (doc : Document K R) (index : KvIndex K R) (decodeCovered : Bytes → C)
    (store : σ) (encoded : Bytes) : Except Error (List (PrefixKey K × C)) :=
  (VocabCache.scanSuffixKv store (index.entryPrefix doc.header encoded)).map fun pairs =>
    pairs.filterMap fun pair =>
      if pair.1.length < index.keyPrefixWidth then none
      else some (tailKey index pair.1, decodeCovered pair.2)

/-- `scan_prefix_iter`. -/
def scanPrefixIter (doc : Document K R) (index : KvIndex K R) (store : σ) (probe : Bytes) :
    List (Except Panic (Except Error (PrefixKey K × Option R))) :=
  let b := index.entryPrefix doc.header [] ++ probe
  let e := prefixEnd b
  entryIter doc index store b.length (VirtualStorage.scanRangeIter store b e)

end

/-! ## What a probe means -/

/-- The entries of the face whose segment passes a test, in key order. -/
def selected (index : KvIndex K R) (header : Bytes) (store : Keyspace) (test : Bytes → Bool) :
    List (Bytes × Bytes) :=
  store.entries.filter fun e =>
    (index.face header).isPrefixOf e.1 && test (segmentOf index header e.1)

/-- The face holds entries of rows and nothing else. -/
def FaceDerived (index : KvIndex K R) (header : Bytes) (store : Keyspace) : Prop :=
  ∀ k v, index.face header <+: k → store.get k = some v →
    ∃ key document, (k, v) ∈ index.entryPairs header key document

/-- The key tail an entry of `key` decodes to. -/
def KvIndex.keyTail (index : KvIndex K R) (key : K) : PrefixKey K :=
  { decoded := if index.keyPrefixWidth = keyLen K then decode (index.keyPrefixBytes key)
      else decode (index.keyPrefixBytes key
        ++ List.replicate (keyLen K - index.keyPrefixWidth) 0x00)
    taken := index.keyPrefixWidth }

/-- **Every form of the scan finds what the probe means.** -/
structure PrefixScansExact {C : Type} (doc : Document K R) (index : KvIndex K R)
    (decodeCovered : Bytes → C) (store : Keyspace) (probe : Bytes) : Prop where
  list : scanIndex index store doc.header probe
    = .ok ((selected index doc.header store probe.isPrefixOf).map fun e => tailKey index e.1)
  exact : scanIndexExact index store doc.header probe
    = .ok ((selected index doc.header store (· = probe)).map fun e => tailKey index e.1)
  covered : scanCovered doc index decodeCovered store probe
    = .ok ((selected index doc.header store probe.isPrefixOf).map fun e =>
        (tailKey index e.1, decodeCovered e.2))
  iter : scanPrefixIter doc index store probe
    = (selected index doc.header store probe.isPrefixOf).map fun e =>
        .ok (.ok (hitOf doc index store e.1))

/-- **The condition for it**: no stored key between the probe and its bound is shorter than
the probe. -/
def ProbeReaches (index : KvIndex K R) (header : Bytes) (store : Keyspace) (probe : Bytes) :
    Prop :=
  ∀ k v, store.get k = some v → index.face header ++ probe ≤ k →
    (∀ e ∈ prefixEnd (index.face header ++ probe), k < e) →
    (index.face header ++ probe).length ≤ k.length

/-! ## The length argument -/

section

variable {index : KvIndex K R} {header probe : Bytes} {store : Keyspace}

/-- A derived entry has room for its key tail behind the face. -/
theorem FaceDerived.width_le (h : FaceDerived index header store) {k v : Bytes}
    (hface : index.face header <+: k) (hget : store.get k = some v) :
    (index.face header).length + index.keyPrefixWidth ≤ k.length := by
  obtain ⟨key, document, hpair⟩ := h k v hface hget
  obtain ⟨-, segment, -, heq⟩ := mem_entryPairs_iff.mp hpair
  obtain ⟨rfl, -⟩ := Prod.mk.inj heq
  rw [entryKeyWith_eq]
  simp only [List.length_append, index.length_keyPrefix]
  omega

/-- **A probe is matched by the segment exactly when a tail is left behind it.** -/
theorem carries_iff {k : Bytes}
    (hroom : index.face header <+: k →
      (index.face header).length + index.keyPrefixWidth ≤ k.length) :
    index.face header ++ probe <+: k ∧
        (index.face header ++ probe).length + index.keyPrefixWidth ≤ k.length ↔
      index.face header <+: k ∧ probe <+: segmentOf index header k :=
  Lib.carries_iff hroom

/-- Exactly a tail is left when the probe is the segment. -/
theorem consumes_iff {k : Bytes}
    (hroom : index.face header <+: k →
      (index.face header).length + index.keyPrefixWidth ≤ k.length) :
    index.face header ++ probe <+: k ∧
        k.length = (index.face header ++ probe).length + index.keyPrefixWidth ↔
      index.face header <+: k ∧ segmentOf index header k = probe :=
  Lib.consumes_iff hroom

/-- The tail is read from the end, so what is cut off in front of it does not matter. -/
theorem tailKey_drop {k : Bytes} {n : Nat} (h : n + index.keyPrefixWidth ≤ k.length) :
    tailKey index (k.drop n) = tailKey index k := by
  unfold tailKey
  rw [tail_drop h]

/-- An entry decodes to the key tail of its row. -/
theorem tailKey_entryKeyWith (key : K) (segment : Bytes) :
    tailKey index (index.entryKeyWith header key segment) = index.keyTail key := by
  have hcut : (index.entryKeyWith header key segment).drop
      ((index.entryKeyWith header key segment).length - index.keyPrefixWidth)
        = index.keyPrefixBytes key := by
    rw [entryKeyWith_eq, ← List.append_assoc]
    refine List.drop_left' ?_
    simp only [List.length_append, index.length_keyPrefix]
    omega
  unfold tailKey KvIndex.keyTail
  rw [hcut]

/-! ## Scans of a keyspace -/

/-- A walk that cuts, tests and decodes selects what the tests together select. -/
theorem filterMap_filter_eq {α β : Type} {p q sel : α → Bool} {f g : α → β} {l : List α}
    (hsel : ∀ a ∈ l, p a = true ∧ q a = true ↔ sel a = true)
    (heq : ∀ a ∈ l, sel a = true → f a = g a) :
    (l.filter p).filterMap (fun a => if q a then some (f a) else none) = (l.filter sel).map g := by
  rw [List.filterMap_filter, ← List.filterMap_eq_map, List.filterMap_filter]
  refine List.filterMap_congr fun a ha => ?_
  have hiff := hsel a ha
  cases hs : sel a with
  | true =>
    obtain ⟨hp, hq⟩ := hiff.mpr hs
    simp only [hp, hq, if_true, heq a ha hs, Function.comp_apply]
  | false =>
    cases hp : p a with
    | false => simp
    | true =>
      have hq : q a = false := Bool.eq_false_iff.mpr fun hq => by simp [hiff.mp ⟨hp, hq⟩] at hs
      simp [hq]

theorem scanSuffixKv_keyspace (store : Keyspace) (pfx : Bytes) :
    VocabCache.scanSuffixKv store pfx = .ok ((store.range pfx (prefixEnd pfx)).map fun e =>
      (e.1.drop (min pfx.length e.1.length), e.2)) := by
  have hiter : VirtualStorage.scanRangeIter store pfx (prefixEnd pfx)
      = (store.range pfx (prefixEnd pfx)).map .ok := rfl
  unfold VocabCache.scanSuffixKv
  rw [hiter, List.mapM_map]
  exact List.mapM_pure

/-- A selected entry is an entry of the store whose segment passes. -/
theorem mem_selected {test : Bytes → Bool} {e : Bytes × Bytes} :
    e ∈ selected index header store test ↔ e ∈ store.entries ∧
      index.face header <+: e.1 ∧ test (segmentOf index header e.1) = true := by
  unfold selected
  rw [List.mem_filter, Bool.and_eq_true, List.isPrefixOf_iff_prefix]

/-- What a selected entry says of the row it was derived from. -/
theorem FaceDerived.selected_row (h : FaceDerived index header store) {test : Bytes → Bool}
    {e : Bytes × Bytes} (he : e ∈ selected index header store test) :
    ∃ key document segment, index.admits document = true ∧
      segment ∈ index.segments key document ∧ test segment = true ∧
      e = (index.entryKeyWith header key segment, index.entryValue key document) ∧
      tailKey index e.1 = index.keyTail key := by
  obtain ⟨hmem, hface, htest⟩ := mem_selected.mp he
  obtain ⟨key, document, hpair⟩ := h e.1 e.2 hface ((SortedMap.get_eq_some_iff _ _ _).mpr hmem)
  obtain ⟨hadmits, segment, hsegment, heq⟩ := mem_entryPairs_iff.mp hpair
  have heq' : e = (index.entryKeyWith header key segment, index.entryValue key document) := heq
  subst heq'
  dsimp only at htest
  rw [segmentOf_entryKeyWith] at htest
  exact ⟨key, document, segment, hadmits, hsegment, htest, rfl, tailKey_entryKeyWith key segment⟩

theorem FaceDerived.room (h : FaceDerived index header store) {e : Bytes × Bytes}
    (he : e ∈ store.entries) : index.face header <+: e.1 →
      (index.face header).length + index.keyPrefixWidth ≤ e.1.length :=
  fun hface => h.width_le hface ((SortedMap.get_eq_some_iff _ _ _).mpr he)

/-- The list forms over a keyspace, for a test of what is left that means the same as the
test of the segment. -/
theorem scanIndexFiltered_eq {exact : Bool} {test : Bytes → Bool}
    (h : ∀ e ∈ store.entries,
      (index.face header ++ probe <+: e.1 ∧
        (if exact then (e.1.drop (index.face header ++ probe).length).length = index.keyPrefixWidth
          else index.keyPrefixWidth ≤ (e.1.drop (index.face header ++ probe).length).length)) ↔
      index.face header <+: e.1 ∧ test (segmentOf index header e.1) = true) :
    scanIndexFiltered index store header probe exact
      = .ok ((selected index header store test).map fun e => tailKey index e.1) := by
  have hface : index.entryPrefix header probe = index.face header ++ probe := by
    simp [KvIndex.face, KvIndex.entryPrefix, faceKey]
  have hscan : scanSuffix store (index.face header ++ probe)
      = .ok (store.suffixes (index.face header ++ probe)) := rfl
  unfold scanIndexFiltered
  rw [hface, hscan]
  unfold Keyspace.suffixes selected
  simp only [Except.map, List.filterMap_map]
  refine congrArg _ (filterMap_filter_eq (fun e he => ?_) (fun e he hsel => ?_))
  · rw [Bool.and_eq_true, List.isPrefixOf_iff_prefix, List.isPrefixOf_iff_prefix, ← h e he]
    cases exact with
    | true => simp
    | false => simp
  · rw [Bool.and_eq_true, List.isPrefixOf_iff_prefix, ← h e he] at hsel
    obtain ⟨hcarries, hleft⟩ := hsel
    have hle := hcarries.length_le
    rw [List.length_drop] at hleft
    refine tailKey_drop ?_
    cases exact with
    | true =>
      rw [if_pos rfl] at hleft
      omega
    | false =>
      rw [if_neg Bool.false_ne_true] at hleft
      omega

/-- `scan_index` finds the entries whose segment starts with the probe. -/
theorem scanIndex_eq (h : FaceDerived index header store) :
    scanIndex index store header probe
      = .ok ((selected index header store probe.isPrefixOf).map fun e => tailKey index e.1) := by
  refine scanIndexFiltered_eq fun e he => ?_
  rw [List.isPrefixOf_iff_prefix, ← carries_iff (h.room he)]
  refine and_congr_right fun hcarries => ?_
  have hle := hcarries.length_le
  rw [if_neg Bool.false_ne_true, List.length_drop]
  omega

/-- `scan_index_exact` finds those whose segment is the probe. -/
theorem scanIndexExact_eq (h : FaceDerived index header store) :
    scanIndexExact index store header probe
      = .ok ((selected index header store (· = probe)).map fun e => tailKey index e.1) := by
  refine scanIndexFiltered_eq fun e he => ?_
  rw [decide_eq_true_iff, ← consumes_iff (h.room he)]
  refine and_congr_right fun hcarries => ?_
  have hle := hcarries.length_le
  rw [if_pos rfl, List.length_drop]
  omega

/-! ## Walks bounded by `prefix_end` -/

/-- Between the probe and its bound lie the keys carrying it, and shorter ones. -/
theorem mem_range_prefixEnd_iff {b : Bytes} {e : Bytes × Bytes} :
    e ∈ store.range b (prefixEnd b) ∧ b.length ≤ e.1.length ↔ e ∈ store.entries ∧ b <+: e.1 := by
  rw [SortedMap.mem_range, SortedMap.get_eq_some_iff]
  constructor
  · intro h
    obtain ⟨⟨hmem, hlo, hhi⟩, hlen⟩ := h
    exact ⟨hmem, prefix_of_lt_prefixEnd hlo hhi hlen⟩
  · intro h
    obtain ⟨hmem, hcarries⟩ := h
    exact ⟨⟨hmem, prefix_le hcarries, fun u hu => lt_prefixEnd hu hcarries⟩, hcarries.length_le⟩

/-- **Long enough for the tail behind the probe**, a key in the range is selected. -/
theorem mem_range_selected_iff (h : FaceDerived index header store) {e : Bytes × Bytes} :
    e ∈ store.range (index.face header ++ probe) (prefixEnd (index.face header ++ probe)) ∧
        (index.face header ++ probe).length + index.keyPrefixWidth ≤ e.1.length ↔
      e ∈ selected index header store probe.isPrefixOf := by
  rw [mem_selected, List.isPrefixOf_iff_prefix]
  constructor
  · intro hin
    obtain ⟨hrange, hlen⟩ := hin
    obtain ⟨hmem, hcarries⟩ := mem_range_prefixEnd_iff.mp ⟨hrange, by omega⟩
    exact ⟨hmem, (carries_iff (h.room hmem)).mp ⟨hcarries, hlen⟩⟩
  · intro hsel
    obtain ⟨hmem, hsegment⟩ := hsel
    obtain ⟨hcarries, hlen⟩ := (carries_iff (h.room hmem)).mpr hsegment
    exact ⟨(mem_range_prefixEnd_iff.mpr ⟨hmem, hcarries⟩).1, hlen⟩

/-- Both lists ascend, so the range cut to the long keys is the selection. -/
theorem range_filter_eq_selected (h : FaceDerived index header store) :
    (store.range (index.face header ++ probe) (prefixEnd (index.face header ++ probe))).filter
        (fun e => (index.face header ++ probe).length + index.keyPrefixWidth ≤ e.1.length)
      = selected index header store probe.isPrefixOf := by
  refine SortedMap.eq_of_mem_iff ((store.range_sorted _ _).filter _) (store.sorted.filter _) ?_
  intro e
  rw [List.mem_filter, decide_eq_true_iff]
  exact mem_range_selected_iff h

/-- `scan_covered` selects the same entries, for any tail that has a width. -/
theorem scanCovered_eq {C : Type} {doc : Document K R} {decodeCovered : Bytes → C}
    (h : FaceDerived index doc.header store)
    (hwide : 0 < index.keyPrefixWidth ∨ ProbeReaches index doc.header store probe) :
    scanCovered doc index decodeCovered store probe
      = .ok ((selected index doc.header store probe.isPrefixOf).map fun e =>
          (tailKey index e.1, decodeCovered e.2)) := by
  have hface : index.entryPrefix doc.header probe = index.face doc.header ++ probe := by
    simp [KvIndex.face, KvIndex.entryPrefix, faceKey]
  unfold scanCovered
  rw [hface, scanSuffixKv_keyspace, ← range_filter_eq_selected h]
  simp only [Except.map, List.filterMap_map, Except.ok.injEq]
  rw [← List.filterMap_eq_map, List.filterMap_filter]
  refine List.filterMap_congr fun e he => ?_
  obtain ⟨hget, hlo, hhi⟩ := (SortedMap.mem_range _ _ _ _).mp he
  have hcut : (e.1.drop (min (index.face doc.header ++ probe).length e.1.length)).length
      = e.1.length - (index.face doc.header ++ probe).length := by
    rw [List.length_drop]
    omega
  simp only [Function.comp_apply, hcut]
  by_cases hlong : (index.face doc.header ++ probe).length + index.keyPrefixWidth ≤ e.1.length
  · have hmin : min (index.face doc.header ++ probe).length e.1.length
        = (index.face doc.header ++ probe).length := by omega
    rw [if_neg (by omega), if_pos (by simpa using hlong), hmin, tailKey_drop hlong]
  · -- with nothing left behind the probe, only a tail of no width would pass
    have hshort : e.1.length - (index.face doc.header ++ probe).length < index.keyPrefixWidth := by
      rcases hwide with hwidth | hreaches
      · omega
      · have hlen := hreaches e.1 e.2 hget hlo hhi
        omega
    rw [if_pos hshort, if_neg (by simpa using hlong)]

/-- A key shorter than the cut ends the iterator in a panic. -/
theorem entryIter_slice {doc : Document K R} {n : Nat} {entries : List (Bytes × Bytes)}
    (h : ∃ e ∈ entries, e.1.length < n) :
    .error .slice ∈ entryIter doc index store n (entries.map .ok) := by
  induction entries with
  | nil => simp at h
  | cons e rest ih =>
    obtain ⟨full, v⟩ := e
    rw [List.map_cons, entryIter]
    by_cases hslice : full.length < n
    · rw [entryHit_slice hslice]
      exact List.mem_singleton_self _
    · have hrest : ∃ e ∈ rest, e.1.length < n := by
        obtain ⟨e, he, hlen⟩ := h
        rcases List.mem_cons.mp he with rfl | he
        · exact absurd hlen hslice
        · exact ⟨e, he, hlen⟩
      by_cases hkeep : n + index.keyPrefixWidth ≤ full.length
      · rw [entryHit_of_le hkeep]
        dsimp only
        rw [fetchBack_tailKey]
        exact List.mem_cons_of_mem _ (ih hrest)
      · rw [entryHit_of_lt (by omega) (by omega)]
        exact ih hrest

/-- **The iterator selects the same entries exactly when the probe reaches.** -/
theorem scanPrefixIter_eq_iff {doc : Document K R} (h : FaceDerived index doc.header store) :
    scanPrefixIter doc index store probe
        = (selected index doc.header store probe.isPrefixOf).map
            (fun e => .ok (.ok (hitOf doc index store e.1))) ↔
      ProbeReaches index doc.header store probe := by
  have hscan : scanPrefixIter doc index store probe
      = entryIter doc index store (index.face doc.header ++ probe).length
          ((store.range (index.face doc.header ++ probe)
            (prefixEnd (index.face doc.header ++ probe))).map .ok) := rfl
  rw [hscan]
  constructor
  · intro hexact k v hget hlo hhi
    by_contra hshort
    have hpanic := @entryIter_slice _ _ _ index store doc _ _
      ⟨(k, v), (SortedMap.mem_range _ _ _ _).mpr ⟨hget, hlo, hhi⟩, not_le.mp hshort⟩
    rw [hexact] at hpanic
    obtain ⟨e, -, he⟩ := List.mem_map.mp hpanic
    exact absurd he (by simp)
  · intro hreaches
    have hkept : yielded index (index.face doc.header ++ probe).length
        ((store.range (index.face doc.header ++ probe)
          (prefixEnd (index.face doc.header ++ probe))).map Prod.fst)
          = .ok ((selected index doc.header store probe.isPrefixOf).map Prod.fst) := by
      refine yielded_eq_ok_iff.mpr ⟨fun k hk => ?_, ?_⟩
      · obtain ⟨e, he, rfl⟩ := List.mem_map.mp hk
        obtain ⟨hget, hlo, hhi⟩ := (SortedMap.mem_range _ _ _ _).mp he
        exact hreaches e.1 e.2 hget hlo hhi
      · rw [List.filter_map, ← range_filter_eq_selected h]
        rfl
    rw [entryIter_eq hkept, List.map_map]
    rfl

/-- A probe that does not end in `0xFF` always reaches: its bound differs from it in the
last byte only. -/
theorem probeReaches_of_last {q : Bytes} {c : UInt8} (hc : c ≠ 0xFF) :
    ProbeReaches index header store (q ++ [c]) := by
  intro k v _ hlo hhi
  rw [← List.append_assoc] at hlo hhi ⊢
  exact length_le_of_lt_concat hc hlo hhi

end

end Okm.Model
