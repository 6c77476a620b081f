import Okm.Graph.Edge
import Okm.Model.PrefixScan

/-!
# Edges by a declared attribute

The model of `by_attr_face`, and what all five walks over an access method have in common.
The walk of a graph keeps the suffixes that are an edge id and nothing else. An edge has
its id for a key, so that is the equality scan of the face.
-/

namespace Okm.Model

open Lib VirtualStorage KeyEncode

variable {K R : Type} [KeyEncode K]

/-- `by_attr_face`. -/
def GraphEncode.byAttrFace {P σ : Type} [VirtualStorage σ] (g : GraphEncode P) (slot : Slot)
    (encoded : Bytes) : GraphVerb σ (List UInt64) :=
  look fun store => (scanSuffix store (faceKey g.ns slot encoded)).map fun suffixes =>
    suffixes.filterMap fun sfx =>
      if sfx.length = 8 then some (UInt64.ofNat (beNat sfx)) else none

/-- **Over a keyspace it answers the ids of the equality scan.** -/
theorem byAttrFace_eq {P : Type} (g : GraphEncode P) (face : KvIndex UInt64 P)
    (hwidth : face.keyPrefixWidth = 8) (s : Graph Keyspace) (probe : Bytes) :
    ∃ answer, scanIndexExact face s.store g.ns probe = .ok answer ∧
      g.byAttrFace face.slot probe s = (.ok (answer.map PrefixKey.decoded), s) := by
  have hscan : scanSuffix s.store (faceKey g.ns face.slot probe)
      = .ok (s.store.suffixes (faceKey g.ns face.slot probe)) := rfl
  have hlist : scanIndexExact face s.store g.ns probe
      = .ok ((s.store.suffixes (faceKey g.ns face.slot probe)).filterMap fun suffix =>
          if decide (suffix.length = face.keyPrefixWidth) then some (tailKey face suffix)
          else none) := rfl
  refine ⟨_, hlist, ?_⟩
  unfold GraphEncode.byAttrFace look
  dsimp only
  rw [hscan]
  simp only [Except.map, answer_ok, List.map_filterMap]
  refine congrArg (fun ids => (Except.ok ids, s)) (List.filterMap_congr fun suffix _ => ?_)
  by_cases hid : suffix.length = 8
  · have htail : (tailKey face suffix).decoded = UInt64.ofNat (beNat suffix) := by
      have hfull : face.keyPrefixWidth = keyLen UInt64 := hwidth
      unfold tailKey
      dsimp only
      rw [if_pos hfull, hwidth, hid]
      change UInt64.ofNat (beNat ((suffix.drop (8 - 8)).take 8)) = _
      rw [Nat.sub_self, List.drop_zero, List.take_of_length_le (by omega)]
    rw [if_pos hid, if_pos (by simpa [hwidth] using hid), Option.map_some, htail]
  · rw [if_neg hid, if_neg (by simpa [hwidth] using hid), Option.map_none]

/-- **When prefix and equality scans are exact.** Over a face that holds entries of rows,
for every probe: `scan_index` and `scan_index_exact` answer, entry by entry in key order,
the key tails of the entries whose segment starts with the probe or is the probe. All the
forms over a table agree with that if and only if no stored key between the probe and its
bound is shorter than the probe; the form over a graph always does. What is selected are
entries of rows, each with the tail of its row's key. -/
theorem fieldScans_exact {C P : Type} (doc : Document K R) (index : KvIndex K R)
    (decodeCovered : Bytes → C) (store : Keyspace) (probe : Bytes)
    (h : FaceDerived index doc.header store) :
    (PrefixScansExact doc index decodeCovered store probe ↔
      ProbeReaches index doc.header store probe) ∧
    scanIndex index store doc.header probe
      = .ok ((selected index doc.header store probe.isPrefixOf).map fun e => tailKey index e.1) ∧
    scanIndexExact index store doc.header probe
      = .ok ((selected index doc.header store (· = probe)).map fun e => tailKey index e.1) ∧
    (0 < index.keyPrefixWidth → scanCovered doc index decodeCovered store probe
      = .ok ((selected index doc.header store probe.isPrefixOf).map fun e =>
          (tailKey index e.1, decodeCovered e.2))) ∧
    (∀ test, (selected index doc.header store test).Sublist store.entries ∧
      ∀ e, (e ∈ selected index doc.header store test ↔ e ∈ store.entries ∧
        index.face doc.header <+: e.1 ∧ test (segmentOf index doc.header e.1) = true) ∧
      (e ∈ selected index doc.header store test → ∃ key document segment,
        index.admits document = true ∧ segment ∈ index.segments key document ∧
        test segment = true ∧
        e = (index.entryKeyWith doc.header key segment, index.entryValue key document) ∧
        tailKey index e.1 = index.keyTail key)) ∧
    ∀ (g : GraphEncode P) (face : KvIndex UInt64 P) (s : Graph Keyspace),
      face.keyPrefixWidth = 8 → ∃ answer, scanIndexExact face s.store g.ns probe = .ok answer ∧
        g.byAttrFace face.slot probe s = (.ok (answer.map PrefixKey.decoded), s) := by
  refine ⟨⟨fun hexact => (scanPrefixIter_eq_iff h).mp hexact.iter, fun hreaches => ?_⟩,
    scanIndex_eq h, scanIndexExact_eq h, fun hwidth => scanCovered_eq h (Or.inl hwidth),
    fun test => ⟨List.filter_sublist, fun e => ⟨mem_selected, h.selected_row⟩⟩,
    fun g face s hwidth => byAttrFace_eq g face hwidth s probe⟩
  exact ⟨scanIndex_eq h, scanIndexExact_eq h, scanCovered_eq h (Or.inr hreaches),
    (scanPrefixIter_eq_iff h).mpr hreaches⟩

/-- A consistent face holds entries of rows. -/
theorem FaceConsistent.derived {doc : Document K R} {index : KvIndex K R} {store : Keyspace}
    (h : FaceConsistent doc index store) : FaceDerived index doc.header store := by
  intro k v hface hget
  obtain ⟨key, raw, -, hpair⟩ := (h k v hface).mp hget
  exact ⟨key, doc.decodePayload raw, hpair⟩

/-- Two of three rows begin with "a", in whichever form they are asked for; one is "a". -/
theorem fieldScans_exact_threeRows :
    PrefixScansExact textDoc textIndex (fun value => value) threeRows [97] ∧
    scanIndexExact textIndex threeRows textDoc.header [97]
      = .ok ((selected textIndex textDoc.header threeRows (· = [97])).map fun e =>
          tailKey textIndex e.1) ∧
    selected textIndex textDoc.header threeRows [97].isPrefixOf
      = [([0, 7, 0x30, 0x01, 97, 1], []), ([0, 7, 0x30, 0x01, 97, 98, 2], [])] ∧
    selected textIndex textDoc.header threeRows (· = [97]) = [([0, 7, 0x30, 0x01, 97, 1], [])] := by
  obtain ⟨hforms, -, hexact, -⟩ := fieldScans_exact (P := Bytes) textDoc textIndex
    (fun value => value) threeRows [97] threeRows_consistent.derived
  exact ⟨hforms.mpr (probeReaches_of_last (q := []) (by decide)), hexact, by decide, by decide⟩

/-- The row with key 98 and the empty text, and its entry. -/
def emptyText : Keyspace :=
  SortedMap.ofList [([0, 7, 0, 98], []), ([0, 7, 0x30, 0x01, 98], [])]

theorem emptyText_derived : FaceDerived textIndex textDoc.header emptyText := by
  intro k v hface hget
  have hentries : emptyText.entries = [([0, 7, 0, 98], []), ([0, 7, 0x30, 0x01, 98], [])] := by
    decide
  rw [SortedMap.get_eq_some_iff, hentries] at hget
  rcases List.mem_cons.mp hget with heq | hmem
  · obtain ⟨rfl, -⟩ := Prod.mk.inj heq
    exact absurd hface (by decide)
  · obtain ⟨rfl, rfl⟩ := Prod.mk.inj (List.mem_singleton.mp hmem)
    exact ⟨98, [], by decide⟩

/-- A probe that ends in `0xFF` carries its bound past the entry of key 98: the lists find
nothing, the iterator is handed that entry and aborts on it. -/
theorem scanPrefixIter_carried_bound :
    FaceDerived textIndex textDoc.header emptyText ∧
    scanIndex textIndex emptyText textDoc.header [97, 0xFF] = .ok [] ∧
    selected textIndex textDoc.header emptyText (List.isPrefixOf [97, 0xFF]) = [] ∧
    scanPrefixIter textDoc textIndex emptyText [97, 0xFF] = [.error .slice] ∧
    ¬ PrefixScansExact textDoc textIndex (fun value => value) emptyText [97, 0xFF] := by
  have hnone : selected textIndex textDoc.header emptyText (List.isPrefixOf [97, 0xFF]) = [] := by
    decide
  have hpanic : scanPrefixIter textDoc textIndex emptyText [97, 0xFF] = [.error .slice] := by
    rfl
  refine ⟨emptyText_derived, by decide, hnone, hpanic, fun hexact => ?_⟩
  have hiter := hexact.iter
  rw [hpanic, hnone] at hiter
  exact absurd hiter (by simp)

end Okm.Model
