import Okm.Model.SideWrites

/-!
# A cache that is not behind

The handles that keep a vocabulary cache beside their store allocate through it call
after call. What they rely on is that the cache knows nothing the store does not hold:
its next id is the length of the list, and what it remembers stands in the list
(`CacheSound`). One call of `id_for` keeps that and appends at most the label it was
asked for (`idFor_sound`); the probes answer what the list says (`idGet_sound`,
`nameFor_sound`).
-/

namespace Okm.Model

open Lib VirtualStorage

/-- The faces denote the list, and the cache knows nothing else. -/
structure CacheSound (w : VocabId) (faces : VocabFaces) (header : Bytes) (cache : VocabCache)
    (f : Reads) (labels : List String) : Prop where
  encodes : Encodes w faces header f labels
  faces_eq : cache.faces = faces
  next : ∀ n ∈ cache.nextId, n = labels.length
  names : ∀ label id, cache.byName.lookup label = some id → labels[id]? = some label
  ids : ∀ id label, cache.byId.lookup id = some label → labels[id]? = some label

/-- The slots of a vocabulary. -/
def VocabFaces.Slots (faces : VocabFaces) (s : Slot) : Prop :=
  s = faces.idSlot ∨ s = faces.nameSlot

namespace CacheSound

variable {w : VocabId} {faces : VocabFaces} {header : Bytes} {cache : VocabCache}
  {f f' : Reads} {labels : List String}

/-- A cache that knows nothing is sound. -/
theorem fresh (h : Encodes w faces header f labels) :
    CacheSound w faces header { faces } f labels where
  encodes := h
  faces_eq := rfl
  next n hn := by cases hn
  names label id h := by cases h
  ids id label h := by cases h

/-- Writes under other slots are no business of the cache. -/
theorem frame {P : Slot → Prop} (h : CacheSound w faces header cache f labels)
    (honly : OnlyUnder header P f f') (hP : ∀ s, faces.Slots s → ¬ P s) :
    CacheSound w faces header cache f' labels where
  encodes := h.encodes.congr (fun suffix => honly.at_slot (hP _ (Or.inl rfl)) suffix)
    (fun suffix => honly.at_slot (hP _ (Or.inr rfl)) suffix)
  faces_eq := h.faces_eq
  next := h.next
  names := h.names
  ids := h.ids

/-- What stands in the list may be remembered. -/
theorem remember (h : CacheSound w faces header cache f labels) {id : Nat} {label : String}
    (hl : labels[id]? = some label) :
    CacheSound w faces header (cache.remember id label) f labels where
  encodes := h.encodes
  faces_eq := h.faces_eq
  next := h.next
  names l i hlook := by
    rw [VocabCache.remember, List.lookup_cons] at hlook
    by_cases heq : l = label
    · subst heq
      simp only [beq_self_eq_true] at hlook
      rw [← Option.some.inj hlook]
      exact hl
    · simp only [beq_eq_false_iff_ne.mpr heq] at hlook
      exact h.names l i hlook
  ids i l hlook := by
    rw [VocabCache.remember, List.lookup_cons] at hlook
    by_cases heq : i = id
    · subst heq
      simp only [beq_self_eq_true] at hlook
      rw [← Option.some.inj hlook]
      exact hl
    · simp only [beq_eq_false_iff_ne.mpr heq] at hlook
      exact h.ids i l hlook

end CacheSound

section

variable {σ : Type} [LawfulStorage σ] {w : VocabId} {faces : VocabFaces} {header : Bytes}
  {cache : VocabCache} {s : σ} {labels : List String} {label : String}

/-- **One call of `id_for`** by a sound cache: the label is found, appended, or refused at
the end of the width, and the cache stays sound. -/
theorem idFor_sound (h : CacheSound w faces header cache (LawfulStorage.read s) labels)
    (label : String) :
    (∃ id cache', labels[id]? = some label ∧
      VocabCache.idFor w cache s header label = (.ok id, cache', s) ∧
      CacheSound w faces header cache' (LawfulStorage.read s) labels) ∨
    (label ∉ labels ∧ labels.length + 1 < 256 ^ w.width ∧ ∃ cache' s',
      VocabCache.idFor w cache s header label = (.ok labels.length, cache', s') ∧
      s' = (commitBatch s (VocabCache.allocation w faces header label labels.length
        (labels.length + 1))).2 ∧
      CacheSound w faces header cache' (LawfulStorage.read s') (labels ++ [label])) ∨
    (label ∉ labels ∧ labels.length + 1 = 256 ^ w.width ∧ ∃ cache',
      VocabCache.idFor w cache s header label
        = (.error (.vocabularyExhausted w.width ((labels.length + 1) % 2 ^ 128)), cache', s) ∧
      CacheSound w faces header cache' (LawfulStorage.read s) labels) := by
  obtain rfl := h.faces_eq
  have hspec := @idFor_spec w header σ _ cache s labels label h.encodes (fun _ => h.next)
  rcases hspec with
    ⟨id, hid, heq⟩ | ⟨hnew, hfits, s', heq, hs', henc⟩ | ⟨hnew, hfull, heq⟩
  · exact Or.inl ⟨id, _, hid, heq, h.remember hid⟩
  · refine Or.inr (Or.inl ⟨hnew, hfits, _, s', heq, hs', ?_⟩)
    have hlast : (labels ++ [label])[labels.length]? = some label := by simp
    -- the cache knows no more labels than the log, which grew at its end
    have hgrown : CacheSound w cache.faces header { cache with nextId := some (labels.length + 1) }
        (LawfulStorage.read s') (labels ++ [label]) :=
      { encodes := henc
        faces_eq := rfl
        next := by
          intro n hn
          obtain rfl := Option.some.inj hn
          rw [List.length_append, List.length_singleton]
        names := by
          intro l i hl
          have hold := h.names l i hl
          rw [List.getElem?_append_left (List.getElem?_eq_some_iff.mp hold).1, hold]
        ids := by
          intro i l hl
          have hold := h.ids i l hl
          rw [List.getElem?_append_left (List.getElem?_eq_some_iff.mp hold).1, hold] }
    exact hgrown.remember hlast
  · refine Or.inr (Or.inr ⟨hnew, hfull, _, heq, ?_⟩)
    exact
      { encodes := h.encodes
        faces_eq := rfl
        next := by
          intro n hn
          exact (Option.some.inj hn).symm
        names := h.names
        ids := h.ids }

/-- **Two caches over one list answer alike**: they give a label the same number and write
the same entries for it. -/
theorem idFor_both {cache' : VocabCache} {t : σ}
    (h : CacheSound w faces header cache (LawfulStorage.read s) labels)
    (h' : CacheSound w faces header cache' (LawfulStorage.read t) labels) (label : String) :
    ∃ (verdict : Except Error Nat) (next next' : VocabCache) (s' t' : σ) (labels' : List String)
      (ops : List (Op Bytes Bytes)),
      VocabCache.idFor w cache s header label = (verdict, next, s') ∧
      VocabCache.idFor w cache' t header label = (verdict, next', t') ∧
      CacheSound w faces header next (LawfulStorage.read s') labels' ∧
      CacheSound w faces header next' (LawfulStorage.read t') labels' ∧ labels <+: labels' ∧
      (∀ id, verdict = .ok id → labels'[id]? = some label) ∧
      LawfulStorage.read s' = written ops (LawfulStorage.read s) ∧
      LawfulStorage.read t' = written ops (LawfulStorage.read t) := by
  have hread : ∀ (r : σ) (ops : List (Op Bytes Bytes)),
      LawfulStorage.read (commitBatch r ⟨ops⟩).2 = written ops (LawfulStorage.read r) :=
    fun r ops => funext fun k => LawfulStorage.read_commit r ⟨ops⟩ k
  rcases idFor_sound h label with ⟨id, next, hid, heq, hnext⟩ |
    ⟨hnew, hfits, next, s', heq, hs', hnext⟩ | ⟨hnew, hfull, next, heq, hnext⟩
  · rcases idFor_sound h' label with ⟨id', next', hid', heq', hnext'⟩ |
      ⟨hnew', -⟩ | ⟨hnew', -⟩
    · have hlt := (List.getElem?_eq_some_iff.mp hid).1
      obtain rfl : id = id' := (List.getElem?_inj hlt h.encodes.nodup).mp (hid.trans hid'.symm)
      refine ⟨.ok id, next, next', s, t, labels, [], heq, heq', hnext, hnext',
        List.prefix_refl labels, fun i hi => ?_, rfl, rfl⟩
      obtain rfl := Except.ok.inj hi
      exact hid
    · exact absurd (List.mem_of_getElem? hid) hnew'
    · exact absurd (List.mem_of_getElem? hid) hnew'
  · rcases idFor_sound h' label with ⟨id', -, hid', -⟩ |
      ⟨-, -, next', t', heq', ht', hnext'⟩ | ⟨-, hfull', -⟩
    · exact absurd (List.mem_of_getElem? hid') hnew
    · subst hs' ht'
      refine ⟨.ok labels.length, next, next', _, _, labels ++ [label], _, heq, heq', hnext, hnext',
        List.prefix_append _ _, fun i hi => ?_, hread s _, hread t _⟩
      obtain rfl := Except.ok.inj hi
      simp
    · omega
  · rcases idFor_sound h' label with ⟨id', -, hid', -⟩ |
      ⟨-, hfits', -⟩ | ⟨-, -, next', heq', hnext'⟩
    · exact absurd (List.mem_of_getElem? hid') hnew
    · omega
    · exact ⟨_, next, next', s, t, labels, [], heq, heq', hnext, hnext', List.prefix_refl labels,
        fun i hi => (by cases hi), rfl, rfl⟩

/-- **A probe for a label** answers its place in the list, if it has one. -/
theorem idGet_sound (h : CacheSound w faces header cache (LawfulStorage.read s) labels)
    (label : String) :
    ∃ found cache', VocabCache.idGet w cache s header label = (.ok found, cache') ∧
      CacheSound w faces header cache' (LawfulStorage.read s) labels ∧
      (∀ id, found = some id → labels[id]? = some label) ∧ (found = none → label ∉ labels) := by
  unfold VocabCache.idGet
  cases hmemo : cache.byName.lookup label with
  | some id =>
    refine ⟨some id, cache, rfl, h, fun i hi => ?_, fun hnone => by cases hnone⟩
    obtain rfl := Option.some.inj hi
    exact h.names label id hmemo
  | none =>
    dsimp only
    rw [LawfulStorage.get_eq, h.faces_eq]
    by_cases hl : label ∈ labels
    · obtain ⟨id, hlt, hget⟩ := List.mem_iff_getElem.mp hl
      have hid : labels[id]? = some label := by rw [List.getElem?_eq_getElem hlt, hget]
      rw [h.encodes.name_of_getElem hid]
      dsimp only
      rw [Option.bind_some, VocabId.fromBe_toBe (h.encodes.index_lt hid)]
      refine ⟨some id, _, rfl, h.remember hid, fun i hi => ?_, fun hnone => by cases hnone⟩
      obtain rfl := Option.some.inj hi
      exact hid
    · rw [h.encodes.name_of_not_mem hl]
      dsimp only
      rw [Option.bind_none]
      exact ⟨none, cache, rfl, h, fun i hi => by (cases hi), fun _ => hl⟩

/-- **A probe for an id** answers what stands at its place. -/
theorem nameFor_sound (h : CacheSound w faces header cache (LawfulStorage.read s) labels)
    {id : Nat} (hid : id < 256 ^ w.width) :
    ∃ cache', VocabCache.nameFor w cache s header id = (.ok labels[id]?, cache') ∧
      CacheSound w faces header cache' (LawfulStorage.read s) labels := by
  unfold VocabCache.nameFor
  cases hmemo : cache.byId.lookup id with
  | some label => exact ⟨cache, by rw [h.ids id label hmemo], h⟩
  | none =>
    dsimp only
    rw [LawfulStorage.get_eq, h.faces_eq, h.encodes.id_eq hid]
    cases hl : labels[id]? with
    | none => exact ⟨cache, rfl, h⟩
    | some label =>
      rw [Option.map_some]
      dsimp only
      rw [Option.bind_some, strOfBytes_strBytes]
      exact ⟨_, rfl, h.remember hl⟩

end

end Okm.Model
