import Okm.Engine.Lawful
import Okm.Model.Vocab

/-!
# A vocabulary is an append-only list of labels

The abstract vocabulary is a list without repetitions: the id of a label is its
position, the cursor is the length, and allocating appends. `Encodes` says what
the faces of a store must hold to denote such a list, and `idFor_spec` that one
call of `id_for` either finds the label in the list, appends it, or is refused
because the width is full. It needs the cache not to be behind: the next id the
cache knows, if any, must be the length of the list.
-/

namespace Okm.Model

open Lib VirtualStorage

variable {w : VocabId} {faces : VocabFaces} {header : Bytes}

/-- The faces read by `read` denote the list `labels`. -/
structure Encodes (w : VocabId) (faces : VocabFaces) (header : Bytes)
    (read : Bytes → Option Bytes) (labels : List String) : Prop where
  nodup : labels.Nodup
  fits : labels.length < 256 ^ w.width
  cursor : read (VocabCache.cursorKey faces header)
    = if labels = [] then none else some (w.toBe labels.length)
  ids : ∀ suffix, suffix ≠ [] → read (faceKey header faces.idSlot suffix)
    = (w.fromBe suffix).bind fun id => labels[id]?.map strBytes
  names : ∀ suffix raw, read (faceKey header faces.nameSlot suffix) = some raw ↔
    ∃ (id : Nat) (label : String), labels[id]? = some label ∧ suffix = strBytes label ∧
      raw = w.toBe id

theorem VocabId.width_pos (w : VocabId) : 0 < w.width := by cases w <;> decide

@[simp] theorem VocabId.length_toBe (w : VocabId) (id : Nat) : (w.toBe id).length = w.width :=
  length_beBytes _ _

theorem VocabId.fromBe_toBe {w : VocabId} {id : Nat} (h : id < 256 ^ w.width) :
    w.fromBe (w.toBe id) = some id := by
  rw [fromBe, if_pos (w.length_toBe id), toBe, beNat_beBytes h]

theorem VocabId.toBe_fromBe {w : VocabId} {b : Bytes} {id : Nat} (h : w.fromBe b = some id) :
    w.toBe id = b ∧ id < 256 ^ w.width := by
  unfold fromBe at h
  split at h
  · rename_i hlen
    obtain rfl := Option.some.inj h
    rw [toBe, ← hlen]
    exact ⟨beBytes_beNat b, beNat_lt b⟩
  · simp at h

theorem VocabId.toBe_ne_nil (w : VocabId) (id : Nat) : w.toBe id ≠ [] := by
  intro h
  have hlen := w.length_toBe id
  rw [h] at hlen
  exact absurd hlen.symm (Nat.ne_of_gt w.width_pos)

namespace Encodes

variable {read : Bytes → Option Bytes} {labels : List String}

theorem index_lt (h : Encodes w faces header read labels) {id : Nat} {label : String}
    (hl : labels[id]? = some label) : id < 256 ^ w.width :=
  Nat.lt_trans (List.getElem?_eq_some_iff.mp hl).1 h.fits

/-- A label in the list is answered with its position. -/
theorem name_of_getElem (h : Encodes w faces header read labels) {id : Nat} {label : String}
    (hl : labels[id]? = some label) :
    read (VocabCache.nameKey faces header label) = some (w.toBe id) :=
  (h.names _ _).mpr ⟨id, label, hl, rfl, rfl⟩

/-- A label outside the list is not answered. -/
theorem name_of_not_mem (h : Encodes w faces header read labels) {label : String}
    (hl : label ∉ labels) : read (VocabCache.nameKey faces header label) = none := by
  cases hr : read (VocabCache.nameKey faces header label) with
  | none => rfl
  | some raw =>
    obtain ⟨id, label', hget, heq, -⟩ := (h.names _ raw).mp hr
    obtain rfl := strBytes_injective heq
    exact absurd (List.mem_of_getElem? hget) hl

theorem id_eq (h : Encodes w faces header read labels) {id : Nat} (hid : id < 256 ^ w.width) :
    read (VocabCache.idKey faces w header id) = labels[id]?.map strBytes := by
  have hids := h.ids (w.toBe id) (w.toBe_ne_nil id)
  rwa [VocabId.fromBe_toBe hid, Option.bind_some] at hids

/-- Two reads that answer the vocabulary's keys alike denote the same list. -/
theorem congr {read' : Bytes → Option Bytes} (h : Encodes w faces header read labels)
    (hid : ∀ suffix, read' (faceKey header faces.idSlot suffix)
      = read (faceKey header faces.idSlot suffix))
    (hname : ∀ suffix, read' (faceKey header faces.nameSlot suffix)
      = read (faceKey header faces.nameSlot suffix)) :
    Encodes w faces header read' labels where
  nodup := h.nodup
  fits := h.fits
  cursor := by rw [← h.cursor]; exact hid []
  ids suffix hs := by rw [hid, h.ids suffix hs]
  names suffix raw := by rw [hname, h.names suffix raw]

end Encodes

theorem encodes_empty {read : Bytes → Option Bytes}
    (hid : ∀ suffix, read (faceKey header faces.idSlot suffix) = none)
    (hname : ∀ suffix, read (faceKey header faces.nameSlot suffix) = none) :
    Encodes w faces header read [] where
  nodup := List.nodup_nil
  fits := Nat.pow_pos (by omega)
  cursor := by rw [if_pos rfl]; exact hid []
  ids suffix _ := by
    rw [hid]
    cases w.fromBe suffix <;> rfl
  names suffix raw := by simp [hname]

/-! ## Allocating appends -/

/-- What the batch of an allocation writes, key by key. -/
theorem pending_allocation (label : String) (id next : Nat) (k : Bytes) :
    pending (VocabCache.allocation w faces header label id next).ops k
      = if k = VocabCache.cursorKey faces header then some (some (w.toBe next))
        else if k = VocabCache.idKey faces w header id then some (some (strBytes label))
        else if k = VocabCache.nameKey faces header label then some (some (w.toBe id))
        else none := by
  have hsingle : pending [(VocabCache.nameKey faces header label, some (w.toBe id))] k
      = if VocabCache.nameKey faces header label = k then some (some (w.toBe id)) else none :=
    pending_concat [] _ k
  simp only [VocabCache.allocation, Batch.put, pending_concat, List.nil_append, hsingle,
    eq_comm (b := k)]

/-- **Allocating the next id appends the label.** -/
theorem Encodes.append {read read' : Bytes → Option Bytes} {labels : List String}
    (h : Encodes w faces header read labels) {label : String} (hnew : label ∉ labels)
    (hfits : labels.length + 1 < 256 ^ w.width)
    (hread : ∀ k, read' k = (pending (VocabCache.allocation w faces header label labels.length
      (labels.length + 1)).ops k).getD (read k)) :
    Encodes w faces header read' (labels ++ [label]) where
  nodup := by
    rw [List.nodup_append]
    refine ⟨h.nodup, List.nodup_singleton label, fun a ha b hb => ?_⟩
    rw [List.mem_singleton] at hb
    exact fun hab => hnew (hb ▸ hab ▸ ha)
  fits := by simpa using hfits
  cursor := by
    rw [hread, pending_allocation, if_pos rfl]
    simp
  ids suffix hs := by
    have hcur : faceKey header faces.idSlot suffix ≠ VocabCache.cursorKey faces header :=
      faceKey_ne_of_suffix hs
    have hname : faceKey header faces.idSlot suffix ≠ VocabCache.nameKey faces header label :=
      faceKey_ne_of_slot faces.distinct _ _
    rw [hread, pending_allocation, if_neg hcur, if_neg hname]
    by_cases hk : suffix = w.toBe labels.length
    · subst hk
      have hlt : labels.length < 256 ^ w.width := h.fits
      rw [VocabCache.idKey, if_pos rfl, VocabId.fromBe_toBe hlt]
      simp
    · have hid : faceKey header faces.idSlot suffix
          ≠ VocabCache.idKey faces w header labels.length := faceKey_ne_of_suffix hk
      rw [if_neg hid, Option.getD_none, h.ids suffix hs]
      cases hfrom : w.fromBe suffix with
      | none => rfl
      | some id =>
        -- the new position is the only one whose answer changes
        have hne : id ≠ labels.length := by
          intro heq
          exact hk (by rw [← heq, (VocabId.toBe_fromBe hfrom).1])
        rw [Option.bind_some, Option.bind_some]
        rcases Nat.lt_or_ge id labels.length with hlt | hge
        · rw [List.getElem?_append_left hlt]
        · rw [List.getElem?_eq_none hge, List.getElem?_eq_none (by simp; omega)]
  names suffix raw := by
    have hcur : faceKey header faces.nameSlot suffix ≠ VocabCache.cursorKey faces header :=
      faceKey_ne_of_slot (Ne.symm faces.distinct) _ _
    have hid : faceKey header faces.nameSlot suffix
        ≠ VocabCache.idKey faces w header labels.length :=
      faceKey_ne_of_slot (Ne.symm faces.distinct) _ _
    rw [hread, pending_allocation, if_neg hcur, if_neg hid]
    by_cases hk : suffix = strBytes label
    · subst hk
      rw [VocabCache.nameKey, if_pos rfl, Option.getD_some, Option.some.injEq]
      refine ⟨fun heq => ⟨labels.length, label, by simp, rfl, heq.symm⟩, fun hex => ?_⟩
      obtain ⟨id, label', hget, heq, rfl⟩ := hex
      obtain rfl := strBytes_injective heq
      rcases Nat.lt_or_ge id labels.length with hlt | hge
      · rw [List.getElem?_append_left hlt] at hget
        exact absurd (List.mem_of_getElem? hget) hnew
      · have hlen := (List.getElem?_eq_some_iff.mp hget).1
        simp only [List.length_append, List.length_singleton] at hlen
        have : id = labels.length := by omega
        rw [this]
    · have hname : faceKey header faces.nameSlot suffix ≠ VocabCache.nameKey faces header label :=
        faceKey_ne_of_suffix hk
      rw [if_neg hname, Option.getD_none, h.names suffix raw]
      refine ⟨fun hex => ?_, fun hex => ?_⟩
      · obtain ⟨id, label', hget, heq, hraw⟩ := hex
        have hlt := (List.getElem?_eq_some_iff.mp hget).1
        exact ⟨id, label', by rw [List.getElem?_append_left hlt, hget], heq, hraw⟩
      · obtain ⟨id, label', hget, heq, hraw⟩ := hex
        rcases Nat.lt_or_ge id labels.length with hlt | hge
        · rw [List.getElem?_append_left hlt] at hget
          exact ⟨id, label', hget, heq, hraw⟩
        · have hlast : label' = label := by
            have hmem := hget
            rw [List.getElem?_append_right hge] at hmem
            exact List.mem_singleton.mp (List.mem_of_getElem? hmem)
          exact absurd (hlast ▸ heq) hk

/-! ## One call of `id_for` -/

section

variable {σ : Type} [LawfulStorage σ]

/-- A cache that is not behind takes the length of the list. -/
theorem takeNext_eq {cache : VocabCache} {s : σ} {labels : List String}
    (h : Encodes w cache.faces header (LawfulStorage.read s) labels)
    (hn : ∀ n ∈ cache.nextId, n = labels.length) :
    VocabCache.takeNext w cache s header
      = .ok (labels.length, { cache with nextId := some labels.length }) := by
  unfold VocabCache.takeNext
  cases hc : cache.nextId with
  | some n =>
    obtain rfl := hn n hc
    obtain ⟨f, i, m, next⟩ := cache
    obtain rfl : next = _ := hc
    rfl
  | none =>
    dsimp only
    rw [LawfulStorage.get_eq, h.cursor]
    cases labels with
    | nil =>
      -- nothing stored yet: no cursor, and id zero is unbound
      have hzero : LawfulStorage.read s (VocabCache.idKey cache.faces w header 0)
          = ([] : List String)[0]?.map strBytes := h.id_eq (Nat.pow_pos (by omega))
      rw [LawfulStorage.get_eq, hzero]
      rfl
    | cons l ls =>
      have hfrom : w.fromBe (w.toBe (l :: ls).length) = some (l :: ls).length :=
        VocabId.fromBe_toBe h.fits
      simp only [reduceCtorEq, if_false, bind, Except.bind, Option.bind_some, hfrom]

/-- **One call of `id_for`**, by a cache that is not behind: the label is found,
appended, or refused at the end of the width. -/
theorem idFor_spec {cache : VocabCache} {s : σ} {labels : List String} {label : String}
    (h : Encodes w cache.faces header (LawfulStorage.read s) labels)
    (hn : label ∉ labels → ∀ n ∈ cache.nextId, n = labels.length) :
    (∃ id, labels[id]? = some label ∧
      VocabCache.idFor w cache s header label = (.ok id, cache.remember id label, s)) ∨
    (label ∉ labels ∧ labels.length + 1 < 256 ^ w.width ∧
      ∃ s', VocabCache.idFor w cache s header label = (.ok labels.length,
          ({ cache with nextId := some (labels.length + 1) }).remember labels.length label, s') ∧
        s' = (commitBatch s (VocabCache.allocation w cache.faces header label labels.length
          (labels.length + 1))).2 ∧
        Encodes w cache.faces header (LawfulStorage.read s') (labels ++ [label])) ∨
    (label ∉ labels ∧ labels.length + 1 = 256 ^ w.width ∧
      VocabCache.idFor w cache s header label
        = (.error (.vocabularyExhausted w.width ((labels.length + 1) % 2 ^ 128)),
          { cache with nextId := some labels.length }, s)) := by
  unfold VocabCache.idFor
  rw [LawfulStorage.get_eq]
  dsimp only
  by_cases hl : label ∈ labels
  · obtain ⟨id, hlt, hget⟩ := List.mem_iff_getElem.mp hl
    have hid : labels[id]? = some label := by rw [List.getElem?_eq_getElem hlt, hget]
    rw [h.name_of_getElem hid, Option.bind_some, VocabId.fromBe_toBe (h.index_lt hid)]
    exact Or.inl ⟨id, hid, rfl⟩
  · rw [h.name_of_not_mem hl, Option.bind_none, takeNext_eq h (hn hl)]
    dsimp only
    by_cases hfits : labels.length + 1 < 256 ^ w.width
    · have hsucc : w.succ labels.length = some (labels.length + 1) := if_pos hfits
      rw [hsucc]
      dsimp only
      have hok := LawfulStorage.commit_ok s (VocabCache.allocation w cache.faces header label
        labels.length (labels.length + 1))
      have hread := LawfulStorage.read_commit s (VocabCache.allocation w cache.faces header label
        labels.length (labels.length + 1))
      generalize commitBatch s (VocabCache.allocation w cache.faces header label labels.length
        (labels.length + 1)) = answer at hok hread ⊢
      obtain ⟨verdict, s'⟩ := answer
      obtain rfl : verdict = .ok () := hok
      exact Or.inr (Or.inl ⟨hl, hfits, s', rfl, rfl, h.append hl hfits hread⟩)
    · have hsucc : w.succ labels.length = none := if_neg hfits
      have hlt := h.fits
      rw [hsucc]
      exact Or.inr (Or.inr ⟨hl, by omega, rfl⟩)

end

end Okm.Model
