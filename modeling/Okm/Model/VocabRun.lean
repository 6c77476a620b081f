import Okm.Model.VocabLog

/-!
# Runs of a vocabulary

Any number of caches allocate in one vocabulary, directly in the store or
through batches that are later committed or dropped whole. `VocabEvent` is one
such event. A batch that is dropped takes the caches used through it along.

What keeps the numbering sound is that an allocation sees everything allocated
before it: the cache must not remember a next id from before another cache's
allocation, and no other batch may hold unpublished allocations. `UpToDate` is
that condition; without the first half two labels end up under one id
(`stale_cache_rebinds`).
-/

namespace Okm.Model

open Lib VirtualStorage

/-- The store, the batches being built over it, the caches, and which caches
were used through which batch since it was opened. -/
structure VocabState where
  store : Keyspace
  batches : Nat → Batch
  caches : Nat → VocabCache
  usedBy : Nat → Nat → Bool

/-- Where a call writes: the store itself, or a batch over it. -/
inductive Target where
  | store
  | batch (b : Nat)
  deriving DecidableEq, Repr

/-- The pending writes a call through `t` sees. -/
def VocabState.pendingOps (st : VocabState) : Target → List (Op Bytes Bytes)
  | .store => []
  | .batch b => (st.batches b).ops

/-- What a call through `t` reads. -/
def VocabState.view (st : VocabState) (t : Target) : Bytes → Option Bytes :=
  readThrough st.store (st.pendingOps t)

/-- One call of `id_for` by cache `c`, on the store or through a batch. -/
def VocabState.call (w : VocabId) (header : Bytes) (st : VocabState) (c : Nat) (t : Target)
    (label : String) : Except Error Nat × VocabState :=
  match t with
  | .store =>
    let (answer, cache, store) := VocabCache.idFor w (st.caches c) st.store header label
    (answer, { st with store, caches := Function.update st.caches c cache })
  | .batch b =>
    let (answer, cache, adapter) := VocabCache.idFor w (st.caches c)
      ({ store := st.store, batch := st.batches b } : BatchStore Keyspace) header label
    (answer, { st with
      batches := Function.update st.batches b adapter.batch
      caches := Function.update st.caches c cache
      usedBy := Function.update st.usedBy b (Function.update (st.usedBy b) c true) })

/-- Commit batch `b` whole. -/
def VocabState.commit (st : VocabState) (b : Nat) : VocabState :=
  { st with
    store := (commitBatch st.store (st.batches b)).2
    batches := Function.update st.batches b {}
    usedBy := Function.update st.usedBy b (fun _ => false) }

/-- Drop batch `b` whole; the caches used through it are dropped with it. -/
def VocabState.discard (st : VocabState) (b : Nat) : VocabState :=
  { st with
    batches := Function.update st.batches b {}
    caches := fun c => if st.usedBy b c then { faces := (st.caches c).faces } else st.caches c
    usedBy := Function.update st.usedBy b (fun _ => false) }

/-- Replace cache `c` by a fresh one. -/
def VocabState.renew (st : VocabState) (c : Nat) : VocabState :=
  { st with caches := Function.update st.caches c { faces := (st.caches c).faces } }

/-- One event in the life of a vocabulary. -/
inductive VocabEvent where
  | call (c : Nat) (t : Target) (label : String)
  | commit (b : Nat)
  | discard (b : Nat)
  | renew (c : Nat)

def VocabState.step (w : VocabId) (header : Bytes) (st : VocabState) : VocabEvent → VocabState
  | .call c t label => (st.call w header c t label).2
  | .commit b => st.commit b
  | .discard b => st.discard b
  | .renew c => st.renew c

/-- The cursor as a reader sees it; an empty vocabulary has none. -/
def cursorOf (w : VocabId) (faces : VocabFaces) (header : Bytes) (read : Bytes → Option Bytes) :
    Nat :=
  ((read (VocabCache.cursorKey faces header)).bind w.fromBe).getD 0

/-- The id a label is bound to. -/
def idOf (w : VocabId) (faces : VocabFaces) (header : Bytes) (read : Bytes → Option Bytes)
    (label : String) : Option Nat :=
  (read (VocabCache.nameKey faces header label)).bind w.fromBe

/-- The label an id is bound to. -/
def labelOf (w : VocabId) (faces : VocabFaces) (header : Bytes) (read : Bytes → Option Bytes)
    (id : Nat) : Option String :=
  (read (VocabCache.idKey faces w header id)).bind strOfBytes

/-- **The condition on an event**: an allocation is made by a cache whose next id
is not behind the cursor, while no other batch holds pending allocations. -/
def UpToDate (w : VocabId) (faces : VocabFaces) (header : Bytes) (st : VocabState) :
    VocabEvent → Prop
  | .call c t label => idOf w faces header (st.view t) label = none →
      (∀ n ∈ (st.caches c).nextId, n = cursorOf w faces header (st.view t)) ∧
      ∀ b, t ≠ .batch b → (st.batches b).ops = []
  | _ => True

/-- A run whose every event meets the condition. -/
inductive VocabRun (w : VocabId) (faces : VocabFaces) (header : Bytes) (st : VocabState) :
    VocabState → Prop where
  | refl : VocabRun w faces header st st
  | step {st' : VocabState} (run : VocabRun w faces header st st') (ev : VocabEvent)
      (guard : UpToDate w faces header st' ev) :
      VocabRun w faces header st (st'.step w header ev)

/-- Nothing allocated yet, no batch open, fresh caches over these faces. -/
structure VocabInit (faces : VocabFaces) (header : Bytes) (st : VocabState) : Prop where
  idFace : ∀ suffix, st.store.get (faceKey header faces.idSlot suffix) = none
  nameFace : ∀ suffix, st.store.get (faceKey header faces.nameSlot suffix) = none
  batches : ∀ b, (st.batches b).ops = []
  caches : ∀ c, (st.caches c).faces = faces

/-! ## The invariant -/

section

variable {w : VocabId} {faces : VocabFaces} {header : Bytes}

/-- At most one batch holds allocations, and through it the vocabulary reads as
an extension of what the store holds. -/
structure VocabInv (w : VocabId) (faces : VocabFaces) (header : Bytes) (st : VocabState)
    (labels : List String) : Prop where
  store : Encodes w faces header st.store.get labels
  view : ∀ b, ∃ more, Encodes w faces header (st.view (.batch b)) (labels ++ more)
  single : ∀ b b', (st.batches b).ops ≠ [] → (st.batches b').ops ≠ [] → b = b'
  faces : ∀ c, (st.caches c).faces = faces

theorem view_of_empty {st : VocabState} {b : Nat} (h : (st.batches b).ops = []) :
    st.view (.batch b) = st.store.get := by
  funext k
  simp only [VocabState.view, VocabState.pendingOps, h, readThrough, pending_nil, Option.getD_none]

theorem vocabInv_init {st : VocabState} (h : VocabInit faces header st) :
    VocabInv w faces header st [] where
  store := encodes_empty h.idFace h.nameFace
  view b := by
    rw [view_of_empty (h.batches b)]
    exact ⟨[], encodes_empty h.idFace h.nameFace⟩
  single b _ hb := absurd (h.batches b) hb
  faces := h.caches

/-- The abstract list under a view decides what the readers see. -/
theorem Encodes.cursorOf_eq {read : Bytes → Option Bytes} {labels : List String}
    (h : Encodes w faces header read labels) : cursorOf w faces header read = labels.length := by
  unfold cursorOf
  rw [h.cursor]
  cases labels with
  | nil => rfl
  | cons l ls =>
    rw [if_neg (by simp), Option.bind_some, VocabId.fromBe_toBe h.fits]
    rfl

theorem Encodes.labelOf_eq {read : Bytes → Option Bytes} {labels : List String}
    (h : Encodes w faces header read labels) {id : Nat} (hid : id < 256 ^ w.width) :
    labelOf w faces header read id = labels[id]? := by
  unfold labelOf
  rw [h.id_eq hid]
  cases labels[id]? with
  | none => rfl
  | some label => exact strOfBytes_strBytes label

theorem Encodes.idOf_eq_some_iff {read : Bytes → Option Bytes} {labels : List String}
    (h : Encodes w faces header read labels) (label : String) (id : Nat) :
    idOf w faces header read label = some id ↔ labels[id]? = some label := by
  unfold idOf
  refine ⟨fun hid => ?_, fun hl => ?_⟩
  · cases hr : read (VocabCache.nameKey faces header label) with
    | none => simp [hr] at hid
    | some raw =>
      obtain ⟨id', label', hget, heq, rfl⟩ := (h.names _ raw).mp hr
      obtain rfl := strBytes_injective heq
      rw [hr, Option.bind_some, VocabId.fromBe_toBe (h.index_lt hget)] at hid
      rw [← Option.some.inj hid]
      exact hget
  · rw [h.name_of_getElem hl, Option.bind_some, VocabId.fromBe_toBe (h.index_lt hl)]

theorem Encodes.idOf_eq_none_iff {read : Bytes → Option Bytes} {labels : List String}
    (h : Encodes w faces header read labels) (label : String) :
    idOf w faces header read label = none ↔ label ∉ labels := by
  refine ⟨fun hnone hmem => ?_, fun hnot => ?_⟩
  · obtain ⟨id, hlt, hget⟩ := List.mem_iff_getElem.mp hmem
    have hl : labels[id]? = some label := by rw [List.getElem?_eq_getElem hlt, hget]
    rw [(h.idOf_eq_some_iff label id).mpr hl] at hnone
    simp at hnone
  · unfold idOf
    rw [h.name_of_not_mem hnot]
    rfl

theorem view_store (st : VocabState) : st.view .store = st.store.get := by
  funext k
  rfl

/-- An up-to-date cache is not behind the list its target denotes. -/
theorem not_behind {st : VocabState} {labels : List String} {c : Nat} {t : Target}
    {label : String} (h : Encodes w faces header (st.view t) labels)
    (guard : UpToDate w faces header st (.call c t label)) (hnew : label ∉ labels) :
    (∀ n ∈ (st.caches c).nextId, n = labels.length) ∧
      ∀ b, t ≠ .batch b → (st.batches b).ops = [] := by
  obtain ⟨hn, hb⟩ := guard ((h.idOf_eq_none_iff label).mpr hnew)
  exact ⟨fun n hmem => (hn n hmem).trans h.cursorOf_eq, hb⟩

theorem update_faces {st : VocabState} (hf : ∀ c, (st.caches c).faces = faces) {c : Nat}
    {cache : VocabCache} (hc : cache.faces = faces) (c' : Nat) :
    (Function.update st.caches c cache c').faces = faces := by
  by_cases h : c' = c
  · subst h
    rw [Function.update_self, hc]
  · rw [Function.update_of_ne h, hf]

/-- What a call through `t` answers and leaves, over the list its view denotes. -/
theorem call_spec {st : VocabState} {labels : List String} {c : Nat} {t : Target}
    {label : String} (h : Encodes w faces header (st.view t) labels)
    (hf : ∀ c, (st.caches c).faces = faces)
    (guard : UpToDate w faces header st (.call c t label)) :
    let answer := (st.call w header c t label).1
    let st' := (st.call w header c t label).2
    (∀ c', (st'.caches c').faces = faces) ∧
    ((∃ id, labels[id]? = some label ∧ answer = .ok id ∧ st'.store = st.store ∧
        st'.batches = st.batches) ∨
     (label ∉ labels ∧ labels.length + 1 < 256 ^ w.width ∧ answer = .ok labels.length ∧
        Encodes w faces header (st'.view t) (labels ++ [label]) ∧
        (∀ b, t ≠ .batch b → st'.batches b = st.batches b) ∧
        (∀ b, t = .batch b → st'.store = st.store)) ∨
     (label ∉ labels ∧ labels.length + 1 = 256 ^ w.width ∧
        answer = .error (.vocabularyExhausted w.width ((labels.length + 1) % 2 ^ 128)) ∧
        st'.store = st.store ∧ st'.batches = st.batches)) := by
  intro answer st'
  have hfaces := hf c
  cases t with
  | store =>
    -- the call reads the store itself
    have hread : Encodes w (st.caches c).faces header (LawfulStorage.read st.store) labels := by
      rw [view_store] at h
      rw [hfaces]
      exact h
    have hspec := @idFor_spec w header Keyspace _ (st.caches c) st.store labels label hread
      (fun hnew => (not_behind h guard hnew).1)
    rcases hspec with ⟨id, hid, heq⟩ | ⟨hnew, hfits, s', heq, -, henc⟩ | ⟨hnew, hfull, heq⟩
    · -- a label the listing has: only the cache remembers it
      have hcall : st.call w header c .store label = (.ok id, { st with
          caches := Function.update st.caches c ((st.caches c).remember id label) }) := by
        simp only [VocabState.call, heq]
      simp only [answer, st', hcall]
      exact ⟨update_faces hf hfaces, Or.inl ⟨id, hid, by simp⟩⟩
    · -- a new label goes behind the listing
      have hcall : st.call w header c .store label = (.ok labels.length, { st with
          store := s'
          caches := Function.update st.caches c (({ st.caches c with
            nextId := some (labels.length + 1) } : VocabCache).remember labels.length label) }) := by
        simp only [VocabState.call, heq]
      simp only [answer, st', hcall]
      rw [hfaces] at henc
      exact ⟨update_faces hf hfaces, Or.inr (Or.inl ⟨hnew, hfits, trivial, henc,
        fun _ _ => trivial, fun b hb => absurd hb (by simp)⟩)⟩
    · -- the last id has nothing behind it: refused
      have hcall : st.call w header c .store label
          = (.error (.vocabularyExhausted w.width ((labels.length + 1) % 2 ^ 128)), { st with
              caches := Function.update st.caches c { st.caches c with
                nextId := some labels.length } }) := by
        simp only [VocabState.call, heq]
      simp only [answer, st', hcall]
      exact ⟨update_faces hf hfaces, Or.inr (Or.inr ⟨hnew, hfull, by simp⟩)⟩
  | batch b =>
    -- the call reads the batch adapter, pending operations included
    have hread : Encodes w (st.caches c).faces header (LawfulStorage.read
        ({ store := st.store, batch := st.batches b } : BatchStore Keyspace)) labels := by
      rw [hfaces]
      exact h
    have hspec := @idFor_spec w header (BatchStore Keyspace) _ (st.caches c)
      { store := st.store, batch := st.batches b } labels label hread
      (fun hnew => (not_behind h guard hnew).1)
    rcases hspec with ⟨id, hid, heq⟩ | ⟨hnew, hfits, s', heq, hs', henc⟩ | ⟨hnew, hfull, heq⟩
    · -- as above, and the batch notes that the cache used it
      have hcall : st.call w header c (.batch b) label = (.ok id, { st with
          batches := Function.update st.batches b (st.batches b)
          caches := Function.update st.caches c ((st.caches c).remember id label)
          usedBy := Function.update st.usedBy b
            (Function.update (st.usedBy b) c true) }) := by
        simp only [VocabState.call, heq]
      simp only [answer, st', hcall, Function.update_eq_self]
      exact ⟨update_faces hf hfaces, Or.inl ⟨id, hid, by simp⟩⟩
    · rw [commitBatch_batchStore] at hs'
      have hcall : st.call w header c (.batch b) label = (.ok labels.length, { st with
          batches := Function.update st.batches b s'.batch
          caches := Function.update st.caches c (({ st.caches c with
            nextId := some (labels.length + 1) } : VocabCache).remember labels.length label)
          usedBy := Function.update st.usedBy b
            (Function.update (st.usedBy b) c true) }) := by
        simp only [VocabState.call, heq]
      simp only [answer, st', hcall]
      rw [hfaces] at henc
      refine ⟨update_faces hf hfaces, Or.inr (Or.inl ⟨hnew, hfits, trivial, ?_, fun b' hb' => ?_,
        fun _ _ => trivial⟩)⟩
      · -- the view of the batch is the adapter's view
        subst hs'
        convert henc using 1
        funext k
        simp only [VocabState.view, VocabState.pendingOps, Function.update_self]
        rfl
      · have hne : b' ≠ b := fun heq' => hb' (heq' ▸ rfl)
        rw [Function.update_of_ne hne]
    · have hcall : st.call w header c (.batch b) label
          = (.error (.vocabularyExhausted w.width ((labels.length + 1) % 2 ^ 128)), { st with
              batches := Function.update st.batches b (st.batches b)
              caches := Function.update st.caches c { st.caches c with
                nextId := some labels.length }
              usedBy := Function.update st.usedBy b
                (Function.update (st.usedBy b) c true) }) := by
        simp only [VocabState.call, heq]
      simp only [answer, st', hcall, Function.update_eq_self]
      exact ⟨update_faces hf hfaces, Or.inr (Or.inr ⟨hnew, hfull, by simp⟩)⟩

/-! ## Steps and runs -/

theorem pendingOps_view {st st' : VocabState} (b : Nat) (hs : st'.store = st.store)
    (hb : st'.batches b = st.batches b) : st'.view (.batch b) = st.view (.batch b) := by
  simp only [VocabState.view, VocabState.pendingOps, hs, hb]

/-- An event that touches neither the store nor a batch keeps the invariant. -/
theorem VocabInv.of_same {st st' : VocabState} {labels : List String}
    (inv : VocabInv w faces header st labels) (hs : st'.store = st.store)
    (hb : st'.batches = st.batches) (hf : ∀ c, (st'.caches c).faces = faces) :
    VocabInv w faces header st' labels where
  store := by rw [hs]; exact inv.store
  view b := by
    rw [pendingOps_view b hs (congrFun hb b)]
    exact inv.view b
  single b b' h h' := inv.single b b' (by rwa [← hb]) (by rwa [← hb])
  faces := hf

theorem vocabInv_call {st : VocabState} {labels : List String}
    (inv : VocabInv w faces header st labels) (c : Nat) (t : Target) (label : String)
    (guard : UpToDate w faces header st (.call c t label)) :
    ∃ more, VocabInv w faces header (st.call w header c t label).2 (labels ++ more) := by
  cases t with
  | store =>
    have henc : Encodes w faces header (st.view .store) labels := by
      rw [view_store]
      exact inv.store
    obtain ⟨hf, h⟩ := call_spec henc inv.faces guard
    rcases h with ⟨id, -, -, hs, hb⟩ | ⟨hnew, -, -, happ, hb, -⟩ | ⟨-, -, -, hs, hb⟩
    · exact ⟨[], by rw [List.append_nil]; exact inv.of_same hs hb hf⟩
    · -- no batch is open, so every view is the store's
      obtain ⟨-, hempty⟩ := not_behind henc guard hnew
      have hnone : ∀ b, ((st.call w header c .store label).2.batches b).ops = [] := by
        intro b
        rw [hb b (by simp)]
        exact hempty b (by simp)
      rw [view_store] at happ
      refine ⟨[label], happ, fun b => ⟨[], ?_⟩, fun b b' h _ => absurd (hnone b) h, hf⟩
      rw [view_of_empty (hnone b), List.append_nil]
      exact happ
    · exact ⟨[], by rw [List.append_nil]; exact inv.of_same hs hb hf⟩
  | batch b =>
    obtain ⟨more, henc⟩ := inv.view b
    obtain ⟨hf, h⟩ := call_spec henc inv.faces guard
    refine ⟨[], ?_⟩
    rw [List.append_nil]
    rcases h with ⟨id, -, -, hs, hb⟩ | ⟨hnew, -, -, happ, hb, hs⟩ | ⟨-, -, -, hs, hb⟩
    · exact inv.of_same hs hb hf
    · -- no other batch is open: each of the others still sees the store
      obtain ⟨-, hempty⟩ := not_behind henc guard hnew
      have hstore := hs b rfl
      have hother : ∀ b', b' ≠ b →
          ((st.call w header c (.batch b) label).2.batches b').ops = [] := by
        intro b' hne
        have hne' : Target.batch b ≠ .batch b' := by
          intro heq
          exact hne (Target.batch.inj heq).symm
        rw [hb b' hne']
        exact hempty b' hne'
      refine ⟨by rw [hstore]; exact inv.store, fun b' => ?_, fun b₁ b₂ h₁ h₂ => ?_, hf⟩
      · by_cases hb' : b' = b
        · subst hb'
          exact ⟨more ++ [label], by rw [← List.append_assoc]; exact happ⟩
        · refine ⟨[], ?_⟩
          rw [view_of_empty (hother b' hb'), hstore, List.append_nil]
          exact inv.store
      · -- so an open batch is this one
        have h₁' : b₁ = b := by
          by_contra hne
          exact h₁ (hother b₁ hne)
        have h₂' : b₂ = b := by
          by_contra hne
          exact h₂ (hother b₂ hne)
        rw [h₁', h₂']
    · exact inv.of_same hs hb hf

/-- Closing batch `b`, with the store then reading as some extension of the list
and every other batch unchanged. -/
theorem VocabInv.of_close {st st' : VocabState} {labels labels' : List String} {b : Nat}
    (inv : VocabInv w faces header st labels)
    (hs : Encodes w faces header st'.store.get labels')
    (hb : st'.batches = Function.update st.batches b {})
    (hkeep : st'.store = st.store ∧ labels' = labels ∨ (st.batches b).ops ≠ [])
    (hf : ∀ c, (st'.caches c).faces = faces) : VocabInv w faces header st' labels' where
  store := hs
  view b' := by
    by_cases hempty : (st'.batches b').ops = []
    · rw [view_of_empty hempty]
      exact ⟨[], by rwa [List.append_nil]⟩
    · have hne : b' ≠ b := by
        intro heq
        rw [hb, heq, Function.update_self] at hempty
        exact hempty rfl
      have hsame : st'.batches b' = st.batches b' := by rw [hb, Function.update_of_ne hne]
      rcases hkeep with ⟨hstore, hlabels⟩ | hopen
      · rw [pendingOps_view b' hstore hsame, hlabels]
        exact inv.view b'
      · -- only the closed batch was open
        rw [hsame] at hempty
        exact absurd (inv.single b' b hempty hopen) hne
  single b₁ b₂ h₁ h₂ := by
    have hopen : ∀ b', (st'.batches b').ops ≠ [] → (st.batches b').ops ≠ [] := by
      intro b' h
      by_cases hb' : b' = b
      · rw [hb, hb', Function.update_self] at h
        exact absurd rfl h
      · rwa [hb, Function.update_of_ne hb'] at h
    exact inv.single b₁ b₂ (hopen b₁ h₁) (hopen b₂ h₂)
  faces := hf

/-- Committing a batch makes the store read as the batch did. -/
theorem read_commit_batch (st : VocabState) (b : Nat) :
    (st.commit b).store.get = st.view (.batch b) := by
  funext k
  exact LawfulStorage.read_commit st.store (st.batches b) k

theorem vocabInv_step {st : VocabState} {labels : List String}
    (inv : VocabInv w faces header st labels) (ev : VocabEvent)
    (guard : UpToDate w faces header st ev) :
    ∃ more, VocabInv w faces header (st.step w header ev) (labels ++ more) := by
  cases ev with
  | call c t label => exact vocabInv_call inv c t label guard
  | commit b =>
    by_cases hempty : (st.batches b).ops = []
    · refine ⟨[], ?_⟩
      have hstore : (st.commit b).store = st.store := by
        simp only [VocabState.commit, commitBatch]
        rw [hempty]
        rfl
      have henc : Encodes w faces header (st.commit b).store.get labels := by
        rw [hstore]
        exact inv.store
      rw [List.append_nil]
      exact inv.of_close henc rfl (Or.inl ⟨hstore, rfl⟩) inv.faces
    · obtain ⟨more, henc⟩ := inv.view b
      rw [← read_commit_batch] at henc
      exact ⟨more, inv.of_close henc rfl (Or.inr hempty) inv.faces⟩
  | discard b =>
    refine ⟨[], ?_⟩
    rw [List.append_nil]
    refine inv.of_close inv.store rfl (Or.inl ⟨rfl, rfl⟩) fun c => ?_
    by_cases hu : st.usedBy b c = true
    · simp only [VocabState.step, VocabState.discard, hu, if_true]
      exact inv.faces c
    · simp only [VocabState.step, VocabState.discard, hu]
      exact inv.faces c
  | renew c =>
    refine ⟨[], ?_⟩
    rw [List.append_nil]
    exact inv.of_same rfl rfl (update_faces inv.faces (inv.faces c))

theorem vocabInv_run {st st' : VocabState} {labels : List String}
    (inv : VocabInv w faces header st labels) (run : VocabRun w faces header st st') :
    ∃ more, VocabInv w faces header st' (labels ++ more) := by
  induction run with
  | refl => exact ⟨[], by rwa [List.append_nil]⟩
  | step run ev guard ih =>
    obtain ⟨more, inv'⟩ := ih
    obtain ⟨more', inv''⟩ := vocabInv_step inv' ev guard
    exact ⟨more ++ more', by rwa [← List.append_assoc]⟩

/-! ## What a run keeps -/

/-- **A sound vocabulary**: the two faces are inverse to each other on the ids
below the cursor, and hold nothing else. -/
structure SoundVocab (w : VocabId) (faces : VocabFaces) (header : Bytes)
    (read : Bytes → Option Bytes) : Prop where
  inverse : ∀ id < 256 ^ w.width, ∀ label,
    labelOf w faces header read id = some label ↔ idOf w faces header read label = some id
  inUse : ∀ id < 256 ^ w.width,
    (labelOf w faces header read id).isSome ↔ id < cursorOf w faces header read
  idFace : ∀ suffix, suffix ≠ [] → (read (faceKey header faces.idSlot suffix)).isSome →
    ∃ id < cursorOf w faces header read, suffix = w.toBe id
  nameFace : ∀ suffix, (read (faceKey header faces.nameSlot suffix)).isSome →
    ∃ label, suffix = strBytes label ∧ (idOf w faces header read label).isSome

theorem Encodes.sound {read : Bytes → Option Bytes} {labels : List String}
    (h : Encodes w faces header read labels) : SoundVocab w faces header read where
  inverse id hid label := by
    rw [h.labelOf_eq hid, h.idOf_eq_some_iff]
  inUse id hid := by
    rw [h.labelOf_eq hid, h.cursorOf_eq]
    simp
  idFace suffix hs hsome := by
    rw [h.ids suffix hs] at hsome
    cases hfrom : w.fromBe suffix with
    | none => simp [hfrom] at hsome
    | some id =>
      have hlt : id < labels.length := by simpa [hfrom] using hsome
      rw [h.cursorOf_eq]
      exact ⟨id, hlt, (VocabId.toBe_fromBe hfrom).1.symm⟩
  nameFace suffix hsome := by
    obtain ⟨raw, hraw⟩ := Option.isSome_iff_exists.mp hsome
    obtain ⟨id, label, hget, hs, -⟩ := (h.names suffix raw).mp hraw
    refine ⟨label, hs, ?_⟩
    rw [(h.idOf_eq_some_iff label id).mpr hget]
    rfl

/-- **What a call may answer**: the id the label has, else the id at the cursor,
else, the width being full, the refusal that leaves everything in place. -/
inductive SoundAnswer (w : VocabId) (faces : VocabFaces) (header : Bytes) (st : VocabState)
    (t : Target) (label : String) (answer : Except Error Nat) (st' : VocabState) : Prop where
  | known (id : Nat) (bound : idOf w faces header (st.view t) label = some id)
      (ok : answer = .ok id) (store : st'.store = st.store) (batches : st'.batches = st.batches)
  | allocated (unbound : idOf w faces header (st.view t) label = none)
      (room : cursorOf w faces header (st.view t) + 1 < 256 ^ w.width)
      (ok : answer = .ok (cursorOf w faces header (st.view t)))
      (bound : idOf w faces header (st'.view t) label
        = some (cursorOf w faces header (st.view t)))
  | exhausted (unbound : idOf w faces header (st.view t) label = none)
      (full : cursorOf w faces header (st.view t) + 1 = 256 ^ w.width)
      (refused : ∃ next, answer = .error (.vocabularyExhausted w.width next))
      (store : st'.store = st.store) (batches : st'.batches = st.batches)

theorem VocabInv.encodes_view {st : VocabState} {labels : List String}
    (inv : VocabInv w faces header st labels) (t : Target) :
    ∃ more, Encodes w faces header (st.view t) (labels ++ more) := by
  cases t with
  | store =>
    refine ⟨[], ?_⟩
    rw [List.append_nil, view_store]
    exact inv.store
  | batch b => exact inv.view b

theorem soundAnswer_call {st : VocabState} {labels : List String}
    (inv : VocabInv w faces header st labels) {c : Nat} {t : Target} {label : String}
    (guard : UpToDate w faces header st (.call c t label)) :
    SoundAnswer w faces header st t label (st.call w header c t label).1
      (st.call w header c t label).2 := by
  obtain ⟨more, henc⟩ := inv.encodes_view t
  obtain ⟨-, h⟩ := call_spec henc inv.faces guard
  have hcursor := henc.cursorOf_eq
  rcases h with ⟨id, hid, hok, hs, hb⟩ | ⟨hnew, hroom, hok, happ, -⟩ | ⟨hnew, hfull, herr, hs, hb⟩
  · exact .known id ((henc.idOf_eq_some_iff label id).mpr hid) hok hs hb
  · refine .allocated ((henc.idOf_eq_none_iff label).mpr hnew) (by rwa [hcursor])
      (by rwa [hcursor]) ?_
    rw [hcursor, happ.idOf_eq_some_iff]
    simp
  · exact .exhausted ((henc.idOf_eq_none_iff label).mpr hnew) (by rwa [hcursor]) ⟨_, herr⟩ hs hb

/-- **A vocabulary allocated by caches that are up to date stays sound**: in every
state of a run the faces are inverse bijections with the ids below the cursor, a
binding in the store is kept for ever and answered by every cache, and a call
finds, allocates at the cursor, or refuses a full width leaving all in place. -/
theorem vocabulary_sound {st₀ st st' : VocabState} (init : VocabInit faces header st₀)
    (before : VocabRun w faces header st₀ st) (after : VocabRun w faces header st st') :
    SoundVocab w faces header st'.store.get ∧
    (∀ label id, idOf w faces header st.store.get label = some id →
      idOf w faces header st'.store.get label = some id ∧
      labelOf w faces header st'.store.get id = some label ∧
      ∀ c t, (st'.call w header c t label).1 = .ok id) ∧
    ∀ c t label, UpToDate w faces header st' (.call c t label) →
      SoundAnswer w faces header st' t label (st'.call w header c t label).1
        (st'.call w header c t label).2 := by
  obtain ⟨labels, inv⟩ := vocabInv_run (vocabInv_init (w := w) init) before
  obtain ⟨more, inv'⟩ := vocabInv_run inv after
  rw [List.nil_append] at inv inv'
  refine ⟨inv'.store.sound, fun label id hid => ?_, fun c t label guard =>
    soundAnswer_call inv' guard⟩
  have hget : labels[id]? = some label := (inv.store.idOf_eq_some_iff label id).mp hid
  have hlt : id < labels.length := (List.getElem?_eq_some_iff.mp hget).1
  have hkept : (labels ++ more)[id]? = some label := by rw [List.getElem?_append_left hlt, hget]
  refine ⟨(inv'.store.idOf_eq_some_iff label id).mpr hkept, ?_, fun c t => ?_⟩
  · rw [inv'.store.labelOf_eq (inv'.store.index_lt hkept)]
    exact hkept
  · -- a bound label is found by the point probe, whatever the cache remembers
    obtain ⟨pending, henc⟩ := inv'.encodes_view t
    have hlt' : id < (labels ++ more).length := (List.getElem?_eq_some_iff.mp hkept).1
    have hview : (labels ++ more ++ pending)[id]? = some label := by
      rw [List.getElem?_append_left hlt', hkept]
    have hbound := (henc.idOf_eq_some_iff label id).mpr hview
    have guard : UpToDate w faces header st' (.call c t label) := by
      intro hnone
      rw [hbound] at hnone
      simp at hnone
    cases soundAnswer_call inv' guard with
    | known id' hid' hok =>
      rw [hbound, Option.some.injEq] at hid'
      rw [hok, hid']
    | allocated hnone => rw [hbound] at hnone; simp at hnone
    | exhausted hnone => rw [hbound] at hnone; simp at hnone

end

/-! ## The empty store, and a cache left behind -/

/-- Nothing stored, every cache fresh. -/
def VocabState.fresh (faces : VocabFaces) : VocabState where
  store := SortedMap.empty
  batches _ := {}
  caches _ := { faces }
  usedBy _ _ := false

theorem vocabInit_fresh (faces : VocabFaces) (header : Bytes) :
    VocabInit faces header (VocabState.fresh faces) where
  idFace _ := rfl
  nameFace _ := rfl
  batches _ := rfl
  caches _ := rfl

/-- Label "a" by cache 0, then label "b" by cache 1. -/
def twoLabels : VocabState :=
  ((VocabState.fresh (dataVocab 0 firstVocab_lt)).step .u8 [7] (.call 0 .store "a")).step .u8 [7]
    (.call 1 .store "b")

/-- A fresh cache reads the cursor. -/
theorem twoLabels_run : VocabRun .u8 (dataVocab 0 firstVocab_lt) [7]
    (VocabState.fresh (dataVocab 0 firstVocab_lt)) twoLabels := by
  refine .step (.step .refl _ ?_) _ ?_
  · intro _
    refine ⟨fun n hn => ?_, fun _ _ => rfl⟩
    simp [VocabState.fresh] at hn
  · intro _
    refine ⟨?_, fun _ _ => rfl⟩
    decide

theorem vocabulary_sound_twoLabels :
    SoundVocab .u8 (dataVocab 0 firstVocab_lt) [7] twoLabels.store.get ∧
    labelOf .u8 (dataVocab 0 firstVocab_lt) [7] twoLabels.store.get 1 = some "b" :=
  ⟨(vocabulary_sound (vocabInit_fresh _ _) twoLabels_run .refl).1, by decide⟩

/-- Cache 0 allocates, then cache 1, then cache 0 again, which still remembers
the next id from before: the id of the second label is rebound to the third. -/
theorem stale_cache_rebinds :
    let st' := twoLabels.step .u8 [7] (.call 0 .store "c")
    labelOf .u8 (dataVocab 0 firstVocab_lt) [7] twoLabels.store.get 1 = some "b" ∧
    idOf .u8 (dataVocab 0 firstVocab_lt) [7] st'.store.get "b" = some 1 ∧
    labelOf .u8 (dataVocab 0 firstVocab_lt) [7] st'.store.get 1 = some "c" := by
  decide

end Okm.Model
