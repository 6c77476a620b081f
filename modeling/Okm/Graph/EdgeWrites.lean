import Okm.Graph.Edge
import Okm.Lib.Represents
import Okm.Model.CacheSound
import Okm.Model.Faces

/-!
# What an edge write leaves

The writes of one edge, read off slot by slot. A write enters the row, the four traversal
faces and the declared entries and drops the open attributes; an unlink drops what the row
it finds was entered with. The row and each traversal face are derived regions: one entry
for each edge, under a key that ends in the edge's id (`ownKeys_row`, `ownKeys_face`).
-/

namespace Okm.Model

open Lib VirtualStorage

/-! ## Keys that end in an id -/

theorem idBe_inj {a b : UInt64} (h : idBe a = idBe b) : a = b :=
  UInt64.toNat_inj.mp (beBytes_injective a.toNat_lt b.toNat_lt h)

theorem length_idBe (id : UInt64) : (idBe id).length = 8 := length_beBytes 8 id.toNat

@[simp] theorem ofNat_idBe (id : UInt64) : UInt64.ofNat (beNat (idBe id)) = id := by
  rw [idBe, beNat_beBytes id.toNat_lt, UInt64.ofNat_toNat]

namespace EdgeFace

/-- Behind its endpoints every entry ends in the id. -/
theorem suffix_eq (face : EdgeFace) (src dst : NodeRef) (predicate : Nat) (id : UInt64) :
    ∃ front, 0 < front.length ∧ face.suffix src dst predicate id = front ++ idBe id := by
  have hsrc := src.three_le_length
  have hdst := dst.three_le_length
  cases face with
  | out => exact ⟨src.encode ++ dst.encode, by rw [List.length_append]; omega, by simp [suffix]⟩
  | into => exact ⟨dst.encode ++ src.encode, by rw [List.length_append]; omega, by simp [suffix]⟩
  | predicateOut =>
    exact ⟨VocabId.u16.toBe predicate ++ (src.encode ++ dst.encode),
      by rw [List.length_append, List.length_append]; omega, by simp [suffix]⟩
  | predicateInto =>
    exact ⟨VocabId.u16.toBe predicate ++ (dst.encode ++ src.encode),
      by rw [List.length_append, List.length_append]; omega, by simp [suffix]⟩

theorem id_of_suffix {face face' : EdgeFace} {src dst src' dst' : NodeRef}
    {predicate predicate' : Nat} {id id' : UInt64}
    (h : face.suffix src dst predicate id = face'.suffix src' dst' predicate' id') : id = id' := by
  obtain ⟨front, -, heq⟩ := face.suffix_eq src dst predicate id
  obtain ⟨front', -, heq'⟩ := face'.suffix_eq src' dst' predicate' id'
  rw [heq, heq'] at h
  exact idBe_inj (List.append_inj_right' h (by rw [length_idBe, length_idBe]))

theorem slot_inj {face face' : EdgeFace} : face.slot = face'.slot ↔ face = face' := by
  cases face <;> cases face' <;> decide

theorem primary_ne_slot (face : EdgeFace) : primarySlot ≠ face.slot := by
  cases face <;> decide

theorem dynamic_ne_slot (face : EdgeFace) : dynamicSlot ≠ face.slot := by
  cases face <;> decide

theorem slot_fixed (face : EdgeFace) : face.slot.val ≤ 0x0F := by
  cases face <;> decide

end EdgeFace

theorem dynamic_ne_primary : dynamicSlot ≠ primarySlot := by decide

/-! ## The parts of an edge's entry set -/

/-- An edge as its row stands for it. -/
structure EdgeRow (R : Type) where
  head : EdgeHead
  predicate : Nat
  payload : R

/-- The entry of an edge on a traversal face. -/
def EdgeFace.entry {R : Type} (face : EdgeFace) (id : UInt64) (row : EdgeRow R) : Bytes × Bytes :=
  (face.suffix row.head.src row.head.dst row.predicate id, [])

theorem EdgeFace.ownKeys {R : Type} (face : EdgeFace) : OwnKeys (face.entry (R := R)) :=
  fun _ _ _ _ h => id_of_suffix h

namespace GraphEncode

variable {R : Type} (g : GraphEncode R)

def body (row : EdgeRow R) : EdgeBody :=
  ⟨row.head.src, row.head.dst, row.predicate, g.doc.encodePayload row.payload⟩

/-- The row of an edge. -/
def rowEntry (id : UInt64) (row : EdgeRow R) : Bytes × Bytes := (idBe id, (g.body row).encode)

theorem ownKeys_row : OwnKeys g.rowEntry := fun _ _ _ _ h => idBe_inj h

/-- The slots of the declared faces. -/
def Declared (s : Slot) : Prop := s ∈ g.doc.faceSlots

theorem declared_not_fixed {s : Slot} (h : g.Declared s) : ¬ s.val ≤ 0x0F := by
  rcases g.doc.family_of_faceSlots h with hs | hs <;>
    simp only [Segment.lead, Segment.index] at hs <;> omega

/-- Declared entries lie under declared slots. -/
theorem under_of_declaredKeys {id : UInt64} {payload : R} {k : Bytes}
    (h : k ∈ g.declaredKeys id payload) : Under g.ns g.Declared k := by
  obtain ⟨e, he, rfl⟩ := List.mem_map.mp h
  rcases List.mem_append.mp he with he | he
  · obtain ⟨lead, hlead, rfl⟩ := List.mem_map.mp he
    exact ⟨lead.slot, _, List.mem_append_left _ (List.mem_map_of_mem hlead), rfl⟩
  · obtain ⟨index, hindex, he⟩ := List.mem_flatMap.mp he
    unfold KvIndex.entryPairs at he
    by_cases hadm : index.admits payload
    · rw [if_pos hadm] at he
      obtain ⟨segment, -, rfl⟩ := List.mem_map.mp he
      exact ⟨index.slot, _, List.mem_append_right _ (List.mem_map_of_mem hindex), rfl⟩
    · simp [hadm] at he

theorem not_declaredKeys {id : UInt64} {payload : R} {s : Slot} (hs : s.val ≤ 0x0F)
    (sfx : Bytes) : faceKey g.ns s sfx ∉ g.declaredKeys id payload := fun h =>
  g.declared_not_fixed (under_faceKey.mp (g.under_of_declaredKeys h)) hs

/-! ## Writes under one slot -/

section

variable {s : Slot} {sfx : Bytes} {body : EdgeBody} {payload : R} {id : UInt64}

/-- Entering or leaving the traversal faces, seen at a face. -/
theorem pending_faces (v : Option Bytes) (face : EdgeFace) (src dst : NodeRef) (predicate : Nat) :
    pending (EdgeFace.all.map fun f => (g.edgeFaceKey src dst predicate id f, v))
        (faceKey g.ns face.slot sfx)
      = if sfx = face.suffix src dst predicate id then some v else none := by
  have hkey : ∀ f : EdgeFace, g.edgeFaceKey src dst predicate id f = faceKey g.ns face.slot sfx ↔
      f = face ∧ f.suffix src dst predicate id = sfx := by
    intro f
    rw [edgeFaceKey, faceKey_inj, EdgeFace.slot_inj]
  by_cases hsfx : sfx = face.suffix src dst predicate id
  · subst hsfx
    unfold pending
    cases face <;> simp [EdgeFace.all, hkey]
  · rw [if_neg hsfx]
    refine pending_eq_none fun op hop => ?_
    obtain ⟨f, -, rfl⟩ := List.mem_map.mp hop
    intro heq
    obtain ⟨rfl, rfl⟩ := (hkey f).mp heq
    exact hsfx rfl

theorem pending_faces_other (v : Option Bytes) (hs : ∀ face : EdgeFace, s ≠ face.slot)
    (src dst : NodeRef) (predicate : Nat) :
    pending (EdgeFace.all.map fun f => (g.edgeFaceKey src dst predicate id f, v))
      (faceKey g.ns s sfx) = none := by
  refine pending_eq_none fun op hop => ?_
  obtain ⟨f, -, rfl⟩ := List.mem_map.mp hop
  exact faceKey_ne_of_slot (hs f).symm _ _

theorem pending_declared_puts (hs : s.val ≤ 0x0F) :
    pending (putOps (g.indexEntries id payload)) (faceKey g.ns s sfx) = none := by
  refine pending_eq_none fun op hop heq => ?_
  obtain ⟨e, he, rfl⟩ := List.mem_map.mp hop
  have hmem : e.1 ∈ g.declaredKeys id payload := List.mem_map_of_mem he
  exact g.not_declaredKeys hs sfx (heq ▸ hmem)

theorem pending_declared_dels (hs : s.val ≤ 0x0F) :
    pending (delOps (g.declaredKeys id payload)) (faceKey g.ns s sfx) = none := by
  rw [pending_delOps, if_neg (g.not_declaredKeys hs sfx)]

theorem pending_pair (a b : Op Bytes Bytes) (k : Bytes) :
    pending [a, b] k = if b.1 = k then some b.2 else if a.1 = k then some a.2 else none := by
  rw [← pending_singleton a k]
  exact pending_concat [a] b k

theorem primaryKey_eq {k : UInt64} : g.primaryKey k = faceKey g.ns s sfx ↔
    s = primarySlot ∧ sfx = idBe k := by
  rw [primaryKey, faceKey_inj, eq_comm, @eq_comm _ sfx]

theorem dynamicKey_eq {k : UInt64} : g.dynamicKey k = faceKey g.ns s sfx ↔
    s = dynamicSlot ∧ sfx = idBe k := by
  rw [dynamicKey, faceKey_inj, eq_comm, @eq_comm _ sfx]

/-! ## Entering an edge -/

theorem written_writeOps_face (f : Reads) (face : EdgeFace) :
    written (g.writeOps body payload id) f (faceKey g.ns face.slot sfx)
      = if sfx = face.suffix body.src body.dst body.predicateVocabId id then some []
        else f (faceKey g.ns face.slot sfx) := by
  have hrow : pending [(g.dynamicKey id, none), (g.primaryKey id, some body.encode)]
      (faceKey g.ns face.slot sfx) = none := by
    refine pending_eq_none fun op hop => ?_
    rcases List.mem_cons.mp hop with rfl | hop
    · exact faceKey_ne_of_slot face.dynamic_ne_slot _ _
    · obtain rfl := List.mem_singleton.mp hop
      exact faceKey_ne_of_slot face.primary_ne_slot _ _
  rw [written, writeOps, pending_append, pending_append, g.pending_declared_puts face.slot_fixed,
    Option.none_or, pending_faces, hrow]
  by_cases h : sfx = face.suffix body.src body.dst body.predicateVocabId id
  · rw [if_pos h, if_pos h]
    rfl
  · rw [if_neg h, if_neg h]
    rfl

theorem written_writeOps_primary (f : Reads) :
    written (g.writeOps body payload id) f (faceKey g.ns primarySlot sfx)
      = if sfx = idBe id then some body.encode else f (faceKey g.ns primarySlot sfx) := by
  rw [written, writeOps, pending_append, pending_append,
    g.pending_declared_puts (by decide), Option.none_or,
    g.pending_faces_other _ EdgeFace.primary_ne_slot, Option.none_or, pending_pair]
  simp only [primaryKey_eq, dynamicKey_eq, true_and]
  by_cases h : sfx = idBe id
  · rw [if_pos h, if_pos h]
    rfl
  · rw [if_neg h, if_neg h, if_neg fun heq => dynamic_ne_primary heq.1.symm]
    rfl

theorem written_writeOps_dynamic (f : Reads) :
    written (g.writeOps body payload id) f (faceKey g.ns dynamicSlot sfx)
      = if sfx = idBe id then none else f (faceKey g.ns dynamicSlot sfx) := by
  rw [written, writeOps, pending_append, pending_append,
    g.pending_declared_puts (by decide), Option.none_or,
    g.pending_faces_other _ EdgeFace.dynamic_ne_slot, Option.none_or, pending_pair]
  simp only [primaryKey_eq, dynamicKey_eq, true_and]
  rw [if_neg fun heq => dynamic_ne_primary heq.1]
  by_cases h : sfx = idBe id
  · rw [if_pos h, if_pos h]
    rfl
  · rw [if_neg h, if_neg h]
    rfl

/-- Under a declared slot a write adds entries of its payload and nothing else. -/
theorem written_writeOps_declared (hs : g.Declared s) (f : Reads) {v : Bytes}
    (h : written (g.writeOps body payload id) f (faceKey g.ns s sfx) = some v) :
    faceKey g.ns s sfx ∈ g.declaredKeys id payload ∨ f (faceKey g.ns s sfx) = some v := by
  have hfixed := g.declared_not_fixed hs
  have hne : ∀ t : Slot, t.val ≤ 0x0F → s ≠ t := fun t ht heq => hfixed (heq ▸ ht)
  rw [written, writeOps, pending_append, pending_append,
    g.pending_faces_other _ fun face => hne _ face.slot_fixed, Option.none_or, pending_pair] at h
  simp only [primaryKey_eq, dynamicKey_eq] at h
  rw [if_neg fun heq => hne primarySlot (by decide) heq.1,
    if_neg fun heq => hne dynamicSlot (by decide) heq.1, Option.or_none] at h
  rcases pending_putOps_cases (g.indexEntries id payload) (faceKey g.ns s sfx) with
    ⟨-, hnone⟩ | ⟨v', hmem, -⟩
  · rw [hnone] at h
    exact Or.inr h
  · exact Or.inl (List.mem_map_of_mem hmem)

/-! ## Leaving -/

theorem written_unlinkOps_face (f : Reads) (face : EdgeFace) :
    written (g.unlinkOps body payload id) f (faceKey g.ns face.slot sfx)
      = if sfx = face.suffix body.src body.dst body.predicateVocabId id then none
        else f (faceKey g.ns face.slot sfx) := by
  have hrow : pending ([(g.primaryKey id, none)] : List (Op Bytes Bytes))
      (faceKey g.ns face.slot sfx) = none := by
    rw [pending_singleton]
    exact if_neg (faceKey_ne_of_slot face.primary_ne_slot _ _)
  rw [written, unlinkOps, pending_append, pending_append,
    g.pending_declared_dels face.slot_fixed, Option.none_or, pending_faces, hrow]
  by_cases h : sfx = face.suffix body.src body.dst body.predicateVocabId id
  · rw [if_pos h, if_pos h]
    rfl
  · rw [if_neg h, if_neg h]
    rfl

/-- An unlink at a fixed slot that is no traversal face. -/
theorem written_unlinkOps_fixed (hs : s.val ≤ 0x0F) (hface : ∀ face : EdgeFace, s ≠ face.slot)
    (f : Reads) :
    written (g.unlinkOps body payload id) f (faceKey g.ns s sfx)
      = if s = primarySlot ∧ sfx = idBe id then none else f (faceKey g.ns s sfx) := by
  rw [written, unlinkOps, pending_append, pending_append, g.pending_declared_dels hs,
    Option.none_or, g.pending_faces_other _ hface, Option.none_or, pending_singleton]
  simp only [primaryKey_eq]
  by_cases h : s = primarySlot ∧ sfx = idBe id
  · rw [if_pos h, if_pos h]
    rfl
  · rw [if_neg h, if_neg h]
    rfl

/-- Under a declared slot an unlink drops the entries of the payload it reads. -/
theorem written_unlinkOps_declared (hs : g.Declared s) (f : Reads) :
    written (g.unlinkOps body payload id) f (faceKey g.ns s sfx)
      = if faceKey g.ns s sfx ∈ g.declaredKeys id payload then none
        else f (faceKey g.ns s sfx) := by
  have hfixed := g.declared_not_fixed hs
  have hne : ∀ t : Slot, t.val ≤ 0x0F → s ≠ t := fun t ht heq => hfixed (heq ▸ ht)
  rw [written, unlinkOps, pending_append, pending_append,
    g.pending_faces_other _ fun face => hne _ face.slot_fixed, Option.none_or, pending_singleton]
  simp only [primaryKey_eq]
  rw [if_neg fun heq => hne primarySlot (by decide) heq.1, Option.or_none, pending_delOps]
  by_cases h : faceKey g.ns s sfx ∈ g.declaredKeys id payload
  · rw [if_pos h, if_pos h]
    rfl
  · rw [if_neg h, if_neg h]
    rfl

/-! ## Elsewhere -/

/-- The slots the entries of an edge live under. -/
def EdgeSlot (s : Slot) : Prop :=
  s = primarySlot ∨ s = dynamicSlot ∨ (∃ face : EdgeFace, s = face.slot) ∨ g.Declared s

/-- The vocabularies of a graph lie under other slots than its edges. -/
theorem not_edgeSlot_vocab {s : Slot} (hs : predicateVocab.Slots s ∨ fieldVocab.Slots s) :
    ¬ g.EdgeSlot s := by
  intro hedge
  have hone : s = predicateVocab.idSlot ∨ s = predicateVocab.nameSlot ∨ s = fieldVocab.idSlot ∨
      s = fieldVocab.nameSlot := by
    rcases hs with (rfl | rfl) | (rfl | rfl) <;> simp
  have hfixed : s.val ≤ 0x0F := by
    rcases hone with rfl | rfl | rfl | rfl <;> decide
  rcases hedge with rfl | rfl | ⟨face, rfl⟩ | hd
  · exact absurd hone (by decide)
  · exact absurd hone (by decide)
  · cases face <;> exact absurd hone (by decide)
  · exact g.declared_not_fixed hd hfixed

/-- The declared entries lie under slots of the edge set. -/
theorem edgeSlot_of_declaredKeys {k : Bytes} (h : k ∈ g.declaredKeys id payload) :
    Under g.ns g.EdgeSlot k := by
  obtain ⟨t, suffix, ht, rfl⟩ := g.under_of_declaredKeys h
  exact ⟨t, suffix, Or.inr (Or.inr (Or.inr ht)), rfl⟩

theorem onlyUnder_writeOps (f : Reads) :
    OnlyUnder g.ns g.EdgeSlot f (written (g.writeOps body payload id) f) := by
  intro k hk
  refine written_of_not_mem (fun op hop heq => hk ?_) f
  rcases List.mem_append.mp hop with hop | hop
  · rcases List.mem_append.mp hop with hop | hop
    · rcases List.mem_cons.mp hop with rfl | hop
      · exact ⟨dynamicSlot, _, Or.inr (Or.inl rfl), heq.symm⟩
      · obtain rfl := List.mem_singleton.mp hop
        exact ⟨primarySlot, _, Or.inl rfl, heq.symm⟩
    · obtain ⟨face, -, rfl⟩ := List.mem_map.mp hop
      exact ⟨face.slot, _, Or.inr (Or.inr (Or.inl ⟨face, rfl⟩)), heq.symm⟩
  · obtain ⟨e, he, rfl⟩ := List.mem_map.mp hop
    have hmem : e.1 ∈ g.declaredKeys id payload := List.mem_map_of_mem he
    exact g.edgeSlot_of_declaredKeys (heq ▸ hmem)

theorem onlyUnder_unlinkOps (f : Reads) :
    OnlyUnder g.ns g.EdgeSlot f (written (g.unlinkOps body payload id) f) := by
  intro k hk
  refine written_of_not_mem (fun op hop heq => hk ?_) f
  rcases List.mem_append.mp hop with hop | hop
  · rcases List.mem_append.mp hop with hop | hop
    · obtain rfl := List.mem_singleton.mp hop
      exact ⟨primarySlot, _, Or.inl rfl, heq.symm⟩
    · obtain ⟨face, -, rfl⟩ := List.mem_map.mp hop
      exact ⟨face.slot, _, Or.inr (Or.inr (Or.inl ⟨face, rfl⟩)), heq.symm⟩
  · obtain ⟨key, he, rfl⟩ := List.mem_map.mp hop
    obtain rfl : key = k := heq
    exact g.edgeSlot_of_declaredKeys he

end

end GraphEncode

end Okm.Model
