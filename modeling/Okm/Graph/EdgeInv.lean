import Okm.Graph.EdgeWrites
import Okm.Lib.Trace

/-!
# The faces of a graph stay in step

`EdgesInv` says that the row region and the four traversal faces are the entries of the
edges there are, and that every declared entry belongs to one of them. A fresh edge enters
by `enter`, an edge leaves by `leave`, and a rewrite is the one after the other in one
batch. An edge leaves by the row it left in the store, so what was linked has to be read
back (`Linkable`): short enough keys, and a payload whose stored form declares the same
entries again.

The open attributes stand apart (`SegmentsOwned`): an unlink does not drop them.
-/

namespace Okm.Model

open Lib VirtualStorage

variable {R : Type} (g : GraphEncode R)

/-! ## A body is read back -/

/-- The bytes of a body fall into its parts again. -/
structure EdgeBody.Cut (body : EdgeBody) : Prop where
  src : NodeRef.decode body.encode = .ok (some (body.src, body.src.encode.length))
  dst : NodeRef.decode (body.encode.drop body.src.encode.length)
    = .ok (some (body.dst, body.dst.encode.length))
  long : ¬ body.encode.length < body.src.encode.length + body.dst.encode.length + 2
  number : beNat ((body.encode.drop (body.src.encode.length + body.dst.encode.length)).take 2)
    = body.predicateVocabId
  payload : body.encode.drop (body.src.encode.length + body.dst.encode.length + 2) = body.payload

/-- **A stored body is cut where it was put together.** -/
theorem EdgeBody.cut {body : EdgeBody} (hsrc : body.src.Readable) (hdst : body.dst.Readable)
    (hpred : body.predicateVocabId < 256 ^ 2) : body.Cut := by
  have hbe : (VocabId.u16.toBe body.predicateVocabId).length = 2 := VocabId.length_toBe _ _
  have hrest : body.encode.drop body.src.encode.length
      = body.dst.encode ++ (VocabId.u16.toBe body.predicateVocabId ++ body.payload) := List.drop_left
  have hafter : body.encode.drop (body.src.encode.length + body.dst.encode.length)
      = VocabId.u16.toBe body.predicateVocabId ++ body.payload := by
    rw [← List.drop_drop, hrest, List.drop_left]
  refine
    { src := NodeRef.decode_encode hsrc _, dst := ?_, long := ?_, number := ?_, payload := ?_ }
  · rw [hrest]
    exact NodeRef.decode_encode hdst _
  · rw [EdgeBody.encode, List.length_append, List.length_append, List.length_append, hbe]
    omega
  · rw [hafter, List.take_left' hbe]
    exact beNat_beBytes hpred
  · rw [← List.drop_drop, hafter]
    exact List.drop_left' hbe

theorem decodeBody_encode {body : EdgeBody} (hsrc : body.src.Readable) (hdst : body.dst.Readable)
    (hpred : body.predicateVocabId < 256 ^ 2) : decodeBody body.encode = .ok body := by
  have hcut := EdgeBody.cut hsrc hdst hpred
  unfold decodeBody expectRef
  rw [hcut.src]
  simp only [bind, Except.bind]
  rw [hcut.dst]
  dsimp only
  rw [if_neg hcut.long, hcut.number, hcut.payload]

/-! ## The invariant of the entries -/

namespace GraphEncode

/-- What a link has to bring so that the edge can leave again: keys that are read back,
and a payload whose stored form declares the entries the payload declared. -/
structure Linkable (head : EdgeHead) (payload : R) (id : UInt64) : Prop where
  src : head.src.Readable
  dst : head.dst.Readable
  rederives : ∀ k ∈ g.declaredKeys id payload,
    k ∈ g.declaredKeys id (g.doc.decodePayload (g.doc.encodePayload payload))

end GraphEncode

/-- The row region and the traversal faces are those of the edges, and no declared entry
is without an edge. -/
structure EdgesInv (f : Reads) (rows : UInt64 → Option (EdgeRow R)) : Prop where
  primary : Represents g.rowEntry rows fun sfx => f (faceKey g.ns primarySlot sfx)
  faces : ∀ face : EdgeFace, Represents face.entry rows fun sfx => f (faceKey g.ns face.slot sfx)
  declared : ∀ s, g.Declared s → ∀ sfx v, f (faceKey g.ns s sfx) = some v →
    ∃ id row, rows id = some row ∧ faceKey g.ns s sfx ∈ g.declaredKeys id row.payload

/-- Open attributes are stored under the ids of edges, or under `spare`. -/
def SegmentsOwned (f : Reads) (rows : UInt64 → Option (EdgeRow R)) (spare : Option UInt64) : Prop :=
  ∀ sfx v, f (faceKey g.ns dynamicSlot sfx) = some v →
    ∃ id, sfx = idBe id ∧ (rows id ≠ none ∨ spare = some id)

namespace EdgesInv

variable {g} {f f' : Reads} {rows : UInt64 → Option (EdgeRow R)} {id : UInt64} {row : EdgeRow R}

/-- Writes that spare the rows, the faces and the declared entries are no business of the
edges. -/
theorem frame {P : Slot → Prop} (h : EdgesInv g f rows) (honly : OnlyUnder g.ns P f f')
    (hP : ∀ s, P s → s = dynamicSlot ∨ ¬ g.EdgeSlot s) : EdgesInv g f' rows := by
  have hat : ∀ t : Slot, t ≠ dynamicSlot → g.EdgeSlot t → ∀ sfx,
      f' (faceKey g.ns t sfx) = f (faceKey g.ns t sfx) := by
    intro t hne hedge sfx
    refine honly.at_slot (fun hp => ?_) sfx
    rcases hP t hp with heq | hother
    · exact hne heq
    · exact hother hedge
  exact
    { primary := h.primary.congr fun sfx => hat _ dynamic_ne_primary.symm (Or.inl rfl) sfx
      faces := fun face => (h.faces face).congr fun sfx =>
        hat _ face.dynamic_ne_slot.symm (Or.inr (Or.inr (Or.inl ⟨face, rfl⟩))) sfx
      declared := fun t ht sfx v hv => by
        have hne : t ≠ dynamicSlot := fun heq =>
          g.declared_not_fixed ht (by rw [heq]; decide)
        rw [hat t hne (Or.inr (Or.inr (Or.inr ht)))] at hv
        exact h.declared t ht sfx v hv }

/-- **A fresh edge enters all its faces.** -/
theorem enter (h : EdgesInv g f rows) (hnone : rows id = none) (row : EdgeRow R) :
    EdgesInv g (written (g.writeOps (g.body row) row.payload id) f)
      (Function.update rows id (some row)) where
  primary := by
    refine h.primary.insert g.ownKeys_row hnone ?_ fun sfx hne => ?_
    · rw [GraphEncode.written_writeOps_primary]
      exact if_pos rfl
    · rw [GraphEncode.written_writeOps_primary]
      exact if_neg hne
  faces face := by
    refine (h.faces face).insert face.ownKeys hnone ?_ fun sfx hne => ?_
    · rw [GraphEncode.written_writeOps_face]
      exact if_pos rfl
    · rw [GraphEncode.written_writeOps_face]
      exact if_neg hne
  declared s hs sfx v hv := by
    rcases g.written_writeOps_declared hs f hv with hmem | hold
    · exact ⟨id, row, Function.update_self id _ rows, hmem⟩
    · obtain ⟨id', row', hrow, hmem⟩ := h.declared s hs sfx v hold
      have hne : id' ≠ id := by
        intro heq
        rw [heq, hnone] at hrow
        cases hrow
      exact ⟨id', row', by rw [Function.update_of_ne hne, hrow], hmem⟩

/-- **An edge leaves all its faces**, found again by what its row holds. -/
theorem leave (h : EdgesInv g f rows) (hrow : rows id = some row)
    (hlink : g.Linkable row.head row.payload id) :
    EdgesInv g (written (g.unlinkOps (g.body row)
      (g.doc.decodePayload (g.doc.encodePayload row.payload)) id) f)
      (Function.update rows id none) where
  primary := by
    refine h.primary.erase g.ownKeys_row hrow ?_ fun sfx hne => ?_
    · rw [GraphEncode.written_unlinkOps_fixed g (by decide) EdgeFace.primary_ne_slot]
      exact if_pos ⟨rfl, rfl⟩
    · rw [GraphEncode.written_unlinkOps_fixed g (by decide) EdgeFace.primary_ne_slot]
      exact if_neg fun heq => hne heq.2
  faces face := by
    refine (h.faces face).erase face.ownKeys hrow ?_ fun sfx hne => ?_
    · rw [GraphEncode.written_unlinkOps_face]
      exact if_pos rfl
    · rw [GraphEncode.written_unlinkOps_face]
      exact if_neg hne
  declared s hs sfx v hv := by
    rw [g.written_unlinkOps_declared hs] at hv
    by_cases hk : faceKey g.ns s sfx
        ∈ g.declaredKeys id (g.doc.decodePayload (g.doc.encodePayload row.payload))
    · rw [if_pos hk] at hv
      cases hv
    · rw [if_neg hk] at hv
      obtain ⟨id', row', hrow', hmem⟩ := h.declared s hs sfx v hv
      -- an entry of this edge would have been swept
      have hne : id' ≠ id := by
        intro heq
        rw [heq] at hrow' hmem
        obtain rfl := Option.some.inj (hrow.symm.trans hrow')
        exact hk (hlink.rederives _ hmem)
      exact ⟨id', row', by rw [Function.update_of_ne hne, hrow'], hmem⟩

/-- The row of an edge is stored under its id. -/
theorem stored (h : EdgesInv g f rows) (hrow : rows id = some row) :
    f (g.primaryKey id) = some (g.body row).encode := h.primary.read hrow

/-- No row is stored under the id of no edge. -/
theorem not_stored (h : EdgesInv g f rows) (hnone : rows id = none) :
    f (g.primaryKey id) = none := by
  cases hv : f (g.primaryKey id) with
  | none => rfl
  | some v =>
    obtain ⟨id', row', hrow', heq⟩ := h.primary.owner hv
    have hid : id' = id := idBe_inj (Prod.mk.inj heq).1
    rw [hid, hnone] at hrow'
    cases hrow'

end EdgesInv

namespace SegmentsOwned

variable {g} {f f' : Reads} {rows : UInt64 → Option (EdgeRow R)} {id : UInt64} {row : EdgeRow R}
  {spare : Option UInt64}

theorem frame {P : Slot → Prop} (h : SegmentsOwned g f rows spare) (honly : OnlyUnder g.ns P f f')
    (hP : ¬ P dynamicSlot) : SegmentsOwned g f' rows spare := by
  intro sfx v hv
  rw [honly.at_slot hP] at hv
  exact h sfx v hv

/-- Entering an edge drops what was stored under its id. -/
theorem enter (h : SegmentsOwned g f rows (some id)) (row : EdgeRow R) :
    SegmentsOwned g (written (g.writeOps (g.body row) row.payload id) f)
      (Function.update rows id (some row)) none := by
  intro sfx v hv
  rw [GraphEncode.written_writeOps_dynamic] at hv
  by_cases hs : sfx = idBe id
  · rw [if_pos hs] at hv
    cases hv
  · rw [if_neg hs] at hv
    obtain ⟨id', rfl, hown⟩ := h sfx v hv
    have hne : id' ≠ id := fun heq => hs (by rw [heq])
    refine ⟨id', rfl, Or.inl ?_⟩
    rw [Function.update_of_ne hne]
    rcases hown with hown | hown
    · exact hown
    · exact absurd (Option.some.inj hown).symm hne

/-- Leaving leaves the attributes behind. -/
theorem leave (h : SegmentsOwned g f rows none) (body : EdgeBody) (payload : R) :
    SegmentsOwned g (written (g.unlinkOps body payload id) f) (Function.update rows id none)
      (some id) := by
  intro sfx v hv
  rw [GraphEncode.written_unlinkOps_fixed g (by decide) EdgeFace.dynamic_ne_slot,
    if_neg fun heq => dynamic_ne_primary heq.1] at hv
  obtain ⟨id', rfl, hown⟩ := h sfx v hv
  refine ⟨id', rfl, ?_⟩
  by_cases heq : id' = id
  · exact Or.inr (by rw [heq])
  · rw [Function.update_of_ne heq]
    exact Or.inl (hown.resolve_right (by simp))

/-- Where nothing is stored under the spare id there is none. -/
theorem settle (h : SegmentsOwned g f rows (some id)) (hnone : f (g.dynamicKey id) = none) :
    SegmentsOwned g f rows none := by
  intro sfx v hv
  obtain ⟨id', rfl, hown⟩ := h sfx v hv
  rcases hown with hown | hown
  · exact ⟨id', rfl, Or.inl hown⟩
  · obtain rfl := Option.some.inj hown
    rw [GraphEncode.dynamicKey] at hnone
    rw [hnone] at hv
    cases hv

end SegmentsOwned

end Okm.Model
