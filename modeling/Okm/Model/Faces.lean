import Okm.Model.Labels

/-!
# Faces follow rows

The face region of a table is to hold exactly the entries of its rows. The
cleaning verbs maintain it by deleting the entries of the row they find and
putting those of the row they write, so two things have to hold: the row found
produces the entries its predecessor was written with (`Rederivable`, the purity
the declarations ask for), and no entry is shared by two rows. `FaceInv` is the
invariant, `FaceInv.cleaned` its step, `faces_exact` the statement about runs.

A key tail cut to a subset that two rows share makes them own one entry between
them; purging the one takes the other's entry away (`sharedTail_loses_entry`).
-/

namespace Okm.Model

open Lib VirtualStorage KeyEncode

variable {K R : Type} [KeyEncode K]

/-! ## Sweeping a list of keys -/

theorem pending_delOps (keys : List Bytes) (k : Bytes) :
    pending (delOps keys) k = if k ∈ keys then some none else none := by
  induction keys with
  | nil => rfl
  | cons key keys ih =>
    have hsplit : delOps (key :: keys) = [(key, none)] ++ delOps keys := rfl
    rw [hsplit, pending_append, ih, pending_singleton]
    by_cases hk : k ∈ keys
    · rw [if_pos hk, if_pos (List.mem_cons_of_mem _ hk)]
      rfl
    · rw [if_neg hk]
      by_cases hkey : key = k
      · rw [hkey, if_pos rfl, if_pos List.mem_cons_self]
        rfl
      · have hno : k ∉ key :: keys := by
          rw [List.mem_cons, not_or]
          exact ⟨Ne.symm hkey, hk⟩
        rw [if_neg hkey, if_neg hno]
        rfl

theorem pending_putOps_cases (pairs : List (Bytes × Bytes)) (k : Bytes) :
    (k ∉ pairs.map Prod.fst ∧ pending (putOps pairs) k = none) ∨
    ∃ v, (k, v) ∈ pairs ∧ pending (putOps pairs) k = some (some v) := by
  cases hp : pending (putOps pairs) k with
  | none =>
    refine Or.inl ⟨fun hmem => ?_, rfl⟩
    obtain ⟨e, he, rfl⟩ := List.mem_map.mp hmem
    have hop : ((e.1, some e.2) : Op Bytes Bytes) ∈ putOps pairs := List.mem_map_of_mem he
    unfold pending at hp
    rw [Option.map_eq_none_iff, List.find?_eq_none] at hp
    exact hp _ (List.mem_reverse.mpr hop) (by simp)
  | some v =>
    obtain ⟨e, he, heq⟩ := List.mem_map.mp (mem_of_pending hp)
    obtain ⟨rfl, rfl⟩ := Prod.mk.inj heq
    exact Or.inr ⟨e.2, he, rfl⟩

/-- Old keys that get a new value need no delete. -/
theorem pending_sweep (olds : List Bytes) (pairs : List (Bytes × Bytes)) (k : Bytes) :
    pending (delOps (olds.filter fun old => old ∉ pairs.map Prod.fst) ++ putOps pairs) k
      = pending (delOps olds ++ putOps pairs) k := by
  rw [pending_append, pending_append]
  rcases pending_putOps_cases pairs k with ⟨hno, hput⟩ | ⟨v, -, hput⟩
  · rw [hput, Option.none_or, Option.none_or, pending_delOps, pending_delOps]
    by_cases hk : k ∈ olds
    · have hmem : k ∈ olds.filter fun old => old ∉ pairs.map Prod.fst :=
        List.mem_filter.mpr ⟨hk, by simpa using hno⟩
      rw [if_pos hk, if_pos hmem]
    · have hmem : k ∉ olds.filter fun old => old ∉ pairs.map Prod.fst :=
        fun h => hk (List.mem_filter.mp h).1
      rw [if_neg hk, if_neg hmem]
  · rw [hput]
    rfl

namespace Document

variable {doc : Document K R}

/-! ## The entries of one row -/

/-- A slot belongs to one access method. -/
theorem eq_of_slot {α : Type} {slotOf : α → Slot} {l : List α} (h : (l.map slotOf).Nodup) {a b : α}
    (ha : a ∈ l) (hb : b ∈ l) (heq : slotOf a = slotOf b) : a = b :=
  List.inj_on_of_nodup_map h ha hb heq

theorem mem_entryPairs {index : KvIndex K R} {key : K} {row : R} {e : Bytes × Bytes}
    (h : e ∈ index.entryPairs doc.header key row) :
    e.2 = index.entryValue key row ∧ ∃ suffix, e.1 = faceKey doc.header index.slot suffix := by
  unfold KvIndex.entryPairs at h
  by_cases hadm : index.admits row
  · rw [if_pos hadm] at h
    obtain ⟨segment, -, rfl⟩ := List.mem_map.mp h
    exact ⟨rfl, _, rfl⟩
  · simp [hadm] at h

theorem lead_ne_index {lead : LeadFace K} {index : KvIndex K R} (hl : lead ∈ doc.leads)
    (hi : index ∈ doc.indexes) : lead.slot ≠ index.slot := by
  intro heq
  have h1 := doc.leadSlots lead hl
  have h2 := doc.indexSlots index hi
  rw [heq, h2] at h1
  simp [Segment.lead, Segment.index] at h1

/-- **One row binds an entry key once.** -/
theorem indexEntries_functional {key : K} {row : R} {k v v' : Bytes}
    (h : (k, v) ∈ doc.indexEntries key row) (h' : (k, v') ∈ doc.indexEntries key row) :
    v = v' := by
  rcases List.mem_append.mp h with h | h <;> rcases List.mem_append.mp h' with h' | h'
  · obtain ⟨lead, -, heq⟩ := List.mem_map.mp h
    obtain ⟨lead', -, heq'⟩ := List.mem_map.mp h'
    rw [← (Prod.mk.inj heq).2, ← (Prod.mk.inj heq').2]
  · obtain ⟨lead, hl, heq⟩ := List.mem_map.mp h
    obtain ⟨index, hi, h'⟩ := List.mem_flatMap.mp h'
    obtain ⟨-, suffix, hkey⟩ := mem_entryPairs h'
    have hslot := ((faceKey_inj _ _ _ _ _).mp ((Prod.mk.inj heq).1.trans hkey)).1
    exact absurd hslot (lead_ne_index hl hi)
  · obtain ⟨lead, hl, heq⟩ := List.mem_map.mp h'
    obtain ⟨index, hi, h⟩ := List.mem_flatMap.mp h
    obtain ⟨-, suffix, hkey⟩ := mem_entryPairs h
    have hslot := ((faceKey_inj _ _ _ _ _).mp ((Prod.mk.inj heq).1.trans hkey)).1
    exact absurd hslot (lead_ne_index hl hi)
  · obtain ⟨index, hi, h⟩ := List.mem_flatMap.mp h
    obtain ⟨index', hi', h'⟩ := List.mem_flatMap.mp h'
    obtain ⟨hval, suffix, hkey⟩ := mem_entryPairs h
    obtain ⟨hval', suffix', hkey'⟩ := mem_entryPairs h'
    have hslot := ((faceKey_inj _ _ _ _ _).mp (hkey.symm.trans hkey')).1
    obtain rfl := eq_of_slot doc.indexesNodup hi hi' hslot
    exact hval.trans hval'.symm

/-! ## What the bodies do to the faces -/

theorem primaryKey_ne_face (doc : Document K R) (key : K) {s : Slot} (hs : s ∈ doc.faceSlots)
    (suffix : Bytes) : doc.primaryKey key ≠ faceKey doc.header s suffix := by
  refine faceKey_ne_of_slot ?_ _ _
  rintro rfl
  exact doc.primary_not_face hs

/-- Under a face slot a row write is its sweep and its new entries. -/
theorem rowImage_face {key : K} {document : R} {prev : Option R} {stale : List Bytes}
    (elsewhere : doc.EmbedsElsewhere) (f : Reads) {s : Slot} (hs : s ∈ doc.faceSlots)
    (suffix : Bytes) :
    doc.rowImage key document prev stale f (faceKey doc.header s suffix)
      = written (delOps stale ++ putOps (doc.indexEntries key document)) f
          (faceKey doc.header s suffix) := by
  have hne := doc.primaryKey_ne_face key hs suffix
  have hred := doc.face_not_reduce hs
  rw [rowImage, doc.regroup_at_slot hred, written, pending_rowOps elsewhere, pending_singleton,
    if_neg hne, Option.or_none, doc.unfolded_at_slot hred]
  rfl

theorem swept_writeRow {key : K} {document : R} {prev : Option R} (elsewhere : doc.EmbedsElsewhere)
    (f : Reads) : doc.Swept f (doc.rowImage key document prev (doc.staleFaces key document prev) f)
      key prev (some document) := by
  intro s hs suffix
  have hsweep : pending (delOps (doc.staleFaces key document prev)
        ++ putOps (doc.indexEntries key document)) (faceKey doc.header s suffix)
      = pending (delOps ((prev.elim [] (doc.indexEntries key)).map Prod.fst)
        ++ putOps (doc.indexEntries key document)) (faceKey doc.header s suffix) := by
    cases prev with
    | none => rfl
    | some old => exact pending_sweep _ _ _
  rw [rowImage_face elsewhere f hs, written, hsweep]
  rfl

/-- Nothing to sweep: the new entries are all there is to do. -/
theorem swept_of_stale {f f' : Reads} {key : K} {old : Option R} {row : R}
    (hstale : doc.staleFaces key row old = [])
    (h : ∀ s ∈ doc.faceSlots, ∀ suffix, f' (faceKey doc.header s suffix)
      = written (putOps (doc.indexEntries key row)) f (faceKey doc.header s suffix)) :
    doc.Swept f f' key old (some row) := by
  intro s hs suffix
  rw [h s hs suffix, written, written]
  cases old with
  | none => rfl
  | some old =>
    have hsweep := pending_sweep ((doc.indexEntries key old).map Prod.fst)
      (doc.indexEntries key row) (faceKey doc.header s suffix)
    change pending (delOps (doc.staleFaces key row (some old)) ++ _) _ = _ at hsweep
    rw [hstale] at hsweep
    change _ = (pending (delOps ((doc.indexEntries key old).map Prod.fst)
      ++ putOps (doc.indexEntries key row)) _).getD _
    rw [← hsweep]
    rfl

theorem swept_deleteInto {key : K} {document : R} (f : Reads) :
    doc.Swept f (doc.removeImage key document f) key (some document) none := by
  intro s hs suffix
  have hne := doc.primaryKey_ne_face key hs suffix
  rw [removeImage, doc.regroup_at_slot (doc.face_not_reduce hs), removeOps, written_append,
    Function.comp_apply]
  have hrow : written [(doc.primaryKey key, none)] f (faceKey doc.header s suffix)
      = f (faceKey doc.header s suffix) := by
    refine written_of_not_mem (fun op hop => ?_) f
    obtain rfl := List.mem_singleton.mp hop
    exact hne
  rw [written, hrow, putOps]
  change _ = (pending (delOps ((doc.indexEntries key document).map Prod.fst) ++ [])
    (faceKey doc.header s suffix)).getD _
  rw [List.append_nil]

/-! ## One cleaning step -/

/-- A verb that cleans moved one row: the row, its group and its faces moved
together, and the vocabularies kept up with the new row. -/
structure Cleaned (doc : Document K R) (f f' : Reads) (key : K) (old new : Option R) : Prop where
  move : doc.RowMove f f' key old new
  swept : doc.Swept f f' key old new
  vocabs : doc.VocabsSound f →
    doc.VocabsSound f' ∧ doc.IdsKept f f' ∧ ∀ row, new = some row → doc.Named f' row

/-- The row found under the key carries the one stored there. -/
def Found (doc : Document K R) (f : Reads) (key : K) (old : Option R) : Prop :=
  ∀ row, f (doc.primaryKey key) = some (doc.encodePayload row) → doc.Named f row →
    ∃ row', old = some row' ∧ doc.Carries row row'

/-- A step that moves no row. -/
structure Resting (doc : Document K R) (f f' : Reads) : Prop where
  quiet : OnlyUnder doc.header doc.Quiet f f'
  vocabs : doc.VocabsSound f → doc.VocabsSound f' ∧ doc.IdsKept f f'

theorem segmentSlot_not_label {s : Slot} (h : LabelSlot s) : ¬ SegmentSlot s := by
  intro hseg
  rcases hseg with rfl | rfl | rfl <;> rcases h with h | h <;>
    simp [dynamicSlot, fieldVocabIdSlot, fieldVocabNameSlot, Segment.vocabLabel,
      Segment.vocabId] at h

theorem Resting.refl (f : Reads) : Resting doc f f where
  quiet := OnlyUnder.refl f
  vocabs hs := ⟨hs, fun _ _ _ _ hres => hres⟩

theorem Resting.segment {f f' : Reads} (h : OnlyUnder doc.header SegmentSlot f f') :
    Resting doc f f' where
  quiet := h.mono fun _ => segmentSlot_quiet doc
  vocabs hs := vocabs_of_same hs fun _ suffix hlabel => h.at_slot (segmentSlot_not_label hlabel) suffix

theorem Resting.trans {f f' f'' : Reads} (h : Resting doc f f') (h' : Resting doc f' f'') :
    Resting doc f f'' where
  quiet := h.quiet.trans h'.quiet
  vocabs hs := by
    obtain ⟨hs', hk⟩ := h.vocabs hs
    obtain ⟨hs'', hk'⟩ := h'.vocabs hs'
    exact ⟨hs'', hk.trans hk'⟩

theorem Cleaned.resting {f f' f'' : Reads} {key : K} {old new : Option R}
    (h : Cleaned doc f f' key old new) (h' : Resting doc f' f'') : Cleaned doc f f'' key old new where
  move := h.move.quiet_right h'.quiet
  swept s hs suffix := by
    rw [h'.quiet.at_slot (fun hq => hq.2.1 hs), h.swept s hs]
  vocabs hsound := by
    obtain ⟨hs', hk, hnamed⟩ := h.vocabs hsound
    obtain ⟨hs'', hk'⟩ := h'.vocabs hs'
    exact ⟨hs'', hk.trans hk', fun row hrow => (hnamed row hrow).keep hk'⟩

/-- The row a save stores: the document with its labels interned. -/
def internedRow (doc : Document K R) (m : Keyspace) (document : R) : Option R :=
  match doc.intern document (freshView m) with
  | (.ok row, _) => some row
  | (.error _, _) => none

/-- **A row write behind its interning**, seen from the store: the row moves, and the
vocabularies name it. -/
theorem interned_write (laws : doc.LabelLaws) (elsewhere : doc.EmbedsElsewhere) {m : Keyspace}
    {key : K} {document row : R} {prev : Option R} {stale : List Bytes}
    {s₁ s' : BatchStore Keyspace} (hintern : doc.intern document (freshView m) = (.ok row, s₁))
    (hstale : ∀ k ∈ stale, Under doc.header (· ∈ doc.faceSlots) k)
    (hstored : m.get (doc.primaryKey key) = prev.map doc.encodePayload)
    (hview : viewGet s' = doc.rowImage key row prev stale (viewGet s₁)) :
    doc.RowMove m.get (viewGet s') key prev (some row) ∧
    (doc.VocabsSound m.get → doc.VocabsSound (viewGet s') ∧ doc.IdsKept m.get (viewGet s') ∧
      ∀ row', some row = some row' → doc.Named (viewGet s') row') ∧
    ∀ s, s ∈ doc.faceSlots → ∀ suffix, viewGet s' (faceKey doc.header s suffix)
      = written (delOps stale ++ putOps (doc.indexEntries key row)) m.get
          (faceKey doc.header s suffix) := by
  have hquiet := (confined_intern doc (σ := BatchStore Keyspace) document (freshView m)).mono
    fun _ => labelSlot_quiet doc
  rw [hintern] at hquiet
  change OnlyUnder doc.header doc.Quiet m.get (viewGet s₁) at hquiet
  have hstored₁ : viewGet s₁ (doc.primaryKey key) = prev.map doc.encodePayload := by
    rw [← hstored]
    exact hquiet.at_slot (fun hs => hs.1 rfl) _
  refine ⟨?_, fun hsound => ?_, fun s hs suffix => ?_⟩
  · rw [hview]
    exact (rowMove_writeRow elsewhere hstale hstored₁).quiet_left hquiet
  · obtain ⟨hs₁, hk₁, hnamed⟩ := intern_spec laws (s := freshView m) hsound hintern
    have hsame : ∀ s suffix, LabelSlot s →
        viewGet s' (faceKey doc.header s suffix) = viewGet s₁ (faceKey doc.header s suffix) := by
      intro s suffix hlabel
      rw [hview]
      exact writeRow_quiet elsewhere hstale _ (labelSlot_quiet doc hlabel) suffix
    obtain ⟨hs', hk⟩ := vocabs_of_same hs₁ hsame
    refine ⟨hs', hk₁.trans hk, fun row' hrow => ?_⟩
    obtain rfl := Option.some.inj hrow
    exact hnamed.keep hk
  · rw [hview, rowImage_face elsewhere _ hs, written, written,
      hquiet.at_slot fun hq => hq.2.1 hs]

/-- **A save that answers cleans** the row it found. -/
theorem cleaned_save (laws : doc.LabelLaws) (elsewhere : doc.EmbedsElsewhere) {m : Keyspace}
    {key : K} {document : R} {given prev : Option R} {s' : BatchStore Keyspace}
    (hprev : doc.prevRow key given (freshView m) = (.ok prev, freshView m))
    (hstored : m.get (doc.primaryKey key) = prev.map doc.encodePayload)
    (h : doc.saveWithPrevInto key document given (freshView m) = (.ok (), s')) :
    ∃ row, doc.internedRow m document = some row ∧
      Cleaned doc m.get (viewGet s') key prev (some row) := by
  obtain ⟨row, s₁, hintern, hview⟩ := saveWithPrevInto_inv hprev h
  obtain ⟨hmove, hvocabs, hfaces⟩ :=
    interned_write laws elsewhere hintern staleFaces_under hstored hview
  refine ⟨row, by rw [internedRow, hintern], hmove, fun s hs suffix => ?_, hvocabs⟩
  have hswept : doc.Swept m.get (doc.rowImage key row prev (doc.staleFaces key row prev) m.get) key
      prev (some row) := swept_writeRow elsewhere m.get
  rw [hfaces s hs suffix, ← rowImage_face elsewhere _ hs]
  exact hswept s hs suffix

/-- **A removal cleans** the row it found. -/
theorem cleaned_deleteInto {key : K} {document : R} {f : Reads}
    (hstored : f (doc.primaryKey key) = some (doc.encodePayload document)) :
    Cleaned doc f (doc.removeImage key document f) key (some document) none where
  move := rowMove_deleteInto hstored
  swept := swept_deleteInto f
  vocabs hsound := by
    have hsame : ∀ s suffix, LabelSlot s →
        doc.removeImage key document f (faceKey doc.header s suffix)
          = f (faceKey doc.header s suffix) :=
      fun s suffix hlabel => deleteInto_quiet f (labelSlot_quiet doc hlabel) suffix
    obtain ⟨hs', hk⟩ := vocabs_of_same hsound hsame
    exact ⟨hs', hk, by simp⟩

end Document

end Okm.Model
