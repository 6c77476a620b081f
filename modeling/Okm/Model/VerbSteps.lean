import Okm.Model.SideWrites

/-!
# What each verb does

The verbs read off as steps: which row a verb finds, which row it interns, and
what its keys read as afterwards. A row is read back with the payload it is
stored under (`get_payload`), whichever way a verb finds it, so every verb that
is not refused is one row write or one row removal with quiet writes around it.
-/

namespace Okm.Model

open Lib VirtualStorage KeyEncode

namespace Document

variable {K R : Type} [KeyEncode K] (doc : Document K R)

/-- What the derive guarantees of a payload: neither a dereferenced child nor a
filled-in label is part of it. -/
structure PayloadLaws : Prop where
  embedDeref_payload : ∀ {read : ReadFn} {r r' : R}, doc.embedDeref read r = .ok r' →
    doc.encodePayload r' = doc.encodePayload r
  setName_payload : ∀ f ∈ doc.vocabFields, ∀ r name,
    doc.encodePayload (f.setName r name) = doc.encodePayload r

/-- Read back and written again the row keeps its payload. A fixed-point value past the
integers an `f64` holds does not. -/
def Settled (row : R) : Prop :=
  doc.encodePayload (doc.decodePayload (doc.encodePayload row)) = doc.encodePayload row

/-- Under the primary slot there are settled rows, each under the encoding of its key. -/
def RowsEncoded (f : Reads) : Prop :=
  ∀ suffix raw, f (faceKey doc.header primarySlot suffix) = some raw →
    ∃ (k : K) (r : R), suffix = encode k ∧ raw = doc.encodePayload r ∧ doc.Settled r

variable {doc}

theorem RowsEncoded.reencode {f : Reads} (h : doc.RowsEncoded f) {key : K} {raw : Bytes}
    (hraw : f (doc.primaryKey key) = some raw) :
    doc.encodePayload (doc.decodePayload raw) = raw := by
  obtain ⟨k, r, -, rfl, hsettled⟩ := h (encode key) raw hraw
  exact hsettled

theorem RowsEncoded.settled {f : Reads} (h : doc.RowsEncoded f) {key : K} {row : R}
    (hraw : f (doc.primaryKey key) = some (doc.encodePayload row)) : doc.Settled row :=
  h.reencode hraw

theorem RowsEncoded.changed {f f' : Reads} (h : doc.RowsEncoded f) {key : K} {new : Option R}
    (hrows : ∀ suffix, f' (faceKey doc.header primarySlot suffix)
      = if suffix = encode key then new.map doc.encodePayload
        else f (faceKey doc.header primarySlot suffix))
    (hnew : ∀ row, new = some row → doc.Settled row) : doc.RowsEncoded f' := by
  intro suffix raw hraw
  rw [hrows] at hraw
  by_cases hs : suffix = encode key
  · rw [if_pos hs] at hraw
    obtain ⟨row, hsome, rfl⟩ := Option.map_eq_some_iff.mp hraw
    exact ⟨key, row, hs, rfl, hnew row hsome⟩
  · rw [if_neg hs] at hraw
    exact h suffix raw hraw

theorem RowsEncoded.kept {f f' : Reads} (h : doc.RowsEncoded f)
    (hrows : ∀ suffix, f' (faceKey doc.header primarySlot suffix)
      = f (faceKey doc.header primarySlot suffix)) : doc.RowsEncoded f' :=
  fun suffix raw hraw => h suffix raw ((hrows suffix).symm.trans hraw)

theorem Settled.congr {row row' : R} (h : doc.Settled row)
    (heq : doc.encodePayload row' = doc.encodePayload row) : doc.Settled row' := by
  unfold Settled
  rw [heq]
  exact h

/-! ## Reading a row back -/

section

variable {σ : Type} [LawfulStorage σ]

theorem derefVocabFields_payload (laws : doc.PayloadLaws) {header : Bytes} {store : σ}
    {fs : List (VocabField R)} (hfs : ∀ f ∈ fs, f ∈ doc.vocabFields) {document document' : R}
    (h : Document.derefVocabFields header store fs document = .ok document') :
    doc.encodePayload document' = doc.encodePayload document := by
  induction fs generalizing document with
  | nil => rw [Except.ok.inj h]
  | cons f fs ih =>
    have hfs' : ∀ f' ∈ fs, f' ∈ doc.vocabFields := fun f' hf' => hfs f' (List.mem_cons_of_mem _ hf')
    rw [Document.derefVocabFields] at h
    cases hlabel : f.label document with
    | some label =>
      rw [hlabel] at h
      exact ih hfs' h
    | none =>
      cases hid : f.id document with
      | none =>
        rw [hlabel, hid] at h
        exact ih hfs' h
      | some id =>
        rw [hlabel, hid] at h
        dsimp only at h
        generalize VocabCache.nameFor f.width { faces := f.faces } store header id = answer at h
        obtain ⟨verdict, cache⟩ := answer
        cases verdict with
        | error e => cases h
        | ok name =>
          cases name with
          | none => exact ih hfs' h
          | some name =>
            rw [ih hfs' h, laws.setName_payload f (hfs f List.mem_cons_self)]

theorem derefVocab_ok (laws : doc.PayloadLaws) (store : σ) (document : R) :
    ∃ document', doc.derefVocab store document = .ok document' ∧
      doc.encodePayload document' = doc.encodePayload document := by
  obtain ⟨document', h⟩ := derefVocabFields_ok doc.header store doc.vocabFields document
  exact ⟨document', h, derefVocabFields_payload laws (fun _ hf => hf) h⟩

/-- **A stored row is read back with its payload.** -/
theorem get_payload (laws : doc.PayloadLaws) (store : σ)
    (hrows : doc.RowsEncoded (LawfulStorage.read store)) (key : K) :
    ∃ row, doc.get store key = .ok row ∧
      LawfulStorage.read store (doc.primaryKey key) = row.map doc.encodePayload := by
  unfold Document.get
  rw [LawfulStorage.get_eq]
  cases hraw : LawfulStorage.read store (doc.primaryKey key) with
  | none => exact ⟨none, rfl, rfl⟩
  | some raw =>
    have hread : ∀ k, ∃ v, VirtualStorage.get store k = .ok v :=
      fun k => ⟨_, LawfulStorage.get_eq store k⟩
    obtain ⟨child, hchild⟩ := doc.embedDeref_ok hread (doc.decodePayload raw)
    obtain ⟨row, hrow, hpayload⟩ := derefVocab_ok laws store child
    refine ⟨some row, ?_, ?_⟩
    · change (doc.embedDeref (VirtualStorage.get store) (doc.decodePayload raw) >>= _) = _
      rw [hchild]
      change (doc.derefVocab store child >>= _) = _
      rw [hrow]
      rfl
    · rw [Option.map_some, hpayload, laws.embedDeref_payload hchild, hrows.reencode hraw]

end

/-! ## The old row -/

/-- The row a save replaces is the stored one, given or read. -/
theorem prevRow_spec (laws : doc.PayloadLaws) {s : BatchStore Keyspace}
    (hrows : doc.RowsEncoded (viewGet s)) (key : K) (given : Option R)
    (hgiven : ∀ old, given = some old →
      viewGet s (doc.primaryKey key) = some (doc.encodePayload old)) :
    ∃ prev, doc.prevRow key given s = (.ok prev, s) ∧
      viewGet s (doc.primaryKey key) = prev.map doc.encodePayload := by
  cases given with
  | some old => exact ⟨some old, rfl, hgiven old rfl⟩
  | none =>
    have hget : peek (fun view => VirtualStorage.get view (doc.primaryKey key)) s
        = (.ok (viewGet s (doc.primaryKey key)), s) :=
      congrArg (·, s) (lawfulBatchStore.get_eq s (doc.primaryKey key))
    unfold Document.prevRow
    dsimp only
    rw [run_bind_of_ok hget]
    cases hraw : viewGet s (doc.primaryKey key) with
    | none => exact ⟨none, rfl, rfl⟩
    | some raw =>
      obtain ⟨old, hold, hpayload⟩ := derefVocab_ok laws s.store (doc.decodePayload raw)
      have hpeek : peekStore (fun store => doc.derefVocab store (doc.decodePayload raw)) s
          = (.ok old, s) := congrArg (·, s) hold
      refine ⟨some old, ?_, ?_⟩
      · dsimp only
        rw [run_bind_of_ok hpeek]
        rfl
      · rw [Option.map_some, hpayload, hrows.reencode hraw]

/-! ## Saves and removals -/

/-- **A save that answers** wrote the row it interned over the row it found. -/
theorem saveWithPrevInto_inv {s s' : BatchStore Keyspace} {key : K} {document : R}
    {given prev : Option R} (hprev : doc.prevRow key given s = (.ok prev, s))
    (h : doc.saveWithPrevInto key document given s = (.ok (), s')) :
    ∃ row s₁, doc.intern document s = (.ok row, s₁) ∧
      viewGet s' = doc.rowImage key row prev (doc.staleFaces key row prev) (viewGet s₁) := by
  unfold Document.saveWithPrevInto at h
  rw [run_bind_of_ok hprev] at h
  obtain ⟨row, s₁, hintern, h⟩ := run_bind_eq_ok.mp h
  obtain ⟨s₂, hwrite, hview⟩ := doc.writes_writeRow (σ := BatchStore Keyspace) key row prev
    (doc.staleFaces key row prev) s₁
  obtain ⟨-, rfl⟩ := Prod.mk.inj (h.symm.trans hwrite)
  exact ⟨row, s₁, hintern, hview⟩

/-- A refused save left at most labels behind. -/
theorem saveWithPrevInto_refused {s s' : BatchStore Keyspace} {key : K} {document : R}
    {given prev : Option R} {e : Error} (hprev : doc.prevRow key given s = (.ok prev, s))
    (h : doc.saveWithPrevInto key document given s = (.error e, s')) :
    OnlyUnder doc.header LabelSlot (viewGet s) (viewGet s') := by
  unfold Document.saveWithPrevInto at h
  rw [run_bind_of_ok hprev, run_bind] at h
  have hintern := confined_intern doc (σ := BatchStore Keyspace) document s
  generalize doc.intern document s = answer at h hintern
  obtain ⟨verdict, s₁⟩ := answer
  cases verdict with
  | error e' =>
    obtain ⟨-, rfl⟩ := Prod.mk.inj h
    exact hintern
  | ok row =>
    obtain ⟨s₂, hwrite, -⟩ := doc.writes_writeRow (σ := BatchStore Keyspace) key row prev
      (doc.staleFaces key row prev) s₁
    have habs := congrArg Prod.fst (h.symm.trans hwrite)
    cases habs

/-- What the keys read as after `deletePrev`. -/
def deletedImage (doc : Document K R) (key : K) : Option R → Reads → Reads
  | some old => doc.removeImage key old
  | none => id

section

variable {σ : Type} [LawfulStorage σ]

theorem writes_deletePrev (doc : Document K R) (key : K) (prev : Option R) :
    Writes (σ := σ) (doc.deletedImage key prev) (doc.deletePrev key prev) := by
  cases prev with
  | none => exact Does.nothing
  | some old => exact doc.writes_deleteInto key old

theorem removalReads_spec (laws : doc.PayloadLaws) {s : σ}
    (hrows : doc.RowsEncoded (LawfulStorage.read s)) (key : K) :
    ∃ prev segment, doc.removalReads key s = .ok (prev, segment) ∧
      LawfulStorage.read s (doc.primaryKey key) = prev.map doc.encodePayload := by
  obtain ⟨prev, hget, hstored⟩ := get_payload laws _ hrows key
  refine ⟨prev, (LawfulStorage.read s (doc.fieldsKey key)).isSome, ?_, hstored⟩
  unfold Document.removalReads
  rw [hget]
  change (VirtualStorage.get s (doc.fieldsKey key) >>= _) = _
  rw [LawfulStorage.get_eq]
  rfl

/-- **A removal** is never refused; beside the row it drops the segment. -/
theorem removeInto_spec (doc : Document K R) (key : K) (prev : Option R) (segment : Bool) (s : σ) :
    ∃ s₁ s' : σ, doc.removeInto key prev segment s = (.ok (), s') ∧
      LawfulStorage.read s₁ = doc.deletedImage key prev (LawfulStorage.read s) ∧
      OnlyUnder doc.header SegmentSlot (LawfulStorage.read s₁) (LawfulStorage.read s') := by
  obtain ⟨s₁, hok, hview⟩ := writes_deletePrev doc key prev s
  unfold Document.removeInto
  rw [run_bind_of_ok hok]
  cases segment with
  | false => exact ⟨s₁, s₁, rfl, hview, OnlyUnder.refl _⟩
  | true =>
    obtain ⟨s', hok', hview'⟩ := writes_dropKey (doc.fieldsKey key) s₁
    refine ⟨s₁, s', hok', hview, fun k hk => ?_⟩
    rw [hview']
    refine written_of_not_mem (fun op hop heq => hk ?_) _
    obtain rfl := List.mem_singleton.mp hop
    exact ⟨dynamicSlot, _, Or.inl rfl, heq.symm⟩

end

/-! ## One row at a time -/

theorem labelSlot_quiet (doc : Document K R) {s : Slot} (h : LabelSlot s) : doc.Quiet s := by
  refine ⟨?_, fun hface => ?_, fun hred => ?_⟩
  · rintro rfl
    rcases h with h | h <;> simp [primarySlot, Segment.vocabLabel, Segment.vocabId] at h
  · rcases doc.family_of_faceSlots hface with hf | hf <;> rcases h with h | h <;>
      simp [hf, Segment.vocabLabel, Segment.vocabId, Segment.lead, Segment.index] at h
  · obtain ⟨reduce, hmem, rfl⟩ := List.mem_map.mp hred
    have hf := doc.reduceSlots reduce hmem
    rcases h with h | h <;>
      simp [hf, Segment.vocabLabel, Segment.vocabId, Segment.reduce] at h

theorem segmentSlot_quiet (doc : Document K R) {s : Slot} (h : SegmentSlot s) : doc.Quiet s := by
  have hval : s.val = 1 ∨ s.val = 2 ∨ s.val = 3 := by
    rcases h with rfl | rfl | rfl
    · exact Or.inl rfl
    · exact Or.inr (Or.inl rfl)
    · exact Or.inr (Or.inr rfl)
  have hfam : s.val / 0x1000 = 0 := by omega
  refine ⟨?_, fun hface => ?_, fun hred => ?_⟩
  · rintro rfl
    simp [primarySlot] at hval
  · rcases doc.family_of_faceSlots hface with hf | hf <;>
      simp [hf, Segment.lead, Segment.index] at hfam
  · obtain ⟨reduce, hmem, rfl⟩ := List.mem_map.mp hred
    have hf := doc.reduceSlots reduce hmem
    simp [hf, Segment.reduce] at hfam

theorem quiet_not_reduce {reduce : Reduce K R} (h : reduce ∈ doc.reduces) :
    ¬ doc.Quiet reduce.slot := fun hq => hq.2.2 (List.mem_map_of_mem h)

theorem RowMove.quiet_left {f f' f'' : Reads} {key : K} {old new : Option R}
    (hq : OnlyUnder doc.header doc.Quiet f f') (h : doc.RowMove f' f'' key old new) :
    doc.RowMove f f'' key old new where
  stored := by
    rw [← h.stored]
    exact (hq.at_slot (fun hs => hs.1 rfl) _).symm
  rows suffix := by rw [h.rows, hq.at_slot (fun hs => hs.1 rfl)]
  groups reduce hmem g := by rw [h.groups reduce hmem, hq.at_slot (quiet_not_reduce hmem)]

theorem RowMove.quiet_right {f f' f'' : Reads} {key : K} {old new : Option R}
    (h : doc.RowMove f f' key old new) (hq : OnlyUnder doc.header doc.Quiet f' f'') :
    doc.RowMove f f'' key old new where
  stored := h.stored
  rows suffix := by rw [hq.at_slot (fun hs => hs.1 rfl), h.rows]
  groups reduce hmem g := by rw [hq.at_slot (quiet_not_reduce hmem), h.groups reduce hmem]

/-- All a verb does to rows and accumulators: nothing, or one row moves. The row it
stores, if any, meets `P`. -/
inductive RowEffect (doc : Document K R) (P : K → R → Prop) (f f' : Reads) : Prop
  | still (quiet : OnlyUnder doc.header doc.Quiet f f')
  | moved (key : K) (old new : Option R) (move : doc.RowMove f f' key old new)
      (hnew : ∀ row, new = some row → P key row)

variable {P : K → R → Prop}

theorem RowEffect.quiet_right {f f' f'' : Reads} (h : RowEffect doc P f f')
    (hq : OnlyUnder doc.header doc.Quiet f' f'') : RowEffect doc P f f'' := by
  cases h with
  | still quiet => exact .still (quiet.trans hq)
  | moved key old new move hnew => exact .moved key old new (move.quiet_right hq) hnew

/-- The row a save of the document stores: interned, it meets `P`. -/
def Storing (doc : Document K R) (P : K → R → Prop) (s : BatchStore Keyspace) (key : K)
    (document : R) : Prop :=
  ∀ row s', doc.intern document s = (.ok row, s') → P key row

theorem staleFaces_under {key : K} {document : R} {prev : Option R} :
    ∀ k ∈ doc.staleFaces key document prev, Under doc.header (· ∈ doc.faceSlots) k := by
  intro k hk
  cases prev with
  | none => simp [Document.staleFaces] at hk
  | some old =>
    obtain ⟨e, he, rfl⟩ := List.mem_map.mp (List.mem_filter.mp hk).1
    exact doc.under_of_indexEntries he

section

variable (laws : doc.PayloadLaws) (elsewhere : doc.EmbedsElsewhere)

include laws elsewhere

theorem effect_saveWithPrevInto {s : BatchStore Keyspace} (hrows : doc.RowsEncoded (viewGet s))
    {key : K} {document : R} (storing : doc.Storing P s key document) {given : Option R}
    (hgiven : ∀ old, given = some old →
      viewGet s (doc.primaryKey key) = some (doc.encodePayload old)) :
    RowEffect doc P (viewGet s) (viewGet (doc.saveWithPrevInto key document given s).2) := by
  obtain ⟨prev, hprev, hstored⟩ := prevRow_spec laws hrows key given hgiven
  cases h : doc.saveWithPrevInto key document given s with
  | mk verdict s' =>
    cases verdict with
    | error e =>
      exact .still ((saveWithPrevInto_refused hprev h).mono fun _ => labelSlot_quiet doc)
    | ok u =>
      obtain ⟨row, s₁, hintern, hview⟩ := saveWithPrevInto_inv hprev h
      have hquiet := (confined_intern doc (σ := BatchStore Keyspace) document s).mono
        fun _ => labelSlot_quiet doc
      rw [hintern] at hquiet
      have hstored₁ : viewGet s₁ (doc.primaryKey key) = prev.map doc.encodePayload := by
        rw [← hstored]
        exact hquiet.at_slot (fun hs => hs.1 rfl) _
      change RowEffect doc P (viewGet s) (viewGet s')
      rw [hview]
      refine .moved key prev (some row)
        ((rowMove_writeRow elsewhere staleFaces_under hstored₁).quiet_left hquiet) fun row' hrow => ?_
      rw [← Option.some.inj hrow]
      exact storing row s₁ hintern

omit laws in
theorem effect_putInto {s : BatchStore Keyspace} (hrows : doc.RowsEncoded (viewGet s)) {key : K}
    {document : R} (storing : doc.Storing P s key document) :
    RowEffect doc P (viewGet s) (viewGet (doc.putInto key document s).2) := by
  have hquiet := (confined_intern doc (σ := BatchStore Keyspace) document s).mono
    fun _ => labelSlot_quiet doc
  unfold Document.putInto
  rw [run_bind]
  unfold Storing at storing
  generalize doc.intern document s = answer at hquiet storing ⊢
  obtain ⟨verdict, s₁⟩ := answer
  cases verdict with
  | error e => exact .still hquiet
  | ok row =>
    dsimp only
    have hget : peek (fun view => VirtualStorage.get view (doc.primaryKey key)) s₁
        = (.ok (viewGet s₁ (doc.primaryKey key)), s₁) :=
      congrArg (·, s₁) (lawfulBatchStore.get_eq s₁ (doc.primaryKey key))
    rw [run_bind_of_ok hget]
    obtain ⟨s₂, hwrite, hview⟩ := doc.writes_writeRow (σ := BatchStore Keyspace) key row
      ((viewGet s₁ (doc.primaryKey key)).map doc.decodePayload) [] s₁
    have hstored : viewGet s₁ (doc.primaryKey key)
        = ((viewGet s₁ (doc.primaryKey key)).map doc.decodePayload).map doc.encodePayload := by
      cases hraw : viewGet s₁ (doc.primaryKey key) with
      | none => rfl
      | some raw =>
        have hsame : viewGet s (doc.primaryKey key) = some raw := by
          rw [← hraw]
          exact (hquiet.at_slot (fun hs => hs.1 rfl) _).symm
        rw [Option.map_some, Option.map_some, hrows.reencode hsame]
    change RowEffect doc P (viewGet s) (viewGet (doc.writeRow key row _ [] s₁).2)
    rw [hwrite]
    change RowEffect doc P (viewGet s) (viewGet s₂)
    have hview' : viewGet s₂ = _ := hview
    rw [hview']
    refine .moved key _ (some row)
      ((rowMove_writeRow elsewhere (by simp) hstored).quiet_left hquiet) fun row' hrow => ?_
    rw [← Option.some.inj hrow]
    exact storing row s₁ rfl

end

theorem effect_deletePrev {f : Reads} {key : K} {prev : Option R}
    (hstored : f (doc.primaryKey key) = prev.map doc.encodePayload) :
    RowEffect doc P f (doc.deletedImage key prev f) := by
  cases prev with
  | none => exact .still (OnlyUnder.refl _)
  | some old => exact .moved key (some old) none (rowMove_deleteInto hstored) (by simp)

theorem effect_removeInto {s : BatchStore Keyspace} {key : K} {prev : Option R} (segment : Bool)
    (hstored : viewGet s (doc.primaryKey key) = prev.map doc.encodePayload) :
    RowEffect doc P (viewGet s) (viewGet (doc.removeInto key prev segment s).2) := by
  obtain ⟨s₁, s', hok, hview, hquiet⟩ := removeInto_spec doc key prev segment s
  rw [hok]
  have heffect : RowEffect doc P (viewGet s) _ := effect_deletePrev hstored
  have hview' : viewGet s₁ = doc.deletedImage key prev (viewGet s) := hview
  rw [← hview'] at heffect
  exact heffect.quiet_right (hquiet.mono fun _ => segmentSlot_quiet doc)

theorem effect_purgeInto (laws : doc.PayloadLaws) {s : BatchStore Keyspace}
    (hrows : doc.RowsEncoded (viewGet s)) (key : K) :
    RowEffect doc P (viewGet s) (viewGet (doc.purgeInto key s).2) := by
  obtain ⟨prev, segment, hreads, hstored⟩ := removalReads_spec laws (s := s) hrows key
  have hpeek : peek (doc.removalReads key) s = (.ok (prev, segment), s) :=
    congrArg (·, s) hreads
  unfold Document.purgeInto
  rw [run_bind_of_ok hpeek]
  dsimp only
  by_cases hnone : (prev.isNone && !segment) = true
  · rw [if_pos hnone]
    exact .still (OnlyUnder.refl _)
  · rw [if_neg hnone]
    have heffect : RowEffect doc P (viewGet s) _ := effect_removeInto segment hstored
    obtain ⟨s₁, s', hok, -, -⟩ := removeInto_spec doc key prev segment s
    rw [run_bind_of_ok hok]
    rw [hok] at heffect
    exact heffect

theorem confined_mergeDynamic (doc : Document K R) (key : K) (dynamic : SortedMap String DynamicValue) :
    Confined doc.header SegmentSlot (doc.mergeDynamic (σ := Keyspace) key dynamic) := by
  intro s
  unfold Document.mergeDynamic
  by_cases hempty : dynamic.entries = []
  · rw [if_pos hempty]
    exact OnlyUnder.refl _
  · rw [if_neg hempty]
    have hpeek : Confined doc.header SegmentSlot
        (peekStore (σ := Keyspace) fun store => doc.slot1Map store key) := fun _ => OnlyUnder.refl _
    have hwrite : ∀ stored : Option (SortedMap String DynamicValue),
        Confined doc.header SegmentSlot (doc.slot1Into (σ := Keyspace) key
          ((stored.getD SortedMap.empty).extend dynamic)) :=
      fun stored => confined_slot1Into doc key _
    exact Keeps.bind (fun _ _ _ h h' => h.trans h') hpeek hwrite s

/-! ## The verbs that commit -/

/-- A verb leaves the store as it was, or what its batch stands for. -/
theorem commitWrites_cases {α : Type} (m : Keyspace) (body : Verb (BatchStore Keyspace) α) :
    (∃ e s', body (freshView m) = (.error e, s') ∧ (commitWrites m body) = (.error e, m)) ∨
    (∃ a s', body (freshView m) = (.ok a, s') ∧ (commitWrites m body) = (.ok a, viewMap s')) := by
  unfold commitWrites
  cases h : body (freshView m) with
  | mk verdict s' =>
    change body ⟨m, {}⟩ = _ at h
    rw [h]
    cases verdict with
    | error e => exact Or.inl ⟨e, s', rfl, rfl⟩
    | ok a => exact Or.inr ⟨a, s', rfl, rfl⟩

theorem effect_commitWrites {α : Type} {m : Keyspace} {body : Verb (BatchStore Keyspace) α}
    (h : RowEffect doc P m.get (viewGet (body (freshView m)).2)) :
    RowEffect doc P m.get (commitWrites m body).2.get := by
  rcases commitWrites_cases m body with ⟨e, s', -, hcommit⟩ | ⟨a, s', hbody, hcommit⟩
  · rw [hcommit]
    exact .still (OnlyUnder.refl _)
  · rw [hcommit]
    rw [hbody] at h
    change RowEffect doc P m.get (viewMap s').get
    rw [get_viewMap]
    exact h

section

variable (laws : doc.PayloadLaws) (elsewhere : doc.EmbedsElsewhere)
variable {m : Keyspace} (hrows : doc.RowsEncoded m.get)

include laws elsewhere hrows

omit laws in
theorem effect_put {key : K} {document : R} (storing : doc.Storing P (freshView m) key document) :
    RowEffect doc P m.get (doc.put m key document).2.get :=
  effect_commitWrites (effect_putInto elsewhere (s := freshView m) hrows storing)

theorem effect_upsertWith {key : K} {f : Option R → R}
    (storing : ∀ old, doc.get m key = .ok old → doc.Storing P (freshView m) key (f old)) :
    RowEffect doc P m.get (doc.upsertWith m key f).2.get := by
  obtain ⟨old, hget, -⟩ := get_payload laws m hrows key
  have heffect := effect_put elsewhere hrows (storing old hget)
  unfold Document.upsertWith
  rw [hget]
  dsimp only
  generalize doc.put m key (f old) = answer at heffect ⊢
  obtain ⟨verdict, m'⟩ := answer
  cases verdict with
  | error e => exact heffect
  | ok u => exact heffect

omit elsewhere in
theorem effect_purge (key : K) : RowEffect doc P m.get (doc.purge m key).2.get := by
  obtain ⟨prev, segment, hreads, hstored⟩ := removalReads_spec laws (s := m) hrows key
  unfold Document.purge
  rw [hreads]
  dsimp only
  by_cases hnone : (prev.isNone && !segment) = true
  · rw [if_pos hnone]
    exact .still (OnlyUnder.refl _)
  · rw [if_neg hnone]
    refine effect_commitWrites ?_
    have heffect : RowEffect doc P m.get _ := effect_removeInto (s := freshView m) segment hstored
    obtain ⟨s₁, s', hok, -, -⟩ := removeInto_spec doc key prev segment (freshView m)
    rw [run_bind_of_ok hok]
    rw [hok] at heffect
    exact heffect

/-- The declared half of a `merge` or a `replace`: refused, or a save over the
stored row. -/
theorem effect_peekSave {key : K} {found : Keyspace → Except Error (R × Option R)}
    (storing : ∀ document prev, found m = .ok (document, prev) →
      doc.Storing P (freshView m) key document)
    (hfound : ∀ document prev, found m = .ok (document, prev) → doc.get m key = .ok prev) :
    RowEffect doc P m.get (viewGet ((do
      let (document, prev) ← peekStore found
      doc.saveWithPrevInto key document prev : Verb (BatchStore Keyspace) Unit)
        (freshView m)).2) := by
  rw [run_bind]
  cases hf : found m with
  | error e =>
    have hpeek : peekStore found (freshView m) = (.error e, freshView m) := congrArg (·, freshView m) hf
    rw [hpeek]
    exact .still (OnlyUnder.refl _)
  | ok pair =>
    obtain ⟨document, prev⟩ := pair
    have hpeek : peekStore found (freshView m) = (.ok (document, prev), freshView m) :=
      congrArg (·, freshView m) hf
    rw [hpeek]
    refine effect_saveWithPrevInto laws elsewhere (s := freshView m) hrows
      (storing document prev hf) fun old hold => ?_
    obtain ⟨row, hget, hstored⟩ := get_payload laws m hrows key
    rw [hfound document prev hf] at hget
    obtain rfl := Except.ok.inj hget
    change m.get _ = _
    have hstored' : m.get (doc.primaryKey key) = _ := hstored
    rw [hstored', hold]
    rfl

theorem effect_mergeTyped {key : K} {typed : SortedMap String DynamicValue}
    (storing : typed.entries ≠ [] → ∀ document prev, doc.mergedRow m key typed = .ok (document, prev) →
      doc.Storing P (freshView m) key document) :
    RowEffect doc P m.get (viewGet (doc.mergeTyped key typed (freshView m)).2) := by
  unfold Document.mergeTyped
  by_cases hempty : typed.entries = []
  · rw [if_pos hempty]
    exact .still (OnlyUnder.refl _)
  · rw [if_neg hempty]
    refine effect_peekSave laws elsewhere hrows (storing hempty) fun document prev hfound => ?_
    obtain ⟨row, hget, h⟩ := bind_eq_ok.mp hfound
    obtain ⟨document', -, h⟩ := bind_eq_ok.mp h
    obtain ⟨-, rfl⟩ := Prod.mk.inj (Except.ok.inj h)
    exact hget

theorem effect_replaceTyped {key : K} {typed : SortedMap String DynamicValue}
    (storing : typed.entries ≠ [] → ∀ document prev, doc.replacedRow m key typed = .ok (document, prev) →
      doc.Storing P (freshView m) key document) :
    RowEffect doc P m.get (viewGet (doc.replaceTyped key typed (freshView m)).2) := by
  unfold Document.replaceTyped
  by_cases hempty : typed.entries = []
  · rw [if_pos hempty]
    obtain ⟨prev, hget, hstored⟩ := get_payload laws m hrows key
    have hpeek : peekStore (fun store => doc.get store key) (freshView m)
        = (.ok prev, freshView m) := congrArg (·, freshView m) hget
    obtain ⟨s', hok, hview⟩ := writes_deletePrev doc key prev (freshView m)
    rw [run_bind_of_ok hpeek, hok]
    have hview' : viewGet s' = doc.deletedImage key prev m.get := hview
    change RowEffect doc P m.get (viewGet s')
    rw [hview']
    exact effect_deletePrev hstored
  · rw [if_neg hempty]
    refine effect_peekSave laws elsewhere hrows (storing hempty) fun document prev hfound => ?_
    obtain ⟨row, hget, h⟩ := bind_eq_ok.mp hfound
    obtain ⟨document', -, h⟩ := bind_eq_ok.mp h
    obtain ⟨-, rfl⟩ := Prod.mk.inj (Except.ok.inj h)
    exact hget

theorem effect_merge {key : K} {object : SortedMap String DynamicValue}
    (storing : (doc.splitNames object).1.entries ≠ [] → ∀ document prev,
      doc.mergedRow m key (doc.splitNames object).1 = .ok (document, prev) →
      doc.Storing P (freshView m) key document) :
    RowEffect doc P m.get (doc.merge m key object).2.get := by
  refine effect_commitWrites ?_
  have htyped := effect_mergeTyped laws elsewhere hrows storing
  unfold Document.mergeInto
  rw [run_bind]
  generalize doc.mergeTyped key (doc.splitNames object).1 (freshView m) = answer at htyped ⊢
  obtain ⟨verdict, s₁⟩ := answer
  cases verdict with
  | error e => exact htyped
  | ok u =>
    refine htyped.quiet_right (OnlyUnder.mono ?_ fun _ => segmentSlot_quiet doc)
    change OnlyUnder doc.header SegmentSlot (viewGet s₁)
      (viewGet (doc.mergeDynamic key (doc.splitNames object).2 s₁).2)
    exact confined_mergeDynamic doc key _ s₁

theorem effect_replace {key : K} {object : SortedMap String DynamicValue}
    (storing : (doc.splitNames object).1.entries ≠ [] → ∀ document prev,
      doc.replacedRow m key (doc.splitNames object).1 = .ok (document, prev) →
      doc.Storing P (freshView m) key document) :
    RowEffect doc P m.get (doc.replace m key object).2.get := by
  refine effect_commitWrites ?_
  have htyped := effect_replaceTyped laws elsewhere hrows storing
  unfold Document.replaceInto
  rw [run_bind]
  generalize doc.replaceTyped key (doc.splitNames object).1 (freshView m) = answer at htyped ⊢
  obtain ⟨verdict, s₁⟩ := answer
  cases verdict with
  | error e => exact htyped
  | ok u =>
    exact htyped.quiet_right ((confined_slot1Into doc key (doc.splitNames object).2 s₁).mono
      fun _ => segmentSlot_quiet doc)

end

end Document

end Okm.Model
