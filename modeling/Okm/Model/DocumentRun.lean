import Okm.Model.DocumentScan
import Okm.Model.Ledger

/-!
# Every document, along every run

What the verbs leave in the two slots of a document is entries of keys, whichever verb
it was and whatever it answered: a step adds keys of the declaration or none
(`KeysGrow`). So the enumerations are exact in every store a run of the verbs and of
caller batches reaches (`enumeration_exact`), other tables writing in between.
-/

namespace Okm.Model

open Lib VirtualStorage KeyEncode

namespace Document

variable {K R : Type} [KeyEncode K] (doc : Document K R)

/-- The two slots of a document. -/
def DocumentSlot (s : Slot) : Prop := s = primarySlot ∨ s = dynamicSlot

/-- What stands in the two slots afterwards stood there before, or is under a key. -/
def KeysGrow (f f' : Reads) : Prop :=
  ∀ s, DocumentSlot s → ∀ suffix, f' (faceKey doc.header s suffix) ≠ none →
    f (faceKey doc.header s suffix) ≠ none ∨ ∃ key : K, suffix = encode key

/-- An embedding that writes into this table writes children of the table's own type. -/
def EmbedsKeyed : Prop :=
  ∀ r, ∀ e ∈ doc.embedEntries r, ∀ s, DocumentSlot s → ∀ suffix,
    e.1 = faceKey doc.header s suffix → ∃ key : K, suffix = encode key

variable {doc}

theorem KeysGrow.refl (f : Reads) : doc.KeysGrow f f := fun _ _ _ h => Or.inl h

theorem KeysGrow.trans {f f' f'' : Reads} (h : doc.KeysGrow f f') (h' : doc.KeysGrow f' f'') :
    doc.KeysGrow f f'' := by
  intro s hs suffix hsome
  rcases h' s hs suffix hsome with hmid | hkey
  · exact h s hs suffix hmid
  · exact Or.inr hkey

theorem KeysEncoded.grow {f f' : Reads} (h : doc.KeysEncoded f) (hgrow : doc.KeysGrow f f') :
    doc.KeysEncoded f' := by
  intro s hs suffix hsome
  rcases hgrow s hs suffix hsome with hbefore | hkey
  · exact h s hs suffix hbefore
  · exact hkey

/-- A step that leaves the two slots alone. -/
theorem KeysGrow.confined {P : Slot → Prop} (hP : ∀ s, DocumentSlot s → ¬ P s) {f f' : Reads}
    (h : OnlyUnder doc.header P f f') : doc.KeysGrow f f' := by
  intro s hs suffix hsome
  rw [h.at_slot (hP s hs)] at hsome
  exact Or.inl hsome

/-- Writes whose puts under the two slots are under keys. -/
theorem KeysGrow.written {ops : List (Op Bytes Bytes)}
    (h : ∀ k v, (k, some v) ∈ ops → ∀ s, DocumentSlot s → ∀ suffix,
      k = faceKey doc.header s suffix → ∃ key : K, suffix = encode key) (f : Reads) :
    doc.KeysGrow f (written ops f) := by
  intro s hs suffix hsome
  rw [Model.written] at hsome
  cases hp : pending ops (faceKey doc.header s suffix) with
  | none =>
    rw [hp] at hsome
    exact Or.inl hsome
  | some answer =>
    cases answer with
    | none =>
      rw [hp] at hsome
      exact absurd rfl hsome
    | some v => exact Or.inr (h _ v (mem_of_pending hp) s hs suffix rfl)

theorem documentSlot_not_family {s : Slot} (hs : DocumentSlot s) : s.val / 0x1000 = 0 := by
  rcases hs with rfl | rfl <;> rfl

/-- A pass over the reduces stays out of the two slots. -/
theorem KeysGrow.regroup (key : K) (document : R) (add : Bool) (f : Reads) :
    doc.KeysGrow f (regroup doc.header key document add doc.reduces f) := by
  intro s hs suffix hsome
  rw [regroup_at_other fun reduce hmem g heq => ?_] at hsome
  · exact Or.inl hsome
  · have hslot := ((faceKey_inj _ _ _ _ _).mp heq).1
    have hfam := doc.reduceSlots reduce hmem
    rw [← hslot, documentSlot_not_family hs] at hfam
    cases hfam

theorem KeysGrow.unfolded (key : K) (prev : Option R) (f : Reads) :
    doc.KeysGrow f (doc.unfolded key prev f) := by
  cases prev with
  | none => exact KeysGrow.refl f
  | some old => exact KeysGrow.regroup key old false f

theorem put_not_mem_delOps (k v : Bytes) (keys : List Bytes) : (k, some v) ∉ delOps keys := by
  intro hmem
  obtain ⟨k', -, heq⟩ := List.mem_map.mp hmem
  cases (Prod.mk.inj heq).2

/-- **A row write** adds the key of its row, and children under keys. -/
theorem KeysGrow.rowImage (embeds : doc.EmbedsKeyed) (key : K) (document : R) (prev : Option R)
    (stale : List Bytes) (f : Reads) :
    doc.KeysGrow f (doc.rowImage key document prev stale f) := by
  have hops : ∀ k v, (k, some v) ∈ doc.rowOps key document prev stale → ∀ s, DocumentSlot s →
      ∀ suffix, k = faceKey doc.header s suffix → ∃ key : K, suffix = encode key := by
    intro k v hmem s hs suffix hk
    simp only [rowOps, List.mem_append] at hmem
    rcases hmem with (((hmem | hmem) | hmem) | hmem) | hmem
    · obtain ⟨hprimary, -⟩ := Prod.mk.inj (List.mem_singleton.mp hmem)
      exact ⟨key, ((faceKey_inj _ _ _ _ _).mp (hk.symm.trans hprimary)).2⟩
    · exact absurd hmem (put_not_mem_delOps k v _)
    · obtain ⟨e, he, hkey⟩ := mem_putOps hmem
      obtain ⟨face, suffix', hface, hunder⟩ := doc.under_of_indexEntries he
      have hslot := ((faceKey_inj _ _ _ _ _).mp (hk.symm.trans (hkey.trans hunder))).1
      have hzero := documentSlot_not_family hs
      rcases doc.family_of_faceSlots hface with hf | hf <;> rw [← hslot, hzero] at hf <;> cases hf
    · obtain ⟨e, he, hkey⟩ := mem_putOps hmem
      exact embeds document e he s hs suffix (hkey.symm.trans hk)
    · exact absurd hmem (put_not_mem_delOps k v _)
  exact ((KeysGrow.unfolded key prev f).trans (KeysGrow.written hops _)).trans
    (KeysGrow.regroup key document true _)

/-- A removal adds nothing. -/
theorem KeysGrow.removeImage (key : K) (document : R) (f : Reads) :
    doc.KeysGrow f (doc.removeImage key document f) := by
  have hops : ∀ k v, (k, some v) ∈ doc.removeOps key document → ∀ s, DocumentSlot s →
      ∀ suffix, k = faceKey doc.header s suffix → ∃ key : K, suffix = encode key := by
    intro k v hmem
    rcases List.mem_append.mp hmem with hmem | hmem
    · cases (Prod.mk.inj (List.mem_singleton.mp hmem)).2
    · exact absurd hmem (put_not_mem_delOps k v _)
  exact (KeysGrow.written hops f).trans (KeysGrow.regroup key document false _)

/-! ## The verbs -/

/-- Whatever the step answers, it adds keys of the declaration or none. -/
abbrev AddsKeys (doc : Document K R) {α : Type} (x : Verb (BatchStore Keyspace) α) : Prop :=
  Keeps (fun s s' => doc.KeysGrow (viewGet s) (viewGet s')) x

theorem AddsKeys.bind {α β : Type} {x : Verb (BatchStore Keyspace) α}
    {f : α → Verb (BatchStore Keyspace) β} (hx : doc.AddsKeys x) (hf : ∀ a, doc.AddsKeys (f a)) :
    doc.AddsKeys (x >>= f) := Keeps.bind (fun _ _ _ h h' => h.trans h') hx hf

theorem AddsKeys.pure {α : Type} (a : α) : doc.AddsKeys (pure a) :=
  fun _ => KeysGrow.refl _

theorem AddsKeys.peek {α : Type} (read : BatchStore Keyspace → Except Error α) :
    doc.AddsKeys (Model.peek read) := fun _ => KeysGrow.refl _

theorem AddsKeys.peekStore {α : Type} (read : Keyspace → Except Error α) :
    doc.AddsKeys (Model.peekStore read) := fun _ => KeysGrow.refl _

/-- A step that changes what the keys read as by `F`. -/
theorem AddsKeys.writes {F : Reads → Reads} {x : Verb (BatchStore Keyspace) Unit}
    (h : Writes F x) (hF : ∀ f, doc.KeysGrow f (F f)) : doc.AddsKeys x := by
  intro s
  obtain ⟨s', hok, hview⟩ := h s
  rw [hok]
  have hview' : viewGet s' = F (viewGet s) := hview
  change doc.KeysGrow (viewGet s) (viewGet s')
  rw [hview']
  exact hF _

theorem addsKeys_intern (document : R) : doc.AddsKeys (doc.intern document) := by
  intro s
  refine KeysGrow.confined (fun t ht hlabel => ?_) (confined_intern doc document s)
  rcases ht with rfl | rfl <;> rcases hlabel with h | h <;>
    simp [primarySlot, dynamicSlot, Segment.vocabLabel, Segment.vocabId] at h

section

variable (embeds : doc.EmbedsKeyed)

include embeds

theorem addsKeys_writeRow (key : K) (document : R) (prev : Option R) (stale : List Bytes) :
    doc.AddsKeys (doc.writeRow key document prev stale) :=
  AddsKeys.writes (doc.writes_writeRow key document prev stale)
    (KeysGrow.rowImage embeds key document prev stale)

theorem addsKeys_putInto (key : K) (document : R) : doc.AddsKeys (doc.putInto key document) :=
  (addsKeys_intern document).bind fun row => (AddsKeys.peek _).bind fun _ =>
    addsKeys_writeRow embeds key row _ _

omit embeds in
theorem addsKeys_prevRow (key : K) (given : Option R) : doc.AddsKeys (doc.prevRow key given) := by
  cases given with
  | some old => exact AddsKeys.pure _
  | none =>
    refine (AddsKeys.peek _).bind fun raw => ?_
    cases raw with
    | none => exact AddsKeys.pure _
    | some raw => exact (AddsKeys.peekStore _).bind fun _ => AddsKeys.pure _

theorem addsKeys_saveWithPrevInto (key : K) (document : R) (given : Option R) :
    doc.AddsKeys (doc.saveWithPrevInto key document given) :=
  (addsKeys_prevRow key given).bind fun _ => (addsKeys_intern document).bind fun row =>
    addsKeys_writeRow embeds key row _ _

omit embeds in
theorem addsKeys_dropKey (k : Bytes) : doc.AddsKeys (dropKey (σ := BatchStore Keyspace) k) :=
  AddsKeys.writes (writes_dropKey k) (KeysGrow.written fun _ _ hmem => by
    cases (Prod.mk.inj (List.mem_singleton.mp hmem)).2)

omit embeds in
theorem addsKeys_deletePrev (key : K) (prev : Option R) : doc.AddsKeys (doc.deletePrev key prev) := by
  cases prev with
  | none => exact AddsKeys.pure _
  | some old => exact AddsKeys.writes (doc.writes_deleteInto key old) (KeysGrow.removeImage key old)

omit embeds in
theorem addsKeys_removeInto (key : K) (prev : Option R) (segment : Bool) :
    doc.AddsKeys (doc.removeInto key prev segment) := by
  refine (addsKeys_deletePrev key prev).bind fun _ => ?_
  cases segment with
  | false => exact AddsKeys.pure _
  | true => exact addsKeys_dropKey _

omit embeds in
theorem addsKeys_purgeInto (key : K) : doc.AddsKeys (doc.purgeInto key) := by
  refine (AddsKeys.peek _).bind fun found => ?_
  obtain ⟨prev, segment⟩ := found
  dsimp only
  by_cases hnone : (prev.isNone && !segment) = true
  · rw [if_pos hnone]
    exact AddsKeys.pure _
  · rw [if_neg hnone]
    exact (addsKeys_removeInto key prev segment).bind fun _ => AddsKeys.pure _

omit embeds in
/-- **A segment write** adds the key of its document. -/
theorem addsKeys_slot1Into (key : K) (variants : SortedMap String DynamicValue) :
    doc.AddsKeys (doc.slot1Into key variants) := by
  have hbytes : doc.AddsKeys (doc.segmentBytes (σ := Keyspace) variants) := by
    intro view
    refine KeysGrow.confined (fun t ht hvocab => ?_) (confined_segmentBytes doc variants view)
    rcases ht with rfl | rfl <;> rcases hvocab with h | h <;>
      simp [primarySlot, dynamicSlot, fieldVocabIdSlot, fieldVocabNameSlot] at h
  refine hbytes.bind fun body => ?_
  by_cases hb : body = []
  · rw [if_pos hb]
    exact addsKeys_dropKey _
  · rw [if_neg hb]
    refine AddsKeys.writes (writes_writeKey _ _) (KeysGrow.written fun k v hmem s hs suffix hk => ?_)
    obtain ⟨hfields, -⟩ := Prod.mk.inj (List.mem_singleton.mp hmem)
    exact ⟨key, ((faceKey_inj _ _ _ _ _).mp (hk.symm.trans hfields)).2⟩

theorem addsKeys_mergeInto (key : K) (object : SortedMap String DynamicValue) :
    doc.AddsKeys (doc.mergeInto key object) := by
  have htyped : doc.AddsKeys (doc.mergeTyped (σ := Keyspace) key (doc.splitNames object).1) := by
    unfold mergeTyped
    by_cases hempty : (doc.splitNames object).1.entries = []
    · rw [if_pos hempty]
      exact AddsKeys.pure _
    · rw [if_neg hempty]
      exact (AddsKeys.peekStore _).bind fun found =>
        addsKeys_saveWithPrevInto embeds key found.1 found.2
  refine htyped.bind fun _ => ?_
  unfold mergeDynamic
  by_cases hempty : (doc.splitNames object).2.entries = []
  · rw [if_pos hempty]
    exact AddsKeys.pure _
  · rw [if_neg hempty]
    exact (AddsKeys.peekStore _).bind fun _ => addsKeys_slot1Into key _

theorem addsKeys_replaceInto (key : K) (object : SortedMap String DynamicValue) :
    doc.AddsKeys (doc.replaceInto key object) := by
  have htyped : doc.AddsKeys (doc.replaceTyped (σ := Keyspace) key (doc.splitNames object).1) := by
    unfold replaceTyped
    by_cases hempty : (doc.splitNames object).1.entries = []
    · rw [if_pos hempty]
      exact (AddsKeys.peekStore _).bind fun prev => addsKeys_deletePrev key prev
    · rw [if_neg hempty]
      exact (AddsKeys.peekStore _).bind fun found =>
        addsKeys_saveWithPrevInto embeds key found.1 found.2
  exact htyped.bind fun _ => addsKeys_slot1Into key _

omit embeds in
/-- A verb that commits adds what its batch adds, or nothing. -/
theorem keysGrow_commitWrites {α : Type} {body : Verb (BatchStore Keyspace) α}
    (h : doc.AddsKeys body) (m : Keyspace) : doc.KeysGrow m.get (commitWrites m body).2.get := by
  rcases commitWrites_cases m body with ⟨e, s', -, hcommit⟩ | ⟨a, s', hbody, hcommit⟩
  · rw [hcommit]
    exact KeysGrow.refl _
  · have hgrow := h (freshView m)
    rw [hbody] at hgrow
    rw [hcommit]
    change doc.KeysGrow m.get (viewMap s').get
    rw [get_viewMap]
    exact hgrow

/-- **Every verb** adds keys of the declaration or none. -/
theorem keysGrow_write (m : Keyspace) (w : TableWrite K R) :
    doc.KeysGrow m.get (doc.write m w).get := by
  cases w with
  | put key document => exact keysGrow_commitWrites (addsKeys_putInto embeds key document) m
  | upsertWith key f =>
    change doc.KeysGrow m.get (doc.upsertWith m key f).2.get
    unfold upsertWith
    cases doc.get m key with
    | error e => exact KeysGrow.refl _
    | ok old =>
      have hput := keysGrow_commitWrites (addsKeys_putInto embeds key (f old)) m
      change doc.KeysGrow m.get (doc.put m key (f old)).2.get at hput
      dsimp only
      generalize doc.put m key (f old) = answer at hput ⊢
      obtain ⟨verdict, m'⟩ := answer
      cases verdict with
      | error e => exact hput
      | ok u => exact hput
  | merge key object => exact keysGrow_commitWrites (addsKeys_mergeInto embeds key object) m
  | replace key object => exact keysGrow_commitWrites (addsKeys_replaceInto embeds key object) m
  | purge key =>
    change doc.KeysGrow m.get (doc.purge m key).2.get
    unfold purge
    cases doc.removalReads key m with
    | error e => exact KeysGrow.refl _
    | ok found =>
      obtain ⟨prev, segment⟩ := found
      dsimp only
      by_cases hnone : (prev.isNone && !segment) = true
      · rw [if_pos hnone]
        exact KeysGrow.refl _
      · rw [if_neg hnone]
        exact keysGrow_commitWrites
          ((addsKeys_removeInto key prev segment).bind fun _ => AddsKeys.pure _) m

end

/-! ## Runs -/

/-- One call that stages into a caller's batch: a save, with the old row the caller holds
or without, or a removal. -/
inductive StagedCall (K R : Type) where
  | save (key : K) (document : R) (prev : Option R)
  | purge (key : K)

variable (doc)

/-- The batch after a call, whatever the call answered. -/
def stagedCall (s : BatchStore Keyspace) : StagedCall K R → BatchStore Keyspace
  | .save key document prev => (doc.saveWithPrevInto key document prev s).2
  | .purge key => (doc.purgeInto key s).2

/-- The stores a run reaches: it starts where the two slots hold nothing, its steps are
the verbs that commit, the batches of staged calls, and writes of others that stay out of
the two slots. -/
inductive DocumentRun : Keyspace → Prop
  | start {m : Keyspace} (h : ∀ s, DocumentSlot s → ∀ suffix,
      m.get (faceKey doc.header s suffix) = none) : DocumentRun m
  | write {m : Keyspace} (run : DocumentRun m) (w : TableWrite K R) : DocumentRun (doc.write m w)
  | batch {m : Keyspace} (run : DocumentRun m) (calls : List (StagedCall K R)) :
      DocumentRun (commitView (calls.foldl doc.stagedCall (freshView m))).2
  | other {m m' : Keyspace} (run : DocumentRun m) (h : ∀ s, DocumentSlot s → ∀ suffix,
      m'.get (faceKey doc.header s suffix) = m.get (faceKey doc.header s suffix)) : DocumentRun m'

variable {doc}

theorem keysGrow_calls (embeds : doc.EmbedsKeyed) (calls : List (StagedCall K R))
    (s : BatchStore Keyspace) :
    doc.KeysGrow (viewGet s) (viewGet (calls.foldl doc.stagedCall s)) := by
  induction calls generalizing s with
  | nil => exact KeysGrow.refl _
  | cons c calls ih =>
    refine KeysGrow.trans ?_ (ih (doc.stagedCall s c))
    cases c with
    | save key document prev => exact addsKeys_saveWithPrevInto embeds key document prev s
    | purge key => exact addsKeys_purgeInto key s

/-- **In every store a run reaches the two slots hold keys only.** -/
theorem keysEncoded_run (embeds : doc.EmbedsKeyed) {m : Keyspace} (run : doc.DocumentRun m) :
    doc.KeysEncoded m.get := by
  induction run with
  | start h => exact fun s hs suffix hsome => absurd (h s hs suffix) hsome
  | write run w ih => exact ih.grow (keysGrow_write embeds _ w)
  | @batch m run calls ih =>
    have hgrow := keysGrow_calls embeds calls (freshView m)
    change doc.KeysEncoded (viewMap (calls.foldl doc.stagedCall (freshView m))).get
    rw [get_viewMap]
    exact ih.grow hgrow
  | other run h ih =>
    intro s hs suffix hsome
    rw [h s hs] at hsome
    exact ih s hs suffix hsome

/-- What the scans of a table answer: the raw documents, the keys under a probe, and the
sub-list of the keys that have a row, from the front and from the back. -/
structure ScansExact (doc : Document K R) (m : Keyspace) (probe : PrefixProbe K) : Prop where
  raw : ∃ documents, doc.scanDocumentsRaw m = .ok documents ∧ doc.EnumeratesRaw m documents
  keys : ∃ keys, doc.scanDocumentKeys m probe = .ok keys ∧
    Enumerates probe (doc.HasDocument m) keys ∧
    doc.scanKeys m probe
      = (keys.filter fun key => (m.get (doc.primaryKey key)).isSome).map .ok ∧
    doc.scanKeysRev m probe
      = (keys.filter fun key => (m.get (doc.primaryKey key)).isSome).reverse.map .ok

/-- What the dynamic twin answers: the key bytes under either slot, each once, ascending. -/
def DynamicScanExact (table : Keyspace) (ns : Bytes) : Prop :=
  ∃ keys, dynamicDocumentKeys table ns = .ok keys ∧ keys.Pairwise (· < ·) ∧
    ∀ k, k ∈ keys ↔ table.get (faceKey ns primarySlot k) ≠ none ∨
      table.get (faceKey ns dynamicSlot k) ≠ none

theorem KeysEncoded.scansExact {m : Keyspace} (h : doc.KeysEncoded m.get)
    (probe : PrefixProbe K) : doc.ScansExact m probe where
  raw := scanDocumentsRaw_exact h
  keys := by
    obtain ⟨keys, hscan, henum⟩ := scanDocumentKeys_exact h probe
    obtain ⟨rows, hfront, hback, hrows⟩ := scanKeys_exact h probe
    -- both lists enumerate the keys with a row
    have hsame : rows = keys.filter fun key => (m.get (doc.primaryKey key)).isSome := by
      refine hrows.unique (henum.filter _) fun key => ?_
      rw [HasDocument, HasRow, Option.isSome_iff_ne_none]
      exact ⟨fun hrow => ⟨Or.inl hrow, hrow⟩, And.right⟩
    refine ⟨keys, hscan, henum, ?_, ?_⟩
    · rw [← hsame]
      exact hfront
    · rw [← hsame]
      exact hback

theorem dynamicScanExact (table : Keyspace) (ns : Bytes) : DynamicScanExact table ns := by
  obtain ⟨keys, hscan, hasc, hmem⟩ := scanPair_keyspace table (faceKey ns primarySlot [])
    (faceKey ns dynamicSlot [])
  simp only [faceKey_append, List.nil_append] at hmem
  exact ⟨keys, hscan, hasc, hmem⟩

/-- **Document enumeration is exact**: in every store a run reaches, under every probe and
at every key width; the dynamic twin needs no run, it answers what the two slots hold. -/
theorem enumeration_exact (embeds : doc.EmbedsKeyed) {m : Keyspace} (run : doc.DocumentRun m)
    (probe : PrefixProbe K) :
    doc.ScansExact m probe ∧ ∀ table ns, DynamicScanExact table ns :=
  ⟨(keysEncoded_run embeds run).scansExact probe, dynamicScanExact⟩

/-- Children of a node are nodes. -/
theorem nodeDoc_embedsKeyed : nodeDoc.EmbedsKeyed := by
  intro node e he s hs suffix heq
  obtain ⟨child, -, rfl⟩ := List.mem_map.mp he
  exact ⟨child, ((faceKey_inj _ _ _ _ _).mp heq).2.symm⟩

/-- A node with a child, and a document that is a segment only. -/
theorem enumeration_exact_nodes :
    nodeDoc.ScansExact
        (nodeDoc.write (nodeDoc.write SortedMap.empty (.put 1 ⟨7, [2], [2]⟩))
          (.merge 5 (SortedMap.empty.insert "note" (.str "x")))) ⟨[1], Nat.le_refl 1⟩ ∧
      ∀ table ns, DynamicScanExact table ns :=
  enumeration_exact nodeDoc_embedsKeyed (((DocumentRun.start fun _ _ _ => rfl).write _).write _) _

end Document

end Okm.Model
