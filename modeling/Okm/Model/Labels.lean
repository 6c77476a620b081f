import Okm.Model.VerbSteps

/-!
# Labels survive storage

A categorical field is written by its label, stored as an id, and named again
when the row is read back. That works because a vocabulary only grows: `Named`
says that the ids of a row resolve to its labels, interning establishes it
(`intern_spec`), no later write undoes it (`Named.keep`), and a row read back
under it carries every label it was written with (`get_spec`, `prevRow_labels`).
-/

namespace Okm.Model

open Lib VirtualStorage KeyEncode

namespace Document

variable {K R : Type} [KeyEncode K] (doc : Document K R)

/-- What the derive guarantees of the `Vocab` fields: each is a field of its own,
a payload keeps the ids and not the labels, a dereferenced child touches neither. -/
structure LabelLaws : Prop where
  label_setId : ∀ f ∈ doc.vocabFields, ∀ g ∈ doc.vocabFields, ∀ r id,
    f.label (g.setId r id) = f.label r
  id_setId_self : ∀ f ∈ doc.vocabFields, ∀ r id, f.id (f.setId r id) = some id
  id_setId_other : ∀ f ∈ doc.vocabFields, ∀ g ∈ doc.vocabFields, f ≠ g → ∀ r id,
    f.id (g.setId r id) = f.id r
  label_setName_self : ∀ f ∈ doc.vocabFields, ∀ r name, f.label r = none →
    f.label (f.setName r name) = some name
  label_setName_other : ∀ f ∈ doc.vocabFields, ∀ g ∈ doc.vocabFields, f ≠ g → ∀ r name,
    f.label (g.setName r name) = f.label r
  id_setName : ∀ f ∈ doc.vocabFields, ∀ g ∈ doc.vocabFields, ∀ r name,
    f.id (g.setName r name) = f.id r
  label_decode : ∀ f ∈ doc.vocabFields, ∀ raw, f.label (doc.decodePayload raw) = none
  id_decode : ∀ f ∈ doc.vocabFields, ∀ r id, f.id r = some id → id < 256 ^ f.width.width →
    f.id (doc.decodePayload (doc.encodePayload r)) = some id
  label_embedDeref : ∀ f ∈ doc.vocabFields, ∀ {read : ReadFn} {r r' : R},
    doc.embedDeref read r = .ok r' → f.label r' = f.label r
  id_embedDeref : ∀ f ∈ doc.vocabFields, ∀ {read : ReadFn} {r r' : R},
    doc.embedDeref read r = .ok r' → f.id r' = f.id r

/-- Every declared vocabulary denotes a list of labels. -/
def VocabsSound (f : Reads) : Prop :=
  ∀ v ∈ doc.vocabFields, ∃ labels, Encodes v.width v.faces doc.header f labels

/-- The id resolves to the label. -/
def Resolves (f : Reads) (v : VocabField R) (id : Nat) (label : String) : Prop :=
  id < 256 ^ v.width.width ∧
    f (VocabCache.idKey v.faces v.width doc.header id) = some (strBytes label)

/-- What resolved still resolves. -/
def IdsKept (f f' : Reads) : Prop :=
  ∀ v ∈ doc.vocabFields, ∀ id label, doc.Resolves f v id label → doc.Resolves f' v id label

/-- Every label of the row stands behind the id the row carries. -/
def Named (f : Reads) (row : R) : Prop :=
  ∀ v ∈ doc.vocabFields, ∀ label, v.label row = some label →
    ∃ id, v.id row = some id ∧ doc.Resolves f v id label

variable {doc}

theorem Named.keep {f f' : Reads} {row : R} (h : doc.Named f row) (hk : doc.IdsKept f f') :
    doc.Named f' row := by
  intro v hv label hl
  obtain ⟨id, hid, hres⟩ := h v hv label hl
  exact ⟨id, hid, hk v hv id label hres⟩

theorem IdsKept.trans {f f' f'' : Reads} (h : doc.IdsKept f f') (h' : doc.IdsKept f' f'') :
    doc.IdsKept f f'' := fun v hv id label hres => h' v hv id label (h v hv id label hres)

/-! ## Writes elsewhere -/

theorem labelSlots_of_mem {v : VocabField R} (hv : v ∈ doc.vocabFields) :
    LabelSlot v.faces.idSlot ∧ LabelSlot v.faces.nameSlot := by
  obtain ⟨i, hi⟩ := List.mem_iff_getElem?.mp hv
  obtain ⟨h, hfaces⟩ := doc.vocabFaces i v hi
  rw [hfaces]
  exact dataVocab_labelSlot i h

/-- Writes under other slots leave the vocabularies as they are. -/
theorem vocabs_of_same {f f' : Reads} (hs : doc.VocabsSound f)
    (hsame : ∀ s suffix, LabelSlot s → f' (faceKey doc.header s suffix) = f (faceKey doc.header s suffix)) :
    doc.VocabsSound f' ∧ doc.IdsKept f f' := by
  refine ⟨fun v hv => ?_, fun v hv id label hres => ?_⟩
  · obtain ⟨labels, henc⟩ := hs v hv
    obtain ⟨hid, hname⟩ := labelSlots_of_mem hv
    exact ⟨labels, henc.congr (fun suffix => hsame _ suffix hid) fun suffix => hsame _ suffix hname⟩
  · obtain ⟨hlt, hread⟩ := hres
    exact ⟨hlt, (hsame _ _ (labelSlots_of_mem hv).1).trans hread⟩

/-- Two declared vocabularies share no slot. -/
theorem faces_disjoint {v u : VocabField R} (hv : v ∈ doc.vocabFields) (hu : u ∈ doc.vocabFields)
    (hne : v ≠ u) : ∀ s, s = v.faces.idSlot ∨ s = v.faces.nameSlot →
      ¬ (s = u.faces.idSlot ∨ s = u.faces.nameSlot) := by
  obtain ⟨i, hi⟩ := List.mem_iff_getElem?.mp hv
  obtain ⟨j, hj⟩ := List.mem_iff_getElem?.mp hu
  obtain ⟨hlti, hvi⟩ := doc.vocabFaces i v hi
  obtain ⟨hltj, huj⟩ := doc.vocabFaces j u hj
  have hij : i ≠ j := by
    rintro rfl
    exact hne (Option.some.inj (hi.symm.trans hj))
  rw [hvi, huj]
  intro s hs hs'
  rcases hs with rfl | rfl <;> rcases hs' with h | h <;>
    simp only [dataVocab, slot, Segment.vocabId, Segment.vocabLabel, Slot.mk.injEq] at h <;> omega

/-! ## Interning -/

section

variable {σ : Type} [LawfulStorage σ]

/-- One label interned: the vocabularies stay sound, what resolved still does, and
the answered id resolves to the label. -/
theorem idFor_labels {s s' : σ} {v : VocabField R} (hv : v ∈ doc.vocabFields)
    (hs : doc.VocabsSound (LawfulStorage.read s)) {label : String} {id : Nat} {cache : VocabCache}
    (h : VocabCache.idFor v.width { faces := v.faces } s doc.header label = (.ok id, cache, s')) :
    doc.VocabsSound (LawfulStorage.read s') ∧
    doc.IdsKept (LawfulStorage.read s) (LawfulStorage.read s') ∧
    doc.Resolves (LawfulStorage.read s') v id label := by
  obtain ⟨labels, henc⟩ := hs v hv
  have honly := (idFor_onlyUnder v.width { faces := v.faces } s doc.header label).2
  rw [h] at honly
  have hfresh : label ∉ labels → ∀ n ∈ (none : Option Nat), n = labels.length := by simp
  rcases @idFor_spec v.width doc.header σ _ { faces := v.faces } s labels label henc hfresh with
    ⟨id', hget, heq⟩ | ⟨hnew, hfits, s₁, heq, -, henc'⟩ | ⟨-, -, heq⟩
  · obtain ⟨hid, hrest⟩ := Prod.mk.inj (h.symm.trans heq)
    obtain rfl := Except.ok.inj hid
    obtain ⟨-, rfl⟩ := Prod.mk.inj hrest
    have hlt := henc.index_lt hget
    exact ⟨hs, fun _ _ _ _ hres => hres, hlt, by rw [henc.id_eq hlt, hget]; rfl⟩
  · obtain ⟨hid, hrest⟩ := Prod.mk.inj (h.symm.trans heq)
    obtain rfl := Except.ok.inj hid
    obtain ⟨-, rfl⟩ := Prod.mk.inj hrest
    -- a new label is written under the faces of its own vocabulary
    have hother : ∀ u ∈ doc.vocabFields, u ≠ v → ∀ t, t = u.faces.idSlot ∨ t = u.faces.nameSlot →
        ∀ suffix, LawfulStorage.read s' (faceKey doc.header t suffix)
          = LawfulStorage.read s (faceKey doc.header t suffix) :=
      fun u hu hne t ht suffix => honly.at_slot (faces_disjoint hu hv hne t ht) suffix
    refine ⟨fun u hu => ?_, fun u hu id label' hres => ?_, ?_⟩
    · by_cases huv : u = v
      · rw [huv]
        exact ⟨_, henc'⟩
      · obtain ⟨labels', hu'⟩ := hs u hu
        exact ⟨labels', hu'.congr (hother u hu huv _ (Or.inl rfl)) (hother u hu huv _ (Or.inr rfl))⟩
    · obtain ⟨hlt, hread⟩ := hres
      refine ⟨hlt, ?_⟩
      by_cases huv : u = v
      · rw [huv] at hlt hread ⊢
        rw [henc.id_eq hlt] at hread
        obtain ⟨l, hl, hbytes⟩ := Option.map_eq_some_iff.mp hread
        have hidx : id < labels.length := (List.getElem?_eq_some_iff.mp hl).1
        rw [henc'.id_eq hlt, List.getElem?_append_left hidx, hl, Option.map_some, hbytes]
      · rw [← hread]
        exact hother u hu huv _ (Or.inl rfl) _
    · have hlt : labels.length < 256 ^ v.width.width := by omega
      refine ⟨hlt, ?_⟩
      rw [henc'.id_eq hlt, List.getElem?_append_right (Nat.le_refl _), Nat.sub_self]
      rfl
  · cases (Prod.mk.inj (h.symm.trans heq)).1

theorem internFields_spec (laws : doc.LabelLaws) {fs : List (VocabField R)}
    (hfs : ∀ v ∈ fs, v ∈ doc.vocabFields) {document row : R} {s s' : σ}
    (hs : doc.VocabsSound (LawfulStorage.read s))
    (h : Document.internFields doc.header fs document s = (.ok row, s')) :
    doc.VocabsSound (LawfulStorage.read s') ∧
    doc.IdsKept (LawfulStorage.read s) (LawfulStorage.read s') ∧
    (∀ v ∈ doc.vocabFields, v.label row = v.label document) ∧
    (∀ v ∈ doc.vocabFields, v ∉ fs → v.id row = v.id document) ∧
    ∀ v ∈ fs, ∀ label, v.label document = some label →
      ∃ id, v.id row = some id ∧ doc.Resolves (LawfulStorage.read s') v id label := by
  induction fs generalizing document s with
  | nil =>
    obtain ⟨hrow, rfl⟩ := Prod.mk.inj h
    obtain rfl := Except.ok.inj hrow
    exact ⟨hs, fun _ _ _ _ hres => hres, fun _ _ => rfl, fun _ _ _ => rfl, by simp⟩
  | cons f fs ih =>
    have hf := hfs f List.mem_cons_self
    have hfs' : ∀ v ∈ fs, v ∈ doc.vocabFields := fun v hv => hfs v (List.mem_cons_of_mem _ hv)
    rw [Document.internFields] at h
    cases hlabel : f.label document with
    | none =>
      rw [hlabel] at h
      obtain ⟨hs', hkept, hlabels, hids, hnamed⟩ := ih hfs' hs h
      refine ⟨hs', hkept, hlabels, fun v hv hno => hids v hv fun hmem => hno (List.mem_cons_of_mem _ hmem), ?_⟩
      intro v hv label hl
      rcases List.mem_cons.mp hv with rfl | hv
      · rw [hlabel] at hl
        cases hl
      · exact hnamed v hv label hl
    | some label =>
      rw [hlabel] at h
      dsimp only at h
      cases hid : VocabCache.idFor f.width { faces := f.faces } s doc.header label with
      | mk verdict rest =>
        obtain ⟨cache, s₁⟩ := rest
        rw [hid] at h
        cases verdict with
        | error e => cases (Prod.mk.inj h).1
        | ok id =>
          -- the id resolves now, and later fields intern without taking it back
          obtain ⟨hs₁, hkept₁, hres⟩ := idFor_labels hf hs hid
          obtain ⟨hs', hkept, hlabels, hids, hnamed⟩ := ih hfs' hs₁ h
          refine ⟨hs', hkept₁.trans hkept, fun v hv => ?_, fun v hv hno => ?_, fun v hv l hl => ?_⟩
          · rw [hlabels v hv, laws.label_setId v hv f hf]
          · have hne : v ≠ f := fun heq => hno (heq ▸ List.mem_cons_self)
            rw [hids v hv fun hmem => hno (List.mem_cons_of_mem _ hmem),
              laws.id_setId_other v hv f hf hne]
          · -- a field listed twice is set by its last place
            by_cases hmem : v ∈ fs
            · exact hnamed v hmem l (by rw [laws.label_setId v (hfs v hv) f hf, hl])
            · obtain rfl : v = f := (List.mem_cons.mp hv).resolve_right hmem
              obtain rfl : l = label := Option.some.inj (hl.symm.trans hlabel)
              exact ⟨id, by rw [hids v hf hmem, laws.id_setId_self v hf], hkept v hf id l hres⟩

/-- **An interned row is named**, and interning keeps every label it had. -/
theorem intern_spec (laws : doc.LabelLaws) {document row : R} {s s' : σ}
    (hs : doc.VocabsSound (LawfulStorage.read s)) (h : doc.intern document s = (.ok row, s')) :
    doc.VocabsSound (LawfulStorage.read s') ∧
    doc.IdsKept (LawfulStorage.read s) (LawfulStorage.read s') ∧
    doc.Named (LawfulStorage.read s') row := by
  obtain ⟨hs', hkept, hlabels, -, hnamed⟩ := internFields_spec laws (fun _ hv => hv) hs h
  refine ⟨hs', hkept, fun v hv label hl => hnamed v hv label ?_⟩
  rw [← hlabels v hv, hl]

/-! ## Reading labels back -/

/-- The row read back: the payload of the row written, and all its labels. -/
def Carries (doc : Document K R) (row row' : R) : Prop :=
  doc.encodePayload row' = doc.encodePayload row ∧
  ∀ v ∈ doc.vocabFields, ∀ label, v.label row = some label → v.label row' = some label

omit [KeyEncode K] in
theorem nameFor_fresh (w : VocabId) (faces : VocabFaces) (store : σ) (header : Bytes) (id : Nat) :
    (VocabCache.nameFor w { faces := faces } store header id).1
      = .ok ((LawfulStorage.read store (VocabCache.idKey faces w header id)).bind strOfBytes) := by
  unfold VocabCache.nameFor
  rw [List.lookup_nil]
  dsimp only
  rw [LawfulStorage.get_eq]
  dsimp only
  cases (LawfulStorage.read store (VocabCache.idKey faces w header id)).bind strOfBytes with
  | none => rfl
  | some name => rfl

/-- The row on its way through the dereference: its ids are those of the row
written, its labels are missing or right. -/
structure Unnamed (doc : Document K R) (row row' : R) : Prop where
  ids : ∀ v ∈ doc.vocabFields, ∀ label, v.label row = some label → v.id row' = v.id row
  labels : ∀ v ∈ doc.vocabFields, ∀ label, v.label row = some label →
    v.label row' = none ∨ v.label row' = some label

theorem Unnamed.setName (laws : doc.LabelLaws) {store : σ} {row row' : R}
    (named : doc.Named (LawfulStorage.read store) row) (h : doc.Unnamed row row')
    {f : VocabField R} (hf : f ∈ doc.vocabFields) {id : Nat} {name : String}
    (hlabel : f.label row' = none) (hid : f.id row' = some id)
    (hname : (LawfulStorage.read store (VocabCache.idKey f.faces f.width doc.header id)).bind
      strOfBytes = some name) : doc.Unnamed row (f.setName row' name) := by
  refine ⟨fun v hv label hl => ?_, fun v hv label hl => ?_⟩
  · rw [laws.id_setName v hv f hf, h.ids v hv label hl]
  · by_cases hvf : v = f
    · rw [hvf] at hl ⊢
      obtain ⟨id', hid', -, hread⟩ := named f hf label hl
      rw [h.ids f hf label hl, hid'] at hid
      obtain rfl := Option.some.inj hid
      rw [hread, Option.bind_some, strOfBytes_strBytes] at hname
      obtain rfl := Option.some.inj hname
      exact Or.inr (laws.label_setName_self f hf row' label hlabel)
    · rw [laws.label_setName_other v hv f hf hvf]
      exact h.labels v hv label hl

theorem derefVocabFields_labels (laws : doc.LabelLaws) {store : σ} {row : R}
    (named : doc.Named (LawfulStorage.read store) row) {fs : List (VocabField R)}
    (hfs : ∀ v ∈ fs, v ∈ doc.vocabFields) {row₀ row' : R} (h₀ : doc.Unnamed row row₀)
    (h : Document.derefVocabFields doc.header store fs row₀ = .ok row') :
    doc.Unnamed row row' ∧
    (∀ v ∈ doc.vocabFields, ∀ label, v.label row₀ = some label → v.label row' = some label) ∧
    ∀ v ∈ fs, ∀ label, v.label row = some label → v.label row' = some label := by
  induction fs generalizing row₀ with
  | nil =>
    obtain rfl := Except.ok.inj h
    exact ⟨h₀, fun _ _ _ hl => hl, by simp⟩
  | cons f fs ih =>
    have hf := hfs f List.mem_cons_self
    have hfs' : ∀ v ∈ fs, v ∈ doc.vocabFields := fun v hv => hfs v (List.mem_cons_of_mem _ hv)
    rw [Document.derefVocabFields] at h
    -- a field that has its label is left alone
    cases hlabel : f.label row₀ with
    | some x =>
      rw [hlabel] at h
      obtain ⟨hun, hkeep, hrest⟩ := ih hfs' h₀ h
      refine ⟨hun, hkeep, fun v hv label hl => ?_⟩
      rcases List.mem_cons.mp hv with rfl | hv
      · rcases h₀.labels v hf label hl with hnone | hsome
        · rw [hlabel] at hnone
          cases hnone
        · exact hkeep v hf label hsome
      · exact hrest v hv label hl
    | none =>
      -- without an id there was no label to bring back
      cases hid : f.id row₀ with
      | none =>
        rw [hlabel, hid] at h
        obtain ⟨hun, hkeep, hrest⟩ := ih hfs' h₀ h
        refine ⟨hun, hkeep, fun v hv label hl => ?_⟩
        rcases List.mem_cons.mp hv with rfl | hv
        · obtain ⟨id, hid', -⟩ := named v hf label hl
          rw [h₀.ids v hf label hl, hid'] at hid
          cases hid
        · exact hrest v hv label hl
      | some id =>
        rw [hlabel, hid] at h
        dsimp only at h
        -- the id is looked up through a cache that knows nothing
        have hfresh := nameFor_fresh f.width f.faces store doc.header id
        generalize VocabCache.nameFor f.width { faces := f.faces } store doc.header id = answer
          at h hfresh
        obtain ⟨verdict, cache⟩ := answer
        obtain rfl : verdict = _ := hfresh
        cases hname : (LawfulStorage.read store
            (VocabCache.idKey f.faces f.width doc.header id)).bind strOfBytes with
        | none =>
          rw [hname] at h
          obtain ⟨hun, hkeep, hrest⟩ := ih hfs' h₀ h
          refine ⟨hun, hkeep, fun v hv label hl => ?_⟩
          rcases List.mem_cons.mp hv with rfl | hv
          · -- the label of the row written stands behind the id
            obtain ⟨id', hid', -, hread⟩ := named v hf label hl
            rw [h₀.ids v hf label hl, hid'] at hid
            obtain rfl := Option.some.inj hid
            rw [hread, Option.bind_some, strOfBytes_strBytes] at hname
            cases hname
          · exact hrest v hv label hl
        | some name =>
          rw [hname] at h
          -- the name found is the label, and the fields behind see it set
          have h₁ := h₀.setName laws named hf hlabel hid hname
          obtain ⟨hun, hkeep, hrest⟩ := ih hfs' h₁ h
          refine ⟨hun, fun v hv label hl => hkeep v hv label ?_, fun v hv label hl => ?_⟩
          · by_cases hvf : v = f
            · rw [hvf, hlabel] at hl
              cases hl
            · rw [laws.label_setName_other v hv f hf hvf, hl]
          · rcases List.mem_cons.mp hv with rfl | hv
            · rcases h₁.labels v hf label hl with hnone | hsome
              · rw [laws.label_setName_self v hf row₀ name hlabel] at hnone
                cases hnone
              · exact hkeep v hf label hsome
            · exact hrest v hv label hl

/-- What a decoded payload misses of the row written are labels. -/
theorem unnamed_decode (laws : doc.LabelLaws) {f : Reads} {row : R} (named : doc.Named f row) :
    doc.Unnamed row (doc.decodePayload (doc.encodePayload row)) := by
  refine ⟨fun v hv label hl => ?_, fun v hv label _ => Or.inl (laws.label_decode v hv _)⟩
  obtain ⟨id, hid, hlt, -⟩ := named v hv label hl
  rw [laws.id_decode v hv row id hid hlt, hid]

/-- **A row is read back with its labels.** -/
theorem derefVocab_carries (payload : doc.PayloadLaws) (laws : doc.LabelLaws) {store : σ} {row : R}
    (named : doc.Named (LawfulStorage.read store) row) {row₀ row' : R} (h₀ : doc.Unnamed row row₀)
    (hpayload : doc.encodePayload row₀ = doc.encodePayload row)
    (h : doc.derefVocab store row₀ = .ok row') : doc.Carries row row' := by
  obtain ⟨-, -, hlabels⟩ := derefVocabFields_labels laws named (fun _ hv => hv) h₀ h
  exact ⟨(derefVocabFields_payload payload (fun _ hv => hv) h).trans hpayload, hlabels⟩

/-- **What `get` answers for a stored row** carries it. -/
theorem get_carries (payload : doc.PayloadLaws) (laws : doc.LabelLaws) (store : σ) {key : K} {row : R}
    (settled : doc.Settled row) (named : doc.Named (LawfulStorage.read store) row)
    (hstored : LawfulStorage.read store (doc.primaryKey key) = some (doc.encodePayload row)) :
    ∃ row', doc.get store key = .ok (some row') ∧ doc.Carries row row' := by
  have hread : ∀ k, ∃ v, VirtualStorage.get store k = .ok v :=
    fun k => ⟨_, LawfulStorage.get_eq store k⟩
  obtain ⟨child, hchild⟩ := doc.embedDeref_ok hread (doc.decodePayload (doc.encodePayload row))
  obtain ⟨row', hrow', -⟩ := derefVocab_ok payload store child
  have hun := unnamed_decode laws named
  have hun' : doc.Unnamed row child := by
    refine ⟨fun v hv label hl => ?_, fun v hv label hl => ?_⟩
    · rw [laws.id_embedDeref v hv hchild, hun.ids v hv label hl]
    · rw [laws.label_embedDeref v hv hchild]
      exact hun.labels v hv label hl
  refine ⟨row', ?_, derefVocab_carries payload laws named hun' ?_ hrow'⟩
  · unfold Document.get
    rw [LawfulStorage.get_eq, hstored]
    change (doc.embedDeref (VirtualStorage.get store) _ >>= _) = _
    rw [hchild]
    change (doc.derefVocab store child >>= _) = _
    rw [hrow']
    rfl
  · rw [payload.embedDeref_payload hchild, settled]

end

/-- **The old row a save reads for itself** carries the stored one. -/
theorem prevRow_carries (payload : doc.PayloadLaws) (laws : doc.LabelLaws) {m : Keyspace} {key : K}
    {row : R} (settled : doc.Settled row) (named : doc.Named m.get row)
    (hstored : m.get (doc.primaryKey key) = some (doc.encodePayload row)) :
    ∃ row', doc.prevRow key none (freshView m) = (.ok (some row'), freshView m) ∧
      doc.Carries row row' := by
  obtain ⟨row', hrow', -⟩ := derefVocab_ok payload m
    (doc.decodePayload (doc.encodePayload row))
  have hget : peek (fun view => VirtualStorage.get view (doc.primaryKey key)) (freshView m)
      = (.ok (some (doc.encodePayload row)), freshView m) := by
    rw [← hstored]
    exact congrArg (·, freshView m) (lawfulBatchStore.get_eq (freshView m) (doc.primaryKey key))
  have hpeek : peekStore (fun store => doc.derefVocab store
      (doc.decodePayload (doc.encodePayload row))) (freshView m)
      = (.ok row', freshView m) := congrArg (·, freshView m) hrow'
  refine ⟨row', ?_, derefVocab_carries payload laws named (unnamed_decode laws named)
    settled hrow'⟩
  unfold Document.prevRow
  dsimp only
  rw [run_bind_of_ok hget]
  dsimp only
  rw [run_bind_of_ok hpeek]
  rfl

end Document

end Okm.Model
