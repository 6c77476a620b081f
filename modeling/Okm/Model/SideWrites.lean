import Okm.Model.RowWrites
import Okm.Model.VocabLog

/-!
# The writes beside a row

Interning a label grows the vocabulary of its field; writing a dynamic segment
grows the field vocabulary and sets one entry of the dynamic slot. Both happen
in the batch of a row write, and neither touches a row, a face or an
accumulator: whatever they answer, the keys they change lie under their own
slots.
-/

namespace Okm.Model

open Lib VirtualStorage

section

variable {σ : Type} [LawfulStorage σ]

/-- The step changes keys under slots of `P` only. -/
abbrev Confined (header : Bytes) (P : Slot → Prop) {α : Type} (x : Verb σ α) : Prop :=
  Keeps (fun s s' => OnlyUnder header P (LawfulStorage.read s) (LawfulStorage.read s')) x

theorem takeNext_faces {w : VocabId} {cache cache' : VocabCache} {s : σ} {header : Bytes}
    {id : Nat} (h : VocabCache.takeNext w cache s header = .ok (id, cache')) :
    cache'.faces = cache.faces := by
  unfold VocabCache.takeNext at h
  cases hn : cache.nextId with
  | some next =>
    rw [hn] at h
    obtain ⟨-, rfl⟩ := Prod.mk.inj (Except.ok.inj h)
    rfl
  | none =>
    rw [hn] at h
    obtain ⟨raw, -, h⟩ := bind_eq_ok.mp h
    dsimp only at h
    cases hcursor : raw.bind w.fromBe with
    | some cursor =>
      rw [hcursor] at h
      obtain ⟨-, rfl⟩ := Prod.mk.inj (Except.ok.inj h)
      rfl
    | none =>
      rw [hcursor] at h
      obtain ⟨zero, -, h⟩ := bind_eq_ok.mp h
      by_cases hzero : zero.isNone = true
      · rw [if_pos hzero] at h
        obtain ⟨-, rfl⟩ := Prod.mk.inj (Except.ok.inj h)
        rfl
      · rw [if_neg hzero] at h
        obtain ⟨next, -, h⟩ := bind_eq_ok.mp h
        obtain ⟨-, rfl⟩ := Prod.mk.inj (Except.ok.inj h)
        rfl

/-- **Interning changes the two faces of its vocabulary only.** -/
theorem idFor_onlyUnder (w : VocabId) (cache : VocabCache) (s : σ) (header : Bytes)
    (label : String) :
    (VocabCache.idFor w cache s header label).2.1.faces = cache.faces ∧
    OnlyUnder header (fun t => t = cache.faces.idSlot ∨ t = cache.faces.nameSlot)
      (LawfulStorage.read s)
      (LawfulStorage.read (VocabCache.idFor w cache s header label).2.2) := by
  unfold VocabCache.idFor
  rw [LawfulStorage.get_eq]
  dsimp only
  cases (LawfulStorage.read s (VocabCache.nameKey cache.faces header label)).bind w.fromBe with
  | some id => exact ⟨rfl, OnlyUnder.refl _⟩
  | none =>
    dsimp only
    cases hnext : VocabCache.takeNext w cache s header with
    | error e => exact ⟨rfl, OnlyUnder.refl _⟩
    | ok answer =>
      obtain ⟨id, cache'⟩ := answer
      have hfaces := takeNext_faces hnext
      dsimp only
      cases w.succ id with
      | none => exact ⟨hfaces, OnlyUnder.refl _⟩
      | some next =>
        dsimp only
        have hok := LawfulStorage.commit_ok s
          (VocabCache.allocation w cache'.faces header label id next)
        have hread := LawfulStorage.read_commit s
          (VocabCache.allocation w cache'.faces header label id next)
        generalize commitBatch s (VocabCache.allocation w cache'.faces header label id next)
          = answer at hok hread ⊢
        obtain ⟨verdict, s'⟩ := answer
        obtain rfl : verdict = .ok () := hok
        refine ⟨hfaces, fun k hk => ?_⟩
        have hcursor : k ≠ VocabCache.cursorKey cache.faces header :=
          fun heq => hk ⟨_, _, Or.inl rfl, heq⟩
        have hid : k ≠ VocabCache.idKey cache.faces w header id :=
          fun heq => hk ⟨_, _, Or.inl rfl, heq⟩
        have hname : k ≠ VocabCache.nameKey cache.faces header label :=
          fun heq => hk ⟨_, _, Or.inr rfl, heq⟩
        change LawfulStorage.read s' k = _
        rw [hread k, hfaces, pending_allocation, if_neg hcursor, if_neg hid, if_neg hname,
          Option.getD_none]

end

/-! ## Interning a row -/

/-- The slots of the declared vocabularies. -/
def LabelSlot (s : Slot) : Prop :=
  s.val / 0x1000 = Segment.vocabLabel ∨ s.val / 0x1000 = Segment.vocabId

theorem dataVocab_labelSlot (i : Nat) (h : i < 0xFFF) :
    LabelSlot (dataVocab i h).idSlot ∧ LabelSlot (dataVocab i h).nameSlot := by
  constructor
  · right
    simp only [dataVocab, slot, Segment.vocabId]
    omega
  · left
    simp only [dataVocab, slot, Segment.vocabLabel]
    omega

section

variable {K R : Type} [KeyEncode K] (doc : Document K R)
variable {σ : Type} [LawfulStorage σ]

theorem confined_internFields (header : Bytes) {fs : List (VocabField R)}
    (hfs : ∀ f ∈ fs, LabelSlot f.faces.idSlot ∧ LabelSlot f.faces.nameSlot) (document : R) :
    Confined header LabelSlot (σ := σ) (Document.internFields header fs document) := by
  induction fs generalizing document with
  | nil => exact fun s => OnlyUnder.refl _
  | cons f fs ih =>
    intro s
    have ih := ih (fun f' hf' => hfs f' (List.mem_cons_of_mem _ hf'))
    change OnlyUnder header LabelSlot (LawfulStorage.read s)
      (LawfulStorage.read (Document.internFields header (f :: fs) document s).2)
    rw [Document.internFields]
    cases f.label document with
    | none => exact ih document s
    | some label =>
      dsimp only
      have honly := (idFor_onlyUnder f.width { faces := f.faces } s header label).2
      obtain ⟨hid, hname⟩ := hfs f List.mem_cons_self
      replace honly := honly.mono (Q := LabelSlot) fun t ht => by
        rcases ht with rfl | rfl
        · exact hid
        · exact hname
      generalize VocabCache.idFor f.width { faces := f.faces } s header label = answer at honly ⊢
      obtain ⟨verdict, cache, s'⟩ := answer
      cases verdict with
      | error e => exact honly
      | ok id => exact honly.trans (ih (f.setId document id) s')

/-- **Interning a row changes the declared vocabularies only.** -/
theorem confined_intern (document : R) :
    Confined doc.header LabelSlot (σ := σ) (doc.intern document) := by
  refine confined_internFields doc.header (fun f hf => ?_) document
  obtain ⟨i, hi⟩ := List.mem_iff_getElem?.mp hf
  obtain ⟨h, hfaces⟩ := doc.vocabFaces i f hi
  rw [hfaces]
  exact dataVocab_labelSlot i h

end

/-! ## Writing a segment -/

section

variable {τ : Type} {P : τ → τ → Prop} {resolve : String → Run Error τ UInt16}

mutual

/-- What the resolver keeps, the encoder keeps. -/
theorem keeps_encodeValue (refl : ∀ s, P s s) (trans : ∀ a b c, P a b → P b c → P a c)
    (hres : ∀ name, Keeps P (resolve name)) :
    ∀ v : DynamicValue, Keeps P (encodeValue resolve v)
  | .int v => by rw [encodeValue]; exact Keeps.pure refl _
  | .uint v => by rw [encodeValue]; exact Keeps.pure refl _
  | .f64 bits => by rw [encodeValue]; exact Keeps.pure refl _
  | .str s => by rw [encodeValue]; exact Keeps.pure refl _
  | .bytes b => by rw [encodeValue]; exact Keeps.pure refl _
  | .bool b => by rw [encodeValue]; exact Keeps.pure refl _
  | .null => by rw [encodeValue]; exact Keeps.pure refl _
  | .array items => by
    rw [encodeValue]
    exact Keeps.bind trans (keeps_encodeItems refl trans hres items) fun _ => Keeps.pure refl _
  | .obj fields => by
    rw [encodeValue]
    exact Keeps.bind trans (keeps_putFields refl trans hres fields) fun _ => Keeps.pure refl _

theorem keeps_encodeItems (refl : ∀ s, P s s) (trans : ∀ a b c, P a b → P b c → P a c)
    (hres : ∀ name, Keeps P (resolve name)) :
    ∀ items : List DynamicValue, Keeps P (encodeItems resolve items)
  | [] => by rw [encodeItems]; exact Keeps.pure refl _
  | v :: rest => by
    rw [encodeItems]
    exact Keeps.bind trans (keeps_encodeValue refl trans hres v) fun _ =>
      Keeps.bind trans (keeps_encodeItems refl trans hres rest) fun _ => Keeps.pure refl _

theorem keeps_putFields (refl : ∀ s, P s s) (trans : ∀ a b c, P a b → P b c → P a c)
    (hres : ∀ name, Keeps P (resolve name)) :
    ∀ fields : List (String × DynamicValue), Keeps P (putFields resolve fields)
  | [] => by rw [putFields]; exact Keeps.pure refl _
  | (name, v) :: rest => by
    rw [putFields]
    exact Keeps.bind trans (hres name) fun _ =>
      Keeps.bind trans (keeps_encodeValue refl trans hres v) fun _ =>
        Keeps.bind trans (keeps_putFields refl trans hres rest) fun _ => Keeps.pure refl _

end

variable (refl : ∀ s, P s s) (trans : ∀ a b c, P a b → P b c → P a c)
variable (hres : ∀ name, Keeps P (resolve name))

include refl trans hres

theorem keeps_putFrameNamed (name : String) (v : DynamicValue) :
    Keeps P (putFrameNamed resolve name v) := by
  unfold putFrameNamed
  refine Keeps.bind trans (hres name) fun id => ?_
  split
  · exact Keeps.bind trans (keeps_putFields refl trans hres _) fun _ => Keeps.pure refl _
  · exact Keeps.bind trans (keeps_encodeValue refl trans hres _) fun _ => Keeps.pure refl _

theorem keeps_putFramesNamed : ∀ fields : List (String × DynamicValue),
    Keeps P (putFramesNamed resolve fields)
  | [] => by rw [putFramesNamed]; exact Keeps.pure refl _
  | (name, v) :: rest => by
    rw [putFramesNamed]
    exact Keeps.bind trans (keeps_putFrameNamed refl trans hres name v) fun _ =>
      Keeps.bind trans (keeps_putFramesNamed rest) fun _ => Keeps.pure refl _

end

/-! ## Two encoders hand in hand -/

section

variable {τ τ' : Type} {Rel : τ → τ' → Prop} {resolve : String → Run Error τ UInt16}
  {resolve' : String → Run Error τ' UInt16}

mutual

/-- Resolvers that go hand in hand encode alike. -/
theorem related_encodeValue (hres : ∀ name, Related Rel (resolve name) (resolve' name)) :
    ∀ v : DynamicValue, Related Rel (encodeValue resolve v) (encodeValue resolve' v)
  | .int v => by rw [encodeValue, encodeValue]; exact Related.pure _
  | .uint v => by rw [encodeValue, encodeValue]; exact Related.pure _
  | .f64 bits => by rw [encodeValue, encodeValue]; exact Related.pure _
  | .str s => by rw [encodeValue, encodeValue]; exact Related.pure _
  | .bytes b => by rw [encodeValue, encodeValue]; exact Related.pure _
  | .bool b => by rw [encodeValue, encodeValue]; exact Related.pure _
  | .null => by rw [encodeValue, encodeValue]; exact Related.pure _
  | .array items => by
    rw [encodeValue, encodeValue]
    exact (related_encodeItems hres items).bind fun _ => Related.pure _
  | .obj fields => by
    rw [encodeValue, encodeValue]
    exact (related_putFields hres fields).bind fun _ => Related.pure _

theorem related_encodeItems (hres : ∀ name, Related Rel (resolve name) (resolve' name)) :
    ∀ items : List DynamicValue,
      Related Rel (encodeItems resolve items) (encodeItems resolve' items)
  | [] => by rw [encodeItems, encodeItems]; exact Related.pure _
  | v :: rest => by
    rw [encodeItems, encodeItems]
    exact (related_encodeValue hres v).bind fun _ =>
      (related_encodeItems hres rest).bind fun _ => Related.pure _

theorem related_putFields (hres : ∀ name, Related Rel (resolve name) (resolve' name)) :
    ∀ fields : List (String × DynamicValue),
      Related Rel (putFields resolve fields) (putFields resolve' fields)
  | [] => by rw [putFields, putFields]; exact Related.pure _
  | (name, v) :: rest => by
    rw [putFields, putFields]
    exact (hres name).bind fun _ => (related_encodeValue hres v).bind fun _ =>
      (related_putFields hres rest).bind fun _ => Related.pure _

end

variable (hres : ∀ name, Related Rel (resolve name) (resolve' name))

include hres

theorem related_putFrameNamed (name : String) (v : DynamicValue) :
    Related Rel (putFrameNamed resolve name v) (putFrameNamed resolve' name v) := by
  unfold putFrameNamed
  refine (hres name).bind fun id => ?_
  split
  · exact (related_putFields hres _).bind fun _ => Related.pure _
  · exact (related_encodeValue hres _).bind fun _ => Related.pure _

theorem related_putFramesNamed : ∀ fields : List (String × DynamicValue),
    Related Rel (putFramesNamed resolve fields) (putFramesNamed resolve' fields)
  | [] => by rw [putFramesNamed, putFramesNamed]; exact Related.pure _
  | (name, v) :: rest => by
    rw [putFramesNamed, putFramesNamed]
    exact (related_putFrameNamed hres name v).bind fun _ =>
      (related_putFramesNamed rest).bind fun _ => Related.pure _

end

theorem idBytes_ne_nil (id : UInt16) : idBytes id ≠ [] := by
  unfold idBytes
  split <;> simp

/-- The frames of some names are some bytes. -/
theorem putFramesNamed_ne_nil {τ : Type} {resolve : String → Run Error τ UInt16}
    {fields : List (String × DynamicValue)} (hfields : fields ≠ []) {t t' : τ} {wire : Bytes}
    (h : putFramesNamed resolve fields t = (.ok wire, t')) : wire ≠ [] := by
  cases fields with
  | nil => exact absurd rfl hfields
  | cons entry rest =>
    obtain ⟨name, v⟩ := entry
    rw [putFramesNamed] at h
    obtain ⟨frame, t1, hframe, h⟩ := run_bind_eq_ok.mp h
    obtain ⟨frames, t2, -, h⟩ := run_bind_eq_ok.mp h
    have hwire : frame ++ frames = wire := Except.ok.inj (Prod.mk.inj h).1
    have hframe : frame ≠ [] := by
      unfold putFrameNamed at hframe
      obtain ⟨id, t3, -, hframe⟩ := run_bind_eq_ok.mp hframe
      cases v with
      | obj inner =>
        obtain ⟨body, t4, -, hframe⟩ := run_bind_eq_ok.mp hframe
        rw [← Except.ok.inj (Prod.mk.inj hframe).1]
        exact fun hnil => idBytes_ne_nil id (List.append_eq_nil_iff.mp hnil).1
      | _ =>
        obtain ⟨body, t4, -, hframe⟩ := run_bind_eq_ok.mp hframe
        rw [← Except.ok.inj (Prod.mk.inj hframe).1]
        exact fun hnil => idBytes_ne_nil id (List.append_eq_nil_iff.mp hnil).1
    rw [← hwire]
    exact fun hnil => hframe (List.append_eq_nil_iff.mp hnil).1

/-- The slots a dynamic segment lives under. -/
def SegmentSlot (s : Slot) : Prop :=
  s = dynamicSlot ∨ s = fieldVocabIdSlot ∨ s = fieldVocabNameSlot

section

variable {K R : Type} [KeyEncode K] (doc : Document K R)

/-- The two faces of the field vocabulary. -/
def FieldVocabSlot (s : Slot) : Prop := s = fieldVocabIdSlot ∨ s = fieldVocabNameSlot

/-- Between two moments of one segment's encoding: the cache stays on the field
vocabulary, and only its two faces changed. -/
def SegmentGrowth (header : Bytes) (a b : VocabCache × BatchStore Keyspace) : Prop :=
  a.1.faces = fieldVocab → b.1.faces = fieldVocab ∧
    OnlyUnder header FieldVocabSlot (viewGet a.2) (viewGet b.2)

theorem keeps_fieldId (name : String) :
    Keeps (SegmentGrowth doc.header) (doc.fieldId (σ := Keyspace) name) := by
  rintro ⟨cache, view⟩ (hcache : cache.faces = fieldVocab)
  have honly := idFor_onlyUnder .u16 cache view doc.header name
  rw [hcache] at honly
  change (VocabCache.idFor .u16 cache view doc.header name).2.1.faces = _ ∧
    OnlyUnder doc.header _ (viewGet view)
      (viewGet (VocabCache.idFor .u16 cache view doc.header name).2.2) at honly
  unfold Document.fieldId
  dsimp only
  generalize VocabCache.idFor .u16 cache view doc.header name = answer at honly ⊢
  obtain ⟨verdict, cache', view'⟩ := answer
  obtain ⟨hfaces, honly⟩ := honly
  replace honly : OnlyUnder doc.header FieldVocabSlot (viewGet view) (viewGet view') := honly
  cases verdict with
  | error e => exact ⟨hfaces, honly⟩
  | ok id => exact ⟨hfaces, honly⟩

/-- **Encoding a segment changes the field vocabulary only.** -/
theorem confined_segmentBytes (variants : SortedMap String DynamicValue) :
    Confined doc.header FieldVocabSlot (doc.segmentBytes (σ := Keyspace) variants) := by
  intro view
  have hkeeps : Keeps (SegmentGrowth doc.header)
      (putFramesNamed (doc.fieldId (σ := Keyspace)) variants.entries) :=
    keeps_putFramesNamed (fun _ h => ⟨h, OnlyUnder.refl _⟩)
      (fun _ _ _ h h' ha => ⟨(h' (h ha).1).1, (h ha).2.trans (h' (h ha).1).2⟩)
      (keeps_fieldId doc) variants.entries
  have hgrowth := (hkeeps ({ faces := fieldVocab }, view) rfl).2
  unfold Document.segmentBytes
  generalize putFramesNamed (doc.fieldId (σ := Keyspace)) variants.entries
    ({ faces := fieldVocab }, view) = answer at hgrowth ⊢
  obtain ⟨body, cache, view'⟩ := answer
  exact hgrowth

/-- **Writing a segment changes its entry and the field vocabulary only.** -/
theorem confined_slot1Into (key : K) (variants : SortedMap String DynamicValue) :
    Confined doc.header SegmentSlot (doc.slot1Into (σ := Keyspace) key variants) := by
  refine Keeps.bind (fun _ _ _ h h' => h.trans h') ?_ fun body => ?_
  · exact fun view => (confined_segmentBytes doc variants view).mono fun _ => Or.inr
  · have hkey : ∀ k, ¬ Under doc.header SegmentSlot k → k ≠ doc.fieldsKey key :=
      fun k hk heq => hk ⟨dynamicSlot, _, Or.inl rfl, heq⟩
    by_cases hb : body = []
    · rw [if_pos hb]
      intro view k hk
      obtain ⟨view', hok, hread⟩ := writes_dropKey (σ := BatchStore Keyspace) (doc.fieldsKey key) view
      rw [hok, hread]
      refine written_of_not_mem (fun op hop heq => ?_) _
      obtain rfl := List.mem_singleton.mp hop
      exact hkey k hk heq.symm
    · rw [if_neg hb]
      intro view k hk
      obtain ⟨view', hok, hread⟩ := writes_writeKey (σ := BatchStore Keyspace) (doc.fieldsKey key)
        body view
      rw [hok, hread]
      refine written_of_not_mem (fun op hop heq => ?_) _
      obtain rfl := List.mem_singleton.mp hop
      exact hkey k hk heq.symm

end

end Okm.Model
