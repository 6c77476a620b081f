import Okm.Dynamic.Rebuild

/-!
# What a rebuild of a runtime table leaves

A rebuild reads the documents alone. Whatever stood under the access methods before, afterwards
they hold the entries of the documents as they are fetched (`rebuild_lands`). For fields and
callables these are the entries the verbs maintain. For paths they are when no path begins with a
declared field (`rebuild_heals`); one that does finds the row's value in the fetched document,
and puts an entry for it that no verb takes away again (`rebuild_leaves_ghosts`).
-/

namespace Okm.Dynamic

open Lib Model VirtualStorage

namespace DynamicCollection

variable {t : DynamicCollection}

/-! ## The halves of a document -/

/-- **The halves of a document**: its row has payload fields, settled, and its segment has none. -/
structure Halved (t : DynamicCollection) (docs : Bytes → Doc) : Prop where
  rows : ∀ pkey row, (docs pkey).row = some row → ∃ document, row = t.settledRow document
  segments : ∀ pkey fields, (docs pkey).segment = some fields →
    ∀ name, t.isPayloadField name = true → fields.get name = none

theorem settle_docs {α : Type} (st : Tracked) (pkey : Bytes) (doc : Doc) (x : Plan α × Keyspace) :
    (st.settle pkey doc x).docs = st.docs ∨
      (st.settle pkey doc x).docs = Function.update st.docs pkey doc := by
  obtain ⟨plan, store⟩ := x
  cases plan with
  | answer a => exact Or.inr rfl
  | refuse e => exact Or.inl rfl
  | abort f => exact Or.inl rfl

theorem get_keptSegment {fields stored : ValueMap} (h : keptSegment fields = some stored)
    {name : String} (hnone : fields.get name = none) : stored.get name = none := by
  unfold keptSegment at h
  split at h
  · cases h
  · obtain rfl := Option.some.inj h
    rw [keptMap, SortedMap.get_mapValues, hnone]
    rfl

/-- The dynamic half of an object has no payload field. -/
theorem get_splitNames_dynamic (object : ValueMap) {name : String}
    (hname : t.isPayloadField name = true) : (t.splitNames object).2.get name = none := by
  unfold splitNames
  rw [SortedMap.get_restrict, hname]
  rfl

/-- **A document changed is halved again**, where the fields of its segment are. -/
theorem Halved.changed {docs : Bytes → Doc} (h : Halved t docs) {pkey : Bytes}
    {row : Option (Option ValueMap)} {segment : Option ValueMap}
    (hsegment : ∀ fields, segment = some fields →
      ∀ name, t.isPayloadField name = true → fields.get name = none) :
    Halved t (Function.update docs pkey ((docs pkey).changed t row segment)) := by
  refine ⟨fun p stored hrow => ?_, fun p fields hfields name hname => ?_⟩
  · by_cases hp : p = pkey
    · subst hp
      rw [Function.update_self] at hrow
      cases row with
      | none => exact h.rows p stored hrow
      | some new =>
        obtain ⟨document, -, rfl⟩ := Option.map_eq_some_iff.mp hrow
        exact ⟨document, rfl⟩
    · rw [Function.update_of_ne hp] at hrow
      exact h.rows p stored hrow
  · by_cases hp : p = pkey
    · subst hp
      rw [Function.update_self] at hfields
      cases segment with
      | none => exact h.segments p fields hfields name hname
      | some new => exact get_keptSegment hfields (hsegment new rfl name hname)
    · rw [Function.update_of_ne hp] at hfields
      exact h.segments p fields hfields name hname

theorem Halved.step {st : Tracked} (h : Halved t st.docs) (ev : TableEvent) :
    Halved t (t.advance st ev).docs := by
  cases ev with
  | merge pkey object =>
    rcases settle_docs st pkey ((st.docs pkey).merged t pkey object) (t.merge st.store pkey object)
      with hsame | hnext
    · exact hsame ▸ h
    · have hchanged : Halved t (Function.update st.docs pkey ((st.docs pkey).merged t pkey object)) := by
        refine h.changed fun fields hfields name hname => ?_
        unfold mergeSegment at hfields
        split at hfields
        · cases hfields
        · obtain rfl := Option.some.inj hfields
          rw [SortedMap.get_extend, get_splitNames_dynamic object hname, Option.none_or]
          cases hold : (st.docs pkey).segment with
          | none => exact SortedMap.get_empty name
          | some fields => exact h.segments pkey fields hold name hname
      exact hnext ▸ hchanged
  | replace pkey object =>
    rcases settle_docs st pkey ((st.docs pkey).replaced t pkey object)
      (t.replace st.store pkey object) with hsame | hnext
    · exact hsame ▸ h
    · have hchanged : Halved t
          (Function.update st.docs pkey ((st.docs pkey).replaced t pkey object)) := by
        refine h.changed fun fields hfields name hname => ?_
        rw [← Option.some.inj hfields]
        exact get_splitNames_dynamic object hname
      exact hnext ▸ hchanged
  | purge pkey =>
    rcases settle_docs st pkey Doc.purged (t.purge st.store pkey) with hsame | hnext
    · exact hsame ▸ h
    · have hchanged : Halved t (Function.update st.docs pkey Doc.purged) := by
        rw [← changed_purged]
        refine h.changed fun fields hfields name _ => ?_
        obtain ⟨old, -, rfl⟩ := Option.map_eq_some_iff.mp hfields
        exact SortedMap.get_empty name
      exact hnext ▸ hchanged
  | elsewhere ops => exact h

theorem Halved.run {st : Tracked} (h : Halved t st.docs) (events : List TableEvent) :
    Halved t (events.foldl t.advance st).docs := by
  induction events generalizing st with
  | nil => exact h
  | cons ev events ih => exact ih (h.step ev)

theorem Init.halved {st : Tracked} (init : t.Init st) : Halved t st.docs := by
  refine ⟨fun pkey row hrow => ?_, fun pkey fields hfields => ?_⟩
  · rw [init.docs pkey] at hrow
    cases hrow
  · rw [init.docs pkey] at hfields
    cases hfields

/-! ## The fetched document -/

theorem payloadField_none {name : String} (h : t.isPayloadField name = false) :
    payloadField t.schema.toCollectionSchema name = none := by
  refine findKey_eq_none.mpr fun f hf hname => ?_
  have hany : t.isPayloadField name = true :=
    List.any_eq_true.mpr ⟨f, hf, by rw [hname]; exact decide_eq_true rfl⟩
  rw [h] at hany
  cases hany

theorem isPayloadField_of_some {name : String} {f : FieldSchema}
    (h : payloadField t.schema.toCollectionSchema name = some f) : t.isPayloadField name = true := by
  cases hname : t.isPayloadField name with
  | true => rfl
  | false =>
    rw [payloadField_none hname] at h
    cases h

section

variable {docs : Bytes → Doc} {pkey : Bytes} {view : ValueMap}

/-- **A fetched document tells its halves apart by name.** -/
theorem Halved.get_view (ready : Readable t.table) (h : Halved t docs)
    (hview : (docs pkey).view = some view) (name : String) : view.get name
      = if t.isPayloadField name then (docs pkey).row.bind (·.get name)
        else (docs pkey).segment.bind (·.get name) := by
  unfold Doc.view at hview
  split at hview
  · cases hview
  rw [← Option.some.inj hview, SortedMap.get_extend]
  cases hname : t.isPayloadField name with
  | true =>
    have hsegment : ((docs pkey).segment.getD SortedMap.empty).get name = none := by
      cases hseg : (docs pkey).segment with
      | none => exact SortedMap.get_empty name
      | some fields => exact h.segments pkey fields hseg name hname
    rw [hsegment, Option.none_or]
    cases (docs pkey).row <;> rfl
  | false =>
    have hrow : ((docs pkey).row.getD SortedMap.empty).get name = none := by
      cases hold : (docs pkey).row with
      | none => exact SortedMap.get_empty name
      | some row =>
        obtain ⟨document, rfl⟩ := h.rows pkey row hold
        rw [Option.getD_some, get_settledRow ready, payloadField_none hname]
        rfl
    rw [hrow, Option.or_none]
    cases (docs pkey).segment <;> rfl

/-- **A row and the document fetched for it are alike** to an access method. -/
theorem Halved.alike (ready : Readable t.table) (faithful : Faithful t) (h : Halved t docs)
    (hview : (docs pkey).view = some view) {row : ValueMap} (hrow : (docs pkey).row = some row) :
    Alike t row view := by
  have hget : ∀ name f, payloadField t.schema.toCollectionSchema name = some f →
      view.get name = row.get name := by
    intro name f hf
    rw [h.get_view ready hview, if_pos (isPayloadField_of_some hf), hrow]
    rfl
  have hsettled : t.settledRow view = t.settledRow row := by
    refine SortedMap.ext_get fun name => ?_
    rw [get_settledRow ready, get_settledRow ready]
    cases hf : payloadField t.schema.toCollectionSchema name with
    | none => rfl
    | some f => rw [Option.bind_some, Option.bind_some, hget name f hf]
  refine ⟨fun name f v hf hv _ => ?_, fun index hindex derive hkind => ?_,
    fun index hindex admits hkind => ?_⟩
  · rw [hget name f hf]
    exact hv
  · rw [← faithful.derives index hindex derive hkind view, hsettled,
      faithful.derives index hindex derive hkind]
  · rw [← faithful.admits index hindex admits hkind view, hsettled,
      faithful.admits index hindex admits hkind]

end

/-! ## The head of a path -/

theorem walkFields_lookup (name : String) (comps : List Model.Component) :
    ∀ fields : List (String × Value),
      walkFields fields name comps = (SortedMap.lookup name fields).elim [] (walkValue · comps)
  | [] => rfl
  | (n, v) :: rest => by
    rw [walkFields, SortedMap.lookup]
    split
    · rfl
    · exact walkFields_lookup name comps rest

/-- The name a path looks up first. -/
def pathHead : List Model.Component → Option String
  | [] => none
  | head :: _ => componentName head

/-- **A path looks up one name in a document**, and goes on from there. -/
theorem resolvePath_eq (path : List Model.Component) (document : ValueMap) :
    resolvePath path document = (pathHead path).elim [] fun name =>
      (document.get name).elim [] fun v => walkValue v path.tail := by
  unfold resolvePath
  cases path with
  | nil => rw [walkValue]; rfl
  | cons head rest =>
    rw [walkValue]
    dsimp only [pathHead, List.tail_cons]
    cases componentName head with
    | none => rfl
    | some name => exact walkFields_lookup name rest document.entries

/-- The name the path of a method looks up first. -/
def headOf (index : Access) : Option String :=
  match index.kind with
  | .path path _ => pathHead path
  | _ => none

/-- A method sees of a document what its head names. -/
theorem pathSegments_congr {index : Access} {document other : ValueMap}
    (h : ∀ name, headOf index = some name → document.get name = other.get name) :
    pathSegments index document = pathSegments index other := by
  unfold pathSegments
  unfold headOf at h
  cases hkind : index.kind with
  | path path ty =>
    rw [hkind] at h
    dsimp only at h ⊢
    rw [resolvePath_eq, resolvePath_eq]
    cases hhead : pathHead path with
    | none => rfl
    | some name => rw [Option.elim_some, Option.elim_some, h name hhead]
  | _ => rfl

/-- No path begins with a declared field. -/
def PathsApart (t : DynamicCollection) : Prop :=
  ∀ index ∈ t.indexes, ∀ name, headOf index = some name → t.isPayloadField name = false

/-! ## What a walk derives -/

/-- The path entries of a document as it is fetched. -/
def viewEntries (t : DynamicCollection) (pkey : Bytes) (doc : Doc) : List (Bytes × Bytes) :=
  doc.view.elim [] (pathIndexEntries t.ns t.indexes pkey)

/-- The entries derived for a key of one of the two slots. -/
def walked (t : DynamicCollection) (docs : Bytes → Doc) (row : Bool) (pkey : Bytes) :
    List (Bytes × Bytes) :=
  (if row then t.rowEntries pkey (docs pkey).row else []) ++ t.viewEntries pkey (docs pkey)

/-- Every row can be indexed as it is fetched. -/
def Rebuildable (t : DynamicCollection) (docs : Bytes → Doc) : Prop :=
  ∀ pkey row view, (docs pkey).row = some row → (docs pkey).view = some view →
    t.entriesOf pkey view = .ok (t.rowEntries pkey (some row))

theorem rebuildable (ready : Readable t.table) (faithful : Faithful t) {docs : Bytes → Doc}
    (halved : Halved t docs)
    (swept : ∀ pkey row, (docs pkey).row = some row → ∃ entries, t.entriesOf pkey row = .ok entries) :
    Rebuildable t docs := by
  intro pkey row view hrow hview
  obtain ⟨entries, hentries⟩ := swept pkey row hrow
  have hsame : t.rowEntries pkey (some row) = entries := by
    unfold rowEntries
    rw [Option.elim_some, hentries]
  rw [hsame]
  exact (halved.alike ready faithful hview hrow).entriesOf_ok hentries

/-- A fixed face is under no access method. -/
theorem not_index_fixed {s : Slot} (hs : s.val ≤ 0x0F) (suffix : Bytes) :
    ¬ t.IndexFace (faceKey t.ns s suffix) := fun h => h.counting.ne_fixed hs suffix rfl

/-- The documents are held whatever stands under the access methods. -/
theorem TableInv.off_index {m m' : Keyspace} {docs : Bytes → Doc} {labels : List String}
    (inv : t.TableInv ⟨m, docs⟩ labels) (hread : ∀ k, ¬ t.IndexFace k → m'.get k = m.get k) :
    t.TableInv ⟨m', docs⟩ labels := by
  refine inv.congr fun s hs suffix => hread _ (not_index_fixed ?_ suffix)
  have hall : ∀ s ∈ primarySlot :: segmentFaces, s.val ≤ 0x0F := by decide
  exact hall s hs

/-- The slot of a walk. -/
def documentSlot (row : Bool) : Slot := if row then primarySlot else dynamicSlot

theorem documentSlot_fixed (row : Bool) : (documentSlot row).val ≤ 0x0F := by
  cases row <;> decide

theorem faceKey_drop (ns : Bytes) (s : Slot) (suffix : Bytes) :
    (faceKey ns s suffix).drop (faceKey ns s []).length = suffix := by
  have hkey : faceKey ns s suffix = faceKey ns s [] ++ suffix := by simp [faceKey]
  rw [hkey, List.drop_left]

section

variable {docs : Bytes → Doc} {labels : List String} {m : Keyspace}

/-- A key in one of the two slots is that of a document. -/
theorem TableInv.here (inv : t.TableInv ⟨m, docs⟩ labels) {row : Bool} {pkey : Bytes}
    (hkey : m.get (faceKey t.ns (documentSlot row) pkey) ≠ none) :
    docs pkey ≠ {} ∧ (row = true → (docs pkey).row ≠ none) := by
  cases row with
  | true =>
    have hrow : (docs pkey).row ≠ none := mt (inv.rows pkey).none_iff.mp hkey
    exact ⟨Doc.ne_empty_iff.mpr (Or.inl hrow), fun _ => hrow⟩
  | false =>
    have hsegment : (docs pkey).segment ≠ none := mt (inv.segments pkey).none_iff.mp hkey
    exact ⟨Doc.ne_empty_iff.mpr (Or.inr hsegment), fun h => nomatch h⟩

theorem view_some {doc : Doc} (h : doc ≠ {}) : ∃ view, doc.view = some view := by
  unfold Doc.view
  rw [if_neg]
  · exact ⟨_, rfl⟩
  · rw [Option.isNone_iff_eq_none, Option.isNone_iff_eq_none, not_and_or]
    exact Doc.ne_empty_iff.mp h

/-- **One item of a walk**: the document it stands for is fetched and its entries derived. -/
theorem deriveDocument_walked (plain : ∀ f ∈ t.schema.hotFields, ∀ s, f.ty ≠ .vocab s)
    (inv : t.TableInv ⟨m, docs⟩ labels) (rebuildable : Rebuildable t docs) {row : Bool} {pkey : Bytes}
    (hkey : m.get (faceKey t.ns (documentSlot row) pkey) ≠ none) :
    t.deriveDocument row (faceKey t.ns (documentSlot row) pkey) m
      = answer (some (t.walked docs row pkey)) := by
  obtain ⟨hdoc, hrow⟩ := inv.here hkey
  obtain ⟨view, hview⟩ := view_some hdoc
  have hface : t.documentFace row = faceKey t.ns (documentSlot row) [] := rfl
  have hlen : ¬ (faceKey t.ns (documentSlot row) pkey).length < (t.documentFace row).length := by
    rw [hface]
    simp [faceKey]
  have hfetch := inv.fetch_eq plain (inv.widths pkey hdoc)
  unfold deriveDocument walked viewEntries
  rw [if_neg hlen]
  dsimp only at hfetch ⊢
  rw [hface, faceKey_drop, hfetch, hview, Guarded.answer_bind]
  cases row with
  | true =>
    obtain ⟨stored, hstored⟩ := Option.ne_none_iff_exists'.mp (hrow rfl)
    simp only [if_true]
    rw [rebuildable pkey stored view hstored hview, hstored, Guarded.lift, Guarded.answer_bind]
    rfl
  | false => rfl

/-- What a walk derives lies under the access methods. -/
theorem walked_index {row : Bool} {pkey : Bytes} {e : Bytes × Bytes} (he : e ∈ t.walked docs row pkey) :
    t.IndexFace e.1 := by
  have hview : ∀ e ∈ t.viewEntries pkey (docs pkey), t.IndexFace e.1 := by
    intro e he
    unfold viewEntries at he
    cases hdoc : (docs pkey).view with
    | none =>
      rw [hdoc] at he
      cases he
    | some view =>
      rw [hdoc] at he
      obtain ⟨index, hindex, -, s, -, rfl⟩ := mem_pathIndexEntries.mp he
      exact ⟨index, hindex, s ++ pkey, rfl⟩
  unfold walked at he
  rcases List.mem_append.mp he with he | he
  · cases row with
    | true => exact (rowEntries_face he).1.index
    | false => cases he
  · exact hview e he

end

/-! ## The ranges of a run -/

theorem mem_range_concat {p : Bytes} {c : UInt8} (hc : c ≠ 0xFF) {m : Keyspace} {e : Bytes × Bytes} :
    e ∈ m.range (p ++ [c]) (prefixEnd (p ++ [c])) ↔ m.get e.1 = some e.2 ∧ p ++ [c] <+: e.1 := by
  rw [SortedMap.get_eq_some_iff, ← mem_range_prefixEnd_iff]
  refine ⟨fun h => ⟨h, ?_⟩, And.left⟩
  obtain ⟨-, hlo, hhi⟩ := (m.mem_range _ _ _).mp h
  exact length_le_of_lt_concat hc hlo hhi

theorem documentFace_concat (t : DynamicCollection) (row : Bool) :
    ∃ c, c ≠ 0xFF ∧ t.documentFace row = t.ns ++ [c] := by
  cases row with
  | true => exact ⟨0x00, by decide, List.append_nil _⟩
  | false => exact ⟨0x01, by decide, List.append_nil _⟩

/-- The items of a walk are the keys of its slot. -/
theorem mem_document_range {m : Keyspace} {row : Bool} {e : Bytes × Bytes} :
    e ∈ m.range (t.documentFace row) (prefixEnd (t.documentFace row)) ↔
      ∃ pkey, e.1 = faceKey t.ns (documentSlot row) pkey ∧ m.get e.1 = some e.2 := by
  obtain ⟨c, hc, hface⟩ := t.documentFace_concat row
  have hkey : ∀ pkey, faceKey t.ns (documentSlot row) pkey = t.documentFace row ++ pkey := by
    intro pkey
    change faceKey t.ns (documentSlot row) pkey = faceKey t.ns (documentSlot row) [] ++ pkey
    simp [faceKey]
  rw [hface, mem_range_concat hc, ← hface]
  constructor
  · rintro ⟨hget, pkey, hpkey⟩
    exact ⟨pkey, by rw [hkey, hpkey], hget⟩
  · rintro ⟨pkey, hpkey, hget⟩
    exact ⟨hget, pkey, by rw [hpkey, hkey]⟩

/-- A walk finds what it would have found where nothing but the access methods was written. -/
theorem document_range_congr {m m' : Keyspace} (h : ∀ k, ¬ t.IndexFace k → m'.get k = m.get k)
    (row : Bool) : m'.range (t.documentFace row) (prefixEnd (t.documentFace row))
      = m.range (t.documentFace row) (prefixEnd (t.documentFace row)) := by
  refine SortedMap.range_congr fun k hlo hhi => ?_
  cases hk : m.get k with
  | none =>
    cases hk' : m'.get k with
    | none => rfl
    | some v =>
      have hmem : (k, v) ∈ m'.range (t.documentFace row) (prefixEnd (t.documentFace row)) :=
        (m'.mem_range _ _ _).mpr ⟨hk', hlo, hhi⟩
      obtain ⟨pkey, hpkey, -⟩ := mem_document_range.mp hmem
      obtain rfl : k = _ := hpkey
      rw [h _ (not_index_fixed (documentSlot_fixed row) pkey), hk] at hk'
      cases hk'
  | some v =>
    have hmem : (k, v) ∈ m.range (t.documentFace row) (prefixEnd (t.documentFace row)) :=
      (m.mem_range _ _ _).mpr ⟨hk, hlo, hhi⟩
    obtain ⟨pkey, hpkey, -⟩ := mem_document_range.mp hmem
    obtain rfl : k = _ := hpkey
    rw [h _ (not_index_fixed (documentSlot_fixed row) pkey), hk]

/-- The prefixes that are swept. -/
abbrev sweptFaces (t : DynamicCollection) : List Bytes := t.indexes.map (accessFace t.ns)

/-- **A slot whose sweep stays in its own face**: the last byte takes the increment. -/
def SweepsExact (t : DynamicCollection) : Prop :=
  ∀ index ∈ t.indexes, index.slot.toNat % 256 ≠ 255

theorem accessFace_concat {index : Access} (hindex : index ∈ t.indexes) : accessFace t.ns index
    = (t.ns ++ [UInt8.ofNat (index.slot.toNat / 256)]) ++ [UInt8.ofNat index.slot.toNat] := by
  rw [accessFace_counting t.ns (t.indexSlots index hindex), beBytes_two]
  simp

theorem mem_sweep (exact : SweepsExact t) {m : Keyspace} {op : Op Bytes Bytes} :
    op ∈ sweepOps m t.sweptFaces ↔ t.IndexFace op.1 ∧ m.get op.1 ≠ none ∧ op.2 = none := by
  have hrange : ∀ index ∈ t.indexes, ∀ v, (op.1, v) ∈ m.range (accessFace t.ns index)
      (prefixEnd (accessFace t.ns index)) ↔ m.get op.1 = some v ∧ accessFace t.ns index <+: op.1 := by
    intro index hindex v
    have hc : UInt8.ofNat index.slot.toNat ≠ 0xFF := by
      intro heq
      have hnat := congrArg UInt8.toNat heq
      rw [UInt8.toNat_ofNat'] at hnat
      exact exact index hindex hnat
    rw [accessFace_concat hindex, mem_range_concat hc]
  rw [mem_sweepOps]
  constructor
  · rintro ⟨face, hface, v, hget, hlo, hhi, hnone⟩
    obtain ⟨index, hindex, rfl⟩ := List.mem_map.mp hface
    obtain ⟨-, suffix, hsuffix⟩ := (hrange index hindex v).mp ((m.mem_range _ _ _).mpr ⟨hget, hlo, hhi⟩)
    exact ⟨⟨index, hindex, suffix, hsuffix.symm⟩, by rw [hget]; exact Option.some_ne_none v, hnone⟩
  · rintro ⟨⟨index, hindex, suffix, hsuffix⟩, hsome, hnone⟩
    obtain ⟨v, hv⟩ := Option.ne_none_iff_exists'.mp hsome
    obtain ⟨-, hlo, hhi⟩ := (m.mem_range _ _ _).mp
      ((hrange index hindex v).mpr ⟨hv, suffix, hsuffix.symm⟩)
    exact ⟨_, List.mem_map.mpr ⟨index, hindex, rfl⟩, v, hv, hlo, hhi, hnone⟩

/-- **After the sweep** nothing stands under the access methods, and all else as before. -/
theorem get_swept (exact : SweepsExact t) (m : Keyspace) :
    (∀ k, t.IndexFace k → (applyOps m (sweepOps m t.sweptFaces)).get k = none) ∧
    ∀ k, ¬ t.IndexFace k → (applyOps m (sweepOps m t.sweptFaces)).get k = m.get k := by
  constructor
  · intro k hk
    rw [get_applyOps, readThrough]
    cases hget : m.get k with
    | none =>
      cases hp : pending (sweepOps m t.sweptFaces) k with
      | none => rfl
      | some v => exact ((mem_sweep exact).mp (mem_of_pending hp)).2.2
    | some v =>
      have hmem : ((k, none) : Op Bytes Bytes) ∈ sweepOps m t.sweptFaces :=
        (mem_sweep exact).mpr ⟨hk, by rw [hget]; exact Option.some_ne_none v, rfl⟩
      rw [pending_of_mem hmem fun w hw => ((mem_sweep exact).mp hw).2.2]
      rfl
  · intro k hk
    exact get_applyOps_of_not_mem m fun op hop heq => hk (heq ▸ ((mem_sweep exact).mp hop).1)

theorem nodup_sweptFaces (t : DynamicCollection) : t.sweptFaces.Nodup := by
  have hslots := (List.nodup_append.mp t.apart).1
  refine List.Nodup.map_on (fun index hindex index' hindex' heq => ?_) (List.Nodup.of_map _ hslots)
  have hfaces : accessFace t.ns index ++ [] = accessFace t.ns index' ++ [] := by rw [heq]
  exact (eq_of_face hindex hindex' hfaces).1

/-! ## A run to its end -/

section

variable {docs : Bytes → Doc} {labels : List String} {m : Keyspace}

/-- The key behind the face of a walk's slot. -/
def walkedKey (t : DynamicCollection) (row : Bool) (e : Bytes × Bytes) : Bytes :=
  e.1.drop (t.documentFace row).length

/-- The entries derived along the walk over one slot. -/
def walkEntries (t : DynamicCollection) (docs : Bytes → Doc) (m : Keyspace) (row : Bool) :
    List (Bytes × Bytes) :=
  (m.range (t.documentFace row) (prefixEnd (t.documentFace row))).flatMap fun e =>
    t.walked docs row (t.walkedKey row e)

/-- **The walk over one slot** issues the puts of what it derives. -/
theorem walkSlot_issues (plain : ∀ f ∈ t.schema.hotFields, ∀ s, f.ty ≠ .vocab s) {m₀ : Keyspace}
    (inv : t.TableInv ⟨m₀, docs⟩ labels) (rebuildable : Rebuildable t docs) {chunk : Nat} {row : Bool}
    {ops : List (Op Bytes Bytes)} {p : Progress} (hops : ∀ op ∈ ops, t.IndexFace op.1)
    (h : Issued m₀ ops p m) :
    Issues m₀ (ops ++ putOps (t.walkEntries docs m₀ row)) (t.walkSlot chunk row p m) := by
  have hsame : ∀ k, ¬ t.IndexFace k → m.get k = m₀.get k := fun k hk =>
    h.get fun op hop heq => hk (heq ▸ hops op hop)
  have hscan : scanRangeIter m (t.documentFace row) (prefixEnd (t.documentFace row))
      = (m₀.range (t.documentFace row) (prefixEnd (t.documentFace row))).map .ok := by
    rw [← document_range_congr hsame row]
    rfl
  unfold walkSlot
  rw [hscan]
  refine walkDocuments_issues (fun e _ f hf => walked_index hf) (fun e he m' hm' => ?_) hops h
  obtain ⟨pkey, hpkey, hget⟩ := mem_document_range.mp he
  have hdrop : t.walkedKey row e = pkey := by
    unfold walkedKey
    rw [hpkey]
    exact faceKey_drop t.ns (documentSlot row) pkey
  rw [hdrop, hpkey]
  refine deriveDocument_walked plain (inv.off_index hm') rebuildable ?_
  rw [hm' _ (not_index_fixed (documentSlot_fixed row) pkey), ← hpkey, hget]
  exact Option.some_ne_none _

/-- What is derived along the two walks is what the documents have. -/
theorem mem_walkEntries (inv : t.TableInv ⟨m, docs⟩ labels) {e : Bytes × Bytes} :
    e ∈ t.walkEntries docs m true ++ t.walkEntries docs m false ↔
      ∃ pkey, e ∈ t.rowEntries pkey (docs pkey).row ∨ e ∈ t.viewEntries pkey (docs pkey) := by
  -- one walk: the documents with a value in the slot
  have hmem : ∀ row, e ∈ t.walkEntries docs m row ↔
      ∃ pkey, m.get (faceKey t.ns (documentSlot row) pkey) ≠ none ∧ e ∈ t.walked docs row pkey := by
    intro row
    unfold walkEntries
    rw [List.mem_flatMap]
    constructor
    · rintro ⟨d, hd, he⟩
      obtain ⟨pkey, hpkey, hget⟩ := mem_document_range.mp hd
      have hdrop : t.walkedKey row d = pkey := by
        unfold walkedKey
        rw [hpkey]
        exact faceKey_drop t.ns (documentSlot row) pkey
      refine ⟨pkey, ?_, hdrop ▸ he⟩
      rw [← hpkey, hget]
      exact Option.some_ne_none _
    · rintro ⟨pkey, hsome, he⟩
      obtain ⟨v, hv⟩ := Option.ne_none_iff_exists'.mp hsome
      refine ⟨(faceKey t.ns (documentSlot row) pkey, v), mem_document_range.mpr ⟨pkey, rfl, hv⟩, ?_⟩
      have hdrop : t.walkedKey row (faceKey t.ns (documentSlot row) pkey, v) = pkey :=
        faceKey_drop t.ns (documentSlot row) pkey
      rwa [hdrop]
  rw [List.mem_append, hmem, hmem]
  constructor
  · rintro (⟨pkey, -, he⟩ | ⟨pkey, -, he⟩)
    · exact ⟨pkey, List.mem_append.mp he⟩
    · exact ⟨pkey, Or.inr ((List.mem_append.mp he).resolve_left (fun h => nomatch h))⟩
  · rintro ⟨pkey, he⟩
    have hrow : (docs pkey).row ≠ none → m.get (faceKey t.ns (documentSlot true) pkey) ≠ none :=
      mt (inv.rows pkey).none_iff.mpr
    have hsegment : (docs pkey).segment ≠ none →
        m.get (faceKey t.ns (documentSlot false) pkey) ≠ none :=
      mt (inv.segments pkey).none_iff.mpr
    by_cases hnone : (docs pkey).row = none
    · -- a document without a row is walked by its segment
      refine Or.inr ⟨pkey, hsegment fun hno => ?_, ?_⟩
      · rcases he with he | he
        · rw [hnone] at he
          cases he
        · unfold viewEntries Doc.view at he
          rw [hnone, hno] at he
          cases he
      · refine List.mem_append_right _ (he.resolve_left fun he => ?_)
        rw [hnone] at he
        cases he
    · exact Or.inl ⟨pkey, hrow hnone, List.mem_append.mpr he⟩

/-- The documents give an entry's key one value. -/
theorem walkEntries_oneValue (inv : t.TableInv ⟨m, docs⟩ labels) :
    OneValue (t.walkEntries docs m true ++ t.walkEntries docs m false) := by
  have hview : ∀ {pkey e}, e ∈ t.viewEntries pkey (docs pkey) → t.MethodFace true e.1 ∧ e.2 = [] := by
    intro pkey e he
    have hmem : e ∈ t.pathEntries pkey (docs pkey).view := he
    exact ⟨(mem_pathEntries hmem).1, (mem_pathEntries hmem).2.2⟩
  intro k v w hv hw
  obtain ⟨a, hv⟩ := (mem_walkEntries inv).mp hv
  obtain ⟨b, hw⟩ := (mem_walkEntries inv).mp hw
  rcases hv with hv | hv <;> rcases hw with hw | hw
  · have ha : t.OwnsEntry a k := inv.owns_row a (k, v) hv
    have hb : t.OwnsEntry b k := inv.owns_row b (k, w) hw
    obtain rfl := t.owned a b k ha hb
    exact rowEntries_oneValue a _ k v w hv hw
  · exact absurd (rowEntries_face hv).1 (hview hw).1.apart
  · exact absurd (rowEntries_face hw).1 (hview hv).1.apart
  · exact (hview hv).2.trans (hview hw).2.symm

/-- The key of the stamp. -/
def metaKey (t : DynamicCollection) : Bytes := faceKey t.ns metaSlot []

/-- **What a rebuild leaves**: under the access methods the entries of the documents as they are
fetched, and every other key but the stamp's as it was. -/
theorem rebuild_lands (plain : ∀ f ∈ t.schema.hotFields, ∀ s, f.ty ≠ .vocab s)
    (exact : SweepsExact t) (inv : t.TableInv ⟨m, docs⟩ labels) (rebuildable : Rebuildable t docs)
    (hmeta : ∃ row, stampedRow t.schema.layoutVersion (m.get t.metaKey) = .ok row) (chunk : Nat) :
    ∃ report m', t.rebuildFaces chunk m = (.ok report, m') ∧
      (∀ k, t.IndexFace k → ∀ v, m'.get k = some v ↔ ∃ pkey,
        (k, v) ∈ t.rowEntries pkey (docs pkey).row ∨ (k, v) ∈ t.viewEntries pkey (docs pkey)) ∧
      ∀ k, ¬ t.IndexFace k → k ≠ t.metaKey → m'.get k = m.get k := by
  obtain ⟨hswept, hkept⟩ := get_swept exact m
  generalize hm₁ : applyOps m (sweepOps m t.sweptFaces) = m₁ at hswept hkept
  have inv₁ := inv.off_index hkept
  -- the sweep, and its last commit
  have hlen : ∀ f ∈ ([] : List Bytes) ++ t.sweptFaces, f.length = t.ns.length + 2 := by
    intro f hf
    obtain ⟨index, hindex, rfl⟩ := List.mem_map.mp hf
    rw [accessFace_counting t.ns (t.indexSlots index hindex), List.length_append, length_beBytes]
  obtain ⟨p₁, s₁, hsweep, hissued₁⟩ := @sweepFaces_issues m m {} (max chunk 1) (t.ns.length + 2) []
    t.sweptFaces (Issued.start m {}) hlen t.nodup_sweptFaces
  obtain ⟨p₂, hrest₁, hissued₂, hempty₂⟩ := commitRest_issues hissued₁
  have hs₁ : applyOps s₁ p₁.batch.ops = m₁ := (hissued₂.landed hempty₂).trans hm₁
  rw [hs₁] at hrest₁
  -- the two walks, from there
  have hstart : Issued m₁ [] p₂ m₁ := ⟨[], rfl, hempty₂⟩
  obtain ⟨p₃, s₃, hwalk₁, hissued₃⟩ := walkSlot_issues plain inv₁ rebuildable
    (List.forall_mem_nil _) hstart
  rw [List.nil_append] at hissued₃
  have hindex : ∀ op ∈ putOps (t.walkEntries docs m₁ true), t.IndexFace op.1 := by
    intro op hop
    obtain ⟨e, he, rfl⟩ := List.mem_map.mp hop
    obtain ⟨d, -, he⟩ := List.mem_flatMap.mp he
    exact walked_index he
  obtain ⟨p₄, s₄, hwalk₂, hissued₄⟩ := walkSlot_issues plain inv₁ rebuildable hindex hissued₃
  obtain ⟨p₅, hrest₂, hissued₅, hempty₅⟩ := commitRest_issues hissued₄
  have hs₄ := hissued₅.landed hempty₅
  generalize hm₂ : applyOps s₄ p₄.batch.ops = m₂ at hrest₂ hs₄
  have hputs : putOps (t.walkEntries docs m₁ true) ++ putOps (t.walkEntries docs m₁ false)
      = replaceOps [] (t.walkEntries docs m₁ true ++ t.walkEntries docs m₁ false) :=
    List.map_append.symm
  rw [hputs] at hs₄
  have hread : ∀ k, t.IndexFace k → ∀ v, m₂.get k = some v ↔
      (k, v) ∈ t.walkEntries docs m₁ true ++ t.walkEntries docs m₁ false := by
    intro k hk v
    rw [hs₄, get_applyOps, readThrough, hswept k hk]
    have hone := walkEntries_oneValue inv₁
    rcases @pending_replaceOps Bytes Bytes _ [] _ hone k with ⟨w, hw, hpending⟩ | ⟨hno, hpending⟩
    · rw [hpending, Option.getD_some, Option.some.injEq]
      exact ⟨fun heq => heq ▸ hw, fun hv => hone _ _ _ hw hv⟩
    · rw [hpending]
      exact ⟨(fun h => nomatch h), fun hv => absurd hv (hno v)⟩
  have hoff : ∀ k, ¬ t.IndexFace k → m₂.get k = m.get k := by
    intro k hk
    rw [hs₄, ← hkept k hk]
    refine get_applyOps_of_not_mem m₁ fun op hop heq => hk (heq ▸ ?_)
    obtain ⟨e, he, rfl⟩ := List.mem_map.mp hop
    rcases List.mem_append.mp he with he | he <;>
    · obtain ⟨d, -, he⟩ := List.mem_flatMap.mp he
      exact walked_index he
  -- the stamp
  obtain ⟨row, hrow⟩ := hmeta
  have hmetaKey : ¬ t.IndexFace t.metaKey := not_index_fixed (by decide) []
  rw [← hoff _ hmetaKey] at hrow
  refine ⟨p₅.report, m₂.insert t.metaKey (row.set TableMeta.facesName t.faces).encode, ?_,
    fun k hk v => ?_, fun k hk hne => ?_⟩
  · have hrederive : t.rederive (max chunk 1) m = (.ok p₅, m₂) := by
      unfold rederive
      have h₁ : engineSide (sweepFaces (max chunk 1) t.sweptFaces {}) m = (.ok p₁, s₁) := by
        unfold engineSide
        rw [hsweep]
        rfl
      have h₂ : engineSide (commitRest p₁) s₁ = (.ok p₂, m₁) := by
        unfold engineSide
        rw [hrest₁]
        rfl
      have h₅ : engineSide (commitRest p₄) s₄ = (.ok p₅, m₂) := by
        unfold engineSide
        rw [hrest₂]
        rfl
      exact (run_bind_of_ok h₁).trans ((run_bind_of_ok h₂).trans ((run_bind_of_ok hwalk₁).trans
        ((run_bind_of_ok hwalk₂).trans h₅)))
    have hstamp : engineSide (stampFaces t.ns t.schema.layoutVersion t.faces) m₂
        = (.ok (row.set TableMeta.facesName t.faces),
          m₂.insert t.metaKey (row.set TableMeta.facesName t.faces).encode) := by
      unfold engineSide stampFaces
      have hget : VirtualStorage.get m₂ (faceKey t.ns metaSlot []) = .ok (m₂.get t.metaKey) := rfl
      dsimp only
      rw [hget]
      dsimp only
      rw [hrow]
      rfl
    exact (run_bind_of_ok hrederive).trans (run_bind_of_ok hstamp)
  · have hne : k ≠ t.metaKey := by
      rintro rfl
      exact hmetaKey hk
    rw [SortedMap.get_insert, if_neg hne, hread k hk v, mem_walkEntries inv₁]
  · rw [SortedMap.get_insert, if_neg hne, hoff k hk]

end

/-! ## Beside the verbs -/

theorem isPath_of_head {index : Access} {name : String} (h : headOf index = some name) :
    isPath index = true := by
  unfold headOf at h
  unfold isPath
  cases hkind : index.kind with
  | path path ty => rfl
  | _ =>
    rw [hkind] at h
    cases h

/-- What a document does not have under its head, a method does not find. -/
theorem pathSegments_none {index : Access} {name : String} (hhead : headOf index = some name)
    {document : ValueMap} (h : document.get name = none) : pathSegments index document = [] := by
  rw [← pathSegments_empty index]
  refine pathSegments_congr fun name' hname' => ?_
  obtain rfl := Option.some.inj (hhead.symm.trans hname')
  rw [h]
  exact (SortedMap.get_empty _).symm

section

variable {docs : Bytes → Doc}

/-- **Where no path begins with a declared field**, the fetched document has the path entries of
its segment. -/
theorem Halved.viewEntries_eq (ready : Readable t.table) (h : Halved t docs) (apart : PathsApart t)
    (pkey : Bytes) : t.viewEntries pkey (docs pkey) = t.pathEntries pkey (docs pkey).segment := by
  unfold viewEntries
  by_cases hdoc : docs pkey = {}
  · rw [hdoc]
    rfl
  · obtain ⟨view, hview⟩ := view_some hdoc
    have hsegment : t.pathEntries pkey (docs pkey).segment
        = pathIndexEntries t.ns t.indexes pkey ((docs pkey).segment.getD SortedMap.empty) := by
      cases (docs pkey).segment with
      | none => exact (pathIndexEntries_empty pkey).symm
      | some fields => rfl
    rw [hview, Option.elim_some, hsegment]
    unfold pathIndexEntries
    refine List.flatMap_congr fun index hindex => ?_
    rw [pathSegments_congr fun name hhead => ?_]
    rw [h.get_view ready hview, apart index hindex name hhead]
    cases (docs pkey).segment <;> rfl

/-- A segment has no entries under a path that begins with a declared field. -/
theorem ghost_off {index : Access} (hindex : index ∈ t.indexes) {name : String}
    (hhead : headOf index = some name) {pkey suffix : Bytes} {fields : ValueMap}
    (hnone : fields.get name = none) {e : Bytes × Bytes}
    (he : e ∈ pathIndexEntries t.ns t.indexes pkey fields) : e.1 ≠ accessFace t.ns index ++ suffix := by
  intro heq
  obtain ⟨index', hindex', -, s, hs, rfl⟩ := mem_pathIndexEntries.mp he
  obtain ⟨rfl, -⟩ := eq_of_face hindex' hindex heq
  rw [pathSegments_none hhead hnone] at hs
  cases hs

end

section

variable (ready : Readable t.table) (faithful : Faithful t)
  (plain : ∀ f ∈ t.schema.hotFields, ∀ s, f.ty ≠ .vocab s)
include plain

/-- **No verb writes under a path that begins with a declared field.** -/
theorem ghosts_step {st : Tracked} {labels : List String} (inv : t.TableInv st labels)
    (halved : Halved t st.docs) {index : Access} (hindex : index ∈ t.indexes) {name : String}
    (hhead : headOf index = some name) (hname : t.isPayloadField name = true) {ev : TableEvent}
    (orderly : t.Orderly st ev) (suffix : Bytes) :
    (t.advance st ev).store.get (accessFace t.ns index ++ suffix)
      = st.store.get (accessFace t.ns index ++ suffix) := by
  have hface : t.MethodFace true (accessFace t.ns index ++ suffix) :=
    ⟨index, hindex, isPath_of_head hhead, suffix, rfl⟩
  have hafter := halved.step ev
  rcases advance_cases plain inv orderly with
    hsame | ⟨pkey, row, segment, more, plan, arms, -, hnext⟩ | ⟨ops, hnext, helsewhere⟩
  · rw [hsame]
  · rw [hnext] at hafter ⊢
    obtain ⟨rowPlan, ops, hrow, hsegment, hops, -⟩ := arms
    -- no segment has the payload field, so the path entries have nothing under its index
    have hoff : pending ops (accessFace t.ns index ++ suffix) = none := by
      rcases hsegment.entries with ⟨-, hnil⟩ | ⟨new, hnew, hpending⟩
      · rw [hnil]
        rfl
      · rw [hpending _ hface.index]
        refine pending_replaceOps_off (fun e he => ?_) fun e he => ?_
        · cases hold : (st.docs pkey).segment with
          | none =>
            rw [hold] at he
            cases he
          | some fields =>
            rw [hold] at he
            exact ghost_off hindex hhead (halved.segments pkey fields hold name hname) he
        · -- the fields written are those of the document afterwards
          refine ghost_off hindex hhead ?_ he
          have hkept := hafter.segments pkey
          simp only [Function.update_self, hnew] at hkept
          change ∀ fields, keptSegment new = some fields → _ at hkept
          unfold keptSegment at hkept
          by_cases hempty : new.entries = []
          · refine (new.get_eq_none_iff name).mpr fun v hv => ?_
            rw [hempty] at hv
            cases hv
          · rw [if_neg hempty] at hkept
            have hget := hkept _ rfl name hname
            rw [keptMap, SortedMap.get_mapValues] at hget
            exact Option.map_eq_none_iff.mp hget
    change (applyOps st.store plan.ops).get _ = _
    rw [get_applyOps, readThrough, hops, pending_append, hoff, hrow.path_off hface]
    rfl
  · rw [hnext]
    rw [accessFace_eq]
    exact get_applyOps_of_not_mem st.store fun op hop => helsewhere op hop _
      (Or.inr (Or.inr (Or.inl ⟨index, hindex, rfl⟩))) suffix

include ready

theorem ghosts_stay {st : Tracked} {labels : List String} (inv : t.TableInv st labels)
    (halved : Halved t st.docs) {index : Access} (hindex : index ∈ t.indexes) {name : String}
    (hhead : headOf index = some name) (hname : t.isPayloadField name = true)
    {events : List TableEvent} (orderly : Along t.advance t.Orderly st events) (suffix : Bytes) :
    (events.foldl t.advance st).store.get (accessFace t.ns index ++ suffix)
      = st.store.get (accessFace t.ns index ++ suffix) := by
  refine (orderly.invariant (fun _ s => (∃ labels, t.TableInv s labels) ∧ Halved t s.docs ∧
    s.store.get (accessFace t.ns index ++ suffix) = st.store.get (accessFace t.ns index ++ suffix))
    ⟨⟨labels, inv⟩, halved, rfl⟩ ?_).2.2
  rintro - s ev ⟨⟨labels, inv⟩, halved, hsame⟩ hev
  obtain ⟨more, inv'⟩ := tableInv_step plain ready inv ev hev
  exact ⟨⟨_, inv'⟩, halved.step ev,
    (ghosts_step plain inv halved hindex hhead hname hev suffix).trans hsame⟩

end

/-- **A rebuild restores what the verbs maintain**, from whatever stood under the access methods,
when no path begins with a declared field: afterwards every key but the stamp's reads as in the
store the run had left. -/
theorem rebuild_heals (ready : Readable t.table) (faithful : Faithful t)
    (plain : ∀ f ∈ t.schema.hotFields, ∀ s, f.ty ≠ .vocab s) (apart : PathsApart t)
    (exact : SweepsExact t) {st : Tracked} (init : t.Init st) {events : List TableEvent}
    (orderly : Along t.advance t.Orderly st events) {m : Keyspace}
    (hsame : ∀ k, ¬ t.IndexFace k → m.get k = (events.foldl t.advance st).store.get k)
    (hmeta : ∃ row, stampedRow t.schema.layoutVersion (m.get t.metaKey) = .ok row) (chunk : Nat) :
    ∃ report m', t.rebuildFaces chunk m = (.ok report, m') ∧
      ∀ k, k ≠ t.metaKey → m'.get k = (events.foldl t.advance st).store.get k := by
  obtain ⟨⟨labels, inv⟩, einv⟩ := entriesInv_run ready faithful plain init.inv init.entries orderly
  have halved := init.halved.run events
  generalize events.foldl t.advance st = final at inv einv halved hsame ⊢
  obtain ⟨report, m', hrun, hindex, hother⟩ := rebuild_lands plain exact
    (TableInv.off_index inv hsame) (rebuildable ready faithful halved einv.swept) hmeta chunk
  refine ⟨report, m', hrun, fun k hne => ?_⟩
  by_cases hk : t.IndexFace k
  · refine Option.ext fun v => ?_
    rw [hindex k hk v]
    obtain ⟨index, hmethod, suffix, hkey⟩ := hk
    cases hpath : isPath index with
    | false =>
      have hface : t.MethodFace false k := ⟨index, hmethod, hpath, suffix, hkey⟩
      rw [einv.rows k hface v]
      refine exists_congr fun pkey => or_iff_left fun he => ?_
      rw [halved.viewEntries_eq ready apart] at he
      exact (mem_pathEntries he).1.apart hface
    | true =>
      have hface : t.MethodFace true k := ⟨index, hmethod, hpath, suffix, hkey⟩
      rw [einv.paths k hface v]
      refine exists_congr fun pkey => ?_
      rw [halved.viewEntries_eq ready apart]
      exact or_iff_right fun he => hface.apart (rowEntries_face he).1
  · exact (hother k hk hne).trans (hsame k hk)

/-- The notes with a stray entry under a method: the rebuild takes it out, and puts the tag's. -/
theorem rebuild_heals_stray : ∃ report m',
    indexedNotes.rebuildFaces 2 ((noteEvents.foldl indexedNotes.advance Tracked.new).store.insert
      [7, 0x30, 0x01, 9, 9] [1]) = (.ok report, m') ∧
    ∀ k, k ≠ indexedNotes.metaKey →
      m'.get k = (noteEvents.foldl indexedNotes.advance Tracked.new).store.get k := by
  have hnone : ((noteEvents.foldl indexedNotes.advance Tracked.new).store.insert
      [7, 0x30, 0x01, 9, 9] [1]).get indexedNotes.metaKey = none := by decide +kernel
  refine @rebuild_heals indexedNotes noteTable_readable indexedNotes_faithful notes_plain ?_ ?_
    Tracked.new ⟨fun _ _ _ => rfl, fun _ => rfl⟩ noteEvents indexedNotes_orderly _ ?_ ?_ 2
  · intro index hindex name hhead
    simp only [indexedNotes, List.mem_cons, List.not_mem_nil, or_false] at hindex
    rcases hindex with rfl | rfl | rfl
    · cases hhead
    · cases hhead
    · obtain rfl := Option.some.inj hhead
      decide
  · intro index hindex
    simp only [indexedNotes, List.mem_cons, List.not_mem_nil, or_false] at hindex
    rcases hindex with rfl | rfl | rfl <;> decide
  · intro k hk
    rw [SortedMap.get_insert, if_neg]
    rintro rfl
    exact hk ⟨_, List.mem_cons_self, [9, 9], rfl⟩
  · rw [hnone]
    exact ⟨_, rfl⟩

/-- **A rebuild leaves ghosts** under a path that begins with a declared field: it puts an entry
for the value in the row, where the verbs had put none, and the entry is there in every state of
every later run, whatever becomes of the document. -/
theorem rebuild_leaves_ghosts (ready : Readable t.table) (faithful : Faithful t)
    (plain : ∀ f ∈ t.schema.hotFields, ∀ s, f.ty ≠ .vocab s) (exact : SweepsExact t) {st : Tracked}
    (init : t.Init st) {events : List TableEvent} (orderly : Along t.advance t.Orderly st events)
    {index : Access} (hindex : index ∈ t.indexes) {name : String} (hhead : headOf index = some name)
    (hname : t.isPayloadField name = true) {pkey s : Bytes} {row : ValueMap}
    (hrow : ((events.foldl t.advance st).docs pkey).row = some row) (hs : s ∈ pathSegments index row)
    (hmeta : ∃ row, stampedRow t.schema.layoutVersion
      ((events.foldl t.advance st).store.get t.metaKey) = .ok row) (chunk : Nat) :
    (events.foldl t.advance st).store.get (accessFace t.ns index ++ (s ++ pkey)) = none ∧
    ∃ report m', t.rebuildFaces chunk (events.foldl t.advance st).store = (.ok report, m') ∧
      ∀ later, Along t.advance t.Orderly ⟨m', (events.foldl t.advance st).docs⟩ later →
        (later.foldl t.advance ⟨m', (events.foldl t.advance st).docs⟩).store.get
          (accessFace t.ns index ++ (s ++ pkey)) = some [] := by
  have hstays := ghosts_stay ready plain init.inv init.halved hindex hhead hname orderly (s ++ pkey)
  obtain ⟨⟨labels, inv⟩, einv⟩ := entriesInv_run ready faithful plain init.inv init.entries orderly
  have halved := init.halved.run events
  generalize events.foldl t.advance st = final at inv einv halved hrow hmeta hstays ⊢
  obtain ⟨report, m', hrun, hread, hother⟩ := rebuild_lands plain exact inv
    (rebuildable ready faithful halved einv.swept) hmeta chunk
  refine ⟨?_, report, m', hrun, fun later hlater => ?_⟩
  · rw [hstays, accessFace_eq]
    exact init.faces _ (Or.inr (Or.inr (Or.inl ⟨index, hindex, rfl⟩))) (s ++ pkey)
  · have inv' : t.TableInv ⟨m', final.docs⟩ labels := by
      refine TableInv.congr inv fun s hs suffix => ?_
      have hall : ∀ s ∈ primarySlot :: segmentFaces, s.val ≤ 0x0F ∧ s ≠ metaSlot := by decide
      obtain ⟨hfixed, hne⟩ := hall s hs
      exact hother _ (not_index_fixed hfixed suffix) fun heq =>
        hne ((faceKey_inj _ _ _ _ _).mp heq).1
    rw [ghosts_stay ready plain inv' halved hindex hhead hname hlater (s ++ pkey)]
    refine (hread _ ⟨index, hindex, s ++ pkey, rfl⟩ []).mpr ⟨pkey, Or.inr ?_⟩
    have hdoc : final.docs pkey ≠ {} := Doc.ne_empty_iff.mpr (Or.inl (by
      rw [hrow]
      exact Option.some_ne_none row))
    obtain ⟨view, hview⟩ := view_some hdoc
    have hsegments : pathSegments index view = pathSegments index row := by
      refine pathSegments_congr fun name' hname' => ?_
      obtain rfl := Option.some.inj (hhead.symm.trans hname')
      rw [halved.get_view ready hview, if_pos hname, hrow]
      rfl
    unfold viewEntries
    rw [hview, Option.elim_some]
    exact mem_pathIndexEntries.mpr ⟨index, hindex, isPath_of_head hhead, s, hsegments ▸ hs, rfl⟩

/-- Notes under a path to their kind, which is a declared field. -/
def kindPaths : DynamicCollection where
  table := noteTable
  ns := [7]
  indexes := [⟨⟨0x3001, [], [], .path [.field "kind"] .u8, 0⟩, by decide⟩]
  reduces := []
  indexSlots := by decide
  reduceSlots := notes.reduceSlots
  apart := by decide

theorem kindPaths_orderly :
    Along kindPaths.advance kindPaths.Orderly Tracked.new [.merge [1] noteRow] := by
  refine ⟨⟨fun e he => ?_, bounded_of_entries (by decide +kernel)⟩, trivial⟩
  have hmem : e ∈ [("kind", Value.u8 5), ("text", Value.str "xy")] := he
  simp only [List.mem_cons, List.not_mem_nil, or_false] at hmem
  rcases hmem with rfl | rfl <;> exact trivial

/-- The note is purged, and its entry is still there. -/
theorem rebuild_leaves_ghosts_kind : ∃ report m',
    kindPaths.rebuildFaces 2 ([TableEvent.merge [1] noteRow].foldl kindPaths.advance Tracked.new).store
      = (.ok report, m') ∧
    ([TableEvent.purge [1]].foldl kindPaths.advance ⟨m',
      ([TableEvent.merge [1] noteRow].foldl kindPaths.advance Tracked.new).docs⟩).store.get
        ([7, 0x30, 0x01] ++ ([5] ++ [1])) = some [] := by
  have hnone : ([TableEvent.merge [1] noteRow].foldl kindPaths.advance Tracked.new).store.get
      kindPaths.metaKey = none := by decide +kernel
  obtain ⟨-, report, m', hrun, hstays⟩ := @rebuild_leaves_ghosts kindPaths noteTable_readable
    ⟨(by simp [kindPaths]), (by simp [kindPaths])⟩ notes_plain (by
      intro index hindex
      obtain rfl := List.mem_singleton.mp hindex
      decide) Tracked.new ⟨fun _ _ _ => rfl, fun _ => rfl⟩ _ kindPaths_orderly _ List.mem_cons_self
    "kind" rfl (by decide) [1] [5] noteRow rfl (by decide) (by
      rw [hnone]
      exact ⟨_, rfl⟩) 2
  refine ⟨report, m', hrun, hstays [.purge [1]] ⟨⟨trivial, ?_⟩, trivial⟩⟩
  have hm : m' = (kindPaths.rebuildFaces 2
      ([TableEvent.merge [1] noteRow].foldl kindPaths.advance Tracked.new).store).2 := by rw [hrun]
  rw [hm]
  exact bounded_of_entries (by decide +kernel)

end DynamicCollection

end Okm.Dynamic
