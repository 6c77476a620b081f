import Okm.Dynamic.PlanShape
import Okm.Dynamic.RoundTrip
import Okm.Lib.Trace
import Okm.Model.DocumentRun

/-!
# A runtime table is a map of documents

What the table is for: a document under every key, a row of declared fields and a segment of
dynamic ones, each there or not. `merge` overlays the fields it is given, `replace` substitutes
them, `purge` takes the document away (`Doc.merged`, `Doc.replaced`, `Doc.purged`).

The table over its store does just that (`collection_refines`): along every run of the verbs,
answered or refused, what it fetches and what it enumerates are those of the map. A value on
its way through the store comes back as its field keeps it, `settled` in a row and `kept` in a
segment.
-/

namespace Okm.Dynamic

open Lib Model VirtualStorage

/-! ## What a segment keeps -/

theorem fieldsToDyn_eq (fields : List (String × Value)) :
    fieldsToDyn fields = fields.map fun e => (e.1, valueToDynValue e.2) := by
  induction fields with
  | nil => rfl
  | cons e fields ih => rw [fieldsToDyn, ih, List.map_cons]

theorem itemsToDyn_eq (items : List Value) : itemsToDyn items = items.map valueToDynValue := by
  induction items with
  | nil => rfl
  | cons v items ih => rw [itemsToDyn, ih, List.map_cons]

theorem rereadFields_eq (fields : List (String × DynamicValue)) :
    rereadFields fields = fields.map fun e => (e.1, reread e.2) := by
  induction fields with
  | nil => rfl
  | cons e fields ih => rw [rereadFields, ih, List.map_cons]

theorem rereadItems_eq (items : List DynamicValue) : rereadItems items = items.map reread := by
  induction items with
  | nil => rfl
  | cons v items ih => rw [rereadItems, ih, List.map_cons]

theorem fieldsToValue_eq (fields : List (String × DynamicValue)) :
    fieldsToValue fields = fields.map fun e => (e.1, dynValueToValue e.2) := by
  induction fields with
  | nil => rfl
  | cons e fields ih => rw [fieldsToValue, ih, List.map_cons]

theorem itemsToValue_eq (items : List DynamicValue) :
    itemsToValue items = items.map dynValueToValue := by
  induction items with
  | nil => rfl
  | cons v items ih => rw [itemsToValue, ih, List.map_cons]

/-- An object keeps its names. -/
theorem kept_obj (fields : List (String × Value)) :
    kept (.obj fields) = .obj (fields.map fun e => (e.1, kept e.2)) := by
  rw [kept, valueToDynValue, reread, dynValueToValue, fieldsToDyn_eq, rereadFields_eq,
    fieldsToValue_eq, List.map_map, List.map_map]
  rfl

theorem kept_array (items : List Value) : kept (.array items) = .array (items.map kept) := by
  rw [kept, valueToDynValue, reread, dynValueToValue, itemsToDyn_eq, rereadItems_eq,
    itemsToValue_eq, List.map_map, List.map_map]
  rfl

mutual

/-- What came from a segment goes back as it was. -/
theorem valueToDynValue_dynValueToValue : ∀ d : DynamicValue,
    valueToDynValue (dynValueToValue d) = d
  | .uint _ | .int _ | .f64 _ | .str _ | .bytes _ | .bool _ | .null => rfl
  | .obj fields => by
    rw [dynValueToValue, valueToDynValue, fieldsToDyn_fieldsToValue fields]
  | .array items => by
    rw [dynValueToValue, valueToDynValue, itemsToDyn_itemsToValue items]

theorem fieldsToDyn_fieldsToValue : ∀ fields : List (String × DynamicValue),
    fieldsToDyn (fieldsToValue fields) = fields
  | [] => rfl
  | (name, v) :: rest => by
    rw [fieldsToValue, fieldsToDyn, valueToDynValue_dynValueToValue v,
      fieldsToDyn_fieldsToValue rest]

theorem itemsToDyn_itemsToValue : ∀ items : List DynamicValue,
    itemsToDyn (itemsToValue items) = items
  | [] => rfl
  | v :: rest => by
    rw [itemsToValue, itemsToDyn, valueToDynValue_dynValueToValue v, itemsToDyn_itemsToValue rest]

end

mutual

/-- Rereading moves no field. -/
theorem wf_reread : ∀ {d : DynamicValue}, d.Wf → (reread d).Wf
  | .uint _, _ | .int _, _ | .f64 _, _ | .str _, _ | .bytes _, _ | .bool _, _ | .null, _ => by
    simp [reread, DynamicValue.Wf]
  | .array items, h => by
    rw [reread]
    exact wfItems_reread h
  | .obj fields, h => by
    obtain ⟨hsorted, hfields⟩ := h
    rw [reread]
    refine ⟨?_, wfFields_reread hfields⟩
    rw [rereadFields_eq]
    exact List.pairwise_map.mpr hsorted

theorem wfItems_reread : ∀ {items : List DynamicValue}, WfItems items → WfItems (rereadItems items)
  | [], _ => trivial
  | _ :: _, ⟨hv, hrest⟩ => ⟨wf_reread hv, wfItems_reread hrest⟩

theorem wfFields_reread : ∀ {fields : List (String × DynamicValue)}, WfFields fields →
    WfFields (rereadFields fields)
  | [], _ => trivial
  | (_, _) :: _, ⟨hv, hrest⟩ => ⟨wf_reread hv, wfFields_reread hrest⟩

end

theorem wf_kept {v : Value} (h : v.Wf) : (kept v).Wf := by
  unfold Value.Wf kept
  rw [valueToDynValue_dynValueToValue]
  exact wf_reread h

/-- Every value of a map is well formed. -/
def WfMap (m : ValueMap) : Prop := ∀ e ∈ m.entries, e.2.Wf

theorem wfMap_iff {m : ValueMap} : WfMap m ↔ ∀ name v, m.get name = some v → v.Wf := by
  constructor
  · exact fun h name v hv => h _ ((m.get_eq_some_iff name v).mp hv)
  · exact fun h e he => h e.1 e.2 ((m.get_eq_some_iff _ _).mpr he)

theorem WfMap.extend {m n : ValueMap} (hm : WfMap m) (hn : WfMap n) : WfMap (m.extend n) := by
  refine wfMap_iff.mpr fun name v hv => ?_
  rw [SortedMap.get_extend] at hv
  cases hget : n.get name with
  | some w =>
    rw [hget, Option.some_or] at hv
    exact wfMap_iff.mp hn name v (hget.trans hv)
  | none =>
    rw [hget, Option.none_or] at hv
    exact wfMap_iff.mp hm name v hv

theorem WfMap.restrict {m : ValueMap} (hm : WfMap m) (p : String → Bool) : WfMap (m.restrict p) :=
  fun e he => hm e (List.mem_filter.mp he).1

theorem WfMap.empty : WfMap SortedMap.empty := fun _ he => nomatch he

/-- The fields of a segment as they come back. -/
def keptMap (fields : ValueMap) : ValueMap := fields.mapValues kept

theorem WfMap.keptMap {fields : ValueMap} (h : WfMap fields) : WfMap (keptMap fields) := by
  intro e he
  obtain ⟨e', he', rfl⟩ := List.mem_map.mp he
  exact wf_kept (h e' he')

/-! ## The map of documents -/

namespace DynamicCollection

variable (t : DynamicCollection)

/-- A row as it comes back: its payload fields, settled. -/
def settledRow (values : ValueMap) : ValueMap :=
  SortedMap.bindAll FieldSchema.name (fun f => (values.get f.name).map (settled f.ty))
    SortedMap.empty (payloadFields t.schema.toCollectionSchema)

/-- A segment as it comes back; one without fields is none. -/
def keptSegment (fields : ValueMap) : Option ValueMap :=
  if fields.entries = [] then none else some (keptMap fields)

/-- A document changed: each half stays, goes or is written anew. -/
def Doc.changed (doc : Doc) (row : Option (Option ValueMap)) (segment : Option ValueMap) : Doc where
  row := row.elim doc.row fun new => new.map t.settledRow
  segment := segment.elim doc.segment keptSegment

/-- `merge`: the fields given lie over those there are. -/
def Doc.merged (pkey : Bytes) (object : ValueMap) (doc : Doc) : Doc :=
  Doc.changed t doc (t.mergeChange pkey doc.row (t.splitNames object).1)
    (mergeSegment doc.segment (t.splitNames object).2)

/-- `replace`: the fields given are all there are. -/
def Doc.replaced (pkey : Bytes) (object : ValueMap) (doc : Doc) : Doc :=
  Doc.changed t doc (t.replaceChange pkey doc.row (t.splitNames object).1)
    (some (t.splitNames object).2)

/-- `purge`: no document. -/
def Doc.purged : Doc := {}

/-- A document as it is fetched; a name of both halves is the segment's. -/
def Doc.view (doc : Doc) : Option ValueMap :=
  if doc.row.isNone ∧ doc.segment.isNone then none
  else some ((doc.row.getD SortedMap.empty).extend (doc.segment.getD SortedMap.empty))

/-! ## Runs -/

/-- One call on the table, or writes of others beside it. -/
inductive TableEvent where
  | merge (pkey : Bytes) (object : ValueMap)
  | replace (pkey : Bytes) (object : ValueMap)
  | purge (pkey : Bytes)
  | elsewhere (ops : List (Op Bytes Bytes))

/-- The store, and beside it the map of documents. -/
structure Tracked where
  store : Keyspace
  docs : Bytes → Doc

/-- A verb that answers moves the map along; one that does not has left the store alone. -/
def Tracked.settle {α : Type} (st : Tracked) (pkey : Bytes) (doc : Doc) (x : Plan α × Keyspace) :
    Tracked :=
  match x with
  | (.answer _, store) => ⟨store, Function.update st.docs pkey doc⟩
  | (_, store) => { st with store }

def advance (st : Tracked) : TableEvent → Tracked
  | .merge pkey object =>
    st.settle pkey ((st.docs pkey).merged t pkey object) (t.merge st.store pkey object)
  | .replace pkey object =>
    st.settle pkey ((st.docs pkey).replaced t pkey object) (t.replace st.store pkey object)
  | .purge pkey => st.settle pkey Doc.purged (t.purge st.store pkey)
  | .elsewhere ops => { st with store := applyOps st.store ops }

/-- The slots of a table: its documents', its vocabulary's, its access methods', its reduces'. -/
def Owns (s : Slot) : Prop :=
  s = primarySlot ∨ s ∈ segmentFaces ∨ (∃ index ∈ t.indexes, s.val = index.slot.toNat) ∨
    ∃ r ∈ t.reduces, s = r.slot

/-- **The condition on an event**: the values of an object are well formed, as the maps of the
program are; what is stored stays below the length a frame can announce; writes elsewhere stay
out of the table's slots. -/
def Orderly (st : Tracked) (ev : TableEvent) : Prop :=
  (match ev with
    | .merge _ object | .replace _ object => WfMap object
    | .purge _ => True
    | .elsewhere ops => ∀ op ∈ ops, ∀ s, t.Owns s → ∀ suffix, op.1 ≠ faceKey t.ns s suffix) ∧
  ∀ k raw, (t.advance st ev).store.get k = some raw → raw.length < 2 ^ 49

/-- Nothing in the table's slots yet, and no documents. -/
structure Init (st : Tracked) : Prop where
  faces : ∀ s, t.Owns s → ∀ suffix, st.store.get (faceKey t.ns s suffix) = none
  docs : ∀ pkey, st.docs pkey = {}

/-! ## The invariant -/

/-- The row of a document, in the store. -/
def RowHolds (read : Bytes → Option Bytes) (pkey : Bytes) : Option ValueMap → Prop
  | none => read (t.primaryKey pkey) = none
  | some row => ∃ payload, read (t.primaryKey pkey) = some payload ∧
      decodePayload t.schema.toCollectionSchema payload = answer row

/-- The segment of a document, in the store: frames over these labels. -/
def SegmentHolds (read : Bytes → Option Bytes) (labels : List String) (pkey : Bytes) :
    Option ValueMap → Prop
  | none => read (fieldsKey t.ns pkey) = none
  | some stored => ∃ fields body, Framed labels fields body ∧ body ≠ [] ∧
      read (fieldsKey t.ns pkey) = some body ∧ stored = keptMap fields ∧ WfMap fields ∧
      body.length < 2 ^ 49

/-- The store holds the documents, and no key of another width has one. -/
structure TableInv (st : Tracked) (labels : List String) : Prop where
  vocab : Encodes .u16 fieldVocab t.ns st.store.get labels
  rows : ∀ pkey, t.RowHolds st.store.get pkey (st.docs pkey).row
  segments : ∀ pkey, t.SegmentHolds st.store.get labels pkey (st.docs pkey).segment
  widths : ∀ pkey, st.docs pkey ≠ {} → pkey.length = t.schema.keyLen

variable {t : DynamicCollection}

theorem get_settledRow (ready : Readable t.table) (values : ValueMap) (name : String) :
    (t.settledRow values).get name = (payloadField t.schema.toCollectionSchema name).bind fun f =>
      (values.get name).map (settled f.ty) := by
  have hdistinct : DistinctKeys FieldSchema.name (payloadFields t.schema.toCollectionSchema) :=
    ready.distinct
  rw [settledRow, SortedMap.get_bindAll hdistinct, SortedMap.get_empty, Option.or_none, payloadField]
  cases hfield : findKey FieldSchema.name name (payloadFields t.schema.toCollectionSchema) with
  | none => rfl
  | some f =>
    obtain ⟨-, rfl⟩ := mem_of_findKey hfield
    rfl

/-- **What is written for a row is read back settled.** -/
theorem decode_written (ready : Readable t.table) {document : ValueMap} {payload : Bytes}
    (henc : encodePayload t.schema document = answer payload) (hsize : payload.length < 2 ^ 64) :
    decodePayload t.schema.toCollectionSchema payload = answer (t.settledRow document) := by
  have hself : Appended t.table t.table := ⟨⟨[], by simp⟩, UInt8.le_refl _⟩
  obtain ⟨out, hout, hread⟩ := decode_encode_appended ready hself henc hsize
  have hrow : out = t.settledRow document := by
    refine SortedMap.ext_get fun name => ?_
    rw [get_settledRow ready]
    refine (hread name).trans ?_
    have hschema : t.table.schema.toCollectionSchema = t.schema.toCollectionSchema := rfl
    rw [hschema]
    cases payloadField t.schema.toCollectionSchema name <;> rfl
  rw [← hrow]
  exact hout

/-- The labels of a vocabulary field are resolved on the way out; without such a field there
is nothing to resolve. -/
theorem storedDocument_eq (plain : ∀ f ∈ t.schema.hotFields, ∀ s, f.ty ≠ .vocab s)
    {store : Keyspace} {pkey : Bytes} (hwidth : pkey.length = t.schema.keyLen)
    {row : Option ValueMap} (h : t.RowHolds store.get pkey row) :
    t.storedDocument store pkey = answer row := by
  have hkey : t.checkKey pkey = .ok () := by
    unfold checkKey
    rw [if_neg (not_not.mpr hwidth)]
  have hget : VirtualStorage.get store (t.primaryKey pkey) = .ok (store.get (t.primaryKey pkey)) := rfl
  unfold storedDocument
  rw [hkey, hget]
  cases row with
  | none =>
    have hnone : store.get (t.primaryKey pkey) = none := h
    rw [hnone]
    rfl
  | some row =>
    obtain ⟨payload, hpayload, hdecode⟩ := h
    have hresolve : ∀ f ∈ t.schema.hotFields, ∀ values,
        resolveVocabLabel store t.ns values f = answer values := by
      intro f hf values
      unfold resolveVocabLabel
      split
      · rename_i idSlot _ hty _
        exact absurd hty (plain f hf idSlot)
      · rfl
    have hloop := Guarded.foldlM_eq_answer hresolve row
    rw [hpayload]
    simp only [Guarded.lift, Except.mapError, Guarded.answer_bind, hdecode, Guarded.mapRefuse, hloop]
    rw [List.foldl_fixed]

theorem SegmentHolds.grows {read : Bytes → Option Bytes} {labels labels' : List String}
    {pkey : Bytes} {segment : Option ValueMap} (h : t.SegmentHolds read labels pkey segment)
    (hgrows : GrowsTo labels labels') : t.SegmentHolds read labels' pkey segment := by
  cases segment with
  | none => exact h
  | some segment =>
    obtain ⟨fields, body, hframed, hrest⟩ := h
    exact ⟨fields, body, hframed.grows hgrows, hrest⟩

/-- **A segment is fetched as it was written, kept.** -/
theorem dynamicMap_eq {store : Keyspace} {labels : List String} {pkey : Bytes}
    {segment : Option ValueMap} (hvocab : Encodes .u16 fieldVocab t.ns store.get labels)
    (h : t.SegmentHolds store.get labels pkey segment) :
    t.dynamicMap store pkey = answer segment := by
  have hget : VirtualStorage.get store (fieldsKey t.ns pkey) = .ok (store.get (fieldsKey t.ns pkey)) :=
    rfl
  obtain ⟨d, hload, href⟩ := load_spec hvocab
  unfold dynamicMap
  rw [hget]
  cases segment with
  | none =>
    have hnone : store.get (fieldsKey t.ns pkey) = none := h
    rw [hnone]
    rfl
  | some segment =>
    obtain ⟨fields, body, hframed, -, hbody, rfl, hwf, hsize⟩ := h
    have hread : fieldsFromFrames body d = keptMap fields := by
      refine SortedMap.ext_get fun name => ?_
      rw [get_fieldsFromFrames href hframed hwf hsize, keptMap, SortedMap.get_mapValues]
    rw [hbody, hload]
    simp only [Guarded.lift, Except.mapError, Guarded.answer_bind, hread]

/-- **The invariant says what the verbs read.** -/
theorem TableInv.sees (plain : ∀ f ∈ t.schema.hotFields, ∀ s, f.ty ≠ .vocab s) {st : Tracked}
    {labels : List String} (inv : t.TableInv st labels) (pkey : Bytes) :
    Sees t st.store labels pkey (st.docs pkey) where
  row hwidth := storedDocument_eq plain hwidth (inv.rows pkey)
  segment := dynamicMap_eq inv.vocab (inv.segments pkey)
  mirror := load_spec inv.vocab

/-! ## One verb -/

theorem SegmentHolds.wf {read : Bytes → Option Bytes} {labels : List String} {pkey : Bytes}
    {segment : ValueMap} (h : t.SegmentHolds read labels pkey (some segment)) : WfMap segment := by
  obtain ⟨fields, body, -, -, -, rfl, hwf, -⟩ := h
  exact hwf.keptMap

section

variable {read read' : Bytes → Option Bytes} {labels : List String} {pkey : Bytes}

theorem RowHolds.congr {row : Option ValueMap} (h : t.RowHolds read pkey row)
    (heq : read' (t.primaryKey pkey) = read (t.primaryKey pkey)) : t.RowHolds read' pkey row := by
  cases row with
  | none => exact heq.trans h
  | some row =>
    obtain ⟨payload, hpayload, hdecode⟩ := h
    exact ⟨payload, heq.trans hpayload, hdecode⟩

theorem SegmentHolds.congr {segment : Option ValueMap}
    (h : t.SegmentHolds read labels pkey segment)
    (heq : read' (fieldsKey t.ns pkey) = read (fieldsKey t.ns pkey)) :
    t.SegmentHolds read' labels pkey segment := by
  cases segment with
  | none => exact heq.trans h
  | some segment =>
    obtain ⟨fields, body, hframed, hne, hbody, hrest⟩ := h
    exact ⟨fields, body, hframed, hne, heq.trans hbody, hrest⟩

/-- The row's key after a change of the row. -/
theorem rowHolds_changed (ready : Readable t.table) {doc : Doc} (h : t.RowHolds read pkey doc.row)
    {change : Option (Option ValueMap)} {image : Option (Option Bytes)}
    (himage : t.RowImage change image)
    (heq : read' (t.primaryKey pkey) = image.getD (read (t.primaryKey pkey)))
    (hsize : ∀ payload, read' (t.primaryKey pkey) = some payload → payload.length < 2 ^ 49)
    (segment : Option ValueMap) : t.RowHolds read' pkey (doc.changed t change segment).row := by
  cases change with
  | none =>
    obtain rfl : image = none := himage
    exact h.congr heq
  | some new =>
    cases new with
    | none =>
      obtain rfl : image = some none := himage
      exact heq
    | some document =>
      obtain ⟨payload, henc, rfl⟩ := himage
      have hlen := hsize payload heq
      exact ⟨payload, heq, decode_written ready henc (by omega)⟩

/-- The segment's key after a change of the segment. -/
theorem segmentHolds_changed (hnodup : labels.Nodup) (hfits : labels.length < 2 ^ 16) {doc : Doc}
    (h : t.SegmentHolds read labels pkey doc.segment) {change : Option ValueMap}
    {image : Option (Option Bytes)} (himage : SegmentImage labels change image)
    (heq : read' (fieldsKey t.ns pkey) = image.getD (read (fieldsKey t.ns pkey)))
    (hwf : ∀ fields, change = some fields → WfMap fields)
    (hsize : ∀ body, read' (fieldsKey t.ns pkey) = some body → body.length < 2 ^ 49)
    (row : Option (Option ValueMap)) :
    t.SegmentHolds read' labels pkey (doc.changed t row change).segment := by
  cases change with
  | none =>
    obtain rfl : image = none := himage
    exact h.congr heq
  | some fields =>
    obtain ⟨body, hframed, rfl⟩ := himage
    have hnil := framed_nil_iff hnodup hfits hframed
    change t.SegmentHolds read' labels pkey (keptSegment fields)
    unfold keptSegment
    by_cases hbody : body = []
    · rw [if_pos hbody] at heq
      rw [if_pos (hnil.mp hbody)]
      exact heq
    · rw [if_neg hbody] at heq
      rw [if_neg (mt hnil.mpr hbody)]
      exact ⟨fields, body, hframed, hbody, heq, rfl, hwf fields rfl, hsize body heq⟩

end

/-- What the operations of a verb leave at its own keys, at those of other documents, and in
the vocabulary. -/
structure Lands (t : DynamicCollection) (store : Keyspace) (labels more : List String)
    (pkey : Bytes) (rowImage segmentImage : Option (Option Bytes)) (store' : Keyspace) : Prop where
  row : ∀ p, store'.get (t.primaryKey p)
    = if p = pkey then rowImage.getD (store.get (t.primaryKey p)) else store.get (t.primaryKey p)
  segment : ∀ p, store'.get (fieldsKey t.ns p) = if p = pkey
    then segmentImage.getD (store.get (fieldsKey t.ns p)) else store.get (fieldsKey t.ns p)
  vocab : ∀ s ∈ [fieldVocabIdSlot, fieldVocabNameSlot], ∀ suffix,
    store'.get (faceKey t.ns s suffix)
      = (pending (growthOps t.ns labels more) (faceKey t.ns s suffix)).getD
        (store.get (faceKey t.ns s suffix))

theorem Arms.lands {store : Keyspace} {labels more : List String} {accOf : AccOf} {pkey : Bytes}
    {doc : Doc} {row : Option (Option ValueMap)} {segment : Option ValueMap} {plan : PlannedWrite}
    (arms : Arms t accOf labels pkey doc row segment more plan) :
    ∃ rowImage segmentImage, t.RowImage row rowImage ∧
      SegmentImage (labels ++ more) segment segmentImage ∧
      Lands t store labels more pkey rowImage segmentImage (applyOps store plan.ops) := by
  obtain ⟨rowPlan, ops, hrow, hsegment, hops, -⟩ := arms
  obtain ⟨rowImage, hrowImage, hprimary⟩ := hrow.pending_primary
  obtain ⟨segmentImage, hsegmentImage, hfixed⟩ := hsegment.pending_fixed
  have hread : ∀ k, (applyOps store plan.ops).get k
      = ((pending ops k).or (pending rowPlan.ops k)).getD (store.get k) := by
    intro k
    rw [get_applyOps, readThrough, hops, pending_append]
  refine ⟨rowImage, segmentImage, hrowImage, hsegmentImage, fun p => ?_, fun p => ?_,
    fun s hs suffix => ?_⟩
  · have hnone : pending ops (t.primaryKey p) = none := by
      refine (hfixed primarySlot (by decide) p).trans ?_
      rw [if_neg (fieldsKey_ne_face (by decide) _ _), pending_growthOps_off labels more (by decide)]
    rw [hread, hnone, hprimary p, Option.none_or]
    split <;> rfl
  · have hnone : pending rowPlan.ops (fieldsKey t.ns p) = none :=
      hrow.pending_off (show dynamicSlot.val ≤ 0x0F by decide) (by decide) p
    have hown : pending ops (fieldsKey t.ns p) = if fieldsKey t.ns pkey = fieldsKey t.ns p
        then segmentImage else pending (growthOps t.ns labels more) (fieldsKey t.ns p) :=
      hfixed dynamicSlot (by decide) p
    rw [hread, hnone, Option.or_none, hown, pending_growthOps_fields]
    by_cases hp : p = pkey
    · rw [if_pos hp, if_pos (by rw [hp])]
    · rw [if_neg hp, if_neg (fieldsKey_ne (Ne.symm hp))]
      rfl
  · -- the faces of the vocabulary take the growth only
    have hslot : s.val ≤ 0x0F ∧ primarySlot ≠ s ∧ dynamicSlot ≠ s := by
      rcases List.mem_pair.mp hs with rfl | rfl <;> decide
    rw [hread, hfixed s hslot.1, if_neg (fieldsKey_ne_face hslot.2.2 _ _),
      hrow.pending_off hslot.1 hslot.2.1, Option.or_none]

/-- **An arm for the row and one for the segment move the document along.** -/
theorem TableInv.arms (ready : Readable t.table) {st : Tracked} {labels more : List String}
    (inv : t.TableInv st labels) {accOf : AccOf} {pkey : Bytes} {row : Option (Option ValueMap)}
    {segment : Option ValueMap} {plan : PlannedWrite}
    (arms : Arms t accOf labels pkey (st.docs pkey) row segment more plan)
    (hwf : ∀ fields, segment = some fields → WfMap fields)
    (hsize : ∀ k raw, (applyOps st.store plan.ops).get k = some raw → raw.length < 2 ^ 49) :
    t.TableInv ⟨applyOps st.store plan.ops,
      Function.update st.docs pkey ((st.docs pkey).changed t row segment)⟩ (labels ++ more) := by
  obtain ⟨rowImage, segmentImage, hrowImage, hsegmentImage, lands⟩ := @Arms.lands t st.store _ _ _ _ _ _ _ _ arms
  obtain ⟨rowPlan, ops, hrow, hsegment, -, -⟩ := arms
  obtain ⟨hnodup, hfits⟩ := hsegment.labels_ok inv.vocab.nodup inv.vocab.fits
  have hgrows : GrowsTo labels (labels ++ more) := ⟨List.prefix_append _ _, fun _ => hnodup⟩
  refine ⟨(encodes_growth inv.vocab hnodup hfits).congr (lands.vocab _ (by decide))
    (lands.vocab _ (by decide)), fun p => ?_, fun p => ?_, fun p hp => ?_⟩
  · have hat := lands.row p
    by_cases hp : p = pkey
    · subst hp
      rw [if_pos rfl] at hat
      simp only [Function.update_self]
      exact rowHolds_changed ready (inv.rows p) hrowImage hat (hsize _) segment
    · rw [if_neg hp] at hat
      simp only [Function.update_of_ne hp]
      exact (inv.rows p).congr hat
  · have hat := lands.segment p
    by_cases hp : p = pkey
    · subst hp
      rw [if_pos rfl] at hat
      simp only [Function.update_self]
      exact segmentHolds_changed hnodup hfits ((inv.segments p).grows hgrows) hsegmentImage hat hwf
        (hsize _) row
    · rw [if_neg hp] at hat
      simp only [Function.update_of_ne hp]
      exact ((inv.segments p).grows hgrows).congr hat
  · by_cases heq : p = pkey
    · rw [heq]
      exact hrow.width
    · simp only [Function.update_of_ne heq] at hp
      exact inv.widths p hp

/-- The documents are held by four faces. -/
theorem TableInv.congr {m m' : Keyspace} {docs : Bytes → Doc} {labels : List String}
    (inv : t.TableInv ⟨m, docs⟩ labels) (hread : ∀ s ∈ primarySlot :: segmentFaces, ∀ suffix,
      m'.get (faceKey t.ns s suffix) = m.get (faceKey t.ns s suffix)) :
    t.TableInv ⟨m', docs⟩ labels where
  vocab := inv.vocab.congr (hread _ (by decide)) (hread _ (by decide))
  rows pkey := (inv.rows pkey).congr (hread _ (by decide) pkey)
  segments pkey := (inv.segments pkey).congr (hread dynamicSlot (by decide) pkey)
  widths := inv.widths

/-! ## The verbs along a run -/

theorem replay_keyspace (store : Keyspace) (ops : List (Op Bytes Bytes)) :
    replay store ops = (answer (), applyOps store ops) := by
  unfold replay
  by_cases hnil : ops = []
  · rw [if_pos hnil, hnil]
    rfl
  · rw [if_neg hnil]
    rfl

/-- A plan that answers is replayed, and one that does not changes nothing. -/
theorem settle_replayPlan (st : Tracked) (pkey : Bytes) (doc : Doc) (plan : Plan PlannedWrite) :
    (∃ planned, plan = answer planned ∧ st.settle pkey doc (replayPlan st.store plan)
      = ⟨applyOps st.store planned.ops, Function.update st.docs pkey doc⟩) ∨
    st.settle pkey doc (replayPlan st.store plan) = st := by
  cases plan with
  | answer planned =>
    refine Or.inl ⟨planned, rfl, ?_⟩
    unfold replayPlan
    dsimp only
    rw [replay_keyspace]
    rfl
  | refuse e => exact Or.inr rfl
  | abort f => exact Or.inr rfl

theorem changed_purged (doc : Doc) :
    Doc.changed t doc (purgeRow doc.row) (purgeSegment doc.segment) = Doc.purged := by
  obtain ⟨row, segment⟩ := doc
  cases row <;> cases segment <;> rfl

theorem wf_mergeSegment {read : Bytes → Option Bytes} {labels : List String} {pkey : Bytes}
    {old : Option ValueMap} (hold : t.SegmentHolds read labels pkey old) {dynamic : ValueMap}
    (hwf : WfMap dynamic) {fields : ValueMap} (h : mergeSegment old dynamic = some fields) :
    WfMap fields := by
  unfold mergeSegment at h
  split at h
  · cases h
  · obtain rfl := Option.some.inj h
    refine WfMap.extend ?_ hwf
    cases old with
    | none => exact WfMap.empty
    | some segment => exact hold.wf

theorem wf_purgeSegment {old : Option ValueMap} {fields : ValueMap}
    (h : purgeSegment old = some fields) : WfMap fields := by
  obtain ⟨segment, -, rfl⟩ := Option.map_eq_some_iff.mp h
  exact WfMap.empty

section

variable (plain : ∀ f ∈ t.schema.hotFields, ∀ s, f.ty ≠ .vocab s)
include plain

/-- **What an event comes to**: nothing, the two arms of one document, or writes elsewhere. -/
theorem advance_cases {st : Tracked} {labels : List String} (inv : t.TableInv st labels)
    {ev : TableEvent} (orderly : t.Orderly st ev) :
    t.advance st ev = st ∨
    (∃ pkey row segment more plan,
      Arms t (accsOf st.store) labels pkey (st.docs pkey) row segment more plan ∧
      (∀ fields, segment = some fields → WfMap fields) ∧
      t.advance st ev = ⟨applyOps st.store plan.ops,
        Function.update st.docs pkey ((st.docs pkey).changed t row segment)⟩) ∨
    ∃ ops, t.advance st ev = { st with store := applyOps st.store ops } ∧
      ∀ op ∈ ops, ∀ s, t.Owns s → ∀ suffix, op.1 ≠ faceKey t.ns s suffix := by
  obtain ⟨hgiven, -⟩ := orderly
  cases ev with
  | merge pkey object =>
    have hsplit : WfMap (t.splitNames object).2 := WfMap.restrict hgiven _
    rcases settle_replayPlan st pkey ((st.docs pkey).merged t pkey object)
      (t.mergePlan st.store pkey object) with ⟨plan, hplan, hnext⟩ | hsame
    · obtain ⟨more, arms⟩ := mergePlan_answer (inv.sees plain pkey) hplan
      exact Or.inr (Or.inl ⟨pkey, _, _, more, plan, arms,
        fun fields h => wf_mergeSegment (inv.segments pkey) hsplit h, hnext⟩)
    · exact Or.inl hsame
  | replace pkey object =>
    have hsplit : WfMap (t.splitNames object).2 := WfMap.restrict hgiven _
    rcases settle_replayPlan st pkey ((st.docs pkey).replaced t pkey object)
      (t.replacePlan st.store pkey object) with ⟨plan, hplan, hnext⟩ | hsame
    · obtain ⟨more, arms⟩ := replacePlan_answer (inv.sees plain pkey) hplan
      refine Or.inr (Or.inl ⟨pkey, _, _, more, plan, arms, fun fields h => ?_, hnext⟩)
      rw [← Option.some.inj h]
      exact hsplit
    · exact Or.inl hsame
  | purge pkey =>
    have hpurge : t.advance st (.purge pkey) = st.settle pkey Doc.purged (t.purge st.store pkey) := rfl
    rw [hpurge]
    unfold purge
    cases hplan : t.purgePlan st.store pkey with
    | answer found =>
      cases found with
      | none =>
        -- there was no document, and there is none
        have hnone := purgePlan_none (inv.sees plain pkey) hplan
        refine Or.inl ?_
        change (⟨st.store, Function.update st.docs pkey Doc.purged⟩ : Tracked) = st
        unfold Doc.purged
        rw [← hnone, Function.update_eq_self]
      | some plan =>
        have arms := purgePlan_answer (inv.sees plain pkey) hplan
        refine Or.inr (Or.inl ⟨pkey, _, _, [], plan, arms, fun _ => wf_purgeSegment, ?_⟩)
        dsimp only
        rw [replay_keyspace, changed_purged]
        rfl
    | refuse e => exact Or.inl rfl
    | abort f => exact Or.inl rfl
  | elsewhere ops => exact Or.inr (Or.inr ⟨ops, rfl, hgiven⟩)

variable (ready : Readable t.table)
include ready

/-- **Each event, answered or refused, keeps the invariant.** -/
theorem tableInv_step {st : Tracked} {labels : List String} (inv : t.TableInv st labels)
    (ev : TableEvent) (orderly : t.Orderly st ev) :
    ∃ more, t.TableInv (t.advance st ev) (labels ++ more) := by
  have hsize := orderly.2
  rcases advance_cases plain inv orderly with
    hsame | ⟨pkey, row, segment, more, plan, arms, hwf, hnext⟩ | ⟨ops, hnext, helsewhere⟩
  · rw [hsame]
    exact ⟨[], by rwa [List.append_nil]⟩
  · rw [hnext] at hsize ⊢
    exact ⟨more, inv.arms ready arms hwf hsize⟩
  · refine ⟨[], ?_⟩
    rw [List.append_nil, hnext]
    refine inv.congr fun s hs suffix =>
      get_applyOps_of_not_mem st.store fun op hop => helsewhere op hop s ?_ suffix
    rcases List.mem_cons.mp hs with rfl | hs
    · exact Or.inl rfl
    · exact Or.inr (Or.inl hs)

theorem tableInv_run {st : Tracked} {labels : List String} (inv : t.TableInv st labels)
    {events : List TableEvent} (orderly : Along t.advance t.Orderly st events) :
    ∃ labels', t.TableInv (events.foldl t.advance st) labels' :=
  orderly.invariant (fun _ st => ∃ labels, t.TableInv st labels) ⟨labels, inv⟩
    fun _ _ ev inv orderly => by
      obtain ⟨labels, inv⟩ := inv
      obtain ⟨more, inv'⟩ := tableInv_step plain ready inv ev orderly
      exact ⟨_, inv'⟩

end

theorem Init.inv {st : Tracked} (init : t.Init st) : t.TableInv st [] where
  vocab := encodes_empty (init.faces _ (Or.inr (Or.inl (by decide))))
    (init.faces _ (Or.inr (Or.inl (by decide))))
  rows pkey := by
    rw [init.docs pkey]
    exact init.faces _ (Or.inl rfl) pkey
  segments pkey := by
    rw [init.docs pkey]
    exact init.faces dynamicSlot (Or.inr (Or.inl (by decide))) pkey
  widths pkey h := absurd (init.docs pkey) h

/-! ## What is fetched -/

theorem TableInv.fetch_eq (plain : ∀ f ∈ t.schema.hotFields, ∀ s, f.ty ≠ .vocab s) {st : Tracked}
    {labels : List String} (inv : t.TableInv st labels) {pkey : Bytes}
    (hwidth : pkey.length = t.schema.keyLen) :
    t.fetch st.store pkey = answer (st.docs pkey).view := by
  have sees := inv.sees plain pkey
  unfold fetch Doc.view
  rw [sees.row hwidth, sees.segment, Guarded.answer_bind, Guarded.answer_bind]
  split <;> rfl

theorem RowHolds.none_iff {read : Bytes → Option Bytes} {pkey : Bytes} {row : Option ValueMap}
    (h : t.RowHolds read pkey row) : row = none ↔ read (t.primaryKey pkey) = none := by
  cases row with
  | none => exact ⟨fun _ => h, fun _ => rfl⟩
  | some row =>
    obtain ⟨payload, hpayload, -⟩ := h
    rw [hpayload]
    exact ⟨(fun h => nomatch h), (fun h => nomatch h)⟩

theorem SegmentHolds.none_iff {read : Bytes → Option Bytes} {labels : List String} {pkey : Bytes}
    {segment : Option ValueMap} (h : t.SegmentHolds read labels pkey segment) :
    segment = none ↔ read (fieldsKey t.ns pkey) = none := by
  cases segment with
  | none => exact ⟨fun _ => h, fun _ => rfl⟩
  | some segment =>
    obtain ⟨fields, body, -, -, hbody, -⟩ := h
    rw [hbody]
    exact ⟨(fun h => nomatch h), (fun h => nomatch h)⟩

theorem Doc.ne_empty_iff {doc : Doc} : doc ≠ {} ↔ doc.row ≠ none ∨ doc.segment ≠ none := by
  obtain ⟨row, segment⟩ := doc
  cases row <;> cases segment <;> simp

theorem TableInv.doc_iff {st : Tracked} {labels : List String} (inv : t.TableInv st labels)
    (pkey : Bytes) : st.docs pkey ≠ {} ↔ st.store.get (t.primaryKey pkey) ≠ none ∨
      st.store.get (fieldsKey t.ns pkey) ≠ none := by
  rw [Doc.ne_empty_iff, Ne, Ne, (inv.rows pkey).none_iff, (inv.segments pkey).none_iff]

/-- **A runtime table is a map of documents**: along every run of its verbs, answered or
refused, with writes of others beside it, every key of the declared width fetches its document,
and the keys enumerated are those that have one. -/
theorem collection_refines (ready : Readable t.table)
    (plain : ∀ f ∈ t.schema.hotFields, ∀ s, f.ty ≠ .vocab s) {st : Tracked} (init : t.Init st)
    {events : List TableEvent} (orderly : Along t.advance t.Orderly st events) :
    (∀ pkey, pkey.length = t.schema.keyLen →
      t.fetch (events.foldl t.advance st).store pkey
        = answer ((events.foldl t.advance st).docs pkey).view) ∧
    ∃ keys, dynamicDocumentKeys (events.foldl t.advance st).store t.ns = .ok keys ∧
      keys.Pairwise (· < ·) ∧ ∀ k, k ∈ keys ↔ (events.foldl t.advance st).docs k ≠ {} := by
  obtain ⟨labels, inv⟩ := tableInv_run plain ready init.inv orderly
  refine ⟨fun pkey hwidth => inv.fetch_eq plain hwidth, ?_⟩
  obtain ⟨keys, hscan, hsorted, hmem⟩ :=
    Document.dynamicScanExact (events.foldl t.advance st).store t.ns
  exact ⟨keys, hscan, hsorted, fun k => (hmem k).trans (inv.doc_iff k).symm⟩

/-- A store is bounded when its entries are. -/
theorem bounded_of_entries {store : Keyspace} {n : Nat}
    (h : ∀ e ∈ store.entries, e.2.length < n) (k raw : Bytes) (hget : store.get k = some raw) :
    raw.length < n := h _ ((store.get_eq_some_iff k raw).mp hget)

def notes : DynamicCollection where
  table := noteTable
  ns := [7]
  indexes := []
  reduces := []
  indexSlots := by simp
  reduceSlots := by simp
  apart := by simp

def Tracked.new : Tracked := ⟨SortedMap.empty, fun _ => {}⟩

/-- A row with a dynamic field, then another value of a declared one. -/
def noteEvents : List TableEvent :=
  [.merge [1] (noteRow.insert "tag" (.u16 9)), .merge [1] (SortedMap.empty.insert "kind" (.u8 6))]

theorem noteEvents_orderly : Along notes.advance notes.Orderly Tracked.new noteEvents := by
  refine ⟨⟨?_, bounded_of_entries (by decide +kernel)⟩,
    ⟨?_, bounded_of_entries (by decide +kernel)⟩, trivial⟩
  · intro e he
    have hmem : e ∈ [("kind", Value.u8 5), ("tag", Value.u16 9), ("text", Value.str "xy")] := he
    simp only [List.mem_cons, List.not_mem_nil, or_false] at hmem
    rcases hmem with rfl | rfl | rfl <;> exact trivial
  · intro e he
    have hmem : e ∈ [("kind", Value.u8 6)] := he
    rw [List.mem_singleton.mp hmem]
    exact trivial

theorem notes_plain : ∀ f ∈ notes.schema.hotFields, ∀ s, f.ty ≠ .vocab s := by
  intro f hf s hty
  obtain rfl := List.mem_singleton.mp hf
  cases hty

theorem collection_refines_notes :
    notes.fetch (noteEvents.foldl notes.advance Tracked.new).store [1]
      = answer ((noteEvents.foldl notes.advance Tracked.new).docs [1]).view :=
  (@collection_refines notes ⟨by decide, by decide, by decide, by decide⟩ notes_plain Tracked.new
    ⟨fun _ _ _ => rfl, fun _ => rfl⟩ noteEvents noteEvents_orderly).1 [1] rfl

end DynamicCollection

end Okm.Dynamic
