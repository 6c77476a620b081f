import Okm.Dynamic.Collection
import Okm.Dynamic.Planners
import Okm.Model.FaceRun

/-!
# What a plan is made of

A plan that answers is a list of operations of known shape: the entries of the old row
dropped, the accumulators the reduces come to, the row, the entries of the new one; then the
growth of the vocabulary, the segment, and the path entries old before new. Every verb plans
one arm for the row and one for the segment (`RowArm`, `SegmentArm`), and which arm it is
follows from the stored document and the map handed in.

Each face is written by one part of the list only, so what a later proof says of a face it
reads off that part.
-/

namespace Okm.Dynamic

open Lib Model VirtualStorage

/-! ## Faces -/

/-- A key under a counting slot. -/
def Counting (ns : Bytes) (k : Bytes) : Prop :=
  ∃ (s : Slot) (suffix : Bytes), 0x1000 ≤ s.val ∧ k = faceKey ns s suffix

theorem Counting.ne_fixed {ns k : Bytes} (h : Counting ns k) {s : Slot} (hs : s.val ≤ 0x0F)
    (suffix : Bytes) : k ≠ faceKey ns s suffix := by
  obtain ⟨s', suffix', hcount, rfl⟩ := h
  refine faceKey_ne_of_slot (fun heq => ?_) _ _
  rw [heq] at hcount
  omega

theorem accessFace_eq (ns : Bytes) (index : Access) (suffix : Bytes) :
    accessFace ns index ++ suffix = faceKey ns index.face suffix := rfl

/-- The two bytes of a counting slot. -/
theorem accessFace_counting (ns : Bytes) {index : Access} (h : 0x1000 ≤ index.slot.toNat) :
    accessFace ns index = ns ++ beBytes 2 index.slot.toNat := by
  unfold accessFace Slot.bytes Access.face
  rw [if_neg (by dsimp only; omega)]

/-! ## Entries -/

/-- Every entry is one of some method. -/
theorem mem_indexEntries {schema : CollectionSchema} {ns pkey : Bytes} {indexes : List Access}
    {document : ValueMap} {entries : List (Bytes × Bytes)}
    (h : indexEntries schema ns indexes pkey document = .ok entries) {e : Bytes × Bytes} :
    e ∈ entries ↔ ∃ index ∈ indexes, ∃ found,
      methodEntries schema ns index pkey document = .ok found ∧ e ∈ found := by
  induction indexes generalizing entries with
  | nil =>
    obtain rfl := Except.ok.inj h
    simp
  | cons index indexes ih =>
    unfold indexEntries at h
    obtain ⟨first, hfirst, h⟩ := bind_eq_ok.mp h
    cases hrest : indexEntries schema ns indexes pkey document with
    | error err =>
      rw [hrest] at h
      cases h
    | ok rest =>
      rw [hrest] at h
      obtain rfl := Except.ok.inj h
      rw [List.mem_append, ih hrest]
      constructor
      · rintro (he | ⟨index', hindex', found, hfound, he⟩)
        · exact ⟨index, List.mem_cons_self, first, hfirst, he⟩
        · exact ⟨index', List.mem_cons_of_mem _ hindex', found, hfound, he⟩
      · rintro ⟨index', hindex', found, hfound, he⟩
        rcases List.mem_cons.mp hindex' with rfl | hindex'
        · rw [hfirst] at hfound
          obtain rfl := Except.ok.inj hfound
          exact Or.inl he
        · exact Or.inr ⟨index', hindex', found, hfound, he⟩

/-- With all entries there are those of each method. -/
theorem methodEntries_of_all {schema : CollectionSchema} {ns pkey : Bytes} {indexes : List Access}
    {document : ValueMap} {entries : List (Bytes × Bytes)}
    (h : indexEntries schema ns indexes pkey document = .ok entries) {index : Access}
    (hindex : index ∈ indexes) : ∃ found, methodEntries schema ns index pkey document = .ok found := by
  induction indexes generalizing entries with
  | nil => cases hindex
  | cons first indexes ih =>
    unfold indexEntries at h
    obtain ⟨found, hfound, h⟩ := bind_eq_ok.mp h
    rcases List.mem_cons.mp hindex with rfl | hindex
    · exact ⟨found, hfound⟩
    · cases hrest : indexEntries schema ns indexes pkey document with
      | error err =>
        rw [hrest] at h
        cases h
      | ok rest => exact ih hrest hindex

/-- The key of an entry: the face, a segment, the key of the row. -/
theorem methodEntries_key {schema : CollectionSchema} {ns pkey : Bytes} {index : Access}
    {document : ValueMap} {found : List (Bytes × Bytes)}
    (h : methodEntries schema ns index pkey document = .ok found) {e : Bytes × Bytes}
    (he : e ∈ found) : ∃ segment, e.1 = accessFace ns index ++ (segment ++ pkey) := by
  unfold methodEntries at h
  obtain ⟨admitted, -, h⟩ := bind_eq_ok.mp h
  cases admitted with
  | false =>
    obtain rfl := Except.ok.inj h
    cases he
  | true =>
    obtain ⟨segs, -, h⟩ := bind_eq_ok.mp h
    cases hvalue : includesBytes schema index document with
    | error err =>
      rw [hvalue] at h
      cases h
    | ok value =>
      rw [hvalue] at h
      obtain rfl := Except.ok.inj h
      obtain ⟨segment, -, rfl⟩ := List.mem_map.mp he
      exact ⟨segment, rfl⟩

/-! ## Reduces -/

namespace DynamicCollection

variable {t : DynamicCollection} {accOf : AccOf}

/-- What a run of the reduces appends: accumulators under the groups' keys. -/
structure Reduced (t : DynamicCollection) (key document : ValueMap) (st st' : Reducing)
    (accs : List (Bytes × Bytes)) : Prop where
  ops : st'.ops = st.ops ++ putOps accs
  newAccs : st'.newAccs = st.newAccs ++ accs
  groups : ∀ a ∈ accs, ∃ r ∈ t.reduces, ∃ g,
    r.groupBytes t.schema.toCollectionSchema key document = .ok g ∧ a.1 = faceKey t.ns r.slot g

theorem reduceLoop_answer {key document : ValueMap} {add : Bool} {rs : List BoundReduce}
    {st st' : Reducing} (hrs : ∀ r ∈ rs, r ∈ t.reduces)
    (h : t.reduceLoop accOf key document add rs st = answer st') :
    ∃ accs, Reduced t key document st st' accs := by
  induction rs generalizing st with
  | nil =>
    obtain rfl := Guarded.answer.inj h
    exact ⟨[], by simp [putOps], by simp, by simp⟩
  | cons r rest ih =>
    unfold reduceLoop at h
    obtain ⟨ek, hek, h⟩ := Guarded.bind_eq_answer.mp h
    obtain ⟨found, -, h⟩ := Guarded.bind_eq_answer.mp h
    split at h
    · obtain rfl := Guarded.answer.inj h
      exact ⟨[], by simp [putOps], by simp, by simp⟩
    · obtain ⟨acc, -, h⟩ := Guarded.bind_eq_answer.mp h
      obtain ⟨accs, hops, haccs, hgroups⟩ :=
        ih (fun r' hr' => hrs r' (List.mem_cons_of_mem _ hr')) h
      have hgroup : ∃ g, r.groupBytes t.schema.toCollectionSchema key document = .ok g ∧
          ek = faceKey t.ns r.slot g := by
        have hek := Guarded.lift_eq_answer.mp hek
        unfold BoundReduce.entryKey at hek
        cases hg : r.groupBytes t.schema.toCollectionSchema key document with
        | error e =>
          rw [hg] at hek
          cases hek
        | ok g =>
          rw [hg] at hek
          exact ⟨g, rfl, (Except.ok.inj hek).symm⟩
      refine ⟨(ek, acc) :: accs, ?_, ?_, List.forall_mem_cons.mpr ⟨?_, hgroups⟩⟩
      · rw [hops, List.append_assoc]
        rfl
      · rw [haccs, List.append_assoc]
        rfl
      · obtain ⟨g, hg, hkey⟩ := hgroup
        exact ⟨r, hrs r List.mem_cons_self, g, hg, hkey⟩

/-! ## The row's arm -/

theorem primaryKey_ne_face {s : Slot} (h : primarySlot ≠ s) (pkey suffix : Bytes) :
    t.primaryKey pkey ≠ faceKey t.ns s suffix := faceKey_ne_of_slot h pkey suffix

theorem primaryKey_ne {a b : Bytes} (h : a ≠ b) : t.primaryKey a ≠ t.primaryKey b :=
  faceKey_ne_of_suffix h

/-- What a row's plan consists of: the old row's entries dropped, accumulators, the row's own
operation, the new row's entries. -/
structure RowParts where
  dropped : List Bytes
  accs : List (Bytes × Bytes)
  row : Option Bytes
  entries : List (Bytes × Bytes)

def RowParts.ops (p : RowParts) (t : DynamicCollection) (pkey : Bytes) : List (Op Bytes Bytes) :=
  delOps p.dropped ++ putOps p.accs ++ [(t.primaryKey pkey, p.row)] ++ putOps p.entries

/-- The parts of a row's plan are those of the old row and the new. -/
structure RowPlanned (t : DynamicCollection) (accOf : AccOf) (pkey : Bytes)
    (old new : Option ValueMap) (p : RowParts) : Prop where
  width : pkey.length = t.schema.keyLen
  dropped : ∃ entries, old.elim (.ok []) (t.entriesOf pkey) = .ok entries ∧
    p.dropped = entries.map Prod.fst
  entries : new.elim (.ok []) (t.entriesOf pkey) = .ok p.entries
  row : new.elim (p.row = none) fun document =>
    ∃ payload, encodePayload t.schema document = answer payload ∧ p.row = some payload
  accs : ∃ swept folded : Reducing,
    old.elim (answer {}) (fun old => t.planReduces accOf pkey old false {}) = answer swept ∧
    new.elim (answer swept) (fun document => t.planReduces accOf pkey document true swept)
      = answer folded ∧ p.accs = folded.newAccs ∧ folded.ops = putOps folded.newAccs

/-- The operations so far do not steer the reduces. -/
theorem reduceLoop_shift {key document : ValueMap} {add : Bool} {rs : List BoundReduce}
    {st st' : Reducing} (front : List (Op Bytes Bytes))
    (h : t.reduceLoop accOf key document add rs { st with ops := front ++ st.ops } = answer st') :
    ∃ st'', t.reduceLoop accOf key document add rs st = answer st'' ∧
      st' = { st'' with ops := front ++ st''.ops } := by
  induction rs generalizing st with
  | nil =>
    obtain rfl := Guarded.answer.inj h
    exact ⟨st, rfl, rfl⟩
  | cons r rest ih =>
    unfold reduceLoop at h ⊢
    obtain ⟨ek, hek, h⟩ := Guarded.bind_eq_answer.mp h
    obtain ⟨found, hfound, h⟩ := Guarded.bind_eq_answer.mp h
    dsimp only at hfound
    rw [hek, Guarded.answer_bind, hfound, Guarded.answer_bind]
    split at h
    · rename_i hstop
      obtain rfl := Guarded.answer.inj h
      rw [if_pos hstop]
      exact ⟨st, rfl, rfl⟩
    · rename_i hgo
      obtain ⟨acc, hacc, h⟩ := Guarded.bind_eq_answer.mp h
      rw [if_neg hgo]
      dsimp only at hacc h ⊢
      rw [hacc, Guarded.answer_bind]
      rw [List.append_assoc] at h
      exact ih h

theorem planReduces_shift {pkey : Bytes} {document : ValueMap} {add : Bool} {st st' : Reducing}
    (front : List (Op Bytes Bytes))
    (h : t.planReduces accOf pkey document add { st with ops := front ++ st.ops } = answer st') :
    ∃ st'', t.planReduces accOf pkey document add st = answer st'' ∧
      st' = { st'' with ops := front ++ st''.ops } := by
  unfold planReduces at h ⊢
  obtain ⟨key, hkey, h⟩ := Guarded.bind_eq_answer.mp h
  obtain ⟨st'', hloop, heq⟩ := reduceLoop_shift front h
  exact ⟨st'', by rw [hkey, Guarded.answer_bind, hloop], heq⟩

/-- Reduces append their accumulators to the operations and to the receipts alike. -/
theorem planReduces_ops {pkey : Bytes} {document : ValueMap} {add : Bool} {st st' : Reducing}
    (h : t.planReduces accOf pkey document add st = answer st')
    (hst : st.ops = putOps st.newAccs) : st'.ops = putOps st'.newAccs := by
  unfold planReduces at h
  obtain ⟨key, -, h⟩ := Guarded.bind_eq_answer.mp h
  obtain ⟨accs, hops, haccs, -⟩ := reduceLoop_answer (fun r hr => hr) h
  rw [hops, haccs, hst]
  exact (List.map_append ..).symm

theorem checkKey_ok {pkey : Bytes} (h : t.checkKey pkey = .ok ()) :
    pkey.length = t.schema.keyLen := by
  unfold checkKey at h
  by_cases hlen : pkey.length = t.schema.keyLen
  · exact hlen
  · rw [if_pos hlen] at h
    cases h

/-- What sweeping the old row comes to. -/
theorem planSweep_answer {pkey : Bytes} {old : Option ValueMap} {st : Reducing}
    (h : old.elim (answer {}) (fun old => t.planSweep accOf pkey old {}) = answer st) :
    ∃ dropped swept, (∃ entries, old.elim (.ok []) (t.entriesOf pkey) = .ok entries ∧
        dropped = entries.map Prod.fst) ∧
      old.elim (answer {}) (fun old => t.planReduces accOf pkey old false {}) = answer swept ∧
      swept.ops = putOps swept.newAccs ∧ st = { swept with ops := delOps dropped ++ swept.ops } := by
  cases old with
  | none =>
    obtain rfl := Guarded.answer.inj h
    exact ⟨[], {}, ⟨[], rfl, rfl⟩, rfl, rfl, rfl⟩
  | some old =>
    rw [Option.elim_some, planSweep] at h
    obtain ⟨entries, hentries, h⟩ := Guarded.bind_eq_answer.mp h
    have hdel : (({} : Reducing).ops ++ entries.map fun e => (e.1, (none : Option Bytes)))
        = delOps (entries.map Prod.fst) ++ ({} : Reducing).ops := by
      simp [delOps, Function.comp_def]
    rw [hdel] at h
    obtain ⟨swept, hswept, heq⟩ := planReduces_shift _ h
    exact ⟨entries.map Prod.fst, swept, ⟨entries, Guarded.lift_eq_answer.mp hentries, rfl⟩, hswept,
      planReduces_ops hswept rfl, heq⟩

/-- **A put that is planned**: its operations, part by part. -/
theorem planPut_answer {pkey : Bytes} {document : ValueMap} {old : Option ValueMap}
    {plan : PlannedWrite} (h : t.planPut pkey document old accOf = answer plan) :
    ∃ p, RowPlanned t accOf pkey old (some document) p ∧
      plan = { ops := p.ops t pkey, newAccs := p.accs } := by
  unfold planPut at h
  obtain ⟨_, hkey, h⟩ := Guarded.bind_eq_answer.mp h
  obtain ⟨_, -, h⟩ := Guarded.bind_eq_answer.mp h
  obtain ⟨st, hsweep, h⟩ := Guarded.bind_eq_answer.mp h
  obtain ⟨entries, hentries, h⟩ := Guarded.bind_eq_answer.mp h
  obtain ⟨payload, hpayload, h⟩ := Guarded.bind_eq_answer.mp h
  obtain ⟨st', hfold, h⟩ := Guarded.bind_eq_answer.mp h
  obtain rfl := Guarded.answer.inj h
  obtain ⟨dropped, swept, hdropped, hswept, hops, rfl⟩ := planSweep_answer hsweep
  obtain ⟨folded, hfolded, rfl⟩ := planReduces_shift _ hfold
  have hfoldedOps := planReduces_ops hfolded hops
  refine ⟨⟨dropped, folded.newAccs, some payload, entries⟩, ?_, ?_⟩
  · exact {
      width := checkKey_ok (Guarded.lift_eq_answer.mp hkey)
      dropped := hdropped
      entries := Guarded.lift_eq_answer.mp hentries
      row := ⟨payload, Guarded.mapRefuse_eq_answer.mp hpayload, rfl⟩
      accs := ⟨swept, folded, hswept, hfolded, rfl, hfoldedOps⟩ }
  · rw [RowParts.ops]
    dsimp only
    rw [hfoldedOps]
    rfl

/-- **A delete that is planned.** -/
theorem planDelete_answer {pkey : Bytes} {old : ValueMap} {plan : PlannedWrite}
    (h : t.planDelete pkey old accOf = answer plan) :
    ∃ p, RowPlanned t accOf pkey (some old) none p ∧
      plan = { ops := p.ops t pkey, newAccs := p.accs } := by
  unfold planDelete at h
  obtain ⟨_, hkey, h⟩ := Guarded.bind_eq_answer.mp h
  obtain ⟨st, hsweep, h⟩ := Guarded.bind_eq_answer.mp h
  obtain rfl := Guarded.answer.inj h
  obtain ⟨dropped, swept, hdropped, hswept, hops, rfl⟩ := @planSweep_answer t accOf pkey (some old) _ hsweep
  refine ⟨⟨dropped, swept.newAccs, none, []⟩, ?_, ?_⟩
  · exact {
      width := checkKey_ok (Guarded.lift_eq_answer.mp hkey)
      dropped := hdropped
      entries := rfl
      row := rfl
      accs := ⟨swept, swept, hswept, rfl, rfl, hops⟩ }
  · rw [RowParts.ops]
    dsimp only
    rw [hops]
    simp [putOps]

/-- What a verb does with the row: nothing, or from the old row to a new one. -/
inductive RowArm (t : DynamicCollection) (accOf : AccOf) (pkey : Bytes) (old : Option ValueMap) :
    Option (Option ValueMap) → PlannedWrite → Prop where
  | idle (width : pkey.length = t.schema.keyLen) : RowArm t accOf pkey old none {}
  | planned {new : Option ValueMap} {p : RowParts} (parts : RowPlanned t accOf pkey old new p) :
      RowArm t accOf pkey old (some new) { ops := p.ops t pkey, newAccs := p.accs }

theorem RowArm.width {pkey : Bytes} {old : Option ValueMap} {change : Option (Option ValueMap)}
    {plan : PlannedWrite} (h : RowArm t accOf pkey old change plan) :
    pkey.length = t.schema.keyLen := by
  cases h with
  | idle width => exact width
  | planned parts => exact parts.width

/-- The decoded key; a key of another width has none. -/
def keyOf (t : DynamicCollection) (pkey : Bytes) : ValueMap :=
  match decodeKey t.schema.toCollectionSchema pkey with
  | .answer key => key
  | _ => SortedMap.empty

/-- The complete row of the carried maps. -/
def rowMap (t : DynamicCollection) (pkey : Bytes) (carried : List ValueMap) : ValueMap :=
  fillSchemaDefaults t.schema.toCollectionSchema
    ((carried.foldl SortedMap.extend SortedMap.empty).extend (t.keyOf pkey))

theorem rowBase_answer {pkey : Bytes} {carried : List ValueMap} {row : ValueMap}
    (h : t.rowBase pkey carried = answer row) : row = t.rowMap pkey carried := by
  unfold rowBase at h
  obtain ⟨key, hkey, h⟩ := Guarded.bind_eq_answer.mp h
  obtain rfl := Guarded.answer.inj h
  unfold rowMap keyOf
  rw [Guarded.mapRefuse_eq_answer.mp hkey]

/-- What `merge` does with the row. -/
def mergeChange (t : DynamicCollection) (pkey : Bytes) (old : Option ValueMap) (declared : ValueMap) :
    Option (Option ValueMap) :=
  if declared.entries = [] then none else some (some (t.rowMap pkey (old.toList ++ [declared])))

/-- What `replace` does with the row. -/
def replaceChange (t : DynamicCollection) (pkey : Bytes) (old : Option ValueMap)
    (declared : ValueMap) : Option (Option ValueMap) :=
  if declared.entries = [] then old.map fun _ => none else some (some (t.rowMap pkey [declared]))

theorem mergeRow_answer {pkey : Bytes} {declared : ValueMap} {stored : Stored}
    {plan : PlannedWrite} (h : t.mergeRow pkey declared stored accOf = answer plan) :
    RowArm t accOf pkey stored.row (t.mergeChange pkey stored.row declared) plan := by
  unfold mergeRow at h
  obtain ⟨_, hkey, h⟩ := Guarded.bind_eq_answer.mp h
  unfold mergeChange
  split at h
  · rename_i hnone
    obtain rfl := Guarded.answer.inj h
    rw [if_pos hnone]
    exact .idle (checkKey_ok (Guarded.lift_eq_answer.mp hkey))
  · rename_i hsome
    obtain ⟨row, hrow, h⟩ := Guarded.bind_eq_answer.mp h
    obtain rfl := rowBase_answer hrow
    obtain ⟨p, hp, rfl⟩ := planPut_answer h
    rw [if_neg hsome]
    exact .planned hp

theorem replaceRow_answer {pkey : Bytes} {declared : ValueMap} {stored : Stored}
    {plan : PlannedWrite} (h : t.replaceRow pkey declared stored accOf = answer plan) :
    RowArm t accOf pkey stored.row (t.replaceChange pkey stored.row declared) plan := by
  unfold replaceRow at h
  obtain ⟨_, hkey, h⟩ := Guarded.bind_eq_answer.mp h
  unfold replaceChange
  split at h
  · rename_i hnone
    rw [if_pos hnone]
    cases hrow : stored.row with
    | none =>
      rw [hrow] at h
      obtain rfl := Guarded.answer.inj h
      exact .idle (checkKey_ok (Guarded.lift_eq_answer.mp hkey))
    | some old =>
      rw [hrow] at h
      obtain ⟨p, hp, rfl⟩ := planDelete_answer h
      exact .planned hp
  · rename_i hsome
    obtain ⟨row, hrow, h⟩ := Guarded.bind_eq_answer.mp h
    obtain rfl := rowBase_answer hrow
    obtain ⟨p, hp, rfl⟩ := planPut_answer h
    rw [if_neg hsome]
    exact .planned hp

/-! ## The segment's arm -/

/-- What a verb does with the segment: nothing, write it anew over labels grown by `more`, or
take it out. -/
inductive SegmentArm (t : DynamicCollection) (labels : List String) (pkey : Bytes)
    (old : Option ValueMap) : Option ValueMap → List String → List (Op Bytes Bytes) → Prop where
  | idle : SegmentArm t labels pkey old none [] []
  | rewritten {new : ValueMap} {more : List String} {body : Bytes}
      (framed : Framed (labels ++ more) new body) (nodup : (labels ++ more).Nodup)
      (fits : (labels ++ more).length < 2 ^ 16) :
      SegmentArm t labels pkey old (some new) more
        (growthOps t.ns labels more ++ [(fieldsKey t.ns pkey, if body = [] then none else some body)]
          ++ old.elim [] (fun old => t.pathEntryOps pkey old false) ++ t.pathEntryOps pkey new true)
  | removed : SegmentArm t labels pkey old (some SortedMap.empty) []
      (old.elim [] (fun old => t.pathEntryOps pkey old false) ++ [(fieldsKey t.ns pkey, none)])

/-- No fields need no mirror. -/
theorem planPutFields_empty {ns pkey : Bytes} {fields : ValueMap} (h : fields.entries = [])
    {d : VocabMirror} (hd : d.written = []) :
    planPutFields ns pkey fields d = (.ok ⟨[(fieldsKey ns pkey, none)], []⟩, d) := by
  have hframes : putFramesNamed (resolveGrowing ns) (dynFields fields) ⟨d, []⟩
      = (.ok [], ⟨d, []⟩) := by
    unfold dynFields
    rw [h]
    rfl
  unfold planPutFields
  rw [hframes]
  obtain ⟨byName, byId, nextId, written⟩ := d
  obtain rfl : written = [] := hd
  rfl

/-- A mirror that will do for the fields: one of the labels, or any where there are none. -/
def Suited (labels : List String) (new : ValueMap) (vocab : VocabMirror) : Prop :=
  Reflects vocab labels [] ∨ new.entries = [] ∧ vocab = {}

theorem SegmentArm.labels_ok {labels more : List String} {pkey : Bytes}
    {old change : Option ValueMap} {ops : List (Op Bytes Bytes)}
    (h : SegmentArm t labels pkey old change more ops) (hnodup : labels.Nodup)
    (hfits : labels.length < 2 ^ 16) :
    (labels ++ more).Nodup ∧ (labels ++ more).length < 2 ^ 16 := by
  cases h with
  | idle | removed => rw [List.append_nil]; exact ⟨hnodup, hfits⟩
  | rewritten framed nodup fits => exact ⟨nodup, fits⟩

theorem planDynamic_answer {pkey : Bytes} {old : Option ValueMap} {new : ValueMap}
    {vocab : VocabMirror} {labels : List String} {plan plan' : PlannedWrite}
    (hnodup : labels.Nodup) (hfits : labels.length < 2 ^ 16) (hsuited : Suited labels new vocab)
    (h : (t.planDynamic pkey old new vocab plan).1 = answer plan') :
    ∃ more ops, SegmentArm t labels pkey old (some new) more ops ∧ plan'.ops = plan.ops ++ ops ∧
      plan'.newAccs = plan.newAccs := by
  unfold planDynamic at h
  rcases hsuited with href | ⟨hempty, rfl⟩
  · cases hfields : planPutFields t.ns pkey new vocab with
    | mk verdict vocab' =>
      rw [hfields] at h
      cases verdict with
      | error e => cases h
      | ok fields =>
        obtain rfl := Guarded.answer.inj h
        obtain ⟨more, body, href', hframed, -, hops⟩ := planPutFields_synced href hfields
        refine ⟨more, _, .rewritten hframed (by simpa using href'.nodup)
          (by simpa using href'.fits), ?_, rfl⟩
        dsimp only
        rw [hops]
        simp only [List.append_assoc]
  · rw [planPutFields_empty hempty rfl] at h
    obtain rfl := Guarded.answer.inj h
    have hframed : Framed (labels ++ []) new [] := by
      intro u _
      unfold dynFields
      rw [hempty]
      rfl
    refine ⟨[], _, .rewritten hframed (by simpa using hnodup) (by simpa using hfits), ?_, rfl⟩
    simp [growthOps]

/-! ## The verbs -/

/-- A document: its two halves, each there or not. -/
structure Doc where
  row : Option ValueMap := none
  segment : Option ValueMap := none

/-- What the store answers of a document, and the labels it denotes. -/
structure Sees (t : DynamicCollection) (store : Keyspace) (labels : List String) (pkey : Bytes)
    (doc : Doc) : Prop where
  row : pkey.length = t.schema.keyLen → t.storedDocument store pkey = answer doc.row
  segment : t.dynamicMap store pkey = answer doc.segment
  mirror : ∃ d, VocabMirror.load store t.ns = .ok d ∧ Reflects d labels []

/-- The plan of a verb is an arm for the row and one for the segment. -/
def Arms (t : DynamicCollection) (accOf : AccOf) (labels : List String) (pkey : Bytes) (doc : Doc)
    (row : Option (Option ValueMap)) (segment : Option ValueMap) (more : List String)
    (plan : PlannedWrite) : Prop :=
  ∃ rowPlan ops, RowArm t accOf pkey doc.row row rowPlan ∧
    SegmentArm t labels pkey doc.segment segment more ops ∧
    plan.ops = rowPlan.ops ++ ops ∧ plan.newAccs = rowPlan.newAccs

/-- What `merge` does with the segment. -/
def mergeSegment (old : Option ValueMap) (dynamic : ValueMap) : Option ValueMap :=
  if dynamic.entries = [] then none else some ((old.getD SortedMap.empty).extend dynamic)

section

variable {store : Keyspace} {labels : List String} {pkey : Bytes} {doc : Doc}

theorem Sees.labels_ok (h : Sees t store labels pkey doc) :
    labels.Nodup ∧ labels.length < 2 ^ 16 := by
  obtain ⟨d, -, href⟩ := h.mirror
  exact ⟨by simpa using href.nodup, by simpa using href.fits⟩

theorem loadMirror_answer (h : Sees t store labels pkey doc) {needed : Bool} {vocab : VocabMirror}
    (hload : t.loadMirror store needed = answer vocab) :
    (needed = true → Reflects vocab labels []) ∧ (needed = false → vocab = {}) := by
  obtain ⟨d, hd, href⟩ := h.mirror
  unfold loadMirror at hload
  cases needed with
  | false => exact ⟨(fun h => nomatch h), fun _ => (Guarded.answer.inj hload).symm⟩
  | true =>
    rw [if_pos rfl, hd] at hload
    obtain rfl := Guarded.answer.inj hload
    exact ⟨fun _ => href, fun h => nomatch h⟩

theorem withDynamic_answer {row : Plan PlannedWrite} {vocab : VocabMirror}
    {arm : PlannedWrite → Plan PlannedWrite × VocabMirror} {plan : PlannedWrite}
    (h : (withDynamic row vocab arm).1 = answer plan) :
    ∃ rowPlan, row = answer rowPlan ∧ (arm rowPlan).1 = answer plan := by
  cases row with
  | answer rowPlan => exact ⟨rowPlan, rfl, h⟩
  | refuse e => cases h
  | abort f => cases h

/-- **What `merge` plans.** -/
theorem mergePlan_answer {object : ValueMap} {plan : PlannedWrite}
    (sees : Sees t store labels pkey doc) (h : t.mergePlan store pkey object = answer plan) :
    ∃ more, Arms t (accsOf store) labels pkey doc
      (t.mergeChange pkey doc.row (t.splitNames object).1)
      (mergeSegment doc.segment (t.splitNames object).2) more plan := by
  unfold mergePlan at h
  obtain ⟨oldRow, hrow, h⟩ := Guarded.bind_eq_answer.mp h
  obtain ⟨oldDynamic, hdynamic, h⟩ := Guarded.bind_eq_answer.mp h
  obtain ⟨vocab, hvocab, h⟩ := Guarded.bind_eq_answer.mp h
  obtain ⟨rowPlan, hrowPlan, h⟩ := withDynamic_answer h
  dsimp only at hrow hdynamic hvocab h
  have harm := mergeRow_answer hrowPlan
  have hwidth : pkey.length = t.schema.keyLen := by
    unfold mergeRow at hrowPlan
    obtain ⟨_, hkey, -⟩ := Guarded.bind_eq_answer.mp hrowPlan
    exact checkKey_ok (Guarded.lift_eq_answer.mp hkey)
  -- with no declared name the stored row is not looked at, and is not needed
  have harm' : RowArm t (accsOf store) pkey doc.row
      (t.mergeChange pkey doc.row (t.splitNames object).1) rowPlan := by
    by_cases hdeclared : (t.splitNames object).1.entries = []
    · unfold mergeRow at hrowPlan
      rw [if_pos hdeclared] at hrowPlan
      obtain ⟨_, hkey, hrowPlan⟩ := Guarded.bind_eq_answer.mp hrowPlan
      obtain rfl := Guarded.answer.inj hrowPlan
      unfold mergeChange
      rw [if_pos hdeclared]
      exact .idle hwidth
    · rw [if_neg hdeclared, sees.row hwidth] at hrow
      obtain rfl := Guarded.answer.inj hrow
      exact harm
  unfold mergeSegment
  by_cases hempty : (t.splitNames object).2.entries = []
  · rw [if_pos hempty] at h ⊢
    obtain rfl := Guarded.answer.inj h
    exact ⟨[], rowPlan, [], harm', .idle, (List.append_nil _).symm, rfl⟩
  · rw [if_neg hempty] at h hdynamic ⊢
    rw [sees.segment] at hdynamic
    obtain rfl := Guarded.answer.inj hdynamic
    have href := (loadMirror_answer sees hvocab).1 (by simpa using hempty)
    obtain ⟨hnodup, hfits⟩ := sees.labels_ok
    obtain ⟨more, ops, hsegment, hops, haccs⟩ := planDynamic_answer hnodup hfits (Or.inl href) h
    exact ⟨more, rowPlan, ops, harm', hsegment, hops, haccs⟩

/-- Without a path method a segment has no path entries. -/
theorem SegmentArm.of_no_path (hpath : t.hasPathIndex = false) {old old' new : Option ValueMap}
    {more : List String} {ops : List (Op Bytes Bytes)}
    (h : SegmentArm t labels pkey old new more ops) : SegmentArm t labels pkey old' new more ops := by
  have hnone : ∀ (fields : ValueMap) (write : Bool), t.pathEntryOps pkey fields write = [] := by
    intro fields write
    unfold pathEntryOps
    rw [hpath]
    rfl
  have helim : ∀ o : Option ValueMap, o.elim [] (fun old => t.pathEntryOps pkey old false) = [] := by
    intro o
    cases o with
    | none => rfl
    | some fields => exact hnone fields false
  cases h with
  | idle => exact .idle
  | rewritten framed nodup fits =>
    have h := @SegmentArm.rewritten t labels pkey old' _ _ _ framed nodup fits
    rw [helim] at h ⊢
    exact h
  | removed =>
    have h := @SegmentArm.removed t labels pkey old'
    rw [helim] at h ⊢
    exact h

/-- **What `replace` plans.** -/
theorem replacePlan_answer {object : ValueMap} {plan : PlannedWrite}
    (sees : Sees t store labels pkey doc) (h : t.replacePlan store pkey object = answer plan) :
    ∃ more, Arms t (accsOf store) labels pkey doc
      (t.replaceChange pkey doc.row (t.splitNames object).1)
      (some (t.splitNames object).2) more plan := by
  unfold replacePlan at h
  obtain ⟨oldRow, hrow, h⟩ := Guarded.bind_eq_answer.mp h
  obtain ⟨oldDynamic, hdynamic, h⟩ := Guarded.bind_eq_answer.mp h
  dsimp only at h
  obtain ⟨vocab, hvocab, h⟩ := Guarded.bind_eq_answer.mp h
  obtain ⟨rowPlan, hrowPlan, h⟩ := withDynamic_answer h
  have harm := replaceRow_answer hrowPlan
  have hwidth : pkey.length = t.schema.keyLen := by
    unfold replaceRow at hrowPlan
    obtain ⟨_, hkey, -⟩ := Guarded.bind_eq_answer.mp hrowPlan
    exact checkKey_ok (Guarded.lift_eq_answer.mp hkey)
  rw [sees.row hwidth] at hrow
  obtain rfl := Guarded.answer.inj hrow
  obtain ⟨hnodup, hfits⟩ := sees.labels_ok
  have hsuited : Suited labels (t.splitNames object).2 vocab := by
    obtain ⟨hneeded, hspare⟩ := loadMirror_answer sees hvocab
    cases hb : (decide ((t.splitNames object).2.entries ≠ []) || oldDynamic.isSome) with
    | true => exact Or.inl (hneeded hb)
    | false =>
      rw [Bool.or_eq_false_iff] at hb
      exact Or.inr ⟨by simpa using hb.1, hspare (by rw [Bool.or_eq_false_iff]; exact hb)⟩
  obtain ⟨more, ops, hsegment, hops, haccs⟩ := planDynamic_answer hnodup hfits hsuited h
  refine ⟨more, rowPlan, ops, harm, ?_, hops, haccs⟩
  cases hpath : t.hasPathIndex with
  | true =>
    rw [hpath, if_pos rfl, sees.segment] at hdynamic
    obtain rfl := Guarded.answer.inj hdynamic
    exact hsegment
  | false => exact hsegment.of_no_path hpath

/-- What `purge` does with the row and with the segment. -/
def purgeRow (old : Option ValueMap) : Option (Option ValueMap) := old.map fun _ => none

def purgeSegment (old : Option ValueMap) : Option ValueMap := old.map fun _ => SortedMap.empty

theorem storedDocument_width {row : Option ValueMap} (h : t.storedDocument store pkey = answer row) :
    pkey.length = t.schema.keyLen := by
  unfold storedDocument at h
  obtain ⟨_, hkey, -⟩ := Guarded.bind_eq_answer.mp h
  exact checkKey_ok (Guarded.lift_eq_answer.mp hkey)

/-- Where `purge` finds nothing to remove there is no document. -/
theorem purgePlan_none (sees : Sees t store labels pkey doc)
    (h : t.purgePlan store pkey = answer none) : doc = {} := by
  unfold purgePlan at h
  obtain ⟨oldRow, hrow, h⟩ := Guarded.bind_eq_answer.mp h
  obtain ⟨oldDynamic, hdynamic, h⟩ := Guarded.bind_eq_answer.mp h
  have hsame := hrow.symm.trans (sees.row (storedDocument_width hrow))
  have hsegment := hdynamic.symm.trans sees.segment
  obtain rfl := Guarded.answer.inj hsame
  obtain rfl := Guarded.answer.inj hsegment
  obtain ⟨row, segment⟩ := doc
  dsimp only at h
  split at h
  · rename_i hnone
    rw [Option.isNone_iff_eq_none, Option.isNone_iff_eq_none] at hnone
    rw [hnone.1, hnone.2]
  · obtain ⟨plan, -, h⟩ := Guarded.bind_eq_answer.mp h
    cases h

/-- **What `purge` plans.** -/
theorem purgePlan_answer {plan : PlannedWrite} (sees : Sees t store labels pkey doc)
    (h : t.purgePlan store pkey = answer (some plan)) :
    Arms t (accsOf store) labels pkey doc (purgeRow doc.row) (purgeSegment doc.segment) [] plan := by
  unfold purgePlan at h
  obtain ⟨oldRow, hrow, h⟩ := Guarded.bind_eq_answer.mp h
  obtain ⟨oldDynamic, hdynamic, h⟩ := Guarded.bind_eq_answer.mp h
  split at h
  · cases h
  obtain ⟨plan', hplan, h⟩ := Guarded.bind_eq_answer.mp h
  obtain rfl := Option.some.inj (Guarded.answer.inj h)
  unfold planPurge at hplan
  obtain ⟨_, hkey, hplan⟩ := Guarded.bind_eq_answer.mp hplan
  have hwidth := checkKey_ok (Guarded.lift_eq_answer.mp hkey)
  rw [sees.row hwidth] at hrow
  obtain rfl := Guarded.answer.inj hrow
  rw [sees.segment] at hdynamic
  obtain rfl := Guarded.answer.inj hdynamic
  obtain ⟨rowPlan, hrowPlan, hplan⟩ := Guarded.bind_eq_answer.mp hplan
  obtain rfl := Guarded.answer.inj hplan
  have harm : RowArm t (accsOf store) pkey doc.row (purgeRow doc.row) rowPlan := by
    unfold purgeRow
    cases hdoc : doc.row with
    | none =>
      rw [hdoc] at hrowPlan
      obtain rfl := Guarded.answer.inj hrowPlan
      exact .idle hwidth
    | some old =>
      rw [hdoc] at hrowPlan
      obtain ⟨p, hp, rfl⟩ := planDelete_answer hrowPlan
      exact .planned hp
  refine ⟨rowPlan, _, harm, ?_, rfl, rfl⟩
  unfold purgeSegment
  cases hdoc : doc.segment with
  | none => exact .idle
  | some old => exact .removed

end

/-! ## Which faces an arm writes -/

/-- A key under an access method. -/
def IndexFace (t : DynamicCollection) (k : Bytes) : Prop :=
  ∃ index ∈ t.indexes, ∃ suffix, k = accessFace t.ns index ++ suffix

/-- A key under a reduce. -/
def ReduceFace (t : DynamicCollection) (k : Bytes) : Prop :=
  ∃ r ∈ t.reduces, ∃ g, k = faceKey t.ns r.slot g

theorem IndexFace.counting {k : Bytes} (h : t.IndexFace k) : Counting t.ns k := by
  obtain ⟨index, hindex, suffix, rfl⟩ := h
  exact ⟨index.face, suffix, t.indexSlots index hindex,
    accessFace_eq _ _ _⟩

theorem ReduceFace.counting {k : Bytes} (h : t.ReduceFace k) : Counting t.ns k := by
  obtain ⟨r, hr, g, rfl⟩ := h
  exact ⟨r.slot, g, t.reduceSlots r hr, rfl⟩

/-- No key is under both. -/
theorem IndexFace.not_reduce {k : Bytes} (h : t.IndexFace k) : ¬ t.ReduceFace k := by
  rintro ⟨r, hr, g, hkey⟩
  obtain ⟨index, hindex, suffix, rfl⟩ := h
  rw [accessFace_eq] at hkey
  have hslot := ((faceKey_inj _ _ _ _ _).mp hkey).1
  have hmem := (List.nodup_append.mp t.apart).2.2 index.slot.toNat (List.mem_map_of_mem hindex)
    r.slot.val (List.mem_map_of_mem hr)
  exact hmem (congrArg Slot.val hslot)

theorem entriesOf_faces {pkey : Bytes} {document : ValueMap} {entries : List (Bytes × Bytes)}
    (h : t.entriesOf pkey document = .ok entries) : ∀ e ∈ entries, t.IndexFace e.1 := by
  intro e he
  obtain ⟨index, hindex, found, hfound, hmem⟩ := (mem_indexEntries (mapError_eq_ok.mp h)).mp he
  obtain ⟨segment, hkey⟩ := methodEntries_key hfound hmem
  exact ⟨index, hindex, _, hkey⟩

theorem planReduces_faces {pkey : Bytes} {document : ValueMap} {add : Bool} {st st' : Reducing}
    (h : t.planReduces accOf pkey document add st = answer st')
    (hst : ∀ a ∈ st.newAccs, t.ReduceFace a.1) : ∀ a ∈ st'.newAccs, t.ReduceFace a.1 := by
  unfold planReduces at h
  obtain ⟨key, -, h⟩ := Guarded.bind_eq_answer.mp h
  obtain ⟨accs, -, haccs, hgroups⟩ := reduceLoop_answer (fun r hr => hr) h
  rw [haccs]
  intro a ha
  rcases List.mem_append.mp ha with ha | ha
  · exact hst a ha
  · obtain ⟨r, hr, g, -, hkey⟩ := hgroups a ha
    exact ⟨r, hr, g, hkey⟩

/-- The parts of a row's plan, each on its own faces. -/
theorem RowPlanned.faces {pkey : Bytes} {old new : Option ValueMap} {p : RowParts}
    (h : RowPlanned t accOf pkey old new p) :
    (∀ k ∈ p.dropped, t.IndexFace k) ∧ (∀ a ∈ p.accs, t.ReduceFace a.1) ∧
      ∀ e ∈ p.entries, t.IndexFace e.1 := by
  refine ⟨fun k hk => ?_, ?_, fun e he => ?_⟩
  · obtain ⟨entries, hentries, hdropped⟩ := h.dropped
    rw [hdropped] at hk
    obtain ⟨e, he, rfl⟩ := List.mem_map.mp hk
    cases old with
    | none =>
      obtain rfl := Except.ok.inj hentries
      cases he
    | some document => exact entriesOf_faces hentries e he
  · obtain ⟨swept, folded, hswept, hfolded, haccs, -⟩ := h.accs
    rw [haccs]
    have hfirst : ∀ a ∈ swept.newAccs, t.ReduceFace a.1 := by
      cases old with
      | none =>
        obtain rfl := Guarded.answer.inj hswept
        simp
      | some document => exact planReduces_faces hswept (by simp)
    cases new with
    | none =>
      obtain rfl := Guarded.answer.inj hfolded
      exact hfirst
    | some document => exact planReduces_faces hfolded hfirst
  · cases hnew : new with
    | none =>
      have hentries := h.entries
      rw [hnew] at hentries
      obtain hnil := Except.ok.inj hentries
      rw [← hnil] at he
      cases he
    | some document =>
      have hentries := h.entries
      rw [hnew] at hentries
      exact entriesOf_faces hentries e he

theorem pathEntryOps_faces {pkey : Bytes} {fields : ValueMap} {write : Bool} :
    ∀ op ∈ t.pathEntryOps pkey fields write, t.IndexFace op.1 := by
  intro op hop
  unfold pathEntryOps at hop
  split at hop
  · obtain ⟨e, he, rfl⟩ := List.mem_map.mp hop
    obtain ⟨index, hindex, he⟩ := List.mem_flatMap.mp he
    obtain ⟨segment, -, rfl⟩ := List.mem_map.mp he
    exact ⟨index, hindex, _, rfl⟩
  · cases hop

theorem pathSweep_faces {pkey : Bytes} {old : Option ValueMap} :
    ∀ op ∈ old.elim [] (fun old => t.pathEntryOps pkey old false), t.IndexFace op.1 := by
  cases old with
  | none => simp
  | some old => exact pathEntryOps_faces

theorem pending_of_index {ops : List (Op Bytes Bytes)} (h : ∀ op ∈ ops, t.IndexFace op.1)
    {s : Slot} (hs : s.val ≤ 0x0F) (suffix : Bytes) : pending ops (faceKey t.ns s suffix) = none :=
  pending_eq_none fun op hop => (h op hop).counting.ne_fixed hs suffix

/-- What an arm leaves at a fixed face: its own operation there. -/
theorem RowParts.pending_fixed {pkey : Bytes} {old new : Option ValueMap} {p : RowParts}
    (h : RowPlanned t accOf pkey old new p) {s : Slot} (hs : s.val ≤ 0x0F) (suffix : Bytes) :
    pending (p.ops t pkey) (faceKey t.ns s suffix)
      = if t.primaryKey pkey = faceKey t.ns s suffix then some p.row else none := by
  obtain ⟨hdropped, haccs, hentries⟩ := h.faces
  have hback : pending (putOps p.entries) (faceKey t.ns s suffix) = none := by
    refine pending_of_index (fun op hop => ?_) hs suffix
    obtain ⟨e, he, rfl⟩ := List.mem_map.mp hop
    exact hentries e he
  have hfront : pending (delOps p.dropped ++ putOps p.accs) (faceKey t.ns s suffix) = none := by
    refine pending_eq_none fun op hop => ?_
    rcases List.mem_append.mp hop with hop | hop
    · obtain ⟨k, hk, rfl⟩ := List.mem_map.mp hop
      exact (hdropped k hk).counting.ne_fixed hs suffix
    · obtain ⟨a, ha, rfl⟩ := List.mem_map.mp hop
      exact (haccs a ha).counting.ne_fixed hs suffix
  rw [RowParts.ops, pending_append, hback, Option.none_or, pending_concat, hfront]

theorem RowArm.pending_off {pkey : Bytes} {old : Option ValueMap}
    {change : Option (Option ValueMap)} {plan : PlannedWrite}
    (h : RowArm t accOf pkey old change plan) {s : Slot} (hs : s.val ≤ 0x0F)
    (hne : primarySlot ≠ s) (suffix : Bytes) : pending plan.ops (faceKey t.ns s suffix) = none := by
  cases h with
  | idle => rfl
  | planned parts =>
    rw [RowParts.pending_fixed parts hs, if_neg (primaryKey_ne_face hne _ _)]

/-- The bytes a row change stores. -/
def RowImage (t : DynamicCollection) : Option (Option ValueMap) → Option (Option Bytes) → Prop
  | none, image => image = none
  | some none, image => image = some none
  | some (some document), image =>
    ∃ payload, encodePayload t.schema document = answer payload ∧ image = some (some payload)

theorem RowArm.pending_primary {pkey : Bytes} {old : Option ValueMap}
    {change : Option (Option ValueMap)} {plan : PlannedWrite}
    (h : RowArm t accOf pkey old change plan) :
    ∃ image, RowImage t change image ∧
      ∀ p, pending plan.ops (t.primaryKey p) = if p = pkey then image else none := by
  cases h with
  | idle => exact ⟨none, rfl, fun p => by simp⟩
  | @planned new parts hparts =>
    refine ⟨some parts.row, ?_, fun p => ?_⟩
    · have hrow := hparts.row
      cases new with
      | none => exact congrArg some hrow
      | some document =>
        obtain ⟨payload, hpayload, hrow⟩ := hrow
        exact ⟨payload, hpayload, by rw [hrow]⟩
    · have hpending := RowParts.pending_fixed hparts (show primarySlot.val ≤ 0x0F by decide) p
      refine hpending.trans ?_
      by_cases hp : p = pkey
      · rw [if_pos hp, if_pos (by rw [hp]; rfl)]
      · have hne : t.primaryKey pkey ≠ faceKey t.ns primarySlot p := primaryKey_ne (Ne.symm hp)
        rw [if_neg hp, if_neg hne]

/-- The entry a segment change stores, over the grown labels. -/
def SegmentImage (labels : List String) : Option ValueMap → Option (Option Bytes) → Prop
  | none, image => image = none
  | some new, image => ∃ body, Framed labels new body ∧
      image = some (if body = [] then none else some body)

/-- **What a segment's arm leaves at the fixed faces**: the growth of the vocabulary, and its
own entry. -/
theorem SegmentArm.pending_fixed {labels more : List String} {pkey : Bytes}
    {old change : Option ValueMap} {ops : List (Op Bytes Bytes)}
    (h : SegmentArm t labels pkey old change more ops) :
    ∃ image, SegmentImage (labels ++ more) change image ∧
      ∀ s : Slot, s.val ≤ 0x0F → ∀ suffix, pending ops (faceKey t.ns s suffix)
        = if fieldsKey t.ns pkey = faceKey t.ns s suffix then image
          else pending (growthOps t.ns labels more) (faceKey t.ns s suffix) := by
  cases h with
  | idle => exact ⟨none, rfl, fun s _ suffix => by simp [growthOps]⟩
  | @rewritten new _ body framed nodup fits =>
    refine ⟨_, ⟨body, framed, rfl⟩, fun s hs suffix => ?_⟩
    rw [pending_append, pending_of_index pathEntryOps_faces hs, Option.none_or, pending_append,
      pending_of_index pathSweep_faces hs, Option.none_or, pending_concat]
  | removed =>
    refine ⟨some none, ⟨[], framed_empty _, rfl⟩, fun s hs suffix => ?_⟩
    rw [pending_concat, pending_of_index pathSweep_faces hs]
    rfl


end DynamicCollection

end Okm.Dynamic
