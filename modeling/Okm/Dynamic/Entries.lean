import Okm.Dynamic.AccessScan
import Okm.Dynamic.Documents
import Okm.Lib.Derived

/-!
# The entries of a runtime table are those of its documents

A write sweeps the entries the stored document has and puts those of the new one; nobody looks
at the entries themselves. The stored document is not the one that was put: it has the payload
fields only, as they are stored, and its segment as a segment keeps it. So a sweep finds the
entries of the put before it where the two agree on what an access method reads: its fields
have kinds that come back exactly, a path looks at unsigned numbers by their number, and a
callable is to look at payload fields as they are stored (`Faithful`).

Then in every store a run reaches the entries are those of the documents, and a scan finds the
documents it should (`index_scans_exact`).
-/

namespace Okm.Dynamic

open Lib Model VirtualStorage

/-! ## A path over what a segment keeps -/

theorem encodeIndexValue_kept (ty : PathType) (v : Value) :
    encodeIndexValue ty (kept v) = encodeIndexValue ty v := by
  have hnum : unsignedOf (kept v) = unsignedOf v := by
    cases v with
    | obj fields => rw [kept_obj]; rfl
    | array items => rw [kept_array]; rfl
    | u8 x | u16 x | u32 x => simp [kept, valueToDynValue, reread, dynValueToValue, unsignedOf]
    | _ => rfl
  cases ty with
  | u8 | u16 | u32 | u64 => simp only [encodeIndexValue, hnum]
  | _ =>
    cases v with
    | obj fields => rw [kept_obj]; rfl
    | array items => rw [kept_array]; rfl
    | _ => rfl

mutual

theorem flattenScalars_kept : ∀ v : Value, flattenScalars (kept v) = (flattenScalars v).map kept
  | .array items => by
    rw [kept_array, flattenScalars, flattenScalars, flattenItems_kept items]
  | .obj fields => by
    rw [kept_obj, flattenScalars, flattenScalars]
    rfl
  | .u8 _ | .u16 _ | .u32 _ | .u64 _ | .i64 _ | .f64 _ | .bool _ | .null | .bytes _ | .str _ => rfl

theorem flattenItems_kept : ∀ items : List Value,
    flattenItems (items.map kept) = (flattenItems items).map kept
  | [] => rfl
  | v :: rest => by
    rw [List.map_cons, flattenItems, flattenItems, flattenScalars_kept v, flattenItems_kept rest,
      List.map_append]

end

mutual

/-- **A path finds in what is kept what it found before, kept.** -/
theorem walkValue_kept : ∀ (v : Value) (comps : List Model.Component),
    walkValue (kept v) comps = (walkValue v comps).map kept
  | .obj fields, comps => by
    rw [kept_obj]
    cases comps with
    | nil => simp only [walkValue, List.map_nil]
    | cons head rest =>
      simp only [walkValue]
      cases componentName head with
      | none => rfl
      | some name => exact walkFields_kept fields name rest
  | .array items, comps => by
    rw [kept_array]
    cases comps with
    | nil =>
      simp only [walkValue]
      exact flattenItems_kept items
    | cons head rest =>
      cases head with
      | index i =>
        simp only [walkValue]
        exact walkPinned_kept items i.toNat rest
      | field name | key bytes =>
        simp only [walkValue]
        exact walkItems_kept items _
  | .u8 _, comps | .u16 _, comps | .u32 _, comps | .u64 _, comps | .i64 _, comps | .f64 _, comps
  | .bool _, comps | .null, comps | .bytes _, comps | .str _, comps => by
    cases comps <;> rfl

theorem walkFields_kept : ∀ (fields : List (String × Value)) (name : String)
    (comps : List Model.Component), walkFields (fields.map fun e => (e.1, kept e.2)) name comps
      = (walkFields fields name comps).map kept
  | [], _, _ => rfl
  | (n, v) :: rest, name, comps => by
    rw [List.map_cons, walkFields, walkFields]
    by_cases hn : n = name
    · rw [if_pos hn, if_pos hn, walkValue_kept v comps]
    · rw [if_neg hn, if_neg hn, walkFields_kept rest name comps]

theorem walkPinned_kept : ∀ (items : List Value) (i : Nat) (comps : List Model.Component),
    walkPinned (items.map kept) i comps = (walkPinned items i comps).map kept
  | [], _, _ => by
    rw [List.map_nil, walkPinned]
    rfl
  | v :: _, 0, comps => by
    rw [List.map_cons, walkPinned, walkPinned, walkValue_kept v comps]
  | _ :: rest, i + 1, comps => by
    rw [List.map_cons, walkPinned, walkPinned, walkPinned_kept rest i comps]

theorem walkItems_kept : ∀ (items : List Value) (comps : List Model.Component),
    walkItems (items.map kept) comps = (walkItems items comps).map kept
  | [], _ => rfl
  | v :: rest, comps => by
    rw [List.map_cons, walkItems, walkItems, walkValue_kept v comps, walkItems_kept rest comps,
      List.map_append]

end

/-- **A segment that is kept has the path segments it was written with.** -/
theorem pathSegments_kept (index : Access) (fields : ValueMap) :
    pathSegments index (keptMap fields) = pathSegments index fields := by
  unfold pathSegments
  cases index.kind with
  | path path ty =>
    have hwalk : resolvePath path (keptMap fields) = (resolvePath path fields).map kept := by
      unfold resolvePath
      have hobj : Value.obj (keptMap fields).entries = kept (.obj fields.entries) := by
        rw [kept_obj]
        rfl
      rw [hobj, walkValue_kept]
    dsimp only
    rw [hwalk, List.filterMap_map]
    congr 1
    funext v
    exact encodeIndexValue_kept ty v
  | _ => rfl

theorem pathSegments_empty (index : Access) : pathSegments index SortedMap.empty = [] := by
  unfold pathSegments
  cases index.kind with
  | path path ty =>
    have hwalk : resolvePath path SortedMap.empty = [] := by
      unfold resolvePath
      cases path with
      | nil => simp [walkValue]
      | cons head rest =>
        simp only [walkValue]
        cases componentName head with
        | none => rfl
        | some name => simp [SortedMap.empty, walkFields]
    dsimp only
    rw [hwalk]
    rfl
  | _ => rfl

/-! ## A method over the stored row -/

theorem payloadField_of_found {schema : CollectionSchema} {name : String} {f : FieldSchema}
    (h : findField schema name = some f) (hkey : isKeyField schema name = false) :
    payloadField schema name = some f := by
  have hfields : schema.fields = schema.keyFields ++ (schema.hotFields ++ schema.coldFields) :=
    List.append_assoc _ _ _
  have hnone : schema.keyFields.find? (fun f => f.name = name) = none := by
    refine List.find?_eq_none.mpr fun g hg hname => ?_
    have hany : isKeyField schema name = true := List.any_eq_true.mpr ⟨g, hg, hname⟩
    rw [hkey] at hany
    cases hany
  unfold findField at h
  rw [hfields, List.find?_append, hnone, Option.none_or] at h
  exact h

theorem settled_of_encodeFixed {ty : FieldType} {v : Value} {b : Bytes}
    (h : encodeFixed ty v = .ok b) : settled ty v = v := by
  refine settled_of_exact ?_ v
  cases ty <;> first | rfl | cases h

theorem settled_of_encodeVariable {ty : FieldType} {v : Value} {b : Bytes}
    (h : encodeVariable ty v = .ok b) : settled ty v = v := by
  refine settled_of_exact ?_ v
  cases ty <;> first | rfl | cases h

namespace DynamicCollection

variable {t : DynamicCollection}

/-- A value of an exact kind is in the stored row as it was put. -/
theorem get_settledRow_exact (ready : Readable t.table) {document : ValueMap} {name : String}
    {f : FieldSchema} {v : Value}
    (hfield : payloadField t.schema.toCollectionSchema name = some f)
    (hget : document.get name = some v) (hexact : settled f.ty v = v) :
    (t.settledRow document).get name = some v := by
  rw [get_settledRow ready, hfield, Option.bind_some, hget, Option.map_some, hexact]

/-- **Two documents an access method cannot tell apart**: the other one has the values of exact
kinds that the one has, and the callables say the same of both. -/
structure Alike (t : DynamicCollection) (document other : ValueMap) : Prop where
  carries : ∀ name f v, payloadField t.schema.toCollectionSchema name = some f →
    document.get name = some v → settled f.ty v = v → other.get name = some v
  derives : ∀ index ∈ t.indexes, ∀ derive, index.kind = .func derive →
    derive other = derive document
  admits : ∀ index ∈ t.indexes, ∀ admits, index.kind = .partialIf admits →
    admits other = admits document

/-- **A segment field has the same bytes in the other document.** -/
theorem Alike.segmentFields_ok {document other : ValueMap} (alike : Alike t document other)
    {role : Role} {names : List String} {b : Bytes}
    (h : segmentFields role t.schema.toCollectionSchema document names = .ok b) :
    segmentFields role t.schema.toCollectionSchema other names = .ok b := by
  induction names generalizing b with
  | nil => exact h
  | cons name names ih =>
    rw [segmentFields] at h
    obtain ⟨bytes, hbytes, h⟩ := bind_eq_ok.mp h
    cases hrest : segmentFields role t.schema.toCollectionSchema document names with
    | error e =>
      rw [hrest] at h
      cases h
    | ok rest =>
      rw [hrest] at h
      have hfield : segmentField role t.schema.toCollectionSchema other name
          = .ok bytes := by
        unfold segmentField at hbytes ⊢
        split at hbytes
        · cases hbytes
        · rename_i hkey
          rw [if_neg hkey]
          split at hbytes
          · cases hbytes
          · rename_i v hv
            split at hbytes
            · cases hbytes
            · rename_i f hf
              have hpayload := payloadField_of_found hf (by simpa using hkey)
              have hexact : settled f.ty v = v := by
                split at hbytes
                · exact settled_of_encodeVariable hbytes
                · exact settled_of_encodeFixed hbytes
              rw [alike.carries name f v hpayload hv hexact]
              exact hbytes
      rw [segmentFields, hfield, ih hrest]
      exact h

/-- **The callables of a table look at payload fields, as they are stored.** -/
structure Faithful (t : DynamicCollection) : Prop where
  derives : ∀ index ∈ t.indexes, ∀ derive, index.kind = .func derive →
    ∀ document, derive (t.settledRow document) = derive document
  admits : ∀ index ∈ t.indexes, ∀ admits, index.kind = .partialIf admits →
    ∀ document, admits (t.settledRow document) = admits document

/-- **The other document has the entries of the one.** -/
theorem Alike.methodEntries_ok {document other : ValueMap} (alike : Alike t document other)
    {index : Access} (hindex : index ∈ t.indexes) {pkey : Bytes} {found : List (Bytes × Bytes)}
    (h : methodEntries t.schema.toCollectionSchema t.ns index pkey document = .ok found) :
    methodEntries t.schema.toCollectionSchema t.ns index pkey other = .ok found := by
  -- the callables see the same of both documents
  have hgate : gate index other = gate index document := by
    unfold gate
    cases hkind : index.kind with
    | partialIf admits =>
      dsimp only
      rw [alike.admits index hindex admits hkind]
    | _ => rfl
  unfold methodEntries at h ⊢
  obtain ⟨admitted, hadmitted, h⟩ := bind_eq_ok.mp h
  rw [hgate, hadmitted]
  cases admitted with
  | false => exact h
  | true =>
    obtain ⟨segs, hsegs, h⟩ := bind_eq_ok.mp h
    have hsegments : segments t.schema.toCollectionSchema index other
        = .ok segs := by
      unfold segments at hsegs ⊢
      -- declared fields encode alike
      have hfields : ∀ segs, (fieldsBytes t.schema.toCollectionSchema index document).map
            (fun segment => [segment]) = .ok segs →
          (fieldsBytes t.schema.toCollectionSchema index other).map
            (fun segment => [segment]) = .ok segs := by
        intro segs hsegs
        unfold fieldsBytes at hsegs ⊢
        cases horder : checkFieldOrder t.schema.toCollectionSchema index.fields with
        | error e =>
          rw [horder] at hsegs
          cases hsegs
        | ok u =>
          rw [horder] at hsegs
          cases hb : segmentFields .field t.schema.toCollectionSchema document index.fields with
          | error e =>
            simp only [bind, Except.bind, hb] at hsegs
            cases hsegs
          | ok b =>
            have hsettled := alike.segmentFields_ok hb
            simp only [bind, Except.bind, hb] at hsegs ⊢
            rw [hsettled]
            exact hsegs
      cases hkind : index.kind with
      | func derive =>
        rw [hkind] at hsegs
        dsimp only at hsegs ⊢
        rw [alike.derives index hindex derive hkind]
        exact hsegs
      | plain | partialIf admits | path path ty =>
        rw [hkind] at hsegs
        exact hfields segs hsegs
    cases hvalue : includesBytes t.schema.toCollectionSchema index document with
    | error e =>
      rw [hvalue] at h
      cases h
    | ok value =>
      rw [hvalue] at h
      -- and so do the included ones
      have hincludes : includesBytes t.schema.toCollectionSchema index other
          = .ok value := by
        unfold includesBytes at hvalue ⊢
        obtain ⟨u, horder, hvalue⟩ := bind_eq_ok.mp hvalue
        rw [horder]
        exact alike.segmentFields_ok hvalue
      change (segments _ index other >>= _) = _
      rw [hsegments]
      change Except.map _ (includesBytes _ index other) = _
      rw [hincludes]
      exact h

theorem Alike.entriesOf_ok {document other : ValueMap} (alike : Alike t document other) {pkey : Bytes}
    {entries : List (Bytes × Bytes)} (h : t.entriesOf pkey document = .ok entries) :
    t.entriesOf pkey other = .ok entries := by
  have hall : ∀ (indexes : List Access), (∀ index ∈ indexes, index ∈ t.indexes) → ∀ entries,
      indexEntries t.schema.toCollectionSchema t.ns indexes pkey document = .ok entries →
      indexEntries t.schema.toCollectionSchema t.ns indexes pkey other = .ok entries := by
    intro indexes hindexes
    induction indexes with
    | nil => exact fun entries h => h
    | cons index indexes ih =>
      intro entries h
      unfold indexEntries at h ⊢
      obtain ⟨first, hfirst, h⟩ := bind_eq_ok.mp h
      rw [alike.methodEntries_ok (hindexes index List.mem_cons_self) hfirst]
      cases hrest : indexEntries t.schema.toCollectionSchema t.ns indexes pkey document with
      | error e =>
        rw [hrest] at h
        cases h
      | ok rest =>
        rw [hrest] at h
        change Except.map _ (indexEntries _ t.ns indexes pkey other) = _
        rw [ih (fun i hi => hindexes i (List.mem_cons_of_mem _ hi)) rest hrest]
        exact h
  exact mapError_eq_ok.mpr (hall t.indexes (fun _ h => h) entries (mapError_eq_ok.mp h))

/-- A row as it is stored and as it was put are alike. -/
theorem alike_settled (ready : Readable t.table) (faithful : Faithful t) (document : ValueMap) :
    Alike t document (t.settledRow document) where
  carries _ _ _ hfield hget hexact := get_settledRow_exact ready hfield hget hexact
  derives index hindex derive hkind := faithful.derives index hindex derive hkind document
  admits index hindex admits hkind := faithful.admits index hindex admits hkind document

/-! ## The entries of a document -/

/-- The entries of a row. -/
def rowEntries (t : DynamicCollection) (pkey : Bytes) (row : Option ValueMap) :
    List (Bytes × Bytes) :=
  match row.elim (.ok []) (t.entriesOf pkey) with
  | .ok entries => entries
  | .error _ => []

/-- The entries of a segment. -/
def pathEntries (t : DynamicCollection) (pkey : Bytes) (segment : Option ValueMap) :
    List (Bytes × Bytes) := segment.elim [] (pathIndexEntries t.ns t.indexes pkey)

/-- A key under an access method that takes paths, or under one that does not. -/
def MethodFace (t : DynamicCollection) (path : Bool) (k : Bytes) : Prop :=
  ∃ index ∈ t.indexes, isPath index = path ∧ ∃ suffix, k = accessFace t.ns index ++ suffix

/-- The keys of a document's entries end in its key. -/
def OwnsEntry (t : DynamicCollection) (pkey k : Bytes) : Prop :=
  pkey.length = t.schema.keyLen ∧ ∃ front, k = front ++ pkey

theorem owned (t : DynamicCollection) : Owned t.OwnsEntry := by
  rintro a b k ⟨ha, front, rfl⟩ ⟨hb, front', heq⟩
  exact (List.append_inj' heq (ha.trans hb.symm)).2

/-- A slot is of one access method. -/
theorem eq_of_face {index index' : Access} (h : index ∈ t.indexes) (h' : index' ∈ t.indexes)
    {suffix suffix' : Bytes}
    (heq : accessFace t.ns index ++ suffix = accessFace t.ns index' ++ suffix') :
    index = index' ∧ suffix = suffix' := by
  rw [accessFace_eq, accessFace_eq] at heq
  obtain ⟨hslot, hsuffix⟩ := (faceKey_inj _ _ _ _ _).mp heq
  have hslots : index.slot.toNat = index'.slot.toNat := congrArg Slot.val hslot
  exact ⟨List.inj_on_of_nodup_map (List.nodup_append.mp t.apart).1 h h' hslots, hsuffix⟩

theorem MethodFace.index {path : Bool} {k : Bytes} (h : t.MethodFace path k) : t.IndexFace k := by
  obtain ⟨index, hindex, -, suffix, hkey⟩ := h
  exact ⟨index, hindex, suffix, hkey⟩

/-- A method takes paths or does not. -/
theorem MethodFace.apart {k : Bytes} (h : t.MethodFace true k) : ¬ t.MethodFace false k := by
  rintro ⟨index', hindex', hplain, suffix', hkey'⟩
  obtain ⟨index, hindex, hpath, suffix, rfl⟩ := h
  obtain ⟨rfl, -⟩ := eq_of_face hindex hindex' hkey'
  rw [hpath] at hplain
  cases hplain

/-- **An entry of a row**: a method that takes no paths makes it, of one of its segments. -/
theorem mem_entriesOf {pkey : Bytes} {document : ValueMap} {entries : List (Bytes × Bytes)}
    (h : t.entriesOf pkey document = .ok entries) {e : Bytes × Bytes} :
    e ∈ entries ↔ ∃ index ∈ t.indexes, isPath index = false ∧ ∃ segment,
      Makes t.schema.toCollectionSchema index document segment e.2 ∧
        e.1 = accessFace t.ns index ++ (segment ++ pkey) := by
  have hall := mapError_eq_ok.mp h
  rw [mem_indexEntries hall]
  constructor
  · rintro ⟨index, hindex, found, hfound, he⟩
    obtain ⟨segment, hmakes, hkey⟩ := (mem_methodEntries hfound).mp he
    refine ⟨index, hindex, ?_, segment, hmakes, hkey⟩
    have hgate := hmakes.1
    unfold gate at hgate
    unfold isPath
    cases hkind : index.kind with
    | path path ty =>
      rw [hkind] at hgate
      cases hgate
    | _ => rfl
  · rintro ⟨index, hindex, -, segment, hmakes, hkey⟩
    obtain ⟨found, hfound⟩ := methodEntries_of_all hall hindex
    exact ⟨index, hindex, found, hfound, (mem_methodEntries hfound).mpr ⟨segment, hmakes, hkey⟩⟩

theorem mem_rowEntries {pkey : Bytes} {row : Option ValueMap} {e : Bytes × Bytes}
    (h : e ∈ t.rowEntries pkey row) : ∃ document entries, row = some document ∧
      t.entriesOf pkey document = .ok entries ∧ e ∈ entries := by
  unfold rowEntries at h
  cases row with
  | none => cases h
  | some document =>
    rw [Option.elim_some] at h
    cases hentries : t.entriesOf pkey document with
    | error err =>
      rw [hentries] at h
      cases h
    | ok entries =>
      rw [hentries] at h
      exact ⟨document, entries, rfl, hentries, h⟩

theorem rowEntries_face {pkey : Bytes} {row : Option ValueMap} {e : Bytes × Bytes}
    (h : e ∈ t.rowEntries pkey row) :
    t.MethodFace false e.1 ∧ ∃ front, e.1 = front ++ pkey := by
  obtain ⟨document, entries, -, hentries, he⟩ := mem_rowEntries h
  obtain ⟨index, hindex, hplain, segment, -, hkey⟩ := (mem_entriesOf hentries).mp he
  exact ⟨⟨index, hindex, hplain, _, hkey⟩, accessFace t.ns index ++ segment, by
    rw [hkey, List.append_assoc]⟩

/-- **A row gives an entry's key one value**, the included fields of its method. -/
theorem rowEntries_oneValue (pkey : Bytes) (row : Option ValueMap) :
    OneValue (t.rowEntries pkey row) := by
  intro k v w hv hw
  obtain ⟨document, entries, rfl, hentries, hv⟩ := mem_rowEntries hv
  obtain ⟨document', entries', hsame, hentries', hw⟩ := mem_rowEntries hw
  obtain rfl := Option.some.inj hsame
  obtain rfl := Except.ok.inj (hentries.symm.trans hentries')
  obtain ⟨index, hindex, -, segment, hmakes, hkey⟩ := (mem_entriesOf hentries).mp hv
  obtain ⟨index', hindex', -, segment', hmakes', hkey'⟩ := (mem_entriesOf hentries).mp hw
  obtain ⟨rfl, -⟩ := eq_of_face hindex hindex' (hkey.symm.trans hkey')
  exact Except.ok.inj (hmakes.2.1.symm.trans hmakes'.2.1)

theorem mem_pathIndexEntries {pkey : Bytes} {fields : ValueMap} {e : Bytes × Bytes} :
    e ∈ pathIndexEntries t.ns t.indexes pkey fields ↔ ∃ index ∈ t.indexes, isPath index = true ∧
      ∃ segment ∈ pathSegments index fields,
        e = (accessFace t.ns index ++ (segment ++ pkey), []) := by
  unfold pathIndexEntries
  rw [List.mem_flatMap]
  refine exists_congr fun index => and_congr_right fun hindex => ?_
  rw [List.mem_map]
  constructor
  · rintro ⟨segment, hsegment, rfl⟩
    refine ⟨?_, segment, hsegment, rfl⟩
    unfold pathSegments at hsegment
    unfold isPath
    cases hkind : index.kind with
    | path path ty => rfl
    | _ =>
      rw [hkind] at hsegment
      cases hsegment
  · rintro ⟨-, segment, hsegment, rfl⟩
    exact ⟨segment, hsegment, rfl⟩

theorem pathIndexEntries_empty (pkey : Bytes) :
    pathIndexEntries t.ns t.indexes pkey SortedMap.empty = [] := by
  refine List.eq_nil_iff_forall_not_mem.mpr fun e he => ?_
  obtain ⟨index, -, -, s, hs, -⟩ := mem_pathIndexEntries.mp he
  rw [pathSegments_empty] at hs
  cases hs

theorem mem_pathEntries {pkey : Bytes} {segment : Option ValueMap} {e : Bytes × Bytes}
    (h : e ∈ t.pathEntries pkey segment) :
    t.MethodFace true e.1 ∧ (∃ front, e.1 = front ++ pkey) ∧ e.2 = [] := by
  cases segment with
  | none => cases h
  | some fields =>
    obtain ⟨index, hindex, hpath, s, -, rfl⟩ := mem_pathIndexEntries.mp h
    exact ⟨⟨index, hindex, hpath, _, rfl⟩, ⟨accessFace t.ns index ++ s, by
      rw [List.append_assoc]⟩, rfl⟩

theorem pathEntries_oneValue (pkey : Bytes) (segment : Option ValueMap) :
    OneValue (t.pathEntries pkey segment) := by
  intro k v w hv hw
  have hv := (mem_pathEntries hv).2.2
  have hw := (mem_pathEntries hw).2.2
  exact hv.trans hw.symm

/-- Kept fields have the path entries they were written with. -/
theorem pathEntries_kept (pkey : Bytes) (fields : ValueMap) :
    t.pathEntries pkey (keptSegment fields) = pathIndexEntries t.ns t.indexes pkey fields := by
  have hmap : pathIndexEntries t.ns t.indexes pkey (keptMap fields)
      = pathIndexEntries t.ns t.indexes pkey fields := by
    unfold pathIndexEntries
    refine List.flatMap_congr fun index _ => ?_
    rw [pathSegments_kept]
  unfold pathEntries keptSegment
  by_cases hempty : fields.entries = []
  · -- nothing is found in no fields
    rw [if_pos hempty, ← hmap, Option.elim_none]
    have hnone : keptMap fields = SortedMap.empty := SortedMap.ext_get fun name => by
      rw [keptMap, SortedMap.get_mapValues]
      have hget : fields.get name = none := (fields.get_eq_none_iff name).mpr fun v hv => by
        rw [hempty] at hv
        cases hv
      rw [hget]
      rfl
    rw [hnone, pathIndexEntries_empty]
  · rw [if_neg hempty, Option.elim_some, hmap]

/-! ## What an arm does to the entries -/

theorem pathEntryOps_eq (pkey : Bytes) (fields : ValueMap) (write : Bool) :
    t.pathEntryOps pkey fields write = (pathIndexEntries t.ns t.indexes pkey fields).map
      fun e => (e.1, if write then some e.2 else none) := by
  unfold pathEntryOps
  split
  · rfl
  · rename_i hno
    have hnil : pathIndexEntries t.ns t.indexes pkey fields = [] := by
      refine List.eq_nil_iff_forall_not_mem.mpr fun e he => hno ?_
      obtain ⟨index, hindex, hpath, -⟩ := mem_pathIndexEntries.mp he
      exact List.any_eq_true.mpr ⟨index, hindex, hpath⟩
    rw [hnil]
    rfl

/-- The path operations of a segment are a replace of its entries. -/
theorem pathOps_eq (pkey : Bytes) (old : Option ValueMap) (new : ValueMap) :
    old.elim [] (fun old => t.pathEntryOps pkey old false) ++ t.pathEntryOps pkey new true
      = replaceOps (t.pathEntries pkey old) (pathIndexEntries t.ns t.indexes pkey new) := by
  unfold replaceOps pathEntries
  rw [pathEntryOps_eq]
  cases old with
  | none => rfl
  | some old =>
    rw [Option.elim_some, pathEntryOps_eq]
    rfl

theorem pathSweep_eq (pkey : Bytes) (old : Option ValueMap) :
    old.elim [] (fun old => t.pathEntryOps pkey old false)
      = replaceOps (t.pathEntries pkey old) [] := by
  unfold replaceOps pathEntries
  cases old with
  | none => rfl
  | some old =>
    rw [Option.elim_some, pathEntryOps_eq]
    simp

/-- Operations on fixed faces do not reach a counting one. -/
theorem pending_growthOps_counting {labels more : List String} {k : Bytes} (h : Counting t.ns k) :
    pending (growthOps t.ns labels more) k = none := by
  refine pending_eq_none fun op hop heq => ?_
  obtain ⟨s, hs, suffix, hkey⟩ := vocab_faces labels more hop
  have hslot : s.val ≤ 0x0F := by
    rcases List.mem_pair.mp hs with rfl | rfl <;> decide
  exact h.ne_fixed hslot suffix (heq.symm.trans hkey)

/-- **What a segment's arm does to the entries**: a replace of the path entries. -/
theorem SegmentArm.entries {labels more : List String} {pkey : Bytes}
    {old change : Option ValueMap} {ops : List (Op Bytes Bytes)}
    (h : SegmentArm t labels pkey old change more ops) :
    (change = none ∧ ops = []) ∨ ∃ new, change = some new ∧ ∀ k, t.IndexFace k → pending ops k
      = pending (replaceOps (t.pathEntries pkey old) (pathIndexEntries t.ns t.indexes pkey new)) k := by
  have hfields : ∀ k, t.IndexFace k → fieldsKey t.ns pkey ≠ k := fun k hk =>
    Ne.symm (hk.counting.ne_fixed (show dynamicSlot.val ≤ 0x0F by decide) pkey)
  cases h with
  | idle => exact Or.inl ⟨rfl, rfl⟩
  | @rewritten new _ body framed nodup fits =>
    refine Or.inr ⟨new, rfl, fun k hk => ?_⟩
    rw [List.append_assoc, pathOps_eq, pending_append, pending_concat, if_neg (hfields k hk),
      pending_growthOps_counting hk.counting, Option.or_none]
  | removed =>
    refine Or.inr ⟨SortedMap.empty, rfl, fun k hk => ?_⟩
    rw [pathSweep_eq, pending_concat, if_neg (hfields k hk), pathIndexEntries_empty]

/-- **What a row's arm does to the entries**: a replace of those of the row. -/
theorem RowArm.entries {accOf : AccOf} {pkey : Bytes} {old : Option ValueMap}
    {change : Option (Option ValueMap)} {plan : PlannedWrite}
    (h : RowArm t accOf pkey old change plan) :
    (change = none ∧ plan.ops = []) ∨ ∃ new, change = some new ∧
      (∃ entries, new.elim (.ok []) (t.entriesOf pkey) = .ok entries) ∧
      ∀ k, t.IndexFace k → pending plan.ops k
        = pending (replaceOps (t.rowEntries pkey old) (t.rowEntries pkey new)) k := by
  cases h with
  | idle => exact Or.inl ⟨rfl, rfl⟩
  | @planned new parts hparts =>
    refine Or.inr ⟨new, rfl, ⟨_, hparts.entries⟩, fun k hk => ?_⟩
    obtain ⟨entries, hentries, hdropped⟩ := hparts.dropped
    have hold : t.rowEntries pkey old = entries := by
      unfold rowEntries
      rw [hentries]
    have hnew : t.rowEntries pkey new = parts.entries := by
      unfold rowEntries
      rw [hparts.entries]
    have haccs : pending (putOps parts.accs) k = none := by
      refine pending_eq_none fun op hop heq => hk.not_reduce ?_
      obtain ⟨a, ha, rfl⟩ := List.mem_map.mp hop
      exact heq ▸ hparts.faces.2.1 a ha
    have hprimary : t.primaryKey pkey ≠ k :=
      Ne.symm (hk.counting.ne_fixed (show primarySlot.val ≤ 0x0F by decide) pkey)
    have hdel : delOps parts.dropped = entries.map fun e => (e.1, (none : Option Bytes)) := by
      rw [hdropped, delOps, List.map_map]
      rfl
    rw [hold, hnew, RowParts.ops, replaceOps, pending_append, pending_append, pending_singleton,
      if_neg hprimary, Option.none_or, pending_append, haccs, Option.none_or, hdel, pending_append]
    rfl

/-- A replace reaches its own keys only. -/
theorem pending_replaceOps_off {old new : List (Bytes × Bytes)} {k : Bytes}
    (hold : ∀ e ∈ old, e.1 ≠ k) (hnew : ∀ e ∈ new, e.1 ≠ k) :
    pending (replaceOps old new) k = none := by
  refine pending_eq_none fun op hop => ?_
  rcases List.mem_append.mp hop with hop | hop
  · obtain ⟨e, he, rfl⟩ := List.mem_map.mp hop
    exact hold e he
  · obtain ⟨e, he, rfl⟩ := List.mem_map.mp hop
    exact hnew e he

/-- A row's arm leaves the methods that take paths alone. -/
theorem RowArm.path_off {accOf : AccOf} {pkey : Bytes} {old : Option ValueMap}
    {change : Option (Option ValueMap)} {plan : PlannedWrite}
    (h : RowArm t accOf pkey old change plan) {k : Bytes} (hk : t.MethodFace true k) :
    pending plan.ops k = none := by
  rcases h.entries with ⟨-, hnil⟩ | ⟨new, -, -, hpending⟩
  · rw [hnil]
    rfl
  · rw [hpending k hk.index]
    exact pending_replaceOps_off (fun e he heq => hk.apart (heq ▸ (rowEntries_face he).1))
      fun e he heq => hk.apart (heq ▸ (rowEntries_face he).1)

/-! ## Along a run -/

/-- The store's entries are those of the documents, and every stored row has its entries. -/
structure EntriesInv (t : DynamicCollection) (st : Tracked) : Prop where
  swept : ∀ pkey row, (st.docs pkey).row = some row → ∃ entries, t.entriesOf pkey row = .ok entries
  rows : Derived (t.MethodFace false) (fun pkey => t.rowEntries pkey (st.docs pkey).row)
    st.store.get
  paths : Derived (t.MethodFace true) (fun pkey => t.pathEntries pkey (st.docs pkey).segment)
    st.store.get

/-- A row with an entry has a key of the declared width. -/
theorem TableInv.owns_row {st : Tracked} {labels : List String} (inv : t.TableInv st labels)
    (pkey : Bytes) : ∀ e ∈ t.rowEntries pkey (st.docs pkey).row, t.OwnsEntry pkey e.1 := by
  intro e he
  obtain ⟨document, entries, hrow, -, -⟩ := mem_rowEntries he
  refine ⟨inv.widths pkey (Doc.ne_empty_iff.mpr (Or.inl ?_)), (rowEntries_face he).2⟩
  rw [hrow]
  exact Option.some_ne_none _

theorem TableInv.owns_segment {st : Tracked} {labels : List String} (inv : t.TableInv st labels)
    (pkey : Bytes) : ∀ e ∈ t.pathEntries pkey (st.docs pkey).segment, t.OwnsEntry pkey e.1 := by
  intro e he
  refine ⟨inv.widths pkey (Doc.ne_empty_iff.mpr (Or.inr fun hnone => ?_)), (mem_pathEntries he).2.1⟩
  rw [hnone] at he
  cases he

section

variable (ready : Readable t.table) (faithful : Faithful t)
include ready faithful

/-- The entries of a document changed are those of what it was changed to. -/
theorem rowEntries_changed {pkey : Bytes} {new : Option ValueMap}
    (hnew : ∃ entries, new.elim (.ok []) (t.entriesOf pkey) = .ok entries) :
    t.rowEntries pkey (new.map t.settledRow) = t.rowEntries pkey new := by
  obtain ⟨entries, hentries⟩ := hnew
  cases new with
  | none => rfl
  | some document =>
    unfold rowEntries
    rw [hentries, Option.map_some, Option.elim_some,
      (alike_settled ready faithful _).entriesOf_ok hentries]

/-- **An arm for the row and one for the segment keep the entries those of the documents.** -/
theorem EntriesInv.arms {st : Tracked} {labels more : List String} (inv : t.TableInv st labels)
    (einv : EntriesInv t st) {accOf : AccOf} {pkey : Bytes} {row : Option (Option ValueMap)}
    {segment : Option ValueMap} {plan : PlannedWrite}
    (arms : Arms t accOf labels pkey (st.docs pkey) row segment more plan) :
    EntriesInv t ⟨applyOps st.store plan.ops,
      Function.update st.docs pkey ((st.docs pkey).changed t row segment)⟩ := by
  obtain ⟨rowPlan, ops, hrow, hsegment, hops, -⟩ := arms
  have hwidth := hrow.width
  have hread : ∀ k, (applyOps st.store plan.ops).get k
      = ((pending ops k).or (pending rowPlan.ops k)).getD (st.store.get k) := by
    intro k
    rw [get_applyOps, readThrough, hops, pending_append]
  -- the segment writes path entries only, so a row entry is the row plan's
  have hsegmentOff : ∀ k, t.MethodFace false k → pending ops k = none := by
    intro k hk
    rcases hsegment.entries with ⟨-, hnil⟩ | ⟨new, -, hpending⟩
    · rw [hnil]
      rfl
    · rw [hpending k hk.index]
      refine pending_replaceOps_off (fun e he heq => ?_) fun e he heq => ?_
      · exact (mem_pathEntries he).1.apart (heq ▸ hk)
      · have hmem : e ∈ t.pathEntries pkey (some new) := he
        exact (mem_pathEntries hmem).1.apart (heq ▸ hk)
  refine ⟨fun p stored hp => ?_, ?_, ?_⟩
  · by_cases heq : p = pkey
    · subst heq
      simp only [Function.update_self] at hp
      rcases hrow.entries with ⟨rfl, -⟩ | ⟨new, rfl, ⟨entries, hentries⟩, -⟩
      · exact einv.swept p stored hp
      · obtain ⟨document, rfl, rfl⟩ := Option.map_eq_some_iff.mp hp
        exact ⟨entries, (alike_settled ready faithful _).entriesOf_ok hentries⟩
    · simp only [Function.update_of_ne heq] at hp
      exact einv.swept p stored hp
  · -- the row entries: as they were, or those of the row replaced
    rcases hrow.entries with ⟨rfl, hnil⟩ | ⟨new, rfl, hnew, hpending⟩
    · refine einv.rows.congr (fun p => ?_) fun k hk => ?_
      · by_cases heq : p = pkey
        · subst heq
          simp only [Function.update_self]
          rfl
        · simp only [Function.update_of_ne heq]
      · rw [hread, hsegmentOff k hk, hnil]
        rfl
    · have howns : ∀ e ∈ t.rowEntries pkey new, t.MethodFace false e.1 → t.OwnsEntry pkey e.1 :=
        fun e he _ => ⟨hwidth, (rowEntries_face he).2⟩
      have hone : OneValue (t.rowEntries pkey new) := rowEntries_oneValue pkey new
      refine einv.rows.replace t.owned rfl (fun p e he _ => inv.owns_row p e he) howns hone
        (fun p => ?_) fun k hk => ?_
      · by_cases heq : p = pkey
        · subst heq
          simp only [Function.update_self, if_true]
          exact rowEntries_changed ready faithful hnew
        · simp only [Function.update_of_ne heq, if_neg heq]
      · rw [hread, hsegmentOff k hk, Option.none_or, hpending k hk.index]
  · -- the path entries, the same way
    rcases hsegment.entries with ⟨rfl, hnil⟩ | ⟨new, rfl, hpending⟩
    · refine einv.paths.congr (fun p => ?_) fun k hk => ?_
      · by_cases heq : p = pkey
        · subst heq
          simp only [Function.update_self]
          rfl
        · simp only [Function.update_of_ne heq]
      · rw [hread, hrow.path_off hk, hnil]
        rfl
    · have howns : ∀ e ∈ t.pathEntries pkey (some new), t.MethodFace true e.1 →
          t.OwnsEntry pkey e.1 := fun e he _ => ⟨hwidth, (mem_pathEntries he).2.1⟩
      have hone : OneValue (t.pathEntries pkey (some new)) := pathEntries_oneValue pkey (some new)
      refine einv.paths.replace t.owned rfl (fun p e he _ => inv.owns_segment p e he) howns hone
        (fun p => ?_) fun k hk => ?_
      · by_cases heq : p = pkey
        · subst heq
          simp only [Function.update_self, if_true]
          exact pathEntries_kept p new
        · simp only [Function.update_of_ne heq, if_neg heq]
      · rw [hread, hrow.path_off hk, Option.or_none, hpending k hk.index]
        rfl

variable (plain : ∀ f ∈ t.schema.hotFields, ∀ s, f.ty ≠ .vocab s)
include plain

theorem entriesInv_step {st : Tracked} {labels : List String} (inv : t.TableInv st labels)
    (einv : EntriesInv t st) (ev : TableEvent) (orderly : t.Orderly st ev) :
    EntriesInv t (t.advance st ev) := by
  rcases advance_cases plain inv orderly with
    hsame | ⟨pkey, row, segment, more, plan, arms, -, hnext⟩ | ⟨ops, hnext, helsewhere⟩
  · rwa [hsame]
  · rw [hnext]
    exact einv.arms ready faithful inv arms
  · rw [hnext]
    have hread : ∀ k, t.IndexFace k → (applyOps st.store ops).get k = st.store.get k := by
      rintro k ⟨index, hindex, suffix, rfl⟩
      rw [accessFace_eq]
      exact get_applyOps_of_not_mem st.store fun op hop => helsewhere op hop _
        (Or.inr (Or.inr (Or.inl ⟨index, hindex, rfl⟩))) suffix
    exact ⟨einv.swept, einv.rows.congr (fun _ => rfl) fun k hk => hread k hk.index,
      einv.paths.congr (fun _ => rfl) fun k hk => hread k hk.index⟩

/-- **In every state of a run** the store holds the documents and their entries. -/
theorem entriesInv_run {st : Tracked} {labels : List String} (inv : t.TableInv st labels)
    (einv : EntriesInv t st) {events : List TableEvent}
    (orderly : Along t.advance t.Orderly st events) :
    (∃ labels', t.TableInv (events.foldl t.advance st) labels') ∧
      EntriesInv t (events.foldl t.advance st) :=
  orderly.invariant (fun _ st => (∃ labels, t.TableInv st labels) ∧ EntriesInv t st)
    ⟨⟨labels, inv⟩, einv⟩ fun _ _ ev both orderly => by
      obtain ⟨⟨labels, inv⟩, einv⟩ := both
      obtain ⟨more, inv'⟩ := tableInv_step plain ready inv ev orderly
      exact ⟨⟨_, inv'⟩, entriesInv_step ready faithful plain inv einv ev orderly⟩

end

theorem Init.entries {st : Tracked} (init : t.Init st) : EntriesInv t st := by
  have hnone : ∀ k, t.IndexFace k → st.store.get k = none := by
    rintro k ⟨index, hindex, suffix, rfl⟩
    rw [accessFace_eq]
    exact init.faces _ (Or.inr (Or.inr (Or.inl ⟨index, hindex, rfl⟩))) suffix
  refine ⟨fun pkey row hrow => ?_, fun k hk v => ?_, fun k hk v => ?_⟩
  · rw [init.docs pkey] at hrow
    cases hrow
  · rw [hnone k hk.index]
    constructor
    · intro hread
      cases hread
    · rintro ⟨pkey, he⟩
      dsimp only at he
      rw [init.docs pkey] at he
      cases he
  · rw [hnone k hk.index]
    constructor
    · intro hread
      cases hread
    · rintro ⟨pkey, he⟩
      dsimp only at he
      rw [init.docs pkey] at he
      cases he

/-! ## Scans -/

/-- The segments a document has under an access method: those of its row, or those a path
finds in its segment. -/
def HasSegment (t : DynamicCollection) (index : Access) (doc : Doc) (s : Bytes) : Prop :=
  if isPath index then ∃ fields, doc.segment = some fields ∧ s ∈ pathSegments index fields
  else ∃ row, doc.row = some row ∧
    ∃ value, Makes t.schema.toCollectionSchema index row s value

/-- **The keys under an access method** are those of the documents' segments. -/
theorem entry_iff {st : Tracked} {labels : List String} (inv : t.TableInv st labels)
    (einv : EntriesInv t st) {index : Access} (hindex : index ∈ t.indexes) (k : Bytes) :
    accessFace t.ns index <+: k ∧ st.store.get k ≠ none ↔
      ∃ pkey s, t.HasSegment index (st.docs pkey) s ∧ pkey.length = t.schema.keyLen ∧
        k = accessFace t.ns index ++ (s ++ pkey) := by
  cases hpath : isPath index with
  | false =>
    constructor
    · rintro ⟨⟨suffix, rfl⟩, hsome⟩
      obtain ⟨v, hv⟩ := Option.ne_none_iff_exists'.mp hsome
      -- a row entry comes from a row, and its face names the index
      obtain ⟨pkey, he⟩ := (einv.rows _ ⟨index, hindex, hpath, suffix, rfl⟩ v).mp hv
      obtain ⟨row, entries, hrow, hentries, hmem⟩ := mem_rowEntries he
      obtain ⟨index', hindex', -, s, hmakes, hkey⟩ := (mem_entriesOf hentries).mp hmem
      obtain ⟨rfl, rfl⟩ := eq_of_face hindex hindex' hkey
      refine ⟨pkey, s, ?_, (inv.owns_row pkey _ he).1, rfl⟩
      unfold HasSegment
      rw [if_neg (by rw [hpath]; exact Bool.false_ne_true)]
      exact ⟨row, hrow, v, hmakes⟩
    · rintro ⟨pkey, s, hsegment, -, rfl⟩
      unfold HasSegment at hsegment
      rw [if_neg (by rw [hpath]; exact Bool.false_ne_true)] at hsegment
      obtain ⟨row, hrow, value, hmakes⟩ := hsegment
      -- every stored row can be swept, so its entries are all there
      obtain ⟨entries, hentries⟩ := einv.swept pkey row hrow
      have hmem : (accessFace t.ns index ++ (s ++ pkey), value) ∈ entries :=
        (mem_entriesOf hentries).mpr ⟨index, hindex, hpath, s, hmakes, rfl⟩
      have hat := (einv.rows _ ⟨index, hindex, hpath, s ++ pkey, rfl⟩ value).mpr ⟨pkey, by
        dsimp only
        unfold rowEntries
        rw [hrow, Option.elim_some, hentries]
        exact hmem⟩
      refine ⟨List.prefix_append _ _, ?_⟩
      rw [hat]
      exact Option.some_ne_none _
  | true =>
    constructor
    · rintro ⟨⟨suffix, rfl⟩, hsome⟩
      obtain ⟨v, hv⟩ := Option.ne_none_iff_exists'.mp hsome
      -- a path entry comes from a segment
      obtain ⟨pkey, he⟩ := (einv.paths _ ⟨index, hindex, hpath, suffix, rfl⟩ v).mp hv
      have howns := inv.owns_segment pkey _ he
      dsimp only at he
      cases hsegment : (st.docs pkey).segment with
      | none =>
        rw [hsegment] at he
        cases he
      | some fields =>
        rw [hsegment] at he
        obtain ⟨index', hindex', -, s, hs, heq⟩ := mem_pathIndexEntries.mp he
        obtain ⟨rfl, rfl⟩ := eq_of_face hindex hindex' (Prod.mk.inj heq).1
        refine ⟨pkey, s, ?_, howns.1, rfl⟩
        unfold HasSegment
        rw [if_pos hpath]
        exact ⟨fields, hsegment, hs⟩
    · rintro ⟨pkey, s, hsegment, -, rfl⟩
      unfold HasSegment at hsegment
      rw [if_pos hpath] at hsegment
      obtain ⟨fields, hfields, hs⟩ := hsegment
      have hat := (einv.paths _ ⟨index, hindex, hpath, s ++ pkey, rfl⟩ []).mpr ⟨pkey, by
        dsimp only
        rw [hfields]
        exact mem_pathIndexEntries.mpr ⟨index, hindex, hpath, s, hs, rfl⟩⟩
      refine ⟨List.prefix_append _ _, ?_⟩
      rw [hat]
      exact Option.some_ne_none _

/-- The test of a scan. -/
def Passes (probe : Bytes) (exact : Bool) (s : Bytes) : Prop :=
  if exact then s = probe else probe <+: s

/-- **What a scan is to find**: the documents with a segment that passes, each once for each
such segment, in the order of segment and key. -/
structure Finds (t : DynamicCollection) (docs : Bytes → Doc) (index : Access) (probe : Bytes)
    (exact : Bool) (found : List (Bytes × Bytes)) : Prop where
  ascending : found.Pairwise fun a b => a.1 ++ a.2 < b.1 ++ b.2
  mem : ∀ s pkey, (s, pkey) ∈ found ↔ t.HasSegment index (docs pkey) s ∧ Passes probe exact s

theorem entryScanPrefix_ok {index : Access} {probe p : Bytes}
    (h : entryScanPrefix t.schema.toCollectionSchema t.ns index probe = .ok p) :
    p = accessFace t.ns index ++ probe := by
  unfold entryScanPrefix at h
  cases hkind : index.kind with
  | func derive | path path ty =>
    rw [hkind] at h
    exact (Except.ok.inj h).symm
  | plain | partialIf admits =>
    rw [hkind] at h
    obtain ⟨width, -, h⟩ := bind_eq_ok.mp h
    split at h
    · cases h
    · exact (Except.ok.inj h).symm

theorem keyOf_of_decode {pkey : Bytes} {key : ValueMap}
    (h : decodeKey t.schema.toCollectionSchema pkey = answer key) : t.keyOf pkey = key := by
  unfold keyOf
  rw [h]

/-- The key and the segment an entry spells. -/
def spelled (t : DynamicCollection) (index : Access) (e : Bytes × Bytes) : Bytes × Bytes :=
  (between (accessFace t.ns index).length t.schema.keyLen e.1,
    e.1.drop (e.1.length - t.schema.keyLen))

theorem spelled_eq {index : Access} {s pkey v : Bytes} (hwidth : pkey.length = t.schema.keyLen) :
    t.spelled index (accessFace t.ns index ++ (s ++ pkey), v) = (s, pkey) := by
  unfold spelled
  dsimp only
  rw [← hwidth, between_append, ← List.append_assoc]
  congr 1
  refine List.drop_left' ?_
  simp only [List.length_append]
  omega

/-- The test of a scan, as the code of the loop has it. -/
def passes (probe : Bytes) (exact : Bool) : Bytes → Bool :=
  if exact then (· = probe) else probe.isPrefixOf

theorem passes_iff {probe s : Bytes} {exact : Bool} :
    passes probe exact s = true ↔ Passes probe exact s := by
  unfold passes Passes
  cases exact <;> simp

section

variable {st : Tracked} {labels : List String} {index : Access}

/-- A hit is the entry of a document. -/
theorem hit_iff (inv : t.TableInv st labels) (einv : EntriesInv t st) (hindex : index ∈ t.indexes)
    {probe : Bytes} {exact : Bool} {e : Bytes × Bytes} :
    e ∈ hits t.table t.ns index st.store (passes probe exact) ↔
      st.store.get e.1 = some e.2 ∧ ∃ pkey s, t.HasSegment index (st.docs pkey) s ∧
        pkey.length = t.schema.keyLen ∧ e.1 = accessFace t.ns index ++ (s ++ pkey) ∧
        Passes probe exact s := by
  unfold hits
  rw [List.mem_filter, Bool.and_eq_true, List.isPrefixOf_iff_prefix,
    ← SortedMap.get_eq_some_iff st.store e.1 e.2]
  refine and_congr_right fun hget => ?_
  have hsome : st.store.get e.1 ≠ none := by
    rw [hget]
    exact Option.some_ne_none _
  have hcut : ∀ s pkey, pkey.length = t.schema.keyLen →
      e.1 = accessFace t.ns index ++ (s ++ pkey) →
      between (accessFace t.ns index).length t.table.schema.keyLen e.1 = s := by
    intro s pkey hwidth hkey
    have hlen : t.table.schema.keyLen = pkey.length := hwidth.symm
    rw [hkey, hlen, between_append]
  constructor
  · rintro ⟨hface, htest⟩
    obtain ⟨pkey, s, hsegment, hwidth, hkey⟩ := (entry_iff inv einv hindex e.1).mp ⟨hface, hsome⟩
    rw [hcut s pkey hwidth hkey] at htest
    exact ⟨pkey, s, hsegment, hwidth, hkey, passes_iff.mp htest⟩
  · rintro ⟨pkey, s, hsegment, hwidth, hkey, hpass⟩
    refine ⟨hkey ▸ List.prefix_append _ _, ?_⟩
    rw [hcut s pkey hwidth hkey]
    exact passes_iff.mpr hpass

theorem entry_room (inv : t.TableInv st labels) (einv : EntriesInv t st)
    (hindex : index ∈ t.indexes) {e : Bytes × Bytes} (he : e ∈ st.store.entries)
    (hface : accessFace t.ns index <+: e.1) :
    (accessFace t.ns index).length + t.schema.keyLen ≤ e.1.length := by
  have hget := (st.store.get_eq_some_iff e.1 e.2).mpr he
  obtain ⟨pkey, s, -, hwidth, hkey⟩ := (entry_iff inv einv hindex e.1).mp ⟨hface, by
    rw [hget]
    exact Option.some_ne_none _⟩
  rw [hkey, ← hwidth]
  simp only [List.length_append]
  omega

/-- **What the loop of a scan lets through** is left of the hits. -/
theorem matched_suffixes (inv : t.TableInv st labels) (einv : EntriesInv t st)
    (hindex : index ∈ t.indexes) (probe : Bytes) (exact : Bool) :
    (st.store.suffixes (accessFace t.ns index ++ probe)).filter (matched t.schema.keyLen exact)
      = (hits t.table t.ns index st.store (passes probe exact)).map
          fun e => e.1.drop (accessFace t.ns index ++ probe).length := by
  unfold Keyspace.suffixes hits
  rw [List.filter_map, List.filter_filter]
  refine congrArg _ (List.filter_congr fun e he => ?_)
  have hroom := fun hface => entry_room inv einv hindex he hface
  have hkeyLen : t.table.schema.keyLen = t.schema.keyLen := rfl
  rw [Bool.eq_iff_iff, Bool.and_eq_true, Bool.and_eq_true, List.isPrefixOf_iff_prefix,
    List.isPrefixOf_iff_prefix, Function.comp_apply, passes_iff, hkeyLen]
  unfold matched Passes
  rw [List.length_drop]
  cases exact with
  | true =>
    simp only [if_true, decide_eq_true_iff]
    rw [← consumes_iff hroom, and_comm]
    refine and_congr_right fun hcarries => ?_
    have hle := hcarries.length_le
    omega
  | false =>
    simp only [if_false, Bool.false_eq_true, decide_eq_true_iff]
    rw [← carries_iff hroom, and_comm]
    refine and_congr_right fun hcarries => ?_
    have hle := hcarries.length_le
    omega

theorem found_of_hits (inv : t.TableInv st labels) (einv : EntriesInv t st)
    (hindex : index ∈ t.indexes) (probe : Bytes) (exact : Bool) :
    Finds t st.docs index probe exact
      ((hits t.table t.ns index st.store (passes probe exact)).map (t.spelled index)) where
  ascending := by
    rw [List.pairwise_map]
    have hsorted : (hits t.table t.ns index st.store (passes probe exact)).Pairwise
        fun d e => d.1 < e.1 := st.store.sorted.filter _
    refine hsorted.imp_of_mem fun {d e} hd he hlt => ?_
    obtain ⟨-, pkey, s, -, hwidth, hkey, -⟩ := (hit_iff inv einv hindex).mp hd
    obtain ⟨-, pkey', s', -, hwidth', hkey', -⟩ := (hit_iff inv einv hindex).mp he
    obtain ⟨k, v⟩ := d
    obtain ⟨k', v'⟩ := e
    obtain rfl : k = _ := hkey
    obtain rfl : k' = _ := hkey'
    rw [spelled_eq hwidth, spelled_eq hwidth']
    exact (append_lt_append_iff _ _ _).mp hlt
  mem s pkey := by
    rw [List.mem_map]
    constructor
    · rintro ⟨⟨k, v⟩, he, hspelled⟩
      obtain ⟨-, pkey', s', hsegment, hwidth, hkey, hpass⟩ := (hit_iff inv einv hindex).mp he
      obtain rfl : k = _ := hkey
      rw [spelled_eq hwidth] at hspelled
      obtain ⟨rfl, rfl⟩ := Prod.mk.inj hspelled
      exact ⟨hsegment, hpass⟩
    · rintro ⟨hsegment, hpass⟩
      have hwidth : pkey.length = t.schema.keyLen := by
        refine inv.widths pkey (Doc.ne_empty_iff.mpr ?_)
        unfold HasSegment at hsegment
        split at hsegment
        · obtain ⟨fields, hfields, -⟩ := hsegment
          exact Or.inr (by rw [hfields]; exact Option.some_ne_none _)
        · obtain ⟨row, hrow, -⟩ := hsegment
          exact Or.inl (by rw [hrow]; exact Option.some_ne_none _)
      have hentry := (entry_iff inv einv hindex _).mpr ⟨pkey, s, hsegment, hwidth, rfl⟩
      obtain ⟨v, hv⟩ := Option.ne_none_iff_exists'.mp hentry.2
      exact ⟨(_, v), (hit_iff inv einv hindex).mpr ⟨hv, pkey, s, hsegment, hwidth, rfl, hpass⟩,
        spelled_eq hwidth⟩

end

/-- **Index scans are exact along every run**: a scan the check in front of it lets through
answers the decoded keys of the documents that have a segment under the probe, or the probe for
a segment, in order; whether the method takes fields, a callable or a path. -/
theorem index_scans_exact (ready : Readable t.table) (faithful : Faithful t)
    (plain : ∀ f ∈ t.schema.hotFields, ∀ s, f.ty ≠ .vocab s) {st : Tracked} (init : t.Init st)
    {events : List TableEvent} (orderly : Along t.advance t.Orderly st events) {index : Access}
    (hindex : index ∈ t.indexes) {probe p : Bytes}
    (hprobe : entryScanPrefix t.schema.toCollectionSchema t.ns index probe = .ok p) (exact : Bool) :
    ∃ found, Finds t (events.foldl t.advance st).docs index probe exact found ∧
      scanAccessMethodFiltered (events.foldl t.advance st).store t.schema.toCollectionSchema t.ns
        index probe exact = answer (found.map fun h => t.keyOf h.2) := by
  obtain ⟨⟨labels, inv⟩, einv⟩ := entriesInv_run ready faithful plain init.inv init.entries orderly
  generalize events.foldl t.advance st = st' at inv einv ⊢
  refine ⟨_, found_of_hits inv einv hindex probe exact, ?_⟩
  obtain rfl := entryScanPrefix_ok hprobe
  obtain ⟨keys, hloop, hall⟩ :=
    filteredLoop_eq t.table exact (st'.store.suffixes (accessFace t.ns index ++ probe))
  have hscan : VirtualStorage.scanSuffix st'.store (accessFace t.ns index ++ probe)
      = .ok (st'.store.suffixes (accessFace t.ns index ++ probe)) := rfl
  have hanswer : scanAccessMethodFiltered st'.store t.schema.toCollectionSchema t.ns index probe exact
      = answer keys := by
    unfold scanAccessMethodFiltered
    rw [hprobe, Guarded.lift, Guarded.answer_bind, hscan]
    exact hloop
  rw [hanswer]
  refine congrArg answer ?_
  have hmatched := matched_suffixes inv einv hindex probe exact
  have hkeyLen : t.table.schema.keyLen = t.schema.keyLen := rfl
  rw [hkeyLen, hmatched, List.forall₂_map_left_iff] at hall
  -- behind the probe there is room for a key, so the tail is that of the whole entry
  have hroom : ∀ e ∈ hits t.table t.ns index st'.store (passes probe exact),
      (accessFace t.ns index ++ probe).length + t.schema.keyLen ≤ e.1.length := by
    intro e he
    obtain ⟨-, pkey, s, -, hwidth, hkey, hpass⟩ := (hit_iff inv einv hindex).mp he
    have hle : probe.length ≤ s.length := by
      unfold Passes at hpass
      split at hpass
      · rw [hpass]
      · exact hpass.length_le
    rw [hkey, ← hwidth]
    simp only [List.length_append]
    omega
  have hkeys : List.Forall₂ (fun e key => t.keyOf (t.spelled index e).2 = key)
      (hits t.table t.ns index st'.store (passes probe exact)) keys := by
    refine ((List.forall₂_and_left _ _).mpr ⟨hroom, hall⟩).imp fun e key hkey => ?_
    obtain ⟨hlen, hkey⟩ := hkey
    rw [tail_drop hlen] at hkey
    exact keyOf_of_decode hkey
  rw [← List.forall₂_map_left_iff (R := Eq), List.forall₂_eq_eq_eq] at hkeys
  rw [← hkeys, List.map_map]
  rfl

/-- The segment of a callable that looks at one field. -/
def kindSegment (document : ValueMap) : Except String (List Bytes) :=
  match document.get "kind" with
  | some (.u8 n) => .ok [[n]]
  | _ => .ok []

/-- A path to the tag. -/
def tagMethod : Access := ⟨⟨0x3003, [], [], .path [.field "tag"] .u16, 0⟩, by decide⟩

/-- Notes under a field, under a callable and under a path. -/
def indexedNotes : DynamicCollection where
  table := noteTable
  ns := [7]
  indexes := [⟨⟨0x3001, ["kind"], [], .plain, 0⟩, by decide⟩,
    ⟨⟨0x3002, [], [], .func kindSegment, 0⟩, by decide⟩, tagMethod]
  reduces := []
  indexSlots := by decide
  reduceSlots := notes.reduceSlots
  apart := by decide

theorem noteTable_readable : Readable noteTable := ⟨by decide, by decide, by decide, by decide⟩

theorem indexedNotes_faithful : Faithful indexedNotes where
  derives index hindex derive hkind document := by
    have hkinds : derive = kindSegment := by
      simp only [indexedNotes, List.mem_cons, List.not_mem_nil, or_false] at hindex
      rcases hindex with rfl | rfl | rfl
      · cases hkind
      · injection hkind with hkind
        exact hkind.symm
      · cases hkind
    have hget := @get_settledRow indexedNotes noteTable_readable document "kind"
    have hfield : payloadField indexedNotes.schema.toCollectionSchema "kind"
        = some ⟨"kind", .u8, 1, 0, none, none, none⟩ := rfl
    have hsame : (indexedNotes.settledRow document).get "kind" = document.get "kind" := by
      rw [hget, hfield]
      cases document.get "kind" <;> rfl
    rw [hkinds]
    unfold kindSegment
    rw [hsame]
  admits index hindex admits hkind := by
    simp only [indexedNotes, List.mem_cons, List.not_mem_nil, or_false] at hindex
    rcases hindex with rfl | rfl | rfl <;> cases hkind

theorem indexedNotes_orderly :
    Along indexedNotes.advance indexedNotes.Orderly Tracked.new noteEvents := by
  obtain ⟨⟨hfirst, -⟩, ⟨hsecond, -⟩, -⟩ := noteEvents_orderly
  exact ⟨⟨hfirst, bounded_of_entries (by decide +kernel)⟩,
    ⟨hsecond, bounded_of_entries (by decide +kernel)⟩, trivial⟩

/-- The path finds the note by its tag, after a merge that did not name the tag. -/
theorem index_scans_exact_tag : ∃ found,
    Finds indexedNotes (noteEvents.foldl indexedNotes.advance Tracked.new).docs
      tagMethod [0, 9] true found ∧
    scanAccessMethodFiltered (noteEvents.foldl indexedNotes.advance Tracked.new).store
      noteTable.schema.toCollectionSchema [7] tagMethod [0, 9] true
      = answer (found.map fun h => indexedNotes.keyOf h.2) :=
  @index_scans_exact indexedNotes noteTable_readable indexedNotes_faithful notes_plain Tracked.new
    ⟨fun _ _ _ => rfl, fun _ => rfl⟩ noteEvents indexedNotes_orderly _ (by simp [indexedNotes])
    [0, 9] _ rfl true

end DynamicCollection

end Okm.Dynamic
