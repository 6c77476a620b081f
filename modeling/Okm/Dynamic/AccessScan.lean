import Okm.Dynamic.AccessMethod
import Okm.Dynamic.EncodeEnds
import Okm.Lib.TailCut
import Okm.Model.PrefixScan

/-!
# Scans over an access method are exact

A scan is to find the entries whose field segment starts with the probe, or is the probe, each
once and in key order, with the included fields as the row has them. What a scan looks at is
enough for that: behind the probe there is a key of the row left, or more than that.

Two things get in the way. The check in front of a scan lets a probe past the fixed head only
where a text is the one field there is, not where it comes last among others. And the covered
scan walks a range, where a bound that carried holds keys shorter than the probe below it;
only a table whose key has no bytes would take these for its own. `access_scans_iff` is the
exact extent.
-/

namespace Okm.Dynamic

open Lib Model

/-! ## Field orders -/

/-- The names are of fields, and one of variable width is the last. -/
def Ordered (schema : CollectionSchema) : List String → Prop
  | [] => True
  | name :: names => ∃ f, findField schema name = some f ∧ (f.width = 0 → names = []) ∧
      Ordered schema names

/-- What `check_field_order` looks at, from a position on. -/
theorem variable_last {fields : List FieldSchema} {n : Nat} {rest : List Nat} {pos : Nat}
    (h : ((fields.zipIdx n).filter fun p => p.1.width = 0).map Prod.snd = pos :: rest)
    (hpos : pos + 1 = n + fields.length) :
    ∀ front f back, fields = front ++ f :: back → f.width = 0 → back = [] := by
  induction fields generalizing n with
  | nil => simp at h
  | cons g fields ih =>
    intro front f back heq hf
    rw [List.length_cons] at hpos
    by_cases hg : g.width = 0
    · have hn : n = pos := by
        rw [List.zipIdx_cons, List.filter_cons_of_pos (by simpa using hg), List.map_cons] at h
        exact (List.cons.inj h).1
      have hnil : fields = [] := List.length_eq_zero_iff.mp (by omega)
      cases front with
      | nil => exact (List.cons.inj heq).2.symm.trans hnil
      | cons g' front =>
        have hrest := (List.cons.inj heq).2
        rw [hnil] at hrest
        simp at hrest
    · rw [List.zipIdx_cons, List.filter_cons_of_neg (by simpa using hg)] at h
      cases front with
      | nil =>
        obtain ⟨rfl, -⟩ := List.cons.inj heq
        exact absurd hf hg
      | cons g' front =>
        exact ih h (by omega) front f back (List.cons.inj heq).2 hf

theorem resolveFields_ok {schema : CollectionSchema} {names : List String}
    {fields : List FieldSchema} (h : resolveFields schema names = .ok fields) :
    List.Forall₂ (fun name f => findField schema name = some f) names fields := by
  induction names generalizing fields with
  | nil =>
    obtain rfl := Except.ok.inj h
    exact .nil
  | cons name names ih =>
    unfold resolveFields at h
    cases hf : findField schema name with
    | none =>
      rw [hf] at h
      cases h
    | some f =>
      rw [hf] at h
      dsimp only at h
      cases hrest : resolveFields schema names with
      | error e =>
        rw [hrest] at h
        cases h
      | ok fs =>
        rw [hrest] at h
        obtain rfl := Except.ok.inj h
        exact .cons hf (ih hrest)

theorem ordered_of_fields {schema : CollectionSchema} {names : List String}
    {fields : List FieldSchema}
    (h : List.Forall₂ (fun name f => findField schema name = some f) names fields)
    (hlast : ∀ front f back, fields = front ++ f :: back → f.width = 0 → back = []) :
    Ordered schema names := by
  induction h with
  | nil => exact trivial
  | cons hf hrest ih =>
    rename_i name f names fields
    refine ⟨f, hf, fun hzero => ?_, ih fun front g back heq => ?_⟩
    · have hnil : fields = [] := hlast [] f fields rfl hzero
      rw [hnil] at hrest
      cases hrest
      rfl
    · exact hlast (f :: front) g back (by rw [heq, List.cons_append])

/-- **What passes the order check is ordered.** -/
theorem ordered_of_check {schema : CollectionSchema} {names : List String}
    (h : checkFieldOrder schema names = .ok ()) : Ordered schema names := by
  unfold checkFieldOrder at h
  cases hfields : resolveFields schema names with
  | error e =>
    rw [hfields] at h
    cases h
  | ok fields =>
    rw [hfields] at h
    have hresolved := resolveFields_ok hfields
    refine ordered_of_fields hresolved ?_
    change positionsFit names (variablePositions fields) = .ok () at h
    cases hpositions : variablePositions fields with
    | nil =>
      intro front f back heq hf
      have hmem : (f, front.length) ∈ fields.zipIdx := by
        rw [heq, List.mem_zipIdx_iff_getElem?]
        simp
      have hin : front.length ∈ variablePositions fields :=
        List.mem_map.mpr ⟨_, List.mem_filter.mpr ⟨hmem, by simpa using hf⟩, rfl⟩
      rw [hpositions] at hin
      cases hin
    | cons pos rest =>
      rw [hpositions, positionsFit] at h
      by_cases hpos : pos = names.length - 1
      · have hne : names ≠ [] := by
          rintro rfl
          cases hresolved
          cases hpositions
        have hlen := hresolved.length_eq
        have hposn := List.length_pos_of_ne_nil hne
        exact variable_last hpositions (by omega)
      · rw [if_pos hpos] at h
        cases h

/-- The bytes of the fields before the first of variable width; with that one last, of all. -/
def fixedWidth (schema : CollectionSchema) (names : List String) : Nat :=
  ((names.filterMap (findField schema)).map FieldSchema.width).sum

theorem headWidth_eq {schema : CollectionSchema} {names : List String} (h : Ordered schema names) :
    headWidth schema names = .ok (fixedWidth schema names) := by
  induction names with
  | nil => rfl
  | cons name names ih =>
    obtain ⟨f, hf, hlast, hrest⟩ := h
    have hsum : fixedWidth schema (name :: names) = f.width + fixedWidth schema names := by
      simp [fixedWidth, hf]
    unfold headWidth
    rw [hf, hsum]
    dsimp only
    by_cases hzero : f.width = 0
    · rw [if_pos hzero, hzero, hlast hzero]
      rfl
    · rw [if_neg hzero, ih hrest]
      rfl

/-! ## Included fields -/

/-- A document `put` accepts: its hot fields fit. -/
def Accepted (t : DeclaredTable) (document : ValueMap) : Prop :=
  ∃ payload, encodePayload t.schema document = .answer payload

theorem Accepted.fits {t : DeclaredTable} {document : ValueMap} (h : Accepted t document) :
    FieldsFit document t.schema.hotFields := by
  obtain ⟨payload, hpayload⟩ := h
  have hwhole := (fields_end document (statics t).2 [] t.hot_placed).whole
  rw [List.length_nil, Nat.zero_add, t.hot_width] at hwhole
  unfold encodePayload at hpayload
  obtain ⟨hot, hhot, hpayload⟩ := Guarded.bind_eq_answer.mp hpayload
  by_cases hlen : hot.length = t.schema.hotWidth
  · exact hwhole.mp ⟨hot, hhot, hlen⟩
  · rw [if_pos hlen] at hpayload
    cases hpayload

/-- A field of a payload segment: what its bytes are and how they are read back. -/
structure SegmentField (t : DeclaredTable) (name : String) (f : FieldSchema) (v : Value)
    (bytes : Bytes) : Prop where
  found : findField t.schema.toCollectionSchema name = some f
  payload : isKeyField t.schema.toCollectionSchema name = false
  text : f.width = 0 → f.ty = .str ∧ ∃ s, v = .str s ∧ bytes = strBytes s
  fixed : f.width ≠ 0 → bytes.length = f.width ∧ decodeFixed name f.ty f.width bytes = .answer v

theorem findField_name {schema : CollectionSchema} {name : String} {f : FieldSchema}
    (h : findField schema name = some f) : f.name = name := by
  have hname := List.find?_some h
  simpa using hname

/-- A field with a width that is none of the key's is hot. -/
theorem hot_of_found {t : DeclaredTable} {name : String} {f : FieldSchema}
    (h : findField t.schema.toCollectionSchema name = some f)
    (hkey : isKeyField t.schema.toCollectionSchema name = false) (hwidth : f.width ≠ 0) :
    f ∈ t.schema.hotFields := by
  have hmem : f ∈ t.schema.keyFields ++ t.schema.hotFields ++ t.schema.coldFields :=
    List.mem_of_find?_eq_some h
  rw [List.mem_append, List.mem_append] at hmem
  rcases hmem with (hin | hin) | hin
  · have hany : isKeyField t.schema.toCollectionSchema name = true :=
      List.any_eq_true.mpr ⟨f, hin, by simpa using findField_name h⟩
    rw [hkey] at hany
    cases hany
  · exact hin
  · exact absurd (t.cold_sized hin).2.1 hwidth

/-- A fixed value is read back from as many bytes as its field is wide. -/
theorem encodeFixed_reads {ty : FieldType} {v : Value} {bytes : Bytes} {width : Nat}
    (h : encodeFixed ty v = .ok bytes) (hsized : sized ty width = true)
    (hfixed : ∀ b, ty = .fixedBytes → v = .bytes b → b.length = width) (name : String) :
    bytes.length = width ∧ decodeFixed name ty width bytes = .answer v := by
  unfold encodeFixed at h
  split at h
  · obtain rfl := Except.ok.inj h
    exact ⟨(beq_iff_eq.mp hsized).symm, rfl⟩
  · rename_i n
    obtain rfl := Except.ok.inj h
    have hread : beNat (beBytes 2 n.toNat) = n.toNat := beNat_beBytes n.toNat_lt
    refine ⟨(length_beBytes _ _).trans (beq_iff_eq.mp hsized).symm, ?_⟩
    rw [decodeFixed, if_pos (length_beBytes _ _), hread, UInt16.ofNat_toNat]
  · rename_i n
    obtain rfl := Except.ok.inj h
    have hread : beNat (beBytes 4 n.toNat) = n.toNat := beNat_beBytes n.toNat_lt
    refine ⟨(length_beBytes _ _).trans (beq_iff_eq.mp hsized).symm, ?_⟩
    rw [decodeFixed, if_pos (length_beBytes _ _), hread, UInt32.ofNat_toNat]
  · rename_i n
    obtain rfl := Except.ok.inj h
    have hread : beNat (beBytes 8 n.toNat) = n.toNat := beNat_beBytes n.toNat_lt
    refine ⟨(length_beBytes _ _).trans (beq_iff_eq.mp hsized).symm, ?_⟩
    rw [decodeFixed, if_pos (length_beBytes _ _), hread, UInt64.ofNat_toNat]
  · rename_i b
    obtain rfl := Except.ok.inj h
    exact ⟨hfixed _ rfl rfl, rfl⟩
  · cases h

/-- **The bytes of a field are read back.** -/
theorem segmentField_ok {t : DeclaredTable} {role : Role} {document : ValueMap} {name : String}
    {bytes : Bytes} (haccepted : Accepted t document)
    (h : segmentField role t.schema.toCollectionSchema document name = .ok bytes) :
    ∃ f v, document.get name = some v ∧ SegmentField t name f v bytes := by
  unfold segmentField at h
  cases hkey : isKeyField t.schema.toCollectionSchema name with
  | true =>
    rw [hkey] at h
    cases h
  | false =>
    rw [hkey] at h
    cases hv : document.get name with
    | none =>
      rw [hv] at h
      cases h
    | some v =>
      rw [hv] at h
      cases hf : findField t.schema.toCollectionSchema name with
      | none =>
        rw [hf] at h
        cases h
      | some f =>
        rw [hf] at h
        dsimp only at h
        refine ⟨f, v, rfl, hf, hkey, fun hzero => ?_, fun hwidth => ?_⟩
        · rw [if_neg Bool.false_ne_true, if_pos hzero] at h
          unfold encodeVariable at h
          split at h
          · rename_i s hty
            exact ⟨hty, s, rfl, (Except.ok.inj h).symm⟩
          · cases h
        · rw [if_neg Bool.false_ne_true, if_neg hwidth] at h
          have hhot := hot_of_found hf hkey hwidth
          have hsized := (t.hot_sized hhot).1
          obtain ⟨v', hgiven, hfits, -⟩ := haccepted.fits f hhot
          -- the value accepted is the one the document has
          have hsame : v' = v := by
            obtain ⟨hpair, -⟩ := given_some hgiven
            unfold fieldPair at hpair
            rw [findField_name hf, hv] at hpair
            dsimp only at hpair
            split at hpair
            · exact (Except.ok.inj hpair).symm
            · cases hpair
          subst hsame
          refine encodeFixed_reads h hsized (fun b hty hb => ?_) name
          unfold Fits at hfits
          rw [hty, hb] at hfits
          exact hfits

/-- What an includes segment says: each included field as the document has it. -/
def Covers (index : Access) (document c : ValueMap) : Prop :=
  ∀ name, c.get name = if name ∈ index.includes then document.get name else none

theorem decodeInclude_eq {t : DeclaredTable} {name : String} {f : FieldSchema} {v : Value}
    {bytes : Bytes} (h : SegmentField t name f v bytes) {front back : Bytes}
    (hlast : f.width = 0 → back = []) :
    decodeInclude t.schema.toCollectionSchema (front ++ (bytes ++ back)) front.length name
      = .answer (v, (front ++ bytes).length) := by
  unfold decodeInclude
  rw [h.payload, h.found]
  dsimp only
  rw [if_neg Bool.false_ne_true]
  by_cases hzero : f.width = 0
  · obtain ⟨hty, s, rfl, rfl⟩ := h.text hzero
    rw [if_pos hzero, if_neg (by rw [List.length_append]; omega), hty, hlast hzero,
      List.append_nil, List.drop_left]
    dsimp only
    rw [strOfBytes_strBytes]
  · obtain ⟨hlen, hread⟩ := h.fixed hzero
    have hcut : ((front ++ (bytes ++ back)).take (front.length + f.width)).drop front.length
        = bytes := by
      rw [← List.append_assoc, List.take_left' (by rw [List.length_append, hlen]), List.drop_left]
    rw [if_neg hzero, if_neg (by simp only [List.length_append]; omega), hcut, hread,
      List.length_append, hlen]
    rfl

/-- From `front` on, the names are read back and nothing is left. -/
theorem includesLoop_eq {t : DeclaredTable} {role : Role} {document : ValueMap}
    (haccepted : Accepted t document) {names : List String}
    (horder : Ordered t.schema.toCollectionSchema names) {bytes : Bytes}
    (h : segmentFields role t.schema.toCollectionSchema document names = .ok bytes)
    (front : Bytes) (out : ValueMap) :
    ∃ out', includesLoop t.schema.toCollectionSchema (front ++ bytes) names front.length out
        = .answer ((front ++ bytes).length, out') ∧
      ∀ name, out'.get name = if name ∈ names then document.get name else out.get name := by
  induction names generalizing bytes front out with
  | nil =>
    obtain rfl := Except.ok.inj h
    exact ⟨out, by rw [List.append_nil]; rfl, by simp⟩
  | cons name names ih =>
    obtain ⟨f, hf, hlast, horder⟩ := horder
    unfold segmentFields at h
    cases hfield : segmentField role t.schema.toCollectionSchema document name with
    | error e =>
      rw [hfield] at h
      cases h
    | ok first =>
      rw [hfield] at h
      cases hrest : segmentFields role t.schema.toCollectionSchema document names with
      | error e =>
        rw [hrest] at h
        cases h
      | ok rest =>
        rw [hrest] at h
        obtain rfl := Except.ok.inj h
        obtain ⟨f', v, hv, hsegment⟩ := segmentField_ok haccepted hfield
        obtain rfl := Option.some.inj (hf.symm.trans hsegment.found)
        -- a field without a width takes what is left, so it has to be the last
        have hback : f.width = 0 → rest = [] := by
          intro hzero
          rw [hlast hzero] at hrest
          exact (Except.ok.inj hrest).symm
        obtain ⟨out', hout', hget⟩ := ih horder hrest (front ++ first) (out.insert name v)
        refine ⟨out', ?_, fun name' => ?_⟩
        · unfold includesLoop
          rw [decodeInclude_eq hsegment hback, Guarded.answer_bind]
          rw [List.append_assoc] at hout'
          exact hout'
        · rw [hget name', SortedMap.get_insert]
          by_cases hin : name' ∈ names
          · simp [hin]
          · by_cases heq : name' = name
            · simp [heq, hv]
            · simp [hin, heq]

/-- **The included fields are read back as the document has them.** -/
theorem decodeIncludes_eq {t : DeclaredTable} {index : Access} {document : ValueMap}
    {value : Bytes} (haccepted : Accepted t document)
    (h : includesBytes t.schema.toCollectionSchema index document = .ok value) :
    ∃ c, decodeIncludes t.schema.toCollectionSchema index value = .answer c ∧
      Covers index document c := by
  unfold includesBytes at h
  cases horder : checkFieldOrder t.schema.toCollectionSchema index.includes with
  | error e =>
    rw [horder] at h
    cases h
  | ok u =>
    rw [horder] at h
    obtain ⟨c, hc, hget⟩ := includesLoop_eq haccepted (ordered_of_check horder) h [] SortedMap.empty
    refine ⟨c, ?_, hget⟩
    unfold decodeIncludes
    rw [List.nil_append, List.length_nil] at hc
    rw [hc, Guarded.answer_bind, if_neg (not_not.mpr rfl)]

/-! ## Rows and their entries -/

/-- What an entry is made of: a row and one of its segments. -/
structure Entry where
  pkey : Bytes
  segment : Bytes
  document : ValueMap

/-- A document has an entry under a segment, with the included fields in it. -/
def Makes (schema : CollectionSchema) (index : Access) (document : ValueMap)
    (segment value : Bytes) : Prop :=
  gate index document = .ok true ∧ includesBytes schema index document = .ok value ∧
    ∃ found, segments schema index document = .ok found ∧ segment ∈ found

/-- A store whose rows are `rows`, each under its key, and whose entries under one access
method are those of the rows. -/
structure Consistent (t : DeclaredTable) (ns : Bytes) (index : Access)
    (rows : SortedMap Bytes ValueMap) (store : Keyspace) : Prop where
  stored : ∀ pkey document, rows.get pkey = some document → pkey.length = t.schema.keyLen ∧
    ∃ payload, encodePayload t.schema document = .answer payload ∧
      store.get (ns ++ (beBytes 2 0 ++ pkey)) = some payload
  indexed : ∀ pkey document, rows.get pkey = some document → ∃ entries,
    methodEntries t.schema.toCollectionSchema ns index pkey document = .ok entries ∧
      ∀ e ∈ entries, store.get e.1 = some e.2
  derived : ∀ k v, accessFace ns index <+: k → store.get k = some v →
    ∃ pkey document entries, rows.get pkey = some document ∧
      methodEntries t.schema.toCollectionSchema ns index pkey document = .ok entries ∧
        (k, v) ∈ entries

/-- The entries whose segment passes a test, each once and in key order. -/
structure Listed (t : DeclaredTable) (index : Access) (rows : SortedMap Bytes ValueMap)
    (test : Bytes → Bool) (es : List Entry) : Prop where
  ascending : es.Pairwise fun d e => d.segment ++ d.pkey < e.segment ++ e.pkey
  mem : ∀ e, e ∈ es ↔ rows.get e.pkey = some e.document ∧
    (∃ value, Makes t.schema.toCollectionSchema index e.document e.segment value) ∧
      test e.segment = true

/-- **The scans find what the probe means**, and the covered scan finds the same. -/
structure ScansExact (t : DeclaredTable) (ns : Bytes) (index : Access)
    (rows : SortedMap Bytes ValueMap) (store : Keyspace) (probe : Bytes) : Prop where
  leading : ∃ es keys pairs, Listed t index rows probe.isPrefixOf es ∧
    List.Forall₂ (fun e key => decodeKey t.schema.toCollectionSchema e.pkey = .answer key) es keys ∧
    scanAccessMethod store t.schema.toCollectionSchema ns index probe = .answer keys ∧
    pairs.map Prod.fst = keys ∧ List.Forall₂ (fun e p => Covers index e.document p.2) es pairs ∧
    scanAccessMethodCovered store t.schema.toCollectionSchema ns index probe = .answer pairs
  equal : ∃ es keys, Listed t index rows (· = probe) es ∧
    List.Forall₂ (fun e key => decodeKey t.schema.toCollectionSchema e.pkey = .answer key) es keys ∧
    scanAccessMethodExact store t.schema.toCollectionSchema ns index probe = .answer keys

/-- The probe starts some segment the access method can have. -/
def Possible (schema : CollectionSchema) (index : Access) (probe : Bytes) : Prop :=
  ∃ document found segment, segments schema index document = .ok found ∧ segment ∈ found ∧
    probe <+: segment

/-- **The condition on the probe**: the segment is derived, or the probe is no longer than its
fixed head, or a text is the one field of it. -/
def HeadAdmits (schema : CollectionSchema) (index : Access) (probe : Bytes) : Prop :=
  match index.kind with
  | .func _ => True
  | _ => probe.length ≤ fixedWidth schema index.fields ∨
      trailingVariable schema index = true ∧ index.fields.length = 1

/-- **The condition on the store**: no key between the probe and its bound is shorter than the
probe. -/
def Reaches (store : Keyspace) (p : Bytes) : Prop :=
  ∀ k v, store.get k = some v → p ≤ k → (∀ e ∈ prefixEnd p, k < e) → p.length ≤ k.length

section

variable {t : DeclaredTable} {ns : Bytes} {index : Access} {rows : SortedMap Bytes ValueMap}
  {store : Keyspace} {probe : Bytes}

theorem mem_methodEntries {schema : CollectionSchema} {pkey : Bytes} {document : ValueMap}
    {entries : List (Bytes × Bytes)}
    (h : methodEntries schema ns index pkey document = .ok entries) {e : Bytes × Bytes} :
    e ∈ entries ↔ ∃ segment, Makes schema index document segment e.2 ∧
      e.1 = accessFace ns index ++ (segment ++ pkey) := by
  unfold methodEntries at h
  unfold Makes
  cases hgate : gate index document with
  | error err =>
    rw [hgate] at h
    cases h
  | ok admitted =>
    rw [hgate] at h
    cases admitted with
    | false =>
      obtain rfl := Except.ok.inj h
      simp
    | true =>
      cases hfound : segments schema index document with
      | error err =>
        rw [hfound] at h
        cases h
      | ok found =>
        rw [hfound] at h
        cases hvalue : includesBytes schema index document with
        | error err =>
          rw [hvalue] at h
          cases h
        | ok value =>
          rw [hvalue] at h
          obtain rfl := Except.ok.inj h
          rw [List.mem_map]
          constructor
          · intro h
            obtain ⟨segment, hsegment, rfl⟩ := h
            exact ⟨segment, ⟨rfl, rfl, found, rfl, hsegment⟩, rfl⟩
          · intro h
            obtain ⟨segment, ⟨-, hv, found', hf, hsegment⟩, hkey⟩ := h
            obtain rfl := Except.ok.inj hf
            exact ⟨segment, hsegment, Prod.ext hkey.symm (Except.ok.inj hv)⟩

/-- The entries of the store under the method, as the rows have them. -/
theorem Consistent.get_iff (h : Consistent t ns index rows store) {k v : Bytes} :
    accessFace ns index <+: k ∧ store.get k = some v ↔
      ∃ pkey document segment, rows.get pkey = some document ∧
        Makes t.schema.toCollectionSchema index document segment v ∧
          k = accessFace ns index ++ (segment ++ pkey) := by
  constructor
  · intro hk
    obtain ⟨pkey, document, entries, hrow, hentries, hmem⟩ := h.derived k v hk.1 hk.2
    obtain ⟨segment, hmakes, hkey⟩ := (mem_methodEntries hentries).mp hmem
    exact ⟨pkey, document, segment, hrow, hmakes, hkey⟩
  · intro hk
    obtain ⟨pkey, document, segment, hrow, hmakes, rfl⟩ := hk
    obtain ⟨entries, hentries, hstored⟩ := h.indexed pkey document hrow
    have hmem : (accessFace ns index ++ (segment ++ pkey), v) ∈ entries :=
      (mem_methodEntries hentries).mpr ⟨segment, hmakes, rfl⟩
    exact ⟨List.prefix_append _ _, hstored _ hmem⟩

/-- The store's entries whose segment passes. -/
def hits (t : DeclaredTable) (ns : Bytes) (index : Access) (store : Keyspace)
    (test : Bytes → Bool) : List (Bytes × Bytes) :=
  store.entries.filter fun e => (accessFace ns index).isPrefixOf e.1 &&
    test (between (accessFace ns index).length t.schema.keyLen e.1)

/-- The row and the segment an entry's key spells. -/
def entryOf (t : DeclaredTable) (ns : Bytes) (index : Access) (rows : SortedMap Bytes ValueMap)
    (e : Bytes × Bytes) : Entry :=
  let pkey := e.1.drop (e.1.length - t.schema.keyLen)
  ⟨pkey, between (accessFace ns index).length t.schema.keyLen e.1,
    (rows.get pkey).getD SortedMap.empty⟩

theorem entryOf_key (h : Consistent t ns index rows store) {pkey : Bytes} (segment v : Bytes)
    {document : ValueMap} (hrow : rows.get pkey = some document) :
    entryOf t ns index rows (accessFace ns index ++ (segment ++ pkey), v)
      = ⟨pkey, segment, document⟩ := by
  have hlen := (h.stored pkey document hrow).1
  have htail : (accessFace ns index ++ (segment ++ pkey)).drop
      ((accessFace ns index ++ (segment ++ pkey)).length - t.schema.keyLen) = pkey := by
    rw [← List.append_assoc]
    refine List.drop_left' ?_
    simp only [List.length_append]
    omega
  have hsegment : between (accessFace ns index).length t.schema.keyLen
      (accessFace ns index ++ (segment ++ pkey)) = segment := by
    rw [← hlen, between_append]
  unfold entryOf
  dsimp only
  rw [htail, hsegment, hrow]
  rfl

/-- A hit is an entry of a row. -/
theorem Consistent.hit (h : Consistent t ns index rows store) {test : Bytes → Bool}
    {e : Bytes × Bytes} (he : e ∈ hits t ns index store test) :
    ∃ pkey document segment, rows.get pkey = some document ∧
      Makes t.schema.toCollectionSchema index document segment e.2 ∧ test segment = true ∧
        e.1 = accessFace ns index ++ (segment ++ pkey) ∧
          entryOf t ns index rows e = ⟨pkey, segment, document⟩ := by
  unfold hits at he
  rw [List.mem_filter, Bool.and_eq_true, List.isPrefixOf_iff_prefix] at he
  obtain ⟨hmem, hface, htest⟩ := he
  have hget : store.get e.1 = some e.2 := (SortedMap.get_eq_some_iff _ _ _).mpr hmem
  obtain ⟨pkey, document, segment, hrow, hmakes, hkey⟩ := h.get_iff.mp ⟨hface, hget⟩
  have hentry : entryOf t ns index rows e = ⟨pkey, segment, document⟩ := by
    rw [← entryOf_key h segment e.2 hrow, ← hkey]
  refine ⟨pkey, document, segment, hrow, hmakes, ?_, hkey, hentry⟩
  rw [hkey, ← (h.stored pkey document hrow).1, between_append] at htest
  exact htest

/-- **The hits are the entries of the rows**, in order. -/
theorem Consistent.listed (h : Consistent t ns index rows store) (test : Bytes → Bool) :
    Listed t index rows test ((hits t ns index store test).map (entryOf t ns index rows)) where
  ascending := by
    rw [List.pairwise_map]
    have hsorted : (hits t ns index store test).Pairwise fun d e => d.1 < e.1 :=
      store.sorted.filter _
    refine hsorted.imp_of_mem fun {d e} hd he hlt => ?_
    obtain ⟨pkey, document, segment, -, -, -, hkey, hentry⟩ := h.hit hd
    obtain ⟨pkey', document', segment', -, -, -, hkey', hentry'⟩ := h.hit he
    rw [hentry, hentry']
    rw [hkey, hkey'] at hlt
    exact (append_lt_append_iff _ _ _).mp hlt
  mem := by
    intro e
    rw [List.mem_map]
    constructor
    · intro he
      obtain ⟨d, hd, rfl⟩ := he
      obtain ⟨pkey, document, segment, hrow, hmakes, htest, -, hentry⟩ := h.hit hd
      rw [hentry]
      exact ⟨hrow, ⟨d.2, hmakes⟩, htest⟩
    · intro he
      obtain ⟨hrow, ⟨value, hmakes⟩, htest⟩ := he
      obtain ⟨pkey, segment, document⟩ := e
      obtain ⟨hface, hget⟩ := h.get_iff.mpr ⟨pkey, document, segment, hrow, hmakes, rfl⟩
      refine ⟨(accessFace ns index ++ (segment ++ pkey), value), ?_, entryOf_key h segment value hrow⟩
      unfold hits
      rw [List.mem_filter, Bool.and_eq_true, List.isPrefixOf_iff_prefix]
      refine ⟨(SortedMap.get_eq_some_iff _ _ _).mp hget, hface, ?_⟩
      rw [← (h.stored pkey document hrow).1, between_append]
      exact htest

/-! ## What the scans find -/

theorem Consistent.room (h : Consistent t ns index rows store) {e : Bytes × Bytes}
    (he : e ∈ store.entries) (hface : accessFace ns index <+: e.1) :
    (accessFace ns index).length + t.schema.keyLen ≤ e.1.length := by
  have hget : store.get e.1 = some e.2 := (SortedMap.get_eq_some_iff _ _ _).mpr he
  obtain ⟨pkey, document, segment, hrow, -, hkey⟩ := h.get_iff.mp ⟨hface, hget⟩
  rw [hkey, ← (h.stored pkey document hrow).1]
  simp only [List.length_append]
  omega

/-- The probe is passed to the engine exactly when it keeps to its head. -/
theorem entryScanPrefix_ends (ns : Bytes) (hpossible : Possible t.schema.toCollectionSchema index probe)
    (hkind : ∀ path ty, index.kind ≠ .path path ty) :
    (HeadAdmits t.schema.toCollectionSchema index probe →
      entryScanPrefix t.schema.toCollectionSchema ns index probe
        = .ok (accessFace ns index ++ probe)) ∧
    (¬ HeadAdmits t.schema.toCollectionSchema index probe →
      entryScanPrefix t.schema.toCollectionSchema ns index probe = .error .probeExceeds) := by
  obtain ⟨document, found, segment, hfound, -, -⟩ := hpossible
  have hplain : (∀ derive, index.kind ≠ .func derive) →
      fieldsWidth t.schema.toCollectionSchema index
        = .ok (fixedWidth t.schema.toCollectionSchema index.fields) := by
    intro hfunc
    have hfields : (fieldsBytes t.schema.toCollectionSchema index document).map
        (fun segment => [segment]) = .ok found := by
      unfold segments at hfound
      cases hk : index.kind with
      | func derive => exact absurd hk (hfunc derive)
      | plain | partialIf admits | path path ty =>
        rw [hk] at hfound
        exact hfound
    unfold fieldsBytes at hfields
    unfold fieldsWidth
    cases horder : checkFieldOrder t.schema.toCollectionSchema index.fields with
    | error e =>
      rw [horder] at hfields
      cases hfields
    | ok u => exact headWidth_eq (ordered_of_check horder)
  unfold entryScanPrefix HeadAdmits
  cases hk : index.kind with
  | func derive => exact ⟨fun _ => rfl, fun h => absurd trivial h⟩
  | path path ty => exact absurd hk (hkind path ty)
  | plain | partialIf admits =>
    have hwidth := hplain fun derive h => by rw [hk] at h; cases h
    rw [hwidth]
    refine ⟨fun h => ?_, fun h => ?_⟩
    · refine if_neg fun hpast => ?_
      rcases h with hle | halone
      · omega
      · exact hpast.2 halone
    · exact if_pos ⟨not_le.mp fun hle => h (Or.inl hle), fun halone => h (Or.inr halone)⟩

/-- The loop decodes what it lets through. -/
theorem filteredLoop_eq (t : DeclaredTable) (exact : Bool) (ls : List Bytes) :
    ∃ keys, filteredLoop t.schema.toCollectionSchema exact ls = .answer keys ∧
      List.Forall₂ (fun left key => decodeKey t.schema.toCollectionSchema
        (left.drop (left.length - t.schema.keyLen)) = .answer key)
          (ls.filter (matched t.schema.keyLen exact)) keys := by
  induction ls with
  | nil => exact ⟨[], rfl, .nil⟩
  | cons left rest ih =>
    obtain ⟨keys, hkeys, hall⟩ := ih
    unfold filteredLoop
    by_cases hmatched : matched t.schema.keyLen exact left = true
    · have hlen : t.schema.keyLen ≤ left.length := by
        unfold matched at hmatched
        cases exact with
        | true =>
          have hlen : left.length = t.schema.keyLen := by simpa using hmatched
          omega
        | false => simpa using hmatched
      obtain ⟨key, hkey⟩ := decodeKey_answers t (left.drop (left.length - t.schema.keyLen))
        (by rw [List.length_drop]; omega)
      refine ⟨key :: keys, ?_, ?_⟩
      · rw [if_pos hmatched, tailMap, hkey, hkeys]
        rfl
      · rw [List.filter_cons_of_pos hmatched]
        exact .cons hkey hall
    · refine ⟨keys, ?_, ?_⟩
      · rw [if_neg hmatched, hkeys]
      · rw [List.filter_cons_of_neg hmatched]
        exact hall

/-- What is left of the keys behind the probe, and passes, is left of the hits. -/
theorem Consistent.suffixes_eq (h : Consistent t ns index rows store) (exact : Bool) :
    (store.suffixes (accessFace ns index ++ probe)).filter (matched t.schema.keyLen exact)
      = (hits t ns index store (if exact then (· = probe) else probe.isPrefixOf)).map
          fun e => e.1.drop (accessFace ns index ++ probe).length := by
  unfold Keyspace.suffixes hits
  rw [List.filter_map, List.filter_filter]
  refine congrArg _ (List.filter_congr fun e he => ?_)
  have hroom := h.room he
  rw [Bool.eq_iff_iff, Bool.and_eq_true, Bool.and_eq_true, List.isPrefixOf_iff_prefix,
    List.isPrefixOf_iff_prefix, Function.comp_apply]
  unfold matched
  rw [List.length_drop]
  cases exact with
  | true =>
    simp only [if_true, decide_eq_true_iff]
    rw [← consumes_iff hroom, and_comm]
    refine and_congr_right fun hcarries => ?_
    have hle := hcarries.length_le
    omega
  | false =>
    simp only [if_false, Bool.false_eq_true, decide_eq_true_iff, List.isPrefixOf_iff_prefix]
    rw [← carries_iff hroom, and_comm]
    refine and_congr_right fun hcarries => ?_
    have hle := hcarries.length_le
    omega

/-- A hit has room for a tail behind the probe. -/
theorem Consistent.hit_room (h : Consistent t ns index rows store) {test : Bytes → Bool}
    (htest : ∀ segment, test segment = true → probe <+: segment) {e : Bytes × Bytes}
    (he : e ∈ hits t ns index store test) :
    (accessFace ns index ++ probe).length + t.schema.keyLen ≤ e.1.length := by
  obtain ⟨pkey, document, segment, hrow, -, hpass, hkey, -⟩ := h.hit he
  have hle := (htest segment hpass).length_le
  rw [hkey, ← (h.stored pkey document hrow).1]
  simp only [List.length_append]
  omega

/-- The two list scans behind the check in front of them. -/
theorem Consistent.scan_eq (h : Consistent t ns index rows store) (exact : Bool)
    (hsplice : entryScanPrefix t.schema.toCollectionSchema ns index probe
      = .ok (accessFace ns index ++ probe)) :
    ∃ keys, scanAccessMethodFiltered store t.schema.toCollectionSchema ns index probe exact
        = .answer keys ∧
      List.Forall₂ (fun e key => decodeKey t.schema.toCollectionSchema e.pkey = .answer key)
        ((hits t ns index store (if exact then (· = probe) else probe.isPrefixOf)).map
          (entryOf t ns index rows)) keys := by
  obtain ⟨keys, hloop, hall⟩ :=
    filteredLoop_eq t exact (store.suffixes (accessFace ns index ++ probe))
  have hscan : VirtualStorage.scanSuffix store (accessFace ns index ++ probe)
      = .ok (store.suffixes (accessFace ns index ++ probe)) := rfl
  refine ⟨keys, ?_, ?_⟩
  · unfold scanAccessMethodFiltered
    rw [hsplice, Guarded.lift, Guarded.answer_bind, hscan]
    exact hloop
  · rw [h.suffixes_eq exact, List.forall₂_map_left_iff] at hall
    rw [List.forall₂_map_left_iff]
    have hroom : ∀ e ∈ hits t ns index store (if exact then (· = probe) else probe.isPrefixOf),
        (accessFace ns index ++ probe).length + t.schema.keyLen ≤ e.1.length := by
      refine fun e he => h.hit_room (fun segment hpass => ?_) he
      cases exact with
      | true =>
        have hsame : segment = probe := by simpa using hpass
        rw [hsame]
      | false => simpa using hpass
    refine ((List.forall₂_and_left _ _).mpr ⟨hroom, hall⟩).imp fun e key hkey => ?_
    obtain ⟨hlen, hkey⟩ := hkey
    rw [tail_drop hlen] at hkey
    exact hkey

/-- Cut to the long keys, the range of the probe is the hits. -/
theorem Consistent.range_long (h : Consistent t ns index rows store) :
    (store.range (accessFace ns index ++ probe) (prefixEnd (accessFace ns index ++ probe))).filter
        (fun e => (accessFace ns index ++ probe).length + t.schema.keyLen ≤ e.1.length)
      = hits t ns index store probe.isPrefixOf := by
  refine SortedMap.eq_of_mem_iff ((store.range_sorted _ _).filter _) (store.sorted.filter _) ?_
  intro e
  rw [List.mem_filter, decide_eq_true_iff, hits, List.mem_filter, Bool.and_eq_true,
    List.isPrefixOf_iff_prefix, List.isPrefixOf_iff_prefix]
  constructor
  · intro hin
    obtain ⟨hrange, hlen⟩ := hin
    obtain ⟨hmem, hcarries⟩ := mem_range_prefixEnd_iff.mp ⟨hrange, by omega⟩
    exact ⟨hmem, (Lib.carries_iff (h.room hmem)).mp ⟨hcarries, hlen⟩⟩
  · intro hhit
    obtain ⟨hmem, hsegment⟩ := hhit
    obtain ⟨hcarries, hlen⟩ := (Lib.carries_iff (h.room hmem)).mpr hsegment
    exact ⟨(mem_range_prefixEnd_iff.mpr ⟨hmem, hcarries⟩).1, hlen⟩

/-- What the covered scan hands to its loop. -/
def cutRange (store : Keyspace) (p : Bytes) : List (Bytes × Bytes) :=
  (store.range p (prefixEnd p)).map fun e => (e.1.drop (min p.length e.1.length), e.2)

/-- The covered loop decodes what is long enough, key and value. -/
theorem coveredLoop_eq (t : DeclaredTable) (index : Access) (items : List (Bytes × Bytes))
    (hread : ∀ item ∈ items, t.schema.keyLen ≤ item.1.length →
      ∃ c, decodeIncludes t.schema.toCollectionSchema index item.2 = .answer c) :
    ∃ pairs, coveredLoop t.schema.toCollectionSchema index items = .answer pairs ∧
      List.Forall₂ (fun item pair => decodeKey t.schema.toCollectionSchema
          (item.1.drop (item.1.length - t.schema.keyLen)) = .answer pair.1 ∧
          decodeIncludes t.schema.toCollectionSchema index item.2 = .answer pair.2)
        (items.filter fun item => t.schema.keyLen ≤ item.1.length) pairs := by
  induction items with
  | nil => exact ⟨[], rfl, .nil⟩
  | cons item rest ih =>
    obtain ⟨hitem, hread⟩ := List.forall_mem_cons.mp hread
    obtain ⟨pairs, hpairs, hall⟩ := ih hread
    unfold coveredLoop
    by_cases hlen : t.schema.keyLen ≤ item.1.length
    · obtain ⟨c, hc⟩ := hitem hlen
      obtain ⟨key, hkey⟩ := decodeKey_answers t (item.1.drop (item.1.length - t.schema.keyLen))
        (by rw [List.length_drop]; omega)
      refine ⟨(key, c) :: pairs, ?_, ?_⟩
      · rw [if_neg (by omega), tailMap, hkey, hc, hpairs]
        rfl
      · rw [List.filter_cons_of_pos (by simpa using hlen)]
        exact .cons ⟨hkey, hc⟩ hall
    · refine ⟨pairs, ?_, ?_⟩
      · rw [if_pos (by omega), hpairs]
      · rw [List.filter_cons_of_neg (by simpa using hlen)]
        exact hall

/-- With a key of no bytes the loop passes over nothing, so an answer is as long as its list. -/
theorem coveredLoop_length {items : List (Bytes × Bytes)} {pairs : List (ValueMap × ValueMap)}
    (hzero : t.schema.keyLen = 0)
    (h : coveredLoop t.schema.toCollectionSchema index items = .answer pairs) :
    pairs.length = items.length := by
  induction items generalizing pairs with
  | nil =>
    obtain rfl := Guarded.answer.inj h
    rfl
  | cons item rest ih =>
    unfold coveredLoop at h
    rw [if_neg (by omega)] at h
    obtain ⟨key, -, h⟩ := Guarded.bind_eq_answer.mp h
    obtain ⟨c, -, h⟩ := Guarded.bind_eq_answer.mp h
    obtain ⟨rest', hrest, h⟩ := Guarded.bind_eq_answer.mp h
    obtain rfl := Guarded.answer.inj h
    rw [List.length_cons, List.length_cons, ih hrest]

theorem scanCovered_loop
    (hsplice : entryScanPrefix t.schema.toCollectionSchema ns index probe
      = .ok (accessFace ns index ++ probe)) :
    scanAccessMethodCovered store t.schema.toCollectionSchema ns index probe
      = coveredLoop t.schema.toCollectionSchema index
          (cutRange store (accessFace ns index ++ probe)) := by
  unfold scanAccessMethodCovered
  rw [hsplice, Guarded.lift, Guarded.answer_bind, scanSuffixKv_keyspace]
  rfl

/-- The long ones among the cut keys are the hits. -/
theorem Consistent.cutRange_long (h : Consistent t ns index rows store)
    (hwide : 0 < t.schema.keyLen ∨ Reaches store (accessFace ns index ++ probe)) :
    (cutRange store (accessFace ns index ++ probe)).filter
        (fun item => t.schema.keyLen ≤ item.1.length)
      = (hits t ns index store probe.isPrefixOf).map fun e =>
          (e.1.drop (accessFace ns index ++ probe).length, e.2) := by
  rw [← h.range_long, cutRange, List.filter_map]
  have hlong : ∀ e ∈ store.range (accessFace ns index ++ probe)
      (prefixEnd (accessFace ns index ++ probe)),
      decide (t.schema.keyLen ≤ (e.1.drop (min (accessFace ns index ++ probe).length
        e.1.length)).length)
      = decide ((accessFace ns index ++ probe).length + t.schema.keyLen ≤ e.1.length) := by
    intro e he
    obtain ⟨hget, hlo, hhi⟩ := (SortedMap.mem_range _ _ _ _).mp he
    rw [decide_eq_decide, List.length_drop]
    rcases hwide with hpos | hreaches
    · omega
    · have hlen := hreaches e.1 e.2 hget hlo hhi
      omega
  refine (congrArg _ (List.filter_congr hlong)).trans (List.map_congr_left fun e he => ?_)
  have hlen := (List.mem_filter.mp he).2
  rw [decide_eq_true_iff] at hlen
  rw [Nat.min_eq_left (by omega)]

/-- The covered scan finds what the scan finds. -/
theorem Consistent.covered_eq (h : Consistent t ns index rows store)
    (hsplice : entryScanPrefix t.schema.toCollectionSchema ns index probe
      = .ok (accessFace ns index ++ probe))
    (hwide : 0 < t.schema.keyLen ∨ Reaches store (accessFace ns index ++ probe)) :
    ∃ pairs, scanAccessMethodCovered store t.schema.toCollectionSchema ns index probe
        = .answer pairs ∧
      List.Forall₂ (fun e pair => decodeKey t.schema.toCollectionSchema e.pkey = .answer pair.1 ∧
        Covers index e.document pair.2)
        ((hits t ns index store probe.isPrefixOf).map (entryOf t ns index rows)) pairs := by
  have hreads : ∀ e ∈ hits t ns index store probe.isPrefixOf, ∃ c,
      decodeIncludes t.schema.toCollectionSchema index e.2 = .answer c ∧
        Covers index (entryOf t ns index rows e).document c := by
    intro e he
    obtain ⟨pkey, document, segment, hrow, hmakes, -, -, hentry⟩ := h.hit he
    obtain ⟨-, payload, hpayload, -⟩ := h.stored pkey document hrow
    rw [hentry]
    exact decodeIncludes_eq ⟨payload, hpayload⟩ hmakes.2.1
  have hlong := h.cutRange_long hwide
  obtain ⟨pairs, hloop, hall⟩ := coveredLoop_eq t index
    (cutRange store (accessFace ns index ++ probe)) fun item hitem hlen => by
      have hmem : item ∈ (cutRange store (accessFace ns index ++ probe)).filter
          fun item => t.schema.keyLen ≤ item.1.length :=
        List.mem_filter.mpr ⟨hitem, by simpa using hlen⟩
      rw [hlong] at hmem
      obtain ⟨e, he, rfl⟩ := List.mem_map.mp hmem
      obtain ⟨c, hc, -⟩ := hreads e he
      exact ⟨c, hc⟩
  rw [hlong, List.forall₂_map_left_iff] at hall
  refine ⟨pairs, (scanCovered_loop hsplice).trans hloop, ?_⟩
  rw [List.forall₂_map_left_iff]
  have hroom : ∀ e ∈ hits t ns index store probe.isPrefixOf,
      (accessFace ns index ++ probe).length + t.schema.keyLen ≤ e.1.length ∧ ∃ c,
        decodeIncludes t.schema.toCollectionSchema index e.2 = .answer c ∧
          Covers index (entryOf t ns index rows e).document c :=
    fun e he => ⟨h.hit_room (fun segment hpass => by simpa using hpass) he, hreads e he⟩
  refine ((List.forall₂_and_left _ _).mpr ⟨hroom, hall⟩).imp fun e pair hpair => ?_
  obtain ⟨⟨hlen, c, hc, hcovers⟩, hkey, hvalue⟩ := hpair
  obtain rfl := Guarded.answer.inj (hc.symm.trans hvalue)
  rw [tail_drop hlen] at hkey
  exact ⟨hkey, hcovers⟩

/-- With a key of no bytes, an exact covered scan has passed over nothing. -/
theorem Consistent.reaches_of_covered (h : Consistent t ns index rows store)
    (hsplice : entryScanPrefix t.schema.toCollectionSchema ns index probe
      = .ok (accessFace ns index ++ probe)) (hzero : t.schema.keyLen = 0)
    {pairs : List (ValueMap × ValueMap)}
    (hcovered : scanAccessMethodCovered store t.schema.toCollectionSchema ns index probe
      = .answer pairs)
    (hlen : pairs.length = (hits t ns index store probe.isPrefixOf).length) :
    Reaches store (accessFace ns index ++ probe) := by
  intro k v hget hlo hhi
  rw [scanCovered_loop hsplice] at hcovered
  have hall := coveredLoop_length hzero hcovered
  rw [hlen, cutRange, List.length_map, ← h.range_long, List.length_filter_eq_length_iff] at hall
  have hk := hall (k, v) ((SortedMap.mem_range _ _ _ _).mpr ⟨hget, hlo, hhi⟩)
  rw [decide_eq_true_iff] at hk
  dsimp only at hk
  omega

/-- **When the scans are exact.** -/
theorem access_scans_iff (t : DeclaredTable) (ns : Bytes) (index : Access)
    (rows : SortedMap Bytes ValueMap) (store : Keyspace) (probe : Bytes)
    (hkind : ∀ path ty, index.kind ≠ .path path ty)
    (hrows : Consistent t ns index rows store)
    (hpossible : Possible t.schema.toCollectionSchema index probe) :
    ScansExact t ns index rows store probe ↔
      HeadAdmits t.schema.toCollectionSchema index probe ∧
        (0 < t.schema.keyLen ∨ Reaches store (accessFace ns index ++ probe)) := by
  obtain ⟨hadmits, hrefused⟩ := entryScanPrefix_ends ns hpossible hkind
  constructor
  · intro h
    obtain ⟨es, keys, pairs, -, -, hscan, hfst, -, hcovered⟩ := h.leading
    by_cases hhead : HeadAdmits t.schema.toCollectionSchema index probe
    · refine ⟨hhead, ?_⟩
      rcases Nat.eq_zero_or_pos t.schema.keyLen with hzero | hpos
      · obtain ⟨keys', hscan', hall⟩ := hrows.scan_eq false (hadmits hhead)
        obtain rfl := Guarded.answer.inj (hscan.symm.trans hscan')
        refine Or.inr (hrows.reaches_of_covered (hadmits hhead) hzero hcovered ?_)
        have hlen := hall.length_eq
        rw [List.length_map, if_neg Bool.false_ne_true] at hlen
        rw [hlen, ← hfst, List.length_map]
      · exact Or.inl hpos
    · rw [scanAccessMethod, scanAccessMethodFiltered, hrefused hhead] at hscan
      cases hscan
  · intro h
    obtain ⟨hhead, hwide⟩ := h
    obtain ⟨keys, hscan, hkeys⟩ := hrows.scan_eq false (hadmits hhead)
    obtain ⟨keys', hexact, hkeys'⟩ := hrows.scan_eq true (hadmits hhead)
    obtain ⟨pairs, hcovered, hpairs⟩ := hrows.covered_eq (hadmits hhead) hwide
    refine ⟨⟨_, keys, pairs, hrows.listed _, hkeys, hscan, ?_, hpairs.imp fun _ _ h => h.2,
      hcovered⟩, ⟨_, keys', hrows.listed _, hkeys', hexact⟩⟩
    have hfst : List.Forall₂ (fun e key => decodeKey t.schema.toCollectionSchema e.pkey = .answer key)
        ((hits t ns index store probe.isPrefixOf).map (entryOf t ns index rows))
        (pairs.map Prod.fst) :=
      List.forall₂_map_right_iff.mpr (hpairs.imp fun _ _ h => h.1)
    exact List.right_unique_forall₂' (fun _ _ _ h h' => Guarded.answer.inj (h.symm.trans h'))
      hfst hkeys

end

/-- A number in the key; in the payload a number and a text. -/
def labelTable : DeclaredTable where
  keyLen := 1
  keyFields := [⟨"id", .u8, 1⟩]
  nsPrefix := [0, 1]
  layoutVersion := 1
  hotWidth := 1
  fields := [⟨"kind", .u8, 1⟩, ⟨"name", .str, 0⟩]
  defaults := []
  fieldContracts := []
  indexDecls := []
  faces := []
  keyKinds := by decide
  kinds := by decide
  keyLen_eq := rfl
  hotWidth_eq := rfl

/-- The two fields of the payload, the text last, and it is included. -/
def labelIndex : Access := ⟨⟨0x3001, ["kind", "name"], ["name"], .plain, 0⟩, by decide⟩

def labelRow : ValueMap := (SortedMap.empty.insert "kind" (.u8 5)).insert "name" (.str "xy")

def labelRows : SortedMap Bytes ValueMap := SortedMap.empty.insert [1] labelRow

/-- The row, and its entry. -/
def labelStore : Keyspace :=
  (SortedMap.empty.insert [0, 1, 0, 0, 1] [1, 0, 1, 5, 1, 2, 120, 121]).insert
    [0, 1, 0x30, 1, 5, 120, 121, 1] [120, 121]

theorem labelEntries : methodEntries labelTable.schema.toCollectionSchema [0, 1] labelIndex [1]
    labelRow = .ok [([0, 1, 0x30, 1, 5, 120, 121, 1], [120, 121])] := rfl

theorem labelConsistent : Consistent labelTable [0, 1] labelIndex labelRows labelStore := by
  have hrows : ∀ pkey document, labelRows.get pkey = some document →
      pkey = [1] ∧ document = labelRow := by
    intro pkey document h
    unfold labelRows at h
    rw [SortedMap.get_insert] at h
    by_cases hp : pkey = [1]
    · rw [if_pos hp] at h
      exact ⟨hp, (Option.some.inj h).symm⟩
    · rw [if_neg hp, SortedMap.get_empty] at h
      cases h
  refine ⟨fun pkey document h => ?_, fun pkey document h => ?_, fun k v hface hget => ?_⟩
  · obtain ⟨rfl, rfl⟩ := hrows pkey document h
    exact ⟨rfl, _, rfl, rfl⟩
  · obtain ⟨rfl, rfl⟩ := hrows pkey document h
    refine ⟨_, labelEntries, fun e he => ?_⟩
    obtain rfl := List.mem_singleton.mp he
    rfl
  · refine ⟨[1], labelRow, _, rfl, labelEntries, ?_⟩
    unfold labelStore at hget
    rw [SortedMap.get_insert, SortedMap.get_insert, SortedMap.get_empty] at hget
    by_cases hentry : k = [0, 1, 0x30, 1, 5, 120, 121, 1]
    · rw [if_pos hentry] at hget
      obtain rfl := Option.some.inj hget
      rw [hentry]
      exact List.mem_singleton_self _
    · rw [if_neg hentry] at hget
      by_cases hrow : k = [0, 1, 0, 0, 1]
      · rw [hrow] at hface
        exact absurd hface (by decide)
      · rw [if_neg hrow] at hget
        cases hget

/-- **A probe into the text is refused**: the number and the first letter start the one segment
there is, and no scan for them answers. -/
theorem text_probe_refused : Consistent labelTable [0, 1] labelIndex labelRows labelStore ∧
    Possible labelTable.schema.toCollectionSchema labelIndex [5, 120] ∧
    ¬ ScansExact labelTable [0, 1] labelIndex labelRows labelStore [5, 120] := by
  refine ⟨labelConsistent, ⟨labelRow, [[5, 120, 121]], [5, 120, 121], rfl,
    List.mem_singleton_self _, by decide⟩, fun h => ?_⟩
  obtain ⟨es, keys, pairs, -, -, hscan, -⟩ := h.leading
  have hrefused : scanAccessMethod labelStore labelTable.schema.toCollectionSchema [0, 1]
      labelIndex [5, 120] = .refuse .probeExceeds := rfl
  rw [hrefused] at hscan
  cases hscan

def shelfRow (kind : UInt8) (name : String) : ValueMap :=
  (SortedMap.empty.insert "kind" (.u8 kind)).insert "name" (.str name)

/-- Two rows under one number, and one under another. -/
def shelfRows : SortedMap Bytes ValueMap :=
  ((SortedMap.empty.insert [1] (shelfRow 5 "xy")).insert [2] (shelfRow 5 "a")).insert [3]
    (shelfRow 6 "xy")

/-- The rows and their entries, which stand in the order of their texts. -/
def shelfStore : Keyspace :=
  SortedMap.ofList [([0, 1, 0, 0, 1], [1, 0, 1, 5, 1, 2, 120, 121]),
    ([0, 1, 0, 0, 2], [1, 0, 1, 5, 1, 1, 97]), ([0, 1, 0, 0, 3], [1, 0, 1, 6, 1, 2, 120, 121]),
    ([0, 1, 0x30, 1, 5, 97, 2], [97]), ([0, 1, 0x30, 1, 5, 120, 121, 1], [120, 121]),
    ([0, 1, 0x30, 1, 6, 120, 121, 3], [120, 121])]

theorem shelfRows_get {pkey : Bytes} {document : ValueMap} (h : shelfRows.get pkey = some document) :
    (pkey, document) = ([1], shelfRow 5 "xy") ∨ (pkey, document) = ([2], shelfRow 5 "a") ∨
      (pkey, document) = ([3], shelfRow 6 "xy") := by
  unfold shelfRows at h
  rw [SortedMap.get_insert, SortedMap.get_insert, SortedMap.get_insert, SortedMap.get_empty] at h
  split_ifs at h with h3 h2 h1
  · exact Or.inr (Or.inr (by rw [h3, Option.some.inj h]))
  · exact Or.inr (Or.inl (by rw [h2, Option.some.inj h]))
  · exact Or.inl (by rw [h1, Option.some.inj h])

theorem shelfConsistent : Consistent labelTable [0, 1] labelIndex shelfRows shelfStore := by
  have hentries : shelfStore.entries = [([0, 1, 0, 0, 1], [1, 0, 1, 5, 1, 2, 120, 121]),
      ([0, 1, 0, 0, 2], [1, 0, 1, 5, 1, 1, 97]), ([0, 1, 0, 0, 3], [1, 0, 1, 6, 1, 2, 120, 121]),
      ([0, 1, 0x30, 1, 5, 97, 2], [97]), ([0, 1, 0x30, 1, 5, 120, 121, 1], [120, 121]),
      ([0, 1, 0x30, 1, 6, 120, 121, 3], [120, 121])] := by
    decide
  refine ⟨fun pkey document h => ?_, fun pkey document h => ?_, fun k v hface hget => ?_⟩
  · rcases shelfRows_get h with heq | heq | heq
    all_goals
      obtain ⟨rfl, rfl⟩ := Prod.mk.inj heq
      exact ⟨rfl, _, rfl, rfl⟩
  · rcases shelfRows_get h with heq | heq | heq
    all_goals
      obtain ⟨rfl, rfl⟩ := Prod.mk.inj heq
      refine ⟨_, rfl, fun e he => ?_⟩
      obtain rfl := List.mem_singleton.mp he
      rfl
  · rw [SortedMap.get_eq_some_iff, hentries] at hget
    simp only [List.mem_cons, List.not_mem_nil, or_false] at hget
    rcases hget with heq | heq | heq | heq | heq | heq
    all_goals obtain ⟨rfl, rfl⟩ := Prod.mk.inj heq
    -- a row is under no face of the method
    · exact absurd hface (by decide)
    · exact absurd hface (by decide)
    · exact absurd hface (by decide)
    · exact ⟨[2], shelfRow 5 "a", _, rfl, rfl, List.mem_singleton_self _⟩
    · exact ⟨[1], shelfRow 5 "xy", _, rfl, rfl, List.mem_singleton_self _⟩
    · exact ⟨[3], shelfRow 6 "xy", _, rfl, rfl, List.mem_singleton_self _⟩

/-- The number alone finds its two rows, the later key first. -/
theorem number_probe_exact : ScansExact labelTable [0, 1] labelIndex shelfRows shelfStore [5] ∧
    hits labelTable [0, 1] labelIndex shelfStore [5].isPrefixOf
      = [([0, 1, 0x30, 1, 5, 97, 2], [97]), ([0, 1, 0x30, 1, 5, 120, 121, 1], [120, 121])] :=
  ⟨(access_scans_iff labelTable [0, 1] labelIndex shelfRows shelfStore [5]
    (fun _ _ h => by cases h) shelfConsistent
    ⟨shelfRow 5 "xy", [[5, 120, 121]], [5, 120, 121], rfl, List.mem_singleton_self _, by decide⟩).mpr
    ⟨Or.inl (by decide), Or.inl (by decide)⟩, by decide⟩

end Okm.Dynamic
