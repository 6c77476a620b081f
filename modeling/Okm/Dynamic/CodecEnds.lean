import Okm.Dynamic.EncodeEnds

/-!
# How the codec ends

`encode_fields` takes names in any order. What it is to give for them is the bytes of each
field, one behind the other (`FieldsExact`). Its assertion holds a name with a width to the
offset of its field, so it does that for names that come as the fields of one segment do, and
for texts in front of them only where they are empty.

`codec_ends` has the five entry points together.
-/

namespace Okm.Dynamic

open Lib Model
open Guarded (answer abort FirstStop)

/-! ## Names in any order -/

/-- The field of a name and the value the gate lets through for it. -/
def Named (schema : CollectionSchema) (values : ValueMap) (name : String) (f : FieldSchema)
    (v : Value) : Prop :=
  findField schema name = some f ∧ given values f = some v

/-- A value that is written: a text where the field has no width, else one that fits. -/
def Written (f : FieldSchema) (v : Value) : Prop :=
  (f.width = 0 → ∃ s, v = .str s) ∧ (f.width ≠ 0 → Fits f v)

/-- How far a written value carries the end: an id by one byte, a text by its own. -/
def span (f : FieldSchema) (v : Value) : Nat :=
  match f.ty, v with
  | .vocab _, _ => 1
  | .str, .str s => (strBytes s).length
  | _, _ => f.width

/-- A name is not one that `encode_fields` aborts on at a position: its field has no width, or
stands there with a value that quantises. -/
def NamePlaced (schema : CollectionSchema) (values : ValueMap) (pos : Nat) (name : String) : Prop :=
  ∀ f v, Named schema values name f v → f.width ≠ 0 → pos = f.offset ∧ ¬ Unquantized f v

/-- No name aborts, as far as the names before it are written. -/
def NamesPlaced (schema : CollectionSchema) (values : ValueMap) : Nat → List String → Prop
  | _, [] => True
  | pos, name :: names => NamePlaced schema values pos name ∧
      ∀ f v, Named schema values name f v → Written f v →
        NamesPlaced schema values (pos + span f v) names

/-- Every name is of a field and a value that is written. -/
def AllWritten (schema : CollectionSchema) (values : ValueMap) (names : List String) : Prop :=
  ∀ name ∈ names, ∃ f v, Named schema values name f v ∧ Written f v

/-- No name is of an id that is cut to a byte. -/
def NoneWide (schema : CollectionSchema) (names : List String) : Prop :=
  ∀ name ∈ names, ∀ f, findField schema name = some f → ¬ Wide f

/-- The bytes of a name, as `image` has them of its field and value. -/
def bytesOf (image : FieldSchema → Value → Bytes) (schema : CollectionSchema)
    (values : ValueMap) (name : String) : Bytes :=
  ((findField schema name).bind fun f => (given values f).map (image f)).getD []

/-- What `encode_fields` is to do: refuse, or give the bytes of each field, one behind the
other. -/
def FieldsExact (schema : CollectionSchema) (values : ValueMap) (names : List String) : Prop :=
  (∃ e, encodeFields schema names values = .refuse e) ∨
    encodeFields schema names values = answer (names.flatMap (bytesOf storageBytes schema values))

theorem Named.bytesOf_eq {schema : CollectionSchema} {values : ValueMap} {name : String}
    {f : FieldSchema} {v : Value} (h : Named schema values name f v)
    (image : FieldSchema → Value → Bytes) : bytesOf image schema values name = image f v := by
  rw [bytesOf, h.1, Option.bind_some, h.2]
  rfl

theorem Named.unique {schema : CollectionSchema} {values : ValueMap} {name : String}
    {f f' : FieldSchema} {v v' : Value} (h : Named schema values name f v)
    (h' : Named schema values name f' v') : f = f' ∧ v = v' := by
  obtain rfl := Option.some.inj (h.1.symm.trans h'.1)
  exact ⟨rfl, Option.some.inj (h.2.symm.trans h'.2)⟩

/-- A field of an exported declaration is static or has no width. -/
theorem field_static (t : DeclaredTable) {name : String} {f : FieldSchema}
    (h : findField t.schema.toCollectionSchema name = some f) :
    (f.width ≠ 0 → Static f) ∧ (f.width = 0 → sized f.ty 0 = true) := by
  have hmem : f ∈ t.schema.keyFields ++ t.schema.hotFields ++ t.schema.coldFields :=
    List.mem_of_find?_eq_some h
  rw [List.mem_append, List.mem_append] at hmem
  rcases hmem with (hkey | hhot) | hcold
  · have hstatic := (statics t).1 f hkey
    exact ⟨fun _ => hstatic, fun hzero => hzero ▸ hstatic.2⟩
  · have hstatic := (statics t).2 f hhot
    exact ⟨fun _ => hstatic, fun hzero => hzero ▸ hstatic.2⟩
  · obtain ⟨hkind, hzero, -⟩ := t.cold_sized hcold
    exact ⟨fun h => absurd hzero h, fun _ => hkind⟩

theorem span_eq {f : FieldSchema} {v : Value} (hf : Static f) (hv : Admitted f.ty v)
    (hfits : Fits f v) : (writtenBytes f v).length = span f v := by
  obtain ⟨hwide, hnarrow⟩ := length_writtenBytes hf hv hfits
  have hlen := length_storageBytes hf hv hfits
  by_cases hw : Wide f
  · rw [(hwide hw).1]
    unfold Wide at hw
    unfold span
    split at hw
    · rename_i idSlot hty
      rw [hty]
    · exact absurd hw id
  · rw [hnarrow hw, hlen]
    obtain ⟨hfixed, -⟩ := hf
    unfold Wide at hw
    unfold span
    cases hty : f.ty with
    | vocab idSlot =>
      rw [hty] at hw
      exact not_not.mp hw
    | str =>
      rw [hty] at hfixed
      cases hfixed
    | _ => rfl

/-- **What is written is the value's own bytes, and less of them only for a wide id.** -/
theorem Written.length {t : DeclaredTable} {values : ValueMap} {name : String} {f : FieldSchema}
    {v : Value} (h : Named t.schema.toCollectionSchema values name f v) (hw : Written f v) :
    (writtenBytes f v).length = span f v ∧
      (¬ Wide f → writtenBytes f v = storageBytes f v) ∧
      (writtenBytes f v).length ≤ (storageBytes f v).length ∧
      (Wide f → (writtenBytes f v).length < (storageBytes f v).length) := by
  have hv := (given_some h.2).2
  obtain ⟨hstatic, hzero⟩ := field_static t h.1
  by_cases hwidth : f.width = 0
  · obtain ⟨s, rfl⟩ := hw.1 hwidth
    have hty : f.ty = .str := by
      generalize f.ty = ty at hv
      cases hv
      rfl
    have hwide : ¬ Wide f := by simp [Wide, hty]
    have hown : writtenBytes f (.str s) = storageBytes f (.str s) := by
      unfold writtenBytes
      rw [hty]
    have hspan : span f (.str s) = (storageBytes f (.str s)).length := by
      unfold span storageBytes
      rw [hty]
    rw [hown]
    exact ⟨hspan.symm, fun _ => rfl, le_refl _, fun h => absurd h hwide⟩
  · have hf := hstatic hwidth
    have hfits := hw.2 hwidth
    have hlen := length_storageBytes hf hv hfits
    obtain ⟨hwide, hnarrow⟩ := length_writtenBytes hf hv hfits
    refine ⟨span_eq hf hv hfits, hnarrow, ?_, fun h => ?_⟩
    · by_cases h : Wide f
      · have := hwide h
        omega
      · rw [hnarrow h]
    · have := hwide h
      omega

/-- How one name ends behind `buf`. -/
structure NameEnds (schema : CollectionSchema) (values : ValueMap) (buf : Bytes) (name : String)
    (x : Codec Bytes) : Prop where
  aborts : x.Aborts ↔ ¬ NamePlaced schema values buf.length name
  answers : x.Answers → ∃ f v, Named schema values name f v ∧ Written f v
  writes : NamePlaced schema values buf.length name →
    ∀ f v, Named schema values name f v → Written f v → x = answer (buf ++ writtenBytes f v)

section

variable {schema : CollectionSchema} {values : ValueMap} {name : String} {f : FieldSchema}

/-- Without a field or a value there is nothing to write. -/
theorem nameEnds_refuse (hnone : ∀ f v, ¬ Named schema values name f v) (buf : Bytes)
    (e : CodecError) : NameEnds schema values buf name (.refuse e) where
  aborts := iff_of_false (by simp) (fun h => h fun f v hn => absurd hn (hnone f v))
  answers := fun h => absurd h (by simp)
  writes := fun _ f v hn => absurd hn (hnone f v)

theorem not_named (hfield : findField schema name = some f) (hv : given values f = none)
    (f' : FieldSchema) (v : Value) : ¬ Named schema values name f' v := by
  intro h
  obtain rfl := Option.some.inj (hfield.symm.trans h.1)
  rw [h.2] at hv
  cases hv

/-- The name of one field and value, so that its end can be told from these. -/
theorem nameEnds_of_named {v : Value} (hn : Named schema values name f v) {buf : Bytes}
    {x : Codec Bytes} (haborts : x.Aborts ↔ f.width ≠ 0 ∧ ¬ (buf.length = f.offset ∧
      ¬ Unquantized f v)) (hanswers : x.Answers → Written f v)
    (hwrites : (f.width ≠ 0 → buf.length = f.offset ∧ ¬ Unquantized f v) → Written f v →
      x = answer (buf ++ writtenBytes f v)) : NameEnds schema values buf name x := by
  have hplaced : NamePlaced schema values buf.length name ↔
      (f.width ≠ 0 → buf.length = f.offset ∧ ¬ Unquantized f v) := by
    constructor
    · exact fun h => h f v hn
    · intro h f' v' hn'
      obtain ⟨rfl, rfl⟩ := hn.unique hn'
      exact h
  refine ⟨?_, fun h => ⟨f, v, hn, hanswers h⟩, fun h f' v' hn' hw => ?_⟩
  · rw [haborts, hplaced, Classical.not_imp]
  · obtain ⟨rfl, rfl⟩ := hn.unique hn'
    exact hwrites (hplaced.mp h) hw

/-- A field of no width goes in as its text. -/
theorem encodeText_ends (hfield : findField schema name = some f) (hwidth : f.width = 0)
    (buf : Bytes) : NameEnds schema values buf name (encodeNamed schema values buf name) := by
  unfold encodeNamed
  rw [hfield]
  dsimp only
  rw [if_pos hwidth]
  cases hv : given values f with
  | none =>
    obtain ⟨e, he⟩ := given_none hv
    rw [he]
    exact nameEnds_refuse (not_named hfield hv) buf e
  | some v =>
    obtain ⟨hpair, hadmitted⟩ := given_some hv
    rw [hpair, Guarded.lift, Guarded.answer_bind]
    refine nameEnds_of_named ⟨hfield, hv⟩ ?_ ?_ ?_
    · refine iff_of_false ?_ (fun h => h.1 hwidth)
      split
      · simp
      · simp
    · intro h
      refine ⟨fun _ => ?_, fun hpos => absurd hwidth hpos⟩
      split at h
      · exact ⟨_, rfl⟩
      · simp at h
    · intro _ hw
      obtain ⟨s, rfl⟩ := hw.1 hwidth
      have hty : f.ty = .str := by
        generalize f.ty = ty at hadmitted
        cases hadmitted
        rfl
      unfold writtenBytes storageBytes
      rw [hty]

/-- A field with a width is held to its offset. -/
theorem encodePlaced_ends (hfield : findField schema name = some f) (hwidth : f.width ≠ 0)
    (hstatic : Static f) (buf : Bytes) :
    NameEnds schema values buf name (encodeNamed schema values buf name) := by
  obtain ⟨hnone, hsome⟩ := encodeField_ends values buf hstatic
  unfold encodeNamed
  rw [hfield]
  dsimp only
  rw [if_neg hwidth]
  cases hv : given values f with
  | none =>
    obtain ⟨e, he⟩ := hnone hv
    rw [he]
    exact nameEnds_refuse (not_named hfield hv) buf e
  | some v =>
    obtain ⟨haway, hhere⟩ := hsome v hv
    by_cases hplace : buf.length = f.offset
    · obtain ⟨habort, hanswer, himage⟩ := hhere hplace
      refine nameEnds_of_named ⟨hfield, hv⟩ ?_ ?_ ?_
      · rw [habort]
        simp [hplace, hwidth]
      · exact fun h => ⟨fun hz => absurd hz hwidth, fun _ => hanswer.mp h⟩
      · exact fun _ hw => himage (hw.2 hwidth)
    · rw [haway hplace]
      refine nameEnds_of_named ⟨hfield, hv⟩ ?_ ?_ ?_
      · simp [hplace, hwidth]
      · simp
      · exact fun h => absurd (h hwidth).1 hplace

end

/-- **How a name ends.** -/
theorem encodeNamed_ends (t : DeclaredTable) (values : ValueMap) (buf : Bytes) (name : String) :
    NameEnds t.schema.toCollectionSchema values buf name
      (encodeNamed t.schema.toCollectionSchema values buf name) := by
  cases hfield : findField t.schema.toCollectionSchema name with
  | none =>
    unfold encodeNamed
    rw [hfield]
    refine nameEnds_refuse (fun f v h => ?_) buf _
    rw [h.1] at hfield
    cases hfield
  | some f =>
    by_cases hwidth : f.width = 0
    · exact encodeText_ends hfield hwidth buf
    · exact encodePlaced_ends hfield hwidth ((field_static t hfield).1 hwidth) buf

/-- **How a list of names ends.** -/
theorem encodeNames_end (t : DeclaredTable) (values : ValueMap) (names : List String)
    (buf : Bytes) :
    ((names.foldlM (encodeNamed t.schema.toCollectionSchema values) buf).Aborts ↔
      ¬ NamesPlaced t.schema.toCollectionSchema values buf.length names) ∧
    ((names.foldlM (encodeNamed t.schema.toCollectionSchema values) buf).Answers →
      AllWritten t.schema.toCollectionSchema values names) ∧
    (NamesPlaced t.schema.toCollectionSchema values buf.length names →
      AllWritten t.schema.toCollectionSchema values names →
        names.foldlM (encodeNamed t.schema.toCollectionSchema values) buf = answer
          (buf ++ names.flatMap (bytesOf writtenBytes t.schema.toCollectionSchema values))) := by
  induction names generalizing buf with
  | nil => exact ⟨by simp [NamesPlaced], fun _ => by simp [AllWritten], fun _ _ => by simp⟩
  | cons name names ih =>
    obtain ⟨haborts, hanswers, hwrites⟩ := encodeNamed_ends t values buf name
    rw [List.foldlM_cons, NamesPlaced]
    by_cases hplaced : NamePlaced t.schema.toCollectionSchema values buf.length name
    · by_cases hname : ∃ f v, Named t.schema.toCollectionSchema values name f v ∧ Written f v
      · obtain ⟨f, v, hn, hw⟩ := hname
        obtain ⟨hlen, -⟩ := hw.length hn
        obtain ⟨haborts', hanswers', hwrites'⟩ := ih (buf ++ writtenBytes f v)
        -- what is placed behind depends on the one value that was written
        have hrest : (∀ f v, Named t.schema.toCollectionSchema values name f v → Written f v →
            NamesPlaced t.schema.toCollectionSchema values (buf.length + span f v) names) ↔
              NamesPlaced t.schema.toCollectionSchema values
                (buf ++ writtenBytes f v).length names := by
          rw [List.length_append, hlen]
          constructor
          · exact fun h => h f v hn hw
          · intro h f' v' hn' _
            obtain ⟨rfl, rfl⟩ := hn.unique hn'
            exact h
        rw [hwrites hplaced f v hn hw, Guarded.answer_bind, hrest]
        refine ⟨?_, fun h => ?_, fun hnames hall => ?_⟩
        · rw [haborts']
          simp [hplaced]
        · exact List.forall_mem_cons.mpr ⟨⟨f, v, hn, hw⟩, hanswers' h⟩
        · rw [hwrites' hnames.2 (List.forall_mem_cons.mp hall).2, List.flatMap_cons,
            hn.bytesOf_eq, List.append_assoc]
      · -- placed, but with nothing that can be written: refused
        cases hend : encodeNamed t.schema.toCollectionSchema values buf name with
        | answer out => exact absurd (hanswers ⟨out, hend⟩) hname
        | abort fault => exact absurd hplaced (haborts.mp ⟨fault, hend⟩)
        | refuse e =>
          refine ⟨iff_of_false (by simp) (fun h => h ⟨hplaced, fun f v hn hw => ?_⟩),
            fun h => ?_, fun _ hall => ?_⟩
          · exact absurd ⟨f, v, hn, hw⟩ hname
          · simp at h
          · exact absurd (List.forall_mem_cons.mp hall).1 hname
    · obtain ⟨fault, hend⟩ := haborts.mpr hplaced
      rw [hend, Guarded.abort_bind]
      exact ⟨iff_of_true (by simp) fun h => hplaced h.1, by simp, fun h => absurd h.1 hplaced⟩

/-- Where every name is written, the bytes are the fields' own unless an id is cut. -/
theorem written_eq_own (t : DeclaredTable) {values : ValueMap} {names : List String}
    (hall : AllWritten t.schema.toCollectionSchema values names) :
    names.flatMap (bytesOf writtenBytes t.schema.toCollectionSchema values)
        = names.flatMap (bytesOf storageBytes t.schema.toCollectionSchema values) ↔
      NoneWide t.schema.toCollectionSchema names := by
  have hlen : ∀ names', AllWritten t.schema.toCollectionSchema values names' →
      (names'.flatMap (bytesOf writtenBytes t.schema.toCollectionSchema values)).length ≤
        (names'.flatMap (bytesOf storageBytes t.schema.toCollectionSchema values)).length := by
    intro names' hall'
    induction names' with
    | nil => exact le_refl _
    | cons name names' ih =>
      obtain ⟨⟨f, v, hn, hw⟩, hall'⟩ := List.forall_mem_cons.mp hall'
      obtain ⟨-, -, hle, -⟩ := hw.length hn
      have hrest := ih hall'
      rw [List.flatMap_cons, List.flatMap_cons, hn.bytesOf_eq, hn.bytesOf_eq, List.length_append,
        List.length_append]
      omega
  induction names with
  | nil => simp [NoneWide]
  | cons name names ih =>
    obtain ⟨⟨f, v, hn, hw⟩, hall⟩ := List.forall_mem_cons.mp hall
    obtain ⟨-, hnarrow, -, hwide⟩ := hw.length hn
    have hcons : NoneWide t.schema.toCollectionSchema (name :: names) ↔
        ¬ Wide f ∧ NoneWide t.schema.toCollectionSchema names := by
      rw [NoneWide, List.forall_mem_cons]
      refine and_congr ⟨fun h => h f hn.1, fun h f' hf' => ?_⟩ Iff.rfl
      obtain rfl := Option.some.inj (hn.1.symm.trans hf')
      exact h
    rw [List.flatMap_cons, List.flatMap_cons, hn.bytesOf_eq, hn.bytesOf_eq, hcons]
    by_cases h : Wide f
    · refine iff_of_false (fun heq => ?_) (fun hc => hc.1 h)
      have hshort := hwide h
      have hrest := hlen names hall
      have htotal := congrArg List.length heq
      rw [List.length_append, List.length_append] at htotal
      omega
    · rw [hnarrow h, List.append_cancel_left_eq]
      simp only [h, not_false_eq_true, true_and]
      exact ih hall

/-- **The names `encode_fields` keeps its word on.** -/
theorem encodeFields_exact (t : DeclaredTable) (values : ValueMap) (names : List String) :
    FieldsExact t.schema.toCollectionSchema values names ↔
      NamesPlaced t.schema.toCollectionSchema values 0 names ∧
        (AllWritten t.schema.toCollectionSchema values names →
          NoneWide t.schema.toCollectionSchema names) := by
  obtain ⟨haborts, hanswers, hwrites⟩ := encodeNames_end t values names []
  unfold FieldsExact
  change _ ↔ NamesPlaced t.schema.toCollectionSchema values ([] : Bytes).length names ∧ _
  rw [show encodeFields t.schema.toCollectionSchema names values
    = names.foldlM (encodeNamed t.schema.toCollectionSchema values) [] from rfl]
  by_cases hplaced : NamesPlaced t.schema.toCollectionSchema values ([] : Bytes).length names
  · by_cases hall : AllWritten t.schema.toCollectionSchema values names
    · rw [hwrites hplaced hall, List.nil_append, ← written_eq_own t hall]
      constructor
      · intro h
        rcases h with ⟨e, h⟩ | h
        · cases h
        · exact ⟨hplaced, fun _ => Guarded.answer.inj h⟩
      · exact fun h => Or.inr (congrArg answer (h.2 hall))
    · cases hend : names.foldlM (encodeNamed t.schema.toCollectionSchema values) [] with
      | answer out => exact absurd (hanswers ⟨out, hend⟩) hall
      | abort fault => exact absurd hplaced (haborts.mp ⟨fault, hend⟩)
      | refuse e => exact iff_of_true (Or.inl ⟨e, rfl⟩) ⟨hplaced, fun h => absurd h hall⟩
  · obtain ⟨fault, hend⟩ := haborts.mpr hplaced
    rw [hend]
    refine iff_of_false (fun h => ?_) (fun h => hplaced h.1)
    rcases h with ⟨e, h⟩ | h
    · cases h
    · cases h

/-! ## The entry points -/

/-- What the codec keeps its word on for one table: a payload that decodes or is refused, a key
likewise, a map that is encoded or refused as payload and as key, and names that give their
fields' bytes or are refused. -/
structure CodecEnds (t : DeclaredTable) : Prop where
  decodesPayload : ∀ bytes, ¬ (decodePayload t.schema.toCollectionSchema bytes).Aborts ↔
    ¬ PayloadOverflows t.schema.toCollectionSchema bytes
  decodesKey : ∀ bytes, ¬ (decodeKey t.schema.toCollectionSchema bytes).Aborts
  encodesPayload : ∀ values, ¬ (encodePayload t.schema values).Aborts ↔
    ¬ PayloadUnwritten t.schema.toCollectionSchema values
  encodesKey : ∀ values, ¬ (encodeKey t.schema.toCollectionSchema values).Aborts ↔
    ¬ FieldsOverflow True values t.schema.keyFields
  encodesFields : ∀ values names, FieldsExact t.schema.toCollectionSchema values names ↔
    NamesPlaced t.schema.toCollectionSchema values 0 names ∧
      (AllWritten t.schema.toCollectionSchema values names →
        NoneWide t.schema.toCollectionSchema names)

/-- **What the codec survives**, entry point by entry point. -/
theorem codec_ends (t : DeclaredTable) : CodecEnds t where
  decodesPayload bytes := not_congr (decodePayload_ends t bytes)
  decodesKey := decodeKey_ends t
  encodesPayload values := not_congr (encodePayload_ends t values)
  encodesKey values := not_congr (encodeKey_ends t values)
  encodesFields := encodeFields_exact t

/-- A key of a number and an id of two bytes; in the payload an offset from the last second
and a number of any width. -/
def stampTable : DeclaredTable where
  keyLen := 6
  keyFields := [⟨"id", .u32, 4⟩, ⟨"kind", .vocab 3, 2⟩]
  nsPrefix := [0, 1]
  layoutVersion := 1
  hotWidth := 4
  fields := [⟨"at", .offset 9223372036854775807, 4⟩, ⟨"hits", .varInt, 0⟩]
  defaults := []
  fieldContracts := []
  indexDecls := []
  faces := []
  keyKinds := by decide
  kinds := by decide
  keyLen_eq := rfl
  hotWidth_eq := rfl

def stampSchema : CollectionSchema := stampTable.schema.toCollectionSchema

def stampValues : ValueMap :=
  (((SortedMap.empty.insert "id" (.u32 7)).insert "kind" (.u8 1)).insert "at"
    (.i64 9223372036854775807)).insert "hits" (.u64 562949953421312)

/-- **Not survived**: a second past the last one, a frame of `2 ^ 64 - 1` bytes, a number of
width eight, to be decoded or to be encoded, and a key with the id; and the fields of the key
in another order are not their bytes. -/
theorem stamp_faults :
    (decodePayload stampSchema [1, 0, 4, 0, 0, 0, 1]).Aborts ∧
      (decodePayload stampSchema ([1, 0, 0, 1] ++ List.replicate 9 255)).Aborts ∧
      (decodePayload stampSchema [1, 0, 0, 1, 8, 254, 0, 0, 0, 0, 0, 0, 0]).Aborts ∧
      (encodePayload stampTable.schema stampValues).Aborts ∧
      (encodeKey stampSchema stampValues).Aborts ∧
      ¬ FieldsExact stampSchema stampValues ["kind", "id"] := by
  refine ⟨(decodePayload_ends stampTable _).mpr ?_, (decodePayload_ends stampTable _).mpr ?_,
    (decodePayload_ends stampTable _).mpr ?_, ⟨.overflow, rfl⟩, ⟨.assertion, rfl⟩, fun h => ?_⟩
  · have hpast : HotOverflows stampSchema [0, 0, 0, 1] :=
      ⟨_, List.mem_cons_self, by decide, by unfold Overflows; decide⟩
    exact ⟨1, 0, 4, [0, 0, 0, 1], rfl, by decide, by decide, Or.inl hpast⟩
  · have hlong : splitCold 13 (1 :: List.replicate 9 255) = ([], .beyond) := by
      have hlen : takeLen (List.replicate 9 255) = some (18446744073709551615, 9) := by decide
      rw [splitCold, if_neg (by decide), hlen]
      exact if_pos (by decide)
    have hpast : ColdOverflows stampSchema 13 (1 :: List.replicate 9 255) := by
      refine Or.inr ⟨fun frame hframe => ?_, congrArg Prod.snd hlong⟩
      rw [hlong] at hframe
      cases hframe
    exact ⟨1, 0, 0, 1 :: List.replicate 9 255, rfl, by decide, by decide, Or.inr hpast⟩
  · have hframe : (splitCold 13 [1, 8, 254, 0, 0, 0, 0, 0, 0, 0]).1
        = [(1, [254, 0, 0, 0, 0, 0, 0, 0])] := by
      have hlen : takeLen [8, 254, 0, 0, 0, 0, 0, 0, 0] = some (8, 1) := by decide
      have hnil : splitCold 13 [] = ([], .done) := by rw [splitCold]
      rw [splitCold, if_neg (by decide), hlen]
      exact congrArg _ (congrArg Prod.fst hnil)
    have hpast : ColdOverflows stampSchema 13 [1, 8, 254, 0, 0, 0, 0, 0, 0, 0] := by
      refine Or.inl ?_
      rw [hframe]
      exact ⟨[], _, [], rfl, fun _ h => absurd h (by simp), _, rfl, rfl, rfl, 254, rfl, by decide⟩
    exact ⟨1, 0, 0, [1, 8, 254, 0, 0, 0, 0, 0, 0, 0], rfl, by decide, by decide, Or.inr hpast⟩
  · have hend : encodeFields stampSchema ["kind", "id"] stampValues = abort .assertion := rfl
    rw [FieldsExact, hend] at h
    rcases h with ⟨e, h⟩ | h
    · cases h
    · cases h

end Okm.Dynamic
