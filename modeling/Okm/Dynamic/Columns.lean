import Okm.Dynamic.RoundTrip

/-!
# Columns of a declaration

The model of `arrow.rs` of the dynamic crate: decoded keys and rows as the columns of their
declaration. The key fields come first, then the payload fields in the order they were declared
in, which the export has split into hot and cold (`orderedFields_schema`).

A cell of the wrong kind is an error, not a hole. What `decode_payload` answers fits its columns
but for one thing: a default that was exported under another kind than its field's
(`columns_exact`).
-/

namespace Okm.Dynamic

open Lib Model
open Guarded (answer refuse abort)

/-! ## Arrow -/

/-- The Arrow types a field is exported as. -/
inductive DataType where
  | uInt8
  | uInt16
  | uInt32
  | uInt64
  | int64
  | float64
  | utf8
  | binary
  | fixedSizeBinary (n : Nat)
  deriving DecidableEq

/-- `arrow_type`. -/
def arrowType : FieldType → DataType
  | .u8 => .uInt8
  | .u16 => .uInt16
  | .u32 => .uInt32
  | .u64 => .uInt64
  | .fixedBytes => .binary
  | .uuid4 | .uuid7 => .fixedSizeBinary 16
  | .str => .utf8
  | .bytes => .binary
  | .varInt => .uInt64
  | .quant _ => .float64
  | .vocab _ => .utf8
  | .offset _ => .int64
  | .vector _ => .binary

/-- A column of a schema. -/
structure ArrowField where
  name : String
  ty : DataType
  nullable : Bool
  deriving DecidableEq

/-- An array: cells of one type, a null among them as `none`. -/
structure Column where
  ty : DataType
  cells : List (Option Value)

/-- What the program uses of the arrow crate: its batches, and `RecordBatch::try_new`, whose
refusal is read as a text. -/
structure Arrow where
  Batch : Type
  fields : Batch → List ArrowField
  columns : Batch → List Column
  tryNew : List ArrowField → List Column → Except String Batch

/-- Columns that fit a schema and one another. -/
structure Fit (fields : List ArrowField) (columns : List Column) : Prop where
  typed : columns.map Column.ty = fields.map ArrowField.ty
  even : ∀ column ∈ columns, ∀ column' ∈ columns, column.cells.length = column'.cells.length
  whole : ∀ p ∈ fields.zip columns, p.1.nullable = false → p.2.cells.all Option.isSome = true

/-- `RecordBatch::try_new` as it is documented: columns become a batch when they fit, and the
batch is these columns. -/
structure Arrow.Lawful (arrow : Arrow) : Prop where
  accepts : ∀ fields columns, columns ≠ [] →
    ((∃ batch, arrow.tryNew fields columns = .ok batch) ↔ Fit fields columns)
  kept : ∀ fields columns batch, arrow.tryNew fields columns = .ok batch →
    arrow.fields batch = fields ∧ arrow.columns batch = columns

/-! ## The batch of a declaration -/

/-- What building a batch is refused with: the codec's own errors, or the text of the assembly. -/
inductive ColumnError where
  | codec (e : CodecError)
  | column (what : String)
  deriving DecidableEq

abbrev Building := Guarded Abort ColumnError

/-- `id slot, id bytes → label`. -/
abbrev Labels := UInt16 → Bytes → Option String

/-- A cold field goes where its tag says. -/
def placeCold (slots : List (Option FieldSchema)) (f : FieldSchema) :
    Except ColumnError (List (Option FieldSchema)) :=
  match f.tag with
  | none => .error (.codec (.coldFieldWithoutTag f.name))
  | some tag =>
    match slots[tag.toNat]? with
    | some none => .ok (slots.set tag.toNat (some f))
    | _ => .error (.column s!"field `{f.name}`: TLV tag {tag.toNat} is outside the declaration or used twice")

/-- The hot fields fill what is left, in their order. -/
def fillHot : List (Option FieldSchema) → List FieldSchema →
    List (Option FieldSchema) × List FieldSchema
  | [], hot => ([], hot)
  | some f :: slots, hot =>
    let (slots, hot) := fillHot slots hot
    (some f :: slots, hot)
  | none :: slots, [] =>
    let (slots, hot) := fillHot slots []
    (none :: slots, hot)
  | none :: slots, f :: hot =>
    let (slots, hot) := fillHot slots hot
    (some f :: slots, hot)

/-- `ordered_fields`. -/
def orderedFields (schema : CollectionSchema) : Except ColumnError (List FieldSchema) := do
  let slots ← schema.coldFields.foldlM placeCold
    (List.replicate (schema.hotFields.length + schema.coldFields.length) none)
  let (slots, left) := fillHot slots schema.hotFields
  if left ≠ [] then .error (.column "more hot fields than the targets leave room for")
  else
    match slots.mapM id with
    | none => .error (.column "a gap in the declaration order")
    | some fields => .ok fields

/-- `schema_of`: the payload half is nullable. -/
def columnFields (schema : CollectionSchema) : Except ColumnError (List ArrowField) := do
  let declared ← orderedFields schema
  .ok (schema.keyFields.map (fun f => ⟨f.name, arrowType f.ty, false⟩)
    ++ declared.map fun f => ⟨f.name, arrowType f.ty, true⟩)

/-- The values a column of a kind takes, as its cells hold them. -/
def taken : FieldType → Value → Option Value
  | .u8, .u8 x => some (.u8 x)
  | .u16, .u16 x => some (.u16 x)
  | .u32, .u32 x => some (.u32 x)
  | .u64, .u64 x => some (.u64 x)
  | .varInt, .u64 x => some (.u64 x)
  | .quant _, .f64 bits => some (.f64 bits)
  | .offset _, .i64 x => some (.i64 x)
  | .str, .str s => some (.str s)
  | .vocab _, .bytes b => some (.bytes b)
  | .vocab _, .u8 x => some (.bytes [x])
  | .uuid4, .bytes b | .uuid7, .bytes b => if b.length = 16 then some (.bytes b) else none
  | .fixedBytes, .bytes b | .bytes, .bytes b | .vector _, .bytes b => some (.bytes b)
  | _, _ => none

/-- `gather`: a null is a null, a value of another kind an error. -/
def gather (f : FieldSchema) (vals : List (Option Value)) :
    Except ColumnError (List (Option Value)) :=
  vals.mapM fun
    | none => .ok none
    | some v =>
      match taken f.ty v with
      | some cell => .ok (some cell)
      | none => .error (.codec (.typeMismatch f.name "a value of the field's declared kind"))

/-- An id as its label; one that has none is a null. -/
def labelled (labels : Option Labels) (idSlot : UInt16) : Option Value → Option Value
  | some (.bytes id) => (labels.bind fun resolve => resolve idSlot id).map Value.str
  | _ => none

/-- `column`. -/
def column (f : FieldSchema) (vals : List (Option Value)) (labels : Option Labels) :
    Except ColumnError Column := do
  let cells ← gather f vals
  match f.ty with
  | .vocab idSlot => .ok ⟨.utf8, cells.map (labelled labels idSlot)⟩
  | ty => .ok ⟨arrowType ty, cells⟩

/-- A key field of every document. -/
def keyColumn (keyMaps : List ValueMap) (labels : Option Labels) (f : FieldSchema) :
    Except ColumnError Column := do
  let vals ← keyMaps.mapM fun m =>
    match m.get f.name with
    | some v => .ok (some v)
    | none => .error (.codec (.missingField f.name))
  column f vals labels

/-- A payload field of every document; a document without a row has none. -/
def payloadColumn (rows : List (Option ValueMap)) (labels : Option Labels) (f : FieldSchema) :
    Except ColumnError Column :=
  column f (rows.map fun row => row.bind fun m => m.get f.name) labels

/-- `map_err` of the assembly. -/
def refusedBatch (e : String) : ColumnError := .column s!"arrow refused the batch: {e}"

/-- `record_batch`. -/
def recordBatch (arrow : Arrow) (schema : CollectionSchema) (keys : List Bytes)
    (rows : List (Option ValueMap)) (labels : Option Labels) : Building arrow.Batch :=
  if keys.length ≠ rows.length then
    refuse (.column s!"{keys.length} keys against {rows.length} rows")
  else do
    let declared ← Guarded.lift (orderedFields schema)
    let keyMaps ← keys.mapM fun key => (decodeKey schema key).mapRefuse ColumnError.codec
    let keyColumns ← Guarded.lift (schema.keyFields.mapM (keyColumn keyMaps labels))
    let columns ← Guarded.lift (declared.mapM (payloadColumn rows labels))
    let fields ← Guarded.lift (columnFields schema)
    Guarded.lift ((arrow.tryNew fields (keyColumns ++ columns)).mapError refusedBatch)

/-! ## The order of the columns -/

section

variable (decl : TableDecl)

/-- The exported fields in the order they were declared in. -/
def exportOrder : Nat → Nat → List FieldDesc → List FieldSchema
  | _, _, [] => []
  | fi, off, f :: fs =>
    if 0 < f.width then
      ⟨f.name, f.ty, f.width, off, none, decl.lookupDefault f.name, none⟩
        :: exportOrder (fi + 1) (off + f.width) fs
    else
      ⟨f.name, f.ty, 0, 0, some (UInt8.ofNat fi), decl.lookupDefault f.name,
        decl.expectLenOf f.name⟩ :: exportOrder (fi + 1) off fs

/-- The places of the cold fields, the hot ones left open. -/
def coldMask : Nat → Nat → List FieldDesc → List (Option FieldSchema)
  | _, _, [] => []
  | fi, off, f :: fs =>
    if 0 < f.width then none :: coldMask (fi + 1) (off + f.width) fs
    else
      some ⟨f.name, f.ty, 0, 0, some (UInt8.ofNat fi), decl.lookupDefault f.name,
        decl.expectLenOf f.name⟩ :: coldMask (fi + 1) off fs

theorem length_exportFields (fi off : Nat) (fs : List FieldDesc) :
    (decl.exportFields fi off fs).1.length + (decl.exportFields fi off fs).2.length
      = fs.length := by
  induction fs generalizing fi off with
  | nil => rfl
  | cons f fs ih =>
    rw [TableDecl.exportFields]
    split
    · have := ih (fi + 1) (off + f.width)
      dsimp only [List.length_cons]
      omega
    · have := ih (fi + 1) off
      dsimp only [List.length_cons]
      omega

/-- Every cold field finds its place open. -/
theorem placeCold_exportFields {fi off : Nat} {fs : List FieldDesc} (hfew : fi + fs.length ≤ 256)
    {pre : List (Option FieldSchema)} (hpre : pre.length = fi) :
    (decl.exportFields fi off fs).2.foldlM placeCold (pre ++ List.replicate fs.length none)
      = .ok (pre ++ coldMask decl fi off fs) := by
  induction fs generalizing fi off pre with
  | nil => rfl
  | cons f fs ih =>
    rw [List.length_cons] at hfew
    rw [TableDecl.exportFields, coldMask, List.length_cons, List.replicate_succ]
    split
    · have hrest := @ih (fi + 1) (off + f.width) (by omega) (pre ++ [none]) (by simp [hpre])
      rw [List.append_assoc, List.append_assoc] at hrest
      exact hrest
    · have hrest := @ih (fi + 1) off (by omega)
        (pre ++ [some ⟨f.name, f.ty, 0, 0, some (UInt8.ofNat fi), decl.lookupDefault f.name,
          decl.expectLenOf f.name⟩]) (by simp [hpre])
      rw [List.append_assoc, List.append_assoc] at hrest
      have htag : (UInt8.ofNat fi).toNat = pre.length := by
        rw [UInt8.toNat_ofNat', hpre]
        omega
      have hopen : (pre ++ none :: List.replicate fs.length none)[pre.length]? = some none := by
        simp
      dsimp only
      rw [List.foldlM_cons, placeCold]
      dsimp only
      rw [htag, hopen]
      dsimp only
      rw [List.set_append_right _ _ (Nat.le_refl _), Nat.sub_self, List.set_cons_zero]
      exact hrest

/-- The hot fields fill what the cold ones leave. -/
theorem fillHot_exportFields (fi off : Nat) (fs : List FieldDesc) :
    fillHot (coldMask decl fi off fs) (decl.exportFields fi off fs).1
      = ((exportOrder decl fi off fs).map some, []) := by
  induction fs generalizing fi off with
  | nil => rfl
  | cons f fs ih =>
    rw [TableDecl.exportFields, coldMask, exportOrder]
    split
    · dsimp only
      rw [fillHot, ih]
      rfl
    · dsimp only
      rw [fillHot, ih]
      rfl

theorem exportOrder_perm (fi off : Nat) (fs : List FieldDesc) :
    (exportOrder decl fi off fs).Perm
      ((decl.exportFields fi off fs).1 ++ (decl.exportFields fi off fs).2) := by
  induction fs generalizing fi off with
  | nil => exact List.Perm.nil
  | cons f fs ih =>
    rw [TableDecl.exportFields, exportOrder]
    split
    · exact (ih _ _).cons _
    · exact ((ih _ _).cons _).trans List.perm_middle.symm

end

theorem mapM_id_map_some {α : Type} (as : List α) : (as.map some).mapM id = some as := by
  induction as with
  | nil => rfl
  | cons a as ih =>
    rw [List.map_cons, List.mapM_cons, ih]
    rfl

namespace DeclaredTable

/-- The payload fields of the export, in the order they were declared in. -/
def declared (t : DeclaredTable) : List FieldSchema := exportOrder t.toTableDecl 0 0 t.fields

/-- **The order of the declaration is found again.** -/
theorem orderedFields_schema {t : DeclaredTable} (hfew : t.fields.length ≤ 256) :
    orderedFields t.schema.toCollectionSchema = .ok t.declared := by
  have hlen : t.schema.hotFields.length + t.schema.coldFields.length = t.fields.length :=
    length_exportFields t.toTableDecl 0 0 t.fields
  have hplace : t.schema.coldFields.foldlM placeCold (List.replicate t.fields.length none)
      = .ok (coldMask t.toTableDecl 0 0 t.fields) :=
    @placeCold_exportFields t.toTableDecl 0 0 t.fields (by omega) [] rfl
  have hfill : fillHot (coldMask t.toTableDecl 0 0 t.fields) t.schema.hotFields
      = (t.declared.map some, []) := fillHot_exportFields t.toTableDecl 0 0 t.fields
  unfold orderedFields
  rw [hlen, hplace]
  change (if (fillHot (coldMask t.toTableDecl 0 0 t.fields) t.schema.hotFields).2 ≠ [] then _
    else _) = _
  rw [hfill, if_neg (by simp)]
  dsimp only
  rw [mapM_id_map_some]

theorem mem_declared {t : DeclaredTable} {f : FieldSchema} :
    f ∈ t.declared ↔ f ∈ payloadFields t.schema.toCollectionSchema :=
  (exportOrder_perm t.toTableDecl 0 0 t.fields).mem_iff

end DeclaredTable

/-! ## What the codec answers fits -/

theorem taken_zeroValue (f : FieldSchema) : taken f.ty (zeroValue f) = some (zeroValue f) := by
  unfold zeroValue
  cases f.ty <;> simp [taken]

theorem decodeFixed_taken {name : String} {ty : FieldType} {width : Nat} {raw : Bytes} {v : Value}
    (h : decodeFixed name ty width raw = answer v) : taken ty v = some v := by
  unfold decodeFixed at h
  cases ty with
  | u8 =>
    cases raw with
    | nil => cases h
    | cons b rest =>
      injection h with h
      rw [← h, taken]
  | u16 | u32 | u64 =>
    dsimp only at h
    split at h
    · injection h with h
      rw [← h, taken]
    · cases h
  | uuid4 | uuid7 =>
    dsimp only at h
    split at h
    · rename_i hlong
      injection h with h
      rw [← h, taken, if_pos (by rw [List.length_take]; omega)]
    · cases h
  | quant p =>
    dsimp only at h
    split at h
    · obtain ⟨bits, -, h⟩ := Guarded.bind_eq_answer.mp h
      injection h with h
      rw [← h, taken]
    · cases h
  | offset base =>
    dsimp only at h
    split at h
    · unfold rebase at h
      split at h
      · injection h with h
        rw [← h, taken]
      · cases h
    · cases h
  | fixedBytes | vocab idSlot | vector elem =>
    injection h with h
    rw [← h, taken]
  | str | bytes | varInt => cases h

theorem decodeFrame_taken {f : FieldSchema} {value : Bytes} {v : Value}
    (h : decodeFrame f value = answer v) : taken f.ty v = some v := by
  unfold decodeFrame at h
  split at h
  · rename_i hty
    split at h
    · injection h with h
      rw [hty, ← h, taken]
    · cases h
  · rename_i hty
    split at h
    · cases h
    · split at h
      · cases h
      · injection h with h
        rw [hty, ← h, taken]
  · rename_i hty
    cases value with
    | nil => cases h
    | cons first rest =>
      dsimp only at h
      split at h
      · cases h
      · split at h
        · injection h with h
          rw [hty, ← h, taken]
        · cases h
        · cases h
  · rename_i hty
    split at h
    · obtain ⟨bits, -, h⟩ := Guarded.bind_eq_answer.mp h
      injection h with h
      rw [hty, ← h, taken]
    · cases h
  · rename_i hty
    split at h
    · unfold rebase at h
      split at h
      · injection h with h
        rw [hty, ← h, taken]
      · cases h
    · cases h
  · cases h

/-- Every value of a map is one of its field's kind. -/
def Typed (fields : List FieldSchema) (out : ValueMap) : Prop :=
  ∀ name v, out.get name = some v → ∃ f ∈ fields, f.name = name ∧ taken f.ty v = some v

theorem Typed.insert {fields : List FieldSchema} {out : ValueMap} (h : Typed fields out)
    {f : FieldSchema} (hf : f ∈ fields) {v : Value} (hv : taken f.ty v = some v) :
    Typed fields (out.insert f.name v) := by
  intro name w hget
  by_cases hname : name = f.name
  · rw [hname, SortedMap.get_insert_self] at hget
    obtain rfl := Option.some.inj hget
    exact ⟨f, hf, hname.symm, hv⟩
  · rw [SortedMap.get_insert_of_ne _ _ hname] at hget
    exact h name w hget

theorem typed_empty (fields : List FieldSchema) : Typed fields SortedMap.empty := by
  intro name v h
  cases h

theorem get_insert_some {out : ValueMap} {name key : String} {v : Value}
    (h : ∃ w, out.get name = some w) : ∃ w, (out.insert key v).get name = some w := by
  by_cases hname : name = key
  · exact ⟨v, hname ▸ SortedMap.get_insert_self _ _ _⟩
  · rwa [SortedMap.get_insert_of_ne _ _ hname]

/-- Where names tell the fields apart, the value of a field is of its kind. -/
theorem Typed.at {fields : List FieldSchema} {out : ValueMap} (h : Typed fields out)
    (hnames : DistinctKeys FieldSchema.name fields) {f : FieldSchema} (hf : f ∈ fields) {v : Value}
    (hget : out.get f.name = some v) : taken f.ty v = some v := by
  obtain ⟨g, hg, hname, hv⟩ := h f.name v hget
  obtain rfl := List.inj_on_of_nodup_map hnames hg hf hname
  exact hv

/-- **A key that is read has every key field**, each of its kind. -/
theorem decodeKey_typed {schema : CollectionSchema} {bytes : Bytes} {out : ValueMap}
    (h : decodeKey schema bytes = answer out) :
    Typed schema.keyFields out ∧ ∀ f ∈ schema.keyFields, ∃ v, out.get f.name = some v := by
  unfold decodeKey at h
  split at h
  · cases h
  · -- each step binds the name of its field to what the codec read for it
    have hstep : ∀ f ∈ schema.keyFields, ∀ s s' : ValueMap, (do
        let raw ← sliceOf bytes f.offset (f.offset + f.width)
        let v ← decodeFixed f.name f.ty f.width raw
        answer (s.insert f.name v) : Codec ValueMap) = answer s' →
        ∃ v, taken f.ty v = some v ∧ s' = s.insert f.name v := by
      intro f _ s s' hstep
      obtain ⟨raw, -, hstep⟩ := Guarded.bind_eq_answer.mp hstep
      obtain ⟨v, hv, hstep⟩ := Guarded.bind_eq_answer.mp hstep
      injection hstep with hstep
      exact ⟨v, decodeFixed_taken hv, hstep.symm⟩
    refine ⟨Guarded.foldlM_invariant (fun f hf s s' hs hs' => ?_) (typed_empty _) h,
      Guarded.foldlM_each (Q := fun f (s : ValueMap) => ∃ v, s.get f.name = some v)
        (fun f hf s s' hs' => ?_) (fun f hf g s s' hs hs' => ?_) h⟩
    · obtain ⟨v, hv, rfl⟩ := hstep f hf s s' hs'
      exact hs.insert hf hv
    · obtain ⟨v, -, rfl⟩ := hstep f hf s s' hs'
      exact ⟨v, SortedMap.get_insert_self _ _ _⟩
    · obtain ⟨v, -, rfl⟩ := hstep f hf s s' hs'
      exact get_insert_some hs

theorem typed_enterHot {schema : CollectionSchema} {hot : Bytes} {out out' : ValueMap}
    (h : schema.hotFields.foldlM (enterHot hot) out = answer out')
    (hout : Typed (payloadFields schema) out) : Typed (payloadFields schema) out' := by
  refine Guarded.foldlM_invariant (fun f hf s s' hs hstep => ?_) hout h
  unfold enterHot at hstep
  split at hstep
  · obtain ⟨v, hv, hstep⟩ := Guarded.bind_eq_answer.mp hstep
    injection hstep with hstep
    exact hstep ▸ hs.insert (List.mem_append_left _ hf) (decodeFixed_taken hv)
  · injection hstep with hstep
    exact hstep ▸ hs

theorem typed_decodeCold {schema : CollectionSchema} {size : Nat} {rest : Bytes}
    {out out' : ValueMap} (h : decodeCold schema size rest out = answer out')
    (hout : Typed (payloadFields schema) out) : Typed (payloadFields schema) out' := by
  rw [decodeCold_eq] at h
  obtain ⟨last, hframes, hend⟩ := Guarded.bind_eq_answer.mp h
  have hlast : Typed (payloadFields schema) last := by
    refine Guarded.foldlM_invariant (fun frame _ s s' hs hstep => ?_) hout hframes
    unfold enterFrame at hstep
    split at hstep
    · injection hstep with hstep
      exact hstep ▸ hs
    · rename_i f hby
      obtain ⟨v, hv, hstep⟩ := Guarded.bind_eq_answer.mp hstep
      injection hstep with hstep
      exact hstep ▸ hs.insert (List.mem_append_right _ (byTag_mem hby)) (decodeFrame_taken hv)
  cases hcold : (splitCold size rest).2 with
  | done =>
    rw [hcold] at hend
    injection hend with hend
    exact hend ▸ hlast
  | torn e =>
    rw [hcold] at hend
    cases hend
  | beyond =>
    rw [hcold] at hend
    cases hend

/-- **A payload that is read has every payload field**, each of its kind or at its default. -/
theorem decodePayload_typed {schema : CollectionSchema} {bytes : Bytes} {out : ValueMap}
    (hnames : DistinctKeys FieldSchema.name (payloadFields schema))
    (h : decodePayload schema bytes = answer out) {f : FieldSchema}
    (hf : f ∈ payloadFields schema) :
    ∃ v, out.get f.name = some v ∧ (taken f.ty v = some v ∨ v = defaultValue f) := by
  obtain ⟨read, hread, rfl⟩ : ∃ read, Typed (payloadFields schema) read ∧
      fillSchemaDefaults schema read = out := by
    unfold decodePayload at h
    dsimp only at h
    split at h
    · cases h
    · split at h
      · split at h
        · cases h
        · split at h
          · cases h
          · obtain ⟨hot, hhot, h⟩ := Guarded.bind_eq_answer.mp h
            obtain ⟨cold, hcold, h⟩ := Guarded.bind_eq_answer.mp h
            injection h with h
            exact ⟨cold, typed_decodeCold hcold (typed_enterHot hhot (typed_empty _)), h⟩
      · cases h
  have hfill : (fillSchemaDefaults schema read).get f.name
      = (read.get f.name).or (some (defaultValue f)) := by
    have hall : (fillSchemaDefaults schema read).get f.name = (read.get f.name).or
        ((findKey FieldSchema.name f.name (payloadFields schema)).map defaultValue) :=
      SortedMap.get_fillAll read (payloadFields schema) f.name
    rwa [findKey_of_mem hnames hf, Option.map_some] at hall
  rw [hfill]
  cases hget : read.get f.name with
  | some v => exact ⟨v, rfl, Or.inl (hread.at hnames hf hget)⟩
  | none => exact ⟨defaultValue f, rfl, Or.inr rfl⟩

/-! ## The columns of documents -/

/-- A value as a cell: an id as its label, any other value as it is. -/
def cellOf (labels : Option Labels) (ty : FieldType) (v : Option Value) : Option Value :=
  match ty with
  | .vocab idSlot => labelled labels idSlot v
  | _ => v

/-- A column of a field takes these values as they are. -/
def Takes (f : FieldSchema) (vals : List (Option Value)) : Prop :=
  ∀ v, some v ∈ vals → taken f.ty v = some v

theorem gather_eq {f : FieldSchema} {vals : List (Option Value)} (h : Takes f vals) :
    gather f vals = .ok vals := by
  have hall : gather f vals = .ok (vals.map id) := by
    refine mapM_eq_ok fun v hv => ?_
    cases v with
    | none => rfl
    | some v =>
      dsimp only
      rw [h v hv]
      rfl
  rwa [List.map_id] at hall

theorem column_eq {f : FieldSchema} {vals : List (Option Value)} (h : Takes f vals)
    (labels : Option Labels) :
    column f vals labels = .ok ⟨arrowType f.ty, vals.map (cellOf labels f.ty)⟩ := by
  have hid : vals.map (fun v => v) = vals := List.map_id' vals
  unfold column
  rw [gather_eq h]
  cases f.ty with
  | vocab idSlot => rfl
  | _ => exact congrArg (fun cells => Except.ok (Column.mk _ cells)) hid.symm

/-- A value of another kind stops the column. -/
theorem column_error {f : FieldSchema} {vals : List (Option Value)} {v : Value}
    (hv : some v ∈ vals) (h : taken f.ty v = none) (labels : Option Labels) :
    ∃ e, column f vals labels = .error e := by
  obtain ⟨e, he⟩ : ∃ e, gather f vals = .error e := by
    refine mapM_error hv ?_
    dsimp only
    rw [h]
    exact ⟨_, rfl⟩
  unfold column
  rw [he]
  exact ⟨e, rfl⟩

/-- A default is taken as it is, or it is of another kind. -/
theorem taken_defaultValue (f : FieldSchema) :
    taken f.ty (defaultValue f) = some (defaultValue f) ∨ taken f.ty (defaultValue f) = none := by
  have hkind : ∀ v : Value, (∀ x, v ≠ .u8 x) → taken f.ty v = some v ∨ taken f.ty v = none := by
    intro v hv
    cases v with
    | u8 x => exact absurd rfl (hv x)
    | bytes b => cases f.ty <;> simp [taken, Classical.em]
    | _ => cases f.ty <;> simp [taken]
  unfold defaultValue
  cases f.default with
  | none => exact Or.inl (taken_zeroValue f)
  | some d => cases d <;> exact hkind _ (fun x h => nomatch h)

namespace DeclaredTable

variable (t : DeclaredTable)

/-- What the codec reads of a key and a payload. -/
structure Reads (doc : Bytes × Bytes) (read : ValueMap × ValueMap) : Prop where
  key : decodeKey t.schema.toCollectionSchema doc.1 = answer read.1
  payload : decodePayload t.schema.toCollectionSchema doc.2 = answer read.2

/-- The columns of documents, key first, then payload in the order of the declaration. -/
def columnsOf (labels : Option Labels) (reads : List (ValueMap × ValueMap)) : List Column :=
  t.schema.keyFields.map (fun f =>
      ⟨arrowType f.ty, reads.map fun read => cellOf labels f.ty (read.1.get f.name)⟩)
    ++ t.declared.map fun f =>
      ⟨arrowType f.ty, reads.map fun read => cellOf labels f.ty (read.2.get f.name)⟩

/-- Their schema: no null in an identity. -/
def arrowFields : List ArrowField :=
  t.schema.keyFields.map (fun f => ⟨f.name, arrowType f.ty, false⟩)
    ++ t.declared.map fun f => ⟨f.name, arrowType f.ty, true⟩

/-- Every default a row was filled with is of its field's kind. -/
def DefaultsTaken (reads : List (ValueMap × ValueMap)) : Prop :=
  ∀ read ∈ reads, ∀ f ∈ t.declared, read.2.get f.name = some (defaultValue f) →
    taken f.ty (defaultValue f) = some (defaultValue f)

/-- Every vocabulary id in a key has a label. -/
def KeysLabelled (labels : Option Labels) (reads : List (ValueMap × ValueMap)) : Prop :=
  ∀ read ∈ reads, ∀ f ∈ t.schema.keyFields, (cellOf labels f.ty (read.1.get f.name)).isSome = true

section

variable {t}

theorem exportKey_names (off : Nat) (fs : List FieldDesc) :
    (TableDecl.exportKey off fs).map FieldSchema.name = fs.map FieldDesc.name := by
  induction fs generalizing off with
  | nil => rfl
  | cons f fs ih => rw [TableDecl.exportKey, List.map_cons, List.map_cons, ih]

/-- A hole in the columns is a key that has no label. -/
theorem whole_columnsOf (labels : Option Labels) (reads : List (ValueMap × ValueMap)) :
    (∀ p ∈ t.arrowFields.zip (t.columnsOf labels reads),
      p.1.nullable = false → p.2.cells.all Option.isSome = true) ↔ t.KeysLabelled labels reads := by
  unfold arrowFields columnsOf KeysLabelled
  rw [List.zip_append (by simp), List.zip_map', List.zip_map', List.forall_mem_append]
  constructor
  · rintro ⟨hkeys, -⟩ read hread f hf
    have hall := List.all_eq_true.mp (hkeys _ (List.mem_map_of_mem hf) rfl)
    exact hall _ (List.mem_map_of_mem hread)
  · refine fun hkeys => ⟨fun p hp _ => ?_, fun p hp hnull => ?_⟩
    · obtain ⟨f, hf, rfl⟩ := List.mem_map.mp hp
      refine List.all_eq_true.mpr fun cell hcell => ?_
      obtain ⟨read, hread, rfl⟩ := List.mem_map.mp hcell
      exact hkeys read hread f hf
    · -- a payload column may have nulls
      obtain ⟨f, -, rfl⟩ := List.mem_map.mp hp
      cases hnull

/-- The columns of documents fit their schema unless a key has no label. -/
theorem fit_columnsOf (labels : Option Labels) (reads : List (ValueMap × ValueMap)) :
    Fit t.arrowFields (t.columnsOf labels reads) ↔ t.KeysLabelled labels reads := by
  have htyped : (t.columnsOf labels reads).map Column.ty = t.arrowFields.map ArrowField.ty := by
    simp [columnsOf, arrowFields, Function.comp_def]
  have heven : ∀ column ∈ t.columnsOf labels reads, column.cells.length = reads.length := by
    intro column hcolumn
    rcases List.mem_append.mp hcolumn with hmem | hmem
    · obtain ⟨f, -, rfl⟩ := List.mem_map.mp hmem
      exact List.length_map _
    · obtain ⟨f, -, rfl⟩ := List.mem_map.mp hmem
      exact List.length_map _
  constructor
  · exact fun fit => (whole_columnsOf labels reads).mp fit.whole
  · intro hkeys
    refine ⟨htyped, fun column hcolumn column' hcolumn' => ?_,
      (whole_columnsOf labels reads).mpr hkeys⟩
    rw [heven column hcolumn, heven column' hcolumn']

theorem columnsOf_ne_nil (hkey : t.keyFields ≠ []) (labels : Option Labels)
    (reads : List (ValueMap × ValueMap)) : t.columnsOf labels reads ≠ [] := by
  cases hfields : t.keyFields with
  | nil => exact absurd hfields hkey
  | cons f fs =>
    unfold columnsOf schema TableDecl.schemaOf
    rw [hfields]
    exact List.cons_ne_nil _ _

/-- Every value read is read from a document. -/
theorem exists_doc {docs : List (Bytes × Bytes)} {reads : List (ValueMap × ValueMap)}
    (hreads : List.Forall₂ t.Reads docs reads) : ∀ read ∈ reads, ∃ doc, t.Reads doc read := by
  induction hreads with
  | nil =>
    intro read hmem
    cases hmem
  | cons hdoc _ ih => exact List.forall_mem_cons.mpr ⟨⟨_, hdoc⟩, ih⟩

theorem distinct_keyFields (keyNames : (t.keyFields.map FieldDesc.name).Nodup) :
    DistinctKeys FieldSchema.name t.schema.keyFields := by
  have hnames : t.schema.keyFields.map FieldSchema.name = t.keyFields.map FieldDesc.name :=
    exportKey_names 0 t.keyFields
  rw [DistinctKeys, hnames]
  exact keyNames

theorem columnFields_schema (hfew : t.fields.length ≤ 256) :
    columnFields t.schema.toCollectionSchema = .ok t.arrowFields := by
  unfold columnFields
  rw [orderedFields_schema hfew]
  rfl

theorem keyMaps_eq {docs : List (Bytes × Bytes)} {reads : List (ValueMap × ValueMap)}
    (hreads : List.Forall₂ t.Reads docs reads) :
    (docs.map Prod.fst).mapM (fun key =>
      (decodeKey t.schema.toCollectionSchema key).mapRefuse ColumnError.codec)
        = answer (reads.map Prod.fst) := by
  refine Guarded.mapM_eq_answer ?_
  rw [List.forall₂_map_left_iff, List.forall₂_map_right_iff]
  refine hreads.imp fun doc read h => ?_
  rw [h.key]
  rfl

/-- The key columns never fail: an identity has no hole. -/
theorem keyColumns_eq (keyNames : (t.keyFields.map FieldDesc.name).Nodup) (labels : Option Labels)
    {docs : List (Bytes × Bytes)} {reads : List (ValueMap × ValueMap)}
    (hreads : List.Forall₂ t.Reads docs reads) :
    t.schema.keyFields.mapM (keyColumn (reads.map Prod.fst) labels)
      = .ok (t.schema.keyFields.map fun f =>
        ⟨arrowType f.ty, reads.map fun read => cellOf labels f.ty (read.1.get f.name)⟩) := by
  refine mapM_eq_ok fun f hf => ?_
  have hvals : (reads.map Prod.fst).mapM (fun m : ValueMap =>
      match m.get f.name with
      | some v => (.ok (some v) : Except ColumnError (Option Value))
      | none => .error (.codec (.missingField f.name)))
      = .ok ((reads.map Prod.fst).map fun m => m.get f.name) := by
    refine mapM_eq_ok fun m hm => ?_
    obtain ⟨read, hmem, rfl⟩ := List.mem_map.mp hm
    obtain ⟨doc, hdoc⟩ := exists_doc hreads read hmem
    obtain ⟨v, hv⟩ := (decodeKey_typed hdoc.key).2 f hf
    rw [hv]
  have htakes : Takes f ((reads.map Prod.fst).map fun m => m.get f.name) := by
    intro v hv
    obtain ⟨m, hm, hget⟩ := List.mem_map.mp hv
    obtain ⟨read, hmem, rfl⟩ := List.mem_map.mp hm
    obtain ⟨doc, hdoc⟩ := exists_doc hreads read hmem
    exact (decodeKey_typed hdoc.key).1.at (distinct_keyFields keyNames) hf hget
  unfold keyColumn
  rw [hvals]
  change column f _ labels = _
  rw [column_eq htakes, List.map_map, List.map_map]
  rfl

theorem payloadColumns_eq (ready : Readable t) (labels : Option Labels)
    {docs : List (Bytes × Bytes)} {reads : List (ValueMap × ValueMap)}
    (hreads : List.Forall₂ t.Reads docs reads) (hdefaults : t.DefaultsTaken reads) :
    t.declared.mapM (payloadColumn (reads.map fun read => some read.2) labels)
      = .ok (t.declared.map fun f =>
        ⟨arrowType f.ty, reads.map fun read => cellOf labels f.ty (read.2.get f.name)⟩) := by
  refine mapM_eq_ok fun f hf => ?_
  have htakes : Takes f ((reads.map fun read => some read.2).map fun row =>
      row.bind fun m => m.get f.name) := by
    intro v hv
    rw [List.map_map] at hv
    obtain ⟨read, hmem, hget⟩ := List.mem_map.mp hv
    obtain ⟨doc, hdoc⟩ := exists_doc hreads read hmem
    obtain ⟨w, hw, hkind⟩ :=
      decodePayload_typed ready.distinct hdoc.payload (mem_declared.mp hf)
    obtain rfl : w = v := Option.some.inj (hw.symm.trans hget)
    rcases hkind with htaken | rfl
    · exact htaken
    · exact hdefaults read hmem f hf hw
  unfold payloadColumn
  rw [column_eq htakes, List.map_map, List.map_map]
  rfl

/-- One default of another kind stops the batch. -/
theorem payloadColumns_error (labels : Option Labels) {reads : List (ValueMap × ValueMap)}
    (hdefaults : ¬ t.DefaultsTaken reads) :
    ∃ e, t.declared.mapM (payloadColumn (reads.map fun read => some read.2) labels)
      = .error e := by
  unfold DefaultsTaken at hdefaults
  push Not at hdefaults
  obtain ⟨read, hmem, f, hf, hget, hkind⟩ := hdefaults
  refine mapM_error hf (column_error (v := defaultValue f) ?_
    ((taken_defaultValue f).resolve_left hkind) labels)
  rw [List.map_map]
  exact List.mem_map.mpr ⟨read, hmem, hget⟩

/-- What is left of a batch once the keys are read: the payload columns and the assembly. -/
theorem recordBatch_eq (arrow : Arrow) (hfew : t.fields.length ≤ 256)
    (keyNames : (t.keyFields.map FieldDesc.name).Nodup) (labels : Option Labels)
    {docs : List (Bytes × Bytes)} {reads : List (ValueMap × ValueMap)}
    (hreads : List.Forall₂ t.Reads docs reads) :
    recordBatch arrow t.schema.toCollectionSchema (docs.map Prod.fst)
        (reads.map fun read => some read.2) labels
      = Guarded.lift (t.declared.mapM (payloadColumn (reads.map fun read => some read.2) labels))
          >>= fun columns => Guarded.lift ((arrow.tryNew t.arrowFields
            (t.schema.keyFields.map (fun f => ⟨arrowType f.ty, reads.map fun read =>
              cellOf labels f.ty (read.1.get f.name)⟩) ++ columns)).mapError refusedBatch) := by
  unfold recordBatch
  rw [if_neg (by simp [hreads.length_eq]), orderedFields_schema hfew]
  rw [Guarded.lift_ok, Guarded.answer_bind, keyMaps_eq hreads, Guarded.answer_bind,
    keyColumns_eq keyNames labels hreads, Guarded.lift_ok, Guarded.answer_bind,
    columnFields_schema hfew]
  rfl

/-- Where every default is of its field's kind, the batch is what arrow makes of the columns. -/
theorem recordBatch_columnsOf (arrow : Arrow) (ready : Readable t)
    (keyNames : (t.keyFields.map FieldDesc.name).Nodup) (labels : Option Labels)
    {docs : List (Bytes × Bytes)} {reads : List (ValueMap × ValueMap)}
    (hreads : List.Forall₂ t.Reads docs reads) (hdefaults : t.DefaultsTaken reads) :
    recordBatch arrow t.schema.toCollectionSchema (docs.map Prod.fst)
        (reads.map fun read => some read.2) labels
      = Guarded.lift ((arrow.tryNew t.arrowFields (t.columnsOf labels reads)).mapError
          refusedBatch) := by
  rw [recordBatch_eq arrow ready.tags keyNames labels hreads,
    payloadColumns_eq ready labels hreads hdefaults]
  rfl

/-- **The columns of documents.** A batch of documents the codec reads is refused only for a
default of another kind than its field's, or for a key whose label is not known; and its columns
are the values of the fields, in the order of the declaration. -/
theorem columns_exact {arrow : Arrow} (lawful : arrow.Lawful) (ready : Readable t)
    (hkey : t.keyFields ≠ []) (keyNames : (t.keyFields.map FieldDesc.name).Nodup)
    (labels : Option Labels) {docs : List (Bytes × Bytes)} {reads : List (ValueMap × ValueMap)}
    (hreads : List.Forall₂ t.Reads docs reads) :
    ((recordBatch arrow t.schema.toCollectionSchema (docs.map Prod.fst)
        (reads.map fun read => some read.2) labels).Answers ↔
      t.DefaultsTaken reads ∧ t.KeysLabelled labels reads) ∧
    ∀ batch, recordBatch arrow t.schema.toCollectionSchema (docs.map Prod.fst)
        (reads.map fun read => some read.2) labels = answer batch →
      arrow.fields batch = t.arrowFields ∧ arrow.columns batch = t.columnsOf labels reads := by
  by_cases hdefaults : t.DefaultsTaken reads
  · rw [recordBatch_columnsOf arrow ready keyNames labels hreads hdefaults]
    have haccepts := (lawful.accepts _ _ (columnsOf_ne_nil hkey labels reads)).trans
      (fit_columnsOf labels reads)
    cases hnew : arrow.tryNew t.arrowFields (t.columnsOf labels reads) with
    | ok batch =>
      refine ⟨iff_of_true ⟨batch, rfl⟩ ⟨hdefaults, haccepts.mp ⟨batch, hnew⟩⟩,
        fun found hfound => ?_⟩
      injection hfound with hfound
      exact hfound ▸ lawful.kept _ _ batch hnew
    | error e =>
      refine ⟨iff_of_false (Guarded.not_answers_refuse _) fun h => ?_, fun found hfound => ?_⟩
      · obtain ⟨batch, hbatch⟩ := haccepts.mpr h.2
        cases hnew.symm.trans hbatch
      · cases hfound
  · -- one value of another kind, and arrow is not asked
    rw [recordBatch_eq arrow ready.tags keyNames labels hreads]
    obtain ⟨e, he⟩ := payloadColumns_error labels hdefaults
    rw [he]
    refine ⟨iff_of_false (Guarded.not_answers_refuse e) fun h => hdefaults h.1,
      fun found hfound => ?_⟩
    cases hfound

end

end DeclaredTable

/-- A text before a number, under a number. -/
def lineTable : DeclaredTable where
  keyLen := 4
  keyFields := [⟨"line", .u32, 4⟩]
  nsPrefix := [0, 9]
  layoutVersion := 1
  hotWidth := 4
  fields := [⟨"memo", .str, 0⟩, ⟨"level", .u32, 4⟩]
  defaults := []
  fieldContracts := []
  indexDecls := []
  faces := []
  keyKinds := by decide
  kinds := by decide
  keyLen_eq := by decide
  hotWidth_eq := by decide

theorem lineTable_readable : Readable lineTable := ⟨by decide, by decide, by decide, by decide⟩

/-- Two lines: the first has no text, the second is a greeting. -/
def lineDocs : List (Bytes × Bytes) :=
  [([0, 0, 0, 9], [1, 0, 4, 0, 0, 0, 7]),
    ([0, 0, 0, 10], [1, 0, 4, 0, 0, 0, 8] ++ 0 :: (putLen 2 ++ [104, 105]))]

/-- What the codec reads of them: the text of the first is at its default. -/
def lineReads : List (ValueMap × ValueMap) :=
  [(SortedMap.empty.insert "line" (.u32 9),
      (SortedMap.empty.insert "level" (.u32 7)).insert "memo" (.str "")),
    (SortedMap.empty.insert "line" (.u32 10),
      (SortedMap.empty.insert "level" (.u32 8)).insert "memo" (.str "hi"))]

theorem lineTable_reads : List.Forall₂ lineTable.Reads lineDocs lineReads := by
  refine List.Forall₂.cons ⟨rfl, ?_⟩ (List.Forall₂.cons ⟨rfl, ?_⟩ List.Forall₂.nil)
  · have hread := @decodePayload_eq lineTable.schema.toCollectionSchema rfl 1 (by decide)
      [0, 0, 0, 7] (by decide) []
    have hcold : ∀ out, decodeCold lineTable.schema.toCollectionSchema 7 [] out = answer out := by
      intro out
      rw [decodeCold]
    exact hread.trans (congrArg (· >>= fun out => answer (fillSchemaDefaults _ out)) (hcold _))
  · have hread := @decodePayload_eq lineTable.schema.toCollectionSchema rfl 1 (by decide)
      [0, 0, 0, 8] (by decide) (0 :: (putLen 2 ++ ([104, 105] ++ [])))
    refine hread.trans ?_
    have hcold : ∀ out, decodeCold lineTable.schema.toCollectionSchema 11
        (0 :: (putLen 2 ++ ([104, 105] ++ []))) out = answer (out.insert "memo" (.str "hi")) := by
      intro out
      rw [decodeCold_frame (by rfl) (by decide) (by decide)]
      have hframe : enterFrame lineTable.schema.toCollectionSchema out (0, [104, 105])
          = answer (out.insert "memo" (.str "hi")) := rfl
      rw [hframe, Guarded.answer_bind, decodeCold]
    exact congrArg (· >>= fun out => answer (fillSchemaDefaults _ out)) (hcold _)

instance (fields : List ArrowField) (columns : List Column) : Decidable (Fit fields columns) :=
  decidable_of_iff
    (columns.map Column.ty = fields.map ArrowField.ty ∧
      (∀ column ∈ columns, ∀ column' ∈ columns, column.cells.length = column'.cells.length) ∧
      ∀ p ∈ fields.zip columns, p.1.nullable = false → p.2.cells.all Option.isSome = true)
    ⟨fun h => ⟨h.1, h.2.1, h.2.2⟩, fun h => ⟨h.typed, h.even, h.whole⟩⟩

/-- Batches that are their fields and columns. -/
def plainArrow : Arrow where
  Batch := List ArrowField × List Column
  fields := Prod.fst
  columns := Prod.snd
  tryNew := fun fields columns =>
    if columns ≠ [] ∧ Fit fields columns then .ok (fields, columns)
    else .error "Invalid argument error"

theorem plainArrow_lawful : plainArrow.Lawful := by
  refine ⟨fun fields columns hsome => ?_, fun fields columns batch hbatch => ?_⟩
  · by_cases fit : Fit fields columns
    · exact iff_of_true ⟨(fields, columns), if_pos ⟨hsome, fit⟩⟩ fit
    · refine iff_of_false ?_ fit
      rintro ⟨batch, hbatch⟩
      cases (if_neg fun h => fit h.2 : plainArrow.tryNew fields columns = _).symm.trans hbatch
  · unfold plainArrow at hbatch
    dsimp only at hbatch
    split at hbatch
    · obtain rfl := Except.ok.inj hbatch
      exact ⟨rfl, rfl⟩
    · cases hbatch

/-- Two lines as columns: the numbers they are under, their texts, their levels. -/
theorem columns_exact_lines : ∃ batch,
    recordBatch plainArrow lineTable.schema.toCollectionSchema (lineDocs.map Prod.fst)
        (lineReads.map fun read => some read.2) none = answer batch ∧
      plainArrow.columns batch = [⟨.uInt32, [some (.u32 9), some (.u32 10)]⟩,
        ⟨.utf8, [some (.str ""), some (.str "hi")]⟩,
        ⟨.uInt32, [some (.u32 7), some (.u32 8)]⟩] := by
  have hdefaults : lineTable.DefaultsTaken lineReads := by
    have hplain : ∀ f ∈ lineTable.declared, f.default = none := by decide
    intro read _ f hf _
    unfold defaultValue
    rw [hplain f hf]
    exact taken_zeroValue f
  have hlabels : lineTable.KeysLabelled none lineReads := by
    unfold DeclaredTable.KeysLabelled
    decide
  obtain ⟨hends, hcolumns⟩ := @DeclaredTable.columns_exact lineTable plainArrow plainArrow_lawful
    lineTable_readable (by decide) (by decide) none lineDocs lineReads lineTable_reads
  obtain ⟨batch, hbatch⟩ := hends.mpr ⟨hdefaults, hlabels⟩
  exact ⟨batch, hbatch, (hcolumns batch hbatch).2⟩

end Okm.Dynamic
