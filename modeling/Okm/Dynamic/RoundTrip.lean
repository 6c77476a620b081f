import Okm.Dynamic.EncodeEnds
import Okm.Lib.Bindings
import Okm.Model.Lengths

/-!
# Rows read under a later declaration

What `decode_payload` makes of the bytes `encode_payload` wrote, when the reader's declaration
is the writer's with fields appended to it: every field the writer had is read back, and every
field it did not have takes the default the reader's declaration exports. With nothing appended
this is the round trip of the codec.

A hot field the writer did not have lies behind the end of the hot segment, a cold one has a
tag no frame carries. The two ways of being absent end in one step, `fill_schema_defaults`.
-/

namespace Okm.Dynamic

open Lib Model
open Guarded (answer refuse abort)

/-! ## Values after a round trip -/

/-- `dequantize(quantize(x, p), p)`. -/
def requantized (bits : UInt64) (p : UInt32) : UInt64 :=
  match quantize bits p.toNat, pow10 p.toNat with
  | some w, some c => bitsOf (quotient (doubleOf (Int64.ofInt w)) c)
  | _, _ => bits

/-- What a field is read back as: a float in its fixed-point form, an id as its bytes, any
other value as it is. -/
def settled (ty : FieldType) (v : Value) : Value :=
  match ty with
  | .quant p =>
    match v with
    | .f64 bits => .f64 (requantized bits p)
    | other => other
  | .vocab _ =>
    match v with
    | .u8 x => .bytes [x]
    | other => other
  | _ => v

/-- A declaration whose rows can be read back: names and tags tell the fields apart, the length
of the hot segment fits its header, and no byte array is empty. -/
structure Readable (t : DeclaredTable) : Prop where
  names : (t.fields.map FieldDesc.name).Nodup
  tags : t.fields.length ≤ 256
  header : t.hotWidth < 2 ^ 16
  arrays : ∀ f ∈ t.fields, f.ty = .fixedBytes → 0 < f.width

/-- The later declaration has the fields of the earlier one and some more behind them. -/
structure Appended (t t' : DeclaredTable) : Prop where
  fields : ∃ more, t'.fields = t.fields ++ more
  version : t.layoutVersion ≤ t'.layoutVersion

/-- The payload fields of a declaration. -/
def payloadFields (schema : CollectionSchema) : List FieldSchema :=
  schema.hotFields ++ schema.coldFields

/-- The payload field of a name. -/
def payloadField (schema : CollectionSchema) (name : String) : Option FieldSchema :=
  findKey FieldSchema.name name (payloadFields schema)

/-- **A row of one declaration as another one has it**: its own fields, and the defaults of
those it does not have. -/
def ReadAs (schema schema' : CollectionSchema) (values out : ValueMap) : Prop :=
  ∀ name, out.get name =
    match payloadField schema name with
    | some f => (values.get name).map (settled f.ty)
    | none => (payloadField schema' name).map defaultValue

/-! ## Images -/

theorem int64OfBytes_beBytes (w : Int64) : int64OfBytes (beBytes 8 w.toUInt64.toNat) = w := by
  have hread : beNat (beBytes 8 w.toUInt64.toNat) = w.toUInt64.toNat :=
    beNat_beBytes w.toUInt64.toNat_lt
  rw [int64OfBytes, hread, UInt64.ofNat_toNat]
  exact Int64.toInt64_toUInt64 w

/-- **A fixed field is read back from its bytes.** -/
theorem decodeFixed_storageBytes {f : FieldSchema} {v : Value} (hf : Static f)
    (hv : Admitted f.ty v) (hfits : Fits f v) (hnarrow : ¬ Wide f) (name : String) :
    decodeFixed name f.ty f.width (storageBytes f v) = answer (settled f.ty v) := by
  obtain ⟨hfixed, hsized⟩ := hf
  unfold Fits at hfits
  unfold Wide at hnarrow
  unfold storageBytes
  generalize f.ty = ty at hv hfixed hsized hfits hnarrow ⊢
  cases hv with
  | u8 x => rfl
  | u16 x =>
    have hread : beNat (beBytes 2 x.toNat) = x.toNat := beNat_beBytes x.toNat_lt
    dsimp only
    rw [decodeFixed, if_pos (length_beBytes _ _), hread, UInt16.ofNat_toNat]
    rfl
  | u32 x =>
    have hread : beNat (beBytes 4 x.toNat) = x.toNat := beNat_beBytes x.toNat_lt
    dsimp only
    rw [decodeFixed, if_pos (length_beBytes _ _), hread, UInt32.ofNat_toNat]
    rfl
  | u64 x =>
    have hread : beNat (beBytes 8 x.toNat) = x.toNat := beNat_beBytes x.toNat_lt
    dsimp only
    rw [decodeFixed, if_pos (length_beBytes _ _), hread, UInt64.ofNat_toNat]
    rfl
  | fixedBytes b => rfl
  | str s | varInt x => cases hfixed
  | quant p bits =>
    obtain ⟨w, hw⟩ := Option.isSome_iff_exists.mp hfits
    -- what quantises has a power of ten
    have hpow : ∃ c, pow10 p.toNat = some c := by
      unfold quantize at hw
      cases hc : pow10 p.toNat with
      | none =>
        rw [hc] at hw
        cases hw
      | some c => exact ⟨c, rfl⟩
    obtain ⟨c, hc⟩ := hpow
    dsimp only
    rw [decodeFixed, if_pos (length_beBytes _ _), int64OfBytes_beBytes, dequantize, hc,
      Guarded.answer_bind, hw]
    dsimp only [settled]
    rw [requantized, hw, hc]
    rfl
  | offset base x =>
    obtain ⟨hlo, hhi⟩ := hfits
    have hx := x.toInt_lt
    have hread : beNat (beBytes 4 (x.toInt - base.toInt).toNat) = (x.toInt - base.toInt).toNat :=
      beNat_beBytes (by omega)
    have hback : base + Int64.ofNat (x.toInt - base.toInt).toNat = x := by
      rw [← Int64.ofInt_eq_ofNat, Int.toNat_of_nonneg hlo, Int64.ofInt_sub, Int64.ofInt_toInt,
        Int64.ofInt_toInt, Int64.add_comm, Int64.sub_add_cancel]
    dsimp only
    rw [decodeFixed, if_pos (length_beBytes _ _), rebase, hread, if_pos (by omega), hback]
    rfl
  | vocab idSlot x =>
    have hone : f.width = 1 := not_not.mp hnarrow
    have hbyte : beBytes 1 x.toNat = [UInt8.ofNat x.toNat] := rfl
    dsimp only
    rw [decodeFixed, hone, hbyte, UInt8.ofNat_toNat]
    rfl

/-! ## The hot segment -/

/-- **Where the encoder of fields put each of them.** -/
theorem slice_of_encode {values : ValueMap} {fs : List FieldSchema} {buf hot : Bytes}
    (hstatic : ∀ f ∈ fs, Static f) (hplaced : Placed buf.length fs)
    (hfit : FieldsFit values fs) (h : fs.foldlM (encodeField values) buf = answer hot) :
    (∃ tail, hot = buf ++ tail) ∧ ∀ f ∈ fs, ∃ v, given values f = some v ∧ Fits f v ∧ ¬ Wide f ∧
      f.offset + f.width ≤ hot.length ∧
      (hot.take (f.offset + f.width)).drop f.offset = storageBytes f v := by
  induction fs generalizing buf with
  | nil =>
    injection h with h
    exact ⟨⟨[], by rw [← h, List.append_nil]⟩, by simp⟩
  | cons f fs ih =>
    obtain ⟨hf, hrest⟩ := List.forall_mem_cons.mp hstatic
    obtain ⟨⟨v, hv, hfits, hnarrow⟩, hfitRest⟩ := List.forall_mem_cons.mp hfit
    obtain ⟨hplace, hplacedRest⟩ := hplaced
    have hwritten := ((encodeField_ends values buf hf).2 v hv).2 hplace.symm |>.2.2 hfits
    rw [(length_writtenBytes hf (given_some hv).2 hfits).2 hnarrow] at hwritten
    have hlen := length_storageBytes hf (given_some hv).2 hfits
    rw [List.foldlM_cons, hwritten, Guarded.answer_bind] at h
    have hnext : Placed (buf ++ storageBytes f v).length fs := by
      rw [List.length_append, hlen]
      exact hplacedRest
    obtain ⟨⟨tail, rfl⟩, hslices⟩ := ih hrest hnext hfitRest h
    refine ⟨⟨storageBytes f v ++ tail, List.append_assoc _ _ _⟩, ?_⟩
    refine List.forall_mem_cons.mpr ⟨⟨v, hv, hfits, hnarrow, ?_, ?_⟩, hslices⟩
    · simp only [List.length_append]
      omega
    · have hcut : f.offset + f.width = (buf ++ storageBytes f v).length := by
        rw [List.length_append]
        omega
      rw [hcut, List.take_left, hplace, List.drop_left]

theorem get_of_given {values : ValueMap} {f : FieldSchema} {v : Value}
    (h : given values f = some v) : values.get f.name = some v := by
  have hpair := (given_some h).1
  unfold fieldPair at hpair
  split at hpair
  · cases hpair
  · rename_i w hw
    split at hpair
    · rw [hw, Except.ok.inj hpair]
    · cases hpair

/-! ## Cold frames -/

/-- **A frame is read from the front of what is left.** -/
theorem decodeCold_frame {schema : CollectionSchema} {size : Nat} {tag : UInt8}
    {len bytes rest : Bytes} (hlen : putLenBytes bytes.length = answer len)
    (hfits : (bytes ++ rest).length ≤ size) (hsize : size < 2 ^ 64) (out : ValueMap) :
    decodeCold schema size (tag :: (len ++ (bytes ++ rest))) out
      = enterFrame schema out (tag, bytes) >>= decodeCold schema size rest := by
  rw [List.length_append] at hfits
  have hsmall : bytes.length < 2 ^ 64 := by omega
  have hwidth : widthOf bytes.length ≠ 8 := (putLenBytes_ends _).1.mp ⟨len, hlen⟩
  have hput : len = putLen bytes.length := by
    unfold putLenBytes at hlen
    rw [putLenChecked_eq hsmall, if_neg hwidth] at hlen
    injection hlen with hlen
    exact hlen.symm
  have hread := takeLenChecked_putLen hsmall hwidth (bytes ++ rest)
  rw [takeLen_putLen_width hsmall hwidth, ← length_putLen_width hsmall] at hread
  rw [decodeCold, hput, hread]
  dsimp only
  rw [List.drop_left, List.length_append, if_neg (by omega), if_neg (by omega), List.take_left,
    List.drop_left]

/-- A value that passed the gate of a cold field is read back from its frame. -/
theorem decodeFrame_coldValue {f g : FieldSchema} {v : Value} {bytes : Bytes}
    (hkind : sized f.ty 0 = true) (harray : f.ty ≠ .fixedBytes) (hty : g.ty = f.ty)
    (hv : Admitted f.ty v) (h : coldValue f v = answer bytes) :
    decodeFrame g bytes = answer (settled f.ty v) := by
  unfold coldValue coldFrameBytes at h
  unfold decodeFrame
  rw [hty]
  generalize f.ty = ty at hkind harray hv h ⊢
  cases hv with
  | str s =>
    injection h with h
    rw [← h]
    dsimp only
    rw [strOfBytes_strBytes]
    rfl
  | varInt x =>
    dsimp only at h ⊢
    have hwidth : widthOf x.toNat ≠ 8 := (putLenBytes_ends _).1.mp ⟨bytes, h⟩
    have hput : bytes = putLen x.toNat := by
      unfold putLenBytes at h
      rw [putLenChecked_eq x.toNat_lt, if_neg hwidth] at h
      injection h with h
      exact h.symm
    have hread := takeLenChecked_putLen x.toNat_lt hwidth []
    rw [takeLen_putLen_width x.toNat_lt hwidth, List.append_nil, ← hput] at hread
    have hlen : bytes.length = widthOf x.toNat := by
      rw [hput, length_putLen_width x.toNat_lt]
    cases hbytes : bytes with
    | nil =>
      rw [hbytes] at hread
      cases hread
    | cons first rest =>
      -- the first byte announces the width there is
      have hmarker : markerWidth first = bytes.length := by
        have htake : takeLen bytes = some (x.toNat, widthOf x.toNat) := by
          have := takeLen_putLen_width x.toNat_lt hwidth []
          rwa [List.append_nil, ← hput] at this
        rw [hbytes, takeLen] at htake
        dsimp only at htake
        rw [hlen]
        split at htake
        · cases htake
        · split at htake
          · exact (Prod.mk.inj (Option.some.inj htake)).2
          · exact (Prod.mk.inj (Option.some.inj htake)).2
      dsimp only
      rw [← hbytes, hmarker, if_neg (fun hne => hne rfl), hread]
      dsimp only
      rw [UInt64.ofNat_toNat]
      rfl
  | fixedBytes b => exact absurd rfl harray
  | _ => simp [sized, keySized] at hkind

/-! ## What a declaration exports -/

/-- A field without what only a reader's defaults and contracts use. -/
def layout (f : FieldSchema) : FieldSchema := { f with default := none, expectLen := none }

theorem Placed.ge {off : Nat} {fs : List FieldSchema} (h : Placed off fs) {f : FieldSchema}
    (hf : f ∈ fs) : off ≤ f.offset := by
  induction fs generalizing off with
  | nil => cases hf
  | cons g fs ih =>
    obtain ⟨hplace, hrest⟩ := h
    rcases List.mem_cons.mp hf with rfl | hf
    · omega
    · have := ih hrest hf
      omega

section

variable (decl decl' : TableDecl)

/-- **Appended fields move none of those before them.** -/
theorem exportFields_append (fi off : Nat) (fs more : List FieldDesc) :
    (decl'.exportFields fi off (fs ++ more)).1.map layout
        = (decl.exportFields fi off fs).1.map layout
          ++ (decl'.exportFields (fi + fs.length) (off + (fs.map FieldDesc.width).sum)
              more).1.map layout ∧
      (decl'.exportFields fi off (fs ++ more)).2.map layout
        = (decl.exportFields fi off fs).2.map layout
          ++ (decl'.exportFields (fi + fs.length) (off + (fs.map FieldDesc.width).sum)
              more).2.map layout := by
  induction fs generalizing fi off with
  | nil => exact ⟨rfl, rfl⟩
  | cons f fs ih =>
    have hcount : fi + (f :: fs).length = fi + 1 + fs.length := by
      rw [List.length_cons]
      omega
    have hsum : off + ((f :: fs).map FieldDesc.width).sum
        = off + f.width + (fs.map FieldDesc.width).sum := by
      rw [List.map_cons, List.sum_cons]
      omega
    rw [hcount, hsum, List.cons_append, TableDecl.exportFields, TableDecl.exportFields]
    by_cases hpos : 0 < f.width
    · rw [if_pos hpos, if_pos hpos]
      obtain ⟨hhot, hcold⟩ := ih (fi + 1) (off + f.width)
      dsimp only
      rw [List.map_cons, List.map_cons, hhot, hcold]
      exact ⟨rfl, rfl⟩
    · rw [if_neg hpos, if_neg hpos]
      obtain ⟨hhot, hcold⟩ := ih (fi + 1) off
      have hzero : f.width = 0 := by omega
      dsimp only
      rw [List.map_cons, List.map_cons, hzero, Nat.add_zero, hhot, hcold]
      exact ⟨rfl, rfl⟩

theorem exportFields_names (fi off : Nat) (fs : List FieldDesc) :
    (((decl.exportFields fi off fs).1 ++ (decl.exportFields fi off fs).2).map
      FieldSchema.name).Perm (fs.map FieldDesc.name) := by
  induction fs generalizing fi off with
  | nil => exact List.Perm.nil
  | cons f fs ih =>
    rw [TableDecl.exportFields]
    split
    · exact (ih (fi + 1) (off + f.width)).cons f.name
    · dsimp only
      rw [List.map_append, List.map_cons, List.map_cons]
      refine List.perm_middle.trans ?_
      rw [← List.map_append]
      exact (ih (fi + 1) off).cons f.name

/-- The cold fields are tagged with their places. -/
theorem exportFields_tags {fi off : Nat} {fs : List FieldDesc} (hfew : fi + fs.length ≤ 256) :
    (∀ f ∈ (decl.exportFields fi off fs).2, ∃ j, fi ≤ j ∧ j < 256 ∧
      f.tag = some (UInt8.ofNat j)) ∧
    DistinctKeys FieldSchema.tag (decl.exportFields fi off fs).2 := by
  induction fs generalizing fi off with
  | nil => exact ⟨by simp [TableDecl.exportFields], List.nodup_nil⟩
  | cons f fs ih =>
    rw [List.length_cons] at hfew
    rw [TableDecl.exportFields]
    split
    · obtain ⟨htags, hdistinct⟩ := @ih (fi + 1) (off + f.width) (by omega)
      refine ⟨fun g hg => ?_, hdistinct⟩
      obtain ⟨j, hle, hlt, htag⟩ := htags g hg
      exact ⟨j, by omega, hlt, htag⟩
    · obtain ⟨htags, hdistinct⟩ := @ih (fi + 1) off (by omega)
      refine ⟨List.forall_mem_cons.mpr ⟨⟨fi, le_refl fi, by omega, rfl⟩, fun g hg => ?_⟩, ?_⟩
      · obtain ⟨j, hle, hlt, htag⟩ := htags g hg
        exact ⟨j, by omega, hlt, htag⟩
      · refine List.nodup_cons.mpr ⟨fun hmem => ?_, hdistinct⟩
        obtain ⟨g, hg, heq⟩ := List.mem_map.mp hmem
        obtain ⟨j, hle, hlt, htag⟩ := htags g hg
        have hbyte : UInt8.ofNat j = UInt8.ofNat fi := Option.some.inj (htag.symm.trans heq)
        have := ofNat_inj_of_lt hlt (by omega) hbyte
        omega

end

theorem layout_inj {f g : FieldSchema} (h : layout f = layout g) : f.name = g.name ∧ f.ty = g.ty ∧
    f.width = g.width ∧ f.offset = g.offset ∧ f.tag = g.tag := by
  obtain ⟨name, ty, width, offset, tag, default, expectLen⟩ := f
  obtain ⟨name', ty', width', offset', tag', default', expectLen'⟩ := g
  simp only [layout, FieldSchema.mk.injEq] at h
  exact ⟨h.1, h.2.1, h.2.2.1, h.2.2.2.1, h.2.2.2.2.1⟩

section

variable {t t' : DeclaredTable}

theorem Readable.distinct (h : Readable t) :
    DistinctKeys FieldSchema.name (payloadFields t.schema.toCollectionSchema) :=
  (exportFields_names t.toTableDecl 0 0 t.fields).nodup_iff.mpr h.names

/-- A field of the earlier declaration stands where it stood. -/
theorem Appended.kept (h : Appended t t') :
    (∀ f ∈ t.schema.hotFields, ∃ g ∈ t'.schema.hotFields, layout g = layout f) ∧
    (∀ f ∈ t.schema.coldFields, ∃ g ∈ t'.schema.coldFields, layout g = layout f) := by
  obtain ⟨more, hmore⟩ := h.fields
  obtain ⟨hhot, hcold⟩ := exportFields_append t.toTableDecl t'.toTableDecl 0 0 t.fields more
  rw [← hmore] at hhot hcold
  constructor
  · intro f hf
    have hmem : layout f ∈ t'.schema.hotFields.map layout := by
      change layout f ∈ (t'.exportFields 0 0 t'.fields).1.map layout
      rw [hhot]
      exact List.mem_append_left _ (List.mem_map_of_mem hf)
    exact List.mem_map.mp hmem
  · intro f hf
    have hmem : layout f ∈ t'.schema.coldFields.map layout := by
      change layout f ∈ (t'.exportFields 0 0 t'.fields).2.map layout
      rw [hcold]
      exact List.mem_append_left _ (List.mem_map_of_mem hf)
    exact List.mem_map.mp hmem

/-- A hot field of the later declaration is one of the earlier, or lies behind its segment. -/
theorem Appended.hot (h : Appended t t') {g : FieldSchema} (hg : g ∈ t'.schema.hotFields) :
    (∃ f ∈ t.schema.hotFields, layout f = layout g) ∨ t.hotWidth < g.offset + g.width := by
  obtain ⟨more, hmore⟩ := h.fields
  obtain ⟨hhot, -⟩ := exportFields_append t.toTableDecl t'.toTableDecl 0 0 t.fields more
  rw [← hmore] at hhot
  have hmem : layout g ∈ (t'.exportFields 0 0 t'.fields).1.map layout := List.mem_map_of_mem hg
  rw [hhot] at hmem
  rcases List.mem_append.mp hmem with hmem | hmem
  · exact Or.inl (List.mem_map.mp hmem)
  · obtain ⟨f, hf, hlayout⟩ := List.mem_map.mp hmem
    have hge := (exportFields_placed t'.toTableDecl _ _ more).ge hf
    have hoffset := (layout_inj hlayout).2.2.2.1
    have hpos := (t'.hot_sized hg).2
    rw [Nat.zero_add, ← t.hotWidth_eq] at hge
    exact Or.inr (by omega)

theorem Readable.earlier (ready : Readable t') (h : Appended t t') : Readable t := by
  obtain ⟨more, hmore⟩ := h.fields
  have hsum := t'.hotWidth_eq
  rw [hmore, List.map_append, List.sum_append, ← t.hotWidth_eq] at hsum
  have hnames := ready.names
  have htags := ready.tags
  rw [hmore, List.map_append] at hnames
  rw [hmore, List.length_append] at htags
  refine ⟨(List.nodup_append.mp hnames).1, by omega, by have := ready.header; omega, ?_⟩
  intro f hf
  refine ready.arrays f ?_
  rw [hmore]
  exact List.mem_append_left more hf

/-- The reader finds a field of the earlier declaration by its tag. -/
theorem Readable.tagged (ready : Readable t') (h : Appended t t') {f : FieldSchema}
    (hf : f ∈ t.schema.coldFields) : ∃ tag g, f.tag = some tag ∧
      byTag t'.schema.toCollectionSchema tag = some g ∧ layout g = layout f := by
  obtain ⟨g, hg, hlayout⟩ := h.kept.2 f hf
  obtain ⟨tag, htag⟩ := Option.isSome_iff_exists.mp (t.cold_sized hf).2.2
  have hgtag : g.tag = some tag := (layout_inj hlayout).2.2.2.2.trans htag
  have hcold : DistinctKeys FieldSchema.tag t'.schema.coldFields :=
    (@exportFields_tags t'.toTableDecl 0 0 _ (by have := ready.tags; omega)).2
  have hdistinct : DistinctKeys FieldSchema.tag t'.schema.coldFields.reverse := by
    rw [DistinctKeys, List.map_reverse]
    exact List.nodup_reverse.mpr hcold
  refine ⟨tag, g, htag, ?_, hlayout⟩
  have hfind := findKey_of_mem hdistinct (List.mem_reverse.mpr hg)
  rw [hgtag] at hfind
  exact hfind

/-- No cold field is a byte array. -/
theorem Readable.cold_kind (ready : Readable t) {f : FieldSchema}
    (hf : f ∈ t.schema.coldFields) : f.ty ≠ .fixedBytes := by
  intro hty
  obtain ⟨d, hd, hkind, hzero, -⟩ := (mem_exportFields t.toTableDecl).2 hf
  have hpos := ready.arrays d hd (hkind ▸ hty)
  omega

end

/-! ## The round trip -/

/-- What is read of a written field. -/
def imageOf (values : ValueMap) (f : FieldSchema) : Option Value :=
  (values.get f.name).map (settled f.ty)

/-- **The frames of the cold fields are read back, whatever the map held before.** -/
theorem decodeCold_encodeCold {schema : CollectionSchema} {values : ValueMap}
    {fs : List FieldSchema} (hkinds : ∀ f ∈ fs, sized f.ty 0 = true ∧ f.ty ≠ .fixedBytes ∧
      ∃ tag g, f.tag = some tag ∧ byTag schema tag = some g ∧ layout g = layout f)
    {buf b : Bytes} (h : fs.foldlM (encodeCold values) buf = answer b) :
    (∀ f ∈ fs, ∃ v, values.get f.name = some v) ∧ ∃ tail, b = buf ++ tail ∧
      ∀ size out, tail.length ≤ size → size < 2 ^ 64 → decodeCold schema size tail out
        = answer (SortedMap.bindAll FieldSchema.name (imageOf values) out fs) := by
  induction fs generalizing buf with
  | nil =>
    injection h with h
    refine ⟨by simp, [], by rw [← h, List.append_nil], fun size out _ _ => ?_⟩
    rw [decodeCold]
    rfl
  | cons f fs ih =>
    obtain ⟨⟨hkind, harray, tag, g, htag, hby, hlayout⟩, hrest⟩ := List.forall_mem_cons.mp hkinds
    obtain ⟨hname, hty, -⟩ := layout_inj hlayout
    rw [List.foldlM_cons] at h
    obtain ⟨buf', hstep, h⟩ := Guarded.bind_eq_answer.mp h
    -- one frame: the gate, the value, its length
    unfold encodeCold at hstep
    obtain ⟨v, hgate, hstep⟩ := Guarded.bind_eq_answer.mp hstep
    rw [htag] at hstep
    obtain ⟨bytes, hbytes, hstep⟩ := Guarded.bind_eq_answer.mp hstep
    obtain ⟨len, hlen, hstep⟩ := Guarded.bind_eq_answer.mp hstep
    injection hstep with hstep
    have hv : given values f = some v := by
      unfold given
      cases hpair : fieldPair f.name f.ty values with
      | error e =>
        rw [hpair] at hgate
        cases hgate
      | ok w =>
        rw [hpair] at hgate
        injection hgate with hgate
        rw [hgate]
        rfl
    obtain ⟨hgiven, tail, rfl, hread⟩ := ih hrest h
    refine ⟨List.forall_mem_cons.mpr ⟨⟨v, get_of_given hv⟩, hgiven⟩,
      tag :: (len ++ (bytes ++ tail)), ?_, fun size out hfits hsize => ?_⟩
    · rw [← hstep]
      simp
    · rw [List.length_cons, List.length_append] at hfits
      rw [decodeCold_frame hlen (by omega) hsize, enterFrame, hby]
      dsimp only
      rw [decodeFrame_coldValue hkind harray hty (given_some hv).2 hbytes, Guarded.answer_bind,
        Guarded.answer_bind, hname, hread size _ (by rw [List.length_append] at hfits; omega) hsize]
      have himage : imageOf values f = some (settled f.ty v) := by
        rw [imageOf, get_of_given hv, Option.map_some]
      rw [SortedMap.bindAll, SortedMap.bindAll, List.foldl_cons, himage]
      rfl

/-- What the header announces is read: the hot segment, then the frames, then the defaults. -/
theorem decodePayload_eq {schema : CollectionSchema} (hhdr : schema.payloadHeaderLen = 3)
    {version : UInt8} (hversion : version ≤ schema.layoutVersion) {hot : Bytes}
    (hbig : hot.length < 2 ^ 16) (tail : Bytes) :
    decodePayload schema (version :: (beBytes 2 hot.length ++ hot) ++ tail) =
      schema.hotFields.foldlM (enterHot hot) SortedMap.empty >>= fun out =>
        decodeCold schema (3 + hot.length + tail.length) tail out >>= fun out =>
          answer (fillSchemaDefaults schema out) := by
  have hannounced : beNat (beBytes 2 hot.length) = hot.length := beNat_beBytes hbig
  have hbytes : version :: (beBytes 2 hot.length ++ hot) ++ tail
      = version :: UInt8.ofNat (hot.length / 256) :: UInt8.ofNat hot.length :: (hot ++ tail) := by
    rw [beBytes_two]
    simp
  have hlen : (version :: UInt8.ofNat (hot.length / 256) :: UInt8.ofNat hot.length
      :: (hot ++ tail)).length = 3 + hot.length + tail.length := by
    simp only [List.length_cons, List.length_append]
    omega
  have hthree : ∀ (a b c : UInt8) (rest : Bytes), (a :: b :: c :: rest).drop 3 = rest :=
    fun _ _ _ _ => rfl
  have htake : (hot ++ tail).take hot.length = hot := List.take_left
  have hdrop : (hot ++ tail).drop hot.length = tail := List.drop_left
  rw [beBytes_two] at hannounced
  unfold decodePayload
  rw [hbytes]
  dsimp only
  rw [hlen, hhdr, if_neg (by omega), if_neg (UInt8.not_lt.mpr hversion), hannounced,
    if_neg (by omega), hthree, htake, hdrop]

/-- The image of a field where the hot segment reaches. -/
def hotImage (values : ValueMap) (hot : Bytes) (g : FieldSchema) : Option Value :=
  if g.offset + g.width ≤ hot.length then imageOf values g else none

section

variable {t t' : DeclaredTable} {values : ValueMap} {hot : Bytes}

/-- **The reader's hot fields**: one the writer had is read where the writer put it, any other
is not there. -/
theorem decodeHot_encodeHot (later : Appended t t') (hlen : hot.length = t.hotWidth)
    (hhot : t.schema.hotFields.foldlM (encodeField values) [] = answer hot) :
    t'.schema.hotFields.foldlM (enterHot hot) SortedMap.empty
        = answer (SortedMap.bindAll FieldSchema.name (hotImage values hot) SortedMap.empty
            t'.schema.hotFields) ∧
      ∀ f ∈ t.schema.hotFields, f.offset + f.width ≤ hot.length ∧
        ∃ v, values.get f.name = some v := by
  have hfit : FieldsFit values t.schema.hotFields := by
    have hwhole := (fields_end values (statics t).2 [] t.hot_placed).whole
    rw [List.length_nil, Nat.zero_add, t.hot_width] at hwhole
    exact hwhole.mp ⟨hot, hhot, hlen⟩
  have hplaced : Placed ([] : Bytes).length t.schema.hotFields := t.hot_placed
  obtain ⟨-, hslices⟩ := slice_of_encode (statics t).2 hplaced hfit hhot
  refine ⟨Guarded.foldlM_eq_answer (fun g hg out => ?_) _, fun f hf => ?_⟩
  · unfold enterHot hotImage
    by_cases hin : g.offset + g.width ≤ hot.length
    · rcases later.hot hg with ⟨f, hf, hlayout⟩ | hbehind
      · obtain ⟨hname, hty, hwidth, hoffset, -⟩ := layout_inj hlayout
        obtain ⟨v, hv, hfits, hnarrow, -, hslice⟩ := hslices f hf
        have hread := decodeFixed_storageBytes ((statics t).2 f hf) (given_some hv).2 hfits hnarrow
          f.name
        rw [if_pos hin, if_pos hin, imageOf, ← hname, ← hty, ← hwidth, ← hoffset, hslice, hread,
          get_of_given hv]
        rfl
      · omega
    · rw [if_neg hin, if_neg hin]
      rfl
  · obtain ⟨v, hv, -, -, hin, -⟩ := hslices f hf
    exact ⟨hin, v, get_of_given hv⟩

/-- **What the three steps of the reader leave**: the writer's fields and the defaults of the
others. -/
theorem readAs_of_images (ready : Readable t') (later : Appended t t')
    (hlen : hot.length = t.hotWidth)
    (hhot : ∀ f ∈ t.schema.hotFields, f.offset + f.width ≤ hot.length ∧
      ∃ v, values.get f.name = some v)
    (hcold : ∀ f ∈ t.schema.coldFields, ∃ v, values.get f.name = some v) :
    ReadAs t.schema.toCollectionSchema t'.schema.toCollectionSchema values
      (fillSchemaDefaults t'.schema.toCollectionSchema
        (SortedMap.bindAll FieldSchema.name (imageOf values)
          (SortedMap.bindAll FieldSchema.name (hotImage values hot) SortedMap.empty
            t'.schema.hotFields) t.schema.coldFields)) := by
  intro name
  have hfill : ∀ m : ValueMap, fillSchemaDefaults t'.schema.toCollectionSchema m
      = SortedMap.fillAll FieldSchema.name defaultValue m
        (payloadFields t'.schema.toCollectionSchema) := fun _ => rfl
  have hdistinct := ready.distinct
  have hdistinct₀ := (ready.earlier later).distinct
  rw [DistinctKeys, payloadFields, List.map_append] at hdistinct hdistinct₀
  obtain ⟨hhotKeys, -, -⟩ := List.nodup_append.mp hdistinct
  obtain ⟨-, hcoldKeys, hapart⟩ := List.nodup_append.mp hdistinct₀
  rw [hfill, SortedMap.get_fillAll, SortedMap.get_bindAll hcoldKeys,
    SortedMap.get_bindAll hhotKeys, SortedMap.get_empty, Option.or_none]
  cases hfield : payloadField t.schema.toCollectionSchema name with
  | some f =>
    obtain ⟨hmem, rfl⟩ := mem_of_findKey hfield
    rcases List.mem_append.mp hmem with hf | hf
    · -- a hot field: the reader has it in the same place, and no cold one by its name
      have hnone : findKey FieldSchema.name f.name t.schema.coldFields = none := by
        refine findKey_eq_none.mpr fun g hg hname => ?_
        exact hapart f.name (List.mem_map_of_mem hf) g.name (List.mem_map_of_mem hg) hname.symm
      obtain ⟨g, hg, hlayout⟩ := later.kept.1 f hf
      obtain ⟨hname, hty, hwidth, hoffset, -⟩ := layout_inj hlayout
      obtain ⟨hin, v, hv⟩ := hhot f hf
      have hfind : findKey FieldSchema.name f.name t'.schema.hotFields = some g := by
        rw [← hname]
        exact findKey_of_mem hhotKeys hg
      rw [hnone, hfind, Option.bind_none, Option.bind_some, hotImage, hwidth, hoffset, if_pos hin,
        imageOf, hname, hty, hv]
      rfl
    · -- a cold field is found by its own name
      obtain ⟨v, hv⟩ := hcold f hf
      rw [findKey_of_mem hcoldKeys hf, Option.bind_some, imageOf, hv]
      rfl
  | none =>
    -- a field the writer did not have: behind the hot bytes, so it takes its default
    have hfresh := findKey_eq_none.mp hfield
    have hnone : findKey FieldSchema.name name t.schema.coldFields = none :=
      findKey_eq_none.mpr fun g hg => hfresh g (List.mem_append_right _ hg)
    have hbehind : (findKey FieldSchema.name name t'.schema.hotFields).bind (hotImage values hot)
        = none := by
      cases hg : findKey FieldSchema.name name t'.schema.hotFields with
      | none => rfl
      | some g =>
        obtain ⟨hmem, hname⟩ := mem_of_findKey hg
        rcases later.hot hmem with ⟨f, hf, hlayout⟩ | hbehind
        · exact absurd ((layout_inj hlayout).1.trans hname)
            (hfresh f (List.mem_append_left _ hf))
        · exact if_neg (by omega)
    rw [hnone, hbehind]
    rfl

/-- **A row is read under every later declaration**: the fields it was written with come back,
and the fields appended since take their defaults. -/
theorem decode_encode_appended (ready : Readable t') (later : Appended t t') {b : Bytes}
    (henc : encodePayload t.schema values = answer b) (hsize : b.length < 2 ^ 64) :
    ∃ out, decodePayload t'.schema.toCollectionSchema b = answer out ∧
      ReadAs t.schema.toCollectionSchema t'.schema.toCollectionSchema values out := by
  have ready₀ := ready.earlier later
  unfold encodePayload at henc
  obtain ⟨hot, hhot, henc⟩ := Guarded.bind_eq_answer.mp henc
  by_cases hlen : hot.length = t.schema.hotWidth
  · rw [if_neg (not_not.mpr hlen)] at henc
    have hkinds : ∀ f ∈ t.schema.coldFields, sized f.ty 0 = true ∧ f.ty ≠ .fixedBytes ∧
        ∃ tag g, f.tag = some tag ∧ byTag t'.schema.toCollectionSchema tag = some g ∧
          layout g = layout f :=
      fun f hf => ⟨(t.cold_sized hf).1, ready₀.cold_kind hf, ready.tagged later hf⟩
    obtain ⟨hcold, tail, rfl, hframes⟩ := decodeCold_encodeCold hkinds henc
    obtain ⟨hread, hgiven⟩ := decodeHot_encodeHot later hlen hhot
    have hbig : hot.length < 2 ^ 16 := hlen ▸ ready₀.header
    have htail : 3 + hot.length + tail.length < 2 ^ 64 := by
      simp only [List.length_append, List.length_cons, length_beBytes] at hsize
      omega
    refine ⟨_, ?_, readAs_of_images ready later hlen hgiven hcold⟩
    rw [decodePayload_eq rfl later.version hbig, hread, Guarded.answer_bind,
      hframes _ _ (by omega) htail, Guarded.answer_bind]
  · rw [if_pos hlen] at henc
    cases henc

end

/-! ## Writing a row again -/

/-- The kinds read back as they were written. -/
def exactKind : FieldType → Bool
  | .quant _ | .vocab _ => false
  | _ => true

theorem settled_of_exact {ty : FieldType} (h : exactKind ty = true) (v : Value) :
    settled ty v = v := by
  unfold settled
  cases ty <;> first | rfl | cases h

/-- Every field of a map is one the encoder writes. -/
structure Writable (t : DeclaredTable) (values : ValueMap) : Prop where
  hot : FieldsFit values t.schema.hotFields
  cold : ∀ f ∈ t.schema.coldFields, ColdFits values f

/-- **The maps `encode_payload` writes.** -/
theorem encodePayload_answers (t : DeclaredTable) (values : ValueMap) :
    (encodePayload t.schema values).Answers ↔ Writable t values := by
  have hwhole := (fields_end values (statics t).2 [] t.hot_placed).whole
  rw [List.length_nil, Nat.zero_add, t.hot_width] at hwhole
  have hcold : ∀ buf, (t.schema.coldFields.foldlM (encodeCold values) buf).Answers ↔
      ∀ f ∈ t.schema.coldFields, ColdFits values f := by
    intro buf
    refine Guarded.foldlM_answers (fun f hf buf => ?_) buf
    obtain ⟨hkind, hwidth, htag⟩ := t.cold_sized hf
    exact (encodeCold_ends hkind hwidth htag values buf).1
  unfold encodePayload
  rw [Guarded.answers_bind]
  constructor
  · intro h
    obtain ⟨hot, hhot, h⟩ := h
    by_cases hlen : hot.length = t.schema.hotWidth
    · rw [if_neg (not_not.mpr hlen)] at h
      exact ⟨hwhole.mp ⟨hot, hhot, hlen⟩, (hcold _).mp h⟩
    · rw [if_pos hlen] at h
      obtain ⟨b, h⟩ := h
      cases h
  · intro h
    obtain ⟨hot, hhot, hlen⟩ := hwhole.mpr h.hot
    refine ⟨hot, hhot, ?_⟩
    rw [if_neg (not_not.mpr hlen)]
    exact (hcold _).mpr h.cold

/-- The encoder looks at a map field by field. -/
theorem given_congr {values values' : ValueMap} {f g : FieldSchema} (hlayout : layout f = layout g)
    (h : values'.get f.name = values.get f.name) : given values' f = given values g := by
  obtain ⟨hname, hty, -⟩ := layout_inj hlayout
  unfold given fieldPair
  rw [h, hname, hty]

/-- A default that passes its field's own check. -/
def DefaultFits (f : FieldSchema) : Prop :=
  admits f.ty (defaultValue f) = true ∧
    (0 < f.width → Fits f (defaultValue f)) ∧
    (f.width = 0 → ColdFits (SortedMap.empty.insert f.name (defaultValue f)) f)

section

variable {t t' : DeclaredTable} {values out : ValueMap}

/-- The field of a name both declarations have is the same one. -/
theorem Appended.same (ready : Readable t') (later : Appended t t') {f g : FieldSchema}
    (hg : g ∈ payloadFields t'.schema.toCollectionSchema)
    (hf : payloadField t.schema.toCollectionSchema g.name = some f) :
    f ∈ payloadFields t.schema.toCollectionSchema ∧ layout g = layout f := by
  obtain ⟨hmem, hname⟩ := mem_of_findKey hf
  obtain ⟨g', hg', hlayout⟩ : ∃ g' ∈ payloadFields t'.schema.toCollectionSchema,
      layout g' = layout f := by
    rcases List.mem_append.mp hmem with hhot | hcold
    · obtain ⟨g', hg', hlayout⟩ := later.kept.1 f hhot
      exact ⟨g', List.mem_append_left _ hg', hlayout⟩
    · obtain ⟨g', hg', hlayout⟩ := later.kept.2 f hcold
      exact ⟨g', List.mem_append_right _ hg', hlayout⟩
  have hsame : g' = g := by
    refine List.inj_on_of_nodup_map ready.distinct hg' hg ?_
    rw [(layout_inj hlayout).1, hname]
  exact ⟨hmem, hsame ▸ hlayout⟩

theorem Appended.exact (hexact : ∀ f ∈ t'.fields, exactKind f.ty = true) {g : FieldSchema}
    (hg : g ∈ payloadFields t'.schema.toCollectionSchema) : exactKind g.ty = true := by
  rcases List.mem_append.mp hg with hg | hg
  · obtain ⟨d, hd, hty, -⟩ := (mem_exportFields t'.toTableDecl).1 hg
    rw [hty]
    exact hexact d hd
  · obtain ⟨d, hd, hty, -⟩ := (mem_exportFields t'.toTableDecl).2 hg
    rw [hty]
    exact hexact d hd

/-- **A row as a later declaration has it can be written by that declaration**, where no kind
changes on its way and the defaults are values of their fields. -/
theorem Writable.later (ready : Readable t') (later : Appended t t')
    (hexact : ∀ f ∈ t'.fields, exactKind f.ty = true)
    (hdefaults : ∀ f ∈ payloadFields t'.schema.toCollectionSchema, DefaultFits f)
    (h : Writable t values)
    (hread : ReadAs t.schema.toCollectionSchema t'.schema.toCollectionSchema values out) :
    Writable t' out := by
  have ready₀ := ready.earlier later
  -- a field of the earlier declaration keeps its value
  have hkept : ∀ g ∈ payloadFields t'.schema.toCollectionSchema, ∀ f,
      payloadField t.schema.toCollectionSchema g.name = some f → given out g = given values f := by
    intro g hg f hf
    obtain ⟨hmem, hlayout⟩ := Appended.same ready later hg hf
    obtain ⟨hname, hty, -⟩ := layout_inj hlayout
    refine given_congr hlayout ?_
    rw [hread g.name, hf]
    dsimp only
    rw [← hty, hname]
    cases values.get f.name with
    | none => rfl
    | some v => exact congrArg some (settled_of_exact (Appended.exact hexact hg) v)
  -- any other field has its default
  have hfresh : ∀ g ∈ payloadFields t'.schema.toCollectionSchema,
      payloadField t.schema.toCollectionSchema g.name = none →
        out.get g.name = some (defaultValue g) := by
    intro g hg hnone
    rw [hread g.name, hnone]
    dsimp only
    rw [payloadField, findKey_of_mem ready.distinct hg]
    rfl
  constructor
  · intro g hg
    have hmem : g ∈ payloadFields t'.schema.toCollectionSchema := List.mem_append_left _ hg
    have hpos := (t'.hot_sized hg).2
    cases hold : payloadField t.schema.toCollectionSchema g.name with
    | some f =>
      obtain ⟨hf, hlayout⟩ := Appended.same ready later hmem hold
      obtain ⟨-, hty, hwidth, -⟩ := layout_inj hlayout
      have hhot : f ∈ t.schema.hotFields := by
        rcases List.mem_append.mp hf with hhot | hcold
        · exact hhot
        · have hzero := (t.cold_sized hcold).2.1
          omega
      obtain ⟨v, hv, hfits, hnarrow⟩ := h.hot f hhot
      refine ⟨v, (hkept g hmem f hold).trans hv, ?_, ?_⟩
      · unfold Fits at hfits ⊢
        rw [hty, hwidth]
        exact hfits
      · unfold Wide at hnarrow ⊢
        rw [hty, hwidth]
        exact hnarrow
    | none =>
      obtain ⟨hadmits, hfits, -⟩ := hdefaults g hmem
      have hkind := Appended.exact hexact hmem
      refine ⟨defaultValue g, ?_, hfits hpos, ?_⟩
      · unfold given fieldPair
        rw [hfresh g hmem hold]
        dsimp only
        rw [if_pos hadmits]
        rfl
      · unfold Wide
        cases hty : g.ty <;> simp_all [exactKind]
  · intro g hg
    have hmem : g ∈ payloadFields t'.schema.toCollectionSchema := List.mem_append_right _ hg
    have hzero := (t'.cold_sized hg).2.1
    cases hold : payloadField t.schema.toCollectionSchema g.name with
    | some f =>
      obtain ⟨hf, hlayout⟩ := Appended.same ready later hmem hold
      have hcold : f ∈ t.schema.coldFields := by
        rcases List.mem_append.mp hf with hhot | hcold
        · have hpos := (t.hot_sized hhot).2
          have hwidth := (layout_inj hlayout).2.2.1
          omega
        · exact hcold
      have hfits := h.cold f hcold
      unfold ColdFits at hfits ⊢
      rw [hkept g hmem f hold]
      exact hfits
    | none =>
      have hfits := (hdefaults g hmem).2.2 hzero
      have hsame : (SortedMap.empty.insert g.name (defaultValue g)).get g.name = out.get g.name := by
        rw [hfresh g hmem hold, SortedMap.get_insert_self]
      unfold ColdFits at hfits ⊢
      rw [given_congr rfl hsame] at hfits
      exact hfits

/-- Under the later declaration nothing more happens to a row. -/
theorem ReadAs.again (hexact : ∀ f ∈ t'.fields, exactKind f.ty = true)
    (hread : ReadAs t.schema.toCollectionSchema t'.schema.toCollectionSchema values out)
    (later : Appended t t') {out' : ValueMap}
    (hagain : ReadAs t'.schema.toCollectionSchema t'.schema.toCollectionSchema out out') :
    out' = out := by
  refine SortedMap.ext_get fun name => ?_
  rw [hagain name]
  cases hfield : payloadField t'.schema.toCollectionSchema name with
  | some g =>
    obtain ⟨hg, -⟩ := mem_of_findKey hfield
    dsimp only
    cases out.get name with
    | none => rfl
    | some v => exact congrArg some (settled_of_exact (Appended.exact hexact hg) v)
  | none =>
    -- a name the later declaration does not have, the earlier one has neither
    have hnone : payloadField t.schema.toCollectionSchema name = none := by
      refine findKey_eq_none.mpr fun f hf hname => ?_
      obtain ⟨g, hg, hlayout⟩ : ∃ g ∈ payloadFields t'.schema.toCollectionSchema,
          layout g = layout f := by
        rcases List.mem_append.mp hf with hhot | hcold
        · obtain ⟨g, hg, hlayout⟩ := later.kept.1 f hhot
          exact ⟨g, List.mem_append_left _ hg, hlayout⟩
        · obtain ⟨g, hg, hlayout⟩ := later.kept.2 f hcold
          exact ⟨g, List.mem_append_right _ hg, hlayout⟩
      exact findKey_eq_none.mp hfield g hg ((layout_inj hlayout).1.trans hname)
    rw [hread name, hnone, hfield]

/-- **Layout evolution**: a row is read under every later declaration with its own fields and
the defaults of those appended since; that row can be written under the later declaration, and
is then read back as it is. -/
theorem layout_evolution {t t' : DeclaredTable} (ready : Readable t') (later : Appended t t')
    (hexact : ∀ f ∈ t'.fields, exactKind f.ty = true)
    (hdefaults : ∀ f ∈ payloadFields t'.schema.toCollectionSchema, DefaultFits f)
    {values : ValueMap} {b : Bytes} (henc : encodePayload t.schema values = answer b)
    (hsize : b.length < 2 ^ 64) :
    ∃ out, decodePayload t'.schema.toCollectionSchema b = answer out ∧
      ReadAs t.schema.toCollectionSchema t'.schema.toCollectionSchema values out ∧
      ∃ b', encodePayload t'.schema out = answer b' ∧
        (b'.length < 2 ^ 64 → decodePayload t'.schema.toCollectionSchema b' = answer out) := by
  obtain ⟨out, hout, hread⟩ := decode_encode_appended ready later henc hsize
  have hwritable := (encodePayload_answers t values).mp ⟨b, henc⟩
  obtain ⟨b', henc'⟩ := (encodePayload_answers t' out).mpr
    (hwritable.later ready later hexact hdefaults hread)
  refine ⟨out, hout, hread, b', henc', fun hsize' => ?_⟩
  have hself : Appended t' t' := ⟨⟨[], by simp⟩, UInt8.le_refl _⟩
  obtain ⟨out', hout', hagain⟩ := decode_encode_appended ready hself henc' hsize'
  rw [hout', ReadAs.again hexact hread later hagain]

end

/-- A number and a text. -/
def noteTable : DeclaredTable where
  keyLen := 1
  keyFields := [⟨"no", .u8, 1⟩]
  nsPrefix := [0, 1]
  layoutVersion := 1
  hotWidth := 1
  fields := [⟨"kind", .u8, 1⟩, ⟨"text", .str, 0⟩]
  defaults := []
  fieldContracts := []
  indexDecls := []
  faces := []
  keyKinds := by decide
  kinds := by decide
  keyLen_eq := by decide
  hotWidth_eq := by decide

/-- Since then a number with an exported default, hot, and one of any width, cold. -/
def noteTable2 : DeclaredTable where
  keyLen := 1
  keyFields := [⟨"no", .u8, 1⟩]
  nsPrefix := [0, 1]
  layoutVersion := 2
  hotWidth := 9
  fields := [⟨"kind", .u8, 1⟩, ⟨"text", .str, 0⟩, ⟨"rank", .u64, 8⟩, ⟨"hits", .varInt, 0⟩]
  defaults := [("rank", .u64 3)]
  fieldContracts := []
  indexDecls := []
  faces := []
  keyKinds := by decide
  kinds := by decide
  keyLen_eq := by decide
  hotWidth_eq := by decide

def noteRow : ValueMap := (SortedMap.empty.insert "kind" (.u8 5)).insert "text" (.str "xy")

theorem noteTable2_defaults :
    ∀ f ∈ payloadFields noteTable2.schema.toCollectionSchema, DefaultFits f := by
  have hfields : payloadFields noteTable2.schema.toCollectionSchema
      = [⟨"kind", .u8, 1, 0, none, none, none⟩, ⟨"rank", .u64, 8, 1, none, some (.u64 3), none⟩,
        ⟨"text", .str, 0, 0, some 1, none, none⟩, ⟨"hits", .varInt, 0, 0, some 3, none, none⟩] := rfl
  rw [hfields]
  simp only [List.forall_mem_cons]
  refine ⟨⟨rfl, fun _ => trivial, fun h => ?_⟩, ⟨rfl, fun _ => trivial, fun h => ?_⟩,
    ⟨rfl, fun h => ?_, fun _ => ⟨.str "", rfl, ?_⟩⟩, ⟨rfl, fun h => ?_, fun _ => ⟨.u64 0, rfl, ?_⟩⟩,
    by simp⟩
  · cases h
  · cases h
  · exact absurd h (by decide)
  · change widthOf (strBytes "").length ≠ 8
    decide
  · exact absurd h (by decide)
  · change widthOf (0 : UInt64).toNat ≠ 8
    decide

/-- A row of the first declaration, read and written under the second. -/
theorem layout_evolution_note : ∃ out,
    decodePayload noteTable2.schema.toCollectionSchema [1, 0, 1, 5, 1, 2, 120, 121] = answer out ∧
      ReadAs noteTable.schema.toCollectionSchema noteTable2.schema.toCollectionSchema noteRow out ∧
      ∃ b', encodePayload noteTable2.schema out = answer b' ∧
        (b'.length < 2 ^ 64 →
          decodePayload noteTable2.schema.toCollectionSchema b' = answer out) :=
  @layout_evolution noteTable noteTable2 ⟨by decide, by decide, by decide, by decide⟩
    ⟨⟨_, rfl⟩, by decide⟩ (by decide) noteTable2_defaults noteRow [1, 0, 1, 5, 1, 2, 120, 121] rfl
    (by decide)

end Okm.Dynamic
