import Okm.Dynamic.DecodeEnds

/-!
# How encoding ends

For an exported declaration the encoders are to answer or refuse, whatever the values. They
abort on a float that does not quantise, on a `VarInt` or a length of width eight, and by
their own assertions about placement. Those were written for one field behind the other, and
two things get in the way: the id of a vocabulary wider than a byte is written as one byte,
and `encode_fields` takes the names in any order. Where it does answer for such an id, the
bytes are not those of the field.

`codec_ends` has all of it, with the decoders: for each entry point the data it keeps its
promise on.
-/

namespace Okm.Dynamic

open Lib Model
open Guarded (answer refuse abort FirstStop)

/-! ## One field -/

/-- The value the gate lets through. -/
def given (values : ValueMap) (f : FieldSchema) : Option Value :=
  (fieldPair f.name f.ty values).toOption

/-- A float that has no fixed-point form. -/
def Unquantized (f : FieldSchema) (v : Value) : Prop :=
  match f.ty, v with
  | .quant p, .f64 bits => quantize bits p.toNat = none
  | _, _ => False

/-- A value in the form and the range of its fixed-width field. -/
def Fits (f : FieldSchema) (v : Value) : Prop :=
  match f.ty, v with
  | .fixedBytes, .bytes b => b.length = f.width
  | .offset base, .i64 x => 0 ≤ x.toInt - base.toInt ∧ x.toInt - base.toInt < 2 ^ 32
  | .quant p, .f64 bits => (quantize bits p.toNat).isSome = true
  | .u8, .u8 _ => True
  | .u16, .u16 _ => True
  | .u32, .u32 _ => True
  | .u64, .u64 _ => True
  | .vocab _, .u8 _ => True
  | _, _ => False

/-- A vocabulary whose ids take more than a byte. -/
def Wide (f : FieldSchema) : Prop :=
  match f.ty with
  | .vocab _ => f.width ≠ 1
  | _ => False

/-- The bytes a field has in the key or the hot segment, or those of its text. -/
def storageBytes (f : FieldSchema) (v : Value) : Bytes :=
  match f.ty, v with
  | .vocab _, .u8 x => beBytes f.width x.toNat
  | .u8, .u8 x => [x]
  | .u16, .u16 x => beBytes 2 x.toNat
  | .u32, .u32 x => beBytes 4 x.toNat
  | .u64, .u64 x => beBytes 8 x.toNat
  | .fixedBytes, .bytes b => b
  | .quant p, .f64 bits => beBytes 8 (Int64.ofInt ((quantize bits p.toNat).getD 0)).toUInt64.toNat
  | .offset base, .i64 x => beBytes 4 (x.toInt - base.toInt).toNat
  | .str, .str s => strBytes s
  | _, _ => []

/-- What is written of a value that fits: its bytes, of a wide id the last one. -/
def writtenBytes (f : FieldSchema) (v : Value) : Bytes :=
  match f.ty, v with
  | .vocab _, .u8 x => [x]
  | _, _ => storageBytes f v

/-- The pairs of kind and value behind the gate. -/
inductive Admitted : FieldType → Value → Prop where
  | u8 (x : UInt8) : Admitted .u8 (.u8 x)
  | u16 (x : UInt16) : Admitted .u16 (.u16 x)
  | u32 (x : UInt32) : Admitted .u32 (.u32 x)
  | u64 (x : UInt64) : Admitted .u64 (.u64 x)
  | fixedBytes (b : Bytes) : Admitted .fixedBytes (.bytes b)
  | str (s : String) : Admitted .str (.str s)
  | quant (p : UInt32) (bits : UInt64) : Admitted (.quant p) (.f64 bits)
  | offset (base x : Int64) : Admitted (.offset base) (.i64 x)
  | varInt (x : UInt64) : Admitted .varInt (.u64 x)
  | vocab (idSlot : UInt16) (x : UInt8) : Admitted (.vocab idSlot) (.u8 x)

theorem admitted_of_admits {ty : FieldType} {v : Value} (h : admits ty v = true) :
    Admitted ty v := by
  unfold admits at h
  split at h
  · exact .u8 _
  · exact .u16 _
  · exact .u32 _
  · exact .u64 _
  · exact .fixedBytes _
  · exact .str _
  · exact .quant _ _
  · exact .offset _ _
  · exact .varInt _
  · exact .vocab _ _
  · cases h

theorem given_some {values : ValueMap} {f : FieldSchema} {v : Value}
    (h : given values f = some v) :
    fieldPair f.name f.ty values = .ok v ∧ Admitted f.ty v := by
  unfold given at h
  cases hpair : fieldPair f.name f.ty values with
  | error e =>
    rw [hpair] at h
    cases h
  | ok v' =>
    rw [hpair] at h
    obtain rfl := Option.some.inj h
    refine ⟨rfl, ?_⟩
    unfold fieldPair at hpair
    split at hpair
    · cases hpair
    · split at hpair
      · rename_i hadmits
        obtain rfl := Except.ok.inj hpair
        exact admitted_of_admits hadmits
      · cases hpair

theorem given_none {values : ValueMap} {f : FieldSchema} (h : given values f = none) :
    ∃ e, fieldPair f.name f.ty values = .error e := by
  unfold given at h
  cases hpair : fieldPair f.name f.ty values with
  | error e => exact ⟨e, rfl⟩
  | ok v =>
    rw [hpair] at h
    cases h

/-- The kinds of fields with a static place. -/
def fixedKind : FieldType → Bool
  | .str | .bytes | .varInt | .vector _ => false
  | _ => true

/-- A field of the key or the hot segment. -/
def Static (f : FieldSchema) : Prop := fixedKind f.ty = true ∧ sized f.ty f.width = true

theorem Static.of_key {f : FieldSchema} (h : keySized f.ty f.width = true) : Static f := by
  unfold Static
  cases hty : f.ty <;> simp_all [keySized, sized, fixedKind]

theorem Static.of_hot {f : FieldSchema} (h : sized f.ty f.width = true) (hpos : 0 < f.width) :
    Static f := by
  refine ⟨?_, h⟩
  cases hty : f.ty with
  | str | bytes | varInt | vector elem =>
    rw [hty, sized, beq_iff_eq] at h
    omega
  | _ => rfl

/-- **How a value behind the gate is written into its place.** -/
theorem fieldImage_ends {f : FieldSchema} {v : Value} (hf : Static f) (hv : Admitted f.ty v) :
    ((fieldImage f v).Aborts ↔ Unquantized f v) ∧ ((fieldImage f v).Answers ↔ Fits f v) ∧
      (Fits f v → fieldImage f v = answer (writtenBytes f v)) := by
  obtain ⟨hfixed, -⟩ := hf
  unfold fieldImage Unquantized Fits writtenBytes storageBytes
  generalize f.ty = ty at hv hfixed ⊢
  cases hv with
  | u8 x | u16 x | u32 x | u64 x | vocab idSlot x => simp
  | str s | varInt x => cases hfixed
  | fixedBytes b =>
    dsimp only
    by_cases hb : b.length = f.width
    · simp [hb]
    · simp [hb]
  | quant p bits =>
    dsimp only [quantBytes]
    cases quantize bits p.toNat with
    | none => simp
    | some w => simp
  | offset base x =>
    dsimp only [offsetBytes]
    have hx := x.le_toInt
    have hx' := x.toInt_lt
    have hb := base.le_toInt
    have hb' := base.toInt_lt
    by_cases hin : 0 ≤ x.toInt - base.toInt ∧ x.toInt - base.toInt < 2 ^ 32
    · rw [if_pos ⟨⟨by omega, by omega⟩, hin⟩]
      exact ⟨iff_of_false (by simp) id, iff_of_true ⟨_, rfl⟩ hin, fun _ => rfl⟩
    · rw [if_neg fun h => hin h.2]
      exact ⟨iff_of_false (by simp) id, iff_of_false (by simp) hin, fun h => absurd h hin⟩

/-- A field's own bytes are as many as its width says. -/
theorem length_storageBytes {f : FieldSchema} {v : Value} (hf : Static f)
    (hv : Admitted f.ty v) (hfits : Fits f v) : (storageBytes f v).length = f.width := by
  obtain ⟨hfixed, hsized⟩ := hf
  unfold Fits at hfits
  unfold storageBytes
  generalize f.ty = ty at hv hfixed hsized hfits ⊢
  cases hv with
  | str s | varInt x => cases hfixed
  | fixedBytes b => exact hfits
  | vocab idSlot x => exact length_beBytes _ _
  | u8 x | u16 x | u32 x | u64 x | quant p bits | offset base x =>
    simp only [sized, keySized, beq_iff_eq] at hsized
    simp [hsized]

theorem length_writtenBytes {f : FieldSchema} {v : Value} (hf : Static f)
    (hv : Admitted f.ty v) (hfits : Fits f v) :
    (Wide f → (writtenBytes f v).length = 1 ∧ 1 < f.width) ∧
      (¬ Wide f → writtenBytes f v = storageBytes f v) := by
  obtain ⟨hfixed, hsized⟩ := hf
  unfold writtenBytes Wide storageBytes
  generalize f.ty = ty at hv hfixed hsized ⊢
  cases hv with
  | vocab idSlot x =>
    dsimp only
    simp only [sized, keySized, Bool.or_eq_true, beq_iff_eq] at hsized
    refine ⟨fun h => ⟨rfl, by omega⟩, fun h => ?_⟩
    have hone : f.width = 1 := not_not.mp h
    have hbyte : beBytes 1 x.toNat = [UInt8.ofNat x.toNat] := rfl
    rw [hone, hbyte, UInt8.ofNat_toNat]
  | _ => exact ⟨fun h => absurd h id, fun _ => rfl⟩

/-- **How `encode_field` ends**: it refuses what the gate does not let through; then its
assertion looks at the place; then the value is written, refused or not survived. -/
theorem encodeField_ends (values : ValueMap) (buf : Bytes) {f : FieldSchema} (hf : Static f) :
    (given values f = none → ∃ e, encodeField values buf f = .refuse e) ∧
    ∀ v, given values f = some v →
      (buf.length ≠ f.offset → encodeField values buf f = abort .assertion) ∧
      (buf.length = f.offset →
        ((encodeField values buf f).Aborts ↔ Unquantized f v) ∧
        ((encodeField values buf f).Answers ↔ Fits f v) ∧
        (Fits f v → encodeField values buf f = answer (buf ++ writtenBytes f v))) := by
  unfold encodeField
  refine ⟨fun hnone => ?_, fun v hv => ?_⟩
  · obtain ⟨e, he⟩ := given_none hnone
    rw [he]
    exact ⟨e, rfl⟩
  · obtain ⟨hpair, hadmitted⟩ := given_some hv
    rw [hpair]
    refine ⟨fun hplace => ?_, fun hplace => ?_⟩
    · rw [Guarded.lift, Guarded.answer_bind, if_pos hplace]
    · obtain ⟨habort, hanswer, hwritten⟩ := fieldImage_ends hf hadmitted
      rw [Guarded.lift, Guarded.answer_bind, if_neg (not_not.mpr hplace), Guarded.aborts_bind,
        Guarded.answers_bind]
      refine ⟨?_, ?_, fun hfits => ?_⟩
      · simpa using habort
      · simpa [Guarded.Answers] using hanswer
      · rw [hwritten hfits]
        rfl

/-! ## Fields one behind the other -/

/-- The fields of a key or a hot segment, in their order, come to something that is not
survived: up to there every value fits; then a float does not quantise, or an id written as
one byte leaves the next field out of place. Behind the last field a caller may still look at
the length (`strict`). -/
def FieldsOverflow (strict : Prop) (values : ValueMap) : List FieldSchema → Prop
  | [] => False
  | f :: fs => ∃ v, given values f = some v ∧ (Unquantized f v ∨ Fits f v ∧
      (Wide f ∧ (fs = [] ∧ strict ∨ ∃ g ∈ fs.head?, (given values g).isSome = true) ∨
        ¬ Wide f ∧ FieldsOverflow strict values fs))

/-- Every value fits and no id is cut to a byte. -/
def FieldsFit (values : ValueMap) (fs : List FieldSchema) : Prop :=
  ∀ f ∈ fs, ∃ v, given values f = some v ∧ Fits f v ∧ ¬ Wide f

theorem not_fits_of_unquantized {f : FieldSchema} {v : Value} (h : Unquantized f v) :
    ¬ Fits f v := by
  unfold Unquantized at h
  unfold Fits
  split at h
  · rename_i p bits hty
    rw [hty]
    simp [h]
  · exact absurd h id

/-- How the encoder of fields one behind the other ends: it does not survive, or leaves as many
bytes as the widths say, or does not survive a check of the length either. -/
structure FieldsEnd (values : ValueMap) (fs : List FieldSchema) (len : Nat) (x : Codec Bytes) :
    Prop where
  aborts : x.Aborts ↔ FieldsOverflow False values fs
  whole : (∃ out, x = answer out ∧ out.length = len) ↔ FieldsFit values fs
  checked : (x.Aborts ∨ ∃ out, x = answer out ∧ out.length ≠ len) ↔
    FieldsOverflow True values fs

theorem fieldsEnd_refuse {values : ValueMap} {f : FieldSchema} {fs : List FieldSchema} {len : Nat}
    (hnone : given values f = none) (e : CodecError) :
    FieldsEnd values (f :: fs) len (.refuse e) where
  aborts := by simp [FieldsOverflow, hnone]
  whole := by simp [FieldsFit, hnone]
  checked := by simp [FieldsOverflow, hnone]

/-- A wide id: the field behind it is out of place, and so is the end. -/
theorem fieldsEnd_wide {values : ValueMap} {f : FieldSchema} {fs : List FieldSchema} {v : Value}
    {buf : Bytes} {len : Nat} (hv : given values f = some v) (hfits : Fits f v) (hwide : Wide f)
    (hstatic : ∀ g ∈ fs, Static g) (hnext : ∀ g ∈ fs.head?, buf.length ≠ g.offset)
    (hlen : fs = [] → buf.length ≠ len) :
    FieldsEnd values (f :: fs) len (fs.foldlM (encodeField values) buf) := by
  have hquant : ¬ Unquantized f v := fun h => not_fits_of_unquantized h hfits
  have hunfit : ¬ FieldsFit values (f :: fs) := by
    intro h
    obtain ⟨v', hv', -, hnarrow⟩ := h f List.mem_cons_self
    exact hnarrow hwide
  cases fs with
  | nil =>
    refine ⟨?_, ?_, ?_⟩
    · simp [FieldsOverflow, hv, hquant, hwide]
    · simp [hunfit, hlen rfl]
    · simp [FieldsOverflow, hv, hfits, hwide, hlen rfl]
  | cons g gs =>
    obtain ⟨hnone, hsome⟩ :=
      encodeField_ends values buf (hstatic g List.mem_cons_self)
    rw [List.foldlM_cons]
    cases hg : given values g with
    | none =>
      obtain ⟨e, he⟩ := hnone hg
      rw [he]
      refine ⟨?_, ?_, ?_⟩
      · simp [FieldsOverflow, hv, hquant, hwide, hg]
      · simp [hunfit]
      · simp [FieldsOverflow, hv, hquant, hwide, hg]
    | some w =>
      rw [(hsome w hg).1 (hnext g rfl)]
      refine ⟨?_, ?_, ?_⟩
      · simp [FieldsOverflow, hv, hfits, hwide, hg]
      · simp [hunfit]
      · simp [FieldsOverflow, hv, hfits, hwide, hg]

/-- **The encoder of fields one behind the other.** -/
theorem fields_end (values : ValueMap) {fs : List FieldSchema} (hstatic : ∀ f ∈ fs, Static f)
    (buf : Bytes) (hplaced : Placed buf.length fs) :
    FieldsEnd values fs (buf.length + (fs.map FieldSchema.width).sum)
      (fs.foldlM (encodeField values) buf) := by
  induction fs generalizing buf with
  | nil => exact ⟨by simp [FieldsOverflow], by simp [FieldsFit], by simp [FieldsOverflow]⟩
  | cons f fs ih =>
    obtain ⟨hoffset, hplaced⟩ := hplaced
    obtain ⟨hf, hstatic⟩ := List.forall_mem_cons.mp hstatic
    obtain ⟨hnone, hsome⟩ := encodeField_ends values buf hf
    rw [List.foldlM_cons, List.map_cons, List.sum_cons]
    cases hv : given values f with
    | none =>
      obtain ⟨e, he⟩ := hnone hv
      rw [he]
      exact fieldsEnd_refuse hv e
    | some v =>
      obtain ⟨habort, hanswer, hwritten⟩ := (hsome v hv).2 hoffset.symm
      by_cases hfits : Fits f v
      · -- the field is written; one of the wrong width moves those behind it
        have hquant : ¬ Unquantized f v := fun h => not_fits_of_unquantized h hfits
        obtain ⟨hwide, hnarrow⟩ := length_writtenBytes hf (given_some hv).2 hfits
        rw [hwritten hfits, Guarded.answer_bind]
        by_cases hw : Wide f
        · obtain ⟨hone, hlong⟩ := hwide hw
          refine fieldsEnd_wide hv hfits hw hstatic (fun g hg => ?_) (fun hnil => ?_)
          · cases fs with
            | nil => cases hg
            | cons g' gs =>
              obtain rfl := Option.some.inj hg
              rw [List.length_append, hone, hplaced.1]
              omega
          · rw [List.length_append, hone, hnil, List.map_nil, List.sum_nil]
            omega
        · have hlen := length_storageBytes hf (given_some hv).2 hfits
          have hbuf : (buf ++ writtenBytes f v).length = buf.length + f.width := by
            rw [hnarrow hw, List.length_append, hlen]
          rw [← hbuf] at hplaced
          obtain ⟨haborts, hwhole, hchecked⟩ := ih hstatic _ hplaced
          rw [hbuf, Nat.add_assoc] at hwhole hchecked
          refine ⟨haborts.trans ?_, hwhole.trans ?_, hchecked.trans ?_⟩
          · simp [FieldsOverflow, hv, hquant, hfits, hw]
          · simp [FieldsFit, hv, hfits, hw]
          · simp [FieldsOverflow, hv, hquant, hfits, hw]
      · -- a value that does not fit is refused, or aborts when it cannot be scaled
        cases hend : encodeField values buf f with
        | answer out => exact absurd (hanswer.mp ⟨out, hend⟩) hfits
        | refuse e =>
          rw [hend] at habort
          have hquant : ¬ Unquantized f v := fun h => by simpa using habort.mpr h
          refine ⟨?_, ?_, ?_⟩
          · simp [FieldsOverflow, hv, hquant, hfits]
          · simp [FieldsFit, hv, hfits]
          · simp [FieldsOverflow, hv, hquant, hfits]
        | abort fault =>
          rw [hend] at habort
          have hquant : Unquantized f v := habort.mp ⟨fault, rfl⟩
          refine ⟨?_, ?_, ?_⟩
          · simp [FieldsOverflow, hv, hquant]
          · simp [FieldsFit, hv, hfits]
          · simp [FieldsOverflow, hv, hquant]

theorem statics (t : DeclaredTable) :
    (∀ f ∈ t.schema.keyFields, Static f) ∧ ∀ f ∈ t.schema.hotFields, Static f :=
  ⟨fun _ hf => .of_key (t.key_sized hf), fun _ hf => .of_hot (t.hot_sized hf).1 (t.hot_sized hf).2⟩

/-- **The maps `encode_key` does not survive.** -/
theorem encodeKey_ends (t : DeclaredTable) (values : ValueMap) :
    (encodeKey t.schema.toCollectionSchema values).Aborts ↔
      FieldsOverflow True values t.schema.keyFields := by
  have hend := (fields_end values (statics t).1 [] t.key_placed).checked
  rw [List.length_nil, Nat.zero_add, t.key_width] at hend
  rw [← hend, encodeKey, Guarded.aborts_bind]
  refine or_congr Iff.rfl (exists_congr fun buf => and_congr_right fun _ => ?_)
  by_cases hlen : buf.length = t.schema.keyLen
  · rw [if_neg (not_not.mpr hlen)]
    simp [hlen]
  · rw [if_pos hlen]
    simp [hlen]

/-! ## Cold frames -/

theorem putLenBytes_ends (n : Nat) :
    ((putLenBytes n).Answers ↔ widthOf n ≠ 8) ∧ ((putLenBytes n).Aborts ↔ widthOf n = 8) := by
  have hchecked : (widthOf n = 8 → putLenChecked n = none) ∧
      (widthOf n ≠ 8 → ∃ b, putLenChecked n = some b) := by
    by_cases hn : n < 2 ^ 64
    · rw [putLenChecked_eq hn]
      exact ⟨fun h => if_pos h, fun h => ⟨_, if_neg h⟩⟩
    · have hw : widthOf n = 9 := by rw [widthOf, if_pos (by omega)]
      refine ⟨fun h => by omega, fun _ => ⟨0xFF :: beBytes 8 n, ?_⟩⟩
      rw [putLenChecked]
      exact if_pos hw
  unfold putLenBytes
  by_cases hw : widthOf n = 8
  · rw [hchecked.1 hw]
    simp [hw]
  · obtain ⟨b, hb⟩ := hchecked.2 hw
    rw [hb]
    simp [hw]

theorem widthOf_small {n : Nat} (h : n ≤ 9) : widthOf n ≠ 8 := by
  have hle : widthOf n ≤ 1 :=
    widthOf_le (by omega) (by omega) (by unfold payloadBits; omega)
  omega

/-- A length takes nine bytes at the most. -/
theorem length_of_putLenBytes {n : Nat} {b : Bytes} (hn : n < 2 ^ 64)
    (h : putLenBytes n = answer b) : b.length ≤ 9 := by
  unfold putLenBytes at h
  rw [putLenChecked_eq hn] at h
  by_cases hw : widthOf n = 8
  · rw [if_pos hw] at h
    cases h
  · rw [if_neg hw] at h
    injection h with h
    rw [← h, length_putLen_width hn]
    exact (widthOf_bounds hn).2.1

/-- A value in the form of its cold field, and of no length or number of width eight. -/
def ColdFits (values : ValueMap) (f : FieldSchema) : Prop :=
  ∃ v, given values f = some v ∧
    match v with
    | .str s => widthOf (strBytes s).length ≠ 8
    | .u64 x => widthOf x.toNat ≠ 8
    | .bytes b => b = []
    | _ => False

/-- A text or a `VarInt` of width eight. -/
def ColdOverflow (values : ValueMap) (f : FieldSchema) : Prop :=
  ∃ v, given values f = some v ∧
    match v with
    | .str s => widthOf (strBytes s).length = 8
    | .u64 x => widthOf x.toNat = 8
    | _ => False

theorem encodeCold_ends {f : FieldSchema} (hkind : sized f.ty 0 = true) (hwidth : f.width = 0)
    (htag : f.tag.isSome = true) (values : ValueMap) (buf : Bytes) :
    ((encodeCold values buf f).Answers ↔ ColdFits values f) ∧
      ((encodeCold values buf f).Aborts ↔ ColdOverflow values f) := by
  obtain ⟨tag, htag⟩ := Option.isSome_iff_exists.mp htag
  unfold encodeCold ColdFits ColdOverflow
  cases hv : given values f with
  | none =>
    obtain ⟨e, he⟩ := given_none hv
    rw [he]
    simp [Guarded.lift]
  | some v =>
    obtain ⟨hpair, hadmitted⟩ := given_some hv
    rw [hpair, htag]
    dsimp only [Guarded.lift]
    rw [Guarded.answer_bind]
    generalize hty : f.ty = ty at hadmitted hkind
    cases hadmitted with
    | str s =>
      obtain ⟨hanswer, habort⟩ := putLenBytes_ends (strBytes s).length
      rw [coldValue, Guarded.answer_bind, Guarded.answers_bind, Guarded.aborts_bind, habort]
      refine ⟨?_, ?_⟩
      · simpa [Guarded.Answers] using hanswer
      · simp
    | varInt x =>
      have hvalue : coldValue f (.u64 x) = putLenBytes x.toNat := by
        unfold coldValue coldFrameBytes
        rw [hty]
      obtain ⟨hanswer, habort⟩ := putLenBytes_ends x.toNat
      rw [hvalue, Guarded.answers_bind, Guarded.aborts_bind, habort]
      -- a number of width eight has no marker byte
      by_cases hw : widthOf x.toNat = 8
      · obtain ⟨fault, hput⟩ := habort.mpr hw
        rw [hput]
        simp [hw]
      · obtain ⟨bytes, hput⟩ := hanswer.mpr hw
        obtain ⟨len, hframe⟩ := (putLenBytes_ends bytes.length).1.mpr
          (widthOf_small (length_of_putLenBytes x.toNat_lt hput))
        rw [hput]
        simp [hw, hframe]
    | fixedBytes b =>
      -- the width is zero, so only the empty bytes fit
      by_cases hb : b = []
      · have hvalue : coldValue f (.bytes b) = answer b := by
          unfold coldValue coldFrameBytes
          rw [hty]
          simp [hwidth, hb]
        have hlen : widthOf b.length ≠ 8 := widthOf_small (by rw [hb, List.length_nil]; omega)
        obtain ⟨hanswer, habort⟩ := putLenBytes_ends b.length
        obtain ⟨len, hput⟩ := hanswer.mpr hlen
        rw [hvalue, Guarded.answer_bind, hput]
        simp [hb]
      · have hvalue : coldValue f (.bytes b) =
            .refuse (.typeMismatch f.name "bytes of the declared width") := by
          unfold coldValue coldFrameBytes
          rw [hty]
          simp [hwidth, hb]
        rw [hvalue]
        simp [hb]
    | _ => simp [sized, keySized] at hkind

/-- The maps a payload encoder does not survive: a hot field comes to that, or all of them are
written and then a cold one does. -/
def PayloadUnwritten (schema : CollectionSchema) (values : ValueMap) : Prop :=
  FieldsOverflow False values schema.hotFields ∨
    FieldsFit values schema.hotFields ∧
      FirstStop (ColdFits values) (ColdOverflow values) schema.coldFields

/-- **The maps `encode_payload` does not survive.** -/
theorem encodePayload_ends (t : DeclaredTable) (values : ValueMap) :
    (encodePayload t.schema values).Aborts ↔
      PayloadUnwritten t.schema.toCollectionSchema values := by
  obtain ⟨habort, hwhole, -⟩ :=
    fields_end values (statics t).2 [] t.hot_placed
  rw [List.length_nil, Nat.zero_add, t.hot_width] at hwhole
  have hcold : ∀ buf, (t.schema.coldFields.foldlM (encodeCold values) buf).Aborts ↔
      FirstStop (ColdFits values) (ColdOverflow values) t.schema.coldFields := by
    intro buf
    refine Guarded.foldlM_aborts (fun f hf buf => ?_) (fun f hf buf => ?_) buf
    · obtain ⟨hkind, hwidth, htag⟩ := t.cold_sized hf
      exact (encodeCold_ends hkind hwidth htag values buf).1
    · obtain ⟨hkind, hwidth, htag⟩ := t.cold_sized hf
      exact (encodeCold_ends hkind hwidth htag values buf).2
  rw [PayloadUnwritten, encodePayload, Guarded.aborts_bind, habort, ← hwhole]
  refine or_congr Iff.rfl ⟨fun h => ?_, fun h => ?_⟩
  · obtain ⟨hot, hhot, h⟩ := h
    by_cases hlen : hot.length = t.schema.hotWidth
    · rw [if_neg (not_not.mpr hlen)] at h
      exact ⟨⟨hot, hhot, hlen⟩, (hcold _).mp h⟩
    · rw [if_pos hlen] at h
      simp at h
  · obtain ⟨⟨hot, hhot, hlen⟩, h⟩ := h
    refine ⟨hot, hhot, ?_⟩
    rw [if_neg (not_not.mpr hlen)]
    exact (hcold _).mpr h

end Okm.Dynamic
