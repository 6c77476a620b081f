import Okm.Dynamic.Codec

/-!
# How decoding ends

For an exported declaration the decoders are to answer or refuse, whatever the bytes. A key
always is (`decodeKey_ends`). A payload is not survived when the first thing in it that does
not read is an offset past `i64`, a precision `Quant` has no power for, a `VarInt` of width
eight, or a frame length that has width eight or carries the position past `usize`
(`decodePayload_ends`).

What a declaration is comes from the derives: the kinds they let into a key or a payload,
each with its width (`DeclaredTable`).
-/

namespace Okm.Dynamic

open Lib Model
open Guarded (answer refuse abort FirstStop)

/-! ## Declarations a derive can emit -/

/-- The widths a key field of a kind is declared with. -/
def keySized (ty : FieldType) (w : Nat) : Bool :=
  match ty with
  | .u8 => w == 1
  | .u16 => w == 2
  | .u32 => w == 4
  | .u64 => w == 8
  | .fixedBytes => true
  | .uuid4 | .uuid7 => w == 16
  | .vocab _ => w == 1 || w == 2 || w == 4 || w == 8 || w == 16
  | .str | .bytes | .varInt | .quant _ | .offset _ | .vector _ => false

/-- The widths a payload field of a kind is declared with; `0` where it is variable. -/
def sized (ty : FieldType) (w : Nat) : Bool :=
  match ty with
  | .quant _ => w == 8
  | .offset _ => w == 4
  | .str | .bytes | .varInt | .vector _ => w == 0
  | .u8 | .u16 | .u32 | .u64 | .fixedBytes | .uuid4 | .uuid7 | .vocab _ => keySized ty w

/-- A table as the derives declare it. -/
structure DeclaredTable extends TableDecl where
  keyKinds : ∀ f ∈ keyFields, keySized f.ty f.width = true
  kinds : ∀ f ∈ fields, sized f.ty f.width = true
  keyLen_eq : keyLen = (keyFields.map FieldDesc.width).sum
  hotWidth_eq : hotWidth = (fields.map FieldDesc.width).sum

/-- `CollectionSchema::of`. -/
def DeclaredTable.schema (t : DeclaredTable) : ExportedSchema := t.schemaOf

/-- Each field stands where the one before it ends. -/
def Placed : Nat → List FieldSchema → Prop
  | _, [] => True
  | off, f :: fs => f.offset = off ∧ Placed (off + f.width) fs

theorem Placed.le {off : Nat} {fs : List FieldSchema} (h : Placed off fs) {f : FieldSchema}
    (hf : f ∈ fs) : f.offset + f.width ≤ off + (fs.map FieldSchema.width).sum := by
  induction fs generalizing off with
  | nil => cases hf
  | cons g fs ih =>
    obtain ⟨hoff, hrest⟩ := h
    rw [List.map_cons, List.sum_cons]
    rcases List.mem_cons.mp hf with rfl | hf
    · omega
    · have := ih hrest hf
      omega

theorem exportKey_placed (off : Nat) (fs : List FieldDesc) :
    Placed off (TableDecl.exportKey off fs) := by
  induction fs generalizing off with
  | nil => exact trivial
  | cons f fs ih => exact ⟨rfl, ih _⟩

theorem exportKey_width (off : Nat) (fs : List FieldDesc) :
    (TableDecl.exportKey off fs).map FieldSchema.width = fs.map FieldDesc.width := by
  induction fs generalizing off with
  | nil => rfl
  | cons f fs ih => rw [TableDecl.exportKey, List.map_cons, List.map_cons, ih]

theorem mem_exportKey {off : Nat} {fs : List FieldDesc} {f : FieldSchema}
    (hf : f ∈ TableDecl.exportKey off fs) : ∃ d ∈ fs, f.ty = d.ty ∧ f.width = d.width := by
  induction fs generalizing off with
  | nil => cases hf
  | cons d fs ih =>
    rw [TableDecl.exportKey] at hf
    rcases List.mem_cons.mp hf with rfl | hf
    · exact ⟨d, List.mem_cons_self, rfl, rfl⟩
    · obtain ⟨d', hd, hkind⟩ := ih hf
      exact ⟨d', List.mem_cons_of_mem d hd, hkind⟩

section

variable (decl : TableDecl)

theorem exportFields_placed (fi off : Nat) (fs : List FieldDesc) :
    Placed off (decl.exportFields fi off fs).1 := by
  induction fs generalizing fi off with
  | nil => exact trivial
  | cons f fs ih =>
    rw [TableDecl.exportFields]
    split
    · exact ⟨rfl, ih _ _⟩
    · exact ih _ _

theorem exportFields_width (fi off : Nat) (fs : List FieldDesc) :
    ((decl.exportFields fi off fs).1.map FieldSchema.width).sum
      = (fs.map FieldDesc.width).sum := by
  induction fs generalizing fi off with
  | nil => rfl
  | cons f fs ih =>
    rw [TableDecl.exportFields, List.map_cons, List.sum_cons]
    split
    · dsimp only
      rw [List.map_cons, List.sum_cons, ih]
    · dsimp only
      rw [ih]
      omega

/-- The hot fields have a width, the cold ones a tag. -/
theorem mem_exportFields {fi off : Nat} {fs : List FieldDesc} {f : FieldSchema} :
    (f ∈ (decl.exportFields fi off fs).1 →
      ∃ d ∈ fs, f.ty = d.ty ∧ f.width = d.width ∧ 0 < f.width) ∧
    (f ∈ (decl.exportFields fi off fs).2 →
      ∃ d ∈ fs, f.ty = d.ty ∧ d.width = 0 ∧ f.width = 0 ∧ f.tag.isSome = true) := by
  induction fs generalizing fi off with
  | nil =>
    rw [TableDecl.exportFields]
    refine ⟨fun h => ?_, fun h => ?_⟩
    · cases h
    · cases h
  | cons d fs ih =>
    rw [TableDecl.exportFields]
    split
    · rename_i hpos
      refine ⟨fun hf => ?_, fun hf => ?_⟩
      · rcases List.mem_cons.mp hf with rfl | hf
        · exact ⟨d, List.mem_cons_self, rfl, rfl, hpos⟩
        · obtain ⟨d', hd, hkind⟩ := ih.1 hf
          exact ⟨d', List.mem_cons_of_mem d hd, hkind⟩
      · obtain ⟨d', hd, hkind⟩ := ih.2 hf
        exact ⟨d', List.mem_cons_of_mem d hd, hkind⟩
    · rename_i hzero
      refine ⟨fun hf => ?_, fun hf => ?_⟩
      · obtain ⟨d', hd, hkind⟩ := ih.1 hf
        exact ⟨d', List.mem_cons_of_mem d hd, hkind⟩
      · rcases List.mem_cons.mp hf with rfl | hf
        · exact ⟨d, List.mem_cons_self, rfl, by omega, rfl, rfl⟩
        · obtain ⟨d', hd, hkind⟩ := ih.2 hf
          exact ⟨d', List.mem_cons_of_mem d hd, hkind⟩

end

namespace DeclaredTable

variable (t : DeclaredTable)

theorem key_placed : Placed 0 t.schema.keyFields := exportKey_placed 0 t.keyFields

theorem hot_placed : Placed 0 t.schema.hotFields := exportFields_placed t.toTableDecl 0 0 t.fields

theorem key_width : (t.schema.keyFields.map FieldSchema.width).sum = t.schema.keyLen :=
  (congrArg List.sum (exportKey_width 0 t.keyFields)).trans t.keyLen_eq.symm

theorem hot_width : (t.schema.hotFields.map FieldSchema.width).sum = t.schema.hotWidth :=
  (exportFields_width t.toTableDecl 0 0 t.fields).trans t.hotWidth_eq.symm

theorem key_sized {f : FieldSchema} (hf : f ∈ t.schema.keyFields) :
    keySized f.ty f.width = true := by
  obtain ⟨d, hd, hty, hwidth⟩ := mem_exportKey hf
  rw [hty, hwidth]
  exact t.keyKinds d hd

theorem hot_sized {f : FieldSchema} (hf : f ∈ t.schema.hotFields) :
    sized f.ty f.width = true ∧ 0 < f.width := by
  obtain ⟨d, hd, hty, hwidth, hpos⟩ := (mem_exportFields t.toTableDecl).1 hf
  rw [hty, hwidth]
  exact ⟨t.kinds d hd, hwidth ▸ hpos⟩

theorem cold_sized {f : FieldSchema} (hf : f ∈ t.schema.coldFields) :
    sized f.ty 0 = true ∧ f.width = 0 ∧ f.tag.isSome = true := by
  obtain ⟨d, hd, hty, hwidth, hzero, htag⟩ := (mem_exportFields t.toTableDecl).2 hf
  have hkind := t.kinds d hd
  rw [hwidth] at hkind
  rw [hty]
  exact ⟨hkind, hzero, htag⟩

end DeclaredTable

/-! ## Decoding -/

/-- The bytes of a field that a decoder does not survive. -/
def Overflows (ty : FieldType) (raw : Bytes) : Prop :=
  match ty with
  | .quant p => 8 < p.toNat
  | .offset base => 2 ^ 63 ≤ base.toInt + beNat raw
  | _ => False

theorem dequantize_ends (w : Int64) (p : UInt32) :
    ((dequantize w p).Answers ↔ ¬ 8 < p.toNat) ∧ ((dequantize w p).Aborts ↔ 8 < p.toNat) := by
  unfold dequantize pow10
  by_cases hp : p.toNat ≤ 8
  · rw [if_pos hp]
    exact ⟨iff_of_true ⟨_, rfl⟩ (by omega), iff_of_false (by simp) (by omega)⟩
  · rw [if_neg hp]
    exact ⟨iff_of_false (by simp) (by omega), iff_of_true ⟨_, rfl⟩ (by omega)⟩

theorem rebase_ends (base : Int64) (raw : Bytes) :
    ((rebase base raw).Answers ↔ ¬ 2 ^ 63 ≤ base.toInt + beNat raw) ∧
      ((rebase base raw).Aborts ↔ 2 ^ 63 ≤ base.toInt + beNat raw) := by
  unfold rebase
  by_cases h : base.toInt + beNat raw < 2 ^ 63
  · rw [if_pos h]
    exact ⟨iff_of_true ⟨_, rfl⟩ (by omega), iff_of_false (by simp) (by omega)⟩
  · rw [if_neg h]
    exact ⟨iff_of_false (by simp) (by omega), iff_of_true ⟨_, rfl⟩ (by omega)⟩

/-- **A field of its declared width is never refused.** -/
theorem decodeFixed_ends (name : String) {ty : FieldType} {raw : Bytes} (hpos : raw ≠ [])
    (hkind : sized ty raw.length = true) :
    ((decodeFixed name ty raw.length raw).Answers ↔ ¬ Overflows ty raw) ∧
      ((decodeFixed name ty raw.length raw).Aborts ↔ Overflows ty raw) := by
  have hcalm : ∀ v : Value, ((answer v : Codec Value).Answers ↔ ¬ False) ∧
      ((answer v : Codec Value).Aborts ↔ False) := by simp
  cases ty with
  | u8 =>
    -- fields of plain bytes read what is there
    obtain ⟨b, rest, rfl⟩ := List.exists_cons_of_ne_nil hpos
    exact hcalm _
  | u16 =>
    have hlen : raw.length = 2 := by simpa [sized, keySized] using hkind
    rw [decodeFixed, if_pos hlen]
    exact hcalm _
  | u32 =>
    have hlen : raw.length = 4 := by simpa [sized, keySized] using hkind
    rw [decodeFixed, if_pos hlen]
    exact hcalm _
  | u64 =>
    have hlen : raw.length = 8 := by simpa [sized, keySized] using hkind
    rw [decodeFixed, if_pos hlen]
    exact hcalm _
  | uuid4 | uuid7 =>
    have hlen : raw.length = 16 := by simpa [sized, keySized] using hkind
    rw [decodeFixed, if_pos (by omega)]
    exact hcalm _
  | fixedBytes | vocab idSlot => exact hcalm _
  | str | bytes | varInt | vector elem =>
    have hlen : raw.length = 0 := by simpa [sized] using hkind
    exact absurd (List.length_eq_zero_iff.mp hlen) hpos
  | quant p =>
    have hlen : raw.length = 8 := by simpa [sized] using hkind
    rw [decodeFixed, if_pos hlen, Guarded.aborts_bind]
    -- only a scaled or shifted number can leave its range
    have hends := dequantize_ends (int64OfBytes raw) p
    refine ⟨?_, ?_⟩
    · rw [Guarded.answers_bind]
      simp only [Guarded.answers_answer, and_true]
      exact hends.1
    · simp only [Guarded.not_aborts_answer, and_false, exists_false, or_false]
      exact hends.2
  | offset base =>
    have hlen : raw.length = 4 := by simpa [sized] using hkind
    rw [decodeFixed, if_pos hlen]
    exact rebase_ends base raw

/-- Key fields hold no wrapper kind, so they always read. -/
theorem decodeFixed_key (name : String) {ty : FieldType} {raw : Bytes}
    (hkind : keySized ty raw.length = true) : (decodeFixed name ty raw.length raw).Answers := by
  by_cases hraw : raw = []
  · subst hraw
    cases ty with
    | fixedBytes => exact ⟨_, rfl⟩
    | _ => simp [keySized] at hkind
  · have hsized : sized ty raw.length = true ∧ ¬ Overflows ty raw := by
      cases ty with
      | _ => simp_all [keySized, sized, Overflows]
    exact (decodeFixed_ends name hraw hsized.1).1.mpr hsized.2

theorem length_cut {bytes : Bytes} {first width : Nat} (h : first + width ≤ bytes.length) :
    ((bytes.take (first + width)).drop first).length = width := by
  rw [List.length_drop, List.length_take]
  omega

/-- A key of full length is answered. -/
theorem decodeKey_answers (t : DeclaredTable) (bytes : Bytes)
    (hlen : t.schema.keyLen ≤ bytes.length) :
    (decodeKey t.schema.toCollectionSchema bytes).Answers := by
  have hreads : ∀ f ∈ t.schema.keyFields, ∀ out : ValueMap, (do
      let raw ← sliceOf bytes f.offset (f.offset + f.width)
      let v ← decodeFixed f.name f.ty f.width raw
      answer (out.insert f.name v) : Codec ValueMap).Answers := by
    intro f hf out
    have hfits := t.key_placed.le hf
    rw [t.key_width] at hfits
    have hcut : ((bytes.take (f.offset + f.width)).drop f.offset).length = f.width :=
      length_cut (by omega)
    have hslice : sliceOf bytes f.offset (f.offset + f.width)
        = answer ((bytes.take (f.offset + f.width)).drop f.offset) :=
      if_pos ⟨by omega, by omega⟩
    have hkind := t.key_sized hf
    rw [← hcut] at hkind
    obtain ⟨v, hv⟩ := decodeFixed_key f.name hkind
    rw [hcut] at hv
    rw [hslice, Guarded.answer_bind, hv]
    exact ⟨_, rfl⟩
  have hall := Guarded.foldlM_answers
    (fun f hf out => (iff_true_intro (hreads f hf out) : _ ↔ True)) SortedMap.empty
  unfold decodeKey
  rw [if_neg (by omega)]
  exact hall.mpr fun _ _ => trivial

/-- **A key is answered or refused.** -/
theorem decodeKey_ends (t : DeclaredTable) (bytes : Bytes) :
    ¬ (decodeKey t.schema.toCollectionSchema bytes).Aborts := by
  by_cases hlen : bytes.length < t.schema.keyLen
  · unfold decodeKey
    rw [if_pos hlen]
    simp
  · obtain ⟨out, hout⟩ := decodeKey_answers t bytes (not_lt.mp hlen)
    rw [hout]
    simp

/-- A hot field that stands in the segment and is not survived. -/
def HotOverflows (schema : CollectionSchema) (hot : Bytes) : Prop :=
  ∃ f ∈ schema.hotFields, f.offset + f.width ≤ hot.length ∧
    Overflows f.ty ((hot.take (f.offset + f.width)).drop f.offset)

theorem hot_ends (t : DeclaredTable) (hot : Bytes) (out : ValueMap) :
    ((t.schema.hotFields.foldlM (enterHot hot) out).Answers ↔
      ¬ HotOverflows t.schema.toCollectionSchema hot) ∧
    ((t.schema.hotFields.foldlM (enterHot hot) out).Aborts ↔
      HotOverflows t.schema.toCollectionSchema hot) := by
  have hstep : ∀ f ∈ t.schema.hotFields, ∀ out,
      ((enterHot hot out f).Answers ↔ ¬ (f.offset + f.width ≤ hot.length ∧
        Overflows f.ty ((hot.take (f.offset + f.width)).drop f.offset))) ∧
      ((enterHot hot out f).Aborts ↔ f.offset + f.width ≤ hot.length ∧
        Overflows f.ty ((hot.take (f.offset + f.width)).drop f.offset)) := by
    intro f hf out
    obtain ⟨hkind, hpos⟩ := t.hot_sized hf
    unfold enterHot
    by_cases hfits : f.offset + f.width ≤ hot.length
    · have hcut := length_cut hfits
      have hne : (hot.take (f.offset + f.width)).drop f.offset ≠ [] := by
        intro hnil
        rw [hnil] at hcut
        exact absurd hcut (by rw [List.length_nil]; omega)
      rw [← hcut] at hkind
      have hends := decodeFixed_ends f.name hne hkind
      rw [hcut] at hends
      rw [if_pos hfits, Guarded.aborts_bind, Guarded.answers_bind]
      simp only [hfits, true_and, Guarded.answers_answer, and_true, Guarded.not_aborts_answer,
        and_false, exists_false, or_false]
      exact hends
    · rw [if_neg hfits]
      simp [hfits]
  have hpass := fun f hf out => (hstep f hf out).1
  have hstop := fun f hf out => (hstep f hf out).2
  rw [Guarded.foldlM_answers hpass, Guarded.foldlM_aborts hpass hstop, Guarded.firstStop_not]
  unfold HotOverflows
  refine ⟨⟨fun h hex => ?_, fun h f hf hover => h ⟨f, hf, hover⟩⟩, Iff.rfl⟩
  obtain ⟨f, hf, hover⟩ := hex
  exact h f hf hover

/-- How the cold frames of a payload end. -/
inductive ColdEnd where
  | done
  | torn (e : CodecError)
  | beyond

/-- The cold frames, tag and value, up to the first that is cut short or whose length is not
survived: it has width eight or carries the position past `usize`. -/
def splitCold (size : Nat) (rest : Bytes) : List (UInt8 × Bytes) × ColdEnd :=
  match rest with
  | [] => ([], .done)
  | tag :: rest =>
    if widthEight rest = true then ([], .beyond)
    else
      match takeLen rest with
      | none => ([], .torn (.truncated "<cold len>" 4 rest.length))
      | some (len, n) =>
        if 2 ^ 64 ≤ (size - (rest.drop n).length) + len then ([], .beyond)
        else if (rest.drop n).length < len then
          ([], .torn (.truncated "<cold value>" len (rest.drop n).length))
        else
          ((tag, (rest.drop n).take len) :: (splitCold size ((rest.drop n).drop len)).1,
            (splitCold size ((rest.drop n).drop len)).2)
termination_by rest.length
decreasing_by
  all_goals
    rw [List.length_drop, List.length_drop, List.length_cons]
    omega

def ColdEnd.ends (out : ValueMap) : ColdEnd → Codec ValueMap
  | done => answer out
  | torn e => refuse e
  | beyond => abort .overflow

/-- The frames are entered one after the other. -/
theorem decodeCold_eq (schema : CollectionSchema) (size : Nat) (rest : Bytes) (out : ValueMap) :
    decodeCold schema size rest out =
      (splitCold size rest).1.foldlM (enterFrame schema) out >>= fun out =>
        (splitCold size rest).2.ends out := by
  induction hn : rest.length using Nat.strong_induction_on generalizing rest out with
  | _ n ih =>
    cases rest with
    | nil =>
      rw [decodeCold, splitCold]
      rfl
    | cons tag rest =>
      rw [decodeCold, splitCold, takeLenChecked_eq]
      by_cases hwide : widthEight rest = true
      · rw [if_pos hwide, if_pos hwide]
        rfl
      rw [if_neg hwide, if_neg hwide]
      rcases takeLen rest with _ | ⟨len, k⟩
      · rfl
      · dsimp only
        split
        · rfl
        · split
          · rfl
          · have hshort : ((rest.drop k).drop len).length < n := by
              rw [List.length_drop, List.length_drop, ← hn, List.length_cons]
              omega
            rw [List.foldlM_cons]
            cases enterFrame schema out (tag, (rest.drop k).take len) with
            | refuse e => rfl
            | abort f => rfl
            | answer out' => exact ih _ hshort _ out' rfl

/-- A value in the form of its kind. -/
def ValueReads (f : FieldSchema) (value : Bytes) : Prop :=
  match f.ty with
  | .str => (strOfBytes value).isSome = true
  | .vector _ => 4 ≤ value.length ∧ ∀ expect ∈ f.expectLen, beNat (value.take 4) = expect
  | .varInt => value.length ≠ 8 ∧ ∃ first ∈ value.head?, value.length = markerWidth first
  | _ => False

/-- A `VarInt` of width eight. -/
def ValueOverflows (f : FieldSchema) (value : Bytes) : Prop :=
  f.ty = .varInt ∧ value.length = 8 ∧ ∃ first ∈ value.head?, markerWidth first = 8

theorem decodeVarInt_ends {f : FieldSchema} (hty : f.ty = .varInt) (value : Bytes) :
    ((decodeFrame f value).Answers ↔ ValueReads f value) ∧
      ((decodeFrame f value).Aborts ↔ ValueOverflows f value) := by
  unfold decodeFrame ValueReads ValueOverflows
  rw [hty]
  cases value with
  | nil => simp
  | cons first rest =>
    dsimp only
    by_cases hlen : (first :: rest).length = markerWidth first
    · rw [if_neg (not_not.mpr hlen)]
      by_cases h8 : markerWidth first = 8
      · have habort : takeLenChecked (first :: rest) = none := by
          rw [List.length_cons] at hlen
          rw [takeLenChecked, if_neg (by omega), h8]
          rfl
        rw [habort]
        simp [hlen, h8]
      · have hread : ∃ p, takeLen (first :: rest) = some p := by
          rw [List.length_cons] at hlen
          rw [takeLen]
          dsimp only
          rw [if_neg (by omega)]
          split
          · exact ⟨_, rfl⟩
          · exact ⟨_, rfl⟩
        obtain ⟨p, hp⟩ := hread
        rw [takeLenChecked_cons h8, hp]
        simp [hlen, h8]
    · rw [if_pos hlen]
      refine ⟨iff_of_false (by simp) ?_, iff_of_false (by simp) ?_⟩
      · simp only [List.head?_cons, Option.mem_some_iff, exists_eq_left']
        exact fun h => hlen h.2
      · simp only [List.head?_cons, Option.mem_some_iff, exists_eq_left']
        exact fun h => hlen (h.2.1.trans h.2.2.symm)

/-- **How the value of a declared cold field ends.** -/
theorem decodeFrame_ends {f : FieldSchema} (hkind : sized f.ty 0 = true) (value : Bytes) :
    ((decodeFrame f value).Answers ↔ ValueReads f value) ∧
      ((decodeFrame f value).Aborts ↔ ValueOverflows f value) := by
  cases hty : f.ty with
  | varInt => exact decodeVarInt_ends hty value
  | str =>
    unfold decodeFrame ValueReads ValueOverflows
    rw [hty]
    cases strOfBytes value with
    | none => simp
    | some s => simp
  | vector elem =>
    unfold decodeFrame ValueReads ValueOverflows
    rw [hty]
    dsimp only
    by_cases hlen : value.length < 4
    · rw [if_pos hlen]
      refine ⟨iff_of_false (by simp) (fun h => ?_), iff_of_false (by simp) (by simp)⟩
      omega
    · rw [if_neg hlen]
      cases hexpect : f.expectLen with
      | none => simp; omega
      | some expect =>
        by_cases hcount : beNat (value.take 4) = expect
        · simp [hcount]; omega
        · simp [hcount]
  | quant p | offset base => simp [hty, sized] at hkind
  | _ =>
    unfold decodeFrame ValueReads ValueOverflows
    rw [hty]
    simp

/-- A frame of an unknown tag, or of a field whose form its value has. -/
def FrameReads (schema : CollectionSchema) (frame : UInt8 × Bytes) : Prop :=
  ∀ f, byTag schema frame.1 = some f → ValueReads f frame.2

def FrameOverflows (schema : CollectionSchema) (frame : UInt8 × Bytes) : Prop :=
  ∃ f, byTag schema frame.1 = some f ∧ ValueOverflows f frame.2

theorem byTag_mem {schema : CollectionSchema} {tag : UInt8} {f : FieldSchema}
    (h : byTag schema tag = some f) : f ∈ schema.coldFields :=
  List.mem_reverse.mp (List.mem_of_find?_eq_some h)

theorem enterFrame_ends (t : DeclaredTable) (out : ValueMap) (frame : UInt8 × Bytes) :
    ((enterFrame t.schema.toCollectionSchema out frame).Answers ↔
      FrameReads t.schema.toCollectionSchema frame) ∧
    ((enterFrame t.schema.toCollectionSchema out frame).Aborts ↔
      FrameOverflows t.schema.toCollectionSchema frame) := by
  unfold enterFrame FrameReads FrameOverflows
  cases htag : byTag t.schema.toCollectionSchema frame.1 with
  | none => simp
  | some f =>
    have hends := decodeFrame_ends (t.cold_sized (byTag_mem htag)).1 frame.2
    dsimp only
    rw [Guarded.answers_bind, Guarded.aborts_bind]
    simp only [Guarded.answers_answer, and_true, Guarded.not_aborts_answer, and_false,
      exists_false, or_false, Option.some.injEq, forall_eq', exists_eq_left']
    exact hends

/-- Among the frames the first that does not read is a `VarInt` of width eight, or all of them
read and the next length is not survived. -/
def ColdOverflows (schema : CollectionSchema) (size : Nat) (rest : Bytes) : Prop :=
  FirstStop (FrameReads schema) (FrameOverflows schema) (splitCold size rest).1 ∨
    (∀ frame ∈ (splitCold size rest).1, FrameReads schema frame) ∧
      (splitCold size rest).2 = .beyond

theorem cold_ends (t : DeclaredTable) (size : Nat) (rest : Bytes) (out : ValueMap) :
    (decodeCold t.schema.toCollectionSchema size rest out).Aborts ↔
      ColdOverflows t.schema.toCollectionSchema size rest := by
  have hpass := fun (frame : UInt8 × Bytes) (_ : frame ∈ (splitCold size rest).1) out =>
    (enterFrame_ends t out frame).1
  have hstop := fun (frame : UInt8 × Bytes) (_ : frame ∈ (splitCold size rest).1) out =>
    (enterFrame_ends t out frame).2
  have hend : ∀ out, ((splitCold size rest).2.ends out).Aborts ↔
      (splitCold size rest).2 = .beyond := by
    intro out
    cases (splitCold size rest).2 with
    | done => simp [ColdEnd.ends]
    | torn e => simp [ColdEnd.ends]
    | beyond => simp [ColdEnd.ends]
  rw [decodeCold_eq, Guarded.aborts_bind, Guarded.foldlM_aborts hpass hstop, ColdOverflows,
    ← Guarded.foldlM_answers hpass out]
  refine or_congr Iff.rfl ⟨fun h => ?_, fun h => ?_⟩
  · obtain ⟨out', hout', habort⟩ := h
    exact ⟨⟨out', hout'⟩, (hend out').mp habort⟩
  · obtain ⟨⟨out', hout'⟩, hbeyond⟩ := h
    exact ⟨out', hout', (hend out').mpr hbeyond⟩

/-- The payloads the decoder does not survive: the header is whole, its version known and the
hot segment there, and a hot field or a cold frame is one of those above. -/
def PayloadOverflows (schema : CollectionSchema) (bytes : Bytes) : Prop :=
  ∃ version hi lo body, bytes = version :: hi :: lo :: body ∧
    ¬ schema.layoutVersion < version ∧ beNat [hi, lo] ≤ body.length ∧
    (HotOverflows schema (body.take (beNat [hi, lo])) ∨
      ColdOverflows schema bytes.length (body.drop (beNat [hi, lo])))

/-- **The payloads the decoder does not survive.** -/
theorem decodePayload_ends (t : DeclaredTable) (bytes : Bytes) :
    (decodePayload t.schema.toCollectionSchema bytes).Aborts ↔
      PayloadOverflows t.schema.toCollectionSchema bytes := by
  have hheader : t.schema.payloadHeaderLen = 3 := rfl
  unfold decodePayload
  rw [hheader]
  dsimp only
  rcases bytes with _ | ⟨version, _ | ⟨hi, _ | ⟨lo, body⟩⟩⟩
  · simp [PayloadOverflows]
  · simp [PayloadOverflows]
  · simp [PayloadOverflows]
  · have hlong : ¬ (version :: hi :: lo :: body).length < 3 := by
      simp only [List.length_cons]
      omega
    rw [if_neg hlong]
    -- three bytes of header, then the hot and the cold part
    have hshape : PayloadOverflows t.schema.toCollectionSchema (version :: hi :: lo :: body) ↔
        ¬ t.schema.layoutVersion < version ∧ beNat [hi, lo] ≤ body.length ∧
        (HotOverflows t.schema.toCollectionSchema (body.take (beNat [hi, lo])) ∨
          ColdOverflows t.schema.toCollectionSchema (version :: hi :: lo :: body).length
            (body.drop (beNat [hi, lo]))) := by
      constructor
      · intro h
        obtain ⟨version', hi', lo', body', heq, h⟩ := h
        simp only [List.cons.injEq] at heq
        obtain ⟨rfl, rfl, rfl, rfl⟩ := heq
        exact h
      · exact fun h => ⟨version, hi, lo, body, rfl, h⟩
    rw [hshape]
    dsimp only
    -- a newer layout, or a hot part that is not there, is refused
    by_cases hversion : t.schema.layoutVersion < version
    · rw [if_pos hversion]
      simp [hversion]
    · rw [if_neg hversion]
      by_cases hhot : (version :: hi :: lo :: body).length < 3 + beNat [hi, lo]
      · rw [if_pos hhot]
        refine iff_of_false (by simp) (fun h => ?_)
        have hle := h.2.1
        simp only [List.length_cons] at hhot
        omega
      · rw [if_neg hhot]
        have hfits : beNat [hi, lo] ≤ body.length := by
          simp only [List.length_cons] at hhot
          omega
        have hbody : (version :: hi :: lo :: body).drop 3 = body := rfl
        obtain ⟨hanswer, habort⟩ := hot_ends t (body.take (beNat [hi, lo])) SortedMap.empty
        rw [hbody, Guarded.aborts_bind, habort]
        simp only [hversion, not_false_eq_true, hfits, true_and]
        by_cases hover : HotOverflows t.schema.toCollectionSchema (body.take (beNat [hi, lo]))
        · simp [hover]
        · -- the hot part answers, so the cold one decides
          obtain ⟨out, hout⟩ := hanswer.mpr hover
          simp only [hover, false_or, hout]
          rw [← cold_ends t _ _ out]
          constructor
          · intro h
            obtain ⟨out', heq, h⟩ := h
            obtain rfl := Guarded.answer.inj heq
            rw [Guarded.aborts_bind] at h
            rcases h with h | ⟨out', -, h⟩
            · exact h
            · simp at h
          · intro h
            exact ⟨out, rfl, Guarded.aborts_bind.mpr (Or.inl h)⟩

end Okm.Dynamic
