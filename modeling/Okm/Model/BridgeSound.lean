import Okm.Model.Bridge

/-!
# Where the bridge keeps its promise

Each arm is settled once, as a `Verdict`: it refuses, aborts or accepts, and says which of
the three predicates of its value hold. Nothing after that looks into an arm again. A
document is then a list of accepted fields, read back and written field by field.
-/

namespace Okm.Model

open Lib

/-! ## Decoders of trusted bytes -/

theorem any_beBytes {w n : Nat} (h : n < 256 ^ w) :
    (beBytes w n).any (· != 0) = false ↔ n = 0 := by
  have hzeros : beNat (List.replicate w (0 : UInt8)) = 0 := by
    have := beNat_replicate_zero w []
    rwa [List.append_nil, beNat_nil] at this
  constructor
  · intro hany
    have hall : ∀ b ∈ beBytes w n, b = 0 := by
      intro b hb
      have := List.any_eq_false.mp hany b hb
      simpa using this
    have hrep := List.eq_replicate_of_mem hall
    rw [length_beBytes] at hrep
    rw [← beNat_beBytes h, hrep, hzeros]
  · intro hn
    have hrep := beBytes_beNat (List.replicate w (0 : UInt8))
    rw [List.length_replicate, hzeros] at hrep
    rw [hn, hrep, List.any_eq_false]
    intro b hb
    rw [List.eq_of_mem_replicate hb]
    decide

/-- **The narrowing of an id checks its width.** -/
theorem vocabIdFromU64_eq (w : VocabId) (v : UInt64) :
    vocabIdFromU64 w v =
      if v.toNat < 256 ^ w.width then some (BitVec.ofNat (8 * w.width) v.toNat) else none := by
  have hw : w.width ≤ 16 := by cases w <;> decide
  have hsplit : beBytes 16 v.toNat
      = beBytes (16 - w.width) (v.toNat / 256 ^ w.width) ++ beBytes w.width v.toNat := by
    rw [← beBytes_add, Nat.sub_add_cancel hw]
  have hv : v.toNat / 256 ^ w.width < 256 ^ (16 - w.width) := by
    have h64 := v.toNat_lt
    have h16 : 256 ^ w.width * 256 ^ (16 - w.width) = 256 ^ 16 := by
      rw [← Nat.pow_add, Nat.add_sub_cancel' hw]
    rw [Nat.div_lt_iff_lt_mul (Nat.pow_pos (by omega)), Nat.mul_comm, h16]
    omega
  have hfront : (beBytes 16 v.toNat).take (16 - w.width)
      = beBytes (16 - w.width) (v.toNat / 256 ^ w.width) := by
    rw [hsplit, List.take_left' (length_beBytes _ _)]
  have hback : (beBytes 16 v.toNat).drop (16 - w.width) = beBytes w.width v.toNat := by
    rw [hsplit, List.drop_left' (length_beBytes _ _)]
  have hzero : v.toNat / 256 ^ w.width = 0 ↔ v.toNat < 256 ^ w.width :=
    Nat.div_eq_zero_iff_lt (Nat.pow_pos (by omega))
  unfold vocabIdFromU64
  dsimp only
  rw [hfront, hback]
  by_cases hlt : v.toNat < 256 ^ w.width
  · rw [(any_beBytes hv).mpr (hzero.mpr hlt), if_neg (by decide), if_pos hlt, ofBe,
      beNat_beBytes hlt]
  · have hany : (beBytes (16 - w.width) (v.toNat / 256 ^ w.width)).any (· != 0) = true := by
      by_contra hno
      exact hlt (hzero.mp ((any_beBytes hv).mp (by simpa using hno)))
    rw [hany, if_pos rfl, if_neg hlt]

theorem readElems_of_lt {elem : VectorElem} {n : Nat} {b : Bytes} (h : b.length < n * elem.width) :
    readElems elem n b = .error .slice := by
  induction n generalizing b with
  | zero => omega
  | succ n ih =>
    rw [Nat.add_mul, Nat.one_mul] at h
    rw [readElems]
    by_cases hshort : b.length < elem.width
    · rw [if_pos hshort]
    · rw [if_neg hshort, ih (by
        rw [List.length_drop]
        omega)]
      rfl

theorem readElems_of_le {elem : VectorElem} {n : Nat} {b : Bytes} (h : n * elem.width ≤ b.length) :
    ∃ elems, readElems elem n b = .ok elems ∧ elems.length = n
      ∧ (elems.flatMap fun e => leBytes elem.width e.toNat) = b.take (n * elem.width) := by
  induction n generalizing b with
  | zero => exact ⟨[], rfl, rfl, by simp⟩
  | succ n ih =>
    rw [Nat.add_mul, Nat.one_mul] at h
    obtain ⟨elems, hread, hlen, hwire⟩ := @ih (b.drop elem.width) (by
      rw [List.length_drop]
      omega)
    refine ⟨BitVec.ofNat _ (leNat (b.take elem.width)) :: elems, ?_, ?_, ?_⟩
    · rw [readElems, if_neg (by omega), hread]
      rfl
    · rw [List.length_cons, hlen]
    · have htake : (b.take elem.width).length = elem.width := List.length_take_of_le (by omega)
      have hlt := leNat_lt (b.take elem.width)
      have hback := leBytes_leNat (b.take elem.width)
      rw [htake] at hlt hback
      rw [List.flatMap_cons, toNat_ofNat_word hlt, hback, hwire, Nat.add_mul, Nat.one_mul,
        Nat.add_comm (n * elem.width), List.take_add]

theorem vectorDecode_of_lt {elem : VectorElem} {b : Bytes}
    (h : b.length < 4 + beNat (b.take 4) * elem.width) : vectorDecode elem b = .error .slice := by
  unfold vectorDecode
  by_cases h4 : b.length < 4
  · rw [if_pos h4]
  · rw [if_neg h4, readElems_of_lt (by
      rw [List.length_drop]
      omega)]

/-- **A vector is read from any byte string long enough, and writes the front of it.** -/
theorem vectorDecode_of_le {elem : VectorElem} {b : Bytes}
    (h : 4 + beNat (b.take 4) * elem.width ≤ b.length) :
    ∃ elems, vectorDecode elem b = .ok elems ∧ elems.length = beNat (b.take 4)
      ∧ vectorWire elem elems = b.take (4 + beNat (b.take 4) * elem.width) := by
  obtain ⟨elems, hread, hlen, hwire⟩ := @readElems_of_le elem (beNat (b.take 4)) (b.drop 4) (by
    rw [List.length_drop]
    omega)
  have htake : (b.take 4).length = 4 := List.length_take_of_le (by omega)
  have hcount := beBytes_beNat (b.take 4)
  rw [htake] at hcount
  refine ⟨elems, ?_, hlen, ?_⟩
  · rw [vectorDecode, if_neg (by omega), hread]
  · rw [vectorWire, hlen, hcount, hwire, List.take_add]

/-! ## One arm -/

/-- What an arm does with a value, and what the three predicates say of it. -/
inductive Verdict (name : String) (kind : FieldKind) (got : DynamicValue) : Prop where
  | refused (e : Error) (h : kind.ofDynamic name got = .error (.refused e))
      (rejects : kind.Rejects got) (aborts : ¬kind.Aborts got) (represents : ¬kind.Represents got)
  | aborted (p : Panic) (h : kind.ofDynamic name got = .error (.panic p))
      (rejects : ¬kind.Rejects got) (aborts : kind.Aborts got) (represents : ¬kind.Represents got)
  | accepted (v : FieldValue kind) (h : kind.ofDynamic name got = .ok v)
      (rejects : ¬kind.Rejects got) (aborts : ¬kind.Aborts got)
      (back : kind.Represents got → v.toDynamic = .ok got)
      (fits : kind.Represents got → ∀ checked, v.Writable checked ↔ kind.Fits checked got)

section

variable {name : String} {got : DynamicValue}

theorem arm_some {α β : Type} {want : String} {payload : Option β} {use : β → Except Failure α}
    {v : β} (h : payload = some v) : arm name want got payload use = use v := by
  rw [h]
  rfl

theorem arm_none {α β : Type} {want : String} {payload : Option β} {use : β → Except Failure α}
    (h : payload = none) : arm name want got payload use = kindMismatch name want got := by
  rw [h]
  rfl

/-- No value of the kind, no representation. -/
theorem not_of_none {β : Type} {payload : Option β} {P : β → Prop} (h : payload = none) :
    ¬∃ v, payload = some v ∧ P v := by
  rw [h]
  rintro ⟨v, hv, -⟩
  cases hv

theorem iff_of_some {β : Type} {payload : Option β} {P : β → Prop} {v : β}
    (h : payload = some v) : (∃ v, payload = some v ∧ P v) ↔ P v := by
  rw [h]
  constructor
  · intro hex
    obtain ⟨v', hv, hP⟩ := hex
    rwa [Option.some.inj hv]
  · exact fun hP => ⟨v, rfl, hP⟩

theorem forall_iff_of_some {β : Type} {payload : Option β} {P : β → Prop} {v : β}
    (h : payload = some v) : (∀ v, payload = some v → P v) ↔ P v := by
  rw [h]
  exact ⟨fun hall => hall v rfl, fun hP v' hv => by rwa [← Option.some.inj hv]⟩

/-- A number that fits a word is in it. -/
theorem uint_back {n : Nat} {v : UInt64} (h : v.toNat < 2 ^ (8 * n)) :
    UInt64.ofNat (BitVec.ofNat (8 * n) v.toNat).toNat = v := by
  rw [BitVec.toNat_ofNat, Nat.mod_eq_of_lt h, UInt64.ofNat_toNat]

theorem verdict_uint (w : IntWidth) : Verdict name (.uint w) got := by
  cases hp : got.asUInt with
  | none =>
    have hno : ¬FieldKind.Represents (.uint w) got := not_of_none hp
    exact .refused _ (arm_none hp) hno (fun h => h) hno
  | some v =>
    have hiff : FieldKind.Represents (.uint w) got ↔ v.toNat < 2 ^ w.bits := iff_of_some hp
    by_cases hlt : v.toNat < 2 ^ w.bits
    · refine .accepted (.uint (BitVec.ofNat _ v.toNat)) ?_ (fun h => h (hiff.mpr hlt)) (fun h => h)
        ?_ fun _ _ => Iff.rfl
      · exact (arm_some hp).trans (if_pos hlt)
      · intro _
        rw [DynamicValue.eq_uint hp, FieldValue.toDynamic, uint_back hlt]
    · have hno := mt hiff.mp hlt
      exact .refused _ ((arm_some hp).trans (if_neg hlt)) hno (fun h => h) hno

theorem verdict_sint (w : IntWidth) : Verdict name (.sint w) got := by
  cases hp : got.asInt with
  | none =>
    have hno : ¬FieldKind.Represents (.sint w) got := not_of_none hp
    exact .refused _ (arm_none hp) hno (fun h => h) hno
  | some v =>
    have hiff : FieldKind.Represents (.sint w) got
        ↔ -2 ^ (w.bits - 1) ≤ v.toInt ∧ v.toInt < 2 ^ (w.bits - 1) := iff_of_some hp
    by_cases hin : -2 ^ (w.bits - 1) ≤ v.toInt ∧ v.toInt < 2 ^ (w.bits - 1)
    · refine .accepted (.sint (BitVec.ofInt _ v.toInt)) ?_ (fun h => h (hiff.mpr hin)) (fun h => h)
        ?_ fun _ _ => Iff.rfl
      · exact (arm_some hp).trans (if_pos hin)
      · intro _
        have hw : 0 < 8 * w.bytes := by cases w <;> decide
        rw [DynamicValue.eq_int hp, FieldValue.toDynamic,
          BitVec.toInt_ofInt_eq_self hw hin.1 hin.2, Int64.ofInt_toInt]
    · have hno := mt hiff.mp hin
      exact .refused _ ((arm_some hp).trans (if_neg hin)) hno (fun h => h) hno

theorem verdict_str : Verdict name .str got := by
  cases hp : got.asStr with
  | none =>
    have hno : ¬FieldKind.Represents .str got := by
      intro h
      obtain ⟨s, hs⟩ := h
      rw [hp] at hs
      cases hs
    exact .refused _ (arm_none hp) hno (fun h => h) hno
  | some s =>
    have hyes : FieldKind.Represents .str got := ⟨s, hp⟩
    refine .accepted (.str s) (arm_some hp) (fun h => h hyes) (fun h => h) ?_ ?_
    · intro _
      rw [DynamicValue.eq_str hp, FieldValue.toDynamic]
    · intro _ checked
      exact (@forall_iff_of_some _ _ (fun s => MaskFits checked (strBytes s).length) s hp).symm

theorem verdict_bytes : Verdict name .bytes got := by
  cases hp : got.asBytes with
  | none =>
    have hno : ¬FieldKind.Represents .bytes got := by
      intro h
      obtain ⟨b, hb⟩ := h
      rw [hp] at hb
      cases hb
    exact .refused _ (arm_none hp) hno (fun h => h) hno
  | some b =>
    have hyes : FieldKind.Represents .bytes got := ⟨b, hp⟩
    refine .accepted (.bytes b) (arm_some hp) (fun h => h hyes) (fun h => h) ?_ ?_
    · intro _
      rw [DynamicValue.eq_bytes hp, FieldValue.toDynamic]
    · intro _ checked
      exact (@forall_iff_of_some _ _ (fun b => MaskFits checked b.length) b hp).symm

theorem verdict_fixedBytes (n : Nat) : Verdict name (.fixedBytes n) got := by
  cases hp : got.asBytes with
  | none =>
    have hno : ¬FieldKind.Represents (.fixedBytes n) got := not_of_none hp
    exact .refused _ (arm_none hp) hno (fun h => h) hno
  | some b =>
    have hiff : FieldKind.Represents (.fixedBytes n) got ↔ b.length = n := iff_of_some hp
    by_cases hlen : b.length = n
    · refine .accepted (.fixedBytes ⟨b, hlen⟩) ?_ (fun h => h (hiff.mpr hlen)) (fun h => h) ?_
        fun _ _ => Iff.rfl
      · exact (arm_some hp).trans (dif_pos hlen)
      · intro _
        rw [DynamicValue.eq_bytes hp, FieldValue.toDynamic]
    · have hno := mt hiff.mp hlen
      exact .refused _ ((arm_some hp).trans (dif_neg hlen)) hno (fun h => h) hno

theorem verdict_uuid (ty : String) : Verdict name (.uuid ty) got := by
  cases hp : got.asBytes with
  | none =>
    have hno : ¬FieldKind.Represents (.uuid ty) got := not_of_none hp
    exact .refused _ (arm_none hp) hno (fun h => h) hno
  | some b =>
    have hiff : FieldKind.Represents (.uuid ty) got ↔ b.length = 16 := iff_of_some hp
    by_cases hlen : b.length = 16
    · refine .accepted (.uuid ⟨b, hlen⟩) ?_ (fun h => h (hiff.mpr hlen)) (fun h => h) ?_
        fun _ _ => Iff.rfl
      · exact (arm_some hp).trans (dif_pos hlen)
      · intro _
        rw [DynamicValue.eq_bytes hp, FieldValue.toDynamic]
    · have hno := mt hiff.mp hlen
      exact .refused _ ((arm_some hp).trans (dif_neg hlen)) hno (fun h => h) hno

/-- Every number is taken; the ones past the width come back as others. -/
theorem verdict_varInt (w : VarIntWidth) : Verdict name (.varInt w) got := by
  cases hp : got.asUInt with
  | none => exact .refused _ (arm_none hp) hp (fun h => h) (not_of_none hp)
  | some v =>
    have hiff : FieldKind.Represents (.varInt w) got ↔ v.toNat < 256 ^ w.bytes := iff_of_some hp
    refine .accepted (.varInt (BitVec.ofNat _ v.toNat)) (arm_some hp) ?_ (fun h => h) ?_ ?_
    · intro h
      rw [FieldKind.Rejects, hp] at h
      cases h
    · intro h
      have hlt := hiff.mp h
      rw [← two_pow_eight_mul] at hlt
      rw [DynamicValue.eq_uint hp, FieldValue.toDynamic, uint_back hlt]
    · intro h checked
      rw [FieldValue.Writable, toNat_ofNat_word (hiff.mp h)]
      exact (@forall_iff_of_some _ _ (fun v => MaskFits checked v.toNat) v hp).symm

theorem verdict_vocab_of_none {w : VocabId} (hs : got.asStr = none) (hu : got.asUInt = none)
    (h : FieldKind.ofDynamic name (.vocab w) got
      = kindMismatch name "Str (a label) or UInt (an unresolved id)" got) :
    Verdict name (.vocab w) got := by
  have hno : ¬FieldKind.Represents (.vocab w) got := by
    intro hrep
    rcases hrep with ⟨s, h⟩ | hrep
    · rw [hs] at h
      cases h
    · exact not_of_none hu hrep
  exact .refused _ h hno (fun h => h) hno

theorem verdict_vocab (w : VocabId) : Verdict name (.vocab w) got := by
  cases got with
  | str label =>
    exact .accepted (.vocab (Vocab.of label)) rfl (fun h => h (.inl ⟨label, rfl⟩)) (fun h => h)
      (fun _ => rfl) fun _ _ => Iff.rfl
  | uint v =>
    have hiff : FieldKind.Represents (.vocab w) (.uint v) ↔ v.toNat < 256 ^ w.width := by
      constructor
      · intro hrep
        rcases hrep with ⟨s, h⟩ | ⟨v', hv, hlt⟩
        · cases h
        · rwa [Option.some.inj hv]
      · exact fun hlt => .inr ⟨v, rfl, hlt⟩
    have hnarrow := vocabIdFromU64_eq w v
    by_cases hlt : v.toNat < 256 ^ w.width
    · rw [if_pos hlt] at hnarrow
      refine .accepted (.vocab (Vocab.fromId (BitVec.ofNat _ v.toNat))) ?_
        (fun h => h (hiff.mpr hlt)) (fun h => h) ?_ fun _ _ => Iff.rfl
      · rw [FieldKind.ofDynamic, hnarrow]
      · intro _
        rw [← two_pow_eight_mul] at hlt
        exact congrArg (fun u => Except.ok (DynamicValue.uint u)) (uint_back hlt)
    · rw [if_neg hlt] at hnarrow
      have hno := mt hiff.mp hlt
      refine .refused (.valueOutOfRange name w.text (toString v)) ?_ hno (fun h => h) hno
      rw [FieldKind.ofDynamic, hnarrow]
      rfl
  | int v => exact verdict_vocab_of_none rfl rfl rfl
  | f64 bits => exact verdict_vocab_of_none rfl rfl rfl
  | bytes b => exact verdict_vocab_of_none rfl rfl rfl
  | bool b => exact verdict_vocab_of_none rfl rfl rfl
  | null => exact verdict_vocab_of_none rfl rfl rfl
  | array items => exact verdict_vocab_of_none rfl rfl rfl
  | obj fields => exact verdict_vocab_of_none rfl rfl rfl

theorem verdict_vector (elem : VectorElem) (okLen : Option Nat) :
    Verdict name (.vector elem okLen) got := by
  cases hp : got.asBytes with
  | none => exact .refused _ (arm_none hp) hp (fun h => not_of_none hp h) (not_of_none hp)
  | some b =>
    have hrej : ¬FieldKind.Rejects (.vector elem okLen) got := by
      intro h
      rw [FieldKind.Rejects, hp] at h
      cases h
    have habort : FieldKind.Aborts (.vector elem okLen) got
        ↔ b.length < 4 + beNat (b.take 4) * elem.width := iff_of_some hp
    have hrep : FieldKind.Represents (.vector elem okLen) got
        ↔ b.length = 4 + beNat (b.take 4) * elem.width ∧ okLen.all (· = beNat (b.take 4)) = true :=
      iff_of_some hp
    rcases Nat.lt_or_ge b.length (4 + beNat (b.take 4) * elem.width) with hlt | hge
    · refine .aborted .slice ?_ hrej (habort.mpr hlt) ?_
      · refine (arm_some hp).trans ?_
        rw [vectorDecode_of_lt hlt]
        rfl
      · intro h
        have := (hrep.mp h).1
        omega
    · obtain ⟨elems, hdec, hlen, hwire⟩ := vectorDecode_of_le hge
      refine .accepted (.vector elems) ?_ hrej ?_ ?_ ?_
      · refine (arm_some hp).trans ?_
        rw [hdec]
        rfl
      · intro h
        have := habort.mp h
        omega
      · intro h
        rw [DynamicValue.eq_bytes hp, FieldValue.toDynamic, hwire, ← (hrep.mp h).1,
          List.take_length]
      · intro h checked
        obtain ⟨hexact, hok⟩ := hrep.mp h
        rw [FieldValue.Writable, hlen, ← hexact]
        refine Iff.trans ?_ (forall_iff_of_some hp).symm
        exact ⟨fun hw => hw.2, fun hfits => ⟨hok, hfits⟩⟩

/-- Every number is taken; the ones past the wire range cannot be written. -/
theorem verdict_offset (base : Int64) : Verdict name (.offset base) got := by
  cases hp : got.asInt with
  | none => exact .refused _ (arm_none hp) hp (fun h => h) (not_of_none hp)
  | some v =>
    have hiff : FieldKind.Represents (.offset base) got
        ↔ 0 ≤ v.toInt - base.toInt ∧ v.toInt - base.toInt < 2 ^ 32 := iff_of_some hp
    refine .accepted (.offset v) (arm_some hp) ?_ (fun h => h) ?_ ?_
    · intro h
      rw [FieldKind.Rejects, hp] at h
      cases h
    · intro _
      rw [DynamicValue.eq_int hp, FieldValue.toDynamic]
    · exact fun h _ => iff_of_true (hiff.mp h) trivial

theorem verdict_quant (p : Nat) : Verdict name (.quant p) got := by
  cases hp : got.asF64 with
  | none => exact .refused _ (arm_none hp) hp (fun h => h) (not_of_none hp)
  | some bits =>
    have hiff : FieldKind.Represents (.quant p) got ↔ (quantize bits p).isSome = true :=
      iff_of_some hp
    refine .accepted (.quant bits) (arm_some hp) ?_ (fun h => h) ?_ ?_
    · intro h
      rw [FieldKind.Rejects, hp] at h
      cases h
    · intro _
      rw [DynamicValue.eq_f64 hp, FieldValue.toDynamic]
    · exact fun h _ => iff_of_true (hiff.mp h) trivial

theorem verdict_reverse (signed : Bool) (w : IntWidth) : Verdict name (.reverse signed w) got := by
  cases hp : got.asUInt with
  | none =>
    have hno : ¬FieldKind.Represents (.reverse signed w) got := not_of_none hp
    exact .refused _ (arm_none hp) hno (fun h => h) hno
  | some v =>
    have hiff : FieldKind.Represents (.reverse signed w) got
        ↔ v.toNat < 2 ^ (w.bits - signed.toNat) := iff_of_some hp
    by_cases hlt : v.toNat < 2 ^ (w.bits - signed.toNat)
    · refine .accepted (.reverse (~~~BitVec.ofNat _ v.toNat)) ?_ (fun h => h (hiff.mpr hlt))
        (fun h => h) ?_ fun _ _ => Iff.rfl
      · exact (arm_some hp).trans (if_pos hlt)
      · intro _
        rw [DynamicValue.eq_uint hp, FieldValue.toDynamic, BitVec.not_not]
        cases signed with
        | false => exact congrArg (fun u => Except.ok (DynamicValue.uint u)) (uint_back hlt)
        | true =>
          have hbits : 2 ^ (8 * w.bytes) = 2 * 2 ^ (w.bits - 1) := by cases w <;> rfl
          have hlow : v.toNat < 2 ^ (w.bits - 1) := hlt
          have hfit : v.toNat < 2 ^ (8 * w.bytes) := by omega
          have hnat : (BitVec.ofNat (8 * w.bytes) v.toNat).toNat = v.toNat := by
            rw [BitVec.toNat_ofNat, Nat.mod_eq_of_lt hfit]
          have hint : (BitVec.ofNat (8 * w.bytes) v.toNat).toInt = v.toNat := by
            rw [BitVec.toInt_eq_toNat_of_lt (by omega), hnat]
          have h64 := v.toNat_lt
          have hmod : ((v.toNat : Int) % 2 ^ 64).toNat = v.toNat := by omega
          rw [if_pos rfl, hint, hmod, UInt64.ofNat_toNat]
    · have hno := mt hiff.mp hlt
      exact .refused _ ((arm_some hp).trans (if_neg hlt)) hno (fun h => h) hno

theorem verdict_ref (key : KeyShape) : Verdict name (.ref key) got := by
  cases hp : got.asBytes with
  | none => exact .refused _ (arm_none hp) hp (fun h => not_of_none hp h) (not_of_none hp)
  | some b =>
    have hrej : ¬FieldKind.Rejects (.ref key) got := by
      intro h
      rw [FieldKind.Rejects, hp] at h
      cases h
    have habort : FieldKind.Aborts (.ref key) got ↔ b.length < key.keyLen := iff_of_some hp
    have hrep : FieldKind.Represents (.ref key) got ↔ b.length = key.keyLen := iff_of_some hp
    rcases Nat.lt_or_ge b.length key.keyLen with hlt | hge
    · refine .aborted .slice ?_ hrej (habort.mpr hlt) ?_
      · refine (arm_some hp).trans ?_
        rw [KeyValue.decode_of_lt hlt]
        rfl
      · intro h
        have := hrep.mp h
        omega
    · obtain ⟨k, hdec, henc⟩ := KeyValue.decode_of_le hge
      refine .accepted (.ref k) ?_ hrej ?_ ?_ ?_
      · refine (arm_some hp).trans ?_
        rw [hdec]
        rfl
      · intro h
        have := habort.mp h
        omega
      · intro h
        rw [DynamicValue.eq_bytes hp, FieldValue.toDynamic, henc, ← hrep.mp h, List.take_length]
        rfl
      · exact fun _ _ => iff_of_true (KeyValue.encode_eq_ok.mp ⟨_, henc⟩) trivial

/-- What the item loop does with a list, in the words of `Verdict`. -/
inductive ItemsVerdict (name : String) (key : KeyShape) (items : List DynamicValue) : Prop where
  | refused (e : Error) (h : keysOfItems name key items = .error (.refused e))
      (rejects : RejectsItems key.keyLen items) (aborts : ¬AbortsItems key.keyLen items)
      (represents : ¬∀ item ∈ items, ∃ b, item.asBytes = some b ∧ b.length = key.keyLen)
  | aborted (p : Panic) (h : keysOfItems name key items = .error (.panic p))
      (rejects : ¬RejectsItems key.keyLen items) (aborts : AbortsItems key.keyLen items)
      (represents : ¬∀ item ∈ items, ∃ b, item.asBytes = some b ∧ b.length = key.keyLen)
  | accepted (ks : List (KeyValue key)) (h : keysOfItems name key items = .ok ks)
      (rejects : ¬RejectsItems key.keyLen items) (aborts : ¬AbortsItems key.keyLen items)
      (length : ks.length = items.length) (interned : ∀ k ∈ ks, k.Interned)
      (back : (∀ item ∈ items, ∃ b, item.asBytes = some b ∧ b.length = key.keyLen) →
        itemsOfKeys ks = .ok items)

theorem itemsVerdict (name : String) (key : KeyShape) (items : List DynamicValue) :
    ItemsVerdict name key items := by
  induction items with
  | nil =>
    exact .accepted [] rfl (fun h => h) (fun h => h) rfl (by simp) fun _ => rfl
  | cons item items ih =>
    cases hp : item.asBytes with
    | none =>
      -- an item that is not bytes is refused by the name of its field
      refine .refused (.kindMismatch name "an Array of Bytes (child key encodings)" item.kindName)
        ?_ (.inl hp) ?_ ?_
      · rw [keysOfItems, hp]
        rfl
      · exact not_of_none hp
      · intro hall
        exact not_of_none hp (hall item List.mem_cons_self)
    | some b =>
      have hrej : RejectsItems key.keyLen (item :: items)
          ↔ key.keyLen ≤ b.length ∧ RejectsItems key.keyLen items := by
        rw [RejectsItems, iff_of_some hp, hp]
        exact ⟨fun h => h.resolve_left nofun, .inr⟩
      have hab : AbortsItems key.keyLen (item :: items)
          ↔ b.length < key.keyLen ∨ AbortsItems key.keyLen items := by
        rw [AbortsItems, iff_of_some hp]
      have hrep : (∀ it ∈ item :: items, ∃ b, it.asBytes = some b ∧ b.length = key.keyLen)
          ↔ b.length = key.keyLen
            ∧ ∀ it ∈ items, ∃ b, it.asBytes = some b ∧ b.length = key.keyLen := by
        rw [List.forall_mem_cons, iff_of_some hp]
      -- a short item is sliced beyond its end; a long one loses its tail unseen
      rcases Nat.lt_or_ge b.length key.keyLen with hlt | hge
      · refine .aborted .slice ?_ (fun h => ?_) (hab.mpr (.inl hlt)) fun h => ?_
        · simp only [keysOfItems, hp, KeyValue.decode_of_lt hlt]
        · have := (hrej.mp h).1
          omega
        · have := (hrep.mp h).1
          omega
      · obtain ⟨k, hdec, henc⟩ := KeyValue.decode_of_le hge
        have hrun : keysOfItems name key (item :: items) = (do
            let ks ← keysOfItems name key items
            .ok (k :: ks)) := by
          simp only [keysOfItems, hp, hdec]
        have hab' : AbortsItems key.keyLen (item :: items) ↔ AbortsItems key.keyLen items := by
          rw [hab]
          exact ⟨fun h => h.resolve_left (by omega), .inr⟩
        cases ih with
        | refused e h rejects aborts represents =>
          refine .refused e ?_ (hrej.mpr ⟨hge, rejects⟩) (mt hab'.mp aborts)
            fun hall => represents (hrep.mp hall).2
          rw [hrun, h]
          rfl
        | aborted p h rejects aborts represents =>
          refine .aborted p ?_ (fun hr => rejects (hrej.mp hr).2) (hab'.mpr aborts)
            fun hall => represents (hrep.mp hall).2
          rw [hrun, h]
          rfl
        | accepted ks h rejects aborts length interned back =>
          refine .accepted (k :: ks) ?_ (fun hr => rejects (hrej.mp hr).2) (mt hab'.mp aborts) ?_ ?_
            ?_
          · rw [hrun, h]
            rfl
          · rw [List.length_cons, List.length_cons, length]
          · exact List.forall_mem_cons.mpr ⟨KeyValue.encode_eq_ok.mp ⟨_, henc⟩, interned⟩
          · intro hall
            obtain ⟨hlen, hrest⟩ := hrep.mp hall
            rw [itemsOfKeys, henc, back hrest, ← hlen, List.take_length, DynamicValue.eq_bytes hp]
            rfl

theorem verdict_refs (key : KeyShape) : Verdict name (.refs key) got := by
  cases hp : got.asArray with
  | none => exact .refused _ (arm_none hp) (.inl hp) (fun h => not_of_none hp h) (not_of_none hp)
  | some items =>
    have hrej : FieldKind.Rejects (.refs key) got ↔ RejectsItems key.keyLen items := by
      rw [FieldKind.Rejects, iff_of_some hp, hp]
      exact ⟨fun h => h.resolve_left nofun, .inr⟩
    have hab : FieldKind.Aborts (.refs key) got ↔ AbortsItems key.keyLen items := iff_of_some hp
    have hrep : FieldKind.Represents (.refs key) got
        ↔ ∀ item ∈ items, ∃ b, item.asBytes = some b ∧ b.length = key.keyLen := iff_of_some hp
    have hrun : FieldKind.ofDynamic name (.refs key) got = (do
        let ks ← keysOfItems name key items
        .ok (.refs ks)) := arm_some hp
    cases itemsVerdict name key items with
    | refused e h rejects aborts represents =>
      refine .refused e ?_ (hrej.mpr rejects) (mt hab.mp aborts) (mt hrep.mp represents)
      rw [hrun, h]
      rfl
    | aborted p h rejects aborts represents =>
      refine .aborted p ?_ (mt hrej.mp rejects) (hab.mpr aborts) (mt hrep.mp represents)
      rw [hrun, h]
      rfl
    | accepted ks h rejects aborts length interned back =>
      refine .accepted (.refs ks) ?_ (mt hrej.mp rejects) (mt hab.mp aborts) ?_ ?_
      · rw [hrun, h]
        rfl
      · intro hall
        rw [FieldValue.toDynamic, back (hrep.mp hall), DynamicValue.eq_array hp]
        rfl
      · intro _ checked
        rw [FieldValue.Writable, length]
        refine Iff.trans ?_ (@forall_iff_of_some _ _
          (fun items => MaskFits checked (4 + items.length * key.keyLen)) items hp).symm
        exact ⟨fun h => h.2, fun h => ⟨interned, h⟩⟩

end

theorem verdict (name : String) (kind : FieldKind) (got : DynamicValue) :
    Verdict name kind got := by
  cases kind with
  | uint w => exact verdict_uint w
  | sint w => exact verdict_sint w
  | str => exact verdict_str
  | bytes => exact verdict_bytes
  | fixedBytes n => exact verdict_fixedBytes n
  | uuid ty => exact verdict_uuid ty
  | varInt w => exact verdict_varInt w
  | vocab w => exact verdict_vocab w
  | vector elem okLen => exact verdict_vector elem okLen
  | offset base => exact verdict_offset base
  | quant p => exact verdict_quant p
  | reverse signed w => exact verdict_reverse signed w
  | ref key => exact verdict_ref key
  | refs key => exact verdict_refs key

/-! ## What the predicates say of each other -/

section

variable {kind : FieldKind} {got : DynamicValue}

theorem not_aborts_of_represents (h : kind.Represents got) : ¬kind.Aborts got := by
  cases verdict "" kind got with
  | refused e _ _ aborts _ => exact aborts
  | aborted p _ _ _ represents => exact absurd h represents
  | accepted v _ _ aborts _ _ => exact aborts

end

/-! ## One field -/

theorem itemsOfKeys_of_interned {key : KeyShape} {ks : List (KeyValue key)}
    (h : ∀ k ∈ ks, k.Interned) : ∃ items, itemsOfKeys ks = .ok items := by
  induction ks with
  | nil => exact ⟨[], rfl⟩
  | cons k ks ih =>
    obtain ⟨hk, hks⟩ := List.forall_mem_cons.mp h
    obtain ⟨b, hb⟩ := KeyValue.encode_eq_ok.mpr hk
    obtain ⟨items, hitems⟩ := ih hks
    refine ⟨.bytes b :: items, ?_⟩
    rw [itemsOfKeys, hb, hitems]
    rfl

/-- What can be written can also be put in a map. -/
theorem toDynamic_of_writable {checked : Bool} {kind : FieldKind} {v : FieldValue kind}
    (h : v.Writable checked) : ∃ got, v.toDynamic = .ok got := by
  cases v with
  | uint v => exact ⟨_, rfl⟩
  | sint v => exact ⟨_, rfl⟩
  | str s => exact ⟨_, rfl⟩
  | bytes b => exact ⟨_, rfl⟩
  | fixedBytes b => exact ⟨_, rfl⟩
  | uuid b => exact ⟨_, rfl⟩
  | varInt v => exact ⟨_, rfl⟩
  | vocab v =>
    rcases v with ⟨_ | s, id, built⟩
    · exact ⟨_, rfl⟩
    · exact ⟨_, rfl⟩
  | vector elems => exact ⟨_, rfl⟩
  | offset v => exact ⟨_, rfl⟩
  | quant bits => exact ⟨_, rfl⟩
  | @reverse signed w v =>
    rw [FieldValue.toDynamic]
    cases signed with
    | false => exact ⟨_, rfl⟩
    | true => exact ⟨_, rfl⟩
  | ref k =>
    obtain ⟨b, hb⟩ := KeyValue.encode_eq_ok.mpr h
    refine ⟨.bytes b, ?_⟩
    rw [FieldValue.toDynamic, hb]
    rfl
  | refs ks =>
    obtain ⟨items, hitems⟩ := itemsOfKeys_of_interned h.1
    refine ⟨.array items, ?_⟩
    rw [FieldValue.toDynamic, hitems]
    rfl

namespace DocField

variable {checked : Bool} {map : SortedMap String DynamicValue} {f : DocField}

/-- How a field leaves the map. -/
inductive Outcome (map : SortedMap String DynamicValue) (f : DocField) : Prop where
  | refused (e : Error) (h : f.fromMap map = .error (.refused e)) (rejects : f.Rejects map)
      (aborts : ¬f.Aborts map)
  | aborted (p : Panic) (h : f.fromMap map = .error (.panic p)) (rejects : ¬f.Rejects map)
      (aborts : f.Aborts map)
  | accepted (v : FieldValue f.kind) (h : f.fromMap map = .ok v) (rejects : ¬f.Rejects map)
      (aborts : ¬f.Aborts map)
      (back : (∀ got, map.get f.name = some got → f.kind.Represents got) →
        (∀ got, map.get f.name = some got → v.toDynamic = .ok got)
          ∧ ∀ checked, v.Writable checked ↔ f.Carries checked map)

theorem outcome (map : SortedMap String DynamicValue) (f : DocField) : Outcome map f := by
  cases hget : map.get f.name with
  | none =>
    have hrun : f.fromMap map = .ok f.default := by
      rw [fromMap, hget]
    refine .accepted f.default hrun (not_of_none hget) (not_of_none hget) ?_
    intro _
    have hvac : ∀ {P : DynamicValue → Prop} got, map.get f.name = some got → P got := by
      intro P got h
      rw [hget] at h
      cases h
    exact ⟨hvac, fun checked => ⟨fun h => ⟨hvac, fun _ => h⟩, fun h => h.2 hget⟩⟩
  | some got =>
    have hrun : f.fromMap map = f.kind.ofDynamic f.name got := by
      rw [fromMap, hget]
    have hrej : f.Rejects map ↔ f.kind.Rejects got := iff_of_some hget
    have hab : f.Aborts map ↔ f.kind.Aborts got := iff_of_some hget
    cases verdict f.name f.kind got with
    | refused e h rejects aborts represents =>
      exact .refused e (hrun.trans h) (hrej.mpr rejects) (mt hab.mp aborts)
    | aborted p h rejects aborts represents =>
      exact .aborted p (hrun.trans h) (mt hrej.mp rejects) (hab.mpr aborts)
    | accepted v h rejects aborts back fits =>
      refine .accepted v (hrun.trans h) (mt hrej.mp rejects) (mt hab.mp aborts) ?_
      intro hall
      have hrep := hall got hget
      refine ⟨(forall_iff_of_some hget).mpr (back hrep), fun checked => ?_⟩
      rw [fits hrep checked, Carries, forall_iff_of_some hget, hget]
      exact ⟨fun hfits => ⟨⟨hrep, hfits⟩, nofun⟩, fun h => h.1.2⟩

end DocField

/-! ## All fields -/

/-- What a run over the fields leaves: a refusal, an abort, or a document whose fields are
those of the declaration. -/
inductive Conversion (map : SortedMap String DynamicValue) (fields : List DocField) : Prop where
  | refused (e : Error) (h : cellsFromMap map fields = .error (.refused e))
      (refused : Refused map fields)
  | aborted (p : Panic) (h : cellsFromMap map fields = .error (.panic p))
      (refused : ¬Refused map fields) (aborts : ∃ f ∈ fields, f.Aborts map)
  | accepted (cells : List Cell) (h : cellsFromMap map fields = .ok cells)
      (refused : ¬Refused map fields) (names : cells.map Cell.field = fields)
      (taken : ∀ c ∈ cells, c.field.fromMap map = .ok c.value)

theorem conversion (map : SortedMap String DynamicValue) (fields : List DocField) :
    Conversion map fields := by
  induction fields with
  | nil => exact .accepted [] rfl (fun h => h) rfl (by simp)
  | cons f fields ih =>
    have hrun : cellsFromMap map (f :: fields) = (do
        let value ← f.fromMap map
        let cells ← cellsFromMap map fields
        .ok (⟨f, value⟩ :: cells)) := rfl
    cases f.outcome map with
    | refused e h rejects aborts =>
      refine .refused e ?_ (.inl rejects)
      rw [hrun, h]
      rfl
    | aborted p h rejects aborts =>
      refine .aborted p ?_ (fun hr => hr.elim rejects fun hr => hr.1 aborts)
        ⟨f, List.mem_cons_self, aborts⟩
      rw [hrun, h]
      rfl
    | accepted v h rejects aborts back =>
      have hiff : Refused map (f :: fields) ↔ Refused map fields :=
        ⟨fun hr => (hr.resolve_left rejects).2, fun hr => .inr ⟨aborts, hr⟩⟩
      have hstep : cellsFromMap map (f :: fields) = (do
          let cells ← cellsFromMap map fields
          .ok (⟨f, v⟩ :: cells)) := by
        rw [hrun, h]
        rfl
      -- this field is taken, so the rest decides
      cases ih with
      | refused e h' refused =>
        refine .refused e ?_ (hiff.mpr refused)
        rw [hstep, h']
        rfl
      | aborted p h' refused aborts' =>
        obtain ⟨g, hg, hab⟩ := aborts'
        refine .aborted p ?_ (mt hiff.mp refused) ⟨g, List.mem_cons_of_mem f hg, hab⟩
        rw [hstep, h']
        rfl
      | accepted cells h' refused names taken =>
        refine .accepted (⟨f, v⟩ :: cells) ?_ (mt hiff.mp refused) ?_ ?_
        · rw [hstep, h']
          rfl
        · rw [List.map_cons, names]
        · exact List.forall_mem_cons.mpr ⟨h, taken⟩

/-! ## Reading a document back -/

/-- **The map of a document carries each of its fields.** -/
theorem cellsToMap_spec {cells : List Cell} {out : SortedMap String DynamicValue}
    {lift : Cell → DynamicValue} (hlift : ∀ c ∈ cells, c.value.toDynamic = .ok (lift c))
    (hnodup : (cells.map fun c => c.field.name).Nodup) :
    ∃ back, cellsToMap out cells = .ok back
      ∧ (∀ c ∈ cells, back.get c.field.name = some (lift c))
      ∧ ∀ name, (∀ c ∈ cells, c.field.name ≠ name) → back.get name = out.get name := by
  induction cells generalizing out with
  | nil => exact ⟨out, rfl, by simp, fun _ _ => rfl⟩
  | cons c cells ih =>
    obtain ⟨hc, hcells⟩ := List.forall_mem_cons.mp hlift
    rw [List.map_cons, List.nodup_cons] at hnodup
    obtain ⟨hfresh, hnodup⟩ := hnodup
    obtain ⟨back, hback, hread, hframe⟩ := @ih (out.insert c.field.name (lift c)) hcells hnodup
    refine ⟨back, ?_, ?_, ?_⟩
    · rw [cellsToMap, hc]
      exact hback
    · refine List.forall_mem_cons.mpr ⟨?_, hread⟩
      rw [hframe, SortedMap.get_insert_self]
      intro d hd heq
      exact hfresh (List.mem_map.mpr ⟨d, hd, heq⟩)
    · intro name hname
      obtain ⟨hne, hrest⟩ := List.forall_mem_cons.mp hname
      rw [hframe name hrest, SortedMap.get_insert_of_ne _ _ (Ne.symm hne)]

/-! ## Writing a document -/

theorem segment_intern {checked hot : Bool} {ids : FieldIds} {cells : List Cell} (i : Nat) :
    (∃ b, segment checked hot i (internCells ids cells) = .ok b)
      ↔ ∀ c ∈ cells, c.field.kind.hot = hot → c.value.Writable checked := by
  induction cells generalizing i with
  | nil => exact iff_of_true ⟨[], rfl⟩ (by simp)
  | cons c cells ih =>
    rw [List.forall_mem_cons, ← ih (i + 1)]
    change (∃ b, segment checked hot i (c.intern ids :: internCells ids cells) = .ok b) ↔ _
    rw [segment]
    have hkind : (c.intern ids).field.kind.hot = hot ↔ c.field.kind.hot = hot := Iff.rfl
    by_cases hhot : c.field.kind.hot = hot
    · have hframe := @FieldValue.frame_intern checked (UInt8.ofNat i) _ (ids c.field.name) c.value
      rw [if_pos (hkind.mpr hhot)]
      constructor
      · intro h
        obtain ⟨b, h⟩ := h
        obtain ⟨front, hfront, h⟩ := bind_eq_ok.mp h
        obtain ⟨back, hback, -⟩ := bind_eq_ok.mp h
        exact ⟨fun _ => hframe.mp ⟨front, hfront⟩, back, hback⟩
      · intro h
        obtain ⟨hw, back, hback⟩ := h
        obtain ⟨front, hfront⟩ := hframe.mpr (hw hhot)
        refine ⟨front ++ back, ?_⟩
        change ((c.value.intern (ids c.field.name)).frame checked (UInt8.ofNat i) >>= _) = _
        rw [hfront]
        change (segment checked hot (i + 1) (internCells ids cells) >>= _) = _
        rw [hback]
        rfl
    · rw [if_neg (mt hkind.mp hhot)]
      exact ⟨fun h => ⟨fun hc => absurd hc hhot, h⟩, fun h => h.2⟩

/-- **An interned document is written exactly when each field is.** -/
theorem encodePayload_intern {checked : Bool} {version : UInt8} {ids : FieldIds}
    {cells : List Cell} :
    (∃ b, encodePayload checked version (internCells ids cells) = .ok b)
      ↔ ∀ c ∈ cells, c.value.Writable checked := by
  constructor
  · intro h c hc
    obtain ⟨b, h⟩ := h
    obtain ⟨hot, hhot, h⟩ := bind_eq_ok.mp h
    obtain ⟨cold, hcold, -⟩ := bind_eq_ok.mp h
    cases hkind : c.field.kind.hot with
    | true => exact (segment_intern 0).mp ⟨hot, hhot⟩ c hc hkind
    | false => exact (segment_intern 0).mp ⟨cold, hcold⟩ c hc hkind
  · intro h
    obtain ⟨hot, hhot⟩ := (@segment_intern checked true ids cells 0).mpr fun c hc _ => h c hc
    obtain ⟨cold, hcold⟩ := (@segment_intern checked false ids cells 0).mpr fun c hc _ => h c hc
    refine ⟨version :: beBytes 2 hot.length ++ hot ++ cold, ?_⟩
    rw [encodePayload, hhot]
    change (segment checked false 0 (internCells ids cells) >>= _) = _
    rw [hcold]
    rfl

/-! ## The promise -/

/-- What a field taken from a map gives back, and when it can be written. -/
theorem Cell.taken_spec {map : SortedMap String DynamicValue} {c : Cell}
    (h : c.field.fromMap map = .ok c.value)
    (hrep : ∀ got, map.get c.field.name = some got → c.field.kind.Represents got) :
    (∀ got, map.get c.field.name = some got → c.value.toDynamic = .ok got)
      ∧ ∀ checked, c.value.Writable checked ↔ c.field.Carries checked map := by
  cases c.field.outcome map with
  | refused e h' =>
    rw [h] at h'
    cases h'
  | aborted p h' =>
    rw [h] at h'
    cases h'
  | accepted v h' rejects aborts back =>
    rw [h] at h'
    obtain rfl := Except.ok.inj h'
    exact back hrep

/-- The value of a field in a map; a field that has none is nowhere read. -/
def Cell.lift (c : Cell) : DynamicValue :=
  match c.value.toDynamic with
  | .ok got => got
  | .error _ => .null

theorem Cell.lift_of_ok {c : Cell} {got : DynamicValue} (h : c.value.toDynamic = .ok got) :
    c.lift = got := by
  rw [lift, h]

/-- **The bridge keeps its promise on a map exactly when some declared field is refused
before one aborts, or the map carries for every declared name a value the field can hold and
write, and leaves out only names whose default can be written.** -/
theorem bridges_iff (checked : Bool) (ids : FieldIds) (decl : DocDecl)
    (map : SortedMap String DynamicValue) :
    Bridges checked ids decl map
      ↔ Refused map decl.fields ∨ ∀ f ∈ decl.fields, f.Carries checked map := by
  have hrun : decl.tryFromMap map = cellsFromMap map decl.fields := rfl
  cases conversion map decl.fields with
  | refused e h refused =>
    -- a refused map is no panic, and nothing of it is encoded
    rw [← hrun] at h
    refine iff_of_true ⟨fun p hp => ?_, fun _ => ⟨e, h⟩, fun cells hc => ?_, fun cells hc => ?_⟩
      (.inl refused)
    · rw [h] at hp
      cases hp
    · rw [h] at hc
      cases hc
    · rw [h] at hc
      cases hc
  | aborted p h refused aborts =>
    -- a panic is no answer, and a field that carries its value does not panic
    refine iff_of_false (fun hb => hb.answers p h) fun hor => ?_
    obtain ⟨f, hf, got, hget, hab⟩ := aborts
    rcases hor with hr | hall
    · exact refused hr
    · exact not_aborts_of_represents ((hall f hf).1 got hget).1 hab
  | accepted cells h refused names taken =>
    rw [← hrun] at h
    -- the cells are the fields, each with what the map has under its name
    have hfield : ∀ f ∈ decl.fields, ∃ c ∈ cells, c.field = f := by
      intro f hf
      rw [← names] at hf
      exact List.mem_map.mp hf
    have hdecl : ∀ c ∈ cells, c.field ∈ decl.fields := by
      intro c hc
      rw [← names]
      exact List.mem_map_of_mem hc
    constructor
    · intro hb
      right
      intro f hf
      have hrep : ∀ f ∈ decl.fields, ∀ got, map.get f.name = some got → f.kind.Represents got := by
        intro f hf got hget
        by_contra hno
        obtain ⟨e, he⟩ := hb.refuses ⟨f, hf, got, hget, hno⟩
        rw [h] at he
        cases he
      obtain ⟨c, hc, rfl⟩ := hfield f hf
      have hw := encodePayload_intern.mp (hb.encodes cells h) c hc
      exact ((c.taken_spec (taken c hc) (hrep c.field hf)).2 checked).mp hw
    · intro hor
      have hall := hor.resolve_left refused
      have hspec : ∀ c ∈ cells, (∀ got, map.get c.field.name = some got →
          c.value.toDynamic = .ok got) ∧ c.value.Writable checked := by
        intro c hc
        have hcar := hall c.field (hdecl c hc)
        obtain ⟨hback, hw⟩ := c.taken_spec (taken c hc) fun got hget => (hcar.1 got hget).1
        exact ⟨hback, (hw checked).mpr hcar⟩
      have hlift : ∀ c ∈ cells, c.value.toDynamic = .ok c.lift := by
        intro c hc
        obtain ⟨got, hgot⟩ := toDynamic_of_writable (hspec c hc).2
        rw [hgot, Cell.lift_of_ok hgot]
      -- no name is written twice on the way back
      have hnames : (cells.map fun c => c.field.name).Nodup := by
        have hnd := decl.nodup
        rw [← names, List.map_map] at hnd
        exact hnd
      refine ⟨fun p hp => ?_, ?_, ?_, ?_⟩
      · rw [h] at hp
        cases hp
      · intro hbad
        obtain ⟨f, hf, got, hget, hno⟩ := hbad
        exact absurd ((hall f hf).1 got hget).1 hno
      · intro cells' hc'
        obtain rfl := Except.ok.inj (h.symm.trans hc')
        obtain ⟨back, hback, hread, -⟩ := @cellsToMap_spec cells .empty Cell.lift hlift hnames
        refine ⟨back, hback, fun f hf got hget => ?_⟩
        obtain ⟨c, hc, rfl⟩ := hfield f hf
        rw [hread c hc, Cell.lift_of_ok ((hspec c hc).1 got hget)]
      · intro cells' hc'
        obtain rfl := Except.ok.inj (h.symm.trans hc')
        exact encodePayload_intern.mpr fun c hc => (hspec c hc).2

/-! ## A number cut to its width -/

/-- A document of one `VarInt<u16>`. -/
def oneVarInt : DocDecl where
  version := 1
  fields := [⟨"n", .varInt .u16, .varInt 0⟩]
  nodup := List.nodup_singleton _

/-- Labels are not part of it. -/
def noIds : FieldIds := fun _ _ _ => 0

/-- **`n = 65536` is taken for a `VarInt<u16>` and read back as zero.** -/
theorem varInt_cut : ¬Bridges false noIds oneVarInt (SortedMap.empty.insert "n" (.uint 65536)) := by
  intro h
  have hwide : ¬FieldKind.Represents (.varInt .u16) (.uint 65536) := by
    intro hrep
    obtain ⟨v, hv, hlt⟩ := hrep
    rw [← Option.some.inj hv] at hlt
    exact absurd hlt (by decide)
  obtain ⟨e, he⟩ := h.refuses ⟨_, List.mem_singleton.mpr rfl, .uint 65536, rfl, hwide⟩
  cases he

end Okm.Model
