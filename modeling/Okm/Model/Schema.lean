import Okm.Model.Slot

/-!
# The exported declaration

The model of `schema.rs` as far as the codec and the drainer read it: the kind of
a field, where it sits in the key or the payload, and the declaration of a table.

The declaration travels as JSON, and the two halves of that are written by hand:
the writer knows every kind, the reader a shorter list. `FieldType.readsBack`
names the kinds both know, and `reread_eq` says that they are exactly the ones a
stamped declaration comes back with.
-/

namespace Okm.Model

open Lib

/-- The kind of a field. -/
inductive FieldType where
  | u8
  | u16
  | u32
  | u64
  | fixedBytes
  | str
  | bytes
  | varInt
  | quant (precision : UInt32)
  | vocab (idSlot : UInt16)
  | offset (base : Int64)
  | uuid4
  | uuid7
  | vector (elem : String)
  deriving DecidableEq

/-- A default a declaration can export; a float is its bit pattern. -/
inductive DefaultValue where
  | u64 (x : UInt64)
  | i64 (x : Int64)
  | f64 (bits : UInt64)
  | bool (x : Bool)
  | str (x : String)
  | zeroBytes (n : Nat)
  deriving DecidableEq

/-- One field's placement: an offset into the key or the hot segment, or a tag of
the cold one. -/
structure FieldSchema where
  name : String
  ty : FieldType
  width : Nat
  offset : Nat
  tag : Option UInt8
  default : Option DefaultValue
  expectLen : Option Nat
  deriving DecidableEq

/-- The declaration of one table. -/
structure CollectionSchema where
  keyLen : Nat
  keyFields : List FieldSchema
  layoutVersion : UInt8
  payloadHeaderLen : Nat
  hotFields : List FieldSchema
  coldFields : List FieldSchema
  deriving DecidableEq

/-- Every field of a declaration. -/
def CollectionSchema.fields (schema : CollectionSchema) : List FieldSchema :=
  schema.keyFields ++ schema.hotFields ++ schema.coldFields

/-! ## The JSON form -/

/-- What a kind may carry in JSON. -/
inductive JsonScalar where
  | number (n : Int)
  | text (s : String)

/-- An externally tagged variant: a name alone, or a name over one value. -/
inductive JsonVariant where
  | unit (name : String)
  | newtype (name : String) (value : JsonScalar)

namespace FieldType

/-- `Serialize for FieldType`. -/
def serialize : FieldType → JsonVariant
  | u8 => .unit "U8"
  | u16 => .unit "U16"
  | u32 => .unit "U32"
  | u64 => .unit "U64"
  | fixedBytes => .unit "FixedBytes"
  | str => .unit "Str"
  | bytes => .unit "Bytes"
  | uuid4 => .unit "Uuid4"
  | uuid7 => .unit "Uuid7"
  | varInt => .unit "VarInt"
  | quant p => .newtype "Quant" (.number p.toNat)
  | vocab idSlot => .newtype "Vocab" (.number idSlot.toNat)
  | offset b => .newtype "Offset" (.number b.toInt)
  | vector elem => .newtype "Vector" (.text elem)

/-- `Deserialize for FieldType`. A `Vector` is read from a map with an `elem`
member, which no variant of this form is. -/
def deserialize : JsonVariant → Option FieldType
  | .unit name =>
    if name = "U8" then some u8
    else if name = "U16" then some u16
    else if name = "U32" then some u32
    else if name = "U64" then some u64
    else if name = "FixedBytes" then some fixedBytes
    else if name = "Str" then some str
    else if name = "VarInt" then some varInt
    else none
  | .newtype name (.number n) =>
    if name = "Quant" ∧ 0 ≤ n ∧ n < 2 ^ 32 then some (quant (UInt32.ofNat n.toNat))
    else if name = "Offset" ∧ -2 ^ 63 ≤ n ∧ n < 2 ^ 63 then some (offset (Int64.ofInt n))
    else none
  | .newtype _ (.text _) => none

/-- The kinds the reader knows in the form the writer gives them. -/
def readsBack : FieldType → Bool
  | bytes | uuid4 | uuid7 | vocab _ | vector _ => false
  | _ => true

/-- **A stamped kind comes back exactly when the reader knows it.** -/
theorem deserialize_serialize (ty : FieldType) :
    deserialize ty.serialize = if ty.readsBack then some ty else none := by
  cases ty with
  | quant p =>
    have hlt : p.toNat < 2 ^ 32 := p.toNat_lt
    have hcast : UInt32.ofNat ((p.toNat : Int).toNat) = p := by simp
    have hquant : "Quant" = "Quant" ∧ (0 : Int) ≤ p.toNat ∧ (p.toNat : Int) < 2 ^ 32 :=
      ⟨rfl, by omega, by omega⟩
    rw [serialize, deserialize, if_pos hquant, hcast]
    rfl
  | offset b =>
    have hlo := b.le_toInt
    have hhi := b.toInt_lt
    have hquant : ¬ ("Offset" = "Quant" ∧ (0 : Int) ≤ b.toInt ∧ b.toInt < 2 ^ 32) := by
      intro h
      exact absurd h.1 (by decide)
    have hoffset : "Offset" = "Offset" ∧ -2 ^ 63 ≤ b.toInt ∧ b.toInt < 2 ^ 63 :=
      ⟨rfl, by omega, by omega⟩
    rw [serialize, deserialize, if_neg hquant, if_pos hoffset, Int64.ofInt_toInt]
    rfl
  | _ => simp [serialize, deserialize, readsBack]

end FieldType

/-- A stamped field, read back. -/
def FieldSchema.reread (f : FieldSchema) : Option FieldSchema :=
  (FieldType.deserialize f.ty.serialize).map fun ty => { f with ty := ty }

/-- A stamped declaration, read back: `serde_json::from_str` of what `write_sidecar`
wrote. Everything but the kinds is plain data. -/
def CollectionSchema.reread (schema : CollectionSchema) : Option CollectionSchema := do
  let keyFields ← schema.keyFields.mapM FieldSchema.reread
  let hotFields ← schema.hotFields.mapM FieldSchema.reread
  let coldFields ← schema.coldFields.mapM FieldSchema.reread
  some { schema with keyFields := keyFields, hotFields := hotFields, coldFields := coldFields }

theorem FieldSchema.reread_of_readsBack {f : FieldSchema} (h : f.ty.readsBack = true) :
    f.reread = some f := by
  rw [FieldSchema.reread, FieldType.deserialize_serialize, if_pos h, Option.map_some]

theorem FieldSchema.reread_of_not {f : FieldSchema} (h : f.ty.readsBack = false) :
    f.reread = none := by
  rw [FieldSchema.reread, FieldType.deserialize_serialize, if_neg (by rw [h]; decide),
    Option.map_none]

theorem mapM_reread (fields : List FieldSchema) :
    fields.mapM FieldSchema.reread
      = if ∀ f ∈ fields, f.ty.readsBack = true then some fields else none := by
  induction fields with
  | nil => rfl
  | cons f fields ih =>
    rw [List.mapM_cons, ih]
    cases hf : f.ty.readsBack with
    | false =>
      have hno : ¬ ∀ g ∈ f :: fields, g.ty.readsBack = true := by
        intro hall
        have hf' := hall f List.mem_cons_self
        rw [hf] at hf'
        cases hf'
      rw [FieldSchema.reread_of_not hf, if_neg hno]
      rfl
    | true =>
      rw [FieldSchema.reread_of_readsBack hf]
      by_cases hall : ∀ g ∈ fields, g.ty.readsBack = true
      · have hyes : ∀ g ∈ f :: fields, g.ty.readsBack = true :=
          List.forall_mem_cons.mpr ⟨hf, hall⟩
        rw [if_pos hall, if_pos hyes]
        rfl
      · have hno : ¬ ∀ g ∈ f :: fields, g.ty.readsBack = true := by
          intro h
          exact hall (List.forall_mem_cons.mp h).2
        rw [if_neg hall, if_neg hno]
        rfl

/-- **A stamped declaration comes back whole when the reader knows its every kind,
and not at all otherwise.** -/
theorem CollectionSchema.reread_eq (schema : CollectionSchema) :
    schema.reread
      = if ∀ f ∈ schema.fields, f.ty.readsBack = true then some schema else none := by
  have hfields : (∀ f ∈ schema.fields, f.ty.readsBack = true)
      ↔ (∀ f ∈ schema.keyFields, f.ty.readsBack = true)
        ∧ (∀ f ∈ schema.hotFields, f.ty.readsBack = true)
        ∧ ∀ f ∈ schema.coldFields, f.ty.readsBack = true := by
    simp only [CollectionSchema.fields, List.forall_mem_append, and_assoc]
  simp only [CollectionSchema.reread, mapM_reread, hfields]
  by_cases hkey : ∀ f ∈ schema.keyFields, f.ty.readsBack = true
  · by_cases hhot : ∀ f ∈ schema.hotFields, f.ty.readsBack = true
    · by_cases hcold : ∀ f ∈ schema.coldFields, f.ty.readsBack = true
      · rw [if_pos hkey, if_pos hhot, if_pos hcold, if_pos (And.intro hkey (And.intro hhot hcold))]
        rfl
      · simp only [if_pos hkey, if_pos hhot, hcold, and_false, if_false]
        rfl
    · simp only [if_pos hkey, hhot, false_and, and_false, if_false]
      rfl
  · simp only [hkey, false_and, if_false]
    rfl

end Okm.Model
