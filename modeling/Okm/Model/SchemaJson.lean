import Okm.Lib.Json
import Okm.Model.Fingerprint
import Okm.Model.Schema

/-!
# The exported declaration as JSON

The model of the exports of `schema.rs`: `CollectionSchema::of` and `of_graph`, which make a
declaration into data, and the hand-written `Serialize` and `Deserialize` of its seven types.
A document is the values it carries; that its text is read back to them is serde's.

Every type comes back but two: the reader of `FieldType` knows fewer kinds than its writer,
and a float default that is no number is written `null`. So a declaration survives the trip
exactly when it has neither (`schema_survives_iff`).
-/

namespace Okm.Model

open Lib

/-! ## Field kinds and defaults -/

def JsonScalar.toJson : JsonScalar → Json
  | number n => .int n
  | text s => .str s

/-- The externally tagged form. -/
def JsonVariant.toJson : JsonVariant → Json
  | unit name => .str name
  | newtype name value => .obj [(name, value.toJson)]

/-- `Serialize for FieldType`. -/
def FieldType.toJson (ty : FieldType) : Json := ty.serialize.toJson

/-- `Deserialize for FieldType`: a unit variant is its name, alone or over `null`. -/
def FieldType.ofJson : Json → Option FieldType
  | .str name => deserialize (.unit name)
  | .obj [(name, value)] =>
    if name = "Quant" then (Json.asUnsigned 32 value).map fun p => quant (UInt32.ofNat p)
    else if name = "Offset" then (Json.asInt64 value).map offset
    else if name = "Vector" then (Json.required ["elem"] Json.asStr value).map vector
    else match value with
      | .null => deserialize (.unit name)
      | _ => none
  | _ => none

theorem FieldType.ofJson_toJson (form : JsonVariant) :
    FieldType.ofJson form.toJson = deserialize form := by
  cases form with
  | unit name => rfl
  | newtype name value =>
    cases value with
    | text s =>
      show (if name = "Quant" then none else if name = "Offset" then none
        else if name = "Vector" then none else none : Option FieldType) = none
      simp only [ite_self]
    | number n =>
      show (if name = "Quant" then (if 0 ≤ n ∧ n < 2 ^ 32 then some n.toNat else none).map _
          else if name = "Offset" then (if -2 ^ 63 ≤ n ∧ n < 2 ^ 63 then some (Int64.ofInt n)
            else none).map _
          else if name = "Vector" then none else none : Option FieldType)
        = if name = "Quant" ∧ 0 ≤ n ∧ n < 2 ^ 32 then some (quant (UInt32.ofNat n.toNat))
          else if name = "Offset" ∧ -2 ^ 63 ≤ n ∧ n < 2 ^ 63 then some (offset (Int64.ofInt n))
          else none
      by_cases hquant : name = "Quant"
      · have hoffset : ¬ (name = "Offset" ∧ -2 ^ 63 ≤ n ∧ n < 2 ^ 63) := by
          rintro ⟨rfl, -⟩
          exact absurd hquant (by decide)
        rw [if_pos hquant, if_neg hoffset]
        by_cases hn : 0 ≤ n ∧ n < 2 ^ 32
        · rw [if_pos hn, if_pos ⟨hquant, hn⟩, Option.map_some]
        · rw [if_neg hn, if_neg fun h => hn h.2, Option.map_none]
      · rw [if_neg hquant, if_neg (c := name = "Quant" ∧ _) fun h => hquant h.1]
        by_cases hoffset : name = "Offset"
        · rw [if_pos hoffset]
          by_cases hn : -2 ^ 63 ≤ n ∧ n < 2 ^ 63
          · rw [if_pos hn, if_pos ⟨hoffset, hn⟩, Option.map_some]
          · rw [if_neg hn, if_neg fun h => hn h.2, Option.map_none]
        · rw [if_neg hoffset, if_neg (c := name = "Offset" ∧ _) fun h => hoffset h.1, ite_self]

/-- **A kind comes back when the reader knows it**, and is not read otherwise. -/
theorem FieldType.returns :
    Json.Returns FieldType.toJson FieldType.ofJson fun ty => ty.readsBack = true := by
  intro ty
  rw [FieldType.toJson, FieldType.ofJson_toJson, deserialize_serialize]
  exact ⟨fun h => if_pos h, fun h => if_neg h⟩

/-- The bits are those of a number, not of an infinity or a NaN. -/
def finiteBits (bits : UInt64) : Bool := bits.toNat / 2 ^ 52 % 2 ^ 11 ≠ 2 ^ 11 - 1

/-- `Serialize for f64`: JSON has no other floats. -/
def jsonOfF64 (bits : UInt64) : Json := if finiteBits bits then .float bits else .null

namespace DefaultValue

/-- `Serialize for DefaultValue`. -/
def toJson : DefaultValue → Json
  | u64 x => .obj [("U64", .int x.toNat)]
  | i64 x => .obj [("I64", .int x.toInt)]
  | f64 bits => .obj [("F64", jsonOfF64 bits)]
  | bool x => .obj [("Bool", .bool x)]
  | str x => .obj [("Str", .str x)]
  | zeroBytes n => .obj [("ZeroBytes", .int n)]

/-- `Deserialize for DefaultValue`. A float is written with its fraction; whole numbers
are not read as one here. -/
def ofJson : Json → Option DefaultValue
  | .obj [(name, value)] =>
    if name = "U64" then (Json.asUnsigned 64 value).map fun x => u64 (UInt64.ofNat x)
    else if name = "I64" then (Json.asInt64 value).map i64
    else if name = "F64" then (Json.asFloat value).map f64
    else if name = "Bool" then (Json.asBool value).map bool
    else if name = "Str" then (Json.asStr value).map str
    else if name = "ZeroBytes" then (Json.asNat value).map zeroBytes
    else none
  | _ => none

/-- A default JSON has a form for. -/
def hasForm : DefaultValue → Bool
  | f64 bits => finiteBits bits
  | _ => true

theorem toJson_ne_null (d : DefaultValue) : d.toJson ≠ .null := by
  cases d <;> nofun

/-- **A default comes back** unless it is a float that is no number. -/
theorem returns : Json.Returns toJson ofJson fun d => d.hasForm = true := by
  intro d
  cases d with
  | u64 x =>
    have hread : Json.asUnsigned 64 (.int x.toNat) = some x.toNat := Json.asUnsigned_of_lt x.toNat_lt
    exact ⟨fun _ => by simp [toJson, ofJson, hread], fun h => absurd rfl h⟩
  | i64 x =>
    have hread : Json.asInt64 (.int x.toInt) = some x := Json.always_int64 x
    exact ⟨fun _ => by simp [toJson, ofJson, hread], fun h => absurd rfl h⟩
  | f64 bits =>
    show (finiteBits bits = true → (Json.asFloat (jsonOfF64 bits)).map f64 = _) ∧
      (¬ finiteBits bits = true → (Json.asFloat (jsonOfF64 bits)).map f64 = _)
    unfold jsonOfF64
    constructor
    · intro h
      rw [if_pos h]
      rfl
    · intro h
      rw [if_neg h]
      rfl
  | bool x => exact ⟨fun _ => rfl, fun h => absurd rfl h⟩
  | str x => exact ⟨fun _ => rfl, fun h => absurd rfl h⟩
  | zeroBytes n =>
    refine ⟨fun _ => ?_, fun h => absurd rfl h⟩
    show (Json.asNat (.int n)).map _ = _
    rw [Json.always_nat n]
    rfl

end DefaultValue

/-! ## Fields -/

def jsonOfByte (b : UInt8) : Json := .int b.toNat

def byteOfJson (j : Json) : Option UInt8 := (Json.asUnsigned 8 j).map UInt8.ofNat

def jsonOfU16 (n : UInt16) : Json := .int n.toNat

def u16OfJson (j : Json) : Option UInt16 := (Json.asUnsigned 16 j).map UInt16.ofNat

def jsonOfSize (n : Nat) : Json := .int n

theorem byteOfJson_ofByte (b : UInt8) : byteOfJson (jsonOfByte b) = some b := by
  unfold byteOfJson jsonOfByte
  rw [Json.asUnsigned_of_lt b.toNat_lt, Option.map_some, UInt8.ofNat_toNat]

theorem u16OfJson_ofU16 (n : UInt16) : u16OfJson (jsonOfU16 n) = some n := by
  unfold u16OfJson jsonOfU16
  rw [Json.asUnsigned_of_lt n.toNat_lt, Option.map_some, UInt16.ofNat_toNat]

theorem asNat_ofSize (n : Nat) : Json.asNat (jsonOfSize n) = some n := Json.always_nat n

namespace FieldSchema

/-- `Serialize for FieldSchema`. -/
def toJson (f : FieldSchema) : Json := .obj [
  ("name", .str f.name),
  ("ty", f.ty.toJson),
  ("width", jsonOfSize f.width),
  ("offset", jsonOfSize f.offset),
  ("tag", Json.ofOption jsonOfByte f.tag),
  ("default", Json.ofOption DefaultValue.toJson f.default),
  ("expect_len", Json.ofOption jsonOfSize f.expectLen)]

/-- `Deserialize for FieldSchema`. -/
def ofJson (j : Json) : Option FieldSchema := do
  let name ← j.required ["name"] Json.asStr
  let ty ← j.required ["ty"] FieldType.ofJson
  let width ← j.required ["width"] Json.asNat
  let offset ← j.required ["offset"] Json.asNat
  let tag ← j.defaulted ["tag"] (Json.asOption byteOfJson) none
  let default ← j.defaulted ["default"] (Json.asOption DefaultValue.ofJson) none
  let expectLen ← j.defaulted ["expect_len"] (Json.asOption Json.asNat) none
  some ⟨name, ty, width, offset, tag, default, expectLen⟩

/-- Its kind is one the reader knows, and its default has a form. -/
def ReadsBack (f : FieldSchema) : Prop := f.ty.readsBack = true ∧ ∀ d ∈ f.default, d.hasForm = true

theorem ofJson_toJson (f : FieldSchema) : ofJson f.toJson = (do
    let ty ← FieldType.ofJson f.ty.toJson
    let default ← Json.asOption DefaultValue.ofJson (Json.ofOption DefaultValue.toJson f.default)
    some { f with ty := ty, default := default }) := by
  have hname : f.toJson.required ["name"] Json.asStr = some f.name :=
    (Json.required_of_member rfl _).trans rfl
  have hty : f.toJson.required ["ty"] FieldType.ofJson = FieldType.ofJson f.ty.toJson :=
    Json.required_of_member rfl _
  have hwidth : f.toJson.required ["width"] Json.asNat = some f.width :=
    (Json.required_of_member rfl _).trans (asNat_ofSize _)
  have hoffset : f.toJson.required ["offset"] Json.asNat = some f.offset :=
    (Json.required_of_member rfl _).trans (asNat_ofSize _)
  have htag : f.toJson.defaulted ["tag"] (Json.asOption byteOfJson) none = some f.tag :=
    (Json.defaulted_of_member rfl _ _).trans
      (Json.Always.option byteOfJson_ofByte (fun _ => by nofun) f.tag)
  have hdefault : f.toJson.defaulted ["default"] (Json.asOption DefaultValue.ofJson) none
      = Json.asOption DefaultValue.ofJson (Json.ofOption DefaultValue.toJson f.default) :=
    Json.defaulted_of_member rfl _ _
  have hlen : f.toJson.defaulted ["expect_len"] (Json.asOption Json.asNat) none = some f.expectLen :=
    (Json.defaulted_of_member rfl _ _).trans
      (Json.Always.option asNat_ofSize (fun _ => by nofun) f.expectLen)
  unfold ofJson
  rw [hname, hty, hwidth, hoffset, htag, hdefault, hlen]
  rfl

/-- **A field comes back** when its kind and its default do. -/
theorem returns : Json.Returns toJson ofJson ReadsBack := by
  intro f
  rw [ofJson_toJson]
  have hdefault := DefaultValue.returns.option DefaultValue.toJson_ne_null f.default
  by_cases hty : f.ty.readsBack = true
  · rw [(FieldType.returns f.ty).1 hty]
    by_cases hd : ∀ d ∈ f.default, d.hasForm = true
    · rw [hdefault.1 hd]
      exact ⟨fun _ => rfl, fun h => absurd ⟨hty, hd⟩ h⟩
    · rw [hdefault.2 hd]
      exact ⟨fun h => absurd h.2 hd, fun _ => rfl⟩
  · rw [(FieldType.returns f.ty).2 hty]
    exact ⟨fun h => absurd h.1 hty, fun _ => rfl⟩

end FieldSchema

/-! ## Faces and slots -/

namespace IndexSchema

/-- `Serialize for IndexSchema`. -/
def toJson (d : IndexSchema) : Json := .obj [
  ("name", .str d.name),
  ("slot", jsonOfU16 d.slot),
  ("fields", Json.ofList .str d.fields),
  ("includes", Json.ofList .str d.includes),
  ("func", .str d.func),
  ("deprecated", .bool d.deprecated)]

/-- `Deserialize for IndexSchema`. -/
def ofJson (j : Json) : Option IndexSchema := do
  let name ← j.required ["name"] Json.asStr
  let slot ← j.required ["slot"] u16OfJson
  let fields ← j.defaulted ["fields"] (Json.asList Json.asStr) []
  let includes ← j.defaulted ["includes"] (Json.asList Json.asStr) []
  let func ← j.defaulted ["func"] Json.asStr ""
  let deprecated ← j.defaulted ["deprecated"] Json.asBool false
  some ⟨name, slot, fields, includes, func, deprecated⟩

theorem always : Json.Always toJson ofJson := by
  intro d
  have htexts : Json.Always (Json.ofList Json.str) (Json.asList Json.asStr) :=
    Json.Always.list fun _ => rfl
  have hname : d.toJson.required ["name"] Json.asStr = some d.name :=
    (Json.required_of_member rfl _).trans rfl
  have hslot : d.toJson.required ["slot"] u16OfJson = some d.slot :=
    (Json.required_of_member rfl _).trans (u16OfJson_ofU16 _)
  have hfields : d.toJson.defaulted ["fields"] (Json.asList Json.asStr) [] = some d.fields :=
    (Json.defaulted_of_member rfl _ _).trans (htexts _)
  have hincludes : d.toJson.defaulted ["includes"] (Json.asList Json.asStr) [] = some d.includes :=
    (Json.defaulted_of_member rfl _ _).trans (htexts _)
  have hfunc : d.toJson.defaulted ["func"] Json.asStr "" = some d.func :=
    (Json.defaulted_of_member rfl _ _).trans rfl
  have hdeprecated : d.toJson.defaulted ["deprecated"] Json.asBool false = some d.deprecated :=
    (Json.defaulted_of_member rfl _ _).trans rfl
  unfold ofJson
  rw [hname, hslot, hfields, hincludes, hfunc, hdeprecated]
  rfl

end IndexSchema

/-- Where each family of entries lives. -/
structure SlotMap where
  primary : UInt16
  dynamic : UInt16
  fieldVocabId : UInt16
  fieldVocabName : UInt16
  predicateVocabId : UInt16
  predicateVocabName : UInt16
  declaredIndexBase : UInt16
  declaredReduceBase : UInt16
  declaredLeadBase : UInt16
  deriving DecidableEq

namespace SlotMap

/-- The slots of every collection. -/
def fixed : SlotMap := ⟨0x00, 0x01, 0x02, 0x03, 0x04, 0x05, 0x3001, 0x4001, 0x5001⟩

/-- `Serialize for SlotMap`. -/
def toJson (slots : SlotMap) : Json := .obj [
  ("primary", jsonOfU16 slots.primary),
  ("dynamic", jsonOfU16 slots.dynamic),
  ("field_vocab_id", jsonOfU16 slots.fieldVocabId),
  ("field_vocab_name", jsonOfU16 slots.fieldVocabName),
  ("predicate_vocab_id", jsonOfU16 slots.predicateVocabId),
  ("predicate_vocab_name", jsonOfU16 slots.predicateVocabName),
  ("declared_index_base", jsonOfU16 slots.declaredIndexBase),
  ("declared_reduce_base", jsonOfU16 slots.declaredReduceBase),
  ("declared_lead_base", jsonOfU16 slots.declaredLeadBase)]

/-- `Deserialize for SlotMap`, which also knows the names the field vocabulary once had. -/
def ofJson (j : Json) : Option SlotMap := do
  let primary ← j.required ["primary"] u16OfJson
  let dynamic ← j.required ["dynamic"] u16OfJson
  let fieldVocabId ← j.required ["field_vocab_id", "dict_id"] u16OfJson
  let fieldVocabName ← j.required ["field_vocab_name", "dict_name"] u16OfJson
  let predicateVocabId ← j.defaulted ["predicate_vocab_id"] u16OfJson 0x04
  let predicateVocabName ← j.defaulted ["predicate_vocab_name"] u16OfJson 0x05
  let declaredIndexBase ← j.required ["declared_index_base"] u16OfJson
  let declaredReduceBase ← j.required ["declared_reduce_base"] u16OfJson
  let declaredLeadBase ← j.defaulted ["declared_lead_base"] u16OfJson 0x5001
  some ⟨primary, dynamic, fieldVocabId, fieldVocabName, predicateVocabId, predicateVocabName,
    declaredIndexBase, declaredReduceBase, declaredLeadBase⟩

theorem always : Json.Always toJson ofJson := by
  intro slots
  have hrequired : ∀ {names : List String} {n : UInt16},
      slots.toJson.member names = some (some (jsonOfU16 n)) →
      slots.toJson.required names u16OfJson = some n := by
    intro names n h
    rw [Json.required_of_member h, u16OfJson_ofU16]
  have hdefaulted : ∀ {names : List String} {n : UInt16} (missing : UInt16),
      slots.toJson.member names = some (some (jsonOfU16 n)) →
      slots.toJson.defaulted names u16OfJson missing = some n := by
    intro names n missing h
    rw [Json.defaulted_of_member h, u16OfJson_ofU16]
  have primary : slots.toJson.required ["primary"] u16OfJson = some slots.primary := hrequired rfl
  have dynamic : slots.toJson.required ["dynamic"] u16OfJson = some slots.dynamic := hrequired rfl
  have fieldVocabId : slots.toJson.required ["field_vocab_id", "dict_id"] u16OfJson = some slots.fieldVocabId := hrequired rfl
  have fieldVocabName : slots.toJson.required ["field_vocab_name", "dict_name"] u16OfJson = some slots.fieldVocabName := hrequired rfl
  have predicateVocabId : slots.toJson.defaulted ["predicate_vocab_id"] u16OfJson 0x04
      = some slots.predicateVocabId := hdefaulted 0x04 rfl
  have predicateVocabName : slots.toJson.defaulted ["predicate_vocab_name"] u16OfJson 0x05
      = some slots.predicateVocabName := hdefaulted 0x05 rfl
  have declaredIndexBase : slots.toJson.required ["declared_index_base"] u16OfJson = some slots.declaredIndexBase := hrequired rfl
  have declaredReduceBase : slots.toJson.required ["declared_reduce_base"] u16OfJson = some slots.declaredReduceBase := hrequired rfl
  have declaredLeadBase : slots.toJson.defaulted ["declared_lead_base"] u16OfJson 0x5001
      = some slots.declaredLeadBase := hdefaulted 0x5001 rfl
  unfold ofJson
  rw [primary, dynamic, fieldVocabId, fieldVocabName, predicateVocabId,
    predicateVocabName, declaredIndexBase, declaredReduceBase, declaredLeadBase]
  rfl

end SlotMap

/-! ## The declaration -/

/-- The whole export: what the codec reads, and the rest of the declaration. -/
structure ExportedSchema extends CollectionSchema where
  nsPrefix : Bytes
  hotWidth : Nat
  members : List UInt16
  slots : SlotMap
  indexes : List IndexSchema
  faces : Bytes

namespace ExportedSchema

/-- `Serialize for CollectionSchema`. -/
def toJson (s : ExportedSchema) : Json := .obj [
  ("key_len", jsonOfSize s.keyLen),
  ("key_fields", Json.ofList FieldSchema.toJson s.keyFields),
  ("ns_prefix", Json.ofList jsonOfByte s.nsPrefix),
  ("layout_version", jsonOfByte s.layoutVersion),
  ("hot_width", jsonOfSize s.hotWidth),
  ("payload_header_len", jsonOfSize s.payloadHeaderLen),
  ("hot_fields", Json.ofList FieldSchema.toJson s.hotFields),
  ("cold_fields", Json.ofList FieldSchema.toJson s.coldFields),
  ("members", Json.ofList jsonOfU16 s.members),
  ("slots", s.slots.toJson),
  ("indexes", Json.ofList IndexSchema.toJson s.indexes),
  ("faces", Json.ofList jsonOfByte s.faces)]

/-- `Deserialize for CollectionSchema`. -/
def ofJson (j : Json) : Option ExportedSchema := do
  let keyLen ← j.required ["key_len"] Json.asNat
  let keyFields ← j.required ["key_fields"] (Json.asList FieldSchema.ofJson)
  let nsPrefix ← j.defaulted ["ns_prefix"] (Json.asList byteOfJson) []
  let layoutVersion ← j.required ["layout_version"] byteOfJson
  let hotWidth ← j.required ["hot_width"] Json.asNat
  let payloadHeaderLen ← j.required ["payload_header_len"] Json.asNat
  let hotFields ← j.required ["hot_fields"] (Json.asList FieldSchema.ofJson)
  let coldFields ← j.required ["cold_fields"] (Json.asList FieldSchema.ofJson)
  let members ← j.defaulted ["members"] (Json.asList u16OfJson) []
  let slots ← j.required ["slots"] SlotMap.ofJson
  let indexes ← j.defaulted ["indexes"] (Json.asList IndexSchema.ofJson) []
  let faces ← j.defaulted ["faces"] (Json.asList byteOfJson) []
  some ⟨⟨keyLen, keyFields, layoutVersion, payloadHeaderLen, hotFields, coldFields⟩, nsPrefix,
    hotWidth, members, slots, indexes, faces⟩

/-- Every field of it comes back. -/
def ReadsBack (s : ExportedSchema) : Prop := ∀ f ∈ s.fields, f.ReadsBack

theorem ofJson_toJson (s : ExportedSchema) : ofJson s.toJson = (do
    let keyFields ← Json.asList FieldSchema.ofJson (Json.ofList FieldSchema.toJson s.keyFields)
    let hotFields ← Json.asList FieldSchema.ofJson (Json.ofList FieldSchema.toJson s.hotFields)
    let coldFields ← Json.asList FieldSchema.ofJson (Json.ofList FieldSchema.toJson s.coldFields)
    some { s with keyFields := keyFields, hotFields := hotFields, coldFields := coldFields }) := by
  have hbytes := Json.Always.list byteOfJson_ofByte
  have hkeyLen : s.toJson.required ["key_len"] Json.asNat = some s.keyLen :=
    (Json.required_of_member rfl _).trans (asNat_ofSize _)
  have hkey : s.toJson.required ["key_fields"] (Json.asList FieldSchema.ofJson)
      = Json.asList FieldSchema.ofJson (Json.ofList FieldSchema.toJson s.keyFields) :=
    Json.required_of_member rfl _
  have hns : s.toJson.defaulted ["ns_prefix"] (Json.asList byteOfJson) [] = some s.nsPrefix :=
    (Json.defaulted_of_member rfl _ _).trans (hbytes _)
  have hversion : s.toJson.required ["layout_version"] byteOfJson = some s.layoutVersion :=
    (Json.required_of_member rfl _).trans (byteOfJson_ofByte _)
  have hhotWidth : s.toJson.required ["hot_width"] Json.asNat = some s.hotWidth :=
    (Json.required_of_member rfl _).trans (asNat_ofSize _)
  have hheader : s.toJson.required ["payload_header_len"] Json.asNat = some s.payloadHeaderLen :=
    (Json.required_of_member rfl _).trans (asNat_ofSize _)
  have hhot : s.toJson.required ["hot_fields"] (Json.asList FieldSchema.ofJson)
      = Json.asList FieldSchema.ofJson (Json.ofList FieldSchema.toJson s.hotFields) :=
    Json.required_of_member rfl _
  have hcold : s.toJson.required ["cold_fields"] (Json.asList FieldSchema.ofJson)
      = Json.asList FieldSchema.ofJson (Json.ofList FieldSchema.toJson s.coldFields) :=
    Json.required_of_member rfl _
  have hmembers : s.toJson.defaulted ["members"] (Json.asList u16OfJson) [] = some s.members :=
    (Json.defaulted_of_member rfl _ _).trans (Json.Always.list u16OfJson_ofU16 _)
  have hslots : s.toJson.required ["slots"] SlotMap.ofJson = some s.slots :=
    (Json.required_of_member rfl _).trans (SlotMap.always _)
  have hindexes : s.toJson.defaulted ["indexes"] (Json.asList IndexSchema.ofJson) []
      = some s.indexes :=
    (Json.defaulted_of_member rfl _ _).trans (Json.Always.list IndexSchema.always _)
  have hfaces : s.toJson.defaulted ["faces"] (Json.asList byteOfJson) [] = some s.faces :=
    (Json.defaulted_of_member rfl _ _).trans (hbytes _)
  unfold ofJson
  rw [hkeyLen, hkey, hns, hversion, hhotWidth, hheader, hhot, hcold, hmembers, hslots, hindexes,
    hfaces]
  rfl

/-- **A declaration comes back** when its every field does, and is not read otherwise. -/
theorem returns : Json.Returns toJson ofJson ReadsBack := by
  intro s
  have hfields : s.ReadsBack ↔ (∀ f ∈ s.keyFields, f.ReadsBack) ∧
      (∀ f ∈ s.hotFields, f.ReadsBack) ∧ ∀ f ∈ s.coldFields, f.ReadsBack := by
    simp only [ReadsBack, CollectionSchema.fields, List.forall_mem_append, and_assoc]
  rw [ofJson_toJson, hfields]
  by_cases hkey : ∀ f ∈ s.keyFields, f.ReadsBack
  · rw [(FieldSchema.returns.list s.keyFields).1 hkey]
    by_cases hhot : ∀ f ∈ s.hotFields, f.ReadsBack
    · rw [(FieldSchema.returns.list s.hotFields).1 hhot]
      by_cases hcold : ∀ f ∈ s.coldFields, f.ReadsBack
      · rw [(FieldSchema.returns.list s.coldFields).1 hcold]
        exact ⟨fun _ => rfl, fun h => absurd ⟨hkey, hhot, hcold⟩ h⟩
      · rw [(FieldSchema.returns.list s.coldFields).2 hcold]
        exact ⟨fun h => absurd h.2.2 hcold, fun _ => rfl⟩
    · rw [(FieldSchema.returns.list s.hotFields).2 hhot]
      exact ⟨fun h => absurd h.2.1 hhot, fun _ => rfl⟩
  · rw [(FieldSchema.returns.list s.keyFields).2 hkey]
    exact ⟨fun h => absurd h.1 hkey, fun _ => rfl⟩

end ExportedSchema

/-! ## The export of a declared table -/

/-- `FieldDesc`. -/
structure FieldDesc where
  name : String
  ty : FieldType
  width : Nat

/-- `DefaultValueConst`: the literals a derive exports. -/
inductive DefaultValueConst where
  | u64 (x : UInt64)
  | i64 (x : Int64)
  | f64 (bits : UInt64)
  | bool (x : Bool)
  | str (x : String)

/-- A literal in its owned form. -/
def DefaultValueConst.owned : DefaultValueConst → DefaultValue
  | u64 x => .u64 x
  | i64 x => .i64 x
  | f64 bits => .f64 bits
  | bool x => .bool x
  | str x => .str x

/-- What the derives emit for a key and its document. -/
structure TableDecl where
  keyLen : Nat
  keyFields : List FieldDesc
  nsPrefix : Bytes
  layoutVersion : UInt8
  hotWidth : Nat
  fields : List FieldDesc
  defaults : List (String × DefaultValueConst)
  fieldContracts : List (String × Nat)
  indexDecls : List IndexDecl
  faces : Bytes

namespace TableDecl

/-- `lookup_default`. -/
def lookupDefault (decl : TableDecl) (name : String) : Option DefaultValue :=
  (decl.defaults.find? fun d => d.1 = name).map fun d => d.2.owned

/-- `expect_len_of`. -/
def expectLenOf (decl : TableDecl) (name : String) : Option Nat :=
  (decl.fieldContracts.find? fun c => c.1 = name).map Prod.snd

/-- The key's fields, each where the one before it ends. -/
def exportKey : Nat → List FieldDesc → List FieldSchema
  | _, [] => []
  | off, f :: fs => ⟨f.name, f.ty, f.width, off, none, none, none⟩ :: exportKey (off + f.width) fs

/-- The document's fields: those with a width are hot, one behind the other, the others
cold under their place in the declaration. -/
def exportFields (decl : TableDecl) : Nat → Nat → List FieldDesc → List FieldSchema × List FieldSchema
  | _, _, [] => ([], [])
  | fi, hotOff, f :: fs =>
    if 0 < f.width then
      let (hot, cold) := decl.exportFields (fi + 1) (hotOff + f.width) fs
      (⟨f.name, f.ty, f.width, hotOff, none, decl.lookupDefault f.name, none⟩ :: hot, cold)
    else
      let (hot, cold) := decl.exportFields (fi + 1) hotOff fs
      (hot, ⟨f.name, f.ty, 0, 0, some (UInt8.ofNat fi), decl.lookupDefault f.name,
        decl.expectLenOf f.name⟩ :: cold)

/-- `CollectionSchema::of`. That the key's widths sum to its length is the derive's. -/
def schemaOf (decl : TableDecl) : ExportedSchema where
  keyLen := decl.keyLen
  keyFields := exportKey 0 decl.keyFields
  layoutVersion := decl.layoutVersion
  payloadHeaderLen := 3
  hotFields := (decl.exportFields 0 0 decl.fields).1
  coldFields := (decl.exportFields 0 0 decl.fields).2
  nsPrefix := decl.nsPrefix
  hotWidth := decl.hotWidth
  members := []
  slots := SlotMap.fixed
  indexes := decl.indexDecls
  faces := decl.faces

/-- `CollectionSchema::of_graph`: the edge table's export, with the member set. -/
def schemaOfGraph (edge : TableDecl) (nodes : List UInt16) : ExportedSchema :=
  { edge.schemaOf with members := nodes }

/-- Every kind is one the reader knows, and no exported default is an infinity or a NaN. -/
def ReadsBack (decl : TableDecl) : Prop :=
  (∀ f ∈ decl.keyFields, f.ty.readsBack = true) ∧
    ∀ f ∈ decl.fields, f.ty.readsBack = true ∧ ∀ d ∈ decl.lookupDefault f.name, d.hasForm = true

theorem forall_exportKey {off : Nat} {fs : List FieldDesc} :
    (∀ f ∈ exportKey off fs, f.ReadsBack) ↔ ∀ f ∈ fs, f.ty.readsBack = true := by
  induction fs generalizing off with
  | nil => simp [exportKey]
  | cons f fs ih =>
    rw [exportKey, List.forall_mem_cons, List.forall_mem_cons, ih]
    simp [FieldSchema.ReadsBack]

theorem forall_exportFields (decl : TableDecl) (fi hotOff : Nat) {fs : List FieldDesc} :
    ((∀ f ∈ (decl.exportFields fi hotOff fs).1, f.ReadsBack) ∧
      ∀ f ∈ (decl.exportFields fi hotOff fs).2, f.ReadsBack) ↔
    ∀ f ∈ fs, f.ty.readsBack = true ∧ ∀ d ∈ decl.lookupDefault f.name, d.hasForm = true := by
  induction fs generalizing fi hotOff with
  | nil => simp [exportFields]
  | cons f fs ih =>
    rw [List.forall_mem_cons, exportFields]
    split
    · rw [← ih (fi + 1) (hotOff + f.width), List.forall_mem_cons, and_assoc]
      exact Iff.rfl
    · rw [← ih (fi + 1) hotOff, List.forall_mem_cons, and_left_comm]
      exact Iff.rfl

theorem schemaOf_readsBack (decl : TableDecl) : decl.schemaOf.ReadsBack ↔ decl.ReadsBack := by
  rw [ExportedSchema.ReadsBack, CollectionSchema.fields, List.forall_mem_append,
    List.forall_mem_append, and_assoc]
  exact and_congr forall_exportKey (forall_exportFields decl _ _)

end TableDecl

/-- The declaration comes back equal, so whatever is decoded by it is decoded the same. -/
def ExportedSchema.Survives (s : ExportedSchema) : Prop :=
  ∃ reloaded, ExportedSchema.ofJson s.toJson = some reloaded ∧ reloaded = s

/-- **What survives JSON**: the exports of a table or a graph all of whose kinds the reader
of `FieldType` knows, with no float default that is no number. -/
theorem schema_survives_iff (decl : TableDecl) (nodes : List UInt16) :
    (decl.schemaOf.Survives ↔ decl.ReadsBack) ∧ ((decl.schemaOfGraph nodes).Survives ↔ decl.ReadsBack) := by
  have hsurvives : ∀ s : ExportedSchema, s.Survives ↔ s.ReadsBack := by
    intro s
    constructor
    · rintro ⟨reloaded, hread, -⟩
      by_contra hnot
      rw [(ExportedSchema.returns s).2 hnot] at hread
      cases hread
    · intro h
      exact ⟨s, (ExportedSchema.returns s).1 h, rfl⟩
  exact ⟨(hsurvives _).trans decl.schemaOf_readsBack, (hsurvives _).trans decl.schemaOf_readsBack⟩

/-- A table with one `Vec<u8>` field under a `u64` key. -/
def blobTable : TableDecl where
  keyLen := 8
  keyFields := [⟨"id", .u64, 8⟩]
  nsPrefix := [0, 1]
  layoutVersion := 1
  hotWidth := 0
  fields := [⟨"body", .bytes, 0⟩]
  defaults := []
  fieldContracts := []
  indexDecls := []
  faces := fingerprint []

/-- **Its sidecar is not read back.** -/
theorem blob_sidecar_unreadable : ¬ blobTable.schemaOf.Survives := by
  rintro ⟨reloaded, hread, -⟩
  have hbytes : ¬ FieldSchema.ReadsBack ⟨"body", .bytes, 0, 0, some 0, none, none⟩ :=
    fun h => absurd h.1 (by decide)
  have hnot : ¬ blobTable.schemaOf.ReadsBack := by
    intro h
    refine hbytes (h _ ?_)
    simp [CollectionSchema.fields, TableDecl.schemaOf, blobTable, TableDecl.exportFields,
      TableDecl.lookupDefault, TableDecl.expectLenOf]
  rw [(ExportedSchema.returns _).2 hnot] at hread
  cases hread

end Okm.Model
