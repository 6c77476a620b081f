import Okm.Lib.Guarded
import Okm.Lib.SortedMap
import Okm.Model.FieldKinds
import Okm.Model.SchemaJson

/-!
# The schema-driven codec

The model of `lib.rs`, `encode.rs` and `decode.rs` of the dynamic crate: value trees by field
name, written and read by an exported declaration alone. Data that does not fit is refused
with an error that names the field.

The model is of a build that checks arithmetic and debug assertions. What such a build does
not survive is an `Abort`: an index outside a slice, a sum past its type or a byte shifted by
its size, an assertion that fails. A float is its bit pattern.
-/

namespace Okm.Dynamic

open Lib Model

/-! ## Values and errors -/

/-- A schema-driven value. -/
inductive Value where
  | u8 (x : UInt8)
  | u16 (x : UInt16)
  | u32 (x : UInt32)
  | u64 (x : UInt64)
  | i64 (x : Int64)
  | f64 (bits : UInt64)
  | bool (b : Bool)
  | null
  | bytes (b : Bytes)
  | str (s : String)
  | obj (fields : List (String × Value))
  | array (items : List Value)

/-- Field name to value. -/
abbrev ValueMap := SortedMap String Value

/-- Mistakes in the data. -/
inductive CodecError where
  | unknownField (name : String)
  | missingField (name : String)
  | typeMismatch (field expected : String)
  | truncated (field : String) (needed got : Nat)
  | versionMismatch (schema found : UInt8)
  | invalidUtf8 (field : String)
  | coldFieldWithoutTag (field : String)
  deriving DecidableEq

/-- What no data is to cause. -/
inductive Abort where
  | slice
  | overflow
  | assertion
  deriving DecidableEq, Repr

abbrev Codec := Guarded Abort CodecError

open Guarded (answer refuse abort)

/-- `schema_predicate_vocab_name`. -/
def vocabName : FieldType → String
  | .u8 => "U8"
  | .u16 => "U16"
  | .u32 => "U32"
  | .u64 => "U64"
  | .fixedBytes => "bytes"
  | .uuid4 | .uuid7 => "bytes (uuid)"
  | .str => "string"
  | .bytes => "bytes"
  | .varInt => "U64 (VarInt storage form)"
  | .quant _ => "U64 (fixed-point storage form)"
  | .vocab _ => "U8 (vocab id)"
  | .offset _ => "U64 (biased storage form)"
  | .vector _ => "bytes (flat LE vector)"

/-- The values `field_pair` lets through for a kind. -/
def admits : FieldType → Value → Bool
  | .u8, .u8 _ => true
  | .u16, .u16 _ => true
  | .u32, .u32 _ => true
  | .u64, .u64 _ => true
  | .fixedBytes, .bytes _ => true
  | .str, .str _ => true
  | .quant _, .f64 _ => true
  | .offset _, .i64 _ => true
  | .varInt, .u64 _ => true
  | .vocab _, .u8 _ => true
  | _, _ => false

/-- `field_pair`: the gate in front of every encoder. -/
def fieldPair (name : String) (ty : FieldType) (map : ValueMap) : Except CodecError Value :=
  match map.get name with
  | none => .error (.missingField name)
  | some v => if admits ty v then .ok v else .error (.typeMismatch name (vocabName ty))

/-! ## Wrapper arithmetic -/

/-- `w as f64`: the nearest double, a tie to the even one. -/
def doubleOf (w : Int64) : Finite64 :=
  let n := w.toInt.natAbs
  let excess := Nat.log2 n - 52
  ⟨decide (w < 0), Finite64.halfEven n excess, excess⟩

/-- The double nearest to a quotient. The last bit kept stands for all that is cut off. -/
def quotient (x : Finite64) (c : Nat) : Finite64 :=
  let shift := 54 + Nat.log2 c - Nat.log2 x.mant
  let n := x.mant * 2 ^ shift
  let kept := 2 * (n / c) + if n % c = 0 then 0 else 1
  let excess := Nat.log2 kept - 52
  ⟨x.neg, Finite64.halfEven kept excess, x.exp - shift - 1 + excess⟩

/-- The bits of a double that is zero or normal. -/
def bitsOf (x : Finite64) : UInt64 :=
  let sign := if x.neg then 2 ^ 63 else 0
  if x.mant = 0 then UInt64.ofNat sign
  else
    let lead := Nat.log2 x.mant
    let mant := x.mant * 2 ^ 52 / 2 ^ lead
    UInt64.ofNat (sign + (x.exp + lead + 1023).toNat * 2 ^ 52 + (mant - 2 ^ 52))

/-- `dequantize`: the fixed-point integer over its power of ten. -/
def dequantize (w : Int64) (p : UInt32) : Codec UInt64 :=
  match pow10 p.toNat with
  | some c => answer (bitsOf (quotient (doubleOf w) c))
  | none => abort .assertion

/-- The signed integer eight bytes spell. -/
def int64OfBytes (b : Bytes) : Int64 := (UInt64.ofNat (beNat b)).toInt64

/-- `base + u32::from_be_bytes(raw) as i64`. -/
def rebase (base : Int64) (raw : Bytes) : Codec Value :=
  if base.toInt + beNat raw < 2 ^ 63 then answer (.i64 (base + Int64.ofNat (beNat raw)))
  else abort .overflow

/-! ## Decoding -/

/-- `&bytes[from..to]`. -/
def sliceOf (bytes : Bytes) (first stop : Nat) : Codec Bytes :=
  if first ≤ stop ∧ stop ≤ bytes.length then answer ((bytes.take stop).drop first)
  else abort .slice

/-- `decode_fixed`. -/
def decodeFixed (name : String) (ty : FieldType) (width : Nat) (raw : Bytes) : Codec Value :=
  let need := CodecError.truncated name width raw.length
  match ty with
  | .u8 =>
    match raw with
    | [] => refuse need
    | b :: _ => answer (.u8 b)
  | .u16 => if raw.length = 2 then answer (.u16 (UInt16.ofNat (beNat raw))) else refuse need
  | .u32 => if raw.length = 4 then answer (.u32 (UInt32.ofNat (beNat raw))) else refuse need
  | .u64 => if raw.length = 8 then answer (.u64 (UInt64.ofNat (beNat raw))) else refuse need
  | .fixedBytes => answer (.bytes raw)
  | .uuid4 | .uuid7 => if 16 ≤ raw.length then answer (.bytes (raw.take 16)) else refuse need
  | .quant p =>
    if raw.length = 8 then dequantize (int64OfBytes raw) p >>= fun bits => answer (.f64 bits)
    else refuse need
  | .offset base => if raw.length = 4 then rebase base raw else refuse need
  | .vocab _ => answer (.bytes raw)
  | .vector _ => answer (.bytes raw)
  | .str | .bytes | .varInt => refuse (.typeMismatch name "hot-capable fixed-width kind")

/-- `decode_key`. -/
def decodeKey (schema : CollectionSchema) (bytes : Bytes) : Codec ValueMap :=
  if bytes.length < schema.keyLen then
    refuse (.truncated "<key>" schema.keyLen bytes.length)
  else
    schema.keyFields.foldlM (fun out f => do
      let raw ← sliceOf bytes f.offset (f.offset + f.width)
      let v ← decodeFixed f.name f.ty f.width raw
      answer (out.insert f.name v)) SortedMap.empty

/-- The kind's zero image, for a field the export has no literal of. -/
def zeroValue (f : FieldSchema) : Value :=
  match f.ty with
  | .u8 => .u8 0
  | .u16 => .u16 0
  | .u32 => .u32 0
  | .u64 => .u64 0
  | .offset base => .i64 base
  | .quant _ => .f64 0
  | .varInt => .u64 0
  | .str => .str ""
  | .bytes | .fixedBytes => .bytes (List.replicate f.width 0)
  | .uuid4 | .uuid7 => .bytes (List.replicate 16 0)
  | .vocab _ => .bytes (List.replicate f.width 0)
  | .vector _ => .bytes [0, 0, 0, 0]

def defaultValue (f : FieldSchema) : Value :=
  match f.default with
  | some (.u64 x) => .u64 x
  | some (.i64 x) => .i64 x
  | some (.f64 bits) => .f64 bits
  | some (.bool x) => .bool x
  | some (.str x) => .str x
  | some (.zeroBytes n) => .bytes (List.replicate n 0)
  | none => zeroValue f

/-- `fill_schema_defaults`. -/
def fillSchemaDefaults (schema : CollectionSchema) (out : ValueMap) : ValueMap :=
  (schema.hotFields ++ schema.coldFields).foldl (fun out f =>
    if (out.get f.name).isSome then out else out.insert f.name (defaultValue f)) out

/-- `by_tag.get(&tag)`: of two fields with one tag the later one. -/
def byTag (schema : CollectionSchema) (tag : UInt8) : Option FieldSchema :=
  schema.coldFields.reverse.find? fun f => f.tag = some tag

/-- The value of a known frame, per its kind. -/
def decodeFrame (f : FieldSchema) (value : Bytes) : Codec Value :=
  match f.ty with
  | .str =>
    match strOfBytes value with
    | some s => answer (.str s)
    | none => refuse (.invalidUtf8 f.name)
  | .vector _ =>
    if value.length < 4 then refuse (.truncated f.name 4 value.length)
    else if (f.expectLen.any fun expect => beNat (value.take 4) ≠ expect) then
      refuse (.typeMismatch f.name "element count matching expect_len")
    else answer (.bytes value)
  | .varInt =>
    match value with
    | [] => refuse (.truncated f.name 1 0)
    | first :: _ =>
      let w := markerWidth first
      if value.length ≠ w then refuse (.truncated f.name w value.length)
      else
        match takeLenChecked value with
        | some (some (v, _)) => answer (.u64 (UInt64.ofNat v))
        | some none => abort .assertion
        | none => abort .overflow
  | .quant p =>
    if value.length = 8 then dequantize (int64OfBytes value) p >>= fun bits => answer (.f64 bits)
    else refuse (.truncated f.name 8 value.length)
  | .offset base =>
    if value.length = 4 then rebase base value
    else refuse (.truncated f.name 4 value.length)
  | _ => refuse (.typeMismatch f.name "cold-capable kind (Str / wrapper)")

/-- One frame: a field the schema does not know is skipped. -/
def enterFrame (schema : CollectionSchema) (out : ValueMap) (frame : UInt8 × Bytes) :
    Codec ValueMap :=
  match byTag schema frame.1 with
  | none => answer out
  | some f => decodeFrame f frame.2 >>= fun v => answer (out.insert f.name v)

/-- The cold frames of a payload of `size` bytes, until the tail. -/
def decodeCold (schema : CollectionSchema) (size : Nat) (rest : Bytes) (out : ValueMap) :
    Codec ValueMap :=
  match rest with
  | [] => answer out
  | tag :: rest =>
    match takeLenChecked rest with
    | none => abort .overflow
    | some none => refuse (.truncated "<cold len>" 4 rest.length)
    | some (some (len, n)) =>
      if 2 ^ 64 ≤ (size - (rest.drop n).length) + len then abort .overflow
      else if (rest.drop n).length < len then
        refuse (.truncated "<cold value>" len (rest.drop n).length)
      else
        enterFrame schema out (tag, (rest.drop n).take len) >>=
          decodeCold schema size ((rest.drop n).drop len)
termination_by rest.length
decreasing_by
  rw [List.length_drop, List.length_drop, List.length_cons]
  omega

/-- The hot segment: a field behind its end is left to the defaults. -/
def enterHot (hot : Bytes) (out : ValueMap) (f : FieldSchema) : Codec ValueMap :=
  if f.offset + f.width ≤ hot.length then
    decodeFixed f.name f.ty f.width ((hot.take (f.offset + f.width)).drop f.offset) >>= fun v =>
      answer (out.insert f.name v)
  else answer out

/-- `decode_payload`. -/
def decodePayload (schema : CollectionSchema) (bytes : Bytes) : Codec ValueMap :=
  let hdr := schema.payloadHeaderLen
  if bytes.length < hdr then refuse (.truncated "<payload header>" hdr bytes.length)
  else
    match bytes with
    | version :: hi :: lo :: _ =>
      if schema.layoutVersion < version then
        refuse (.versionMismatch schema.layoutVersion version)
      else
        let hotLen := beNat [hi, lo]
        if bytes.length < hdr + hotLen then
          refuse (.truncated "<hot segment>" hotLen (bytes.length - hdr))
        else do
          let out ← schema.hotFields.foldlM (enterHot ((bytes.drop hdr).take hotLen))
            SortedMap.empty
          let out ← decodeCold schema bytes.length ((bytes.drop hdr).drop hotLen) out
          answer (fillSchemaDefaults schema out)
    | _ => abort .slice

/-! ## Encoding -/

/-- `offset_bytes`: an offset out of its window is refused. -/
def offsetBytes (value base : Int64) (name : String) : Codec Bytes :=
  let off := value.toInt - base.toInt
  if (-2 ^ 63 ≤ off ∧ off < 2 ^ 63) ∧ 0 ≤ off ∧ off < 2 ^ 32 then answer (beBytes 4 off.toNat)
  else refuse (.typeMismatch name "an Offset value inside [base, base + 2^32) (u32 wire)")

/-- `wire_to_be_bytes(quantize(x, p))`. -/
def quantBytes (bits : UInt64) (p : UInt32) : Codec Bytes :=
  match quantize bits p.toNat with
  | some w => answer (beBytes 8 (Int64.ofInt w).toUInt64.toNat)
  | none => abort .assertion

/-- What `encode_field` appends for a value that passed the gate. -/
def fieldImage (f : FieldSchema) (v : Value) : Codec Bytes :=
  match f.ty with
  | .quant p =>
    match v with
    | .f64 bits => quantBytes bits p
    | _ => refuse (.typeMismatch f.name "f64 (Quant's logical value)")
  | .offset base =>
    match v with
    | .i64 x => offsetBytes x base f.name
    | _ => refuse (.typeMismatch f.name "i64 (Offset's logical value)")
  | .varInt => refuse (.typeMismatch f.name "cold TLV (VarInt has no static width)")
  | _ =>
    match v with
    | .u8 x => answer [x]
    | .u16 x => answer (beBytes 2 x.toNat)
    | .u32 x => answer (beBytes 4 x.toNat)
    | .u64 x => answer (beBytes 8 x.toNat)
    | .bytes b =>
      if b.length ≠ f.width then refuse (.truncated f.name f.width b.length) else answer b
    | .str _ => refuse (.typeMismatch f.name "fixed-width (Str is a cold TLV kind)")
    | _ => refuse (.typeMismatch f.name
        "fixed-width numeric/bytes (signed/float/bool/null are dynamic-segment kinds)")

/-- `encode_field`, with its assertion that placement is contiguous. -/
def encodeField (values : ValueMap) (buf : Bytes) (f : FieldSchema) : Codec Bytes :=
  Guarded.lift (fieldPair f.name f.ty values) >>= fun v =>
    if buf.length ≠ f.offset then abort .assertion
    else fieldImage f v >>= fun image => answer (buf ++ image)

/-- `encode_key`, with its assertion that the widths compose. -/
def encodeKey (schema : CollectionSchema) (values : ValueMap) : Codec Bytes :=
  schema.keyFields.foldlM (encodeField values) [] >>= fun buf =>
    if buf.length ≠ schema.keyLen then abort .assertion else answer buf

/-- `put_len`. -/
def putLenBytes (n : Nat) : Codec Bytes :=
  match putLenChecked n with
  | some b => answer b
  | none => abort .overflow

/-- `cold_frame_bytes`. A `VarInt` is written as `put_len` writes a length. -/
def coldFrameBytes (f : FieldSchema) (v : Value) : Codec Bytes :=
  match f.ty with
  | .varInt =>
    match v with
    | .u64 x => putLenBytes x.toNat
    | _ => refuse (.typeMismatch f.name "u64 (VarInt's logical value)")
  | .quant p =>
    match v with
    | .f64 bits => quantBytes bits p
    | _ => refuse (.typeMismatch f.name "f64 (Quant's logical value)")
  | .offset base =>
    match v with
    | .i64 x => offsetBytes x base f.name
    | _ => refuse (.typeMismatch f.name "i64 (Offset's logical value)")
  | .vocab _ =>
    match v with
    | .u8 x => answer [x]
    | .bytes b =>
      if b.length = f.width then answer b
      else refuse (.typeMismatch f.name "the vocabulary id (u8 / width bytes)")
    | _ => refuse (.typeMismatch f.name "the vocabulary id (u8 / width bytes)")
  | .bytes =>
    match v with
    | .bytes b => answer b
    | .str s => answer (strBytes s)
    | _ => refuse (.typeMismatch f.name "raw bytes")
  | .fixedBytes =>
    match v with
    | .bytes b =>
      if b.length = f.width then answer b
      else refuse (.typeMismatch f.name "bytes of the declared width")
    | _ => refuse (.typeMismatch f.name "bytes of the declared width")
  | .uuid4 | .uuid7 =>
    match v with
    | .bytes b =>
      if b.length = 16 then answer b
      else refuse (.typeMismatch f.name "bytes of a 16-byte uuid")
    | _ => refuse (.typeMismatch f.name "bytes of a 16-byte uuid")
  | .u8 =>
    match v with
    | .u8 x => answer [x]
    | _ => refuse (.typeMismatch f.name "u8")
  | .u16 =>
    match v with
    | .u16 x => answer (beBytes 2 x.toNat)
    | _ => refuse (.typeMismatch f.name "u16")
  | .u32 =>
    match v with
    | .u32 x => answer (beBytes 4 x.toNat)
    | _ => refuse (.typeMismatch f.name "u32")
  | .u64 =>
    match v with
    | .u64 x => answer (beBytes 8 x.toNat)
    | _ => refuse (.typeMismatch f.name "u64")
  | .str => refuse (.typeMismatch f.name "Str (framed as UTF-8)")
  | .vector _ => refuse (.typeMismatch f.name
      "a Vector frame — the dynamic codec does not build element frames yet")

/-- The value part of a cold frame: a text goes in as it is. -/
def coldValue (f : FieldSchema) (v : Value) : Codec Bytes :=
  match v with
  | .str s => answer (strBytes s)
  | other => coldFrameBytes f other

/-- One cold frame. -/
def encodeCold (values : ValueMap) (buf : Bytes) (f : FieldSchema) : Codec Bytes :=
  Guarded.lift (fieldPair f.name f.ty values) >>= fun v =>
    match f.tag with
    | none => refuse (.coldFieldWithoutTag f.name)
    | some tag =>
      coldValue f v >>= fun bytes =>
        putLenBytes bytes.length >>= fun len => answer (buf ++ tag :: (len ++ bytes))

/-- `encode_payload`: header, hot segment, cold frames. -/
def encodePayload (schema : ExportedSchema) (values : ValueMap) : Codec Bytes :=
  schema.hotFields.foldlM (encodeField values) [] >>= fun hot =>
    if hot.length ≠ schema.hotWidth then
      refuse (.truncated "<hot segment>" schema.hotWidth hot.length)
    else
      schema.coldFields.foldlM (encodeCold values)
        (schema.layoutVersion :: (beBytes 2 hot.length ++ hot))

/-- The first field of a name: key, hot, cold. -/
def findField (schema : CollectionSchema) (name : String) : Option FieldSchema :=
  schema.fields.find? fun f => f.name = name

/-- One name of `encode_fields`: a field of no width goes in as raw text. -/
def encodeNamed (schema : CollectionSchema) (values : ValueMap) (buf : Bytes) (name : String) :
    Codec Bytes :=
  match findField schema name with
  | none => refuse (.unknownField name)
  | some f =>
    if f.width = 0 then
      Guarded.lift (fieldPair f.name f.ty values) >>= fun v =>
        match v with
        | .str s => answer (buf ++ strBytes s)
        | _ => refuse (.typeMismatch f.name "variable-width (Str)")
    else encodeField values buf f

/-- `encode_fields`: the named fields in the caller's order. -/
def encodeFields (schema : CollectionSchema) (names : List String) (values : ValueMap) :
    Codec Bytes :=
  names.foldlM (encodeNamed schema values) []

end Okm.Dynamic
