import Okm.Lib.Avro
import Okm.Model.Slot

/-!
# Iceberg manifests

The model of `bridge/iceberg.rs`: the Avro types of the two manifest files, the JSON they are
spelled in, the rows pushed byte by byte, and the container file around them.

The rows know nothing of the types. That they agree is checked here against the reader of
`Okm.Lib.Avro`, which knows nothing else: it is given the type tree and the bytes.
-/

namespace Okm.Bridge

open Lib Model

/-! ## Types -/

mutual

/-- An Avro type of the manifest schemas. -/
inductive Avro where
  | int
  | long
  | bool
  | str
  | bytes
  | opt (inner : Avro)
  | record (name : String) (fields : List AvroField)
  | array (elementId : Int64) (items : Avro)
  | mapArray (elementId : Int64) (items : Avro)

inductive AvroField where
  | mk (name : String) (fieldId : Int64) (ty : Avro)

end

def field (name : String) (fieldId : Int64) (ty : Avro) : AvroField := .mk name fieldId ty

/-- `avro_map`: an optional array of records of a key and a value. -/
def avroMap (name : String) (fieldId keyId valueId : Int64) (value : Avro) (record : String) :
    AvroField :=
  field name fieldId (.opt (.mapArray fieldId
    (.record record [field "key" keyId .int, field "value" valueId value])))

def Avro.isOpt : Avro → Bool
  | .opt _ => true
  | _ => false

mutual

/-- The schema as it stands in a file's header. -/
def Avro.json : Avro → String
  | .int => "\"int\""
  | .long => "\"long\""
  | .bool => "\"boolean\""
  | .str => "\"string\""
  | .bytes => "\"bytes\""
  | .opt inner => "[\"null\"," ++ inner.json ++ "]"
  | .record name fields =>
    "\x7b\"type\":\"record\",\"name\":\"" ++ name ++ "\",\"fields\":[" ++ fieldsJson true fields ++ "]\x7d"
  | .array elementId items =>
    "\x7b\"type\":\"array\",\"element-id\":" ++ toString elementId ++ ",\"items\":" ++ items.json ++ "\x7d"
  | .mapArray elementId items =>
    "\x7b\"type\":\"array\",\"element-id\":" ++ toString elementId ++ ",\"items\":" ++ items.json
      ++ ",\"logicalType\":\"map\"\x7d"

/-- The loop over the fields of a record, with a comma before all but the first. -/
def fieldsJson (first : Bool) : List AvroField → String
  | [] => ""
  | f :: fields => (if first then "" else ",") ++ f.json ++ fieldsJson false fields

def AvroField.json : AvroField → String
  | .mk name fieldId ty =>
    "\x7b\"name\":\"" ++ name ++ "\",\"field-id\":" ++ toString fieldId ++ ",\"type\":" ++ ty.json
      ++ (if ty.isOpt then ",\"default\":null" else "") ++ "\x7d"

end

mutual

/-- What a reader takes from a type: a map is an array of records to it. -/
def Avro.schema : Avro → Avro.Schema
  | .int => .int
  | .long => .long
  | .bool => .bool
  | .str => .str
  | .bytes => .bytes
  | .opt inner => .opt inner.schema
  | .record _ fields => .record (schemas fields)
  | .array _ items => .array items.schema
  | .mapArray _ items => .array items.schema

def schemas : List AvroField → Avro.Fields
  | [] => .nil
  | .mk name _ ty :: fields => .cons name ty.schema (schemas fields)

end

/-- `manifest_schema`. -/
def manifestSchema : Avro :=
  .record "manifest_entry" [
    field "status" 0 .int,
    field "snapshot_id" 1 (.opt .long),
    field "sequence_number" 3 (.opt .long),
    field "file_sequence_number" 4 (.opt .long),
    field "data_file" 2 (.record "r2" [
      field "content" 134 .int,
      field "file_path" 100 .str,
      field "file_format" 101 .str,
      field "partition" 102 (.record "r102" []),
      field "record_count" 103 .long,
      field "file_size_in_bytes" 104 .long,
      avroMap "column_sizes" 108 117 118 .long "k117_v118",
      avroMap "value_counts" 109 119 120 .long "k119_v120",
      avroMap "null_value_counts" 110 121 122 .long "k121_v122",
      avroMap "nan_value_counts" 137 138 139 .long "k138_v139",
      avroMap "lower_bounds" 125 126 127 .bytes "k126_v127",
      avroMap "upper_bounds" 128 129 130 .bytes "k129_v130",
      field "key_metadata" 131 (.opt .bytes),
      field "split_offsets" 132 (.opt (.array 133 .long)),
      field "equality_ids" 135 (.opt (.array 136 .long)),
      field "sort_order_id" 140 (.opt .int)])]

/-- `manifest_list_schema`. -/
def manifestListSchema : Avro :=
  .record "manifest_file" [
    field "manifest_path" 500 .str,
    field "manifest_length" 501 .long,
    field "partition_spec_id" 502 .int,
    field "content" 517 .int,
    field "sequence_number" 515 .long,
    field "min_sequence_number" 516 .long,
    field "added_snapshot_id" 503 .long,
    field "added_files_count" 504 .int,
    field "existing_files_count" 505 .int,
    field "deleted_files_count" 506 .int,
    field "added_rows_count" 512 .long,
    field "existing_rows_count" 513 .long,
    field "deleted_rows_count" 514 .long,
    field "partitions" 507 (.opt (.array 508 (.record "r508" [
      field "contains_null" 509 .bool,
      field "contains_nan" 518 (.opt .bool),
      field "lower_bound" 510 (.opt .bytes),
      field "upper_bound" 511 (.opt .bytes)]))),
    field "key_metadata" 519 (.opt .bytes)]

/-! ## Bytes -/

/-- The loop of `zigzag`. -/
def zigzagGroups (n : UInt64) : Bytes :=
  if 0x80 ≤ n then (n.toUInt8 ||| 0x80) :: zigzagGroups (n >>> 7) else [n.toUInt8]
termination_by n.toNat
decreasing_by
  have hge : 128 ≤ n.toNat := UInt64.le_iff_toNat_le.mp ‹0x80 ≤ n›
  rw [toNat_shiftRight_seven]
  omega

/-- `zigzag`. -/
def zigzag (n : Int64) : Bytes := zigzagGroups ((n <<< 1) ^^^ (n >>> 63)).toUInt64

def putStr (s : String) : Bytes := zigzag (Int64.ofNat (strBytes s).length) ++ strBytes s

def putBytes (b : Bytes) : Bytes := zigzag (Int64.ofNat b.length) ++ b

/-- One manifest row. -/
structure ManifestEntry where
  status : Int32
  snapshotId : Int64
  sequenceNumber : Int64
  filePath : String
  fileSize : Int64
  recordCount : Int64

/-- `ManifestEntry::encode`, behind what `out` holds. -/
def ManifestEntry.encode (e : ManifestEntry) (out : Bytes) : Bytes :=
  let out := out ++ zigzag e.status.toInt64
  let out := out ++ zigzag 1 ++ zigzag e.snapshotId
  let out := out ++ zigzag 1 ++ zigzag e.sequenceNumber
  let out := out ++ zigzag 1 ++ zigzag e.sequenceNumber
  let out := out ++ zigzag 0
  let out := out ++ putStr e.filePath
  let out := out ++ putStr "PARQUET"
  let out := out ++ zigzag e.recordCount
  let out := out ++ zigzag e.fileSize
  -- the six maps
  let out := (List.range 6).foldl (fun out _ => out ++ zigzag 0) out
  -- key_metadata, split_offsets, equality_ids, sort_order_id
  out ++ zigzag 0 ++ zigzag 0 ++ zigzag 0 ++ zigzag 0

def syncMarker : Bytes := strBytes "okm-iceberg-sync"

/-- What `write_ocf` puts into the file. -/
def writeOcf (schema : Avro) (body : Bytes) (rows : Nat) : Bytes :=
  let out := [0x4F, 0x62, 0x6A, 0x01] ++ zigzag 2
  let out := out ++ putStr "avro.schema" ++ putBytes (strBytes schema.json)
  let out := out ++ putStr "avro.codec" ++ putBytes (strBytes "null")
  let out := out ++ zigzag 0
  let out := out ++ syncMarker
  let out := out ++ zigzag (Int64.ofNat rows)
  let out := out ++ zigzag (Int64.ofNat body.length)
  out ++ body ++ syncMarker

/-- The sum of the files' row counts, each taken for an `i64`. A build with overflow checks stops
where it does not fit. -/
def sumRows (checked : Bool) : Int64 → List UInt64 → Except Panic Int64
  | sum, [] => .ok sum
  | sum, n :: ns =>
    if checked ∧ (sum + n.toInt64).toInt ≠ sum.toInt + n.toInt64.toInt then .error .overflow
    else sumRows checked (sum + n.toInt64) ns

/-- What the row of the manifest list is made of. -/
structure ManifestList where
  manifestPath : String
  manifestLen : Int64
  sequence : Int64
  snapshotId : Int64
  dataFiles : List UInt64

/-- The row, as `write_with_columns` pushes it. -/
def ManifestList.encode (m : ManifestList) (rows : Int64) : Bytes :=
  let list := putStr m.manifestPath
  let list := list ++ zigzag m.manifestLen
  let list := list ++ zigzag 0 ++ zigzag 0
  let list := list ++ zigzag m.sequence ++ zigzag m.sequence
  let list := list ++ zigzag m.snapshotId
  let list := list ++ zigzag (Int64.ofNat m.dataFiles.length)
  let list := list ++ zigzag 0 ++ zigzag 0
  let list := list ++ zigzag rows
  let list := list ++ zigzag 0 ++ zigzag 0
  -- partitions, key_metadata
  list ++ zigzag 0 ++ zigzag 0

/-- The manifest, as `write_with_columns` fills it. -/
def manifestFile (entries : List ManifestEntry) : Bytes :=
  writeOcf manifestSchema (entries.foldl (fun body e => e.encode body) []) entries.length

/-- The manifest list, with the sum that was made. -/
def ManifestList.file (m : ManifestList) (rows : Int64) : Bytes :=
  writeOcf manifestListSchema (m.encode rows) 1

/-! ## Numbers -/

theorem zigzagGroups_eq (n : UInt64) : zigzagGroups n = putGroups n.toNat := by
  induction n using zigzagGroups.induct with
  | case1 n h ih =>
    have hge : 128 ≤ n.toNat := UInt64.le_iff_toNat_le.mp h
    have hbyte : n.toUInt8 ||| 0x80 = UInt8.ofNat (n.toNat % 128 + 128) := by
      apply UInt8.toNat_inj.mp
      rw [toNat_or_topBit, UInt64.toNat_toUInt8, UInt8.toNat_ofNat']
      omega
    have hgroups : putGroups n.toNat
        = UInt8.ofNat (n.toNat % 128 + 128) :: putGroups (n.toNat / 128) := by
      rw [putGroups, if_neg (by omega)]
    rw [zigzagGroups, if_pos h, ih, toNat_shiftRight_seven, hbyte, hgroups]
  | case2 n h =>
    have hlt : n.toNat < 128 := by
      have hnot : ¬ 128 ≤ n.toNat := fun hge => h (UInt64.le_iff_toNat_le.mpr hge)
      omega
    rw [zigzagGroups, if_neg h, putGroups, if_pos hlt]
    rfl

/-- The shifts and the loop write what a reader takes for the number. -/
theorem zigzag_eq (n : Int64) : zigzag n = Avro.putLong n.toInt := by
  rw [zigzag, zigzagGroups_eq, toNat_zigzagWord]
  rfl

theorem reads_zigzag (n : Int64) : Reads Avro.readLong (zigzag n) n.toInt := by
  have hlo := n.le_toInt
  have hhi := n.toInt_lt
  rw [zigzag_eq]
  exact Avro.reads_long (by omega) (by omega)

theorem zigzag_injective : Function.Injective zigzag := by
  intro m n h
  have hm := reads_zigzag m []
  rw [h, reads_zigzag n []] at hm
  exact (Int64.toInt_inj.mp (Prod.mk.inj (Option.some.inj hm)).1).symm

theorem zigzag_ofNat {n : Nat} (h : n < 2 ^ 63) : zigzag (Int64.ofNat n) = Avro.putLong n := by
  rw [zigzag_eq, Int64.toInt_ofNat_of_lt h]

theorem putBytes_eq {b : Bytes} (h : b.length < 2 ^ 63) : putBytes b = Avro.putBytes b := by
  rw [putBytes, zigzag_ofNat h]
  rfl

theorem putStr_eq {s : String} (h : (strBytes s).length < 2 ^ 63) :
    putStr s = Avro.putBytes (strBytes s) :=
  putBytes_eq h

/-! ## Columns -/

theorem reads_status (n : Int32) : Reads (Avro.decode .int) (zigzag n.toInt64) (.int n.toInt) := by
  have hlo := n.le_toInt
  have hhi := n.toInt_lt
  have hread : Reads Avro.readInt (Avro.putLong n.toInt) n.toInt :=
    Avro.reads_int (by omega) (by omega)
  rw [zigzag_eq, Int32.toInt_toInt64]
  exact Avro.decode_int hread

theorem reads_zero : Reads (Avro.decode .int) (zigzag 0) (.int 0) :=
  reads_status 0

theorem reads_number (n : Int64) : Reads (Avro.decode .long) (zigzag n) (.long n.toInt) :=
  Avro.decode_long (reads_zigzag n)

theorem reads_text {s : String} (h : (strBytes s).length < 2 ^ 63) :
    Reads (Avro.decode .str) (putStr s) (.str s) := by
  rw [putStr_eq h]
  exact Avro.decode_str (Avro.reads_str h (strOfBytes_strBytes s))

theorem reads_absent {type : Avro.Schema} : Reads (Avro.decode (.opt type)) (zigzag 0) .null := by
  rw [zigzag_eq]
  exact Avro.decode_absent

theorem reads_present (n : Int64) :
    Reads (Avro.decode (.opt .long)) (zigzag 1 ++ zigzag n) (.long n.toInt) := by
  rw [zigzag_eq 1]
  exact Avro.decode_present (reads_number n)

/-! ## Manifest rows -/

/-- The row as the schema names it: everything optional is absent but the numbers of the
snapshot and of its place in the order. -/
def ManifestEntry.value (e : ManifestEntry) : Avro.Value :=
  .record [
    ("status", .int e.status.toInt),
    ("snapshot_id", .long e.snapshotId.toInt),
    ("sequence_number", .long e.sequenceNumber.toInt),
    ("file_sequence_number", .long e.sequenceNumber.toInt),
    ("data_file", .record [
      ("content", .int 0),
      ("file_path", .str e.filePath),
      ("file_format", .str "PARQUET"),
      ("partition", .record []),
      ("record_count", .long e.recordCount.toInt),
      ("file_size_in_bytes", .long e.fileSize.toInt),
      ("column_sizes", .null),
      ("value_counts", .null),
      ("null_value_counts", .null),
      ("nan_value_counts", .null),
      ("lower_bounds", .null),
      ("upper_bounds", .null),
      ("key_metadata", .null),
      ("split_offsets", .null),
      ("equality_ids", .null),
      ("sort_order_id", .null)])]

/-- The pushes, one behind the other. -/
theorem ManifestEntry.encode_eq (e : ManifestEntry) (out : Bytes) :
    e.encode out = out ++ (zigzag e.status.toInt64 ++ ((zigzag 1 ++ zigzag e.snapshotId)
      ++ ((zigzag 1 ++ zigzag e.sequenceNumber) ++ ((zigzag 1 ++ zigzag e.sequenceNumber)
      ++ (zigzag 0 ++ (putStr e.filePath ++ (putStr "PARQUET" ++ (zigzag e.recordCount
      ++ (zigzag e.fileSize ++ (zigzag 0 ++ (zigzag 0 ++ (zigzag 0 ++ (zigzag 0 ++ (zigzag 0
      ++ (zigzag 0 ++ (zigzag 0 ++ (zigzag 0 ++ (zigzag 0 ++ zigzag 0)))))))))))))))))) := by
  have hsix : List.range 6 = [0, 1, 2, 3, 4, 5] := rfl
  simp only [ManifestEntry.encode, hsix, List.foldl_cons, List.foldl_nil, List.append_assoc]

/-- **A row is read as what it is of**, column by column. -/
theorem ManifestEntry.reads (e : ManifestEntry) (h : (strBytes e.filePath).length < 2 ^ 63) :
    Reads (Avro.decode manifestSchema.schema) (e.encode []) e.value := by
  rw [e.encode_eq, List.nil_append]
  simp only [manifestSchema, field, avroMap, Avro.schema, schemas]
  refine Avro.decode_record ?_
  refine Avro.decodeFields_cons (reads_status e.status) ?_
  refine Avro.decodeFields_cons (reads_present e.snapshotId) ?_
  refine Avro.decodeFields_cons (reads_present e.sequenceNumber) ?_
  refine Avro.decodeFields_cons (reads_present e.sequenceNumber) ?_
  refine Avro.decodeFields_last (Avro.decode_record ?_)
  refine Avro.decodeFields_cons reads_zero ?_
  refine Avro.decodeFields_cons (reads_text h) ?_
  refine Avro.decodeFields_cons (reads_text (by decide +kernel)) ?_
  refine Avro.decodeFields_skip Avro.decode_empty ?_
  refine Avro.decodeFields_cons (reads_number e.recordCount) ?_
  refine Avro.decodeFields_cons (reads_number e.fileSize) ?_
  refine Avro.decodeFields_cons reads_absent ?_
  refine Avro.decodeFields_cons reads_absent ?_
  refine Avro.decodeFields_cons reads_absent ?_
  refine Avro.decodeFields_cons reads_absent ?_
  refine Avro.decodeFields_cons reads_absent ?_
  refine Avro.decodeFields_cons reads_absent ?_
  refine Avro.decodeFields_cons reads_absent ?_
  refine Avro.decodeFields_cons reads_absent ?_
  refine Avro.decodeFields_cons reads_absent ?_
  exact Avro.decodeFields_last reads_absent

/-! ## Files -/

/-- What the header says of a file. -/
def headerOf (schema : Avro) : List (String × Bytes) :=
  [("avro.schema", strBytes schema.json), ("avro.codec", strBytes "null")]

theorem length_syncMarker : syncMarker.length = 16 := by decide +kernel

theorem lengths_writeOcf (schema : Avro) (body : Bytes) (rows : Nat) :
    (strBytes schema.json).length + body.length ≤ (writeOcf schema body rows).length := by
  simp only [writeOcf, putBytes, List.length_append]
  omega

theorem length_label {s : String} (h : s ∈ ["avro.schema", "avro.codec", "null"]) :
    (strBytes s).length < 2 ^ 63 := by
  have hall : ∀ s ∈ ["avro.schema", "avro.codec", "null"], (strBytes s).length < 2 ^ 63 := by
    decide +kernel
  exact hall s h

theorem stored_headerOf (schema : Avro) : Avro.stored (headerOf schema) = true := by
  have hnull : strBytes "null" = [0x6E, 0x75, 0x6C, 0x6C] := by decide +kernel
  simp [Avro.stored, headerOf, hnull]

/-- **The pushed file is a container file** of one block. -/
theorem writeOcf_eq {schema : Avro} {body : Bytes} {rows : Nat}
    (h : (writeOcf schema body rows).length < 2 ^ 63) (hrows : rows < 2 ^ 63) :
    writeOcf schema body rows
      = Avro.putFile strBytes (headerOf schema) syncMarker body rows := by
  have hlengths := lengths_writeOcf schema body rows
  have hpairs : zigzag 2 = Avro.putLong ((headerOf schema).length : Nat) := zigzag_ofNat (by decide)
  have hend : zigzag 0 = Avro.putLong 0 := zigzag_eq 0
  have hschema : putStr "avro.schema" = _ := putStr_eq (length_label (by simp))
  have hcodec : putStr "avro.codec" = _ := putStr_eq (length_label (by simp))
  have hnull : putBytes (strBytes "null") = _ := putBytes_eq (length_label (by simp))
  have hbody : Avro.putBytes body = Avro.putLong body.length ++ body := rfl
  rw [writeOcf, hpairs, hend, hschema, hcodec, hnull, putBytes_eq (by omega), zigzag_ofNat hrows,
    zigzag_ofNat (by omega)]
  simp only [Avro.putFile, Avro.putPairs, headerOf, List.flatMap_cons, List.flatMap_nil,
    List.append_assoc, hbody]
  rw [List.nil_append]
  rfl

/-- **A reader takes the pushed file apart**: the header, and the rows the block holds. -/
theorem readFile_writeOcf {schema : Avro} {body : Bytes} {rows : Nat}
    (h : (writeOcf schema body rows).length < 2 ^ 63) (hrows : rows < 2 ^ 63)
    (type : Avro.Schema) :
    Avro.readFile type (writeOcf schema body rows)
      = (Avro.readBlock type rows body).map fun values => ⟨headerOf schema, values⟩ := by
  have hlengths := lengths_writeOcf schema body rows
  have hlen : ∀ p ∈ headerOf schema, (strBytes p.1).length < 2 ^ 63 ∧ p.2.length < 2 ^ 63 := by
    intro p hp
    rcases List.mem_cons.mp hp with rfl | hp
    · exact ⟨length_label (by simp), by dsimp only; omega⟩
    · obtain rfl := List.mem_singleton.mp hp
      exact ⟨length_label (by simp), length_label (by simp)⟩
  have hpairs : (headerOf schema).length < 2 ^ 63 := by
    simp only [headerOf, List.length_cons, List.length_nil]
    omega
  rw [writeOcf_eq h hrows]
  exact Avro.readFile_putFile strOfBytes_strBytes hlen (List.cons_ne_nil _ _) hpairs (stored_headerOf schema)
    length_syncMarker (by omega) hrows

/-- The rows of a manifest, and the file in a buffer. -/
structure Manifest where
  entries : List ManifestEntry
  held : (manifestFile entries).length < 2 ^ 63

/-- What a manifest says. -/
def Manifest.content (m : Manifest) : Avro.File :=
  ⟨headerOf manifestSchema, m.entries.map ManifestEntry.value⟩

theorem foldl_encode (entries : List ManifestEntry) (body : Bytes) :
    entries.foldl (fun body e => e.encode body) body
      = body ++ entries.flatMap fun e => e.encode [] := by
  induction entries generalizing body with
  | nil => exact (List.append_nil body).symm
  | cons e entries ih =>
    rw [List.foldl_cons, ih, List.flatMap_cons, e.encode_eq body, e.encode_eq [], List.nil_append,
      List.append_assoc]

theorem ManifestEntry.length_encode (e : ManifestEntry) :
    1 + (strBytes e.filePath).length ≤ (e.encode []).length := by
  have hpos : 1 ≤ (zigzag e.status.toInt64).length := by
    rw [zigzag_eq]
    exact List.length_pos_iff.mpr (Avro.putLong_ne_nil _)
  rw [e.encode_eq]
  simp only [putStr, List.length_append]
  omega

/-- **A manifest is read as its rows**, whole. -/
theorem Manifest.readFile (m : Manifest) :
    Avro.readFile manifestSchema.schema (manifestFile m.entries) = some m.content := by
  have hheld := m.held
  rw [manifestFile, foldl_encode, List.nil_append] at hheld ⊢
  have hlengths := lengths_writeOcf manifestSchema (m.entries.flatMap fun e => e.encode [])
    m.entries.length
  have hpath : ∀ e ∈ m.entries, (strBytes e.filePath).length < 2 ^ 63 := by
    intro e he
    have hle : (e.encode []).length ≤ (m.entries.flatMap fun e => e.encode []).length := by
      obtain ⟨front, back, hsplit⟩ := List.append_of_mem he
      rw [hsplit, List.flatMap_append, List.flatMap_cons]
      simp only [List.length_append]
      omega
    have hencode := e.length_encode
    omega
  have hcount : m.entries.length ≤ (m.entries.flatMap fun e => e.encode []).length :=
    length_le_flatMap fun e _ hnil => by
      have hencode := e.length_encode
      rw [hnil, List.length_nil] at hencode
      omega
  rw [readFile_writeOcf hheld (by omega), Avro.readBlock_flatMap fun e he => e.reads (hpath e he)]
  rfl

/-! ## The row of the manifest list -/

/-- The row as the schema names it. -/
def ManifestList.value (m : ManifestList) (rows : Int64) : Avro.Value :=
  .record [
    ("manifest_path", .str m.manifestPath),
    ("manifest_length", .long m.manifestLen.toInt),
    ("partition_spec_id", .int 0),
    ("content", .int 0),
    ("sequence_number", .long m.sequence.toInt),
    ("min_sequence_number", .long m.sequence.toInt),
    ("added_snapshot_id", .long m.snapshotId.toInt),
    ("added_files_count", .int m.dataFiles.length),
    ("existing_files_count", .int 0),
    ("deleted_files_count", .int 0),
    ("added_rows_count", .long rows.toInt),
    ("existing_rows_count", .long 0),
    ("deleted_rows_count", .long 0),
    ("partitions", .null),
    ("key_metadata", .null)]

/-- The pushes, one behind the other. -/
theorem ManifestList.encode_eq (m : ManifestList) (rows : Int64) :
    m.encode rows = putStr m.manifestPath ++ (zigzag m.manifestLen ++ (zigzag 0 ++ (zigzag 0
      ++ (zigzag m.sequence ++ (zigzag m.sequence ++ (zigzag m.snapshotId
      ++ (zigzag (Int64.ofNat m.dataFiles.length) ++ (zigzag 0 ++ (zigzag 0 ++ (zigzag rows
      ++ (zigzag 0 ++ (zigzag 0 ++ (zigzag 0 ++ zigzag 0))))))))))))) := by
  simp only [ManifestList.encode, List.append_assoc]

/-- A count of files, where an `int` can hold it. -/
theorem reads_count {n : Nat} (h : n < 2 ^ 31) :
    Reads (Avro.decode .int) (zigzag (Int64.ofNat n)) (.int n) := by
  rw [zigzag_ofNat (by omega)]
  exact Avro.decode_int (Avro.reads_int (by omega) (by omega))

theorem refuses_count {n : Nat} (h : 2 ^ 31 ≤ n) (hlt : n < 2 ^ 63) (bs : Bytes) :
    Avro.decode .int (zigzag (Int64.ofNat n) ++ bs) = none := by
  have hread := Avro.readInt_putLong (n := n) (by omega) (by omega) bs
  rw [if_neg (by omega)] at hread
  rw [Avro.decode_int_eq, zigzag_ofNat hlt, hread]
  rfl

theorem ManifestList.reads (m : ManifestList) (rows : Int64)
    (hpath : (strBytes m.manifestPath).length < 2 ^ 63) (hfiles : m.dataFiles.length < 2 ^ 31) :
    Reads (Avro.decode manifestListSchema.schema) (m.encode rows) (m.value rows) := by
  rw [m.encode_eq]
  simp only [manifestListSchema, field, Avro.schema, schemas]
  refine Avro.decode_record ?_
  refine Avro.decodeFields_cons (reads_text hpath) ?_
  refine Avro.decodeFields_cons (reads_number m.manifestLen) ?_
  refine Avro.decodeFields_cons reads_zero ?_
  refine Avro.decodeFields_cons reads_zero ?_
  refine Avro.decodeFields_cons (reads_number m.sequence) ?_
  refine Avro.decodeFields_cons (reads_number m.sequence) ?_
  refine Avro.decodeFields_cons (reads_number m.snapshotId) ?_
  refine Avro.decodeFields_cons (reads_count hfiles) ?_
  refine Avro.decodeFields_cons reads_zero ?_
  refine Avro.decodeFields_cons reads_zero ?_
  refine Avro.decodeFields_cons (reads_number rows) ?_
  refine Avro.decodeFields_cons (reads_number 0) ?_
  refine Avro.decodeFields_cons (reads_number 0) ?_
  refine Avro.decodeFields_cons reads_absent ?_
  exact Avro.decodeFields_last reads_absent

/-- **A count that is no `int` makes the row unreadable**: the seven columns before it are
read, and it is refused. -/
theorem ManifestList.refused (m : ManifestList) (rows : Int64)
    (hpath : (strBytes m.manifestPath).length < 2 ^ 63) (hfiles : 2 ^ 31 ≤ m.dataFiles.length)
    (hlt : m.dataFiles.length < 2 ^ 63) :
    Avro.decode manifestListSchema.schema (m.encode rows) = none := by
  rw [m.encode_eq]
  simp only [manifestListSchema, field, Avro.schema, schemas]
  refine Avro.decode_record_refused ?_
  refine Avro.decodeFields_refused_later (reads_text hpath) ?_
  refine Avro.decodeFields_refused_later (reads_number m.manifestLen) ?_
  refine Avro.decodeFields_refused_later reads_zero ?_
  refine Avro.decodeFields_refused_later reads_zero ?_
  refine Avro.decodeFields_refused_later (reads_number m.sequence) ?_
  refine Avro.decodeFields_refused_later (reads_number m.sequence) ?_
  refine Avro.decodeFields_refused_later (reads_number m.snapshotId) ?_
  exact Avro.decodeFields_refused (refuses_count hfiles hlt _)

/-- A list whose files a vector holds, in a buffer. -/
structure HeldList extends ManifestList where
  held : ∀ rows, (toManifestList.file rows).length < 2 ^ 63
  files : dataFiles.length < 2 ^ 63

/-- The list is written, and a reader takes the file for its one row. -/
def ManifestList.Agrees (m : ManifestList) (checked : Bool) : Prop :=
  ∃ rows, sumRows checked 0 m.dataFiles = .ok rows ∧
    Avro.readFile manifestListSchema.schema (m.file rows)
      = some ⟨headerOf manifestListSchema, [m.value rows]⟩

/-- What the row counts of the first `k` files come to. -/
def rowsOfFirst (k : Nat) (dataFiles : List UInt64) : Int :=
  ((dataFiles.take k).map fun n => n.toInt64.toInt).sum

/-- The running sum fits, where it is checked. -/
def Summable (checked : Bool) (dataFiles : List UInt64) : Prop :=
  checked = true → ∀ k, -2 ^ 63 ≤ rowsOfFirst k dataFiles ∧ rowsOfFirst k dataFiles < 2 ^ 63

theorem rowsOfFirst_succ (k : Nat) (n : UInt64) (ns : List UInt64) :
    rowsOfFirst (k + 1) (n :: ns) = n.toInt64.toInt + rowsOfFirst k ns := by
  rw [rowsOfFirst, List.take_succ_cons, List.map_cons, List.sum_cons]
  rfl

theorem toInt_add_eq_iff (a b : Int64) :
    (a + b).toInt = a.toInt + b.toInt ↔ -2 ^ 63 ≤ a.toInt + b.toInt ∧ a.toInt + b.toInt < 2 ^ 63 := by
  have hlo := (a + b).le_toInt
  have hhi := (a + b).toInt_lt
  constructor
  · intro h
    omega
  · intro h
    rw [Int64.toInt_add, Int.bmod_eq_of_le (by omega) (by omega)]

theorem sumRows_true_iff (sum : Int64) (ns : List UInt64) :
    (∃ rows, sumRows true sum ns = .ok rows) ↔
      ∀ k, -2 ^ 63 ≤ sum.toInt + rowsOfFirst k ns ∧ sum.toInt + rowsOfFirst k ns < 2 ^ 63 := by
  induction ns generalizing sum with
  | nil =>
    have hlo := sum.le_toInt
    have hhi := sum.toInt_lt
    have hzero : ∀ k, rowsOfFirst k [] = 0 := fun k => by
      rw [rowsOfFirst, List.take_nil]
      rfl
    constructor
    · intro _ k
      rw [hzero]
      omega
    · exact fun _ => ⟨sum, rfl⟩
  | cons n ns ih =>
    have hstep := toInt_add_eq_iff sum n.toInt64
    unfold sumRows
    split
    · rename_i h
      constructor
      · intro hok
        obtain ⟨rows, hok⟩ := hok
        cases hok
      · intro hall
        -- the first sum is already out of range
        have hone := hall 1
        rw [rowsOfFirst_succ, rowsOfFirst, List.take_zero, List.map_nil, List.sum_nil] at hone
        exact absurd (hstep.mpr (by omega)) h.2
    · rename_i h
      -- it is not, and the others begin from it
      have hsum : (sum + n.toInt64).toInt = sum.toInt + n.toInt64.toInt := by
        by_contra hne
        exact h ⟨rfl, hne⟩
      refine (ih (sum + n.toInt64)).trans ?_
      rw [hsum]
      constructor
      · intro hall k
        cases k with
        | zero =>
          have hlo := sum.le_toInt
          have hhi := sum.toInt_lt
          rw [rowsOfFirst, List.take_zero, List.map_nil, List.sum_nil]
          omega
        | succ k =>
          rw [rowsOfFirst_succ, ← Int.add_assoc]
          exact hall k
      · intro hall k
        have hk := hall (k + 1)
        rwa [rowsOfFirst_succ, ← Int.add_assoc] at hk

theorem sumRows_false (sum : Int64) (ns : List UInt64) :
    ∃ rows, sumRows false sum ns = .ok rows := by
  induction ns generalizing sum with
  | nil => exact ⟨sum, rfl⟩
  | cons n ns ih =>
    unfold sumRows
    rw [if_neg (by simp)]
    exact ih _

theorem sumRows_iff (checked : Bool) (dataFiles : List UInt64) :
    (∃ rows, sumRows checked 0 dataFiles = .ok rows) ↔ Summable checked dataFiles := by
  cases checked with
  | false =>
    have hunchecked : Summable false dataFiles := fun h => nomatch h
    exact iff_of_true (sumRows_false 0 dataFiles) hunchecked
  | true =>
    rw [sumRows_true_iff]
    have hzero : (0 : Int64).toInt = 0 := rfl
    simp only [hzero, Int.zero_add]
    exact ⟨fun h _ => h, fun h => h rfl⟩

/-- **The list agrees with its schema exactly when its count of files is an `int`.** -/
theorem agrees_iff (checked : Bool) (m : HeldList) :
    m.toManifestList.Agrees checked ↔
      Summable checked m.dataFiles ∧ m.dataFiles.length < 2 ^ 31 := by
  have hpath : (strBytes m.manifestPath).length < 2 ^ 63 := by
    have hheld := m.held 0
    have hlengths := lengths_writeOcf manifestListSchema (m.encode 0) 1
    have hencode : (strBytes m.manifestPath).length ≤ (m.encode 0).length := by
      rw [m.encode_eq, putStr]
      simp only [List.length_append]
      omega
    rw [ManifestList.file] at hheld
    omega
  have hread : ∀ rows, Avro.readFile manifestListSchema.schema (m.file rows)
      = (Avro.readBlock manifestListSchema.schema 1 (m.encode rows)).map fun values =>
        ⟨headerOf manifestListSchema, values⟩ :=
    fun rows => readFile_writeOcf (m.held rows) (by omega) _
  rw [← sumRows_iff]
  constructor
  · intro h
    obtain ⟨rows, hsum, hfile⟩ := h
    refine ⟨⟨rows, hsum⟩, ?_⟩
    by_contra hmany
    have hrefused := m.refused rows hpath (Nat.le_of_not_lt hmany) m.files
    rw [hread, Avro.readBlock_refused hrefused 0] at hfile
    cases hfile
  · intro h
    obtain ⟨⟨rows, hsum⟩, hfew⟩ := h
    refine ⟨rows, hsum, ?_⟩
    have hrow : ∀ x ∈ [rows], Reads (Avro.decode manifestListSchema.schema) (m.encode x) (m.value x) :=
      fun x _ => m.reads x hpath hfew
    have hblock := Avro.readBlock_flatMap hrow
    rw [List.flatMap_singleton, List.length_singleton] at hblock
    rw [hread, hblock]
    rfl

/-- **Manifests agree with the schema they embed**: every manifest is read back as its rows; the
manifest list as its one, as long as its files are counted by an `int`; and the numbers of
both are written so that every one of 64 bits comes back, and no two alike. -/
theorem manifests_agree (checked : Bool) :
    (∀ m : Manifest,
      Avro.readFile manifestSchema.schema (manifestFile m.entries) = some m.content) ∧
    (∀ m : HeldList, m.toManifestList.Agrees checked ↔
      Summable checked m.dataFiles ∧ m.dataFiles.length < 2 ^ 31) ∧
    Function.Injective zigzag ∧ ∀ n : Int64, Reads Avro.readLong (zigzag n) n.toInt :=
  ⟨Manifest.readFile, agrees_iff checked, zigzag_injective, reads_zigzag⟩

/-- One file that was added, and one that is deleted. -/
def twoFiles : Manifest where
  entries := [⟨1, 6000000000000000000, 7, "data/f1.parquet", 4096, 12⟩,
    ⟨2, -1, 7, "data/f0.parquet", 2048, 9223372036854775807⟩]
  held := by decide +kernel

/-- Both rows come back, the negative snapshot and the widest count among them. -/
theorem manifests_agree_twoFiles :
    Avro.readFile manifestSchema.schema (manifestFile twoFiles.entries) = some twoFiles.content ∧
    zigzag (-1) = [1] ∧ Reads Avro.readLong (zigzag (-1)) (-1) := by
  obtain ⟨hfiles, -, -, hnumbers⟩ := manifests_agree true
  exact ⟨hfiles twoFiles, by decide +kernel, hnumbers (-1)⟩

/-- As many files as no `int` counts. -/
def manyFiles : ManifestList where
  manifestPath := "metadata/m0.avro"
  manifestLen := 4096
  sequence := 1
  snapshotId := 6000000000000000000
  dataFiles := List.replicate (2 ^ 31) 0

theorem length_zigzag_le (n : Int64) : (zigzag n).length ≤ 10 := by
  have hlt := ((n <<< 1) ^^^ (n >>> 63)).toUInt64.toNat_lt
  rw [zigzag, zigzagGroups_eq]
  exact length_putGroups_le (by omega)

theorem length_zigzags_le (ns : List Int64) : (ns.flatMap zigzag).length ≤ 10 * ns.length := by
  induction ns with
  | nil => exact Nat.le_refl 0
  | cons n ns ih =>
    have hone := length_zigzag_le n
    rw [List.flatMap_cons, List.length_append, List.length_cons]
    omega

theorem ManifestList.length_encode_le (m : ManifestList) (rows : Int64) :
    (m.encode rows).length ≤ (putStr m.manifestPath).length + 140 := by
  have hnumbers : m.encode rows = putStr m.manifestPath ++ [m.manifestLen, 0, 0, m.sequence,
      m.sequence, m.snapshotId, Int64.ofNat m.dataFiles.length, 0, 0, rows, 0, 0, 0, 0].flatMap
        zigzag := by
    rw [m.encode_eq]
    simp only [List.flatMap_cons, List.flatMap_nil, List.append_nil]
  rw [hnumbers, List.length_append]
  exact Nat.add_le_add_left (length_zigzags_le _) _

theorem length_putBytes_le (b : Bytes) : (putBytes b).length ≤ b.length + 10 := by
  have hlen := length_zigzag_le (Int64.ofNat b.length)
  rw [putBytes, List.length_append]
  omega

theorem length_writeOcf_le (schema : Avro) (body : Bytes) (rows : Nat) :
    (writeOcf schema body rows).length ≤ (strBytes schema.json).length + body.length + 256 := by
  have hlabels : ∀ s ∈ ["avro.schema", "avro.codec", "null"], (strBytes s).length ≤ 16 := by
    decide +kernel
  have hlabel : ∀ s ∈ ["avro.schema", "avro.codec", "null"], (putStr s).length ≤ 26 :=
    fun s hs => (length_putBytes_le _).trans (Nat.add_le_add_right (hlabels s hs) 10)
  have hschema := hlabel "avro.schema" (by simp)
  have hcodec := hlabel "avro.codec" (by simp)
  have hnull : (putBytes (strBytes "null")).length ≤ 26 := hlabel "null" (by simp)
  have hjson := length_putBytes_le (strBytes schema.json)
  have htwo := length_zigzag_le 2
  have hzero := length_zigzag_le 0
  have hrows := length_zigzag_le (Int64.ofNat rows)
  have hbody := length_zigzag_le (Int64.ofNat body.length)
  have hsync := length_syncMarker
  simp only [writeOcf, List.length_append, List.length_cons, List.length_nil]
  omega

theorem not_agrees_manyFiles (checked : Bool) : ¬ manyFiles.Agrees checked := by
  have hheld : ∀ rows, (manyFiles.file rows).length < 2 ^ 63 := by
    intro rows
    have hjson : (strBytes manifestListSchema.json).length < 2048 := by decide +kernel
    have hpath : (strBytes manyFiles.manifestPath).length < 64 := by decide +kernel
    have hput : (putStr manyFiles.manifestPath).length ≤ _ := length_putBytes_le _
    have hbody := manyFiles.length_encode_le rows
    have hfile := length_writeOcf_le manifestListSchema (manyFiles.encode rows) 1
    rw [ManifestList.file]
    omega
  have hlength : manyFiles.dataFiles.length = 2 ^ 31 := List.length_replicate
  intro h
  have hfew := ((agrees_iff checked ⟨manyFiles, hheld, by omega⟩).mp h).2
  change manyFiles.dataFiles.length < 2 ^ 31 at hfew
  omega

theorem manyFiles_refused : ¬ manyFiles.Agrees true ∧ ¬ manyFiles.Agrees false :=
  ⟨not_agrees_manyFiles true, not_agrees_manyFiles false⟩

end Okm.Bridge
