import Okm.Changelog.Segment
import Okm.Dynamic.Columns

/-!
# Windows of a change log

The model of `okm-drain`. A window is the first sealed segments past the watermark, at most so
many. Its rows are the puts of these segments under the primary face, and nothing else is
(`gather_rows`). The file is written first, then the manifest, then the watermark; each of these
writes may fail.
-/

namespace Okm.Drain

open Lib Model Wire Okm.Dynamic
open Guarded (answer refuse)

/-! ## What a drain reads -/

/-- `DrainConfig`. -/
structure DrainConfig where
  maxSegments : Nat

/-- A sealed segment. -/
structure SegmentFile where
  stem : String
  bytes : Bytes
  deriving DecidableEq

/-- The name of its file. -/
def SegmentFile.name (s : SegmentFile) : String := s.stem ++ ".segment"

/-- A table directory: its sidecars and its sealed segments, each in the order of their names. -/
structure TableDir where
  name : String
  sidecars : List CollectionSchema
  segments : List SegmentFile
  sorted : segments.Pairwise fun a b => a.name < b.name

/-- What a failed drain says: its own words, or those of a layer below. -/
inductive DrainError where
  | oddHeader (table : String)
  | notHex (table : String)
  | noSidecar (table : String)
  | sidecar
  | log (e : Error)
  | codec (e : CodecError)
  | columns (e : ColumnError)
  | delete (segment : String) (slot : UInt16)
  | io

abbrev Draining := Guarded Abort DrainError

/-- The number of a hexadecimal digit. -/
def hexDigit (c : UInt8) : Option Nat :=
  if 48 ≤ c.toNat ∧ c.toNat ≤ 57 then some (c.toNat - 48)
  else if 97 ≤ c.toNat ∧ c.toNat ≤ 102 then some (c.toNat - 87)
  else if 65 ≤ c.toNat ∧ c.toNat ≤ 70 then some (c.toNat - 55)
  else none

/-- `u8::from_str_radix` of two characters; the first may be a plus sign. -/
def hexByte (a b : UInt8) : Option UInt8 :=
  match hexDigit b with
  | none => none
  | some low =>
    if a.toNat = 43 then some (UInt8.ofNat low)
    else (hexDigit a).map fun high => UInt8.ofNat (16 * high + low)

def hexBytes : Bytes → Option Bytes
  | a :: b :: rest => do
    let byte ← hexByte a b
    let bytes ← hexBytes rest
    some (byte :: bytes)
  | _ => some []

/-- `header_of`. -/
def headerOf (name : String) : Except DrainError Bytes :=
  if (strBytes name).length % 2 ≠ 0 then .error (.oddHeader name)
  else
    match hexBytes (strBytes name) with
    | none => .error (.notHex name)
    | some header => .ok header

/-- `load_sidecar`: the first one, read back from what was stamped. -/
def loadSidecar (dir : TableDir) : Except DrainError CollectionSchema :=
  match dir.sidecars.head? with
  | none => .error (.noSidecar dir.name)
  | some stamped =>
    match stamped.reread with
    | none => .error .sidecar
    | some schema => .ok schema

/-- `split_slot`. -/
def splitSlot (header key : Bytes) : Option (UInt16 × Bytes) :=
  if header <+: key then
    match key.drop header.length with
    | [] => none
    | first :: rest =>
      if first ≤ 0x0F then some (UInt16.ofNat first.toNat, rest)
      else
        match rest with
        | [] => none
        | second :: rest => some (UInt16.ofNat (first.toNat * 256 + second.toNat), rest)
  else none

/-- `is_id_face`. -/
def isIdFace (schema : CollectionSchema) (slot : UInt16) : Bool :=
  (schema.hotFields ++ schema.coldFields).any fun f => f.ty == .vocab slot

/-! ## Rows of a window -/

/-- What the segments of a window add up to. -/
structure Gathered where
  keys : List Bytes
  rows : List (Option ValueMap)
  labels : Labels
  segmentOnly : Nat

def Gathered.empty : Gathered := ⟨[], [], fun _ _ => none, 0⟩

/-- The label of an id, as the window has it last. -/
def relabel (labels : Labels) (slot : UInt16) (id : Bytes) (name : String) : Labels :=
  fun slot' id' => if slot' = slot ∧ id' = id then some name else labels slot' id'

/-- One op of a segment. -/
def takeOp (header : Bytes) (schema : CollectionSchema) (segment : String) (g : Gathered)
    (op : FrameOp) : Draining Gathered :=
  match splitSlot header op.2.1 with
  | none => answer g
  | some (slot, suffix) =>
    if op.1 = opPut ∧ slot.toNat = primarySlot.val ∧ suffix.length = schema.keyLen then do
      let row ← (decodePayload schema op.2.2).mapRefuse DrainError.codec
      answer { g with keys := g.keys ++ [suffix], rows := g.rows ++ [some row] }
    else if op.1 = opPut ∧ isIdFace schema slot = true then
      match strOfBytes op.2.2 with
      | some name => answer { g with labels := relabel g.labels slot suffix name }
      | none => answer g
    else if op.1 = opPut then answer { g with segmentOnly := g.segmentOnly + 1 }
    -- no column says that a row is gone
    else if op.1 = opDelete then refuse (.delete segment slot)
    else answer g

def takeSegment (header : Bytes) (schema : CollectionSchema) (g : Gathered)
    (segment : SegmentFile) : Draining Gathered := do
  let frames ← Guarded.lift
    ((Changelog.readSealed segment.name segment.bytes).mapError DrainError.log)
  (frames.flatMap OpFrame.ops).foldlM (takeOp header schema segment.name) g

/-- Rows, keys and labels of a window, in the order of the log. -/
def gather (header : Bytes) (schema : CollectionSchema) (segments : List SegmentFile) :
    Draining Gathered :=
  segments.foldlM (takeSegment header schema) Gathered.empty

/-! ## What a drain writes -/

/-- What the files of a window are called after: `{table}-{first}-{last}`. -/
structure WindowName where
  table : String
  first : String
  last : String
  deriving DecidableEq

/-- `WindowManifest`. -/
structure WindowManifest where
  table : String
  layoutVersion : UInt8
  segments : List String
  rows : Nat
  columns : List ArrowField
  file : WindowName

section

variable (arrow : Arrow)

/-- What there is under the output directory for one consumer. -/
structure OutDir where
  files : WindowName → Option arrow.Batch
  manifests : WindowName → Option WindowManifest
  watermark : String

def OutDir.empty : OutDir arrow := ⟨fun _ => none, fun _ => none, ""⟩

variable {arrow}

def OutDir.setFile (out : OutDir arrow) (name : WindowName) (file : Option arrow.Batch) :
    OutDir arrow :=
  { out with files := fun name' => if name' = name then file else out.files name' }

def OutDir.setManifest (out : OutDir arrow) (name : WindowName) (manifest : WindowManifest) :
    OutDir arrow :=
  { out with
    manifests := fun name' => if name' = name then some manifest else out.manifests name' }

variable (arrow) in
/-- Which writes of a drain fail. A file whose write fails is left as anything; the manifest and
the watermark are replaced by rename. -/
structure Weather where
  file : Option (Option arrow.Batch)
  manifest : Bool
  watermark : Bool

/-- `Report`. -/
structure Report where
  tables : Nat
  segments : Nat
  rows : Nat
  segmentOnly : Nat
  files : List WindowName

def Report.empty : Report := ⟨0, 0, 0, 0, []⟩

/-- The segments a drain takes. -/
def window (cfg : DrainConfig) (watermark : String) (segments : List SegmentFile) :
    List SegmentFile :=
  (segments.filter fun s => decide (watermark < s.name)).take (max cfg.maxSegments 1)

def firstStem (segments : List SegmentFile) : String := (segments.head?.map SegmentFile.stem).getD ""

def lastStem (segments : List SegmentFile) : String :=
  (segments.getLast?.map SegmentFile.stem).getD ""

def windowName (table : String) (segments : List SegmentFile) : WindowName :=
  ⟨table, firstStem segments, lastStem segments⟩

def manifestOf (table : String) (schema : CollectionSchema) (segments : List SegmentFile)
    (g : Gathered) (batch : arrow.Batch) : WindowManifest where
  table := table
  layoutVersion := schema.layoutVersion
  segments := segments.map SegmentFile.name
  rows := g.rows.length
  columns := arrow.fields batch
  file := windowName table segments

variable (arrow) in
/-- What a drain has in hand before it writes. -/
inductive Prepared where
  | nothing
  | rowless (segments segmentOnly : Nat)
  | batch (segments : List SegmentFile) (schema : CollectionSchema) (g : Gathered)
      (batch : arrow.Batch)

variable (arrow) in
/-- `drain_table`, up to its first write. -/
def prepare (cfg : DrainConfig) (dir : TableDir) (watermark : String) :
    Draining (Prepared arrow) := do
  let header ← Guarded.lift (headerOf dir.name)
  let schema ← Guarded.lift (loadSidecar dir)
  let segments := window cfg watermark dir.segments
  if segments.isEmpty then answer .nothing
  else do
    let g ← gather header schema segments
    if g.rows.isEmpty then answer (.rowless segments.length g.segmentOnly)
    else do
      let batch ←
        (recordBatch arrow schema g.keys g.rows (some g.labels)).mapRefuse DrainError.columns
      answer (.batch segments schema g batch)

/-- The writes of `drain_table`: the watermark moves once file and manifest are there. -/
def writeWindow (weather : Weather arrow) (table : String) (segments : List SegmentFile)
    (schema : CollectionSchema) (g : Gathered) (batch : arrow.Batch) (report : Report)
    (out : OutDir arrow) : Draining Report × OutDir arrow :=
  let name := windowName table segments
  match weather.file with
  | some left => (refuse .io, out.setFile name left)
  | none =>
    let out := out.setFile name (some batch)
    if weather.manifest then (refuse .io, out)
    else
      let out := out.setManifest name (manifestOf table schema segments g batch)
      if weather.watermark then (refuse .io, out)
      else
        (answer { report with
            segments := report.segments + segments.length
            rows := report.rows + g.rows.length
            segmentOnly := report.segmentOnly + g.segmentOnly
            files := report.files ++ [name] },
          { out with watermark := lastStem segments ++ ".segment" })

/-- `drain_table`. -/
def drainTable (cfg : DrainConfig) (weather : Weather arrow) (dir : TableDir) (report : Report)
    (out : OutDir arrow) : Draining Report × OutDir arrow :=
  let report := { report with tables := report.tables + 1 }
  match prepare arrow cfg dir out.watermark with
  | .refuse e => (.refuse e, out)
  | .abort a => (.abort a, out)
  | .answer .nothing => (answer report, out)
  | .answer (.rowless segments segmentOnly) =>
    -- the watermark stays, for a later window that does have rows
    (answer { report with
        segments := report.segments + segments
        segmentOnly := report.segmentOnly + segmentOnly }, out)
  | .answer (.batch segments schema g batch) =>
    writeWindow weather dir.name segments schema g batch report out

/-- `drain`: every table directory in turn, to the first that fails. -/
def drain (cfg : DrainConfig) (weather : TableDir → Weather arrow) :
    List TableDir → Report → OutDir arrow → Draining Report × OutDir arrow
  | [], report, out => (answer report, out)
  | dir :: dirs, report, out =>
    match drainTable cfg (weather dir) dir report out with
    | (.answer report, out) => drain cfg weather dirs report out
    | (.refuse e, out) => (.refuse e, out)
    | (.abort a, out) => (.abort a, out)

end

/-! ## The rows are the puts -/

/-- The put under the primary face an op is, if it is one: key and payload. -/
def putOf (header : Bytes) (schema : CollectionSchema) (op : FrameOp) : List (Bytes × Bytes) :=
  match splitSlot header op.2.1 with
  | some (slot, suffix) =>
    if op.1 = opPut ∧ slot.toNat = primarySlot.val ∧ suffix.length = schema.keyLen then
      [(suffix, op.2.2)]
    else []
  | none => []

/-- The primary puts of a segment, in the order of the log. -/
def putsOf (header : Bytes) (schema : CollectionSchema) (segment : SegmentFile) :
    List (Bytes × Bytes) :=
  match Changelog.readSealed segment.name segment.bytes with
  | .ok frames => (frames.flatMap OpFrame.ops).flatMap (putOf header schema)
  | .error _ => []

/-- A row is what the codec reads of a put's payload. -/
def Decoded (schema : CollectionSchema) (put : Bytes × Bytes) (row : Option ValueMap) : Prop :=
  ∃ m, row = some m ∧ decodePayload schema put.2 = answer m

/-- The second adds these puts to the first. -/
structure Adds (schema : CollectionSchema) (puts : List (Bytes × Bytes)) (g g' : Gathered) :
    Prop where
  keys : g'.keys = g.keys ++ puts.map Prod.fst
  rows : ∃ rows, g'.rows = g.rows ++ rows ∧ List.Forall₂ (Decoded schema) puts rows

theorem Adds.none {schema : CollectionSchema} {g g' : Gathered} (hkeys : g'.keys = g.keys)
    (hrows : g'.rows = g.rows) : Adds schema [] g g' :=
  ⟨by simp [hkeys], [], by simp [hrows], List.Forall₂.nil⟩

theorem Adds.trans {schema : CollectionSchema} {puts puts' : List (Bytes × Bytes)}
    {g g' g'' : Gathered} (h : Adds schema puts g g') (h' : Adds schema puts' g' g'') :
    Adds schema (puts ++ puts') g g'' := by
  obtain ⟨rows, hrows, hread⟩ := h.rows
  obtain ⟨rows', hrows', hread'⟩ := h'.rows
  refine ⟨?_, rows ++ rows', ?_, List.rel_append hread hread'⟩
  · rw [h'.keys, h.keys, List.map_append, List.append_assoc]
  · rw [hrows', hrows, List.append_assoc]

theorem takeOp_adds {header : Bytes} {schema : CollectionSchema} {segment : String}
    {g g' : Gathered} {op : FrameOp} (h : takeOp header schema segment g op = answer g') :
    Adds schema (putOf header schema op) g g' := by
  unfold takeOp at h
  unfold putOf
  cases hslot : splitSlot header op.2.1 with
  | none =>
    rw [hslot] at h
    injection h with h
    exact h ▸ Adds.none rfl rfl
  | some face =>
    rw [hslot] at h
    dsimp only at h ⊢
    by_cases hput : op.1 = opPut ∧ face.1.toNat = primarySlot.val ∧ face.2.length = schema.keyLen
    · rw [if_pos hput] at h ⊢
      obtain ⟨row, hrow, h⟩ := Guarded.bind_eq_answer.mp h
      injection h with h
      have hread := Guarded.mapRefuse_eq_answer.mp hrow
      exact h ▸ ⟨rfl, [some row], rfl, List.Forall₂.cons ⟨row, rfl, hread⟩ List.Forall₂.nil⟩
    · rw [if_neg hput] at h ⊢
      split at h
      · split at h
        · injection h with h
          exact h ▸ Adds.none rfl rfl
        · injection h with h
          exact h ▸ Adds.none rfl rfl
      · split at h
        · injection h with h
          exact h ▸ Adds.none rfl rfl
        · split at h
          · cases h
          · injection h with h
            exact h ▸ Adds.none rfl rfl

theorem takeSegment_adds {header : Bytes} {schema : CollectionSchema} {g g' : Gathered}
    {segment : SegmentFile} (h : takeSegment header schema g segment = answer g') :
    Adds schema (putsOf header schema segment) g g' := by
  unfold takeSegment at h
  obtain ⟨frames, hframes, h⟩ := Guarded.bind_eq_answer.mp h
  have hread := mapError_eq_ok.mp (Guarded.lift_eq_answer.mp hframes)
  unfold putsOf
  rw [hread]
  exact Guarded.foldlM_collects (fun g => Adds.none rfl rfl) (fun h h' => h.trans h')
    (fun op _ g g' hop => takeOp_adds hop) h

/-- **The rows of a window are the primary puts of its segments**, each once, in the order of
the log. -/
theorem gather_rows {header : Bytes} {schema : CollectionSchema} {segments : List SegmentFile}
    {g : Gathered} (h : gather header schema segments = answer g) :
    g.keys = (segments.flatMap (putsOf header schema)).map Prod.fst ∧
      List.Forall₂ (Decoded schema) (segments.flatMap (putsOf header schema)) g.rows := by
  have hadds : Adds schema (segments.flatMap (putsOf header schema)) Gathered.empty g :=
    Guarded.foldlM_collects (fun g => Adds.none rfl rfl) (fun h h' => h.trans h')
      (fun segment _ g g' hsegment => takeSegment_adds hsegment) h
  obtain ⟨rows, hrows, hread⟩ := hadds.rows
  refine ⟨hadds.keys, ?_⟩
  rw [hrows]
  exact hread

end Okm.Drain
