import Okm.Engine.Nest
import Okm.Lib.Cursor
import Okm.Vector.Index

/-!
# Snapshot blobs

The model of `save` and `load` in `okm-vector/src/index.rs`, of `encode_into` and `decode` in
`hnsw.rs` and `codec.rs`. A graph is written little-endian, one blob a shard; numbers are
cut to the width of their field. Reading counts the room it asks for, in bytes of elements;
what the allocator adds to that is left out.

The generator of levels is not in the blob: a graph read back starts it again from the
seed.
-/

namespace Okm.Vector

open Lib Model VirtualStorage Engine

/-- A codec with its parameters; centroids are kept as the bits of their `f32`. -/
inductive Codec where
  | i8 (dim : Nat)
  | pq (dim m ksub : Nat) (centroids : List UInt32)
  deriving DecidableEq

/-! ## Writing -/

/-- `Codec::encode_into`. -/
def Codec.encode : Codec → Bytes
  | .i8 dim => [0] ++ leBytes 4 dim
  | .pq dim m ksub centroids =>
    [1] ++ leBytes 4 dim ++ leBytes 4 m ++ leBytes 4 ksub
      ++ centroids.flatMap fun c => leBytes 4 c.toNat

/-- One neighbour list. -/
def levelBytes (level : List Nat) : Bytes :=
  leBytes 2 level.length ++ level.flatMap fun id => leBytes 4 id

/-- One node of the table. -/
def nodeBytes (n : Node) : Bytes :=
  leBytes 2 n.key.length ++ n.key ++ leBytes 4 n.code.length ++ n.code
    ++ leBytes 1 (if n.tomb then 1 else 0) ++ leBytes 1 n.levels.length
    ++ n.levels.flatMap levelBytes

/-- The entry as an `i32`: -1 where there is none. -/
def entryWord : Option Nat → Nat
  | some e => e % 2 ^ 32
  | none => 2 ^ 32 - 1

/-- `Hnsw::encode_into`. -/
def Hnsw.encode (g : Hnsw Codec) : Bytes :=
  g.codec.encode ++ leBytes 2 g.params.m ++ leBytes 2 g.params.m0
    ++ leBytes 2 g.params.efConstruction ++ leBytes 8 g.params.seed.toNat
    ++ leBytes 4 (entryWord g.entry) ++ leBytes 2 g.top ++ leBytes 4 g.live
    ++ leBytes 4 g.nodes.length ++ g.nodes.flatMap nodeBytes

/-- `b"OKMVEC1\0"`. -/
def magic : Bytes := [0x4F, 0x4B, 0x4D, 0x56, 0x45, 0x43, 0x31, 0x00]

/-- `slot_key`. -/
def slotKey (ns : UInt8 × UInt8) (shard : Nat) : Bytes := [ns.1, ns.2, 0x0A] ++ beBytes 2 shard

/-- What stands before the graph in the blob of one shard of `count`. -/
def shardHead (ns : UInt8 × UInt8) (count shard : Nat) : Bytes :=
  magic ++ leBytes 2 1 ++ [ns.1, ns.2] ++ leBytes 2 shard ++ leBytes 2 count

namespace VectorIndex

/-- The batch `save` commits. -/
def saveOps (x : VectorIndex Codec) : List (Lib.Op Bytes Bytes) :=
  x.shards.zipIdx.map fun s =>
    (slotKey x.ns s.2, some (shardHead x.ns x.shards.length s.2 ++ s.1.encode))

def save {σ : Type} [VirtualStorage σ] (x : VectorIndex Codec) (store : σ) :
    Except String Unit × σ :=
  let answer := commitBatch store ⟨x.saveOps⟩
  (answer.1.mapError errorText, answer.2)

end VectorIndex

/-! ## Reading -/

/-- `Codec::decode`. -/
def Codec.decode : Reading Fault Codec := do
  let tag ← nextNat 1
  let dim ← nextNat 4
  if tag = 0 then pure (.i8 dim)
  else if tag = 1 then do
    let m ← nextNat 4
    let ksub ← nextNat 4
    if m = 0 ∨ ksub = 0 ∨ dim % m ≠ 0 then refuse
    else do
      request .capacity 4 (m * ksub * (dim / m))
      let centroids ← times (nextNat 4) (m * ksub * (dim / m))
      pure (.pq dim m ksub (centroids.map UInt32.ofNat))
  else refuse

/-- Bytes copied out of the blob. -/
def copied (n : Nat) : Reading Fault Bytes := do
  let bytes ← nextBytes n
  request .capacity 1 bytes.length
  pure bytes

def readLevel : Reading Fault (List Nat) := do
  let n ← nextNat 2
  request .capacity 4 n
  times (nextNat 4) n

def readNode : Reading Fault Node := do
  let klen ← nextNat 2
  let key ← copied klen
  let clen ← nextNat 4
  let code ← copied clen
  let tomb ← nextNat 1
  let nlevels ← nextNat 1
  request .capacity 24 nlevels
  let levels ← times readLevel nlevels
  pure ⟨key, code, decide (tomb ≠ 0), levels⟩

/-- A node, and the copy of its key the map takes. -/
def readKeyed : Reading Fault Node := do
  let n ← readNode
  request .capacity 1 n.key.length
  pure n

/-- The node table with its map; a later node of a key takes its place there. -/
def readNodes : Nat → Nat → SortedMap Bytes Nat → Reading Fault (List Node × SortedMap Bytes Nat)
  | 0, _, byKey => pure ([], byKey)
  | left + 1, id, byKey => do
    let n ← readKeyed
    let (nodes, byKey) ← readNodes left (id + 1) (byKey.insert n.key (id % 2 ^ 32))
    pure (n :: nodes, byKey)

/-- An `i32` that is -1 or a position. -/
def readEntry : Reading Fault (Option Nat) := do
  let word ← nextNat 4
  if word = 2 ^ 32 - 1 then pure none
  else if word < 2 ^ 31 then pure (some word)
  else refuse

/-- `Hnsw::decode`. -/
def Hnsw.decode : Reading Fault (Hnsw Codec) := do
  let codec ← Codec.decode
  let m ← nextNat 2
  let m0 ← nextNat 2
  let ef ← nextNat 2
  let seed ← nextNat 8
  let entry ← readEntry
  let top ← nextNat 2
  let live ← nextNat 4
  let count ← nextNat 4
  request .capacity 80 count
  request .capacity 32 count
  let (nodes, byKey) ← readNodes count 0 SortedMap.empty
  pure ⟨codec, ⟨m, m0, ef, UInt64.ofNat seed⟩, nodes, byKey, entry, top, live, UInt64.ofNat seed⟩

/-- Nothing is left. -/
def atEnd : Reading Fault Unit := fun c => if c.left = [] then (.ok (), c) else (.error .nothing, c)

/-- The blob behind its magic. -/
def readShard (ns : UInt8 × UInt8) (shard : Nat) : Reading Fault (Nat × Hnsw Codec) := do
  let version ← nextNat 2
  if version ≠ 1 then refuse
  else do
    let blobNs ← nextBytes 2
    if blobNs ≠ [ns.1, ns.2] then refuse
    else do
      let id ← nextNat 2
      if id ≠ shard then refuse
      else do
        let count ← nextNat 2
        if count = 0 ∨ count ≤ shard then refuse
        else do
          let g ← Hnsw.decode
          atEnd
          pure (count, g)

/-- `decode_shard`. -/
def decodeShard (ns : UInt8 × UInt8) (shard : Nat) : Reading Fault (Nat × Hnsw Codec) := fun c =>
  if c.left.length < 16 ∨ c.left.take 8 ≠ magic then (.error .nothing, c)
  else readShard ns shard ⟨c.left.drop 8, c.taken⟩

/-- How `load` ends without an index: `Ok(None)`, the store failing, or a panic. -/
inductive LoadEnd where
  | absent
  | store (text : String)
  | fault (f : Fault)

/-- A part of `load`; the state counts what was asked for. -/
abbrev Loading (α : Type) := Run LoadEnd Nat α

namespace VectorIndex

section

variable {σ : Type} [VirtualStorage σ] (store : σ) (ns : UInt8 × UInt8)

/-- The blob of one shard, read and decoded. -/
def loadShard (shard : Nat) : Loading (Nat × Hnsw Codec) := fun taken =>
  match get store (slotKey ns shard) with
  | .error e => (.error (.store (errorText e)), taken)
  | .ok none => (.error .absent, taken)
  | .ok (some blob) =>
    match decodeShard ns shard ⟨blob, taken⟩ with
    | (.ok found, c) => (.ok found, c.taken)
    | (.error .nothing, c) => (.error .absent, c.taken)
    | (.error (.fault f), c) => (.error (.fault f), c.taken)

/-- The shards from `id` on; every one has to name the same number of shards. -/
def loadRest (count : Nat) : Nat → Nat → Loading (List (Hnsw Codec))
  | 0, _ => pure []
  | left + 1, id => do
    let found ← loadShard store ns id
    if found.1 ≠ count then (fun taken => (.error .absent, taken))
    else do
      let rest ← loadRest count left (id + 1)
      pure (found.2 :: rest)

/-- `Vec::with_capacity(shard_count)`, of at most 65535 graphs. -/
def shardTable (count : Nat) : Loading Unit := fun taken => (.ok (), taken + 184 * count)

/-- `load`. -/
def load : Loading (VectorIndex Codec) := do
  let first ← loadShard store ns 0
  shardTable first.1
  let rest ← loadRest store ns first.1 (first.1 - 1) 1
  pure ⟨ns, first.2 :: rest⟩

end

end VectorIndex

end Okm.Vector
