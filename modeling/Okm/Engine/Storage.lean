import Okm.Lib.Overlay
import Okm.Lib.ByteCodec

/-!
# The engine contract

The model of `engine/storage.rs`: a store of byte keys with point reads and
writes, ordered scans, and a batch that commits as one write. `VirtualStorage`
is the trait with its default methods; a write answers the engine's verdict and
the store it leaves, so a refused write is visible to the caller.

`Keyspace` is the engine that never refuses, an ordered map of byte strings.
Every shipped engine scans its keys in byte order and cuts a prefix scan at the
last key carrying the prefix, which is what its instance does.
-/

namespace Okm

open Lib

/-- Keys and values are opaque byte strings. -/
abbrev Bytes := List UInt8

/-- The failures a verb reports to its caller. -/
inductive Error where
  | kindMismatch (field want got : String)
  | valueOutOfRange (field want got : String)
  | vocabularyExhausted (width next : Nat)
  | vocabularyRequired (name : String)
  | layoutMismatch (stored : Option Nat) (current : Nat)
  | edgeAlreadyLive (edgeId : Nat)
  | edgeNotFound (edgeId : Nat)
  | edgeNotMember (side : String) (ns graphNs : Nat)
  | corrupt (what : String)
  | scanThroughBatch
  | engine (text : String)
  | changelog (what : String)
  deriving DecidableEq, Repr

/-- The ways the code aborts instead of answering: a byte string cut past its
end, a span whose end lies before its start, a missing value it counted on, an
arithmetic overflow. -/
inductive Panic where
  | slice
  | span
  | expect
  | overflow
  deriving DecidableEq, Repr

/-! ## The upper bound of a prefix -/

/-- The increment loop of `prefix_end`, over the bytes from the last to the
first: a byte below `0xFF` takes the increment, a full one rolls over to zero. -/
def prefixEndLoop : Bytes → Option Bytes
  | [] => none
  | b :: rest =>
    if b < 0xFF then some ((b + 1) :: rest)
    else (prefixEndLoop rest).map (fun bumped => 0x00 :: bumped)

/-- `prefix_end`: increment with carry; `none` when every byte is `0xFF`. -/
def prefixEnd (pfx : Bytes) : Option Bytes := (prefixEndLoop pfx.reverse).map List.reverse

/-! ## The batch and the engine trait -/

/-- The batch carrier: an ordered list of puts and deletes. -/
structure Batch where
  ops : List (Op Bytes Bytes) := []
  deriving DecidableEq, Repr

def Batch.put (batch : Batch) (key value : Bytes) : Batch :=
  { batch with ops := batch.ops ++ [(key, some value)] }

def Batch.del (batch : Batch) (key : Bytes) : Batch :=
  { batch with ops := batch.ops ++ [(key, none)] }

/-- One item of a lazy scan; an engine failure rides the item. -/
abbrev ScanItem := Except Error (Bytes × Bytes)

/-- The default `scan_range_iter`: read each key the scan found, drop a key that
vanished in between, stop at the first failed read. -/
def bufferedScan (get : Bytes → Except Error (Option Bytes)) : List Bytes → List ScanItem
  | [] => []
  | k :: ks =>
    match get k with
    | .ok (some v) => .ok (k, v) :: bufferedScan get ks
    | .ok none => bufferedScan get ks
    | .error e => [.error e]

/-- The default `commit_batch`: replay the list, stop at the first refusal. -/
def replayOps {σ : Type} (put : σ → Bytes → Bytes → Except Error Unit × σ)
    (del : σ → Bytes → Except Error Unit × σ) (store : σ) :
    List (Op Bytes Bytes) → Except Error Unit × σ
  | [] => (.ok (), store)
  | (k, v) :: ops =>
    let answer := match v with
      | some v => put store k v
      | none => del store k
    match answer with
    | (.ok (), store) => replayOps put del store ops
    | (.error e, store) => (.error e, store)

/-- The synchronous engine contract. -/
class VirtualStorage (σ : Type) where
  put : σ → Bytes → Bytes → Except Error Unit × σ
  get : σ → Bytes → Except Error (Option Bytes)
  del : σ → Bytes → Except Error Unit × σ
  scanRange : σ → Bytes → Option Bytes → Except Error (List Bytes)
  scanSuffix : σ → Bytes → Except Error (List Bytes) := fun store pfx =>
    (scanRange store pfx (prefixEnd pfx)).map fun ks => ks.map (fun k => k.drop pfx.length)
  scanRangeIter : σ → Bytes → Option Bytes → List ScanItem := fun store b e =>
    match scanRange store b e with
    | .ok ks => bufferedScan (get store) ks
    | .error err => [.error err]
  commitBatch : σ → Batch → Except Error Unit × σ := fun store batch =>
    replayOps put del store batch.ops

/-- A batch seen as a writer: reads answer from the newest pending op of the key
and fall through to the store, writes only accumulate, scans are refused. -/
structure BatchStore (σ : Type) where
  store : σ
  batch : Batch

instance batchStore {σ : Type} [VirtualStorage σ] : VirtualStorage (BatchStore σ) where
  put s key value := (.ok (), { s with batch := s.batch.put key value })
  get s key :=
    match pending s.batch.ops key with
    | some v => .ok v
    | none => VirtualStorage.get s.store key
  del s key := (.ok (), { s with batch := s.batch.del key })
  scanRange _ _ _ := .error .scanThroughBatch

/-- The engine that never refuses: finitely many entries in byte order. -/
abbrev Keyspace := SortedMap Bytes Bytes

/-- The keys carrying a prefix, the prefix removed. -/
def Keyspace.suffixes (store : Keyspace) (pfx : Bytes) : List Bytes :=
  (store.entries.filter (fun e => pfx.isPrefixOf e.1)).map (fun e => e.1.drop pfx.length)

instance keyspace : VirtualStorage Keyspace where
  put store key value := (.ok (), store.insert key value)
  get store key := .ok (store.get key)
  del store key := (.ok (), store.erase key)
  scanRange store b e := .ok ((store.range b e).map Prod.fst)
  scanSuffix store pfx := .ok (store.suffixes pfx)
  scanRangeIter store b e := (store.range b e).map .ok
  commitBatch store batch := (.ok (), applyOps store batch.ops)

end Okm
