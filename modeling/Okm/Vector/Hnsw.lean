import Okm.Lib.BeamSearch
import Okm.Lib.SortedMap
import Okm.Model.Slot

/-!
# The in-memory graph

The model of `okm-vector/src/hnsw.rs`. Nodes stand in one list in insertion order; a
neighbour list holds 32-bit positions of it. An index is an `Except`: a position or a
layer that is not there is the fault `index`, where the source panics.

The codec's arithmetic, the draw of a level and the allocator are a `Host`: floating
point and memory are not modelled, only what the graph asks of them.
-/

namespace Okm.Vector

open Lib Model

/-- Why an operation panics. `fuel` stands for a loop that never ends. -/
inductive Fault where
  | index
  | capacity
  | overflow
  | fuel
  deriving DecidableEq

/-- What the graph takes from elsewhere: the codec's distances, the comparison of a drawn
number with `1.0 / m`, and which `with_capacity` requests (element size, count) succeed. -/
structure Host (κ V P D : Type) where
  encode : κ → V → Except Fault Bytes
  prepare : κ → V → Except Fault P
  prepareCode : κ → Bytes → Except Fault P
  distance : κ → Bytes → P → Except Fault D
  distanceCodes : κ → Bytes → Bytes → Except Fault D
  infinity : D
  below : UInt64 → Nat → Bool
  grants : Nat → Nat → Bool

structure HnswParams where
  m : Nat
  m0 : Nat
  efConstruction : Nat
  seed : UInt64
  deriving DecidableEq

/-- One graph node; `levels` has a list for every layer the node is in. -/
structure Node where
  key : Bytes
  code : Bytes
  tomb : Bool
  levels : List (List Nat)
  deriving DecidableEq

structure Hnsw (κ : Type) where
  codec : κ
  params : HnswParams
  nodes : List Node
  byKey : SortedMap Bytes Nat
  entry : Option Nat
  top : Nat
  live : Nat
  rng : UInt64

variable {κ V P D : Type}

/-! ## Drawing a level -/

/-- `SplitMix64::next_u64`, of the state already advanced. -/
def splitMix (state : UInt64) : UInt64 :=
  let z := (state ^^^ (state >>> 30)) * 0xBF58476D1CE4E5B9
  let z := (z ^^^ (z >>> 27)) * 0x94D049BB133111EB
  z ^^^ (z >>> 31)

def advance (state : UInt64) : UInt64 := state + 0x9E3779B97F4A7C15

/-- The loop of `random_level`, with `left` levels still allowed. -/
def levelLoop (H : Host κ V P D) (m : Nat) : Nat → UInt64 → Nat × UInt64
  | 0, state => (0, advance state)
  | left + 1, state =>
    if H.below (splitMix (advance state)) m then
      let (level, state) := levelLoop H m left (advance state)
      (level + 1, state)
    else (0, advance state)

/-- `random_level`: at most 32, with `m` of 0 read as 1. -/
def randomLevel (H : Host κ V P D) (m : Nat) (state : UInt64) : Nat × UInt64 :=
  levelLoop H (max m 1) 32 state

namespace Hnsw

def new (codec : κ) (params : HnswParams) : Hnsw κ :=
  ⟨codec, params, [], SortedMap.empty, none, 0, 0, params.seed⟩

/-! ## Reading the graph -/

def node (g : Hnsw κ) (i : Nat) : Except Fault Node :=
  match g.nodes[i]? with
  | some n => .ok n
  | none => .error .index

/-- `nodes[i].levels[layer]`. -/
def neighbours (g : Hnsw κ) (layer i : Nat) : Except Fault (List Nat) := do
  let n ← g.node i
  match n.levels[layer]? with
  | some list => .ok list
  | none => .error .index

/-- The cap of a layer's lists. -/
def cap (g : Hnsw κ) (layer : Nat) : Nat := if layer = 0 then g.params.m0 else g.params.m

section Search

variable [LinearOrder D] (H : Host κ V P D)

/-- The distance of a node from a prepared query. -/
def distanceTo (g : Hnsw κ) (p : P) (i : Nat) : Except Fault D := do
  let n ← g.node i
  H.distance g.codec n.code p

def greedy (g : Hnsw κ) (p : P) (ep layer : Nat) : Except Fault Nat := do
  let best ← g.distanceTo H p ep
  Lib.greedy (g.neighbours layer) (g.distanceTo H p) .fuel (g.nodes.length + 1) best ep

def requested (size count : Nat) : Except Fault Unit :=
  if H.grants size count then .ok () else .error .capacity

def searchLayer (g : Hnsw κ) (p : P) (eps : List Nat) (ef layer : Nat) :
    Except Fault (List (D × Nat)) := do
  requested H 4 (ef * 4)
  beamSearch (g.neighbours layer) (g.distanceTo H p) H.infinity .fuel ef (g.nodes.length + 1) eps

/-- Greedy hops from the layer `lo + count - 1` down to the layer `lo`. -/
def descend (g : Hnsw κ) (p : P) (lo : Nat) : Nat → Nat → Except Fault Nat
  | 0, ep => pure ep
  | count + 1, ep => do
    let ep ← g.greedy H p ep (lo + count)
    descend g p lo count ep

/-- The results among the candidates: live nodes, at most `k`. -/
def collect (g : Hnsw κ) : Nat → List (D × Nat) → Except Fault (List (Bytes × D))
  | 0, _ => pure []
  | _ + 1, [] => pure []
  | k + 1, c :: cands => do
    let n ← g.node c.2
    if n.tomb then collect g (k + 1) cands
    else do
      let out ← collect g k cands
      pure ((n.key, c.1) :: out)

def searchPrepared (g : Hnsw κ) (p : P) (k ef : Nat) : Except Fault (List (Bytes × D)) :=
  if k = 0 then pure []
  else
    match g.entry with
    | none => pure []
    | some ep => do
      let ep ← g.descend H p 1 g.top ep
      let cands ← g.searchLayer H p [ep] (max ef k) 0
      requested H 32 k
      g.collect k cands

/-- Approximate top-k. -/
def search (g : Hnsw κ) (q : V) (k ef : Nat) : Except Fault (List (Bytes × D)) := do
  let p ← H.prepare g.codec q
  g.searchPrepared H p k ef

/-! ## Linking -/

/-- Write one neighbour list. -/
def setLevel (g : Hnsw κ) (i layer : Nat) (list : List Nat) : Hnsw κ :=
  { g with nodes := g.nodes.modify i fun n => { n with levels := n.levels.set layer list } }

/-- A node with its distance from a code. -/
def keyed (g : Hnsw κ) (base : Bytes) (a : Nat) : Except Fault (D × Nat) := do
  let n ← g.node a
  let d ← H.distanceCodes g.codec base n.code
  pure (d, a)

/-- A list sorted by distance from a code; one element is not compared. -/
def closest (g : Hnsw κ) (base : Bytes) (list : List Nat) : Except Fault (List Nat) :=
  if list.length ≤ 1 then pure list
  else do
    let cands ← list.mapM (g.keyed H base)
    pure ((cands.insertionSort CandLe).map Prod.snd)

/-- A list pruned back to its cap. -/
def prune (g : Hnsw κ) (base : Bytes) (layer : Nat) (list : List Nat) :
    Except Fault (List Nat) :=
  if g.cap layer < list.length then do
    let list ← g.closest H base list
    pure (list.take (g.cap layer))
  else pure list

/-- Add `to` to the list of `from`. -/
def link (g : Hnsw κ) (source target layer : Nat) : Except Fault (Hnsw κ) :=
  if source = target then pure g
  else do
    let list ← g.neighbours layer source
    if target ∈ list then pure g
    else do
      let n ← g.node source
      let list ← g.prune H n.code layer (list ++ [target])
      pure (g.setLevel source layer list)

/-- One layer of an insertion: choose the closest, link both ways, start the next layer at
the best. -/
def linkLayer (p : P) (id layer : Nat) (s : Hnsw κ × List Nat) :
    Except Fault (Hnsw κ × List Nat) := do
  let cands ← s.1.searchLayer H p s.2 s.1.params.efConstruction layer
  let chosen := (cands.take (s.1.cap layer)).map Prod.snd
  let _ ← s.1.neighbours layer id
  let g ← chosen.foldlM (fun g n => g.link H n id layer) (s.1.setLevel id layer chosen)
  pure (g, match cands.head? with
    | some best => [best.2]
    | none => s.2)

/-- The layers `count - 1` down to 0. -/
def linkLayers (p : P) (id : Nat) : Nat → Hnsw κ × List Nat → Except Fault (Hnsw κ × List Nat)
  | 0, s => pure s
  | count + 1, s => do
    let s ← linkLayer H p id count s
    linkLayers p id count s

/-! ## The verbs -/

/-- Set a tombstone. -/
def entomb (g : Hnsw κ) (old : Nat) : Hnsw κ :=
  { g with
    nodes := g.nodes.modify old fun n => { n with tomb := true }
    live := g.live - 1 }

/-- Tombstone the live node of a key, if there is one. -/
def bury (g : Hnsw κ) (key : Bytes) : Except Fault (Bool × Hnsw κ) :=
  match g.byKey.get key with
  | none => pure (false, g)
  | some old => do
    let n ← g.node old
    if n.tomb then pure (false, g)
    else if g.live = 0 then .error .overflow
    else pure (true, g.entomb old)

/-- The new node, not linked yet; its position is truncated to 32 bits where it is stored. -/
def push (g : Hnsw κ) (key code : Bytes) (level : Nat) (rng : UInt64) : Hnsw κ :=
  { g with
    nodes := g.nodes ++ [⟨key, code, false, List.replicate (level + 1) []⟩]
    byKey := g.byKey.insert key (g.nodes.length % 2 ^ 32)
    live := g.live + 1
    rng := rng }

/-- Link a pushed node into the graph. -/
def connect (g : Hnsw κ) (code : Bytes) (id level : Nat) : Except Fault (Hnsw κ) :=
  match g.entry with
  | none => pure { g with entry := some id, top := level }
  | some ep => do
    let p ← H.prepareCode g.codec code
    let ep ← g.descend H p (level + 1) (g.top - level) ep
    let s ← linkLayers H p id (min level g.top + 1) (g, [ep])
    pure (if s.1.top < level then { s.1 with top := level, entry := some id } else s.1)

/-- Insert or replace one key. -/
def insert (g : Hnsw κ) (key : Bytes) (v : V) : Except Fault (Hnsw κ) := do
  let code ← H.encode g.codec v
  let buried ← g.bury key
  let drawn := randomLevel H g.params.m g.rng
  (buried.2.push key code drawn.1 drawn.2).connect H code (g.nodes.length % 2 ^ 32) drawn.1

/-- Tombstone a key. -/
def remove (g : Hnsw κ) (key : Bytes) : Except Fault (Bool × Hnsw κ) := g.bury key

end Search

end Hnsw

end Okm.Vector
