import Okm.Engine.Storage
import Okm.Lib.Hops

/-!
# The graph walk

The model of `walk`: a breadth-first search that keeps a list of what it has visited, the
frontier of the last round and the next one, over any number of edge types.

`visited` is what is within as many hops as rounds were made, nearest first, and the frontier
is the layer at that very distance (`Layered`). One round moves both on by one hop
(`layered_round`); a round that discovers nothing ends the walk, and nothing is beyond it.
-/

namespace Okm.Query

open Lib

variable {S : Type}

/-! ## The algorithm -/

/-- One edge type: the peers of a node across it, in both directions. -/
structure GraphEdge (S : Type) where
  peers : S → Bytes → List Bytes

/-- The innermost loop's body: a peer not seen before is pushed. -/
def discover (visited next : List Bytes) (peer : Bytes) : List Bytes :=
  if ¬ visited.contains peer ∧ ¬ next.contains peer then next ++ [peer] else next

/-- The loop over the edge types, for one node of the frontier. -/
def expand (edges : List (GraphEdge S)) (store : S) (visited next : List Bytes) (node : Bytes) :
    List Bytes :=
  edges.foldl (fun next e => (e.peers store node).foldl (discover visited) next) next

/-- The loop over the frontier. -/
def nextOf (edges : List (GraphEdge S)) (store : S) (visited frontier : List Bytes) : List Bytes :=
  frontier.foldl (expand edges store visited) []

/-- The rounds, until one discovers nothing. -/
def rounds (edges : List (GraphEdge S)) (store : S) : Nat → List Bytes → List Bytes → List Bytes
  | 0, visited, _ => visited
  | n + 1, visited, frontier =>
    let next := nextOf edges store visited frontier
    if next.isEmpty then visited else rounds edges store n (visited ++ next) next

/-- `walk`. -/
def walk (edges : List (GraphEdge S)) (store : S) (start : Bytes) (maxHops : Nat) : List Bytes :=
  rounds edges store maxHops [start] [start]

/-- One hop: `peer` is a peer of `node` across one of the edge types. -/
def Hop (edges : List (GraphEdge S)) (store : S) (node peer : Bytes) : Prop :=
  ∃ e ∈ edges, peer ∈ e.peers store node

/-! ## One round -/

variable {edges : List (GraphEdge S)} {store : S} {start : Bytes}

theorem mem_discover {visited next : List Bytes} {peer b : Bytes} :
    b ∈ discover visited next peer ↔ b ∈ next ∨ (b = peer ∧ b ∉ visited) := by
  unfold discover
  split
  · rename_i h
    rw [List.mem_append, List.mem_singleton]
    constructor
    · intro hb
      rcases hb with hb | rfl
      · exact .inl hb
      · exact .inr ⟨rfl, fun hmem => h.1 (List.contains_iff_mem.mpr hmem)⟩
    · intro hb
      exact hb.imp_right And.left
  · rename_i h
    constructor
    · exact .inl
    · intro hb
      rcases hb with hb | ⟨rfl, hnot⟩
      · exact hb
      · by_contra hnext
        exact h ⟨fun hc => hnot (List.contains_iff_mem.mp hc),
          fun hc => hnext (List.contains_iff_mem.mp hc)⟩

theorem nodup_discover {visited next : List Bytes} (h : next.Nodup) (peer : Bytes) :
    (discover visited next peer).Nodup := by
  unfold discover
  split
  · rename_i hnew
    refine List.nodup_append.mpr ⟨h, List.nodup_singleton peer, ?_⟩
    intro b hb c hc hbc
    rw [List.mem_singleton.mp hc] at hbc
    exact hnew.2 (List.contains_iff_mem.mpr (hbc ▸ hb))
  · exact h

/-- The three loops as one, over all peers of the frontier. -/
theorem nextOf_eq (visited frontier : List Bytes) :
    nextOf edges store visited frontier
      = (frontier.flatMap fun node => edges.flatMap fun e => e.peers store node).foldl
          (discover visited) [] := by
  rw [List.foldl_flatMap]
  simp only [List.foldl_flatMap]
  rfl

theorem mem_foldl_discover {visited peers next : List Bytes} {b : Bytes} :
    b ∈ peers.foldl (discover visited) next ↔ b ∈ next ∨ (b ∈ peers ∧ b ∉ visited) := by
  induction peers generalizing next with
  | nil => simp
  | cons peer peers ih =>
    rw [List.foldl_cons, ih, mem_discover, List.mem_cons, or_and_right, or_assoc]

theorem nodup_foldl_discover {visited peers next : List Bytes} (h : next.Nodup) :
    (peers.foldl (discover visited) next).Nodup := by
  induction peers generalizing next with
  | nil => exact h
  | cons peer peers ih => exact ih (nodup_discover h peer)

/-- **A round discovers what is one hop from the frontier** and was not visited, each once. -/
theorem mem_nextOf {visited frontier : List Bytes} {b : Bytes} :
    b ∈ nextOf edges store visited frontier ↔
      (∃ node ∈ frontier, Hop edges store node b) ∧ b ∉ visited := by
  rw [nextOf_eq, mem_foldl_discover]
  simp only [List.mem_flatMap, List.not_mem_nil, false_or]
  rfl

theorem nodup_nextOf (visited frontier : List Bytes) :
    (nextOf edges store visited frontier).Nodup := by
  rw [nextOf_eq]
  exact nodup_foldl_discover List.nodup_nil

/-! ## The rounds -/

/-- After `k` rounds: what was visited is what is within `k` hops, nearest first, and the
frontier is what is at `k`. -/
structure Layered (edges : List (GraphEdge S)) (store : S) (start : Bytes) (k : Nat)
    (visited frontier : List Bytes) : Prop where
  head : visited.head? = some start
  nodup : visited.Nodup
  reached : ∀ b, b ∈ visited ↔ Within (Hop edges store) start k b
  layer : ∀ b, b ∈ frontier ↔ AtHop (Hop edges store) start k b
  nearest : visited.Pairwise fun b c =>
    hopDistance (Hop edges store) start b ≤ hopDistance (Hop edges store) start c

theorem layered_start : Layered edges store start 0 [start] [start] where
  head := rfl
  nodup := List.nodup_singleton start
  reached b := by rw [within_zero_iff, List.mem_singleton]
  layer b := by
    rw [List.mem_singleton]
    constructor
    · rintro rfl
      exact atHop_zero
    · intro h
      exact within_zero_iff.mp ⟨0, Nat.le_refl 0, h.1⟩
  nearest := List.pairwise_singleton _ _

variable {k : Nat} {visited frontier : List Bytes}

theorem Layered.mem_next (h : Layered edges store start k visited frontier) {b : Bytes} :
    b ∈ nextOf edges store visited frontier ↔ AtHop (Hop edges store) start (k + 1) b := by
  rw [mem_nextOf, atHop_succ_iff, h.reached]
  simp only [h.layer]

/-- **One round is one hop more.** -/
theorem layered_round (h : Layered edges store start k visited frontier) :
    Layered edges store start (k + 1) (visited ++ nextOf edges store visited frontier)
      (nextOf edges store visited frontier) where
  head := by
    rw [List.head?_append, h.head]
    rfl
  nodup := by
    refine List.nodup_append.mpr ⟨h.nodup, nodup_nextOf visited frontier, ?_⟩
    rintro b hb c hc rfl
    exact (mem_nextOf.mp hc).2 hb
  reached b := by rw [List.mem_append, within_succ_iff, h.reached, h.mem_next]
  layer b := h.mem_next
  nearest := by
    refine List.pairwise_append.mpr ⟨h.nearest, ?_, ?_⟩
    · -- all of one layer are as far
      refine (nodup_nextOf visited frontier).imp_of_mem fun hb hc _ => ?_
      rw [(h.mem_next.mp hb).hopDistance_eq, (h.mem_next.mp hc).hopDistance_eq]
    · intro b hb c hc
      rw [(h.mem_next.mp hc).hopDistance_eq]
      exact ((h.reached b).mp hb).hopDistance_le.trans (Nat.le_succ k)

/-- What a walk promises of its answer. -/
structure Walked (edges : List (GraphEdge S)) (store : S) (start : Bytes) (maxHops : Nat)
    (nodes : List Bytes) : Prop where
  head : nodes.head? = some start
  nodup : nodes.Nodup
  reached : ∀ b, b ∈ nodes ↔ Within (Hop edges store) start maxHops b
  nearest : nodes.Pairwise fun b c =>
    hopDistance (Hop edges store) start b ≤ hopDistance (Hop edges store) start c

theorem walked_rounds {n : Nat} (h : Layered edges store start k visited frontier) :
    Walked edges store start (k + n) (rounds edges store n visited frontier) := by
  induction n generalizing k visited frontier with
  | zero => exact ⟨h.head, h.nodup, h.reached, h.nearest⟩
  | succ n ih =>
    unfold rounds
    dsimp only
    split
    · rename_i hempty
      rw [List.isEmpty_iff] at hempty
      have hnone : ∀ b, ¬ AtHop (Hop edges store) start (k + 1) b := by
        intro b hat
        have hmem := h.mem_next.mpr hat
        rw [hempty] at hmem
        cases hmem
      refine ⟨h.head, h.nodup, fun b => ?_, h.nearest⟩
      rw [h.reached, within_of_empty hnone (Nat.le_add_right k (n + 1))]
    · have hwalked := ih (layered_round h)
      rwa [Nat.add_right_comm] at hwalked

/-- **The walk is exact**: `start` first, every node within `max_hops` hops and no other, each
once, and none before a nearer one. -/
theorem walk_exact (edges : List (GraphEdge S)) (store : S) (start : Bytes) (maxHops : Nat) :
    Walked edges store start maxHops (walk edges store start maxHops) := by
  have hwalked : Walked edges store start (0 + maxHops) _ := walked_rounds layered_start
  rwa [Nat.zero_add] at hwalked

end Okm.Query
