import Okm.Vector.HnswVerbs

/-!
# The sharded index

The model of `VectorIndex` in `okm-vector/src/index.rs`: every key belongs to the shard
its hash picks, a search asks all shards and merges.

`index_structured` is the invariant over whole runs of adds and removes, with distances an
arbitrary function into a linear order. Node positions are 32 bits wide: past `2 ^ 32`
adds to one shard a new node's position names an old one (`position_wraps`).
-/

namespace Okm.Vector

open Lib Model

variable {κ V P D : Type}

/-- FNV-1a over 64 bits, with the multiplier of the source. -/
def fnv1a64 (bytes : Bytes) : UInt64 :=
  bytes.foldl (fun h b => (h ^^^ b.toUInt64) * 0x1000000001b3) 0xcbf29ce484222325

/-- `hash(key) % n`. -/
def shardOf (n : Nat) (key : Bytes) : Nat := (fnv1a64 key).toNat % n

structure VectorIndex (κ : Type) where
  ns : UInt8 × UInt8
  shards : List (Hnsw κ)

namespace VectorIndex

def new (ns : UInt8 × UInt8) (codec : κ) (params : HnswParams) (shardCount : Nat) :
    VectorIndex κ :=
  ⟨ns, List.replicate shardCount (Hnsw.new codec params)⟩

def shard (x : VectorIndex κ) (i : Nat) : Except Fault (Hnsw κ) :=
  match x.shards[i]? with
  | some g => .ok g
  | none => .error .index

section Verbs

variable [LinearOrder D] (H : Host κ V P D)

def add (x : VectorIndex κ) (key : Bytes) (v : V) : Except Fault (VectorIndex κ) := do
  let g ← x.shard (shardOf x.shards.length key)
  let g ← g.insert H key v
  pure { x with shards := x.shards.set (shardOf x.shards.length key) g }

def remove (x : VectorIndex κ) (key : Bytes) : Except Fault (Bool × VectorIndex κ) := do
  let g ← x.shard (shardOf x.shards.length key)
  let r ← g.remove key
  pure (r.1, { x with shards := x.shards.set (shardOf x.shards.length key) r.2 })

/-- Results by distance, then by key. -/
def HitLe (a b : Bytes × D) : Prop := CandLe (a.2, a.1) (b.2, b.1)

instance hitLeDecidable : DecidableRel (HitLe : Bytes × D → Bytes × D → Prop) :=
  fun a b => inferInstanceAs (Decidable (CandLe (a.2, a.1) (b.2, b.1)))

/-- Approximate top-k across every shard. -/
def search (x : VectorIndex κ) (q : V) (k ef : Nat) : Except Fault (List (Bytes × D)) := do
  Hnsw.requested H 32 (k * x.shards.length)
  let hits ← x.shards.foldlM (fun hits g => do
    let out ← g.search H q k ef
    pure (hits ++ out)) []
  pure ((hits.insertionSort HitLe).take k)

end Verbs

/-! ## Runs -/

/-- A write to the index. -/
inductive Op (V : Type) where
  | add (key : Bytes) (v : V)
  | remove (key : Bytes)

def step [LinearOrder D] (H : Host κ V P D) (x : VectorIndex κ) : Op V → Except Fault (VectorIndex κ)
  | .add key v => x.add H key v
  | .remove key => do
    let r ← x.remove key
    pure r.2

/-- The keys a run adds, in order. -/
def added : List (Op V) → List Bytes
  | [] => []
  | .add key _ :: ops => key :: added ops
  | .remove _ :: ops => added ops

theorem added_append (ops ops' : List (Op V)) : added (ops ++ ops') = added ops ++ added ops' := by
  induction ops with
  | nil => rfl
  | cons op ops ih =>
    cases op with
    | add key v => rw [List.cons_append, added, ih, added, List.cons_append]
    | remove key => rw [List.cons_append, added, ih, added]

/-- The keys that go to one shard. -/
def routed (n i : Nat) (keys : List Bytes) : List Bytes := keys.filter fun key => shardOf n key = i

theorem routed_append (n i : Nat) (keys more : List Bytes) :
    routed n i (keys ++ more) = routed n i keys ++ routed n i more := List.filter_append _ _

variable {okVec : V → Prop} {okCode : Bytes → Prop} {okQuery : P → Prop}

/-- **The index after adding these keys**: every shard keeps the invariant of its graph, and
its nodes are the keys routed to it, in order. -/
structure Built (okCode : Bytes → Prop) (codec : κ) (params : HnswParams) (n : Nat)
    (keys : List Bytes) (x : VectorIndex κ) : Prop where
  shards : x.shards.length = n
  each : ∀ i g, x.shards[i]? = some g → Hnsw.Inv okCode g ∧ g.codec = codec ∧ g.params = params ∧
    g.nodes.map Node.key = routed n i keys

variable {codec : κ} {params : HnswParams} {n : Nat} {keys : List Bytes} {x : VectorIndex κ}

theorem built_new (okCode : Bytes → Prop) (ns : UInt8 × UInt8) (codec : κ) (params : HnswParams)
    (n : Nat) : Built okCode codec params n [] (new ns codec params n) := by
  refine ⟨List.length_replicate, ?_⟩
  intro i g hg
  obtain rfl := List.eq_of_mem_replicate (List.mem_of_getElem? hg)
  exact ⟨Hnsw.inv_new okCode codec params, rfl, rfl, rfl⟩

theorem shard_of_get {i : Nat} {g : Hnsw κ} (h : x.shards[i]? = some g) : x.shard i = .ok g := by
  unfold shard
  rw [h]

theorem shardOf_lt (hn : 0 < n) (key : Bytes) : shardOf n key < n := Nat.mod_lt _ hn

/-- One shard replaced by what its own verb made of it. -/
theorem Built.set {key : Bytes} {more : List Bytes} {g' : Hnsw κ}
    (h : Built okCode codec params n keys x)
    (hinv : Hnsw.Inv okCode g' ∧ g'.codec = codec ∧ g'.params = params)
    (hkeys : g'.nodes.map Node.key = routed n (shardOf n key) (keys ++ more))
    (hmore : ∀ k ∈ more, k = key) :
    Built okCode codec params n (keys ++ more)
      { x with shards := x.shards.set (shardOf n key) g' } := by
  refine ⟨by simpa using h.shards, ?_⟩
  intro i g hg
  simp only at hg
  by_cases hi : shardOf n key = i
  · obtain rfl : g' = g := by
      rw [hi, List.getElem?_set_self'] at hg
      obtain ⟨old, -, heq⟩ := Option.map_eq_some_iff.mp hg
      exact heq
    exact ⟨hinv.1, hinv.2.1, hinv.2.2, hi ▸ hkeys⟩
  · rw [List.getElem?_set_ne hi] at hg
    obtain ⟨hinv', hcodec, hparams, hold⟩ := h.each i g hg
    have hnone : routed n i more = [] := by
      refine List.filter_eq_nil_iff.mpr ?_
      intro k hk
      rw [hmore k hk]
      simpa using hi
    refine ⟨hinv', hcodec, hparams, ?_⟩
    rw [hold, routed_append, hnone, List.append_nil]

section Steps

variable [LinearOrder D] {H : Host κ V P D} {fails : Fault → Prop}

theorem add_meets (hs : Hnsw.Sound H codec okVec okCode okQuery) (hn : 0 < n)
    (h : Built okCode codec params n keys x) (key : Bytes) {v : V} (hv : okVec v)
    (hfew : (routed n (shardOf n key) keys).length < 2 ^ 32)
    (hfails : H.grants 4 (params.efConstruction * 4) = false → fails .capacity) :
    Meets fails (x.add H key v) (Built okCode codec params n (keys ++ [key])) := by
  have hlt : shardOf n key < x.shards.length := by
    rw [h.shards]
    exact shardOf_lt hn key
  have hget := List.getElem?_eq_getElem hlt
  obtain ⟨hinv, hcodec, hparams, hkeys⟩ := h.each _ _ hget
  have hroom : (x.shards[shardOf n key]).nodes.length < 2 ^ 32 := by
    rw [← List.length_map Node.key, hkeys]
    exact hfew
  unfold add
  rw [h.shards, shard_of_get hget]
  refine (Hnsw.insert_meets (hcodec ▸ hs) hinv hv hroom key (by rw [hparams]; exact hfails)).bind ?_
  rintro g' ⟨hinv', hkeys', hcodec', hparams'⟩
  refine h.set ⟨hinv', hcodec'.trans hcodec, hparams'.trans hparams⟩ ?_ (by simp)
  rw [hkeys', hkeys, routed_append]
  simp [routed]

theorem remove_meets (hn : 0 < n) (h : Built okCode codec params n keys x) (key : Bytes) :
    Meets fails (x.remove key) fun r => Built okCode codec params n keys r.2 := by
  have hlt : shardOf n key < x.shards.length := by
    rw [h.shards]
    exact shardOf_lt hn key
  have hget := List.getElem?_eq_getElem hlt
  obtain ⟨hinv, hcodec, hparams, hkeys⟩ := h.each _ _ hget
  unfold remove Hnsw.remove
  rw [h.shards, shard_of_get hget]
  refine (Hnsw.bury_meets hinv key).bind ?_
  rintro ⟨gone, g'⟩ ⟨hinv', hburied⟩
  have hsame := hburied.same
  have hnext : Built okCode codec params n (keys ++ [])
      { x with shards := x.shards.set (shardOf n key) g' } :=
    h.set ⟨hinv', hsame.1.trans hcodec, hsame.2.1.trans hparams⟩
      (by rw [List.append_nil, hburied.keys, hkeys]) (by simp)
  rwa [List.append_nil] at hnext

theorem step_meets (hs : Hnsw.Sound H codec okVec okCode okQuery) (hn : 0 < n)
    (h : Built okCode codec params n keys x) {op : Op V} (hop : ∀ key v, op = .add key v → okVec v)
    (hfew : ∀ i, (routed n i (keys ++ added [op])).length ≤ 2 ^ 32)
    (hfails : H.grants 4 (params.efConstruction * 4) = false → fails .capacity) :
    Meets fails (step H x op) (Built okCode codec params n (keys ++ added [op])) := by
  cases op with
  | add key v =>
    refine add_meets hs hn h key (hop key v rfl) ?_ hfails
    have hroom := hfew (shardOf n key)
    rw [routed_append, List.length_append] at hroom
    have hone : routed n (shardOf n key) (added [Op.add key v]) = [key] := by
      simp [routed, added]
    rw [hone, List.length_singleton] at hroom
    exact hroom
  | remove key =>
    refine (remove_meets hn h key).bind ?_
    rintro ⟨gone, x'⟩ hx'
    rw [meets_pure]
    simp only [added, List.append_nil]
    exact hx'

/-- **A run keeps the invariant** while no shard is given more nodes than it can number. -/
theorem run_meets (hs : Hnsw.Sound H codec okVec okCode okQuery) (hn : 0 < n)
    (h : Built okCode codec params n keys x) {ops : List (Op V)}
    (hops : ∀ key v, Op.add key v ∈ ops → okVec v)
    (hfew : ∀ i, (routed n i (keys ++ added ops)).length ≤ 2 ^ 32)
    (hfails : H.grants 4 (params.efConstruction * 4) = false → fails .capacity) :
    Meets fails (ops.foldlM (step H) x) (Built okCode codec params n (keys ++ added ops)) := by
  induction ops generalizing x keys with
  | nil =>
    rw [added, List.append_nil]
    exact h
  | cons op ops ih =>
    have hsplit : keys ++ added (op :: ops) = keys ++ added [op] ++ added ops := by
      rw [List.append_assoc, ← added_append]
      rfl
    rw [List.foldlM_cons, hsplit]
    rw [hsplit] at hfew
    have hfirst : ∀ i, (routed n i (keys ++ added [op])).length ≤ 2 ^ 32 := by
      intro i
      refine le_trans ?_ (hfew i)
      rw [routed_append n i (keys ++ added [op]), List.length_append]
      exact Nat.le_add_right _ _
    have hopen : ∀ key v, op = .add key v → okVec v := by
      rintro key v rfl
      exact hops key v List.mem_cons_self
    refine (step_meets hs hn h hopen hfirst hfails).bind ?_
    intro x' hx'
    exact ih hx' (fun key v hv => hops key v (List.mem_cons_of_mem op hv)) hfew

/-! ## Searching all shards -/

/-- What a search of the index answers: at most `k` hits of its shards, closest first, no
key twice. -/
structure Answer (H : Host κ V P D) (codec : κ) (q : V) (k : Nat) (x : VectorIndex κ)
    (out : List (Bytes × D)) : Prop where
  few : out.length ≤ k
  distinct : (out.map Prod.fst).Nodup
  hits : ∀ hit ∈ out, ∃ p, H.prepare codec q = .ok p ∧ ∃ g ∈ x.shards, Hnsw.Hit H g p hit
  sorted : out.Pairwise fun a b => a.2 ≤ b.2

instance hitLeTotal : Std.Total (HitLe : Bytes × D → Bytes × D → Prop) where
  total a b := candLeTotal.total (a.2, a.1) (b.2, b.1)

instance hitLeTrans : IsTrans (Bytes × D) HitLe where
  trans a b c := candLeTrans.trans (a.2, a.1) (b.2, b.1) (c.2, c.1)

omit [LinearOrder D] in
/-- The hits of one shard carry keys routed to it. -/
theorem Built.routed_hit (h : Built okCode codec params n keys x) {i : Nat} {g : Hnsw κ}
    (hg : x.shards[i]? = some g) {p : P} {hit : Bytes × D} (hhit : Hnsw.Hit H g p hit) :
    shardOf n hit.1 = i := by
  obtain ⟨j, m, hm, hkey, -⟩ := hhit
  obtain ⟨-, -, -, hkeys⟩ := h.each i g hg
  have hmem : m.key ∈ routed n i keys := by
    rw [← hkeys]
    exact List.mem_map_of_mem (List.mem_of_getElem? hm)
  rw [← hkey]
  exact of_decide_eq_true (List.mem_filter.mp hmem).2

/-- The hits gathered from the first shards. -/
structure Gathered (H : Host κ V P D) (p : P) (n : Nat) (seen : List (Hnsw κ))
    (hits : List (Bytes × D)) : Prop where
  distinct : (hits.map Prod.fst).Nodup
  hits : ∀ hit ∈ hits, shardOf n hit.1 < seen.length ∧ ∃ g ∈ seen, Hnsw.Hit H g p hit

theorem gather_meets (hs : Hnsw.Sound H codec okVec okCode okQuery)
    (h : Built okCode codec params n keys x) {q : V} {p : P} (hprep : H.prepare codec q = .ok p)
    (hp : okQuery p) (k ef : Nat)
    (hfails : (H.grants 4 (max ef k * 4) && H.grants 32 k) = false → fails .capacity)
    {seen rest : List (Hnsw κ)} (hsplit : x.shards = seen ++ rest) {hits : List (Bytes × D)}
    (hhits : Gathered H p n seen hits) :
    Meets fails (rest.foldlM (fun hits g => do
      let out ← g.search H q k ef
      pure (hits ++ out)) hits) (Gathered H p n x.shards) := by
  induction rest generalizing seen hits with
  | nil =>
    rw [List.append_nil] at hsplit
    rw [hsplit]
    exact hhits
  | cons g rest ih =>
    rw [List.foldlM_cons]
    have hat : x.shards[seen.length]? = some g := by
      rw [hsplit, List.getElem?_append_right (Nat.le_refl _), Nat.sub_self]
      rfl
    obtain ⟨hinv, hcodec, hparams, -⟩ := h.each _ _ hat
    have hsearch : Meets fails (g.search H q k ef) (Hnsw.Answer H g p k) := by
      unfold Hnsw.search
      rw [hcodec, hprep]
      exact Hnsw.searchPrepared_meets (hcodec ▸ hs) hinv hp k ef hfails
    refine (hsearch.bind (Q := fun hits' => Gathered H p n (seen ++ [g]) hits') ?_).bind ?_
    · intro out hout
      refine ⟨?_, ?_⟩
      · rw [List.map_append, List.nodup_append]
        refine ⟨hhits.distinct, hout.distinct, ?_⟩
        intro key hkey key' hkey' heq
        -- keys of different shards differ
        obtain ⟨hit, hhit, rfl⟩ := List.mem_map.mp hkey
        obtain ⟨hit', hhit', rfl⟩ := List.mem_map.mp hkey'
        have hlow := (hhits.hits hit hhit).1
        have hhere := h.routed_hit hat (hout.hits hit' hhit')
        rw [heq] at hlow
        omega
      · intro hit hhit
        rw [List.length_append, List.length_singleton]
        rcases List.mem_append.mp hhit with hold | hnew
        · obtain ⟨hlow, g', hg', hit'⟩ := hhits.hits hit hold
          exact ⟨by omega, g', List.mem_append_left _ hg', hit'⟩
        · have hhere := h.routed_hit hat (hout.hits hit hnew)
          exact ⟨by omega, g, List.mem_append_right _ List.mem_cons_self, hout.hits hit hnew⟩
    · intro hits' hhits'
      refine ih ?_ hhits'
      rw [hsplit, List.append_assoc]
      rfl

/-- **A search of the index answers with live keys of all shards.** -/
theorem search_meets (hs : Hnsw.Sound H codec okVec okCode okQuery)
    (h : Built okCode codec params n keys x) {q : V} (hq : okVec q) (k ef : Nat)
    (hfails : (H.grants 4 (max ef k * 4) && H.grants 32 k && H.grants 32 (k * n)) = false →
      fails .capacity) :
    Meets fails (x.search H q k ef) (Answer H codec q k x) := by
  obtain ⟨p, hprep, hp⟩ := hs.prepare q hq
  unfold search Hnsw.requested
  rw [h.shards]
  cases hgrant : H.grants 32 (k * n) with
  | false => exact hfails (by rw [hgrant, Bool.and_false])
  | true =>
    have hinner : (H.grants 4 (max ef k * 4) && H.grants 32 k) = false → fails .capacity := by
      intro hno
      exact hfails (by rw [hno, Bool.false_and])
    have hnone : Gathered H p n ([] : List (Hnsw κ)) [] := ⟨List.nodup_nil, by simp⟩
    refine (gather_meets hs h hprep hp k ef hinner (List.nil_append _).symm hnone).bind ?_
    intro hits hhits
    have hperm := List.perm_insertionSort (HitLe : Bytes × D → Bytes × D → Prop) hits
    have hsub := List.take_sublist k (hits.insertionSort HitLe)
    refine ⟨List.length_take_le _ _, ?_, ?_, ?_⟩
    · exact ((hperm.map Prod.fst).nodup_iff.mpr hhits.distinct).sublist (hsub.map Prod.fst)
    · intro hit hhit
      have hmem := hperm.mem_iff.mp (hsub.subset hhit)
      exact ⟨p, hprep, (hhits.hits hit hmem).2⟩
    · refine ((List.pairwise_insertionSort HitLe hits).sublist hsub).imp ?_
      intro a b hab
      exact CandLe.dist_le hab

end Steps

end VectorIndex

/-! ## With distances left open -/

/-- Distances as arbitrary functions into a linear order, on vectors of the right
dimension; the draw of a level and the allocator are open too. -/
structure Distances (κ V P D : Type) where
  encode : κ → V → Bytes
  prepare : κ → V → P
  prepareCode : κ → Bytes → P
  distance : κ → Bytes → P → D
  distanceCodes : κ → Bytes → Bytes → D
  infinity : D
  below : UInt64 → Nat → Bool
  grants : Nat → Nat → Bool

def Distances.host (m : Distances κ V P D) : Host κ V P D :=
  ⟨fun c v => .ok (m.encode c v), fun c v => .ok (m.prepare c v),
    fun c b => .ok (m.prepareCode c b), fun c b p => .ok (m.distance c b p),
    fun c a b => .ok (m.distanceCodes c a b), m.infinity, m.below, m.grants⟩

theorem Distances.sound (m : Distances κ V P D) (c : κ) :
    Hnsw.Sound m.host c (fun _ => True) (fun _ => True) (fun _ => True) where
  encode v _ := ⟨m.encode c v, rfl, trivial⟩
  prepare v _ := ⟨m.prepare c v, rfl, trivial⟩
  prepareCode b _ := ⟨m.prepareCode c b, rfl, trivial⟩
  distance b p _ _ := ⟨m.distance c b p, rfl⟩
  distanceCodes a b _ _ := ⟨m.distanceCodes c a b, rfl⟩

namespace VectorIndex

/-- The run of an index from empty. -/
def run [LinearOrder D] (m : Distances κ V P D) (ns : UInt8 × UInt8) (codec : κ)
    (params : HnswParams) (n : Nat) (ops : List (Op V)) : Except Fault (VectorIndex κ) :=
  ops.foldlM (step m.host) (new ns codec params n)

/-- **The structure of the index, over every run** of adds and removes that gives no shard
more nodes than its positions can number. The run, and every search after it, either has
its capacity refused or ends, with the invariant of every graph and the results as
described; no index is out of bounds. -/
theorem index_structured [LinearOrder D] (m : Distances κ V P D) (ns : UInt8 × UInt8) (codec : κ)
    (params : HnswParams) {n : Nat} (hn : 0 < n) (ops : List (Op V))
    (hfew : ∀ i, (routed n i (added ops)).length ≤ 2 ^ 32) :
    Meets (fun f => f = .capacity ∧ m.grants 4 (params.efConstruction * 4) = false)
      (run m ns codec params n ops) fun x =>
        Built (fun _ => True) codec params n (added ops) x ∧
        ∀ (q : V) (k ef : Nat),
          Meets (fun f => f = .capacity ∧
              (m.grants 4 (max ef k * 4) && m.grants 32 k && m.grants 32 (k * n)) = false)
            (x.search m.host q k ef) (Answer m.host codec q k x) := by
  have hrun : Meets (fun f => f = .capacity ∧ m.grants 4 (params.efConstruction * 4) = false)
      (run m ns codec params n ops) (Built (fun _ => True) codec params n ([] ++ added ops)) :=
    run_meets (m.sound codec) hn (built_new (fun _ => True) ns codec params n)
      (fun _ _ _ => trivial) hfew fun hno => ⟨rfl, hno⟩
  refine hrun.mono ?_
  intro x hx
  refine ⟨hx, ?_⟩
  intro q k ef
  exact search_meets (m.sound codec) hx trivial k ef fun hno => ⟨rfl, hno⟩

/-! ## Past the last position -/

end VectorIndex

namespace Hnsw

/-- Keys and map are as before. -/
def SameKeys (g g' : Hnsw κ) : Prop :=
  g'.nodes.map Node.key = g.nodes.map Node.key ∧ g'.byKey = g.byKey

section Frames

variable [LinearOrder D] {H : Host κ V P D} {g : Hnsw κ} {key : Bytes} {v : V}

theorem link_frame (g : Hnsw κ) (source target l : Nat) :
    Meets (fun _ => True) (g.link H source target l) (SameShape g) := by
  unfold link
  split
  · exact SameShape.refl g
  · refine (meets_any _).bind ?_
    intro list _
    split
    · exact SameShape.refl g
    · refine (meets_any _).bind ?_
      intro n _
      refine (meets_any _).bind ?_
      intro out _
      exact setLevel_shape g source l out

theorem linkLayers_frame (p : P) (id count : Nat) (s : Hnsw κ × List Nat) :
    Meets (fun _ => True) (linkLayers H p id count s) fun s' => SameShape s.1 s'.1 := by
  induction count generalizing s with
  | zero => exact SameShape.refl s.1
  | succ count ih =>
    have hlayer : Meets (fun _ => True) (linkLayer H p id count s) fun s' => SameShape s.1 s'.1 := by
      refine (meets_any _).bind ?_
      intro cands _
      refine (meets_any _).bind ?_
      intro own _
      refine (Meets.foldlM (setLevel_shape s.1 id count _) ?_).bind ?_
      · intro g' n _ hg'
        exact (link_frame g' n id count).mono fun g'' hg'' => hg'.trans hg''
      · intro g' hg'
        exact hg'
    refine hlayer.bind ?_
    intro s' hs'
    exact (ih s').mono fun s'' hs'' => hs'.trans hs''

theorem connect_frame (g : Hnsw κ) (code : Bytes) (id level : Nat) :
    Meets (fun _ => True) (g.connect H code id level) fun g' =>
      g'.nodes.map shape = g.nodes.map shape ∧ g'.byKey = g.byKey := by
  unfold connect
  cases g.entry with
  | none => exact ⟨rfl, rfl⟩
  | some ep =>
    refine (meets_any _).bind ?_
    intro p _
    refine (meets_any _).bind ?_
    intro ep' _
    refine (linkLayers_frame p id _ (g, [ep'])).bind ?_
    intro s hs
    have hmap : s.1.byKey = g.byKey := by rw [hs.rest]
    rw [meets_pure]
    split
    · exact ⟨hs.nodes, hmap⟩
    · exact ⟨hs.nodes, hmap⟩

theorem bury_frame (g : Hnsw κ) (key : Bytes) :
    Meets (fun _ => True) (g.bury key) fun r => SameKeys g r.2 := by
  unfold bury
  cases g.byKey.get key with
  | none => exact ⟨rfl, rfl⟩
  | some old =>
    refine (meets_any _).bind ?_
    intro n _
    split
    · exact ⟨rfl, rfl⟩
    · split
      · exact trivial
      · exact ⟨keys_entomb g old, rfl⟩

/-- **What an insertion does to keys and map**, in any graph. -/
theorem insert_frame (g : Hnsw κ) (key : Bytes) (v : V) :
    Meets (fun _ => True) (g.insert H key v) fun g' =>
      g'.nodes.map Node.key = g.nodes.map Node.key ++ [key] ∧
      g'.byKey = g.byKey.insert key (g.nodes.length % 2 ^ 32) := by
  unfold insert
  refine (meets_any _).bind ?_
  intro code _
  refine (bury_frame g key).bind ?_
  rintro ⟨gone, g₁⟩ ⟨hkeys, hmap⟩
  simp only at hkeys hmap
  have hlen : g₁.nodes.length = g.nodes.length := by
    have hlength := congrArg List.length hkeys
    rwa [List.length_map, List.length_map] at hlength
  refine (connect_frame _ _ _ _).mono ?_
  rintro g' ⟨hshape, hmap'⟩
  refine ⟨by rw [keys_of_shape hshape, keys_push, hkeys], ?_⟩
  rw [hmap']
  simp only [push]
  rw [hmap, hlen]

end Frames

/-- A map that sends a key to a node of another key is no longer the map of the latest. -/
theorem not_keyed_wrapped {g : Hnsw κ} {first key : Bytes} (hne : first ≠ key)
    (hfirst : (g.nodes.map Node.key)[0]? = some first) (hget : g.byKey.get key = some 0) :
    ¬ Keyed g := by
  intro h
  have hat := ((h.latest key 0).mp hget).1
  rw [hfirst] at hat
  exact hne (Option.some.inj hat)

end Hnsw

namespace VectorIndex

/-- Constant distances, level 0, every request granted. -/
def flat (grants : Nat → Nat → Bool) : Distances Unit Unit Unit Nat :=
  ⟨fun _ _ => [], fun _ _ => (), fun _ _ => (), fun _ _ _ => 0, fun _ _ _ => 0, 0,
    fun _ _ => false, grants⟩

/-- Many adds of the empty key, then one of another. -/
def overfull (count : Nat) : List (Op Unit) := List.replicate count (.add [] ()) ++ [.add [1] ()]

theorem added_replicate (count : Nat) :
    added (List.replicate count (Op.add [] ())) = List.replicate count [] := by
  induction count with
  | zero => rfl
  | succ count ih => rw [List.replicate_succ, added, ih, List.replicate_succ]

theorem routed_one (keys : List Bytes) : routed 1 0 keys = keys := by
  refine List.filter_eq_self.mpr ?_
  intro key _
  simp [shardOf, Nat.mod_one]

/-- After `2 ^ 32` nodes the next one is recorded under the first position. -/
theorem overfull_wraps {count : Nat} (hpos : 0 < count) (hcount : count = 2 ^ 32)
    (params : HnswParams) :
    Meets (fun _ => True) (run (flat fun _ _ => true) (0, 0) () params 1 (overfull count)) fun x =>
      ¬ ∀ g ∈ x.shards, Hnsw.Keyed g := by
  -- before the last add every id is free
  have hbefore : Meets (fun _ => True)
      ((List.replicate count (Op.add [] ())).foldlM (step (flat fun _ _ => true).host)
        (new (0, 0) () params 1))
      (Built (fun _ => True) () params 1
        ([] ++ added (List.replicate count (Op.add [] ())))) := by
    refine run_meets ((flat fun _ _ => true).sound ()) Nat.one_pos
      (built_new (fun _ => True) (0, 0) () params 1) (fun _ _ _ => trivial) ?_ fun _ => trivial
    intro i
    refine le_trans (List.length_filter_le _ _) ?_
    rw [List.nil_append, added_replicate, List.length_replicate, hcount]
  unfold run overfull
  rw [List.foldlM_append]
  refine hbefore.bind ?_
  intro x hx
  rw [List.nil_append, added_replicate] at hx
  rw [List.foldlM_cons]
  have hlt : 0 < x.shards.length := by
    rw [hx.shards]
    exact Nat.one_pos
  obtain ⟨-, -, -, hkeys⟩ := hx.each 0 _ (List.getElem?_eq_getElem hlt)
  rw [routed_one] at hkeys
  have hlen : (x.shards[0]).nodes.length = count := by
    rw [← List.length_map Node.key, hkeys, List.length_replicate]
  -- the last key goes to the same shard, where its id wraps to that of the first
  have hroute : shardOf x.shards.length [1] = 0 := by
    rw [hx.shards, shardOf, Nat.mod_one]
  have hadd : Meets (fun _ => True) (x.add (flat fun _ _ => true).host [1] ()) fun x' =>
      ¬ ∀ g ∈ x'.shards, Hnsw.Keyed g := by
    unfold add
    rw [hroute, shard_of_get (List.getElem?_eq_getElem hlt)]
    refine (Hnsw.insert_frame (x.shards[0]) [1] ()).bind ?_
    rintro g' ⟨hkeys', hmap'⟩ hall
    have hmem : g' ∈ x.shards.set 0 g' := List.mem_set hlt g'
    have hne : ([] : Bytes) ≠ [1] := by simp
    refine Hnsw.not_keyed_wrapped hne ?_ ?_ (hall g' hmem)
    · rw [hkeys', hkeys, List.getElem?_append_left (by rw [List.length_replicate]; exact hpos),
        List.getElem?_replicate, if_pos hpos]
    · rw [hmap', hlen, hcount, Nat.mod_self, SortedMap.get_insert_self]
  refine hadd.bind ?_
  intro x' hx'
  exact hx'

/-- Past `2 ^ 32` adds to one shard a key maps to the node of another; and a beam wider than
the allocator grants stops the second add. -/
theorem position_wraps :
    (¬ ∃ x, run (flat fun _ _ => true) (0, 0) () ⟨16, 32, 100, 0⟩ 1 (overfull (2 ^ 32)) = .ok x ∧
      ∀ g ∈ x.shards, Hnsw.Keyed g) ∧
    (run (flat fun size count => size * count < 2 ^ 63) (0, 0) () ⟨16, 32, 2 ^ 62, 0⟩ 1
      (overfull 1)).toOption.isNone := by
  constructor
  · generalize hcount : (2 ^ 32 : Nat) = count
    have hpos : 0 < count := by
      rw [← hcount]
      exact Nat.two_pow_pos 32
    rintro ⟨x, hx, hall⟩
    exact (overfull_wraps hpos hcount.symm ⟨16, 32, 100, 0⟩).of_ok hx hall
  · decide +kernel

/-- The structure of a small run. -/
theorem index_structured_here :
    Meets (fun f => f = .capacity ∧ (flat fun _ _ => true).grants 4 (100 * 4) = false)
      (run (flat fun _ _ => true) (0, 0) () ⟨16, 32, 100, 0⟩ 1 (overfull 1)) fun x =>
        Built (fun _ => True) () ⟨16, 32, 100, 0⟩ 1 (added (overfull 1)) x ∧
        ∀ (q : Unit) (k ef : Nat),
          Meets (fun f => f = .capacity ∧ ((flat fun _ _ => true).grants 4 (max ef k * 4) &&
              (flat fun _ _ => true).grants 32 k && (flat fun _ _ => true).grants 32 (k * 1)) = false)
            (x.search (flat fun _ _ => true).host q k ef)
            (Answer (flat fun _ _ => true).host () q k x) := by
  refine index_structured (flat fun _ _ => true) (0, 0) () ⟨16, 32, 100, 0⟩ Nat.one_pos (overfull 1) ?_
  intro i
  refine le_trans (List.length_filter_le _ _) ?_
  decide

end VectorIndex

end Okm.Vector
