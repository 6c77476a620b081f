import Okm.Vector.Snapshot
import Okm.Vector.Wired

/-!
# Sequences of requests

An index is asked to add, remove, search and save, one request after the other; a fault
ends the sequence. Two facts about a whole sequence are proved from one request:
an index of wired graphs answers them all (`serveAll_answers`), and two indexes that differ
in their generators of levels alone answer alike while nothing is added to a shard where
they differ (`serveAll_alike`).
-/

namespace Okm.Vector

open Lib Model

inductive Request (V : Type) where
  | add (key : Bytes) (v : V)
  | remove (key : Bytes)
  | search (q : V) (k ef : Nat)
  | save

/-- What a request is answered; a save with the blobs it writes. -/
inductive Reply (D : Type) where
  | added
  | removed (gone : Bool)
  | found (hits : List (Bytes × D))
  | saved (ops : List (Lib.Op Bytes Bytes))
  deriving DecidableEq

variable {V P D : Type}

namespace VectorIndex

section

variable [LinearOrder D] (H : Host Codec V P D)

def serve (x : VectorIndex Codec) : Request V → Except Fault (Reply D × VectorIndex Codec)
  | .add key v => do
    let x ← x.add H key v
    pure (.added, x)
  | .remove key => do
    let r ← x.remove key
    pure (.removed r.1, r.2)
  | .search q k ef => do
    let hits ← x.search H q k ef
    pure (.found hits, x)
  | .save => pure (.saved x.saveOps, x)

/-- The answers to a sequence of requests; a fault is the last. -/
def serveAll : VectorIndex Codec → List (Request V) → List (Except Fault (Reply D))
  | _, [] => []
  | x, req :: reqs =>
    match serve H x req with
    | .ok (reply, x') => .ok reply :: serveAll x' reqs
    | .error f => [.error f]

end

/-! ## Requests that can be answered -/

/-- How many requests add a node. -/
def adds : List (Request V) → Nat
  | [] => 0
  | .add _ _ :: reqs => adds reqs + 1
  | _ :: reqs => adds reqs

/-- The vectors suit the codec of every shard, and what a search asks room for can be
expressed. -/
def Suits (okVec : Codec → V → Prop) (x : VectorIndex Codec) : Request V → Prop
  | .add _ v => ∀ g ∈ x.shards, okVec g.codec v
  | .remove _ => True
  | .search q k ef => (∀ g ∈ x.shards, okVec g.codec q) ∧ 4 * (max ef k * 4) < 2 ^ 63 ∧
      32 * (k * x.shards.length) < 2 ^ 63
  | .save => True

/-- The allocator refuses no request it can express. -/
def Granting (H : Host Codec V P D) : Prop :=
  ∀ size count, size * count < 2 ^ 63 → H.grants size count = true

/-- An index of wired graphs. -/
structure Sane (okCode : Codec → Bytes → Prop) (x : VectorIndex Codec) : Prop where
  some : x.shards ≠ []
  wired : ∀ g ∈ x.shards, Hnsw.Wired (okCode g.codec) g
  beam : ∀ g ∈ x.shards, g.params.efConstruction < 2 ^ 16

/-- The same codecs, and at most `extra` nodes more in a shard. -/
structure Grown (extra : Nat) (x x' : VectorIndex Codec) : Prop where
  count : x'.shards.length = x.shards.length
  each : ∀ g' ∈ x'.shards, ∃ g ∈ x.shards, g'.codec = g.codec ∧
    g'.nodes.length ≤ g.nodes.length + extra

section Answers

variable {okVec : Codec → V → Prop} {okCode : Codec → Bytes → Prop} {okQuery : Codec → P → Prop}
  {x x' : VectorIndex Codec} {extra : Nat}

theorem Grown.refl (extra : Nat) (x : VectorIndex Codec) : Grown extra x x :=
  ⟨rfl, fun g hg => ⟨g, hg, rfl, Nat.le_add_right _ _⟩⟩

theorem Grown.suits (h : Grown extra x x') {req : Request V} (hreq : Suits okVec x req) :
    Suits okVec x' req := by
  have hvec : ∀ v, (∀ g ∈ x.shards, okVec g.codec v) → ∀ g' ∈ x'.shards, okVec g'.codec v := by
    intro v hv g' hg'
    obtain ⟨g, hg, hcodec, -⟩ := h.each g' hg'
    rw [hcodec]
    exact hv g hg
  cases req with
  | add key v => exact hvec v hreq
  | remove key => exact trivial
  | search q k ef =>
    obtain ⟨hq, hbeam, hroom⟩ := hreq
    exact ⟨hvec q hq, hbeam, by rw [h.count]; exact hroom⟩
  | save => exact trivial

/-- One shard replaced by what its own verb made of it. -/
theorem Sane.set (h : Sane okCode x) {i : Nat} (hi : i < x.shards.length) {g' : Hnsw Codec}
    (hwired : Hnsw.Wired (okCode g'.codec) g') (hcodec : g'.codec = (x.shards[i]).codec)
    (hparams : g'.params = (x.shards[i]).params)
    (hcount : g'.nodes.length ≤ (x.shards[i]).nodes.length + extra) :
    Sane okCode { x with shards := x.shards.set i g' } ∧
      Grown extra x { x with shards := x.shards.set i g' } := by
  have hmem : x.shards[i] ∈ x.shards := List.getElem_mem hi
  refine ⟨⟨?_, ?_, ?_⟩, ⟨List.length_set, ?_⟩⟩
  · intro hnil
    have hlength := congrArg List.length hnil
    rw [List.length_set, List.length_nil] at hlength
    omega
  · intro g hg
    rcases List.mem_or_eq_of_mem_set hg with hold | rfl
    · exact h.wired g hold
    · exact hwired
  · intro g hg
    rcases List.mem_or_eq_of_mem_set hg with hold | rfl
    · exact h.beam g hold
    · rw [hparams]
      exact h.beam _ hmem
  · intro g hg
    rcases List.mem_or_eq_of_mem_set hg with hold | rfl
    · exact ⟨g, hold, rfl, Nat.le_add_right _ _⟩
    · exact ⟨x.shards[i], hmem, hcodec, hcount⟩

variable [LinearOrder D] {H : Host Codec V P D}

/-- **One request is answered.** -/
theorem serve_answers
    (hs : ∀ g ∈ x.shards, Hnsw.Sound H g.codec (okVec g.codec) (okCode g.codec) (okQuery g.codec))
    (hgrant : Granting H) (h : Sane okCode x) {req : Request V} (hreq : Suits okVec x req)
    (hfew : ∀ g ∈ x.shards, g.nodes.length + adds [req] ≤ 2 ^ 32) :
    Meets (fun _ => False) (serve H x req) fun r =>
      Sane okCode r.2 ∧ Grown (adds [req]) x r.2 := by
  have hpos : 0 < x.shards.length := List.length_pos_of_ne_nil h.some
  cases req with
  | add key v =>
    have hlt : shardOf x.shards.length key < x.shards.length := shardOf_lt hpos key
    have hmem := List.getElem_mem hlt
    have hbeam := h.beam _ hmem
    -- one node more still has an id
    have hroom : (x.shards[shardOf x.shards.length key]).nodes.length < 2 ^ 32 := by
      have hone := hfew _ hmem
      have hadds : adds [Request.add key v] = 1 := rfl
      omega
    have hadd : Meets (fun _ => False) (x.add H key v) fun x' => Sane okCode x' ∧ Grown 1 x x' := by
      unfold add
      rw [shard_of_get (List.getElem?_eq_getElem hlt)]
      refine (Hnsw.insert_wired (hs _ hmem) (h.wired _ hmem) (hreq _ hmem) hroom key ?_).bind ?_
      · intro hno
        rw [hgrant _ _ (by omega)] at hno
        cases hno
      · rintro g' ⟨hwired, hcodec, hparams, hcount⟩
        exact h.set hlt (by rw [hcodec]; exact hwired) hcodec hparams (by omega)
    exact hadd.bind fun x' hx' => hx'
  | remove key =>
    have hlt : shardOf x.shards.length key < x.shards.length := shardOf_lt hpos key
    have hmem := List.getElem_mem hlt
    have hremove : Meets (fun _ => False) (x.remove key) fun r =>
        Sane okCode r.2 ∧ Grown 0 x r.2 := by
      unfold remove Hnsw.remove
      rw [shard_of_get (List.getElem?_eq_getElem hlt)]
      refine (Hnsw.bury_wired (h.wired _ hmem) key).bind ?_
      rintro ⟨gone, g'⟩ ⟨hwired, hkept⟩
      have hcodec := hkept.codec
      exact h.set hlt (by rw [hcodec]; exact hwired) hcodec hkept.params (Nat.le_of_eq hkept.count)
    exact hremove.bind fun r hr => hr
  | search q k ef =>
    obtain ⟨hq, hbeam, hroom⟩ := hreq
    have hk : k ≤ k * x.shards.length := Nat.le_mul_of_pos_right k hpos
    -- every shard is searched, and the hits merged
    have hgather : Meets (fun _ => False) (x.shards.foldlM (fun hits g => do
        let out ← g.search H q k ef
        pure (hits ++ out)) []) fun _ => True := by
      refine Meets.foldlM trivial ?_
      intro hits g hg _
      refine (Hnsw.search_wired (hs g hg) (h.wired g hg) (hq g hg) k ef ?_).bind fun _ _ => trivial
      intro hno
      rw [hgrant 4 _ hbeam, hgrant 32 k (by omega)] at hno
      cases hno
    have hsearch : Meets (fun _ => False) (x.search H q k ef) fun _ => True := by
      unfold search Hnsw.requested
      rw [hgrant 32 _ hroom]
      exact hgather.bind fun _ _ => trivial
    exact hsearch.bind fun _ _ => ⟨h, Grown.refl 0 x⟩
  | save => exact ⟨h, Grown.refl 0 x⟩

theorem adds_cons (req : Request V) (reqs : List (Request V)) :
    adds (req :: reqs) = adds [req] + adds reqs := by
  cases req with
  | add key v => exact Nat.add_comm _ _
  | remove key => exact (Nat.zero_add _).symm
  | search q k ef => exact (Nat.zero_add _).symm
  | save => exact (Nat.zero_add _).symm

/-- **A sequence of requests is answered**, while no shard gets more nodes than it can
number. -/
theorem serveAll_answers
    (hs : ∀ g ∈ x.shards, Hnsw.Sound H g.codec (okVec g.codec) (okCode g.codec) (okQuery g.codec))
    (hgrant : Granting H) (h : Sane okCode x) {reqs : List (Request V)}
    (hreqs : ∀ req ∈ reqs, Suits okVec x req)
    (hfew : ∀ g ∈ x.shards, g.nodes.length + adds reqs ≤ 2 ^ 32) :
    ∀ f, .error f ∉ serveAll H x reqs := by
  induction reqs generalizing x with
  | nil =>
    intro f hf
    cases hf
  | cons req reqs ih =>
    -- the adds still to come are counted over the whole list
    have hfirst : ∀ g ∈ x.shards, g.nodes.length + adds [req] ≤ 2 ^ 32 := by
      intro g hg
      have hone := hfew g hg
      rw [adds_cons] at hone
      omega
    have hserve := serve_answers hs hgrant h (hreqs req List.mem_cons_self) hfirst
    intro f hf
    rw [serveAll] at hf
    cases hrun : serve H x req with
    | error f' =>
      rw [hrun] at hserve
      exact hserve
    | ok answer =>
      rw [hrun] at hserve hf
      obtain ⟨reply, x'⟩ := answer
      obtain ⟨hsane, hgrown⟩ := hserve
      rcases List.mem_cons.mp hf with heq | hrest
      · cases heq
      · refine ih (x := x') ?_ hsane ?_ ?_ f hrest
        · intro g' hg'
          obtain ⟨g, hg, hcodec, -⟩ := hgrown.each g' hg'
          rw [hcodec]
          exact hs g hg
        · intro req' hreq'
          exact hgrown.suits (hreqs req' (List.mem_cons_of_mem req hreq'))
        · intro g' hg'
          obtain ⟨g, hg, -, hcount⟩ := hgrown.each g' hg'
          have hone := hfew g hg
          rw [adds_cons] at hone
          omega

end Answers

end VectorIndex

/-! ## Graphs that differ in their generator -/

namespace Hnsw

/-- The same graph with its generator of levels elsewhere. -/
def reseed {κ : Type} (g : Hnsw κ) (state : UInt64) : Hnsw κ := { g with rng := state }

variable {κ : Type} [LinearOrder D] (H : Host κ V P D) (g : Hnsw κ) (state : UInt64)

theorem descend_reseed (p : P) (lo count ep : Nat) :
    (g.reseed state).descend H p lo count ep = g.descend H p lo count ep := by
  induction count generalizing ep with
  | zero => rfl
  | succ count ih =>
    unfold descend
    exact congrArg (g.greedy H p ep (lo + count) >>= ·) (funext fun ep' => ih ep')

omit [LinearOrder D] in
theorem collect_reseed (k : Nat) (cands : List (D × Nat)) :
    (g.reseed state).collect k cands = g.collect k cands := by
  induction cands generalizing k with
  | nil =>
    cases k with
    | zero => rfl
    | succ k => rfl
  | cons c cands ih =>
    cases k with
    | zero => rfl
    | succ k =>
      unfold collect
      rw [ih (k + 1), ih k]
      rfl

/-- A search draws no level. -/
theorem search_reseed (q : V) (k ef : Nat) :
    (g.reseed state).search H q k ef = g.search H q k ef := by
  unfold search searchPrepared
  simp only [descend_reseed, collect_reseed]
  rfl

omit [LinearOrder D] in
/-- Nor does a removal. -/
theorem bury_reseed (key : Bytes) :
    (g.reseed state).bury key = (g.bury key).map fun r => (r.1, r.2.reseed state) := by
  have hkeys : (g.reseed state).byKey = g.byKey := rfl
  unfold bury
  rw [hkeys]
  cases g.byKey.get key with
  | none => rfl
  | some old =>
    change (g.node old >>= _) = Except.map _ (g.node old >>= _)
    cases g.node old with
    | error f => rfl
    | ok n =>
      simp only [bind, Except.bind]
      by_cases htomb : n.tomb = true
      · rw [if_pos htomb, if_pos htomb]
        rfl
      · have hsame : (g.reseed state).live = g.live := rfl
        rw [if_neg htomb, if_neg htomb, hsame]
        by_cases hlive : g.live = 0
        · rw [if_pos hlive, if_pos hlive]
          rfl
        · rw [if_neg hlive, if_neg hlive]
          rfl

end Hnsw

namespace VectorIndex

/-- **The same index but for the generators of some shards**, none of them `fresh`. -/
structure Alike (fresh : Nat → Prop) (x y : VectorIndex Codec) : Prop where
  ns : y.ns = x.ns
  shards : List.Forall₂ (fun g g' => ∃ state, g' = Hnsw.reseed g state) x.shards y.shards
  same : ∀ i, fresh i → y.shards[i]? = x.shards[i]?

variable {fresh : Nat → Prop} {x y : VectorIndex Codec}

theorem Alike.count (h : Alike fresh x y) : y.shards.length = x.shards.length :=
  h.shards.length_eq.symm

theorem Alike.shard {i : Nat} {g : Hnsw Codec} (h : Alike fresh x y) (hg : x.shards[i]? = some g) :
    ∃ state, y.shards[i]? = some (g.reseed state) := by
  have hlt := (List.getElem?_eq_some_iff.mp hg).1
  have hlt' : i < y.shards.length := by rw [h.count]; exact hlt
  obtain ⟨state, hstate⟩ := (List.forall₂_iff_get.mp h.shards).2 i hlt hlt'
  refine ⟨state, ?_⟩
  rw [List.getElem?_eq_getElem hlt] at hg
  rw [List.getElem?_eq_getElem hlt', ← Option.some.inj hg]
  exact congrArg some hstate

/-- Both indexes have the same shard replaced. -/
theorem Alike.set (h : Alike fresh x y) (i : Nat) {g g' : Hnsw Codec}
    (hg : ∃ state, g' = g.reseed state) (hsame : fresh i → g' = g) :
    Alike fresh { x with shards := x.shards.set i g } { y with shards := y.shards.set i g' } := by
  refine ⟨h.ns, ?_, ?_⟩
  · refine List.forall₂_iff_get.mpr ⟨?_, ?_⟩
    · rw [List.length_set, List.length_set, h.count]
    · intro j hj hj'
      rw [List.get_eq_getElem, List.get_eq_getElem, List.getElem_set, List.getElem_set]
      by_cases hij : i = j
      · rw [if_pos hij, if_pos hij]
        exact hg
      · rw [if_neg hij, if_neg hij]
        rw [List.length_set] at hj hj'
        exact (List.forall₂_iff_get.mp h.shards).2 j hj hj'
  · intro j hj
    rw [List.getElem?_set', List.getElem?_set']
    by_cases hij : i = j
    · subst hij
      rw [h.same i hj, hsame hj]
    · rw [if_neg hij, if_neg hij]
      exact h.same j hj

/-- Blobs hold no generator. -/
theorem Alike.saveOps (h : Alike fresh x y) : y.saveOps = x.saveOps := by
  unfold VectorIndex.saveOps
  rw [h.count, h.ns]
  have hzip : ∀ {xs ys : List (Hnsw Codec)} (k : Nat),
      List.Forall₂ (fun g g' => ∃ state, g' = Hnsw.reseed g state) xs ys →
      (ys.zipIdx k).map (fun s => (slotKey x.ns s.2,
        some (shardHead x.ns x.shards.length s.2 ++ s.1.encode)))
      = (xs.zipIdx k).map fun s => (slotKey x.ns s.2,
        some (shardHead x.ns x.shards.length s.2 ++ s.1.encode)) := by
    intro xs ys k hxs
    induction hxs generalizing k with
    | nil => rfl
    | cons hg _ ih =>
      obtain ⟨state, rfl⟩ := hg
      rw [List.zipIdx_cons, List.zipIdx_cons, List.map_cons, List.map_cons, ih]
      rfl
  exact hzip 0 h.shards

variable [LinearOrder D] {H : Host Codec V P D}

/-- Both fault alike, or both answer alike and stay alike. -/
def AnswersAlike (fresh : Nat → Prop) (r r' : Except Fault (Reply D × VectorIndex Codec)) : Prop :=
  (∃ f, r = .error f ∧ r' = .error f) ∨
    ∃ reply x y, r = .ok (reply, x) ∧ r' = .ok (reply, y) ∧ Alike fresh x y

theorem Alike.search (h : Alike fresh x y) (q : V) (k ef : Nat) :
    y.search H q k ef = x.search H q k ef := by
  have hfold : ∀ {xs ys : List (Hnsw Codec)} (hits : List (Bytes × D)),
      List.Forall₂ (fun g g' => ∃ state, g' = Hnsw.reseed g state) xs ys →
      ys.foldlM (fun hits g => do
        let out ← g.search H q k ef
        pure (hits ++ out)) hits
      = xs.foldlM (fun hits g => do
        let out ← g.search H q k ef
        pure (hits ++ out)) hits := by
    intro xs ys hits hxs
    induction hxs generalizing hits with
    | nil => rfl
    | cons hg _ ih =>
      obtain ⟨state, rfl⟩ := hg
      rw [List.foldlM_cons, List.foldlM_cons, Hnsw.search_reseed]
      exact congrArg _ (funext fun hits' => ih hits')
  unfold VectorIndex.search
  rw [h.count, hfold [] h.shards]

/-- **One request is answered alike**, if what is added goes to a shard where the generators
agree. -/
theorem serve_alike (h : Alike fresh x y) {req : Request V}
    (hreq : ∀ key v, req = .add key v → fresh (shardOf x.shards.length key)) :
    AnswersAlike fresh (serve H x req) (serve H y req) := by
  cases req with
  | add key v =>
    have hfresh := hreq key v rfl
    have hsame := h.same _ hfresh
    change AnswersAlike fresh (x.add H key v >>= fun x' => pure (Reply.added, x'))
      (y.add H key v >>= fun y' => pure (Reply.added, y'))
    unfold add shard
    rw [h.count, hsame]
    cases x.shards[shardOf x.shards.length key]? with
    | none => exact Or.inl ⟨.index, rfl, rfl⟩
    | some g =>
      simp only [bind, Except.bind]
      cases g.insert H key v with
      | error f => exact Or.inl ⟨f, rfl, rfl⟩
      | ok g' =>
        exact Or.inr ⟨.added, _, _, rfl, rfl, h.set _ ⟨g'.rng, rfl⟩ fun _ => rfl⟩
  | remove key =>
    change AnswersAlike fresh (x.remove key >>= fun r => pure (Reply.removed r.1, r.2))
      (y.remove key >>= fun r => pure (Reply.removed r.1, r.2))
    unfold remove shard Hnsw.remove
    rw [h.count]
    cases hx : x.shards[shardOf x.shards.length key]? with
    | none =>
      have hy : y.shards[shardOf x.shards.length key]? = none := by
        rw [List.getElem?_eq_none_iff] at hx ⊢
        rw [h.count]
        exact hx
      rw [hy]
      exact Or.inl ⟨.index, rfl, rfl⟩
    | some g =>
      obtain ⟨state, hstate⟩ := h.shard hx
      rw [hstate]
      simp only [bind, Except.bind]
      rw [Hnsw.bury_reseed]
      cases hbury : g.bury key with
      | error f => exact Or.inl ⟨f, rfl, rfl⟩
      | ok r =>
        obtain ⟨gone, g'⟩ := r
        refine Or.inr ⟨.removed gone, _, _, rfl, rfl, h.set _ ⟨state, rfl⟩ ?_⟩
        -- where the generators agree there is nothing to change
        intro hfresh
        have hagree := h.same _ hfresh
        rw [hx, hstate] at hagree
        have hboth := Option.some.inj hagree
        have hrun := Hnsw.bury_reseed g state key
        rw [hboth, hbury] at hrun
        exact (congrArg Prod.snd (Except.ok.inj hrun)).symm
  | search q k ef =>
    change AnswersAlike fresh (x.search H q k ef >>= fun hits => pure (Reply.found hits, x))
      (y.search H q k ef >>= fun hits => pure (Reply.found hits, y))
    rw [h.search]
    cases x.search H q k ef with
    | error f => exact Or.inl ⟨f, rfl, rfl⟩
    | ok hits => exact Or.inr ⟨.found hits, x, y, rfl, rfl, h⟩
  | save =>
    have hsaved : serve H y .save = .ok (.saved x.saveOps, y) := by
      rw [← h.saveOps]
      rfl
    exact Or.inr ⟨.saved x.saveOps, x, y, rfl, hsaved, h⟩

/-- A served request keeps the number of shards. -/
theorem serve_count {req : Request V} {reply : Reply D} {x' : VectorIndex Codec}
    (h : serve H x req = .ok (reply, x')) : x'.shards.length = x.shards.length := by
  cases req with
  | add key v =>
    obtain ⟨x₁, hadd, hrest⟩ := bind_eq_ok.mp h
    obtain ⟨g, -, hadd⟩ := bind_eq_ok.mp hadd
    obtain ⟨g', -, hadd⟩ := bind_eq_ok.mp hadd
    rw [← (Prod.mk.inj (Except.ok.inj hrest)).2, ← Except.ok.inj hadd]
    exact List.length_set
  | remove key =>
    obtain ⟨r, hremove, hrest⟩ := bind_eq_ok.mp h
    obtain ⟨g, -, hremove⟩ := bind_eq_ok.mp hremove
    obtain ⟨g', -, hremove⟩ := bind_eq_ok.mp hremove
    rw [← (Prod.mk.inj (Except.ok.inj hrest)).2, ← Except.ok.inj hremove]
    exact List.length_set
  | search q k ef =>
    obtain ⟨hits, -, hrest⟩ := bind_eq_ok.mp h
    rw [← (Prod.mk.inj (Except.ok.inj hrest)).2]
  | save => rw [← (Prod.mk.inj (Except.ok.inj h)).2]

/-- **A sequence of requests is answered alike**, if what is added goes to shards where the
generators agree. -/
theorem serveAll_alike (h : Alike fresh x y) {reqs : List (Request V)}
    (hreqs : ∀ key v, .add key v ∈ reqs → fresh (shardOf x.shards.length key)) :
    serveAll H y reqs = serveAll H x reqs := by
  induction reqs generalizing x y with
  | nil => rfl
  | cons req reqs ih =>
    have hone : ∀ key v, req = .add key v → fresh (shardOf x.shards.length key) := by
      intro key v heq
      exact hreqs key v (heq ▸ List.mem_cons_self)
    rw [serveAll, serveAll]
    rcases serve_alike (H := H) h hone with ⟨f, hx, hy⟩ | ⟨reply, x', y', hx, hy, h'⟩
    · rw [hx, hy]
    · rw [hx, hy]
      dsimp only
      have hrest : ∀ key v, .add key v ∈ reqs → fresh (shardOf x'.shards.length key) := by
        intro key v hmem
        rw [serve_count hx]
        exact hreqs key v (List.mem_cons_of_mem req hmem)
      rw [ih h' hrest]

end VectorIndex

end Okm.Vector
