import Okm.Vector.LoadBound
import Okm.Vector.Reload

/-!
# Snapshots that can be trusted

Loading trusts the blobs. It is safe, and so is what it returns, if every blob announces no
more than it holds and spells a graph that is wired. `save` writes such blobs
(`announced_saved`, `truthful_saved`); a blob of a few bytes that is not one of them makes
the reader ask for gigabytes or the next search panic.

`snapshots_faithful` puts this beside what a reloaded index is good for: it answers as the
original does until something is added to a shard that had something added before.
-/

namespace Okm.Vector

open Lib Model VirtualStorage Engine

variable {V P D : Type}

/-! ## Blobs that can be trusted -/

/-- Codecs the code can have built: no product quantizer of dimension 0. -/
def Codec.Proper (codec : Codec) : Prop := codec.Fits ∧ ∀ m ksub cs, codec ≠ .pq 0 m ksub cs

/-- **Where a blob spells a graph, it is a wired one of this codec.** -/
def Truthful (okCode : Codec → Bytes → Prop) (codec : Codec) (ns : UInt8 × UInt8) (shard : Nat)
    (blob : Bytes) : Prop :=
  ∀ count (r : RawGraph), shard < count → count < 256 ^ 2 → r.Fits →
    blob = shardHead ns count shard ++ r.bytes →
    r.codec = codec ∧ Hnsw.Wired (okCode codec) r.graph

namespace Hnsw

/-- The positions of some nodes are as many as the nodes. -/
theorem card_positions (nodes : List Node) (p : Node → Bool) :
    ((Finset.range nodes.length).filter fun i => (nodes[i]?).any p = true).card
      = nodes.countP p := by
  induction nodes using List.reverseRecOn with
  | nil => rfl
  | append_singleton nodes n ih =>
    have hold : ((Finset.range nodes.length).filter fun i => ((nodes ++ [n])[i]?).any p = true)
        = (Finset.range nodes.length).filter fun i => (nodes[i]?).any p = true := by
      refine Finset.filter_congr fun i hi => ?_
      rw [List.getElem?_append_left (Finset.mem_range.mp hi)]
    have hlast : (nodes ++ [n])[nodes.length]? = some n := by
      rw [List.getElem?_append_right (Nat.le_refl _), Nat.sub_self]
      rfl
    rw [List.length_append, List.length_singleton, Finset.range_add_one, Finset.filter_insert, hold,
      hlast, List.countP_append, ← ih, Option.any_some, List.countP_singleton]
    by_cases hp : p n = true
    · rw [if_pos hp, if_pos hp, Finset.card_insert_of_notMem]
      intro hmem
      exact Nat.lt_irrefl _ (Finset.mem_range.mp (Finset.mem_filter.mp hmem).1)
    · rw [if_neg hp, if_neg hp, Nat.add_zero]

/-- **The graphs of an index are wired.** -/
theorem Inv.wired {κ : Type} {okCode : Bytes → Prop} {g : Hnsw κ} (h : Inv okCode g) :
    Wired okCode g := by
  refine ⟨fun i l list hlist => (h.links i l list hlist).1, h.coded, ?_, ?_, ?_⟩
  · intro key i hget
    exact ((h.keyed.latest key i).mp hget).1
  · rw [h.keyed.count, ← card_positions]
    refine Finset.card_le_card fun i hi => ?_
    obtain ⟨n, hn, htomb, -⟩ := mem_currents.mp hi
    refine Finset.mem_filter.mpr ⟨Finset.mem_range.mpr (List.getElem?_eq_some_iff.mp hn).1, ?_⟩
    rw [hn, Option.any_some, htomb]
    rfl
  · intro e he
    obtain ⟨n, hn, hlen⟩ := h.layered.entry e he
    exact ⟨n, hn, by omega⟩

theorem Wired.reseed {κ : Type} {okCode : Bytes → Prop} {g : Hnsw κ} (h : Wired okCode g)
    (state : UInt64) : Wired okCode (g.reseed state) :=
  ⟨h.closed, h.coded, h.mapped, h.counted, h.entry⟩

end Hnsw

/-- **What `save` writes is truthful.** -/
theorem truthful_saved {okCode : Codec → Bytes → Prop} {ns : UInt8 × UInt8} {count shard : Nat}
    (hshard : shard < count) (hcount : count < 256 ^ 2) {g : Hnsw Codec} (hfits : (rawGraph g).Fits)
    (hgraph : (rawGraph g).graph = g.reseed g.params.seed)
    (hwired : Hnsw.Wired (okCode g.codec) g) :
    Truthful okCode g.codec ns shard (shardHead ns count shard ++ g.encode) := by
  intro count' r hshard' hcount' hr heq
  obtain ⟨c, hc⟩ := decodeShard_spelled ns hcount hshard hfits 0
  obtain ⟨c', hc'⟩ := decodeShard_spelled ns hcount' hshard' hr 0
  -- one blob is read as one graph
  rw [← encode_eq, heq, hc'] at hc
  have hsame : r.graph = g.reseed g.params.seed :=
    (congrArg Prod.snd (Except.ok.inj (Prod.mk.inj hc).1)).trans hgraph
  have hcodec : r.codec = g.codec := congrArg Hnsw.codec hsame
  rw [hsame]
  exact ⟨hcodec, hwired.reseed _⟩

theorem length_shardHead (ns : UInt8 × UInt8) (count shard : Nat) :
    (shardHead ns count shard).length = 16 := by
  simp only [shardHead, magic, List.length_append, length_leBytes, List.length_cons, List.length_nil]

theorem length_flatMap_le {ρ : Type} {enc : ρ → Bytes} {least : Nat} :
    ∀ {rs : List ρ}, (∀ r ∈ rs, least ≤ (enc r).length) → least * rs.length ≤ (rs.flatMap enc).length
  | [], _ => Nat.le_refl _
  | r :: rs, h => by
    have hfirst := h r List.mem_cons_self
    have hrest : least * rs.length ≤ (rs.flatMap enc).length :=
      length_flatMap_le fun r' hr' => h r' (List.mem_cons_of_mem _ hr')
    rw [List.flatMap_cons, List.length_append, List.length_cons, Nat.mul_succ]
    omega

/-- **What `save` writes announces what it holds.** -/
theorem announced_saved {ns : UInt8 × UInt8} {count shard : Nat} {r : RawGraph} (hr : r.Fits)
    (hshort : (shardHead ns count shard ++ r.bytes).length < 2 ^ 63) :
    Announced ns shard (shardHead ns count shard ++ r.bytes) := by
  have htail : ∀ {count' : Nat} {rest : Bytes},
      shardHead ns count shard ++ r.bytes = shardHead ns count' shard ++ rest → r.bytes = rest := by
    intro count' rest h
    exact (List.append_inj h (by rw [length_shardHead, length_shardHead])).2
  refine ⟨hshort, ?_, ?_⟩
  · intro count' dim m ksub rest hdim hm hksub _ heq
    have hbytes := htail heq
    have hcodec := hr.codec
    rw [RawGraph.bytes] at hbytes
    cases hkind : r.codec with
    | i8 d =>
      rw [hkind] at hbytes
      have hhead := congrArg List.head? hbytes
      simp [Codec.encode] at hhead
    | pq d m' k cs =>
      rw [hkind] at hbytes hcodec
      obtain ⟨⟨hd, hm', hk⟩, -, hlen, -⟩ := hcodec
      simp only [Codec.encode, List.append_assoc, List.nil_append, List.cons_append,
        List.cons.injEq, true_and] at hbytes
      obtain ⟨hsame, hafterDim⟩ := leBytes_append_inj hd hdim hbytes
      obtain ⟨hsame', hafterM⟩ := leBytes_append_inj hm' hm hafterDim
      obtain ⟨hsame'', -⟩ := leBytes_append_inj hk hksub hafterM
      have hwords : 4 * cs.length ≤ (cs.flatMap fun c => leBytes 4 c.toNat).length :=
        length_flatMap_le fun c _ => by rw [length_leBytes]
      rw [← hsame, ← hsame', ← hsame'', ← hlen, RawGraph.bytes, hkind, Codec.encode]
      simp only [List.length_append]
      omega
  · intro count' r' n rest hr' hn heq
    have hbytes := htail heq
    simp only [RawGraph.bytes, RawGraph.fields, List.append_assoc] at hbytes
    -- the codec ends where its reader stops
    obtain ⟨t, ht⟩ := readsAs_codec hr.codec (leBytes 2 r.m ++ (leBytes 2 r.m0 ++ (leBytes 2 r.ef ++
      (leBytes 8 r.seed ++ (leBytes 4 r.entry ++ (leBytes 2 r.top ++ (leBytes 4 r.live ++
      (leBytes 4 r.nodes.length ++ r.nodes.flatMap RawNode.bytes)))))))) 0
    obtain ⟨t', ht'⟩ := readsAs_codec hr'.codec (leBytes 2 r'.m ++ (leBytes 2 r'.m0 ++
      (leBytes 2 r'.ef ++ (leBytes 8 r'.seed ++ (leBytes 4 r'.entry ++ (leBytes 2 r'.top ++
      (leBytes 4 r'.live ++ (leBytes 4 n ++ rest)))))))) 0
    rw [hbytes, ht'] at ht
    have hrest := (congrArg Cursor.left (Prod.mk.inj ht).2).symm
    dsimp only at hrest
    obtain ⟨-, hrest⟩ := leBytes_append_inj hr.m hr'.m hrest
    obtain ⟨-, hrest⟩ := leBytes_append_inj hr.m0 hr'.m0 hrest
    obtain ⟨-, hrest⟩ := leBytes_append_inj hr.ef hr'.ef hrest
    obtain ⟨-, hrest⟩ := leBytes_append_inj hr.seed hr'.seed hrest
    obtain ⟨-, hrest⟩ := leBytes_append_inj hr.word hr'.word hrest
    obtain ⟨-, hrest⟩ := leBytes_append_inj hr.top hr'.top hrest
    obtain ⟨-, hrest⟩ := leBytes_append_inj hr.live hr'.live hrest
    obtain ⟨hsame, -⟩ := leBytes_append_inj hr.count hn hrest
    have hnodes : 8 * r.nodes.length ≤ (r.nodes.flatMap RawNode.bytes).length := by
      refine length_flatMap_le fun node _ => ?_
      simp only [RawNode.bytes, List.length_append, length_leBytes]
      omega
    rw [← hsame, RawGraph.bytes]
    simp only [List.length_append]
    omega

/-! ## Snapshots -/

namespace VectorIndex

section

variable [LinearOrder D] {H : Host Codec V P D} {okVec : Codec → V → Prop}
  {okCode : Codec → Bytes → Prop} {okQuery : Codec → P → Prop}

theorem run_ns {κ : Type} {H : Host κ V P D} {ops : List (Op V)} {x x' : VectorIndex κ}
    (h : ops.foldlM (step H) x = .ok x') : x'.ns = x.ns := by
  induction ops generalizing x with
  | nil => rw [← Except.ok.inj h]
  | cons op ops ih =>
    rw [List.foldlM_cons] at h
    obtain ⟨mid, hmid, hrest⟩ := bind_eq_ok.mp h
    rw [ih hrest]
    cases op with
    | add key v =>
      obtain ⟨g, -, hmid⟩ := bind_eq_ok.mp hmid
      obtain ⟨g', -, hmid⟩ := bind_eq_ok.mp hmid
      rw [← Except.ok.inj hmid]
    | remove key =>
      obtain ⟨r, hr, hmid⟩ := bind_eq_ok.mp hmid
      obtain ⟨g, -, hr⟩ := bind_eq_ok.mp hr
      obtain ⟨r', -, hr⟩ := bind_eq_ok.mp hr
      rw [← Except.ok.inj hmid, ← Except.ok.inj hr]

theorem built_run {ns : UInt8 × UInt8} {codec : Codec} {params : HnswParams} {n : Nat}
    {ops : List (Op V)} {x : VectorIndex Codec}
    (hs : Hnsw.Sound H codec (okVec codec) (okCode codec) (okQuery codec))
    (hst : Storable (okVec codec) (okCode codec) codec params n ops)
    (hrun : ops.foldlM (step H) (new ns codec params n) = .ok x) :
    Built (okCode codec) codec params n (added ops) x := by
  have hmeets : Meets (fun _ => True) (ops.foldlM (step H) (new ns codec params n))
      (Built (okCode codec) codec params n ([] ++ added ops)) :=
    run_meets hs hst.some (built_new (okCode codec) ns codec params n) hst.vectors
      (fun i => le_trans (hst.few i) (by omega)) fun _ => trivial
  rw [List.nil_append] at hmeets
  exact hmeets.of_ok hrun

/-- **A reloaded index goes on like the original** while nothing is added to a shard that
had something added before. -/
theorem reload_transparent {σ : Type} [LawfulStorage σ] (store : σ) {ns : UInt8 × UInt8}
    {codec : Codec} {params : HnswParams} {n : Nat} {ops : List (Op V)} {x : VectorIndex Codec}
    (hs : Hnsw.Sound H codec (okVec codec) (okCode codec) (okQuery codec))
    (hst : Storable (okVec codec) (okCode codec) codec params n ops)
    (hrun : ops.foldlM (step H) (new ns codec params n) = .ok x) :
    ∃ y taken, load (x.save store).2 ns 0 = (.ok y, taken) ∧
      Alike (fun i => routed n i (added ops) = []) x y ∧ x.shards.length = n := by
  have hbuilt := built_run hs hst hrun
  have haged := (run_aged (H := H) ns codec params n ops).of_ok hrun
  have hns : x.ns = ns := run_ns hrun
  have hfits := fun g (hg : g ∈ x.shards) => hbuilt.fits hst hg (haged g hg)
  have hreread := fun i g (hi : x.shards[i]? = some g) =>
    hbuilt.reread hi (haged g (List.mem_of_getElem? hi)) (hfits g (List.mem_of_getElem? hi)).2
  have hgraph : ∀ g ∈ x.shards, (rawGraph g).graph = g.reseed g.params.seed := by
    intro g hg
    obtain ⟨i, hi⟩ := List.getElem?_of_mem hg
    exact (hreread i g hi).1
  have hsome : 0 < x.shards.length := by
    rw [hbuilt.shards]
    exact hst.some
  have hcount : x.shards.length < 2 ^ 16 := by
    rw [hbuilt.shards]
    exact hst.count
  obtain ⟨taken, hload⟩ := load_saved store hsome hcount (fun g hg => (hfits g hg).1) hgraph
  rw [hns] at hload
  refine ⟨_, taken, hload, ⟨hns.symm, ?_, ?_⟩, hbuilt.shards⟩
  · rw [List.forall₂_map_right_iff]
    exact List.forall₂_same.mpr fun g _ => ⟨g.params.seed, rfl⟩
  · intro i hfresh
    rw [List.getElem?_map]
    cases hi : x.shards[i]? with
    | none => rfl
    | some g =>
      rw [Option.map_some]
      exact congrArg some ((hreread i g hi).2 hfresh)

/-- **What is loaded from trusted blobs is sane**, and was paid for. -/
theorem load_sane {σ : Type} [VirtualStorage σ] (store : σ) (ns : UInt8 × UInt8) {codec : Codec}
    (hblobs : ∀ shard blob, shard < 2 ^ 16 → get store (slotKey ns shard) = .ok (some blob) →
      Announced ns shard blob ∧ Truthful okCode codec ns shard blob) :
    (∀ f taken, load store ns 0 ≠ (.error (.fault f), taken)) ∧
      (load store ns 0).2 ≤ 160 * slotBytes store ns + 2 ^ 24 ∧
      ∀ y taken, load store ns 0 = (.ok y, taken) →
        Sane okCode y ∧ ∀ g ∈ y.shards, g.codec = codec := by
  have hbound := load_bounded store ns
    (Q := fun g => (g.codec = codec ∧ Hnsw.Wired (okCode codec) g) ∧ g.params.efConstruction < 2 ^ 16)
    (fun shard blob hshard hget => (hblobs shard blob hshard hget).1)
    (fun shard blob count r hshard hget hlt hcount hr hblob =>
      ⟨(hblobs shard blob hshard hget).2 count r hlt hcount hr hblob, hr.ef⟩)
  have hslack : graphSlack (slotBytes store ns) = 268260 + 112 * slotBytes store ns := rfl
  refine ⟨fun f taken heq => ?_, ?_, fun y taken heq => ?_⟩
  · exact (hbound.error 0 _ taken heq).1 f rfl
  · cases hrun : load store ns 0 with
    | mk answer taken =>
      cases answer with
      | ok y =>
        have hok := (hbound.ok 0 y taken hrun).2
        exact le_trans hok (by omega)
      | error e =>
        have herror := (hbound.error 0 e taken hrun).2
        rw [hslack] at herror
        exact le_trans herror (by omega)
  · obtain ⟨hsome, hall⟩ := (hbound.ok 0 y taken heq).1
    refine ⟨⟨hsome, fun g hg => ?_, fun g hg => (hall g hg).2⟩, fun g hg => (hall g hg).1.1⟩
    rw [(hall g hg).1.1]
    exact (hall g hg).1.2

/-- **What `save` leaves in an empty slot can be trusted.** -/
theorem saved_trusted {σ : Type} [LawfulStorage σ] (store : σ) {ns : UInt8 × UInt8} {codec : Codec}
    {params : HnswParams} {n : Nat} {ops : List (Op V)} {x : VectorIndex Codec}
    (hempty : ∀ shard, shard < 2 ^ 16 → get store (slotKey ns shard) = .ok none)
    (hs : Hnsw.Sound H codec (okVec codec) (okCode codec) (okQuery codec))
    (hst : Storable (okVec codec) (okCode codec) codec params n ops)
    (hrun : ops.foldlM (step H) (new ns codec params n) = .ok x)
    (hshort : ∀ op ∈ x.saveOps, ∀ blob, op.2 = some blob → blob.length < 2 ^ 63)
    {shard : Nat} {blob : Bytes} (hshard : shard < 2 ^ 16)
    (hget : get (x.save store).2 (slotKey ns shard) = .ok (some blob)) :
    Announced ns shard blob ∧ Truthful okCode codec ns shard blob := by
  have hbuilt := built_run hs hst hrun
  have haged := (run_aged (H := H) ns codec params n ops).of_ok hrun
  have hns : x.ns = ns := run_ns hrun
  -- the slots were empty, so the blob was saved by this index
  have hpending : (slotKey ns shard, some blob) ∈ x.saveOps := by
    refine mem_of_pending ?_
    rw [LawfulStorage.get_eq] at hget
    unfold save at hget
    rw [LawfulStorage.read_commit] at hget
    have hbefore := hempty shard hshard
    rw [LawfulStorage.get_eq] at hbefore
    rw [Except.ok.inj hbefore] at hget
    have hval := Except.ok.inj hget
    cases hp : pending x.saveOps (slotKey ns shard) with
    | none =>
      rw [hp] at hval
      cases hval
    | some v =>
      rw [hp] at hval
      exact congrArg some hval
  obtain ⟨⟨g, i⟩, hmem, heq⟩ := List.mem_map.mp hpending
  have hi := List.mem_zipIdx_iff_getElem?.mp hmem
  have hlt := (List.getElem?_eq_some_iff.mp hi).1
  have hg := List.mem_of_getElem? hi
  obtain ⟨hkey, hval⟩ := Prod.mk.inj heq
  dsimp only at hkey hval hi hlt
  rw [hbuilt.shards] at hlt
  have hcount := hst.count
  rw [hns] at hkey
  obtain rfl := slotKey_injective (by omega) hshard hkey
  have hblob := Option.some.inj hval
  have hlong := hshort _ hpending blob rfl
  rw [hns, hbuilt.shards] at hblob
  -- it is the encoding of a graph that the operations built
  obtain ⟨hfits, hfew⟩ := hbuilt.fits hst hg (haged g hg)
  obtain ⟨hinv, hcodec, -, -⟩ := hbuilt.each i g hi
  refine ⟨?_, ?_⟩
  · rw [← hblob, encode_eq] at hlong ⊢
    exact announced_saved hfits hlong
  · have hwired : Hnsw.Wired (okCode g.codec) g := by
      rw [hcodec]
      exact hinv.wired
    rw [← hblob, ← hcodec]
    exact truthful_saved hlt (by omega) hfits (hbuilt.reread hi (haged g hg) hfew).1 hwired

/-- What later callers keep to: vectors of the codec's form, and searches whose room can be
expressed. -/
def Fair (okVec : V → Prop) (count : Nat) : Request V → Prop
  | .add _ v => okVec v
  | .search q k ef => okVec q ∧ 4 * (max ef k * 4) < 2 ^ 63 ∧ 32 * (k * count) < 2 ^ 63
  | .remove _ | .save => True

/-- Where every shard has the codec, fair requests suit the index. -/
theorem Fair.suits {codec : Codec} {y : VectorIndex Codec} (hcodec : ∀ g ∈ y.shards, g.codec = codec)
    {req : Request V} (h : Fair (okVec codec) y.shards.length req) : Suits okVec y req := by
  have hvec : ∀ v, okVec codec v → ∀ g ∈ y.shards, okVec g.codec v := by
    intro v hv g hg
    rw [hcodec g hg]
    exact hv
  cases req with
  | add key v => exact hvec v h
  | search q k ef => exact ⟨hvec q h.1, h.2⟩
  | remove key => exact trivial
  | save => exact trivial

/-- **Snapshots are faithful where they are trusted.** An index whose numbers fit the blobs
is loaded as it was saved and answers every sequence of requests that adds nothing to a
shard which had something added before. And where every blob under the slot announces no
more than it holds and spells a wired graph of one codec, loading asks for room in
proportion to the blobs and never faults, nor does any request to what it returns. -/
theorem snapshots_faithful (H : Host Codec V P D) (okVec : Codec → V → Prop)
    (okCode : Codec → Bytes → Prop) (okQuery : Codec → P → Prop)
    (hs : ∀ codec, codec.Proper → Hnsw.Sound H codec (okVec codec) (okCode codec) (okQuery codec))
    (hgrant : Granting H) :
    (∀ (σ : Type) [LawfulStorage σ] (store : σ) (ns : UInt8 × UInt8) (codec : Codec)
        (params : HnswParams) (n : Nat) (ops : List (Op V)) (x : VectorIndex Codec),
      codec.Proper → Storable (okVec codec) (okCode codec) codec params n ops →
      ops.foldlM (step H) (new ns codec params n) = .ok x →
      ∃ y taken, load (x.save store).2 ns 0 = (.ok y, taken) ∧
        ∀ reqs : List (Request V),
          (∀ key v, .add key v ∈ reqs → routed n (shardOf n key) (added ops) = []) →
          serveAll H y reqs = serveAll H x reqs) ∧
    ∀ (σ : Type) [VirtualStorage σ] (store : σ) (ns : UInt8 × UInt8) (codec : Codec),
      codec.Proper →
      (∀ shard blob, shard < 2 ^ 16 → get store (slotKey ns shard) = .ok (some blob) →
        Announced ns shard blob ∧ Truthful okCode codec ns shard blob) →
      (∀ f taken, load store ns 0 ≠ (.error (.fault f), taken)) ∧
      (load store ns 0).2 ≤ 160 * slotBytes store ns + 2 ^ 24 ∧
      ∀ y taken, load store ns 0 = (.ok y, taken) →
        ∀ reqs : List (Request V), (∀ req ∈ reqs, Fair (okVec codec) y.shards.length req) →
          (∀ g ∈ y.shards, g.nodes.length + adds reqs ≤ 2 ^ 32) →
          ∀ f, .error f ∉ serveAll H y reqs := by
  constructor
  · intro σ _ store ns codec params n ops x hproper hst hrun
    obtain ⟨y, taken, hload, halike, hn⟩ := reload_transparent store (hs codec hproper) hst hrun
    refine ⟨y, taken, hload, fun reqs hreqs => ?_⟩
    refine serveAll_alike halike fun key v hmem => ?_
    rw [hn]
    exact hreqs key v hmem
  · intro σ _ store ns codec hproper hblobs
    obtain ⟨hnofault, hpaid, hsane⟩ := load_sane store ns hblobs
    refine ⟨hnofault, hpaid, fun y taken hload reqs hreqs hfew => ?_⟩
    obtain ⟨hy, hcodec⟩ := hsane y taken hload
    have hsound : ∀ g ∈ y.shards,
        Hnsw.Sound H g.codec (okVec g.codec) (okCode g.codec) (okQuery g.codec) := by
      intro g hg
      rw [hcodec g hg]
      exact hs codec hproper
    exact serveAll_answers hsound hgrant hy (fun req hreq => (hreqs req hreq).suits hcodec) hfew

end

/-! ## At concrete indexes -/

/-- Vectors of no dimension under the scalar codec: every code is the norm 0, every distance
1. The level draw is the source's, exact for `m` a power of two. -/
def still : Host Codec Unit Unit Nat :=
  ⟨fun _ _ => .ok [0, 0, 0, 0], fun _ _ => .ok (), fun _ _ => .ok (), fun _ _ _ => .ok 1,
    fun _ _ _ => .ok 1, 2, fun drawn m => decide ((drawn >>> 11).toNat * m < 2 ^ 53),
    fun size count => decide (size * count < 2 ^ 63)⟩

/-- An index of one node; the seed draws level 1 first and level 0 next. -/
def single : Except Fault (VectorIndex Codec) :=
  [Op.add [0] ()].foldlM (step still) (new (0, 1) (.i8 0) ⟨2, 4, 8, 3⟩ 1)

/-- What is answered after a save and a load into a store of its own. -/
def reloaded (x : VectorIndex Codec) (reqs : List (Request Unit)) :
    Option (List (Except Fault (Reply Nat))) :=
  (load (x.save (SortedMap.empty : Keyspace)).2 x.ns 0).1.toOption.map fun y => serveAll still y reqs

/-- A store with one blob, for shard 0 of 1. -/
def lone (body : Bytes) : Keyspace :=
  SortedMap.empty.insert (slotKey (0, 1) 0) (shardHead (0, 1) 1 0 ++ body)

/-- A graph without nodes whose entry is node 5. -/
def hollow : RawGraph := ⟨.i8 0, 2, 4, 8, 3, 5, 0, 0, []⟩

/-- After a reload the next add draws the first level again, so the blobs differ; a graph
whose entry is no node is loaded and a search of it panics; and a blob of 49 bytes has the
reader ask for more than `2 ^ 38`. -/
theorem snapshots_unfaithful :
    (single.toOption.map fun x => some (serveAll still x [.add [1] (), .save]))
        ≠ (single.toOption.map fun x => reloaded x [.add [1] (), .save]) ∧
      ((load (lone hollow.bytes) (0, 1) 0).1.toOption.map fun y =>
        serveAll still y [.search () 1 1]) = some [.error .index] ∧
      (2 ^ 38 < (load (lone (hollow.codec.encode ++ hollow.fields ++ leBytes 4 (2 ^ 32 - 1))) (0, 1) 0).2 ∧
        (shardHead (0, 1) 1 0 ++ (hollow.codec.encode ++ hollow.fields ++ leBytes 4 (2 ^ 32 - 1))).length
          = 49) := by
  refine ⟨?_, ?_, ?_, ?_⟩
  · decide +kernel
  · decide +kernel
  · decide +kernel
  · decide +kernel

/-- Vectors of one dimension, by their sign, under the scalar codec: the code is the norm
127.0 and the byte 127 or -127, and two of them are 0 or 2 apart. -/
def signs : Host Codec Bool UInt8 Nat :=
  ⟨fun _ v => .ok [0x00, 0x00, 0xFE, 0x42, if v then 127 else 129],
    fun _ v => .ok (if v then 127 else 129), fun _ code => .ok (code.getLastD 0),
    fun _ code q => .ok (if code.getLastD 0 = q then 0 else 2),
    fun _ a b => .ok (if a.getLastD 0 = b.getLastD 0 then 0 else 2), 3,
    fun drawn m => decide ((drawn >>> 11).toNat * m < 2 ^ 53),
    fun size count => decide (size * count < 2 ^ 63)⟩

def lineVec (_ : Codec) (_ : Bool) : Prop := True

def lineCode (_ : Codec) (code : Bytes) : Prop := code.length = 5

def lineQuery (_ : Codec) (_ : UInt8) : Prop := True

theorem signs_sound (codec : Codec) :
    Hnsw.Sound signs codec (lineVec codec) (lineCode codec) (lineQuery codec) :=
  ⟨fun _ _ => ⟨_, rfl, rfl⟩, fun _ _ => ⟨_, rfl, trivial⟩, fun _ _ => ⟨_, rfl, trivial⟩,
    fun _ _ _ _ => ⟨_, rfl⟩, fun _ _ _ _ => ⟨_, rfl⟩⟩

theorem lineCodec_proper : (Codec.i8 1).Proper := by
  refine ⟨?_, fun m ksub cs h => by cases h⟩
  change 1 < 256 ^ 4
  omega

/-- Five keys over two of three shards, one added twice and one removed. -/
def lineOps : List (Op Bool) :=
  [.add [1] true, .add [3] true, .add [2] false, .add [4] true, .remove [2], .add [2] true,
    .add [5] false, .remove [3]]

theorem lineOps_storable :
    Storable (lineVec (.i8 1)) (lineCode (.i8 1)) (.i8 1) ⟨2, 4, 8, 3⟩ 3 lineOps := by
  refine ⟨lineCodec_proper.1, by decide, by decide, by decide, by decide, by decide,
    fun _ _ _ => trivial, ?_, ?_, ?_⟩
  · intro key v hmem
    simp only [lineOps, List.mem_cons, Op.add.injEq, reduceCtorEq, List.not_mem_nil, or_false,
      false_or] at hmem
    rcases hmem with ⟨rfl, -⟩ | ⟨rfl, -⟩ | ⟨rfl, -⟩ | ⟨rfl, -⟩ | ⟨rfl, -⟩ | ⟨rfl, -⟩ <;> decide
  · intro code hcode
    rw [hcode]
    decide
  · intro i
    exact le_trans (List.length_filter_le _ _) (by decide)

def lineIndex : Except Fault (VectorIndex Codec) :=
  lineOps.foldlM (step signs) (new (0, 1) (.i8 1) ⟨2, 4, 8, 3⟩ 3)

/-- Searches, a removal, additions to the third shard, and a save. -/
def lineRequests : List (Request Bool) :=
  [.search true 3 8, .remove [1], .add [0] true, .add [7] false, .search false 4 8, .save]

/-- The five keys saved to an empty store and loaded: what is asked then is answered alike,
and nothing asked of the reloaded index faults. -/
theorem snapshots_faithful_line : ∃ x y taken, lineIndex = .ok x ∧
    load (x.save (SortedMap.empty : Keyspace)).2 (0, 1) 0 = (.ok y, taken) ∧
    serveAll signs y lineRequests = serveAll signs x lineRequests ∧
    ∀ f, .error f ∉ serveAll signs y (.add [3] false :: lineRequests) := by
  have hok : lineIndex.isOk = true := by decide +kernel
  obtain ⟨x, hx⟩ := exists_of_isOk hok
  have hgrant : Granting signs := fun size count h => decide_eq_true h
  obtain ⟨htransparent, hsafe⟩ := snapshots_faithful signs lineVec lineCode lineQuery
    (fun codec _ => signs_sound codec) hgrant
  obtain ⟨y, taken, hload, halike⟩ := htransparent Keyspace SortedMap.empty (0, 1) (.i8 1)
    ⟨2, 4, 8, 3⟩ 3 lineOps x lineCodec_proper lineOps_storable hx
  refine ⟨x, y, taken, hx, hload, ?_, ?_⟩
  · refine halike lineRequests fun key v hmem => ?_
    simp only [lineRequests, List.mem_cons, Request.add.injEq, reduceCtorEq, List.not_mem_nil,
      or_false, false_or] at hmem
    rcases hmem with ⟨rfl, -⟩ | ⟨rfl, -⟩ <;> decide +kernel
  · have hlengths : lineIndex.toOption.any (fun x => x.saveOps.all fun op =>
        op.2.all fun blob => decide (blob.length < 2 ^ 63)) = true := by decide +kernel
    have hcounts : (lineIndex.toOption.bind fun x =>
        (load (x.save (SortedMap.empty : Keyspace)).2 (0, 1) 0).1.toOption.map fun y =>
          (y.shards.length, y.shards.all fun g => decide (g.nodes.length + 3 ≤ 2 ^ 32)))
        = some (3, true) := by decide +kernel
    rw [hx] at hlengths hcounts
    obtain ⟨hcount, hfew⟩ : y.shards.length = 3 ∧
        (y.shards.all fun g => decide (g.nodes.length + 3 ≤ 2 ^ 32)) = true := by
      rw [Except.toOption, Option.bind_some, hload] at hcounts
      exact Prod.mk.inj (Option.some.inj hcounts)
    obtain ⟨-, -, hanswers⟩ := hsafe Keyspace (x.save SortedMap.empty).2 (0, 1) (.i8 1)
      lineCodec_proper fun shard blob hshard hget => saved_trusted (SortedMap.empty : Keyspace)
        (fun _ _ => rfl) (signs_sound (.i8 1)) lineOps_storable hx
        (fun op hop blob hblob => by
          have hall := List.all_eq_true.mp hlengths op hop
          rw [hblob] at hall
          exact of_decide_eq_true hall)
        hshard hget
    refine hanswers y taken hload _ ?_ ?_
    · intro req hreq
      rw [hcount]
      simp only [lineRequests, List.mem_cons, List.not_mem_nil, or_false] at hreq
      rcases hreq with rfl | rfl | rfl | rfl | rfl | rfl | rfl
      · exact trivial
      · exact ⟨trivial, by decide, by decide⟩
      · exact trivial
      · exact trivial
      · exact trivial
      · exact ⟨trivial, by decide, by decide⟩
      · exact trivial
    · intro g hg
      exact of_decide_eq_true (List.all_eq_true.mp hfew g hg)

end VectorIndex

end Okm.Vector
