import Okm.Vector.Snapshot

/-!
# What a blob spells

A blob is read as a graph exactly where it spells one: `RawGraph` is what the fields of a
blob hold before anything is made of them, with the tombstone still a byte and the entry
still a word. `readsAs_graph` says that the spelling of a raw graph whose numbers fit their
fields is read as that graph, `spells_graph` that nothing else is read.

`save` writes such a spelling (`encode_eq`), and the map of the keys, which it leaves out,
is rebuilt from the order of the nodes (`placed_eq`).
-/

namespace Okm.Vector

open Lib Model

/-! ## Raw graphs -/

structure RawNode where
  key : Bytes
  code : Bytes
  flag : Nat
  levels : List (List Nat)

structure RawGraph where
  codec : Codec
  m : Nat
  m0 : Nat
  ef : Nat
  seed : Nat
  entry : Nat
  top : Nat
  live : Nat
  nodes : List RawNode

namespace RawNode

def bytes (r : RawNode) : Bytes :=
  leBytes 2 r.key.length ++ r.key ++ leBytes 4 r.code.length ++ r.code ++ leBytes 1 r.flag
    ++ leBytes 1 r.levels.length ++ r.levels.flatMap levelBytes

def node (r : RawNode) : Node := ⟨r.key, r.code, decide (r.flag ≠ 0), r.levels⟩

end RawNode

/-- The length and the ids of a list fit their fields. -/
def LevelFits (level : List Nat) : Prop := level.length < 256 ^ 2 ∧ ∀ v ∈ level, v < 256 ^ 4

structure RawNode.Fits (r : RawNode) : Prop where
  key : r.key.length < 256 ^ 2
  code : r.code.length < 256 ^ 4
  flag : r.flag < 256 ^ 1
  count : r.levels.length < 256 ^ 1
  levels : ∀ level ∈ r.levels, LevelFits level

/-- The map of the keys of these nodes, numbered from `at`. -/
def placed : SortedMap Bytes Nat → Nat → List Bytes → SortedMap Bytes Nat
  | map, _, [] => map
  | map, i, key :: keys => placed (map.insert key (i % 2 ^ 32)) (i + 1) keys

/-- The entry a word stands for. -/
def entryOf (word : Nat) : Option Nat := if word = 2 ^ 32 - 1 then none else some word

/-- The parameters of a codec fit their fields, and the reader takes them. -/
def Codec.Fits : Codec → Prop
  | .i8 dim => dim < 256 ^ 4
  | .pq dim m ksub centroids => (dim < 256 ^ 4 ∧ m < 256 ^ 4 ∧ ksub < 256 ^ 4) ∧
    ¬(m = 0 ∨ ksub = 0 ∨ dim % m ≠ 0) ∧ centroids.length = m * ksub * (dim / m) ∧
    4 * centroids.length < 2 ^ 63

namespace RawGraph

/-- The fields between the codec and the nodes. -/
def fields (r : RawGraph) : Bytes :=
  leBytes 2 r.m ++ leBytes 2 r.m0 ++ leBytes 2 r.ef ++ leBytes 8 r.seed ++ leBytes 4 r.entry
    ++ leBytes 2 r.top ++ leBytes 4 r.live

def bytes (r : RawGraph) : Bytes :=
  r.codec.encode ++ r.fields ++ leBytes 4 r.nodes.length ++ r.nodes.flatMap RawNode.bytes

def graph (r : RawGraph) : Hnsw Codec where
  codec := r.codec
  params := ⟨r.m, r.m0, r.ef, UInt64.ofNat r.seed⟩
  nodes := r.nodes.map RawNode.node
  byKey := placed SortedMap.empty 0 (r.nodes.map RawNode.key)
  entry := entryOf r.entry
  top := r.top
  live := r.live
  rng := UInt64.ofNat r.seed

structure Fits (r : RawGraph) : Prop where
  codec : r.codec.Fits
  m : r.m < 256 ^ 2
  m0 : r.m0 < 256 ^ 2
  ef : r.ef < 256 ^ 2
  seed : r.seed < 256 ^ 8
  word : r.entry < 256 ^ 4
  entry : r.entry = 2 ^ 32 - 1 ∨ r.entry < 2 ^ 31
  top : r.top < 256 ^ 2
  live : r.live < 256 ^ 4
  count : r.nodes.length < 256 ^ 4
  nodes : ∀ n ∈ r.nodes, n.Fits

end RawGraph

/-! ## Lists and nodes -/

theorem readsAs_copied (chunk : Bytes) (h : chunk.length < 2 ^ 63) :
    ReadsAs (copied chunk.length) chunk chunk := by
  have hreq : ReadsAs (request Fault.capacity 1 chunk.length) [] () :=
    readsAs_request Fault.capacity (by omega)
  have hall := (readsAs_bytes (φ := Fault) chunk).bind (f := fun bytes => do
    request Fault.capacity 1 bytes.length
    pure bytes) (hreq.bind (readsAs_pure chunk))
  rw [List.append_nil, List.append_nil] at hall
  exact hall

theorem spells_copied (n : Nat) : Spells (copied n) id id fun bytes => bytes.length = n := by
  intro c a c' h
  obtain ⟨bytes, c1, hbytes, h⟩ := run_bind_eq_ok.mp h
  obtain ⟨u, c2, hreq, h⟩ := run_bind_eq_ok.mp h
  obtain ⟨ha, rfl⟩ := Prod.mk.inj h
  obtain ⟨r, hlen, hleft, hr⟩ := spells_bytes n c bytes c1 hbytes
  exact ⟨r, hlen, by rw [hleft, request_ok hreq], (Except.ok.inj ha).symm.trans hr⟩

theorem readsAs_level {level : List Nat} (h : LevelFits level) :
    ReadsAs readLevel (levelBytes level) level := by
  have hreq : ReadsAs (request Fault.capacity 4 level.length) [] () :=
    readsAs_request Fault.capacity (by have := h.1; omega)
  have hids : ReadsAs (times (nextNat (φ := Fault) 4) level.length)
      (level.flatMap fun v => leBytes 4 v) (level.map id) :=
    readsAs_times fun v hv => readsAs_nat (h.2 v hv)
  rw [List.map_id] at hids
  exact (readsAs_nat h.1).bind (hreq.bind hids)

theorem spells_level : Spells readLevel levelBytes id LevelFits := by
  intro c a c' h
  obtain ⟨n, c1, hn, h⟩ := run_bind_eq_ok.mp h
  obtain ⟨u, c2, hreq, h⟩ := run_bind_eq_ok.mp h
  obtain ⟨n, hsmall, hleft, rfl⟩ := spells_nat 2 c n c1 hn
  obtain ⟨level, ⟨hlen, hids⟩, hleft', rfl⟩ := spells_times (spells_nat 4) n c2 a c' h
  obtain rfl := hlen
  refine ⟨level, ⟨hsmall, hids⟩, ?_, List.map_id level⟩
  rw [hleft, ← request_ok hreq, hleft', levelBytes, List.append_assoc]

theorem readsAs_node {r : RawNode} (h : r.Fits) : ReadsAs readNode r.bytes r.node := by
  have hkey := h.key
  have hcode := h.code
  have hcount := h.count
  have hreq : ReadsAs (request Fault.capacity 24 r.levels.length) [] () :=
    readsAs_request Fault.capacity (by omega)
  have hlevels : ReadsAs (times readLevel r.levels.length) (r.levels.flatMap levelBytes)
      (r.levels.map id) := readsAs_times fun level hlevel => readsAs_level (h.levels level hlevel)
  rw [List.map_id] at hlevels
  have hall : ReadsAs readNode _ r.node :=
    (readsAs_nat hkey).bind <| (readsAs_copied r.key (by omega)).bind <|
      (readsAs_nat hcode).bind <| (readsAs_copied r.code (by omega)).bind <|
      (readsAs_nat h.flag).bind <| (readsAs_nat hcount).bind <| hreq.bind <|
      hlevels.bind (readsAs_pure r.node)
  simpa only [RawNode.bytes, List.append_assoc, List.append_nil, List.nil_append] using hall

theorem spells_node : Spells readNode RawNode.bytes RawNode.node RawNode.Fits := by
  intro c a c' h
  obtain ⟨klen, c1, hklen, h⟩ := run_bind_eq_ok.mp h
  obtain ⟨key, c2, hkey, h⟩ := run_bind_eq_ok.mp h
  obtain ⟨clen, c3, hclen, h⟩ := run_bind_eq_ok.mp h
  obtain ⟨code, c4, hcode, h⟩ := run_bind_eq_ok.mp h
  obtain ⟨flag, c5, hflag, h⟩ := run_bind_eq_ok.mp h
  obtain ⟨count, c6, hcount, h⟩ := run_bind_eq_ok.mp h
  obtain ⟨u, c7, hreq, h⟩ := run_bind_eq_ok.mp h
  obtain ⟨levels, c8, hlevels, h⟩ := run_bind_eq_ok.mp h
  obtain ⟨ha, rfl⟩ := Prod.mk.inj h
  obtain ⟨klen, hklen', hleft, rfl⟩ := spells_nat 2 c klen c1 hklen
  obtain ⟨key, rfl, hleft1, rfl⟩ := spells_copied _ c1 key c2 hkey
  obtain ⟨clen, hclen', hleft2, rfl⟩ := spells_nat 4 c2 clen c3 hclen
  obtain ⟨code, rfl, hleft3, rfl⟩ := spells_copied _ c3 code c4 hcode
  obtain ⟨flag, hflag', hleft4, rfl⟩ := spells_nat 1 c4 flag c5 hflag
  obtain ⟨count, hcount', hleft5, rfl⟩ := spells_nat 1 c5 count c6 hcount
  obtain ⟨levels, ⟨hlen, hfits⟩, hleft6, rfl⟩ := spells_times spells_level _ c7 levels c8 hlevels
  obtain rfl := hlen
  refine ⟨⟨key, code, flag, levels⟩, ⟨hklen', hclen', hflag', hcount', hfits⟩, ?_, ?_⟩
  · rw [hleft, hleft1, hleft2, hleft3, hleft4, hleft5, ← request_ok hreq, hleft6]
    simp only [RawNode.bytes, id, List.append_assoc]
  · rw [← Except.ok.inj ha]
    dsimp only
    rw [List.map_id]
    rfl

theorem readsAs_keyed {r : RawNode} (h : r.Fits) : ReadsAs readKeyed r.bytes r.node := by
  have hkey := h.key
  have hreq : ReadsAs (request Fault.capacity 1 r.node.key.length) [] () :=
    readsAs_request Fault.capacity (by dsimp only [RawNode.node]; omega)
  have hall : ReadsAs readKeyed _ r.node := (readsAs_node h).bind (hreq.bind (readsAs_pure r.node))
  simpa only [List.append_nil] using hall

theorem spells_keyed : Spells readKeyed RawNode.bytes RawNode.node RawNode.Fits := by
  intro c a c' h
  obtain ⟨n, c1, hn, h⟩ := run_bind_eq_ok.mp h
  obtain ⟨u, c2, hreq, h⟩ := run_bind_eq_ok.mp h
  obtain ⟨ha, rfl⟩ := Prod.mk.inj h
  obtain ⟨r, hfits, hleft, hr⟩ := spells_node c n c1 hn
  exact ⟨r, hfits, by rw [hleft, request_ok hreq], (Except.ok.inj ha).symm.trans hr⟩

/-! ## The node table -/

theorem readsAs_nodes : ∀ {rs : List RawNode} {i : Nat} {byKey : SortedMap Bytes Nat},
    (∀ r ∈ rs, r.Fits) → ReadsAs (readNodes rs.length i byKey) (rs.flatMap RawNode.bytes)
      (rs.map RawNode.node, placed byKey i (rs.map RawNode.key))
  | [], _, _, _ => readsAs_pure _
  | r :: rs, i, byKey, h => by
    have hrest : ReadsAs (readNodes rs.length (i + 1) (byKey.insert r.key (i % 2 ^ 32))) _ _ :=
      readsAs_nodes fun r' hr' => h r' (List.mem_cons_of_mem _ hr')
    have hall : ReadsAs (readNodes (r :: rs).length i byKey) _ _ :=
      (readsAs_keyed (h r List.mem_cons_self)).bind (hrest.bind (readsAs_pure
        (r.node :: rs.map RawNode.node,
          placed (byKey.insert r.key (i % 2 ^ 32)) (i + 1) (rs.map RawNode.key))))
    rw [List.append_nil] at hall
    exact hall

theorem spells_nodes : ∀ (n i : Nat) (byKey : SortedMap Bytes Nat),
    Spells (readNodes n i byKey) (fun rs : List RawNode => rs.flatMap RawNode.bytes)
      (fun rs => (rs.map RawNode.node, placed byKey i (rs.map RawNode.key)))
      fun rs => rs.length = n ∧ ∀ r ∈ rs, r.Fits
  | 0, i, byKey => by
    intro c a c' h
    obtain ⟨ha, rfl⟩ := Prod.mk.inj h
    exact ⟨[], ⟨rfl, fun r hr => by cases hr⟩, rfl, (Except.ok.inj ha).symm⟩
  | n + 1, i, byKey => by
    intro c a c' h
    obtain ⟨first, c1, hfirst, h⟩ := run_bind_eq_ok.mp h
    obtain ⟨rest, c2, hrest, h⟩ := run_bind_eq_ok.mp h
    obtain ⟨ha, rfl⟩ := Prod.mk.inj h
    obtain ⟨r, hfit, hleft, rfl⟩ := spells_keyed c first c1 hfirst
    obtain ⟨rs, ⟨hlen, hfits⟩, hleft', rfl⟩ :=
      spells_nodes n (i + 1) (byKey.insert r.node.key (i % 2 ^ 32)) c1 rest c2 hrest
    refine ⟨r :: rs, ⟨by rw [List.length_cons, hlen], ?_⟩, ?_, (Except.ok.inj ha).symm⟩
    · intro r' hr'
      rcases List.mem_cons.mp hr' with rfl | hmem
      · exact hfit
      · exact hfits r' hmem
    · rw [hleft, hleft']
      dsimp only
      rw [List.flatMap_cons, List.append_assoc]

/-! ## Codecs -/

/-- A tag byte. -/
theorem leBytes_tag (tag : UInt8) : leBytes 1 tag.toNat = [tag] := by
  have h := leBytes_leNat [tag]
  have hval : leNat [tag] = tag.toNat := by
    rw [leNat, List.reverse_singleton, beNat_cons, List.length_nil, pow_zero, Nat.mul_one,
      beNat_nil, Nat.add_zero]
  rwa [hval] at h

theorem leBytes_zero : leBytes 1 0 = [0] := leBytes_tag 0

theorem leBytes_one : leBytes 1 1 = [1] := leBytes_tag 1

theorem readsAs_codec {codec : Codec} (h : codec.Fits) :
    ReadsAs Codec.decode codec.encode codec := by
  cases codec with
  | i8 dim =>
    have hall : ReadsAs Codec.decode _ (Codec.i8 dim) :=
      (readsAs_nat (n := 0) (w := 1) (by omega)).bind <| (readsAs_nat h).bind <|
        ReadsAs.pos rfl (readsAs_pure (Codec.i8 dim))
    rw [List.append_nil, leBytes_zero] at hall
    exact hall
  | pq dim m ksub centroids =>
    obtain ⟨⟨hdim, hm, hksub⟩, htaken, hlen, hroom⟩ := h
    have hreq : ReadsAs (request Fault.capacity 4 (m * ksub * (dim / m))) [] () :=
      readsAs_request Fault.capacity (by rw [← hlen]; exact hroom)
    have htimes : ReadsAs (times (nextNat (φ := Fault) 4) centroids.length)
        (centroids.flatMap fun c => leBytes 4 c.toNat) (centroids.map fun c => c.toNat) :=
      readsAs_times fun c _ => readsAs_nat c.toNat_lt
    rw [hlen] at htimes
    have hback : (centroids.map fun c => c.toNat).map UInt32.ofNat = centroids := by
      rw [List.map_map]
      refine (List.map_congr_left fun c _ => ?_).trans (List.map_id centroids)
      exact UInt32.ofNat_toNat
    have hall : ReadsAs Codec.decode _ (Codec.pq dim m ksub
        ((centroids.map fun c => c.toNat).map UInt32.ofNat)) :=
      (readsAs_nat (n := 1) (w := 1) (by omega)).bind <| (readsAs_nat hdim).bind <|
        ReadsAs.neg (by omega) <| ReadsAs.pos rfl <| (readsAs_nat hm).bind <|
        (readsAs_nat hksub).bind <| ReadsAs.neg htaken <| hreq.bind <| htimes.bind <|
        readsAs_pure _
    rw [hback, leBytes_one] at hall
    simpa only [Codec.encode, List.append_assoc, List.append_nil, List.nil_append] using hall

theorem spells_codec : Spells Codec.decode Codec.encode id Codec.Fits := by
  intro c a c' h
  obtain ⟨tag, c1, htag, h⟩ := run_bind_eq_ok.mp h
  obtain ⟨dim, c2, hdim, h⟩ := run_bind_eq_ok.mp h
  obtain ⟨tag, -, hleft, rfl⟩ := spells_nat 1 c tag c1 htag
  obtain ⟨dim, hdim', hleft1, rfl⟩ := spells_nat 4 c1 dim c2 hdim
  by_cases h0 : tag = 0
  · rw [if_pos h0] at h
    obtain ⟨ha, rfl⟩ := Prod.mk.inj h
    refine ⟨.i8 dim, hdim', ?_, (Except.ok.inj ha).symm⟩
    rw [hleft, hleft1, h0, leBytes_zero, Codec.encode, List.append_assoc]
  · rw [if_neg h0] at h
    by_cases h1 : tag = 1
    · rw [if_pos h1] at h
      -- a quantizer has its shape, then its codebook
      obtain ⟨m, c3, hm, h⟩ := run_bind_eq_ok.mp h
      obtain ⟨ksub, c4, hksub, h⟩ := run_bind_eq_ok.mp h
      obtain ⟨m, hm', hleft2, rfl⟩ := spells_nat 4 c2 m c3 hm
      obtain ⟨ksub, hksub', hleft3, rfl⟩ := spells_nat 4 c3 ksub c4 hksub
      by_cases hrefused : m = 0 ∨ ksub = 0 ∨ dim % m ≠ 0
      · rw [if_pos hrefused] at h
        cases (Prod.mk.inj h).1
      · rw [if_neg hrefused] at h
        obtain ⟨u, c5, hreq, h⟩ := run_bind_eq_ok.mp h
        obtain ⟨words, c6, hwords, h⟩ := run_bind_eq_ok.mp h
        obtain ⟨ha, rfl⟩ := Prod.mk.inj h
        obtain ⟨words, ⟨hlen, hsmall⟩, hleft4, rfl⟩ := spells_times (spells_nat 4) _ c5 words c6 hwords
        have hroom : 4 * (m * ksub * (dim / m)) < 2 ^ 63 := by
          by_contra hover
          rw [request, if_neg hover] at hreq
          cases (Prod.mk.inj hreq).1
        -- the words fit, so they are written as they were read
        have hbytes : (words.map UInt32.ofNat).flatMap (fun c => leBytes 4 c.toNat)
            = words.flatMap (leBytes 4) := by
          rw [List.flatMap_map]
          refine List.flatMap_congr fun w hw => ?_
          have hw' := hsmall w hw
          rw [UInt32.toNat_ofNat_of_lt' (by change w < 2 ^ 32; omega)]
        have hcount : (words.map UInt32.ofNat).length = m * ksub * (dim / m) := by
          rw [List.length_map, hlen]
        refine ⟨.pq dim m ksub (words.map UInt32.ofNat),
          ⟨⟨hdim', hm', hksub'⟩, hrefused, hcount, by rw [hcount]; exact hroom⟩, ?_, ?_⟩
        · rw [hleft, hleft1, hleft2, hleft3, ← request_ok hreq, hleft4, h1,
            leBytes_one, Codec.encode, hbytes]
          simp only [List.append_assoc]
        · rw [← Except.ok.inj ha]
          dsimp only
          rw [List.map_id]
          rfl
    · rw [if_neg h1] at h
      cases (Prod.mk.inj h).1

/-! ## Graphs -/

theorem readsAs_entry {word : Nat} (hsmall : word < 256 ^ 4)
    (hword : word = 2 ^ 32 - 1 ∨ word < 2 ^ 31) :
    ReadsAs readEntry (leBytes 4 word) (entryOf word) := by
  have htail : ReadsAs (if word = 2 ^ 32 - 1 then pure none
      else if word < 2 ^ 31 then pure (some word) else refuse : Reading Fault (Option Nat)) []
      (entryOf word) := by
    by_cases hnone : word = 2 ^ 32 - 1
    · rw [entryOf, if_pos hnone, if_pos hnone]
      exact readsAs_pure none
    · rw [entryOf, if_neg hnone, if_neg hnone, if_pos (hword.resolve_left hnone)]
      exact readsAs_pure (some word)
  have hall : ReadsAs readEntry _ (entryOf word) := (readsAs_nat hsmall).bind htail
  rw [List.append_nil] at hall
  exact hall

theorem spells_entry : Spells readEntry (leBytes 4) entryOf fun word =>
    word < 256 ^ 4 ∧ (word = 2 ^ 32 - 1 ∨ word < 2 ^ 31) := by
  intro c a c' h
  obtain ⟨word, c1, hword, h⟩ := run_bind_eq_ok.mp h
  obtain ⟨word, hsmall, hleft, rfl⟩ := spells_nat 4 c word c1 hword
  by_cases hnone : word = 2 ^ 32 - 1
  · rw [if_pos hnone] at h
    obtain ⟨ha, rfl⟩ := Prod.mk.inj h
    refine ⟨word, ⟨hsmall, Or.inl hnone⟩, hleft, ?_⟩
    rw [entryOf, if_pos hnone, ← Except.ok.inj ha]
  · rw [if_neg hnone] at h
    by_cases hlow : word < 2 ^ 31
    · rw [if_pos hlow] at h
      obtain ⟨ha, rfl⟩ := Prod.mk.inj h
      refine ⟨word, ⟨hsmall, Or.inr hlow⟩, hleft, ?_⟩
      rw [entryOf, if_neg hnone, ← Except.ok.inj ha]
    · rw [if_neg hlow] at h
      cases (Prod.mk.inj h).1

/-- **The spelling of a graph is read as the graph.** -/
theorem readsAs_graph {r : RawGraph} (h : r.Fits) : ReadsAs Hnsw.decode r.bytes r.graph := by
  have hcount := h.count
  have hreq : ReadsAs (request Fault.capacity 80 r.nodes.length) [] () :=
    readsAs_request Fault.capacity (by omega)
  have hreq' : ReadsAs (request Fault.capacity 32 r.nodes.length) [] () :=
    readsAs_request Fault.capacity (by omega)
  have hnodes : ReadsAs (readNodes r.nodes.length 0 SortedMap.empty) _ _ := readsAs_nodes h.nodes
  have hall : ReadsAs Hnsw.decode _ r.graph :=
    (readsAs_codec h.codec).bind <| (readsAs_nat h.m).bind <| (readsAs_nat h.m0).bind <|
      (readsAs_nat h.ef).bind <| (readsAs_nat h.seed).bind <|
      (readsAs_entry h.word h.entry).bind <| (readsAs_nat h.top).bind <|
      (readsAs_nat h.live).bind <| (readsAs_nat hcount).bind <| hreq.bind <| hreq'.bind <|
      hnodes.bind (readsAs_pure r.graph)
  simpa only [RawGraph.bytes, RawGraph.fields, List.append_assoc, List.append_nil,
    List.nil_append] using hall

/-- **What is read as a graph was spelled so.** -/
theorem spells_graph : Spells Hnsw.decode RawGraph.bytes RawGraph.graph RawGraph.Fits := by
  intro c a c' h
  obtain ⟨codec, c1, hcodec, h⟩ := run_bind_eq_ok.mp h
  obtain ⟨m, c2, hm, h⟩ := run_bind_eq_ok.mp h
  obtain ⟨m0, c3, hm0, h⟩ := run_bind_eq_ok.mp h
  obtain ⟨ef, c4, hef, h⟩ := run_bind_eq_ok.mp h
  obtain ⟨seed, c5, hseed, h⟩ := run_bind_eq_ok.mp h
  obtain ⟨entry, c6, hentry, h⟩ := run_bind_eq_ok.mp h
  obtain ⟨top, c7, htop, h⟩ := run_bind_eq_ok.mp h
  obtain ⟨live, c8, hlive, h⟩ := run_bind_eq_ok.mp h
  obtain ⟨count, c9, hcount, h⟩ := run_bind_eq_ok.mp h
  obtain ⟨u, c10, hreq, h⟩ := run_bind_eq_ok.mp h
  obtain ⟨u', c11, hreq', h⟩ := run_bind_eq_ok.mp h
  obtain ⟨table, c12, hnodes, h⟩ := run_bind_eq_ok.mp h
  obtain ⟨ha, rfl⟩ := Prod.mk.inj h
  obtain ⟨codec, hcodec', hleft, rfl⟩ := spells_codec c codec c1 hcodec
  obtain ⟨m, hm', hleft1, rfl⟩ := spells_nat 2 c1 m c2 hm
  obtain ⟨m0, hm0', hleft2, rfl⟩ := spells_nat 2 c2 m0 c3 hm0
  obtain ⟨ef, hef', hleft3, rfl⟩ := spells_nat 2 c3 ef c4 hef
  obtain ⟨seed, hseed', hleft4, rfl⟩ := spells_nat 8 c4 seed c5 hseed
  obtain ⟨word, ⟨hword, hword'⟩, hleft5, rfl⟩ := spells_entry c5 entry c6 hentry
  obtain ⟨top, htop', hleft6, rfl⟩ := spells_nat 2 c6 top c7 htop
  obtain ⟨live, hlive', hleft7, rfl⟩ := spells_nat 4 c7 live c8 hlive
  obtain ⟨count, hcount', hleft8, rfl⟩ := spells_nat 4 c8 count c9 hcount
  obtain ⟨rs, ⟨hlen, hfits⟩, hleft9, rfl⟩ := spells_nodes _ 0 SortedMap.empty c11 table c12 hnodes
  obtain rfl := hlen
  refine ⟨⟨codec, m, m0, ef, seed, word, top, live, rs⟩, ⟨hcodec', hm', hm0', hef', hseed', hword,
    hword', htop', hlive', hcount', hfits⟩, ?_, (Except.ok.inj ha).symm⟩
  rw [hleft, hleft1, hleft2, hleft3, hleft4, hleft5, hleft6, hleft7, hleft8, ← request_ok hreq,
    ← request_ok hreq', hleft9]
  simp only [RawGraph.bytes, RawGraph.fields, List.append_assoc]

/-! ## The map of the keys -/

theorem placed_concat (map : SortedMap Bytes Nat) (i : Nat) (keys : List Bytes) (key : Bytes) :
    placed map i (keys ++ [key]) = (placed map i keys).insert key ((i + keys.length) % 2 ^ 32) := by
  induction keys generalizing map i with
  | nil => rfl
  | cons k keys ih =>
    rw [List.cons_append, placed, ih, placed, List.length_cons]
    congr 2
    omega

/-- The map of the keys holds the last node of each. -/
theorem get_placed {keys : List Bytes} (hfew : keys.length ≤ 2 ^ 32) (key : Bytes) (i : Nat) :
    (placed SortedMap.empty 0 keys).get key = some i ↔ Hnsw.Latest keys key i := by
  induction keys using List.reverseRecOn generalizing i with
  | nil =>
    constructor
    · intro h
      cases h
    · intro h
      cases h.1
  | append_singleton keys new ih =>
    rw [List.length_append, List.length_singleton] at hfew
    rw [placed_concat, Hnsw.latest_snoc, SortedMap.get_insert, Nat.zero_add,
      Nat.mod_eq_of_lt (by omega)]
    by_cases hkey : key = new
    · rw [if_pos hkey, if_pos hkey, Option.some.injEq, eq_comm]
    · rw [if_neg hkey, if_neg hkey]
      exact ih (by omega) i

/-! ## What `save` spells -/

def rawNode (n : Node) : RawNode := ⟨n.key, n.code, if n.tomb then 1 else 0, n.levels⟩

/-- A graph as its blob holds it. -/
def rawGraph (g : Hnsw Codec) : RawGraph :=
  ⟨g.codec, g.params.m, g.params.m0, g.params.efConstruction, g.params.seed.toNat,
    entryWord g.entry, g.top, g.live, g.nodes.map rawNode⟩

theorem encode_eq (g : Hnsw Codec) : g.encode = (rawGraph g).bytes := by
  simp only [Hnsw.encode, RawGraph.bytes, RawGraph.fields, rawGraph, List.append_assoc,
    List.length_map, List.flatMap_map]
  rfl

theorem node_rawNode (n : Node) : (rawNode n).node = n := by
  obtain ⟨key, code, tomb, levels⟩ := n
  cases tomb with
  | false => rfl
  | true => rfl

theorem entryOf_entryWord {entry : Option Nat} (h : ∀ e, entry = some e → e < 2 ^ 31) :
    entryOf (entryWord entry) = entry := by
  cases entry with
  | none => rfl
  | some e =>
    have hsmall := h e rfl
    have hword : entryWord (some e) = e := Nat.mod_eq_of_lt (by omega)
    rw [hword, entryOf, if_neg (by omega)]

/-- **Read back, a graph is itself with its generator of levels started anew.** -/
theorem graph_rawGraph {g : Hnsw Codec} (hkeyed : Hnsw.Keyed g) (hfew : g.nodes.length ≤ 2 ^ 32)
    (hentry : ∀ e, g.entry = some e → e < 2 ^ 31) :
    (rawGraph g).graph = { g with rng := g.params.seed } := by
  have hnodes : (g.nodes.map rawNode).map RawNode.node = g.nodes := by
    rw [List.map_map]
    exact (List.map_congr_left fun n _ => node_rawNode n).trans (List.map_id g.nodes)
  have hkeys : (g.nodes.map rawNode).map RawNode.key = g.nodes.map Node.key := by
    rw [List.map_map]
    rfl
  have hmap : placed SortedMap.empty 0 (g.nodes.map Node.key) = g.byKey := by
    refine SortedMap.ext_get fun key => Option.ext fun i => ?_
    rw [get_placed (by rw [List.length_map]; exact hfew), hkeyed.latest]
  obtain ⟨codec, params, nodes, byKey, entry, top, live, rng⟩ := g
  simp only [RawGraph.graph, rawGraph, UInt64.ofNat_toNat]
  rw [hnodes, hkeys, hmap, entryOf_entryWord hentry]

/-! ## Shards -/

/-- **A shard that is spelled out is read.** -/
theorem decodeShard_spelled (ns : UInt8 × UInt8) {count shard : Nat} (hcount : count < 256 ^ 2)
    (hshard : shard < count) {r : RawGraph} (hr : r.Fits) (taken : Nat) :
    ∃ c, decodeShard ns shard ⟨shardHead ns count shard ++ r.bytes, taken⟩
      = (.ok (count, r.graph), c) := by
  obtain ⟨t1, h1⟩ := readsAs_nat (φ := Fault) (n := 1) (w := 2) (by omega)
    ([ns.1, ns.2] ++ leBytes 2 shard ++ leBytes 2 count ++ r.bytes) taken
  have hns : ReadsAs (nextBytes (φ := Fault) 2) [ns.1, ns.2] [ns.1, ns.2] :=
    readsAs_bytes [ns.1, ns.2]
  obtain ⟨t2, h2⟩ := hns (leBytes 2 shard ++ leBytes 2 count ++ r.bytes) t1
  obtain ⟨t3, h3⟩ := readsAs_nat (φ := Fault) (n := shard) (w := 2) (by omega)
    (leBytes 2 count ++ r.bytes) t2
  obtain ⟨t4, h4⟩ := readsAs_nat (φ := Fault) hcount r.bytes t3
  obtain ⟨t5, h5⟩ := readsAs_graph hr [] t4
  have hbytes : shardHead ns count shard ++ r.bytes
      = magic ++ (leBytes 2 1 ++ ([ns.1, ns.2] ++ leBytes 2 shard ++ leBytes 2 count ++ r.bytes)) := by
    simp only [shardHead, List.append_assoc]
  have hlong : ¬((shardHead ns count shard ++ r.bytes).length < 16 ∨
      (shardHead ns count shard ++ r.bytes).take 8 ≠ magic) := by
    rw [hbytes]
    have hfront (rest : Bytes) : (magic ++ rest).take magic.length = magic := List.take_left
    refine not_or.mpr ⟨?_, not_not.mpr (hfront _)⟩
    simp only [List.length_append, length_leBytes, magic, List.length_cons, List.length_nil]
    omega
  refine ⟨⟨[], t5⟩, ?_⟩
  rw [decodeShard, if_neg hlong, hbytes, show (8 : Nat) = magic.length from rfl, List.drop_left,
    readShard, run_bind_of_ok h1, if_neg (by simp)]
  simp only [List.append_assoc] at h2 h3 h4 h5 ⊢
  rw [run_bind_of_ok h2, if_neg (by simp), run_bind_of_ok h3, if_neg (by simp), run_bind_of_ok h4,
    if_neg (by omega)]
  rw [List.append_nil] at h5
  rw [run_bind_of_ok h5]
  rfl

/-- **A shard that is read was spelled out.** -/
theorem spells_shard {ns : UInt8 × UInt8} {shard count : Nat} {g : Hnsw Codec} {c c' : Cursor}
    (h : decodeShard ns shard c = (.ok (count, g), c')) :
    ∃ r : RawGraph, r.Fits ∧ c.left = shardHead ns count shard ++ r.bytes ∧ g = r.graph ∧
      count < 256 ^ 2 ∧ shard < count := by
  rw [decodeShard] at h
  by_cases hshort : c.left.length < 16 ∨ c.left.take 8 ≠ magic
  · rw [if_pos hshort] at h
    cases (Prod.mk.inj h).1
  · rw [if_neg hshort] at h
    obtain ⟨-, hmagic⟩ := not_or.mp hshort
    have hfront : c.left = magic ++ c.left.drop 8 := by
      rw [← not_not.mp hmagic, List.take_append_drop]
    -- behind the magic: version, namespace, shard and count, each checked in turn
    obtain ⟨version, c1, hversion, h⟩ := run_bind_eq_ok.mp h
    obtain ⟨version, -, hleft, rfl⟩ := spells_nat 2 _ version c1 hversion
    by_cases hv : version = 1
    · rw [if_neg (not_not.mpr hv)] at h
      obtain ⟨blobNs, c2, hns, h⟩ := run_bind_eq_ok.mp h
      obtain ⟨blobNs, -, hleft1, rfl⟩ := spells_bytes 2 c1 blobNs c2 hns
      by_cases hn : blobNs = [ns.1, ns.2]
      · rw [if_neg (not_not.mpr hn)] at h
        obtain ⟨i, c3, hi, h⟩ := run_bind_eq_ok.mp h
        obtain ⟨i, -, hleft2, rfl⟩ := spells_nat 2 c2 i c3 hi
        by_cases hid : i = shard
        · rw [if_neg (not_not.mpr hid)] at h
          obtain ⟨n, c4, hcount, h⟩ := run_bind_eq_ok.mp h
          obtain ⟨n, hsmall, hleft3, rfl⟩ := spells_nat 2 c3 n c4 hcount
          by_cases hbad : n = 0 ∨ n ≤ shard
          · rw [if_pos hbad] at h
            cases (Prod.mk.inj h).1
          · rw [if_neg hbad] at h
            -- then the graph, and nothing behind it
            obtain ⟨g', c5, hgraph, h⟩ := run_bind_eq_ok.mp h
            obtain ⟨u, c6, hend, h⟩ := run_bind_eq_ok.mp h
            obtain ⟨r, hfits, hleft4, rfl⟩ := spells_graph c4 g' c5 hgraph
            have hempty : c5.left = [] := by
              by_contra hmore
              rw [atEnd, if_neg hmore] at hend
              cases (Prod.mk.inj hend).1
            obtain ⟨hval, -⟩ := Prod.mk.inj h
            obtain ⟨rfl, rfl⟩ := Prod.mk.inj (Except.ok.inj hval)
            refine ⟨r, hfits, ?_, rfl, hsmall, by omega⟩
            dsimp only at hleft
            rw [hfront, hleft, hleft1, hleft2, hleft3, hleft4, hempty, hv, hid]
            simp only [id, hn, shardHead, List.append_assoc, List.append_nil]
        · rw [if_pos hid] at h
          cases (Prod.mk.inj h).1
      · rw [if_pos hn] at h
        cases (Prod.mk.inj h).1
    · rw [if_pos hv] at h
      cases (Prod.mk.inj h).1

end Okm.Vector
