import Mathlib.Algebra.BigOperators.Intervals
import Mathlib.Algebra.Order.BigOperators.Group.Finset
import Okm.Vector.SnapshotRead

/-!
# What loading a snapshot asks for

The reader asks for room before it has seen what the room is for: for as many centroids,
nodes and neighbours as the blob announces. The two-byte counts are small whatever they
say. The centroids and the nodes are not: `Announced` says that a blob announces no more of
them than it has bytes, and then `load_bounded` bounds all that loading asks for by the
bytes under the slot.

A request that is granted is paid by the bytes read after it, or the reading ends there: so
only the last shard read can have asked for more than it holds.
-/

namespace Okm.Vector

open Lib Model VirtualStorage Engine

/-! ## Nodes -/

theorem spends_copied {n : Nat} (h : n < 2 ^ 63) (rate slack : Nat) :
    Spends (copied n) (rate + 1) slack (fun _ => n) fun bytes => bytes.length = n := by
  refine (spends_bytes n rate slack).charged 1 1 List.length (fun bytes hlen => ?_)
    fun bytes hlen => ?_
  · omega
  · omega

/-- The slack of a list: four bytes for every neighbour announced. -/
def levelSlack : Nat := 4 * 65535

theorem spends_level : Spends readLevel 1 levelSlack (fun _ => 2) fun _ => True := by
  refine (spends_nat 2 1 levelSlack).bind fun n hn => ?_
  have hids : Spends (times (nextNat (φ := Fault) 4) n) 0 0 (fun _ => n * 4) fun ids => ids.length = n :=
    Spends.times (spends_nat 4 0 0) (fun _ _ => Nat.le_refl 4) n
  have hpaid : Spends (request Fault.capacity 4 n >>= fun _ => times (nextNat 4) n) (0 + 1)
      (0 + 4 * n) (fun _ => n * 4) fun ids => ids.length = n :=
    hids.requested 1 4 n (by omega) fun _ _ => by omega
  refine hpaid.mono (Nat.le_refl _) ?_ (fun _ _ => by omega) fun _ _ => trivial
  rw [levelSlack]
  omega

/-- The slack of a node: that of its last list, and the table of its lists. -/
def nodeSlack : Nat := levelSlack + 24 * 255

theorem spends_node :
    Spends readNode 30 nodeSlack (fun n => 8 + n.key.length) fun n => n.key.length < 2 ^ 16 := by
  refine (spends_nat 2 30 nodeSlack).bind fun klen hklen => ?_
  refine (spends_copied (by omega) 29 nodeSlack).bind fun key hkey => ?_
  refine (spends_nat 4 30 nodeSlack).bind fun clen hclen => ?_
  refine (spends_copied (by omega) 29 nodeSlack).bind fun code _ => ?_
  refine (spends_nat 1 30 nodeSlack).bind fun flag _ => ?_
  refine (spends_nat 1 30 nodeSlack).bind fun count hcount => ?_
  have hlists : Spends (times readLevel count) 18 levelSlack (fun _ => count * 2)
      fun levels => levels.length = count :=
    (Spends.times spends_level (fun _ _ => Nat.le_refl 2) count).mono (by omega) (Nat.le_refl _)
      (fun _ _ => Nat.le_refl _) fun _ h => h
  have hends : Spends (times readLevel count >>= fun levels =>
      (pure ⟨key, code, decide (flag ≠ 0), levels⟩ : Reading Fault Node)) 18 levelSlack
      (fun _ => count * 2) fun n => n.key = key := by
    refine hlists.bind fun levels _ => ?_
    refine (spends_pure (φ := Fault) (⟨key, code, decide (flag ≠ 0), levels⟩ : Node) 18
      levelSlack).mono (Nat.le_refl _) (Nat.le_refl _) (fun _ _ => by omega) ?_
    rintro n rfl
    rfl
  have hpaid := hends.requested (f := Fault.capacity) 12 24 count
    (by omega) fun _ _ => by omega
  refine hpaid.mono (by omega) (Nat.add_le_add_left (by omega) levelSlack) ?_ ?_
  · intro n hn
    rw [hn]
    omega
  · intro n hn
    rw [hn]
    omega

theorem spends_keyed : Spends readKeyed 31 nodeSlack (fun n => 8 + n.key.length) fun n =>
    n.key.length < 2 ^ 16 := by
  have hpaid := spends_node.charged (f := Fault.capacity) 1 1 (fun n => n.key.length)
    (fun n hn => by omega) fun n _ => by omega
  exact hpaid

theorem spends_nodes : ∀ (n i : Nat) (byKey : SortedMap Bytes Nat),
    Spends (readNodes n i byKey) 31 nodeSlack (fun _ => n * 8) fun _ => True
  | 0, i, byKey => (spends_pure (φ := Fault) (([], byKey) : List Node × SortedMap Bytes Nat) 31
      nodeSlack).mono (Nat.le_refl _) (Nat.le_refl _) (fun _ _ => by omega) fun _ _ => trivial
  | n + 1, i, byKey => by
    refine spends_keyed.bind fun first _ => ?_
    refine (spends_nodes n (i + 1) _).bind fun rest _ => ?_
    exact (spends_pure (φ := Fault) _ 31 nodeSlack).mono (Nat.le_refl _) (Nat.le_refl _)
      (fun _ _ => by omega) fun _ _ => trivial

/-! ## Blobs that announce what they hold -/

/-- **A blob announces no more centroids and nodes than it has bytes.** -/
structure Announced (ns : UInt8 × UInt8) (shard : Nat) (blob : Bytes) : Prop where
  short : blob.length < 2 ^ 63
  centroids : ∀ count dim m ksub rest, dim < 256 ^ 4 → m < 256 ^ 4 → ksub < 256 ^ 4 →
    dim % m = 0 →
    blob = shardHead ns count shard
      ++ ([1] ++ leBytes 4 dim ++ leBytes 4 m ++ leBytes 4 ksub ++ rest) →
    4 * (m * ksub * (dim / m)) ≤ blob.length
  nodes : ∀ count (r : RawGraph) n rest, r.Fits → n < 256 ^ 4 →
    blob = shardHead ns count shard ++ (r.codec.encode ++ r.fields ++ leBytes 4 n ++ rest) →
    n ≤ blob.length

theorem spends_codec {c : Cursor} {room : Nat} (hroom : room < 2 ^ 63)
    (h : ∀ dim m ksub rest, dim < 256 ^ 4 → m < 256 ^ 4 → ksub < 256 ^ 4 → dim % m = 0 →
      c.left = [1] ++ leBytes 4 dim ++ leBytes 4 m ++ leBytes 4 ksub ++ rest →
      4 * (m * ksub * (dim / m)) ≤ room) :
    SpendsAt Codec.decode c 1 room (fun _ => 0) fun _ => True := by
  have hdone : ∀ codec c', SpendsAt (pure codec : Reading Fault Codec) c' 1 room (fun _ => 0)
      fun _ => True := fun codec c' =>
    (spends_pure (φ := Fault) codec 1 room c').mono (Nat.le_refl _) (Nat.le_refl _)
      (fun _ _ => Nat.zero_le _) fun _ _ => trivial
  refine (spends_nat 1 1 room c).bind fun tag c1 htag _ => ?_
  refine (spends_nat 4 1 room c1).bind fun dim c2 hdim hdim' => ?_
  by_cases h0 : tag = 0
  · rw [if_pos h0]
    exact hdone _ _
  · rw [if_neg h0]
    by_cases h1 : tag = 1
    · rw [if_pos h1]
      refine (spends_nat 4 1 room c2).bind fun m c3 hm hm' => ?_
      refine (spends_nat 4 1 room c3).bind fun ksub c4 hksub hksub' => ?_
      by_cases hrefused : m = 0 ∨ ksub = 0 ∨ dim % m ≠ 0
      · rw [if_pos hrefused]
        exact spends_refuse 1 room _ _ c4
      · rw [if_neg hrefused]
        obtain ⟨tag, -, hleft, rfl⟩ := spells_nat 1 c tag c1 htag
        obtain ⟨dim, -, hleft1, rfl⟩ := spells_nat 4 c1 dim c2 hdim
        obtain ⟨m, -, hleft2, rfl⟩ := spells_nat 4 c2 m c3 hm
        obtain ⟨ksub, -, hleft3, rfl⟩ := spells_nat 4 c3 ksub c4 hksub
        -- the header announces a codebook the room pays for
        have hfew : 4 * (m * ksub * (dim / m)) ≤ room := by
          refine h dim m ksub c4.left hdim' hm' hksub' (not_not.mp (not_or.mp (not_or.mp hrefused).2).2) ?_
          rw [hleft, hleft1, hleft2, hleft3, h1, leBytes_one]
          simp only [List.append_assoc]
        -- and its words are read one by one
        have hwords : Spends (times (nextNat (φ := Fault) 4) (m * ksub * (dim / m))) 0 0
            (fun _ => m * ksub * (dim / m) * 4) fun _ => True :=
          (Spends.times (spends_nat 4 0 0) (fun _ _ => Nat.le_refl 4) _).mono (Nat.le_refl _)
            (Nat.le_refl _) (fun _ _ => Nat.le_refl _) fun _ _ => trivial
        have hends : Spends (times (nextNat (φ := Fault) 4) (m * ksub * (dim / m)) >>= fun words =>
            (pure (.pq dim m ksub (words.map UInt32.ofNat)) : Reading Fault Codec)) 0 0
            (fun _ => m * ksub * (dim / m) * 4) fun _ => True := by
          refine hwords.bind fun words _ => ?_
          exact (spends_pure (φ := Fault) _ 0 0).mono (Nat.le_refl _) (Nat.le_refl _)
            (fun _ _ => by omega) fun _ _ => trivial
        have hpaid := hends.requested (f := Fault.capacity) 1 4 (m * ksub * (dim / m)) (by omega) fun _ _ => by omega
        exact (hpaid c4).mono (Nat.le_refl _) (by omega) (fun _ _ => by omega) fun _ _ => trivial
    · rw [if_neg h1]
      exact spends_refuse 1 room _ _ c2

/-! ## Graphs and shards -/

/-- The slack of a graph that has room for `room` nodes. -/
def graphSlack (room : Nat) : Nat := nodeSlack + 112 * room

theorem spends_entry (rate slack : Nat) :
    Spends readEntry rate slack (fun _ => 0) fun _ => True := by
  refine (spends_nat 4 rate slack).bind fun word _ => ?_
  have hdone (entry : Option Nat) : Spends (pure entry : Reading Fault (Option Nat)) rate slack
      (fun _ => 0) fun _ => True :=
    (spends_pure entry rate slack).mono (Nat.le_refl _) (Nat.le_refl _) (fun _ _ => Nat.zero_le _)
      fun _ _ => trivial
  by_cases hnone : word = 2 ^ 32 - 1
  · rw [if_pos hnone]
    exact hdone none
  · rw [if_neg hnone]
    by_cases hlow : word < 2 ^ 31
    · rw [if_pos hlow]
      exact hdone (some word)
    · rw [if_neg hlow]
      exact spends_refuse rate slack _ _

theorem spends_decode {c : Cursor} {room : Nat} (hroom : room < 2 ^ 63)
    (hcentroids : ∀ dim m ksub rest, dim < 256 ^ 4 → m < 256 ^ 4 → ksub < 256 ^ 4 →
      dim % m = 0 → c.left = [1] ++ leBytes 4 dim ++ leBytes 4 m ++ leBytes 4 ksub ++ rest →
      4 * (m * ksub * (dim / m)) ≤ room)
    (hnodes : ∀ (r : RawGraph) n rest, r.Fits → n < 256 ^ 4 →
      c.left = r.codec.encode ++ r.fields ++ leBytes 4 n ++ rest → n ≤ room) :
    SpendsAt Hnsw.decode c 45 (graphSlack room) (fun _ => 0) fun _ => True := by
  have hcodec : SpendsAt Codec.decode c 45 (graphSlack room) (fun _ => 0) fun _ => True :=
    (spends_codec hroom hcentroids).mono (by omega) (by rw [graphSlack]; omega)
      (fun _ _ => Nat.le_refl _) fun _ h => h
  refine hcodec.bind fun codec c1 hcodec _ => ?_
  refine (spends_nat 2 45 _ c1).bind fun m c2 hm hm' => ?_
  refine (spends_nat 2 45 _ c2).bind fun m0 c3 hm0 hm0' => ?_
  refine (spends_nat 2 45 _ c3).bind fun ef c4 hef hef' => ?_
  refine (spends_nat 8 45 _ c4).bind fun seed c5 hseed hseed' => ?_
  refine (spends_entry 45 _ c5).bind fun entry c6 hentry _ => ?_
  refine (spends_nat 2 45 _ c6).bind fun top c7 htop htop' => ?_
  refine (spends_nat 4 45 _ c7).bind fun live c8 hlive hlive' => ?_
  refine (spends_nat 4 45 _ c8).bind fun count c9 hcount hcount' => ?_
  -- what was read so far names the count, so the count is no more than the room
  have hfew : count ≤ room := by
    obtain ⟨codec, hcodec', hleft, rfl⟩ := spells_codec c codec c1 hcodec
    obtain ⟨m, -, hleft1, rfl⟩ := spells_nat 2 c1 m c2 hm
    obtain ⟨m0, -, hleft2, rfl⟩ := spells_nat 2 c2 m0 c3 hm0
    obtain ⟨ef, -, hleft3, rfl⟩ := spells_nat 2 c3 ef c4 hef
    obtain ⟨seed, -, hleft4, rfl⟩ := spells_nat 8 c4 seed c5 hseed
    obtain ⟨word, ⟨hword, hword'⟩, hleft5, rfl⟩ := Okm.Vector.spells_entry c5 entry c6 hentry
    obtain ⟨top, -, hleft6, rfl⟩ := spells_nat 2 c6 top c7 htop
    obtain ⟨live, -, hleft7, rfl⟩ := spells_nat 4 c7 live c8 hlive
    obtain ⟨count, -, hleft8, rfl⟩ := spells_nat 4 c8 count c9 hcount
    refine hnodes ⟨codec, m, m0, ef, seed, word, top, live, []⟩ count c9.left ⟨hcodec', hm', hm0',
      hef', hseed', hword, hword', htop', hlive', Nat.two_pow_pos 32, fun n hn => by cases hn⟩
      hcount' ?_
    rw [hleft, hleft1, hleft2, hleft3, hleft4, hleft5, hleft6, hleft7, hleft8]
    simp only [RawGraph.fields, List.append_assoc]
  have hends : Spends (readNodes count 0 SortedMap.empty >>= fun table =>
      (pure ⟨codec, ⟨m, m0, ef, UInt64.ofNat seed⟩, table.1, table.2, entry, top, live,
        UInt64.ofNat seed⟩ : Reading Fault (Hnsw Codec))) 31 nodeSlack (fun _ => count * 8)
      fun _ => True := by
    refine (spends_nodes count 0 SortedMap.empty).bind fun table _ => ?_
    exact (spends_pure (φ := Fault) _ 31 nodeSlack).mono (Nat.le_refl _) (Nat.le_refl _)
      (fun _ _ => by omega) fun _ _ => trivial
  have hpaid := (hends.requested (f := Fault.capacity) 4 32 count (by omega)
    fun _ _ => by omega).requested (f := Fault.capacity) 10 80 count (by omega) fun _ _ => by omega
  refine (hpaid c9).mono (by omega) ?_ (fun _ _ => by omega) fun _ h => h
  rw [graphSlack]
  omega

theorem spends_atEnd (rate slack : Nat) : Spends atEnd rate slack (fun _ => 0) fun _ => True := by
  intro c
  by_cases hempty : c.left = []
  · exact spendsAt_ok (if_pos hempty) trivial (Nat.le_refl _) rfl
  · exact spendsAt_nothing (if_neg hempty)

theorem spends_shard {ns : UInt8 × UInt8} {shard : Nat} {blob : Bytes}
    (h : Announced ns shard blob) (taken : Nat) :
    SpendsAt (decodeShard ns shard) ⟨blob, taken⟩ 45 (graphSlack blob.length) (fun _ => 0)
      fun _ => True := by
  by_cases hshort : blob.length < 16 ∨ blob.take 8 ≠ magic
  · exact spendsAt_nothing (if_pos hshort)
  · have hrun : decodeShard ns shard ⟨blob, taken⟩ = readShard ns shard ⟨blob.drop 8, taken⟩ :=
      if_neg hshort
    obtain ⟨hlong, hmagic⟩ := not_or.mp hshort
    have hfront : blob = magic ++ blob.drop 8 := by
      rw [← not_not.mp hmagic, List.take_append_drop]
    have hlength : (blob.drop 8).length ≤ blob.length := by
      rw [List.length_drop]
      omega
    -- every field of the head is paid by its own bytes
    have hread : SpendsAt (readShard ns shard) ⟨blob.drop 8, taken⟩ 45 (graphSlack blob.length)
        (fun _ => 0) fun _ => True := by
      refine (spends_nat 2 45 _ _).bind fun version c1 hversion _ => ?_
      by_cases hv : version = 1
      · rw [if_neg (not_not.mpr hv)]
        refine (spends_bytes 2 45 _ c1).bind fun blobNs c2 hblobNs _ => ?_
        by_cases hn : blobNs = [ns.1, ns.2]
        · rw [if_neg (not_not.mpr hn)]
          refine (spends_nat 2 45 _ c2).bind fun i c3 hi _ => ?_
          by_cases hid : i = shard
          · rw [if_neg (not_not.mpr hid)]
            refine (spends_nat 2 45 _ c3).bind fun count c4 hcount _ => ?_
            by_cases hbad : count = 0 ∨ count ≤ shard
            · rw [if_pos hbad]
              exact spends_refuse 45 _ _ _ c4
            · rw [if_neg hbad]
              -- the bytes read are the head of this shard, so what was announced of the rest holds
              have hspelled : blob = shardHead ns count shard ++ c4.left := by
                obtain ⟨version, -, hleft, rfl⟩ := spells_nat 2 _ version c1 hversion
                obtain ⟨blobNs, -, hleft1, rfl⟩ := spells_bytes 2 c1 blobNs c2 hblobNs
                obtain ⟨i, -, hleft2, rfl⟩ := spells_nat 2 c2 i c3 hi
                obtain ⟨count, -, hleft3, rfl⟩ := spells_nat 2 c3 count c4 hcount
                dsimp only at hleft
                rw [hfront, hleft, hleft1, hleft2, hleft3, hv, hid]
                simp only [hn, shardHead, List.append_assoc, id]
              have hdecode := spends_decode (c := c4) h.short
                (fun dim m ksub rest hdim hm hksub hdiv hleft =>
                  h.centroids count dim m ksub rest hdim hm hksub hdiv (by rw [← hleft]; exact hspelled))
                (fun r n rest hr hn hleft =>
                  h.nodes count r n rest hr hn (by rw [← hleft]; exact hspelled))
              refine (hdecode.mono (Nat.le_refl _) (Nat.le_refl _) (fun _ _ => Nat.zero_le _)
                fun _ h => h).bind fun g c5 _ _ => ?_
              refine (spends_atEnd 45 _ c5).bind fun _ c6 _ _ => ?_
              exact (spends_pure (φ := Fault) (count, g) 45 _ c6).mono (Nat.le_refl _)
                (Nat.le_refl _) (fun _ _ => Nat.zero_le _) fun _ _ => trivial
          · rw [if_pos hid]
            exact spends_refuse 45 _ _ _ c3
        · rw [if_pos hn]
          exact spends_refuse 45 _ _ _ c2
      · rw [if_pos hv]
        exact spends_refuse 45 _ _ _ c1
    obtain ⟨hok, hnothing, hfault⟩ := hread
    refine ⟨fun a c' heq => ?_, fun c' heq => ?_, fun f c' heq => ?_⟩
    · rw [hrun] at heq
      obtain ⟨-, hleft, htaken⟩ := hok a c' heq
      dsimp only at hleft htaken ⊢
      exact ⟨trivial, by omega, by omega⟩
    · rw [hrun] at heq
      have hbound := hnothing c' heq
      dsimp only at hbound ⊢
      omega
    · rw [hrun] at heq
      exact hfault f c' heq

/-! ## Loading -/

variable {α β : Type}

/-- A part of `load` asks for at most `paid`, or ends with at most `slack` more; it does not
fault. -/
structure LoadsWithin (x : Loading α) (paid slack : Nat) (P : α → Prop) : Prop where
  ok : ∀ taken a taken', x taken = (.ok a, taken') → P a ∧ taken' ≤ taken + paid
  error : ∀ taken e taken', x taken = (.error e, taken') →
    (∀ f, e ≠ .fault f) ∧ taken' ≤ taken + paid + slack

theorem loadsWithin_pure {a : α} {P : α → Prop} (h : P a) (slack : Nat) :
    LoadsWithin (pure a : Loading α) 0 slack P := by
  refine ⟨fun taken b taken' heq => ?_, fun taken e taken' heq => ?_⟩
  · obtain ⟨hb, rfl⟩ := Prod.mk.inj heq
    obtain rfl := Except.ok.inj hb
    exact ⟨h, Nat.le_refl _⟩
  · cases (Prod.mk.inj heq).1

theorem LoadsWithin.bind {x : Loading α} {f : α → Loading β} {paid paid' slack : Nat}
    {P : α → Prop} {Q : β → Prop} (hx : LoadsWithin x paid slack P)
    (hf : ∀ a, P a → LoadsWithin (f a) paid' slack Q) :
    LoadsWithin (x >>= f) (paid + paid') slack Q := by
  refine ⟨fun taken b taken' heq => ?_, fun taken e taken' heq => ?_⟩
  · obtain ⟨a, mid, hrun, heq⟩ := run_bind_eq_ok.mp heq
    obtain ⟨ha, hmid⟩ := hx.ok taken a mid hrun
    obtain ⟨hb, hlast⟩ := (hf a ha).ok mid b taken' heq
    exact ⟨hb, by omega⟩
  · rw [run_bind] at heq
    cases hrun : x taken with
    | mk answer mid =>
      rw [hrun] at heq
      cases answer with
      | error e' =>
        obtain ⟨he, rfl⟩ := Prod.mk.inj heq
        rw [← Except.error.inj he]
        obtain ⟨hnofault, hmid⟩ := hx.error taken e' mid hrun
        exact ⟨hnofault, by omega⟩
      | ok a =>
        obtain ⟨ha, hmid⟩ := hx.ok taken a mid hrun
        obtain ⟨hnofault, hlast⟩ := (hf a ha).error mid e taken' heq
        exact ⟨hnofault, by omega⟩

section

variable {σ : Type} [VirtualStorage σ] (store : σ) (ns : UInt8 × UInt8)

/-- What the slot holds for a shard. -/
def blobAt (shard : Nat) : Bytes :=
  match get store (slotKey ns shard) with
  | .ok (some blob) => blob
  | _ => []

/-- The bytes of all blobs under the slot. -/
def slotBytes : Nat := ∑ shard ∈ Finset.range (2 ^ 16), (blobAt store ns shard).length

theorem blobAt_le {shard : Nat} (h : shard < 2 ^ 16) :
    (blobAt store ns shard).length ≤ slotBytes store ns :=
  Finset.single_le_sum (f := fun i => (blobAt store ns i).length) (fun _ _ => Nat.zero_le _)
    (Finset.mem_range.mpr h)

variable {Q : Hnsw Codec → Prop}

/-- One shard: paid by its blob. -/
theorem loadShard_within {shard : Nat} (hshard : shard < 2 ^ 16)
    (hannounced : ∀ blob, get store (slotKey ns shard) = .ok (some blob) →
      Announced ns shard blob)
    (hQ : ∀ blob count (r : RawGraph), get store (slotKey ns shard) = .ok (some blob) →
      shard < count → count < 256 ^ 2 → r.Fits → blob = shardHead ns count shard ++ r.bytes →
      Q r.graph) :
    LoadsWithin (VectorIndex.loadShard store ns shard) (45 * (blobAt store ns shard).length)
      (graphSlack (slotBytes store ns)) fun found => Q found.2 ∧ shard < found.1 ∧
        found.1 < 2 ^ 16 := by
  -- an end before the decoder takes nothing
  have hnone : ∀ e, (∀ f, e ≠ LoadEnd.fault f) →
      (VectorIndex.loadShard store ns shard = fun taken => (.error e, taken)) →
      LoadsWithin (VectorIndex.loadShard store ns shard) (45 * (blobAt store ns shard).length)
        (graphSlack (slotBytes store ns)) fun found => Q found.2 ∧ shard < found.1 ∧
          found.1 < 2 ^ 16 := by
    intro e he hrun
    refine ⟨fun taken found taken' heq => ?_, fun taken e' taken' heq => ?_⟩
    · rw [hrun] at heq
      cases (Prod.mk.inj heq).1
    · rw [hrun] at heq
      obtain ⟨he', rfl⟩ := Prod.mk.inj heq
      rw [← Except.error.inj he']
      exact ⟨he, by omega⟩
  cases hget : get store (slotKey ns shard) with
  | error e =>
    refine hnone (.store (errorText e)) (fun f => by simp) ?_
    funext taken
    rw [VectorIndex.loadShard, hget]
  | ok found =>
    cases found with
    | none =>
      refine hnone .absent (fun f => by simp) ?_
      funext taken
      rw [VectorIndex.loadShard, hget]
    | some blob =>
      have hblob : blobAt store ns shard = blob := by
        rw [blobAt, hget]
      -- the blob is one of those the bound counts
      have hslack : graphSlack blob.length ≤ graphSlack (slotBytes store ns) := by
        have hle := blobAt_le store ns hshard
        rw [hblob] at hle
        rw [graphSlack, graphSlack]
        omega
      rw [hblob]
      have hspends := spends_shard (hannounced blob hget)
      refine ⟨fun taken found taken' heq => ?_, fun taken e taken' heq => ?_⟩
      · rw [VectorIndex.loadShard, hget] at heq
        dsimp only at heq
        cases hrun : decodeShard ns shard ⟨blob, taken⟩ with
        | mk answer c =>
          rw [hrun] at heq
          cases answer with
          | error stop =>
            cases stop with
            | nothing => cases (Prod.mk.inj heq).1
            | fault f => cases (Prod.mk.inj heq).1
          | ok shown =>
            obtain ⟨hfound, rfl⟩ := Prod.mk.inj heq
            obtain rfl := Except.ok.inj hfound
            obtain ⟨-, -, htaken⟩ := (hspends taken).ok _ _ hrun
            obtain ⟨r, hr, hbytes, hgraph, hcount, hlt⟩ := spells_shard hrun
            dsimp only at htaken hbytes
            refine ⟨⟨?_, hlt, hcount⟩, by omega⟩
            rw [hgraph]
            exact hQ blob _ r hget hlt hcount hr hbytes
      · rw [VectorIndex.loadShard, hget] at heq
        dsimp only at heq
        cases hrun : decodeShard ns shard ⟨blob, taken⟩ with
        | mk answer c =>
          rw [hrun] at heq
          cases answer with
          | error stop =>
            cases stop with
            | nothing =>
              obtain ⟨he, rfl⟩ := Prod.mk.inj heq
              rw [← Except.error.inj he]
              have hbound := (hspends taken).nothing _ hrun
              dsimp only at hbound
              exact ⟨fun f => by simp, by omega⟩
            | fault f => exact absurd hrun ((hspends taken).fault f c)
          | ok shown => cases (Prod.mk.inj heq).1

/-- The shards after the first: paid by their blobs. -/
theorem loadRest_within {count : Nat} (hcount : count < 2 ^ 16)
    (hannounced : ∀ shard blob, shard < 2 ^ 16 → get store (slotKey ns shard) = .ok (some blob) →
      Announced ns shard blob)
    (hQ : ∀ shard blob n (r : RawGraph), shard < 2 ^ 16 →
      get store (slotKey ns shard) = .ok (some blob) → shard < n → n < 256 ^ 2 → r.Fits →
      blob = shardHead ns n shard ++ r.bytes → Q r.graph) :
    ∀ left i, i + left ≤ count →
      LoadsWithin (VectorIndex.loadRest store ns count left i)
        (45 * ∑ shard ∈ Finset.Ico i (i + left), (blobAt store ns shard).length)
        (graphSlack (slotBytes store ns)) fun gs => ∀ g ∈ gs, Q g
  | 0, i, _ => by
    rw [Nat.add_zero, Finset.Ico_self, Finset.sum_empty]
    exact loadsWithin_pure (fun g hg => by cases hg) _
  | left + 1, i, hle => by
    have hsmall : i < 2 ^ 16 := by omega
    have hsum : ∑ shard ∈ Finset.Ico i (i + (left + 1)), (blobAt store ns shard).length
        = (blobAt store ns i).length
          + ∑ shard ∈ Finset.Ico (i + 1) (i + 1 + left), (blobAt store ns shard).length := by
      have hends : i + (left + 1) = i + 1 + left := by omega
      rw [hends, Finset.sum_eq_sum_Ico_succ_bot (by omega)]
    rw [hsum, Nat.mul_add]
    refine (loadShard_within store ns hsmall (fun blob => hannounced i blob hsmall)
      (fun blob n r => hQ i blob n r hsmall)).bind ?_
    intro found hfound
    -- a shard that names another count ends the load
    by_cases hother : found.1 ≠ count
    · rw [if_pos hother]
      refine ⟨fun taken gs taken' heq => ?_, fun taken e taken' heq => ?_⟩
      · cases (Prod.mk.inj heq).1
      · obtain ⟨he, rfl⟩ := Prod.mk.inj heq
        rw [← Except.error.inj he]
        exact ⟨fun f => by simp, by omega⟩
    · rw [if_neg hother]
      have hrest := loadRest_within hcount hannounced hQ left (i + 1) (by omega)
      rw [← Nat.add_zero (45 * ∑ shard ∈ Finset.Ico (i + 1) (i + 1 + left), _)]
      refine hrest.bind ?_
      intro rest hrest
      refine loadsWithin_pure ?_ _
      intro g hg
      rcases List.mem_cons.mp hg with rfl | hmem
      · exact hfound.1
      · exact hrest g hmem

/-- **Loading asks for no more than the bytes under the slot pay for**, and a table of at
most 65535 shards. What it returns was spelled out shard by shard. -/
theorem load_bounded
    (hannounced : ∀ shard blob, shard < 2 ^ 16 → get store (slotKey ns shard) = .ok (some blob) →
      Announced ns shard blob)
    (hQ : ∀ shard blob n (r : RawGraph), shard < 2 ^ 16 →
      get store (slotKey ns shard) = .ok (some blob) → shard < n → n < 256 ^ 2 → r.Fits →
      blob = shardHead ns n shard ++ r.bytes → Q r.graph) :
    LoadsWithin (VectorIndex.load store ns) (45 * slotBytes store ns + 184 * 65535)
      (graphSlack (slotBytes store ns)) fun y => y.shards ≠ [] ∧ ∀ g ∈ y.shards, Q g := by
  have hfirst := loadShard_within store ns (Nat.two_pow_pos 16)
    (fun blob => hannounced 0 blob (Nat.two_pow_pos 16))
    (fun blob n r => hQ 0 blob n r (Nat.two_pow_pos 16))
  have hall : LoadsWithin (VectorIndex.load store ns)
      (45 * (blobAt store ns 0).length + (184 * 65535
        + 45 * ∑ shard ∈ Finset.Ico 1 (2 ^ 16), (blobAt store ns shard).length))
      (graphSlack (slotBytes store ns)) fun y => y.shards ≠ [] ∧ ∀ g ∈ y.shards, Q g := by
    refine hfirst.bind ?_
    rintro found ⟨hgraph, hpos, hsmall⟩
    -- the table of shards takes its fixed size
    have htable : LoadsWithin (VectorIndex.shardTable found.1) (184 * 65535)
        (graphSlack (slotBytes store ns)) fun _ => True := by
      refine ⟨fun taken u taken' heq => ?_, fun taken e taken' heq => ?_⟩
      · obtain ⟨-, rfl⟩ := Prod.mk.inj heq
        exact ⟨trivial, by omega⟩
      · cases (Prod.mk.inj heq).1
    refine htable.bind ?_
    intro u _
    have hrest := loadRest_within store ns hsmall hannounced hQ (found.1 - 1) 1 (by omega)
    -- the shards read are among all slots
    have hpart : ∑ shard ∈ Finset.Ico 1 (1 + (found.1 - 1)), (blobAt store ns shard).length
        ≤ ∑ shard ∈ Finset.Ico 1 (2 ^ 16), (blobAt store ns shard).length :=
      Finset.sum_le_sum_of_subset (Finset.Ico_subset_Ico (Nat.le_refl 1) (by omega))
    have hends : LoadsWithin (do
        let rest ← VectorIndex.loadRest store ns found.1 (found.1 - 1) 1
        pure ⟨ns, found.2 :: rest⟩ : Loading (VectorIndex Codec))
        (45 * (∑ shard ∈ Finset.Ico 1 (1 + (found.1 - 1)), (blobAt store ns shard).length) + 0)
        (graphSlack (slotBytes store ns)) fun y => y.shards ≠ [] ∧ ∀ g ∈ y.shards, Q g := by
      refine hrest.bind ?_
      intro rest hrest
      refine loadsWithin_pure ⟨List.cons_ne_nil _ _, ?_⟩ _
      intro g hg
      rcases List.mem_cons.mp hg with rfl | hmem
      · exact hgraph
      · exact hrest g hmem
    refine ⟨fun taken y taken' heq => ?_, fun taken e taken' heq => ?_⟩
    · obtain ⟨hy, hbound⟩ := hends.ok taken y taken' heq
      exact ⟨hy, by omega⟩
    · obtain ⟨he, hbound⟩ := hends.error taken e taken' heq
      exact ⟨he, by omega⟩
  -- slot 0 and the others are all the bytes there are
  have hsum : slotBytes store ns = (blobAt store ns 0).length
      + ∑ shard ∈ Finset.Ico 1 (2 ^ 16), (blobAt store ns shard).length := by
    rw [slotBytes, Finset.range_eq_Ico, Finset.sum_eq_sum_Ico_succ_bot (Nat.two_pow_pos 16)]
  refine ⟨fun taken y taken' heq => ?_, fun taken e taken' heq => ?_⟩
  · obtain ⟨hy, hbound⟩ := hall.ok taken y taken' heq
    exact ⟨hy, by omega⟩
  · obtain ⟨he, hbound⟩ := hall.error taken e taken' heq
    exact ⟨he, by omega⟩

end

end Okm.Vector
