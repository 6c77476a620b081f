import Okm.Engine.Lawful
import Okm.Vector.Requests
import Okm.Vector.SnapshotRead

/-!
# Reloading an index

Saved and loaded, an index is itself but for the generators of its levels, which start
again from the seed (`load_saved`). So it goes on like the original wherever a shard either
had nothing added before the snapshot or gets nothing added after it. Elsewhere it does not:
the next node draws the level the first one drew.
-/

namespace Okm.Vector

open Lib Model VirtualStorage Engine

variable {V P D : Type}

/-! ## How far an index has come -/

namespace Hnsw

/-- No node has more layers than a level allows, and an empty graph has drawn none. -/
structure Aged {κ : Type} (g : Hnsw κ) : Prop where
  layers : ∀ n ∈ g.nodes, n.levels.length ≤ 33
  young : g.nodes = [] → g.top = 0 ∧ g.rng = g.params.seed

theorem levelLoop_le {κ : Type} (H : Host κ V P D) (m : Nat) : ∀ left state,
    (levelLoop H m left state).1 ≤ left
  | 0, _ => Nat.le_refl 0
  | left + 1, state => by
    unfold levelLoop
    by_cases h : H.below (splitMix (advance state)) m = true
    · rw [if_pos h]
      exact Nat.succ_le_succ (levelLoop_le H m left (advance state))
    · rw [if_neg h]
      exact Nat.zero_le _

section

variable {κ : Type} [LinearOrder D] {H : Host κ V P D} {g : Hnsw κ}

omit [LinearOrder D] in
theorem bury_aged (h : Aged g) (key : Bytes) :
    Meets (fun _ => True) (g.bury key) fun r => Aged r.2 := by
  unfold bury
  cases g.byKey.get key with
  | none => exact h
  | some old =>
    refine (meets_any _).bind ?_
    intro n _
    split
    · exact h
    · split
      · exact trivial
      · refine ⟨?_, ?_⟩
        · intro n' hn'
          obtain ⟨i, hi⟩ := List.getElem?_of_mem hn'
          obtain ⟨m, hm, -, -, hlevels, -⟩ := getElem?_entomb hi
          rw [hlevels]
          exact h.layers m (List.mem_of_getElem? hm)
        · intro hnil
          refine h.young (List.eq_nil_of_length_eq_zero ?_)
          have hlength := congrArg List.length (keys_entomb g old)
          rw [hnil] at hlength
          simpa using hlength.symm

/-- **An insertion draws a level of at most 32.** -/
theorem insert_aged (h : Aged g) (key : Bytes) (v : V) :
    Meets (fun _ => True) (g.insert H key v) Aged := by
  unfold insert
  refine (meets_any _).bind ?_
  intro code _
  refine (bury_aged h key).bind ?_
  rintro ⟨gone, g₁⟩ h₁
  refine (connect_frame _ _ _ _).mono ?_
  rintro g' ⟨hshape, -⟩
  have hlengths : ∀ n' ∈ g'.nodes, ∃ n ∈ (g₁.push key code (randomLevel H g.params.m g.rng).1
      (randomLevel H g.params.m g.rng).2).nodes, n.levels.length = n'.levels.length := by
    intro n' hn'
    have hmem := List.mem_map_of_mem (f := shape) hn'
    rw [hshape] at hmem
    obtain ⟨n, hn, heq⟩ := List.mem_map.mp hmem
    exact ⟨n, hn, congrArg (fun s => s.2.2.2) heq⟩
  refine ⟨?_, ?_⟩
  · intro n' hn'
    obtain ⟨n, hn, hlen⟩ := hlengths n' hn'
    rw [← hlen]
    rcases List.mem_append.mp hn with hold | hnew
    · exact h₁.layers n hold
    · rw [List.mem_singleton.mp hnew, List.length_replicate]
      exact Nat.succ_le_succ (levelLoop_le H _ 32 _)
  · intro hnil
    have hkeys := congrArg List.length hshape
    rw [hnil, push] at hkeys
    simp at hkeys

end

end Hnsw

namespace VectorIndex

section

variable {κ : Type} [LinearOrder D] {H : Host κ V P D}

theorem run_aged (ns : UInt8 × UInt8) (codec : κ) (params : HnswParams) (n : Nat)
    (ops : List (Op V)) :
    Meets (fun _ => True) (ops.foldlM (step H) (new ns codec params n)) fun x =>
      ∀ g ∈ x.shards, Hnsw.Aged g := by
  refine Meets.foldlM ?_ ?_
  · intro g hg
    obtain rfl := List.eq_of_mem_replicate hg
    exact ⟨(fun n hn => by cases hn), fun _ => ⟨rfl, rfl⟩⟩
  · intro x op _ hx
    have hset : ∀ {i : Nat} {g' : Hnsw κ}, Hnsw.Aged g' →
        ∀ g ∈ x.shards.set i g', Hnsw.Aged g := by
      intro i g' hg' g hg
      rcases List.mem_or_eq_of_mem_set hg with hold | rfl
      · exact hx g hold
      · exact hg'
    have hshard : ∀ i, Meets (fun _ => True) (x.shard i) Hnsw.Aged := by
      intro i
      unfold shard
      cases hi : x.shards[i]? with
      | none => exact trivial
      | some g => exact hx g (List.mem_of_getElem? hi)
    cases op with
    | add key v =>
      refine (hshard _).bind fun g hg => ?_
      exact (Hnsw.insert_aged hg key v).bind fun g' hg' => hset hg'
    | remove key =>
      have hremove : Meets (fun _ => True) (x.remove key) fun r =>
          ∀ g ∈ r.2.shards, Hnsw.Aged g := by
        refine (hshard _).bind fun g hg => ?_
        exact (Hnsw.bury_aged hg key).bind fun r hr => hset hr
      exact hremove.bind fun r hr => hr

end

/-! ## What can be saved -/

/-- The numbers of the index fit the fields of a blob: the parameters, the keys and the
codes, and no more nodes in a shard than an entry can name. -/
structure Storable (okVec : V → Prop) (okCode : Bytes → Prop) (codec : Codec)
    (params : HnswParams) (n : Nat) (ops : List (Op V)) : Prop where
  codec : codec.Fits
  m : params.m < 2 ^ 16
  m0 : params.m0 < 2 ^ 16
  ef : params.efConstruction < 2 ^ 16
  some : 0 < n
  count : n < 2 ^ 16
  vectors : ∀ key v, .add key v ∈ ops → okVec v
  keys : ∀ key v, .add key v ∈ ops → key.length < 2 ^ 16
  codes : ∀ code, okCode code → code.length < 2 ^ 32
  few : ∀ i, (routed n i (added ops)).length ≤ 2 ^ 31

theorem mem_added {key : Bytes} {ops : List (Op V)} (h : key ∈ added ops) :
    ∃ v, .add key v ∈ ops := by
  induction ops with
  | nil => cases h
  | cons op ops ih =>
    cases op with
    | add key' v =>
      rcases List.mem_cons.mp h with rfl | hrest
      · exact ⟨v, List.mem_cons_self⟩
      · obtain ⟨v', hv'⟩ := ih hrest
        exact ⟨v', List.mem_cons_of_mem _ hv'⟩
    | remove key' =>
      obtain ⟨v', hv'⟩ := ih h
      exact ⟨v', List.mem_cons_of_mem _ hv'⟩

variable {okVec : V → Prop} {okCode : Bytes → Prop} {codec : Codec} {params : HnswParams} {n : Nat}
  {ops : List (Op V)} {x : VectorIndex Codec}

theorem entry_lt {g : Hnsw Codec} (hlayered : Hnsw.Layered g) (hfew : g.nodes.length ≤ 2 ^ 31) :
    ∀ e, g.entry = some e → e < 2 ^ 31 := by
  intro e he
  obtain ⟨m, hm, -⟩ := hlayered.entry e he
  have hlt := (List.getElem?_eq_some_iff.mp hm).1
  omega

/-- **The graphs of such an index fit the fields.** -/
theorem Built.fits (h : Built okCode codec params n (added ops) x)
    (hst : Storable okVec okCode codec params n ops) {g : Hnsw Codec} (hg : g ∈ x.shards)
    (haged : Hnsw.Aged g) : (rawGraph g).Fits ∧ g.nodes.length ≤ 2 ^ 31 := by
  obtain ⟨i, hi⟩ := List.getElem?_of_mem hg
  obtain ⟨hinv, hcodec, hparams, hkeys⟩ := h.each i g hi
  have hfew : g.nodes.length ≤ 2 ^ 31 := by
    rw [← List.length_map Node.key, hkeys]
    exact hst.few i
  -- a list is never longer than its cap, and both caps fit their word
  have hcap : ∀ l, g.cap l < 2 ^ 16 := by
    intro l
    have hm := hst.m
    have hm0 := hst.m0
    unfold Hnsw.cap
    rw [hparams]
    split
    · exact hm0
    · exact hm
  -- the top is the height of the entry node
  have htop : g.top ≤ 32 := by
    cases hentry : g.entry with
    | none => rw [(haged.young (hinv.layered.empty hentry)).1]; exact Nat.zero_le _
    | some e =>
      obtain ⟨m, hm, hlen⟩ := hinv.layered.entry e hentry
      have hlayers := haged.layers m (List.mem_of_getElem? hm)
      omega
  -- the live count counts nodes
  have hlive : g.live ≤ g.nodes.length := by
    rw [hinv.keyed.count]
    exact List.countP_le_length
  -- no entry is written as the word no node has
  have hword : entryWord g.entry < 256 ^ 4 ∧
      (entryWord g.entry = 2 ^ 32 - 1 ∨ entryWord g.entry < 2 ^ 31) := by
    cases hentry : g.entry with
    | none => exact ⟨by rw [entryWord]; omega, Or.inl rfl⟩
    | some e =>
      have he := entry_lt hinv.layered hfew e hentry
      rw [entryWord, Nat.mod_eq_of_lt (by omega)]
      exact ⟨by omega, Or.inr he⟩
  have hm := hst.m
  have hm0 := hst.m0
  have hef := hst.ef
  refine ⟨⟨?_, ?_, ?_, ?_, g.params.seed.toNat_lt, hword.1, hword.2, ?_, ?_, ?_, ?_⟩, hfew⟩
  · -- the header, word by word
    change g.codec.Fits
    rw [hcodec]
    exact hst.codec
  · change g.params.m < 256 ^ 2
    rw [hparams]
    omega
  · change g.params.m0 < 256 ^ 2
    rw [hparams]
    omega
  · change g.params.efConstruction < 256 ^ 2
    rw [hparams]
    omega
  · change g.top < 256 ^ 2
    omega
  · change g.live < 256 ^ 4
    omega
  · change (g.nodes.map rawNode).length < 256 ^ 4
    rw [List.length_map]
    omega
  · -- the nodes: key and code from the operations, levels from the caps
    intro r hr
    obtain ⟨m, hm, rfl⟩ := List.mem_map.mp hr
    obtain ⟨j, hj⟩ := List.getElem?_of_mem hm
    have hkey : m.key ∈ added ops := by
      have hmem := List.mem_map_of_mem (f := Node.key) hm
      rw [hkeys] at hmem
      exact (List.mem_filter.mp hmem).1
    obtain ⟨v, hv⟩ := mem_added hkey
    have hlayers := haged.layers m hm
    refine ⟨hst.keys m.key v hv, hst.codes m.code (hinv.coded m hm), ?_, ?_, ?_⟩
    · change (if m.tomb then 1 else 0) < 256 ^ 1
      split
      · omega
      · omega
    · change m.levels.length < 256 ^ 1
      omega
    · intro level hlevel
      obtain ⟨l, hl⟩ := List.getElem?_of_mem hlevel
      have hat : g.list? j l = some level := by
        unfold Hnsw.list?
        rw [hj]
        exact hl
      obtain ⟨hids, -, -, hlen⟩ := hinv.links j l level hat
      have hsmall := hcap l
      refine ⟨by omega, ?_⟩
      intro id hid
      have hlt := (hids id hid).lt
      omega

/-- **The graphs of such an index are read back as they are, but for their generators**;
where nothing was added not even these differ. -/
theorem Built.reread (h : Built okCode codec params n (added ops) x) {i : Nat} {g : Hnsw Codec}
    (hi : x.shards[i]? = some g) (haged : Hnsw.Aged g) (hfew : g.nodes.length ≤ 2 ^ 31) :
    (rawGraph g).graph = g.reseed g.params.seed ∧
      (routed n i (added ops) = [] → g.reseed g.params.seed = g) := by
  obtain ⟨hinv, -, -, hkeys⟩ := h.each i g hi
  refine ⟨graph_rawGraph hinv.keyed (by omega) (entry_lt hinv.layered hfew), ?_⟩
  intro hnone
  rw [hnone] at hkeys
  have hseed := (haged.young (List.map_eq_nil_iff.mp hkeys)).2
  rw [Hnsw.reseed, ← hseed]

/-! ## Saving and loading -/

section Store

variable {σ : Type} [LawfulStorage σ] (store : σ)

theorem slotKey_injective {ns : UInt8 × UInt8} {i j : Nat} (hi : i < 2 ^ 16) (hj : j < 2 ^ 16)
    (h : slotKey ns i = slotKey ns j) : i = j := by
  unfold slotKey at h
  refine beBytes_injective (w := 2) (by omega) (by omega) ?_
  exact List.append_cancel_left h

/-- **What was saved is there.** -/
theorem get_saved (hcount : x.shards.length < 2 ^ 16) {i : Nat} {g : Hnsw Codec}
    (hi : x.shards[i]? = some g) :
    get (x.save store).2 (slotKey x.ns i)
      = .ok (some (shardHead x.ns x.shards.length i ++ g.encode)) := by
  have hpending : pending x.saveOps (slotKey x.ns i)
      = some (some (shardHead x.ns x.shards.length i ++ g.encode)) := by
    refine pending_of_mem ?_ ?_
    · have hmem : (g, i) ∈ x.shards.zipIdx := List.mem_zipIdx_iff_getElem?.mpr hi
      exact List.mem_map_of_mem hmem
    · intro w hw
      obtain ⟨⟨g', j⟩, hmem, heq⟩ := List.mem_map.mp hw
      obtain ⟨hkey, hval⟩ := Prod.mk.inj heq
      have hj := List.mem_zipIdx_iff_getElem?.mp hmem
      have hlt := (List.getElem?_eq_some_iff.mp hi).1
      have hlt' := (List.getElem?_eq_some_iff.mp hj).1
      dsimp only at hkey hval hlt'
      obtain rfl := slotKey_injective (by omega) (by omega) hkey
      dsimp only at hj
      rw [hi] at hj
      rw [← hval, Option.some.inj hj]
  rw [LawfulStorage.get_eq]
  unfold save
  rw [LawfulStorage.read_commit, hpending]
  rfl

/-- A shard saved is loaded. -/
theorem loadShard_saved (hcount : x.shards.length < 2 ^ 16) {i : Nat} {g : Hnsw Codec}
    (hi : x.shards[i]? = some g) (hfits : (rawGraph g).Fits)
    (hgraph : (rawGraph g).graph = g.reseed g.params.seed) (taken : Nat) :
    ∃ taken', loadShard (x.save store).2 x.ns i taken
      = (.ok (x.shards.length, g.reseed g.params.seed), taken') := by
  have hlt := (List.getElem?_eq_some_iff.mp hi).1
  have hsmall : x.shards.length < 256 ^ 2 := by omega
  obtain ⟨c, hc⟩ := decodeShard_spelled x.ns hsmall hlt hfits taken
  refine ⟨c.taken, ?_⟩
  rw [loadShard, get_saved store hcount hi]
  dsimp only
  rw [encode_eq, hc, hgraph]

theorem loadRest_saved (hcount : x.shards.length < 2 ^ 16)
    (hfits : ∀ g ∈ x.shards, (rawGraph g).Fits)
    (hgraph : ∀ g ∈ x.shards, (rawGraph g).graph = g.reseed g.params.seed) :
    ∀ left i, i + left = x.shards.length → ∀ taken, ∃ taken',
      loadRest (x.save store).2 x.ns x.shards.length left i taken
        = (.ok ((x.shards.drop i).map fun g => g.reseed g.params.seed), taken')
  | 0, i, hi, taken => by
    refine ⟨taken, ?_⟩
    rw [List.drop_eq_nil_of_le (by omega)]
    rfl
  | left + 1, i, hi, taken => by
    have hlt : i < x.shards.length := by omega
    have hmem := List.getElem_mem hlt
    obtain ⟨mid, hmid⟩ := loadShard_saved store hcount (List.getElem?_eq_getElem hlt)
      (hfits _ hmem) (hgraph _ hmem) taken
    obtain ⟨last, hlast⟩ := loadRest_saved hcount hfits hgraph left (i + 1) (by omega) mid
    refine ⟨last, ?_⟩
    rw [loadRest, run_bind_of_ok hmid, if_neg (by simp), run_bind_of_ok hlast,
      List.drop_eq_getElem_cons hlt]
    rfl

/-- **Saved and loaded, an index is itself but for the generators of its levels.** -/
theorem load_saved (hsome : 0 < x.shards.length) (hcount : x.shards.length < 2 ^ 16)
    (hfits : ∀ g ∈ x.shards, (rawGraph g).Fits)
    (hgraph : ∀ g ∈ x.shards, (rawGraph g).graph = g.reseed g.params.seed) :
    ∃ taken', load (x.save store).2 x.ns 0
      = (.ok ⟨x.ns, x.shards.map fun g => g.reseed g.params.seed⟩, taken') := by
  have hmem := List.getElem_mem hsome
  obtain ⟨mid, hmid⟩ := loadShard_saved store hcount (List.getElem?_eq_getElem hsome)
    (hfits _ hmem) (hgraph _ hmem) 0
  obtain ⟨last, hlast⟩ := loadRest_saved store hcount hfits hgraph (x.shards.length - 1) 1
    (by omega) (mid + 184 * x.shards.length)
  refine ⟨last, ?_⟩
  have htable : shardTable x.shards.length mid = (.ok (), mid + 184 * x.shards.length) := rfl
  rw [load, run_bind_of_ok hmid]
  dsimp only
  rw [run_bind_of_ok htable, run_bind_of_ok hlast, run_pure]
  congr 3
  rw [← List.map_cons (f := fun g : Hnsw Codec => g.reseed g.params.seed),
    ← List.drop_eq_getElem_cons hsome, List.drop_zero]

end Store

end VectorIndex

end Okm.Vector
