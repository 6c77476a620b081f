import Okm.Vector.HnswInv

/-!
# Inserting, removing, searching

The invariant of a graph built by its verbs, and what each verb does to it. Besides the
lists (`Links`) it says where a search enters, how many layers there are, and how keys,
nodes and tombstones belong together: the map holds the latest node of every key, and no
other node of that key is live.

Positions are stored in 32 bits, so all of this is about graphs with room for one more
node below `2 ^ 32`.
-/

namespace Okm.Vector

open Lib Model

variable {κ V P D : Type}

namespace Hnsw

variable {g g' : Hnsw κ} {i j : Nat} {key : Bytes}

/-- The last position at which a key stands. -/
def Latest (keys : List Bytes) (key : Bytes) (i : Nat) : Prop :=
  keys[i]? = some key ∧ ∀ j, i < j → keys[j]? ≠ some key

theorem latest_snoc {keys : List Bytes} {new : Bytes} :
    Latest (keys ++ [new]) key i ↔ if key = new then i = keys.length else Latest keys key i := by
  -- the new key stands at the end, the others where they were
  have hat : ∀ j, (keys ++ [new])[j]? = if j < keys.length then keys[j]? else
      if j = keys.length then some new else none := by
    intro j
    by_cases hj : j < keys.length
    · rw [if_pos hj, List.getElem?_append_left hj]
    · rw [if_neg hj, List.getElem?_append_right (by omega)]
      by_cases heq : j = keys.length
      · rw [if_pos heq, heq, Nat.sub_self]
        rfl
      · rw [if_neg heq, List.getElem?_eq_none]
        simp only [List.length_singleton]
        omega
  unfold Latest
  by_cases hkey : key = new
  · -- the new key is the last of its kind
    rw [if_pos hkey]
    constructor
    · rintro ⟨hi, hlast⟩
      rw [hat] at hi
      by_contra hne
      have hno := hlast keys.length
      rw [hat, if_neg (Nat.lt_irrefl _), if_pos rfl, hkey] at hno
      split at hi
      · exact hno (by omega) rfl
      · cases hi
    · rintro rfl
      refine ⟨by rw [hat, if_neg (Nat.lt_irrefl _), if_pos rfl, hkey], ?_⟩
      intro j hj
      rw [hat, if_neg (by omega), if_neg (by omega)]
      simp
  · -- another key: its last place is among the old ones
    rw [if_neg hkey]
    constructor
    · rintro ⟨hi, hlast⟩
      rw [hat] at hi
      have hlt : i < keys.length := by
        by_contra hge
        rw [if_neg hge] at hi
        split at hi
        · exact hkey (Option.some.inj hi).symm
        · cases hi
      rw [if_pos hlt] at hi
      refine ⟨hi, ?_⟩
      intro j hj hjk
      have hjlt := (List.getElem?_eq_some_iff.mp hjk).1
      have hno := hlast j hj
      rw [hat, if_pos hjlt] at hno
      exact hno hjk
    · rintro ⟨hi, hlast⟩
      have hlt := (List.getElem?_eq_some_iff.mp hi).1
      refine ⟨by rw [hat, if_pos hlt]; exact hi, ?_⟩
      intro j hj hjk
      rw [hat] at hjk
      split at hjk
      · exact hlast j hj hjk
      · split at hjk
        · exact hkey (Option.some.inj hjk).symm
        · cases hjk

/-- How keys, nodes and tombstones belong together. -/
structure Keyed (g : Hnsw κ) : Prop where
  /-- The map holds the latest node of every key that has one. -/
  latest : ∀ key i, g.byKey.get key = some i ↔ Latest (g.nodes.map Node.key) key i
  /-- A live node is the one its key maps to. -/
  alive : ∀ i n, g.nodes[i]? = some n → n.tomb = false → g.byKey.get n.key = some i
  count : g.live = g.nodes.countP fun n => !n.tomb

/-- Where a search enters, and how many layers there are. -/
structure Layered (g : Hnsw κ) : Prop where
  entry : ∀ e, g.entry = some e → ∃ n, g.nodes[e]? = some n ∧ n.levels.length = g.top + 1
  layers : ∀ n ∈ g.nodes, 0 < n.levels.length ∧ n.levels.length ≤ g.top + 1
  empty : g.entry = none → g.nodes = []

/-- **The invariant of the graph.** -/
structure Inv (okCode : Bytes → Prop) (g : Hnsw κ) : Prop where
  links : Links g
  coded : Coded okCode g
  keyed : Keyed g
  layered : Layered g

theorem inv_new (okCode : Bytes → Prop) (codec : κ) (params : HnswParams) :
    Inv okCode (new codec params) := by
  refine ⟨?_, ?_, ⟨?_, ?_, rfl⟩, ⟨?_, ?_, fun _ => rfl⟩⟩
  · intro i l list hlist
    simp [new, list?] at hlist
  · intro n hn
    cases hn
  · intro key i
    simp [new, Latest]
  · intro i n hn
    simp [new] at hn
  · intro e he
    cases he
  · intro n hn
    cases hn

/-- Links and layers are a matter of shape and entry. -/
theorem SameShape.keyed (h : SameShape g g') (hg : Keyed g) : Keyed g' := by
  have hkeys := h.keys
  have hbyKey : g'.byKey = g.byKey := by rw [h.rest]
  refine ⟨?_, ?_, ?_⟩
  · intro key i
    rw [hbyKey, hkeys]
    exact hg.latest key i
  · intro i n' hn' htomb
    obtain ⟨n, hn, hshape⟩ := h.node_of hn'
    have hkey : n.key = n'.key := congrArg Prod.fst hshape
    have htomb' : n.tomb = n'.tomb := congrArg (fun s => s.2.2.1) hshape
    rw [hbyKey, ← hkey]
    exact hg.alive i n hn (htomb'.trans htomb)
  · have hcount : ∀ nodes : List Node, nodes.countP (fun n => !n.tomb)
        = (nodes.map shape).countP fun s => !s.2.2.1 := by
      intro nodes
      rw [List.countP_map]
      rfl
    have hlive : g'.live = g.live := by rw [h.rest]
    rw [hlive, hg.count, hcount, hcount, h.nodes]

/-! ## Burying the live node of a key -/

/-- Burying changes tombstones and the live count, and leaves no live node of the key. -/
structure Buried (key : Bytes) (g g' : Hnsw κ) : Prop where
  keys : g'.nodes.map Node.key = g.nodes.map Node.key
  same : g'.codec = g.codec ∧ g'.params = g.params ∧ g'.rng = g.rng
  gone : ∀ n ∈ g'.nodes, n.key = key → n.tomb = true

theorem list?_entomb (g : Hnsw κ) (old i l : Nat) : (g.entomb old).list? i l = g.list? i l := by
  unfold list? entomb
  simp only
  rw [List.getElem?_modify]
  cases g.nodes[i]? with
  | none => rfl
  | some n =>
    by_cases hold : old = i
    · simp [hold]
    · simp [hold]

variable {okCode : Bytes → Prop}

theorem getElem?_entomb {old : Nat} {n' : Node} (h : (g.entomb old).nodes[i]? = some n') :
    ∃ n, g.nodes[i]? = some n ∧ n'.key = n.key ∧ n'.code = n.code ∧ n'.levels = n.levels ∧
      n'.tomb = (n.tomb || decide (i = old)) := by
  unfold entomb at h
  rw [List.getElem?_modify] at h
  cases hn : g.nodes[i]? with
  | none =>
    rw [hn] at h
    cases h
  | some n =>
    rw [hn] at h
    refine ⟨n, rfl, ?_⟩
    by_cases hold : old = i
    · subst hold
      simp only [Option.map_eq_map, Option.map_some, if_true, Option.some.injEq] at h
      subst h
      simp
    · simp only [Option.map_eq_map, Option.map_some, if_neg hold, Option.some.injEq] at h
      subst h
      simp [Ne.symm hold]

theorem countP_bury {nodes : List Node} {old : Nat} {n : Node} (hn : nodes[old]? = some n)
    (htomb : n.tomb = false) :
    (nodes.modify old fun n => { n with tomb := true }).countP (fun n => !n.tomb) + 1
      = nodes.countP fun n => !n.tomb := by
  induction nodes generalizing old with
  | nil => cases hn
  | cons m nodes ih =>
    cases old with
    | zero =>
      obtain rfl : m = n := Option.some.inj hn
      simp [htomb]
    | succ old =>
      have hrest := @ih old hn
      rw [List.modify_succ_cons, List.countP_cons, List.countP_cons]
      omega

theorem keys_entomb (g : Hnsw κ) (old : Nat) :
    (g.entomb old).nodes.map Node.key = g.nodes.map Node.key := by
  refine List.ext_getElem? ?_
  intro i
  unfold entomb
  rw [List.getElem?_map, List.getElem?_map, List.getElem?_modify]
  cases g.nodes[i]? with
  | none => rfl
  | some m =>
    by_cases hold : old = i
    · simp [hold]
    · simp [hold]

/-- A live node gets its tombstone. -/
theorem Inv.entomb {old : Nat} {n : Node} (h : Inv okCode g) (hn : g.nodes[old]? = some n)
    (htomb : n.tomb = false) : Inv okCode (g.entomb old) := by
  have hcount := countP_bury hn htomb
  -- a tombstone changes no list, no key and no level
  have hlayer : ∀ i l, (g.entomb old).HasLayer i l ↔ g.HasLayer i l := by
    intro i l
    rw [hasLayer_iff, hasLayer_iff, list?_entomb]
  refine ⟨?_, ?_, ⟨?_, ?_, ?_⟩, ⟨?_, ?_, ?_⟩⟩
  · intro i l list hlist
    rw [list?_entomb] at hlist
    obtain ⟨hlayers, hrest⟩ := h.links i l list hlist
    exact ⟨fun v hv => (hlayer v l).mpr (hlayers v hv), hrest⟩
  · intro m' hm'
    obtain ⟨i, hi⟩ := List.getElem?_of_mem hm'
    obtain ⟨m, hm, -, hcode, -⟩ := getElem?_entomb hi
    rw [hcode]
    exact h.coded m (List.mem_of_getElem? hm)
  · intro k i
    rw [keys_entomb]
    exact h.keyed.latest k i
  · intro i m' hi hlive
    obtain ⟨m, hm, hmkey, -, -, hmtomb⟩ := getElem?_entomb hi
    rw [hmtomb, Bool.or_eq_false_iff] at hlive
    rw [hmkey]
    exact h.keyed.alive i m hm hlive.1
  · have hlive := h.keyed.count
    simp only [Hnsw.entomb]
    omega
  · intro e he
    obtain ⟨m, hm, hlen⟩ := h.layered.entry e he
    refine ⟨if old = e then { m with tomb := true } else m, ?_, ?_⟩
    · simp only [Hnsw.entomb]
      rw [List.getElem?_modify, hm]
      rfl
    · split
      · exact hlen
      · exact hlen
  · intro m' hm'
    obtain ⟨i, hi⟩ := List.getElem?_of_mem hm'
    obtain ⟨m, hm, -, -, hlevels, -⟩ := getElem?_entomb hi
    rw [hlevels]
    exact h.layered.layers m (List.mem_of_getElem? hm)
  · intro hnone
    rw [h.layered.empty hnone] at hn
    cases hn

/-- The node a key maps to stands under that key. -/
theorem Keyed.node_of (h : Keyed g) (hget : g.byKey.get key = some i) :
    ∃ n, g.nodes[i]? = some n ∧ n.key = key := by
  have hat := ((h.latest key i).mp hget).1
  rw [List.getElem?_map] at hat
  exact Option.map_eq_some_iff.mp hat

/-- **Burying keeps the invariant.** -/
theorem bury_meets {fails : Fault → Prop} (h : Inv okCode g) (key : Bytes) :
    Meets fails (g.bury key) fun r => Inv okCode r.2 ∧ Buried key g r.2 := by
  unfold bury
  cases hget : g.byKey.get key with
  | none =>
    refine ⟨h, rfl, ⟨rfl, rfl, rfl⟩, ?_⟩
    intro n hn hkey
    by_contra htomb
    obtain ⟨i, hi⟩ := List.getElem?_of_mem hn
    have hmap := h.keyed.alive i n hi (by simpa using htomb)
    rw [hkey, hget] at hmap
    cases hmap
  | some old =>
    obtain ⟨n, hn, hkey⟩ := h.keyed.node_of hget
    simp only [bind, Except.bind]
    rw [node_of_getElem hn]
    simp only
    by_cases htomb : n.tomb
    · rw [if_pos htomb]
      refine ⟨h, rfl, ⟨rfl, rfl, rfl⟩, ?_⟩
      intro m hm hmkey
      by_contra hlive
      obtain ⟨i, hi⟩ := List.getElem?_of_mem hm
      have hmap := h.keyed.alive i m hi (by simpa using hlive)
      rw [hmkey, hget] at hmap
      obtain rfl := Option.some.inj hmap
      rw [hn] at hi
      obtain rfl := Option.some.inj hi
      exact hlive htomb
    · rw [if_neg htomb]
      have hfalse : n.tomb = false := by simpa using htomb
      have hpos : g.live ≠ 0 := by
        have hcount := countP_bury hn hfalse
        have hlive := h.keyed.count
        omega
      rw [if_neg hpos]
      refine ⟨h.entomb hn hfalse, keys_entomb g old, ⟨rfl, rfl, rfl⟩, ?_⟩
      intro m' hm' hmkey
      obtain ⟨i, hi⟩ := List.getElem?_of_mem hm'
      obtain ⟨m, hm, hkey', -, -, hmtomb⟩ := getElem?_entomb hi
      by_contra hlive
      have hlive : m'.tomb = false := by simpa using hlive
      rw [hmtomb, Bool.or_eq_false_iff] at hlive
      have hmap := h.keyed.alive i m hm hlive.1
      rw [← hkey', hmkey, hget] at hmap
      exact absurd (Option.some.inj hmap).symm (by simpa using hlive.2)

/-! ## Pushing a node -/

section Push

variable {code : Bytes} {level : Nat} {rng : UInt64}

theorem getElem?_push (i : Nat) : (g.push key code level rng).nodes[i]?
    = if i = g.nodes.length then some ⟨key, code, false, List.replicate (level + 1) []⟩
      else g.nodes[i]? := by
  unfold push
  simp only
  by_cases hi : i < g.nodes.length
  · rw [List.getElem?_append_left hi, if_neg (by omega)]
  · rw [List.getElem?_append_right (by omega)]
    by_cases heq : i = g.nodes.length
    · rw [if_pos heq, heq, Nat.sub_self]
      rfl
    · have hnone : g.nodes[i]? = none := List.getElem?_eq_none (by omega)
      rw [if_neg heq, hnone, List.getElem?_eq_none]
      simp only [List.length_singleton]
      omega

theorem getElem?_push_old {n : Node} (hn : g.nodes[i]? = some n) :
    (g.push key code level rng).nodes[i]? = some n := by
  have hlt := (List.getElem?_eq_some_iff.mp hn).1
  rw [getElem?_push, if_neg (by omega), hn]

theorem getElem?_push_cases {n : Node} (hn : (g.push key code level rng).nodes[i]? = some n) :
    g.nodes[i]? = some n ∨
      i = g.nodes.length ∧ n = ⟨key, code, false, List.replicate (level + 1) []⟩ := by
  rw [getElem?_push] at hn
  split at hn
  · rename_i heq
    exact Or.inr ⟨heq, (Option.some.inj hn).symm⟩
  · exact Or.inl hn

theorem HasLayer.push {l : Nat} (h : g.HasLayer i l) :
    (g.push key code level rng).HasLayer i l := by
  obtain ⟨n, hn, hl⟩ := h
  exact ⟨n, getElem?_push_old hn, hl⟩

theorem hasLayer_new {l : Nat} (hl : l ≤ level) :
    (g.push key code level rng).HasLayer g.nodes.length l := by
  refine ⟨_, by rw [getElem?_push, if_pos rfl], ?_⟩
  simp only [List.length_replicate]
  omega

/-- The new lists are empty; the old ones are the same. -/
theorem list?_push {l : Nat} {list : List Nat}
    (h : (g.push key code level rng).list? i l = some list) :
    list = [] ∨ g.list? i l = some list := by
  obtain ⟨n, hn, hlist⟩ := Option.bind_eq_some_iff.mp h
  rcases getElem?_push_cases hn with hold | ⟨-, rfl⟩
  · refine Or.inr ?_
    unfold list?
    rw [hold]
    exact hlist
  · exact Or.inl (List.eq_of_mem_replicate (List.mem_of_getElem? hlist))

theorem Links.push (h : Links g) : Links (g.push key code level rng) := by
  intro i l list hlist
  rcases list?_push hlist with rfl | hold
  · exact ⟨by simp, by simp, List.nodup_nil, Nat.zero_le _⟩
  · obtain ⟨hlayer, hrest⟩ := h i l list hold
    exact ⟨fun v hv => (hlayer v hv).push, hrest⟩

/-- The new node is in no list. -/
theorem Links.new_unlinked {l : Nat} {list : List Nat} (h : Links g)
    (hlist : (g.push key code level rng).list? i l = some list) : g.nodes.length ∉ list := by
  rcases list?_push hlist with rfl | hold
  · simp
  · intro hmem
    exact absurd ((h i l list hold).1 _ hmem).lt (Nat.lt_irrefl _)

theorem Coded.push (h : Coded okCode g) (hcode : okCode code) :
    Coded okCode (g.push key code level rng) := by
  intro n hn
  rcases List.mem_append.mp hn with hn | hn
  · exact h n hn
  · rw [List.mem_singleton.mp hn]
    exact hcode

theorem keys_push :
    (g.push key code level rng).nodes.map Node.key = g.nodes.map Node.key ++ [key] := by
  unfold Hnsw.push
  rw [List.map_append]
  rfl

/-- **The pushed node takes over its key**, if no live node of it is left. -/
theorem Keyed.push (h : Keyed g) (hgone : ∀ n ∈ g.nodes, n.key = key → n.tomb = true)
    (hfew : g.nodes.length < 2 ^ 32) : Keyed (g.push key code level rng) := by
  have hid : g.nodes.length % 2 ^ 32 = g.nodes.length := Nat.mod_eq_of_lt hfew
  refine ⟨?_, ?_, ?_⟩
  · intro k i
    have hget : (g.push key code level rng).byKey.get k
        = if k = key then some g.nodes.length else g.byKey.get k := by
      unfold Hnsw.push
      rw [hid, SortedMap.get_insert]
    rw [keys_push, latest_snoc, hget, List.length_map]
    by_cases hk : k = key
    · rw [if_pos hk, if_pos hk]
      constructor
      · intro heq
        exact (Option.some.inj heq).symm
      · rintro rfl
        rfl
    · rw [if_neg hk, if_neg hk]
      exact h.latest k i
  · intro i n hn hlive
    unfold Hnsw.push
    rw [hid, SortedMap.get_insert]
    rcases getElem?_push_cases hn with hold | ⟨rfl, rfl⟩
    · have hne : n.key ≠ key := by
        intro heq
        have htomb := hgone n (List.mem_of_getElem? hold) heq
        rw [hlive] at htomb
        cases htomb
      rw [if_neg hne]
      exact h.alive i n hold hlive
    · rw [if_pos rfl]
  · unfold Hnsw.push
    simp only
    rw [List.countP_append, ← h.count]
    rfl

end Push

/-! ## Descending -/

section Verbs

variable [LinearOrder D] {H : Host κ V P D} {okVec : V → Prop} {okQuery : P → Prop} {p : P}
  {fails : Fault → Prop} {avoid : Nat}

/-- **The descent stays in layers its nodes have**, and off a node in no list. -/
theorem descend_meets (hs : Sound H g.codec okVec okCode okQuery) (hg : Coded okCode g)
    (hp : okQuery p) (hlinks : Links g)
    (hoff : ∀ i l list, g.list? i l = some list → avoid ∉ list) {lo count ep : Nat}
    (hep : ep ≠ avoid ∧ ∀ l, l < lo + count → g.HasLayer ep l) :
    Meets fails (g.descend H p lo count ep) fun ep => ep ≠ avoid ∧ ∀ l, l < lo → g.HasLayer ep l := by
  induction count generalizing ep with
  | zero => exact hep
  | succ count ih =>
    have hhop : Meets fails (g.greedy H p ep (lo + count))
        fun v => g.HasLayer v (lo + count) ∧ v ≠ avoid := by
      refine greedy_meets hs hg hp (fun v hv => hv.1) ?_ ⟨hep.2 _ (by omega), hep.1⟩
      intro v ns _ hns n hn
      refine ⟨(hlinks v _ ns hns).1 n hn, ?_⟩
      rintro rfl
      exact hoff v _ ns hns hn
    refine hhop.bind ?_
    rintro v ⟨hv, hne⟩
    exact ih ⟨hne, fun l hl => hv.mono (by omega)⟩

/-! ## Inserting -/

/-- A graph whose new node is linked, before top and entry are looked at. -/
theorem Layered.raised {code : Bytes} {level : Nat} {rng : UInt64} (h : Layered g)
    (hsame : SameShape (g.push key code level rng) g') (hentry : g.entry ≠ none) :
    Layered (if g'.top < level then { g' with top := level, entry := some g.nodes.length } else g') := by
  have htop : g'.top = g.top := by rw [hsame.top]; rfl
  have hlayers : ∀ n ∈ g'.nodes, 0 < n.levels.length ∧
      (n.levels.length ≤ g.top + 1 ∨ n.levels.length = level + 1) := by
    intro n' hn'
    obtain ⟨i, hi⟩ := List.getElem?_of_mem hn'
    obtain ⟨n, hn, hshape⟩ := hsame.node_of hi
    have hlen : n.levels.length = n'.levels.length := congrArg (fun s => s.2.2.2) hshape
    rcases getElem?_push_cases hn with hold | ⟨-, rfl⟩
    · obtain ⟨hpos, hle⟩ := h.layers n (List.mem_of_getElem? hold)
      omega
    · rw [List.length_replicate] at hlen
      omega
  have hnode : ∀ {e : Nat} {n : Node}, (g.push key code level rng).nodes[e]? = some n →
      ∃ n' : Node, g'.nodes[e]? = some n' ∧ n'.levels.length = n.levels.length := by
    intro e n hn
    obtain ⟨n', hn', hshape⟩ := hsame.symm.node_of hn
    exact ⟨n', hn', congrArg (fun s => s.2.2.2) hshape⟩
  by_cases hraise : g'.top < level
  · rw [if_pos hraise]
    refine ⟨?_, ?_, fun hnone => by cases hnone⟩
    · intro e he
      obtain rfl := Option.some.inj he
      obtain ⟨n', hn', hlen⟩ := hnode (by rw [getElem?_push, if_pos rfl])
      rw [List.length_replicate] at hlen
      exact ⟨n', hn', hlen⟩
    · intro n hn
      have hn := hlayers n hn
      simp only
      omega
  · rw [if_neg hraise]
    refine ⟨?_, ?_, ?_⟩
    · intro e he
      have he : g.entry = some e := by
        rw [hsame.entry] at he
        exact he
      obtain ⟨n, hn, hlen⟩ := h.entry e he
      obtain ⟨n', hn', hlen'⟩ := hnode (getElem?_push_old hn)
      exact ⟨n', hn', by omega⟩
    · intro n hn
      have hn := hlayers n hn
      omega
    · intro hnone
      rw [hsame.entry] at hnone
      exact absurd hnone hentry

/-- What an insertion leaves behind. -/
structure Inserted (key : Bytes) (g g' : Hnsw κ) : Prop where
  keys : g'.nodes.map Node.key = g.nodes.map Node.key ++ [key]
  same : g'.codec = g.codec ∧ g'.params = g.params

theorem connect_meets {code : Bytes} {level : Nat} {rng : UInt64}
    (hs : Sound H g.codec okVec okCode okQuery) (h : Inv okCode g) (hcode : okCode code)
    (hgone : ∀ n ∈ g.nodes, n.key = key → n.tomb = true) (hfew : g.nodes.length < 2 ^ 32)
    (hfails : H.grants 4 (g.params.efConstruction * 4) = false → fails .capacity) :
    Meets fails ((g.push key code level rng).connect H code g.nodes.length level)
      fun g' => Inv okCode g' ∧ Inserted key g g' := by
  have hlinks : Links (g.push key code level rng) := h.links.push
  have hcoded : Coded okCode (g.push key code level rng) := h.coded.push hcode
  have hkeyed : Keyed (g.push key code level rng) := h.keyed.push hgone hfew
  have hpushed : (g.push key code level rng).entry = g.entry ∧
      (g.push key code level rng).top = g.top := ⟨rfl, rfl⟩
  have hsound : Sound H (g.push key code level rng).codec okVec okCode okQuery := hs
  have hpushKeys : (g.push key code level rng).nodes.map Node.key
      = g.nodes.map Node.key ++ [key] := keys_push
  unfold connect
  rw [hpushed.1, hpushed.2]
  cases hentry : g.entry with
  | none =>
    -- the first node is the entry, at its own level
    have hnil := h.layered.empty hentry
    refine ⟨⟨hlinks, hcoded, ⟨hkeyed.latest, hkeyed.alive, hkeyed.count⟩, ?_, ?_, ?_⟩, hpushKeys,
      rfl, rfl⟩
    · intro e he
      obtain rfl := Option.some.inj he
      exact ⟨_, by rw [getElem?_push, if_pos rfl], by rw [List.length_replicate]⟩
    · intro n hn
      have hn : n ∈ (g.push key code level rng).nodes := hn
      unfold push at hn
      rw [hnil] at hn
      rw [List.mem_singleton.mp hn, List.length_replicate]
      simp only
      omega
    · intro hnone
      cases hnone
  | some ep =>
    obtain ⟨p, hprep, hp⟩ := hs.prepareCode code hcode
    simp only
    have hprep' : H.prepareCode (g.push key code level rng).codec code = .ok p := hprep
    rw [hprep']
    -- the entry is an older node that has every layer up to the top
    obtain ⟨n, hn, hlen⟩ := h.layered.entry ep hentry
    have hne : ep ≠ g.nodes.length := by
      have hlt := (List.getElem?_eq_some_iff.mp hn).1
      omega
    -- no list names the new node yet
    have hoff : ∀ i l list, (g.push key code level rng).list? i l = some list →
        g.nodes.length ∉ list := fun i l list hlist => h.links.new_unlinked hlist
    have hlayer : ∀ l, l < g.top + 1 → (g.push key code level rng).HasLayer ep l := by
      intro l hl
      exact ⟨n, getElem?_push_old hn, by omega⟩
    -- the descent above the new level stays on older nodes
    have hdescend : Meets fails
        ((g.push key code level rng).descend H p (level + 1) (g.top - level) ep)
        fun ep => ep ≠ g.nodes.length ∧
          ∀ l, l < min level g.top + 1 → (g.push key code level rng).HasLayer ep l := by
      by_cases hdeep : level < g.top
      · refine (descend_meets hsound hcoded hp hlinks hoff ⟨hne, fun l hl => hlayer l (by omega)⟩).mono ?_
        rintro v ⟨hv, hl⟩
        exact ⟨hv, fun l hlt => hl l (by omega)⟩
      · rw [Nat.sub_eq_zero_of_le (by omega)]
        exact ⟨hne, fun l hl => hlayer l (by omega)⟩
    refine hdescend.bind ?_
    rintro ep' ⟨hne', hlayer'⟩
    -- the layers from there down are linked one by one
    have hstart : Linking okCode (g.push key code level rng) g.nodes.length (min level g.top + 1)
        (g.push key code level rng, [ep']) := by
      refine ⟨hlinks, SameShape.refl _, fun i l list _ hlist => hoff i l list hlist, ?_⟩
      intro e he
      rw [List.mem_singleton.mp he]
      exact ⟨hne', hlayer'⟩
    have hnew : ∀ l, l < min level g.top + 1 →
        (g.push key code level rng).HasLayer g.nodes.length l :=
      fun l hl => hasLayer_new (by omega)
    refine (linkLayers_meets hsound hcoded hp hnew hstart hfails).bind ?_
    rintro s ⟨hlinks', hshape⟩
    -- linking changes lists only, so the rest is as pushed
    have hkeys : s.1.nodes.map Node.key = g.nodes.map Node.key ++ [key] :=
      hshape.keys.trans hpushKeys
    have hlayered := h.layered.raised hshape (by rw [hentry]; simp)
    have hcoded' := hshape.coded hcoded
    have hkeyed' := hshape.keyed hkeyed
    have hsame : s.1.codec = g.codec ∧ s.1.params = g.params := ⟨hshape.codec, hshape.params⟩
    -- a higher node becomes the entry
    by_cases hraise : s.1.top < level
    · rw [if_pos hraise] at hlayered ⊢
      exact ⟨⟨hlinks', hcoded', ⟨hkeyed'.latest, hkeyed'.alive, hkeyed'.count⟩, hlayered⟩, hkeys, hsame⟩
    · rw [if_neg hraise] at hlayered ⊢
      exact ⟨⟨hlinks', hcoded', hkeyed', hlayered⟩, hkeys, hsame⟩

/-- **Inserting keeps the invariant**, and fails only where the beam is refused. -/
theorem insert_meets {v : V} (hs : Sound H g.codec okVec okCode okQuery) (h : Inv okCode g)
    (hv : okVec v) (hfew : g.nodes.length < 2 ^ 32) (key : Bytes)
    (hfails : H.grants 4 (g.params.efConstruction * 4) = false → fails .capacity) :
    Meets fails (g.insert H key v) fun g' => Inv okCode g' ∧ Inserted key g g' := by
  obtain ⟨code, hencode, hcode⟩ := hs.encode v hv
  unfold insert
  rw [hencode]
  refine (bury_meets h key).bind ?_
  rintro ⟨removed, g₁⟩ ⟨hinv, hburied⟩
  simp only at hinv hburied ⊢
  obtain ⟨hkeys, ⟨hcodec, hparams, -⟩, hgone⟩ := hburied
  have hlen : g₁.nodes.length = g.nodes.length := by
    have hlength := congrArg List.length hkeys
    rwa [List.length_map, List.length_map] at hlength
  rw [Nat.mod_eq_of_lt hfew, ← hlen]
  refine (connect_meets (hcodec ▸ hs) hinv hcode hgone (by omega) (by rw [hparams]; exact hfails)).mono ?_
  rintro g' ⟨hinv', hkeys', hsame'⟩
  refine ⟨hinv', ?_, ?_⟩
  · rw [hkeys', hkeys]
  · rw [hsame'.1, hsame'.2, hcodec, hparams]
    exact ⟨rfl, rfl⟩

/-! ## Searching -/

/-- A result: a live node's key with that node's distance. -/
def Hit (H : Host κ V P D) (g : Hnsw κ) (p : P) (hit : Bytes × D) : Prop :=
  ∃ i n, g.nodes[i]? = some n ∧ n.key = hit.1 ∧ n.tomb = false ∧ hit.2 = dist H g p i

/-- What a search answers: at most `k` hits, closest first, no key twice. -/
structure Answer (H : Host κ V P D) (g : Hnsw κ) (p : P) (k : Nat) (out : List (Bytes × D)) :
    Prop where
  few : out.length ≤ k
  distinct : (out.map Prod.fst).Nodup
  hits : ∀ hit ∈ out, Hit H g p hit
  sorted : out.Pairwise fun a b => a.2 ≤ b.2

theorem answer_nil (g : Hnsw κ) (p : P) (k : Nat) : Answer H g p k [] :=
  ⟨Nat.zero_le _, List.nodup_nil, by simp, List.Pairwise.nil⟩

theorem collect_meets (hkeyed : Keyed g) {k : Nat} {cands : List (D × Nat)}
    (hcands : ∀ c ∈ cands, c.1 = dist H g p c.2 ∧ g.HasLayer c.2 0)
    (hdistinct : (cands.map Prod.snd).Nodup) (hsorted : cands.Pairwise CandLe) :
    Meets fails (g.collect k cands) fun out => Answer H g p k out ∧
      ∀ hit ∈ out, ∃ c ∈ cands, g.byKey.get hit.1 = some c.2 ∧ hit.2 = c.1 := by
  induction cands generalizing k with
  | nil =>
    cases k with
    | zero => exact ⟨answer_nil g p 0, by simp⟩
    | succ k => exact ⟨answer_nil g p (k + 1), by simp⟩
  | cons c cands ih =>
    cases k with
    | zero => exact ⟨answer_nil g p 0, by simp⟩
    | succ k =>
      obtain ⟨hhead, htail⟩ := List.nodup_cons.mp hdistinct
      obtain ⟨hfirst, hrest⟩ := List.pairwise_cons.mp hsorted
      have hcands' : ∀ c ∈ cands, c.1 = dist H g p c.2 ∧ g.HasLayer c.2 0 :=
        fun c hc => hcands c (List.mem_cons_of_mem _ hc)
      obtain ⟨hdist, n, hn, -⟩ := hcands c List.mem_cons_self
      unfold collect
      rw [node_of_getElem hn]
      simp only [bind, Except.bind]
      by_cases htomb : n.tomb
      · rw [if_pos htomb]
        refine (ih hcands' htail hrest).mono ?_
        rintro out ⟨hout, hfrom⟩
        refine ⟨hout, ?_⟩
        intro hit hhit
        obtain ⟨d, hd, hget⟩ := hfrom hit hhit
        exact ⟨d, List.mem_cons_of_mem _ hd, hget⟩
      · rw [if_neg htomb]
        have hlive : n.tomb = false := by simpa using htomb
        have hget := hkeyed.alive c.2 n hn hlive
        refine (ih hcands' htail hrest (k := k)).bind ?_
        rintro out ⟨⟨hfew, hkeys, hhits, hle⟩, hfrom⟩
        refine ⟨⟨?_, ?_, ?_, ?_⟩, ?_⟩
        · rw [List.length_cons]
          omega
        · refine List.nodup_cons.mpr ⟨?_, hkeys⟩
          intro hmem
          -- a second hit of this key would be the same node
          obtain ⟨hit, hhit, hkey⟩ := List.mem_map.mp hmem
          obtain ⟨d, hd, hget', -⟩ := hfrom hit hhit
          rw [hkey, hget] at hget'
          exact hhead (List.mem_map.mpr ⟨d, hd, (Option.some.inj hget').symm⟩)
        · intro hit hhit
          rcases List.mem_cons.mp hhit with rfl | hhit
          · exact ⟨c.2, n, hn, rfl, hlive, hdist⟩
          · exact hhits hit hhit
        · refine List.pairwise_cons.mpr ⟨?_, hle⟩
          intro hit hhit
          obtain ⟨d, hd, -, hdd⟩ := hfrom hit hhit
          rw [hdd]
          exact (hfirst d hd).dist_le
        · intro hit hhit
          rcases List.mem_cons.mp hhit with rfl | hhit
          · exact ⟨c, List.mem_cons_self, hget, rfl⟩
          · obtain ⟨d, hd, hgd⟩ := hfrom hit hhit
            exact ⟨d, List.mem_cons_of_mem _ hd, hgd⟩

/-- **A search answers with live keys**, or is refused the space it asks for. -/
theorem searchPrepared_meets (hs : Sound H g.codec okVec okCode okQuery) (h : Inv okCode g)
    (hp : okQuery p) (k ef : Nat)
    (hfails : (H.grants 4 (max ef k * 4) && H.grants 32 k) = false → fails .capacity) :
    Meets fails (g.searchPrepared H p k ef) (Answer H g p k) := by
  unfold searchPrepared
  by_cases hk : k = 0
  · rw [if_pos hk]
    exact answer_nil g p k
  · rw [if_neg hk]
    cases hentry : g.entry with
    | none => exact answer_nil g p k
    | some ep =>
      obtain ⟨n, hn, hlen⟩ := h.layered.entry ep hentry
      -- every list names nodes there are
      have hoff : ∀ i l list, g.list? i l = some list → g.nodes.length ∉ list := by
        intro i l list hlist hmem
        exact absurd ((h.links i l list hlist).1 _ hmem).lt (Nat.lt_irrefl _)
      have hep : ep ≠ g.nodes.length ∧ ∀ l, l < 1 + g.top → g.HasLayer ep l := by
        refine ⟨?_, fun l hl => ⟨n, hn, by omega⟩⟩
        have hlt := (List.getElem?_eq_some_iff.mp hn).1
        omega
      refine (descend_meets hs h.coded hp h.links hoff hep).bind ?_
      rintro ep' ⟨-, hlayer⟩
      -- from the entry down to the ground layer, then the nearest that are alive
      have hsearch : Meets fails (g.searchLayer H p [ep'] (max ef k) 0)
          (Found (fun v => g.HasLayer v 0) (dist H g p) (max ef k)) := by
        refine searchLayer_meets hs h.coded hp (fun v hv => hv) ?_ ?_ _ ?_
        · intro v ns _ hns m hm
          exact (h.links v 0 ns hns).1 m hm
        · intro e he
          rw [List.mem_singleton.mp he]
          exact hlayer 0 (by omega)
        · intro hgrant
          exact hfails (by rw [hgrant, Bool.false_and])
      refine hsearch.bind ?_
      rintro cands ⟨hcands, hdistinct, hsorted, -⟩
      unfold requested
      cases hgrant : H.grants 32 k with
      | false => exact hfails (by rw [hgrant, Bool.and_false])
      | true =>
        refine (collect_meets h.keyed hcands hdistinct hsorted).mono ?_
        rintro out ⟨hout, -⟩
        exact hout

end Verbs

end Hnsw

end Okm.Vector
