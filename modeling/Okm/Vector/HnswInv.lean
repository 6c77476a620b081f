import Okm.Vector.Hnsw

/-!
# The layers of the graph

A neighbour list of layer `l` names nodes that are in layer `l`. That is what keeps every
index of a search in bounds, and it has to survive an insertion that links the new node
from the top layer down, prunes the lists it enters and may raise the top. `Links` is the
statement, `SameShape` what linking leaves alone: keys, codes, tombstones and how many
layers each node has.

While a layer is linked the new node is in no list of the layers below, so a search never
comes back to it: it cannot become its own neighbour.
-/

namespace Okm.Vector

open Lib Model

variable {κ V P D : Type}

namespace Hnsw

variable {g g' g'' : Hnsw κ} {i l v : Nat} {list : List Nat}

/-! ## Lists and layers -/

/-- The neighbour list of a node in a layer. -/
def list? (g : Hnsw κ) (i l : Nat) : Option (List Nat) := (g.nodes[i]?).bind fun n => n.levels[l]?

/-- The node exists and is in the layer. -/
def HasLayer (g : Hnsw κ) (i l : Nat) : Prop := ∃ n, g.nodes[i]? = some n ∧ l < n.levels.length

theorem hasLayer_iff : g.HasLayer i l ↔ ∃ list, g.list? i l = some list := by
  unfold HasLayer list?
  constructor
  · rintro ⟨n, hn, hl⟩
    rw [hn]
    exact ⟨n.levels[l], List.getElem?_eq_getElem hl⟩
  · rintro ⟨list, hlist⟩
    obtain ⟨n, hn, hl⟩ := Option.bind_eq_some_iff.mp hlist
    exact ⟨n, hn, (List.getElem?_eq_some_iff.mp hl).1⟩

theorem HasLayer.mono {l' : Nat} (h : g.HasLayer i l) (hle : l' ≤ l) : g.HasLayer i l' := by
  obtain ⟨n, hn, hl⟩ := h
  exact ⟨n, hn, by omega⟩

theorem HasLayer.lt (h : g.HasLayer i l) : i < g.nodes.length := by
  obtain ⟨n, hn, -⟩ := h
  exact (List.getElem?_eq_some_iff.mp hn).1

theorem neighbours_of_list (h : g.list? i l = some list) : g.neighbours l i = .ok list := by
  obtain ⟨n, hn, hl⟩ := Option.bind_eq_some_iff.mp h
  unfold neighbours node
  rw [hn]
  simp only [Except.bind, bind]
  rw [hl]

theorem node_of_getElem {n : Node} (h : g.nodes[i]? = some n) : g.node i = .ok n := by
  unfold node
  rw [h]

/-! ## What linking leaves alone -/

/-- All of a node but its lists. -/
def shape (n : Node) : Bytes × Bytes × Bool × Nat := (n.key, n.code, n.tomb, n.levels.length)

/-- The graphs differ in neighbour lists at most. -/
structure SameShape (g g' : Hnsw κ) : Prop where
  nodes : g'.nodes.map shape = g.nodes.map shape
  rest : g' = { g with nodes := g'.nodes }

theorem SameShape.refl (g : Hnsw κ) : SameShape g g := ⟨rfl, rfl⟩

theorem SameShape.trans (h : SameShape g g') (h' : SameShape g' g'') : SameShape g g'' :=
  ⟨h'.nodes.trans h.nodes, by rw [h'.rest, h.rest]⟩

theorem SameShape.node_of {n' : Node} (h : SameShape g g') (hn : g'.nodes[i]? = some n') :
    ∃ n, g.nodes[i]? = some n ∧ shape n = shape n' := by
  have hat : (g'.nodes.map shape)[i]? = some (shape n') := by
    rw [List.getElem?_map, hn]
    rfl
  rw [h.nodes, List.getElem?_map] at hat
  exact Option.map_eq_some_iff.mp hat

theorem SameShape.symm (h : SameShape g g') : SameShape g' g := ⟨h.nodes.symm, by rw [h.rest]⟩

theorem SameShape.hasLayer (h : SameShape g g') : g'.HasLayer i l ↔ g.HasLayer i l := by
  have hone : ∀ {g g' : Hnsw κ}, SameShape g g' → g'.HasLayer i l → g.HasLayer i l := by
    intro g g' h
    rintro ⟨n', hn', hl⟩
    obtain ⟨n, hn, hshape⟩ := h.node_of hn'
    have hlen : n.levels.length = n'.levels.length := congrArg (fun s => s.2.2.2) hshape
    exact ⟨n, hn, by omega⟩
  exact ⟨hone h, hone h.symm⟩

theorem SameShape.params (h : SameShape g g') : g'.params = g.params := by rw [h.rest]

theorem SameShape.codec (h : SameShape g g') : g'.codec = g.codec := by rw [h.rest]

theorem SameShape.entry (h : SameShape g g') : g'.entry = g.entry := by rw [h.rest]

theorem SameShape.top (h : SameShape g g') : g'.top = g.top := by rw [h.rest]

theorem keys_of_shape (h : g'.nodes.map shape = g.nodes.map shape) :
    g'.nodes.map Node.key = g.nodes.map Node.key := by
  have hfst := congrArg (List.map Prod.fst) h
  rw [List.map_map, List.map_map] at hfst
  exact hfst

theorem SameShape.keys (h : SameShape g g') : g'.nodes.map Node.key = g.nodes.map Node.key :=
  keys_of_shape h.nodes

theorem SameShape.cap (h : SameShape g g') : g'.cap l = g.cap l := by
  unfold Hnsw.cap
  rw [h.params]

/-! ## Writing one list -/

theorem setLevel_shape (g : Hnsw κ) (i l : Nat) (list : List Nat) :
    SameShape g (g.setLevel i l list) := by
  refine ⟨?_, rfl⟩
  refine List.ext_getElem? ?_
  intro j
  unfold setLevel
  rw [List.getElem?_map, List.getElem?_map, List.getElem?_modify]
  by_cases hij : i = j
  · subst hij
    cases g.nodes[i]? with
    | none => rfl
    | some n => simp [shape]
  · simp [hij]

theorem list?_setLevel (g : Hnsw κ) (i l : Nat) (list : List Nat) (j k : Nat) :
    (g.setLevel i l list).list? j k
      = if j = i ∧ k = l then (g.list? i l).map fun _ => list else g.list? j k := by
  unfold list? setLevel
  rw [List.getElem?_modify]
  by_cases hij : i = j
  · subst hij
    cases hn : g.nodes[i]? with
    | none => simp
    | some n =>
      by_cases hk : k = l
      · subst hk
        have hset : (n.levels.set k list)[k]? = (n.levels[k]?).map fun _ => list := by
          rw [List.getElem?_set_self']
          rfl
        simpa using hset
      · simp [hk, List.getElem?_set_ne (Ne.symm hk)]
  · have hji : j ≠ i := Ne.symm hij
    simp [hij, hji]

/-! ## The invariant -/

/-- Every list names nodes of its layer, not its owner, none twice, within the cap. -/
def Links (g : Hnsw κ) : Prop :=
  ∀ i l list, g.list? i l = some list →
    (∀ v ∈ list, g.HasLayer v l) ∧ i ∉ list ∧ list.Nodup ∧ list.length ≤ g.cap l

theorem Links.setLevel (h : Links g) (hlist : ∀ v ∈ list, g.HasLayer v l) (hself : i ∉ list)
    (hnodup : list.Nodup) (hcap : list.length ≤ g.cap l) : Links (g.setLevel i l list) := by
  intro j k list' hlist'
  have hsame := setLevel_shape g i l list
  rw [list?_setLevel] at hlist'
  by_cases hjk : j = i ∧ k = l
  · rw [if_pos hjk] at hlist'
    obtain ⟨rfl, rfl⟩ := hjk
    obtain ⟨-, -, rfl⟩ := Option.map_eq_some_iff.mp hlist'
    exact ⟨fun v hv => hsame.hasLayer.mpr (hlist v hv), hself, hnodup, by rw [hsame.cap]; exact hcap⟩
  · rw [if_neg hjk] at hlist'
    obtain ⟨hlayer, hrest⟩ := h j k list' hlist'
    refine ⟨fun v hv => hsame.hasLayer.mpr (hlayer v hv), ?_⟩
    rw [hsame.cap]
    exact hrest

/-- The lists of all other layers are the same. -/
def OnlyLayer (l : Nat) (g g' : Hnsw κ) : Prop := ∀ i k, k ≠ l → g'.list? i k = g.list? i k

theorem onlyLayer_setLevel (g : Hnsw κ) (i l : Nat) (list : List Nat) :
    OnlyLayer l g (g.setLevel i l list) := by
  intro j k hk
  rw [list?_setLevel, if_neg fun hjk => hk hjk.2]

/-! ## What a host has to provide -/

/-- On vectors, codes and queries of the right form nothing of the codec fails. -/
structure Sound (H : Host κ V P D) (c : κ) (okVec : V → Prop) (okCode : Bytes → Prop)
    (okQuery : P → Prop) : Prop where
  encode : ∀ v, okVec v → ∃ b, H.encode c v = .ok b ∧ okCode b
  prepare : ∀ v, okVec v → ∃ p, H.prepare c v = .ok p ∧ okQuery p
  prepareCode : ∀ b, okCode b → ∃ p, H.prepareCode c b = .ok p ∧ okQuery p
  distance : ∀ b p, okCode b → okQuery p → ∃ d, H.distance c b p = .ok d
  distanceCodes : ∀ a b, okCode a → okCode b → ∃ d, H.distanceCodes c a b = .ok d

variable {H : Host κ V P D} {okVec : V → Prop} {okCode : Bytes → Prop}
  {okQuery : P → Prop} {fails : Fault → Prop} {p : P}

/-- The distance of a node, where it has one. -/
noncomputable def dist (H : Host κ V P D) (g : Hnsw κ) (p : P) (i : Nat) : D :=
  ((g.distanceTo H p i).toOption).getD H.infinity

/-- The codes of the graph have the right form. -/
def Coded (okCode : Bytes → Prop) (g : Hnsw κ) : Prop := ∀ n ∈ g.nodes, okCode n.code

theorem SameShape.coded (h : SameShape g g') (hg : Coded okCode g) : Coded okCode g' := by
  intro n' hn'
  obtain ⟨i, hi⟩ := List.getElem?_of_mem hn'
  obtain ⟨n, hn, hshape⟩ := h.node_of hi
  have hcode : n.code = n'.code := congrArg (fun s => s.2.1) hshape
  rw [← hcode]
  exact hg n (List.mem_of_getElem? hn)

theorem distanceTo_ok (hs : Sound H g.codec okVec okCode okQuery) (hg : Coded okCode g)
    (hp : okQuery p) (hv : v < g.nodes.length) : ∃ d, g.distanceTo H p v = .ok d := by
  have hn : g.nodes[v]? = some g.nodes[v] := List.getElem?_eq_getElem hv
  obtain ⟨d, hd⟩ := hs.distance g.nodes[v].code p (hg _ (List.getElem_mem hv)) hp
  refine ⟨d, ?_⟩
  unfold distanceTo
  rw [node_of_getElem hn]
  exact hd

/-- A set of nodes of one layer that its lists do not leave can be searched. -/
theorem explorable (hs : Sound H g.codec okVec okCode okQuery) (hg : Coded okCode g)
    (hp : okQuery p) {Q : Nat → Prop} (hlayer : ∀ v, Q v → g.HasLayer v l)
    (hclosed : ∀ v ns, Q v → g.list? v l = some ns → ∀ n ∈ ns, Q n) :
    Explorable fails (g.neighbours l) (g.distanceTo H p) Q (dist H g p)
      (List.range g.nodes.length) := by
  refine ⟨?_, ?_, ?_⟩
  · intro v hv
    obtain ⟨ns, hns⟩ := hasLayer_iff.mp (hlayer v hv)
    rw [neighbours_of_list hns]
    exact hclosed v ns hv hns
  · intro v hv
    obtain ⟨d, hd⟩ := distanceTo_ok hs hg hp (hlayer v hv).lt
    rw [hd, meets_ok, dist, hd]
    rfl
  · intro v hv
    exact List.mem_range.mpr (hlayer v hv).lt

section Searches

variable [LinearOrder D] (hs : Sound H g.codec okVec okCode okQuery) (hg : Coded okCode g) (hp : okQuery p)
  {Q : Nat → Prop} (hlayer : ∀ v, Q v → g.HasLayer v l)
  (hclosed : ∀ v ns, Q v → g.list? v l = some ns → ∀ n ∈ ns, Q n)

include hs hg hp hlayer hclosed

theorem greedy_meets {ep : Nat} (hep : Q ep) : Meets fails (g.greedy H p ep l) Q := by
  obtain ⟨d, hd⟩ := distanceTo_ok hs hg hp (hlayer ep hep).lt
  have hdist : d = dist H g p ep := by
    rw [dist, hd]
    rfl
  unfold greedy
  rw [hd, hdist]
  refine (explorable hs hg hp hlayer hclosed).greedy hep ?_
  refine Nat.lt_succ_of_le (le_trans (List.length_filter_le _ _) ?_)
  rw [List.length_range]

theorem searchLayer_meets {eps : List Nat} (heps : ∀ e ∈ eps, Q e) (ef : Nat)
    (hfails : H.grants 4 (ef * 4) = false → fails .capacity) :
    Meets fails (g.searchLayer H p eps ef l) (Found Q (dist H g p) ef) := by
  unfold searchLayer requested
  cases hgrant : H.grants 4 (ef * 4) with
  | false =>
    exact hfails hgrant
  | true =>
    refine (explorable hs hg hp hlayer hclosed).beamSearch heps ?_
    rw [List.length_range]
    omega

end Searches

/-! ## Linking -/

theorem map_snd_of_forall₂ {cands : List (D × Nat)}
    (h : List.Forall₂ (fun a (c : D × Nat) => c.2 = a) list cands) : cands.map Prod.snd = list := by
  induction h with
  | nil => rfl
  | cons hc _ ih => rw [List.map_cons, hc, ih]

section Linking

variable [LinearOrder D] (hs : Sound H g.codec okVec okCode okQuery) (hg : Coded okCode g)

include hs hg

theorem closest_meets {base : Bytes} (hbase : okCode base) (hlist : ∀ v ∈ list, v < g.nodes.length) :
    Meets fails (g.closest H base list) fun out => out.Perm list := by
  unfold closest
  by_cases hone : list.length ≤ 1
  · rw [if_pos hone]
    exact List.Perm.refl _
  · rw [if_neg hone]
    have hkeyed : Meets fails (list.mapM (g.keyed H base))
        (List.Forall₂ (fun a (c : D × Nat) => c.2 = a) list) := by
      refine Meets.mapM ?_
      intro a ha
      obtain ⟨n, hn⟩ : ∃ n, g.nodes[a]? = some n := ⟨_, List.getElem?_eq_getElem (hlist a ha)⟩
      obtain ⟨d, hd⟩ := hs.distanceCodes base n.code hbase (hg n (List.mem_of_getElem? hn))
      unfold keyed
      rw [node_of_getElem hn]
      simp only [bind, Except.bind]
      rw [hd]
      rfl
    refine hkeyed.bind ?_
    intro cands hcands
    rw [meets_pure, ← map_snd_of_forall₂ hcands]
    exact (List.perm_insertionSort CandLe cands).map Prod.snd

theorem prune_meets {base : Bytes} (hbase : okCode base) (hlist : ∀ v ∈ list, v < g.nodes.length)
    (hnodup : list.Nodup) :
    Meets fails (g.prune H base l list) fun out =>
      (∀ v ∈ out, v ∈ list) ∧ out.Nodup ∧ out.length ≤ g.cap l := by
  unfold prune
  by_cases hover : g.cap l < list.length
  · rw [if_pos hover]
    refine (closest_meets hs hg hbase hlist).bind ?_
    intro out hperm
    refine ⟨?_, ?_, ?_⟩
    · intro v hv
      exact hperm.mem_iff.mp (List.mem_of_mem_take hv)
    · exact (hperm.nodup_iff.mpr hnodup).sublist (List.take_sublist _ _)
    · exact List.length_take_le _ _
  · rw [if_neg hover]
    exact ⟨fun v hv => hv, hnodup, Nat.le_of_not_lt hover⟩

/-- **A link keeps the lists**, and touches those of one layer only. -/
theorem link_meets {source target : Nat} (hlinks : Links g) (hsource : g.HasLayer source l)
    (htarget : g.HasLayer target l) :
    Meets fails (g.link H source target l) fun g' =>
      Links g' ∧ SameShape g g' ∧ OnlyLayer l g g' := by
  have hsame : Links g ∧ SameShape g g ∧ OnlyLayer l g g :=
    ⟨hlinks, SameShape.refl g, fun _ _ _ => rfl⟩
  unfold link
  by_cases hself : source = target
  · rw [if_pos hself]
    exact hsame
  · rw [if_neg hself]
    obtain ⟨old, hold⟩ := hasLayer_iff.mp hsource
    rw [neighbours_of_list hold]
    simp only [bind, Except.bind]
    by_cases hthere : target ∈ old
    · rw [if_pos hthere]
      exact hsame
    · rw [if_neg hthere]
      obtain ⟨n, hn, -⟩ := hsource
      rw [node_of_getElem hn]
      obtain ⟨hlayer, howner, hnodup, -⟩ := hlinks source l old hold
      have hgrown : ∀ v ∈ old ++ [target], g.HasLayer v l ∧ v ≠ source := by
        intro v hv
        rcases List.mem_append.mp hv with hv | hv
        · exact ⟨hlayer v hv, fun heq => howner (heq ▸ hv)⟩
        · rw [List.mem_singleton.mp hv]
          exact ⟨htarget, Ne.symm hself⟩
      have hdistinct : (old ++ [target]).Nodup := by
        rw [List.nodup_append]
        refine ⟨hnodup, List.nodup_singleton _, ?_⟩
        intro a ha b hb hab
        rw [List.mem_singleton.mp hb] at hab
        exact hthere (hab ▸ ha)
      have hcode : okCode n.code := hg n (List.mem_of_getElem? hn)
      refine (prune_meets hs hg hcode (fun v hv => (hgrown v hv).1.lt) hdistinct).bind ?_
      rintro out ⟨hout, houtNodup, hcap⟩
      refine ⟨hlinks.setLevel (fun v hv => (hgrown v (hout v hv)).1) ?_ houtNodup hcap,
        setLevel_shape _ _ _ _, onlyLayer_setLevel _ _ _ _⟩
      intro hv
      exact (hgrown source (hout source hv)).2 rfl

end Linking

/-! ## One layer of an insertion -/

/-- What holds while the layers below `count` are still to be linked: the new node is in no
list there, and the search starts elsewhere, at nodes that have these layers. -/
structure Linking (okCode : Bytes → Prop) (g₀ : Hnsw κ) (id count : Nat) (s : Hnsw κ × List Nat) :
    Prop where
  links : Links s.1
  shape : SameShape g₀ s.1
  unlinked : ∀ i l list, l < count → s.1.list? i l = some list → id ∉ list
  starts : ∀ e ∈ s.2, e ≠ id ∧ ∀ l, l < count → s.1.HasLayer e l

section Layers

variable [LinearOrder D] {g₀ : Hnsw κ} {id count : Nat} {s : Hnsw κ × List Nat}

theorem linkLayer_meets (hs : Sound H g₀.codec okVec okCode okQuery) (hg : Coded okCode g₀)
    (hp : okQuery p) (hid : g₀.HasLayer id count) (h : Linking okCode g₀ id (count + 1) s)
    (hfails : H.grants 4 (g₀.params.efConstruction * 4) = false → fails .capacity) :
    Meets fails (linkLayer H p id count s) (Linking okCode g₀ id count) := by
  obtain ⟨g, eps⟩ := s
  obtain ⟨hlinks, hshape, hunlinked, hstarts⟩ := h
  have hcoded := hshape.coded hg
  have hsound : Sound H g.codec okVec okCode okQuery := hshape.codec ▸ hs
  -- what the search reaches: nodes of the layer, but not the new one
  have hsearch : Meets fails (g.searchLayer H p eps g.params.efConstruction count)
      (Found (fun v => g.HasLayer v count ∧ v ≠ id) (dist H g p) g.params.efConstruction) := by
    refine searchLayer_meets hsound hcoded hp (fun v hv => hv.1) ?_ ?_ _ ?_
    · intro v ns _ hns n hn
      refine ⟨(hlinks v count ns hns).1 n hn, ?_⟩
      rintro rfl
      exact hunlinked v count ns (Nat.lt_succ_self count) hns hn
    · intro e he
      exact ⟨(hstarts e he).2 count (Nat.lt_succ_self count), (hstarts e he).1⟩
    · intro hgrant
      rw [hshape.params] at hgrant
      exact hfails hgrant
  refine hsearch.bind ?_
  rintro cands ⟨hcands, hdistinct, -, -⟩
  have hchosen : ∀ v ∈ (cands.take (g.cap count)).map Prod.snd, g.HasLayer v count ∧ v ≠ id := by
    intro v hv
    obtain ⟨c, hc, rfl⟩ := List.mem_map.mp hv
    exact (hcands c (List.mem_of_mem_take hc)).2
  have hnodup : ((cands.take (g.cap count)).map Prod.snd).Nodup :=
    hdistinct.sublist ((List.take_sublist _ _).map Prod.snd)
  have hcap : ((cands.take (g.cap count)).map Prod.snd).length ≤ g.cap count := by
    rw [List.length_map]
    exact List.length_take_le _ _
  obtain ⟨own, hown⟩ := hasLayer_iff.mp (hshape.hasLayer.mpr hid)
  rw [neighbours_of_list hown]
  simp only [bind, Except.bind]
  have hset : Links (g.setLevel id count ((cands.take (g.cap count)).map Prod.snd)) := by
    refine hlinks.setLevel (fun v hv => (hchosen v hv).1) ?_ hnodup hcap
    intro hv
    exact (hchosen id hv).2 rfl
  have hsetShape := hshape.trans (setLevel_shape g id count ((cands.take (g.cap count)).map Prod.snd))
  have hstart : Links (g.setLevel id count ((cands.take (g.cap count)).map Prod.snd)) ∧
      SameShape g₀ (g.setLevel id count ((cands.take (g.cap count)).map Prod.snd)) ∧
      OnlyLayer count g (g.setLevel id count ((cands.take (g.cap count)).map Prod.snd)) :=
    ⟨hset, hsetShape, onlyLayer_setLevel _ _ _ _⟩
  have hfold : Meets fails
      (((cands.take (g.cap count)).map Prod.snd).foldlM (fun g n => g.link H n id count)
        (g.setLevel id count ((cands.take (g.cap count)).map Prod.snd)))
      (fun g' => Links g' ∧ SameShape g₀ g' ∧ OnlyLayer count g g') := by
    refine Meets.foldlM hstart ?_
    rintro g' n hn ⟨hlinks', hshape', honly'⟩
    have hsource : g'.HasLayer n count :=
      hshape'.hasLayer.mpr (hshape.hasLayer.mp (hchosen n hn).1)
    refine (link_meets (hshape'.codec ▸ hs) (hshape'.coded hg) hlinks' hsource
      (hshape'.hasLayer.mpr hid)).mono ?_
    rintro g'' ⟨hlinks'', hshape'', honly''⟩
    exact ⟨hlinks'', hshape'.trans hshape'', fun i k hk => (honly'' i k hk).trans (honly' i k hk)⟩
  refine hfold.bind ?_
  rintro g' ⟨hlinks', hshape', honly'⟩
  refine ⟨hlinks', hshape', ?_, ?_⟩
  · intro i l list hl hlist
    have hlist : g'.list? i l = some list := hlist
    rw [honly' i l (by omega)] at hlist
    exact hunlinked i l list (by omega) hlist
  · intro e he
    have hback : ∀ {e l}, g.HasLayer e l → g'.HasLayer e l := fun h =>
      hshape'.hasLayer.mpr (hshape.hasLayer.mp h)
    cases hhead : cands.head? with
    | none =>
      rw [hhead] at he
      exact ⟨(hstarts e he).1, fun l hl => hback ((hstarts e he).2 l (by omega))⟩
    | some best =>
      rw [hhead] at he
      rw [List.mem_singleton.mp he]
      have hbest := (hcands best (List.mem_of_head? hhead)).2
      exact ⟨hbest.2, fun l hl => hback (hbest.1.mono (by omega))⟩

/-- **Linking from the top layer down** keeps the lists and the shape of the graph. -/
theorem linkLayers_meets (hs : Sound H g₀.codec okVec okCode okQuery) (hg : Coded okCode g₀)
    (hp : okQuery p) (hid : ∀ l, l < count → g₀.HasLayer id l) (h : Linking okCode g₀ id count s)
    (hfails : H.grants 4 (g₀.params.efConstruction * 4) = false → fails .capacity) :
    Meets fails (linkLayers H p id count s) fun s => Links s.1 ∧ SameShape g₀ s.1 := by
  induction count generalizing s with
  | zero => exact ⟨h.links, h.shape⟩
  | succ count ih =>
    refine (linkLayer_meets hs hg hp (hid count (Nat.lt_succ_self count)) h hfails).bind ?_
    intro s' hs'
    exact ih (fun l hl => hid l (by omega)) hs'

end Layers

end Hnsw

end Okm.Vector
