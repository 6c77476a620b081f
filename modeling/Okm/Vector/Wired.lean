import Mathlib.Data.Finset.Card
import Okm.Vector.HnswVerbs

/-!
# Graphs that do not panic

The invariant a graph needs so that no verb on it faults is weaker than the one its own
verbs keep: a list may be too long, name a node twice or its owner, as long as what it names
is in its layer. `Wired` is that weaker invariant. It is what a graph from an unknown source
has to satisfy, and it is kept by every verb (`insert_wired`, `bury_wired`).

The live count is lowered for a node the map of keys names, so it may not fall short of the
live nodes that are named there; others do not matter.
-/

namespace Okm.Vector

open Lib Model

variable {κ V P D : Type}

namespace Hnsw

variable {g g' : Hnsw κ} {i l : Nat} {key : Bytes} {okVec : V → Prop} {okCode : Bytes → Prop}
  {okQuery : P → Prop} {fails : Fault → Prop} {p : P}

/-! ## Lists that stay in their layer -/

def Closed (g : Hnsw κ) : Prop := ∀ i l list, g.list? i l = some list → ∀ v ∈ list, g.HasLayer v l

theorem Closed.setLevel {list : List Nat} (h : Closed g) (hlist : ∀ v ∈ list, g.HasLayer v l) :
    Closed (g.setLevel i l list) := by
  intro j k list' hlist' v hv
  refine (setLevel_shape g i l list).hasLayer.mpr ?_
  rw [list?_setLevel] at hlist'
  by_cases hjk : j = i ∧ k = l
  · rw [if_pos hjk] at hlist'
    obtain ⟨-, -, rfl⟩ := Option.map_eq_some_iff.mp hlist'
    rw [hjk.2]
    exact hlist v hv
  · rw [if_neg hjk] at hlist'
    exact h j k list' hlist' v hv

theorem Closed.push {code : Bytes} {level : Nat} {rng : UInt64} (h : Closed g) :
    Closed (g.push key code level rng) := by
  intro i l list hlist v hv
  rcases list?_push hlist with rfl | hold
  · cases hv
  · exact (h i l list hold v hv).push

section Linking

variable [LinearOrder D] {H : Host κ V P D}

theorem prune_mem (hs : Sound H g.codec okVec okCode okQuery) (hg : Coded okCode g) {base : Bytes}
    (hbase : okCode base) {list : List Nat} (hlist : ∀ v ∈ list, v < g.nodes.length) :
    Meets fails (g.prune H base l list) fun out => ∀ v ∈ out, v ∈ list := by
  unfold prune
  by_cases hover : g.cap l < list.length
  · rw [if_pos hover]
    refine (closest_meets hs hg hbase hlist).bind ?_
    intro out hperm v hv
    exact hperm.mem_iff.mp (List.mem_of_mem_take hv)
  · rw [if_neg hover]
    exact fun v hv => hv

theorem link_closed (hs : Sound H g.codec okVec okCode okQuery) (hg : Coded okCode g)
    {source target : Nat} (h : Closed g) (hsource : g.HasLayer source l)
    (htarget : g.HasLayer target l) :
    Meets fails (g.link H source target l) fun g' => Closed g' ∧ SameShape g g' := by
  unfold link
  by_cases hself : source = target
  · rw [if_pos hself]
    exact ⟨h, SameShape.refl g⟩
  · rw [if_neg hself]
    obtain ⟨old, hold⟩ := hasLayer_iff.mp hsource
    rw [neighbours_of_list hold]
    simp only [bind, Except.bind]
    by_cases hthere : target ∈ old
    · rw [if_pos hthere]
      exact ⟨h, SameShape.refl g⟩
    · rw [if_neg hthere]
      obtain ⟨n, hn, -⟩ := hsource
      rw [node_of_getElem hn]
      have hgrown : ∀ v ∈ old ++ [target], g.HasLayer v l := by
        intro v hv
        rcases List.mem_append.mp hv with hv | hv
        · exact h source l old hold v hv
        · rw [List.mem_singleton.mp hv]
          exact htarget
      have hcode : okCode n.code := hg n (List.mem_of_getElem? hn)
      refine (prune_mem hs hg hcode fun v hv => (hgrown v hv).lt).bind ?_
      intro out hout
      exact ⟨h.setLevel fun v hv => hgrown v (hout v hv), setLevel_shape _ _ _ _⟩

/-- What linking keeps, with the layers below `count` still to be linked. -/
structure LinkingClosed (g₀ : Hnsw κ) (count : Nat) (s : Hnsw κ × List Nat) : Prop where
  closed : Closed s.1
  shape : SameShape g₀ s.1
  starts : ∀ e ∈ s.2, ∀ l, l < count → s.1.HasLayer e l

theorem linkLayer_closed {g₀ : Hnsw κ} {id count : Nat} {s : Hnsw κ × List Nat}
    (hs : Sound H g₀.codec okVec okCode okQuery) (hg : Coded okCode g₀) (hp : okQuery p)
    (hid : g₀.HasLayer id count) (h : LinkingClosed g₀ (count + 1) s)
    (hfails : H.grants 4 (g₀.params.efConstruction * 4) = false → fails .capacity) :
    Meets fails (linkLayer H p id count s) (LinkingClosed g₀ count) := by
  obtain ⟨g, eps⟩ := s
  obtain ⟨hclosed, hshape, hstarts⟩ := h
  -- layers are those of the graph the linking began with
  have hback : ∀ {g' : Hnsw κ} {e l : Nat}, SameShape g₀ g' → g.HasLayer e l → g'.HasLayer e l :=
    fun hshape' hlayer => hshape'.hasLayer.mpr (hshape.hasLayer.mp hlayer)
  have hsearch : Meets fails (g.searchLayer H p eps g.params.efConstruction count)
      (Found (fun v => g.HasLayer v count) (dist H g p) g.params.efConstruction) := by
    refine searchLayer_meets (hshape.codec ▸ hs) (hshape.coded hg) hp (fun v hv => hv) ?_ ?_ _ ?_
    · intro v ns _ hns n hn
      exact hclosed v count ns hns n hn
    · intro e he
      exact hstarts e he count (Nat.lt_succ_self count)
    · intro hgrant
      rw [hshape.params] at hgrant
      exact hfails hgrant
  refine hsearch.bind ?_
  rintro cands ⟨hcands, -, -, -⟩
  have hchosen : ∀ v ∈ (cands.take (g.cap count)).map Prod.snd, g.HasLayer v count := by
    intro v hv
    obtain ⟨c, hc, rfl⟩ := List.mem_map.mp hv
    exact (hcands c (List.mem_of_mem_take hc)).2
  obtain ⟨own, hown⟩ := hasLayer_iff.mp (hshape.hasLayer.mpr hid)
  rw [neighbours_of_list hown]
  simp only [bind, Except.bind]
  -- the new node takes its neighbours, and each of them links back
  have hfold : Meets fails
      (((cands.take (g.cap count)).map Prod.snd).foldlM (fun g n => g.link H n id count)
        (g.setLevel id count ((cands.take (g.cap count)).map Prod.snd)))
      (fun g' => Closed g' ∧ SameShape g₀ g') := by
    refine Meets.foldlM ⟨hclosed.setLevel hchosen, hshape.trans (setLevel_shape _ _ _ _)⟩ ?_
    intro g' n hn hg'
    obtain ⟨hclosed', hshape'⟩ := hg'
    refine (link_closed (hshape'.codec ▸ hs) (hshape'.coded hg) hclosed' (hback hshape' (hchosen n hn))
      (hshape'.hasLayer.mpr hid)).mono ?_
    intro g'' hg''
    exact ⟨hg''.1, hshape'.trans hg''.2⟩
  refine hfold.bind ?_
  rintro g' ⟨hclosed', hshape'⟩
  refine ⟨hclosed', hshape', ?_⟩
  intro e he l hl
  -- the next layer starts from the nearest found, or from where this one did
  cases hhead : cands.head? with
  | none =>
    rw [hhead] at he
    exact hback hshape' (hstarts e he l (by omega))
  | some best =>
    rw [hhead] at he
    rw [List.mem_singleton.mp he]
    exact hback hshape' ((hcands best (List.mem_of_head? hhead)).2.mono (by omega))

theorem linkLayers_closed {g₀ : Hnsw κ} {id count : Nat} {s : Hnsw κ × List Nat}
    (hs : Sound H g₀.codec okVec okCode okQuery) (hg : Coded okCode g₀) (hp : okQuery p)
    (hid : ∀ l, l < count → g₀.HasLayer id l) (h : LinkingClosed g₀ count s)
    (hfails : H.grants 4 (g₀.params.efConstruction * 4) = false → fails .capacity) :
    Meets fails (linkLayers H p id count s) (LinkingClosed g₀ 0) := by
  induction count generalizing s with
  | zero => exact h
  | succ count ih =>
    refine (linkLayer_closed hs hg hp (hid count (Nat.lt_succ_self count)) h hfails).bind ?_
    intro s' hs'
    exact ih (fun l hl => hid l (by omega)) hs'

theorem descend_closed (hs : Sound H g.codec okVec okCode okQuery) (hg : Coded okCode g)
    (hp : okQuery p) (h : Closed g) {lo count ep : Nat}
    (hep : ∀ l, l < lo + count → g.HasLayer ep l) :
    Meets fails (g.descend H p lo count ep) fun ep => ∀ l, l < lo → g.HasLayer ep l := by
  induction count generalizing ep with
  | zero => exact hep
  | succ count ih =>
    have hhop : Meets fails (g.greedy H p ep (lo + count)) fun v => g.HasLayer v (lo + count) :=
      greedy_meets hs hg hp (fun v hv => hv) (fun v ns _ hns => h v _ ns hns) (hep _ (by omega))
    refine hhop.bind ?_
    intro v hv
    exact ih fun l hl => hv.mono (by omega)

end Linking

/-! ## Nodes the live count owes -/

/-- A live node its key maps to. -/
def isCurrent (g : Hnsw κ) (i : Nat) : Bool :=
  (g.nodes[i]?).any fun n => !n.tomb && decide (g.byKey.get n.key = some i)

def currents (g : Hnsw κ) : Finset Nat :=
  (Finset.range g.nodes.length).filter fun i => g.isCurrent i = true

theorem mem_currents : i ∈ g.currents ↔
    ∃ n, g.nodes[i]? = some n ∧ n.tomb = false ∧ g.byKey.get n.key = some i := by
  have hcurrent : g.isCurrent i = true ↔
      ∃ n, g.nodes[i]? = some n ∧ n.tomb = false ∧ g.byKey.get n.key = some i := by
    rw [isCurrent, Option.any_eq_true]
    simp only [Bool.and_eq_true, Bool.not_eq_true', decide_eq_true_eq]
  rw [currents, Finset.mem_filter, Finset.mem_range, hcurrent]
  constructor
  · intro h
    exact h.2
  · intro h
    obtain ⟨n, hn, hlive⟩ := h
    exact ⟨(List.getElem?_eq_some_iff.mp hn).1, n, hn, hlive⟩

/-- **What keeps a graph from panicking.** -/
structure Wired (okCode : Bytes → Prop) (g : Hnsw κ) : Prop where
  closed : Closed g
  coded : Coded okCode g
  /-- The map names nodes of their key. -/
  mapped : ∀ key i, g.byKey.get key = some i → (g.nodes.map Node.key)[i]? = some key
  counted : g.currents.card ≤ g.live
  entry : ∀ e, g.entry = some e → g.HasLayer e g.top

theorem SameShape.currents (h : SameShape g g') : g'.currents = g.currents := by
  have hone : ∀ {g g' : Hnsw κ}, SameShape g g' → ∀ i, i ∈ g'.currents → i ∈ g.currents := by
    intro g g' h i hi
    obtain ⟨n', hn', htomb, hget⟩ := mem_currents.mp hi
    obtain ⟨n, hn, hshape⟩ := h.node_of hn'
    have hkey : n.key = n'.key := congrArg (fun s => s.1) hshape
    have hlive : n.tomb = n'.tomb := congrArg (fun s => s.2.2.1) hshape
    have hmap : g'.byKey = g.byKey := by rw [h.rest]
    exact mem_currents.mpr ⟨n, hn, hlive.trans htomb, by rw [hkey, ← hmap]; exact hget⟩
  exact Finset.ext fun i => ⟨hone h i, hone h.symm i⟩

theorem Closed.wired_of_shape (hclosed : Closed g') (h : Wired okCode g) (hshape : SameShape g g') :
    Wired okCode g' := by
  refine ⟨hclosed, hshape.coded h.coded, ?_, ?_, ?_⟩
  · intro key i hget
    rw [hshape.keys]
    rw [hshape.rest] at hget
    exact h.mapped key i hget
  · have hlive : g'.live = g.live := by rw [hshape.rest]
    rw [hshape.currents, hlive]
    exact h.counted
  · intro e he
    rw [hshape.entry] at he
    rw [hshape.top]
    exact hshape.hasLayer.mpr (h.entry e he)

/-! ## Burying -/

theorem Wired.entomb {old : Nat} {n : Node} (h : Wired okCode g) (hn : g.nodes[old]? = some n)
    (htomb : n.tomb = false) (hget : g.byKey.get n.key = some old) :
    Wired okCode (g.entomb old) := by
  have hlayer : ∀ i l, (g.entomb old).HasLayer i l ↔ g.HasLayer i l := by
    intro i l
    rw [hasLayer_iff, hasLayer_iff, list?_entomb]
  refine ⟨?_, ?_, ?_, ?_, ?_⟩
  · intro i l list hlist v hv
    rw [list?_entomb] at hlist
    exact (hlayer v l).mpr (h.closed i l list hlist v hv)
  · intro n' hn'
    obtain ⟨i, hi⟩ := List.getElem?_of_mem hn'
    obtain ⟨m, hm, -, hcode, -, -⟩ := getElem?_entomb hi
    rw [hcode]
    exact h.coded m (List.mem_of_getElem? hm)
  · intro key i hi
    rw [keys_entomb]
    exact h.mapped key i hi
  · have hsub : (g.entomb old).currents ⊂ g.currents := by
      refine Finset.ssubset_iff_of_subset ?_ |>.mpr ⟨old, mem_currents.mpr ⟨n, hn, htomb, hget⟩, ?_⟩
      · intro i hi
        obtain ⟨n', hn', hlive, hat⟩ := mem_currents.mp hi
        obtain ⟨m, hm, hkey, -, -, hdead⟩ := getElem?_entomb hn'
        rw [hlive] at hdead
        have hmlive := (Bool.or_eq_false_iff.mp hdead.symm).1
        rw [hkey] at hat
        exact mem_currents.mpr ⟨m, hm, hmlive, hat⟩
      · intro hold
        obtain ⟨n', hn', hlive, -⟩ := mem_currents.mp hold
        obtain ⟨m, -, -, -, -, hdead⟩ := getElem?_entomb hn'
        rw [hlive] at hdead
        have hne := (Bool.or_eq_false_iff.mp hdead.symm).2
        exact absurd rfl (of_decide_eq_false hne)
    have hless := Finset.card_lt_card hsub
    have hcounted := h.counted
    have hlive : (g.entomb old).live = g.live - 1 := rfl
    omega
  · intro e he
    exact (hlayer e g.top).mpr (h.entry e he)

/-- What is as before but for tombstones, lists and the live count. -/
structure Kept (g g' : Hnsw κ) : Prop where
  codec : g'.codec = g.codec
  params : g'.params = g.params
  count : g'.nodes.length = g.nodes.length

theorem SameShape.kept (h : SameShape g g') : Kept g g' := by
  refine ⟨h.codec, h.params, ?_⟩
  have hlength := congrArg List.length h.nodes
  rwa [List.length_map, List.length_map] at hlength

/-- **Burying never faults** and keeps the wiring. -/
theorem bury_wired (h : Wired okCode g) (key : Bytes) :
    Meets fails (g.bury key) fun r => Wired okCode r.2 ∧ Kept g r.2 := by
  unfold bury
  cases hget : g.byKey.get key with
  | none => exact ⟨h, rfl, rfl, rfl⟩
  | some old =>
    have hat := h.mapped key old hget
    rw [List.getElem?_map] at hat
    obtain ⟨n, hn, rfl⟩ := Option.map_eq_some_iff.mp hat
    simp only
    rw [node_of_getElem hn]
    simp only [bind, Except.bind]
    by_cases htomb : n.tomb = true
    · rw [if_pos htomb]
      exact ⟨h, rfl, rfl, rfl⟩
    · rw [if_neg htomb]
      have hlive := Bool.eq_false_of_not_eq_true htomb
      -- the node to bury is itself counted, so the count is not zero
      have hmem := mem_currents.mpr ⟨n, hn, hlive, hget⟩
      have hpos := Finset.card_pos.mpr ⟨old, hmem⟩
      have hcounted := h.counted
      rw [if_neg (by omega)]
      exact ⟨h.entomb hn hlive hget, rfl, rfl, by simp [Hnsw.entomb]⟩

/-! ## Inserting -/

theorem Wired.push {code : Bytes} {level : Nat} {rng : UInt64} (h : Wired okCode g)
    (hcode : okCode code) (hfew : g.nodes.length < 2 ^ 32) :
    Wired okCode (g.push key code level rng) := by
  have hid : g.nodes.length % 2 ^ 32 = g.nodes.length := Nat.mod_eq_of_lt hfew
  have hget : ∀ k, (g.push key code level rng).byKey.get k
      = if k = key then some g.nodes.length else g.byKey.get k := by
    intro k
    have hins := SortedMap.get_insert g.byKey key (g.nodes.length % 2 ^ 32) k
    rw [hid] at hins
    have hmap : (g.push key code level rng).byKey = g.byKey.insert key (g.nodes.length % 2 ^ 32) :=
      rfl
    rw [hmap, hid, hins]
  refine ⟨h.closed.push, h.coded.push hcode, ?_, ?_, fun e he => (h.entry e he).push⟩
  · intro k i hk
    rw [hget] at hk
    rw [keys_push]
    by_cases heq : k = key
    · rw [if_pos heq] at hk
      rw [← Option.some.inj hk, heq, List.getElem?_append_right (by rw [List.length_map]),
        List.length_map, Nat.sub_self]
      rfl
    · rw [if_neg heq] at hk
      have hat := h.mapped k i hk
      rw [List.getElem?_append_left (List.getElem?_eq_some_iff.mp hat).1]
      exact hat
  · have hsub : (g.push key code level rng).currents ⊆ Insert.insert g.nodes.length g.currents := by
      intro i hi
      obtain ⟨n, hn, htomb, hat⟩ := mem_currents.mp hi
      rw [hget] at hat
      rcases getElem?_push_cases hn with hold | ⟨rfl, -⟩
      · have hlt := (List.getElem?_eq_some_iff.mp hold).1
        by_cases heq : n.key = key
        · rw [if_pos heq] at hat
          have hlast := Option.some.inj hat
          omega
        · rw [if_neg heq] at hat
          exact Finset.mem_insert_of_mem (mem_currents.mpr ⟨n, hold, htomb, hat⟩)
      · exact Finset.mem_insert_self _ _
    have hcard := le_trans (Finset.card_le_card hsub) (Finset.card_insert_le _ _)
    have hcounted := h.counted
    have hlive : (g.push key code level rng).live = g.live + 1 := rfl
    omega

section Verbs

variable [LinearOrder D] {H : Host κ V P D}

theorem connect_wired {code : Bytes} {id level : Nat}
    (hs : Sound H g.codec okVec okCode okQuery) (h : Wired okCode g) (hcode : okCode code)
    (hid : ∀ l, l ≤ level → g.HasLayer id l)
    (hfails : H.grants 4 (g.params.efConstruction * 4) = false → fails .capacity) :
    Meets fails (g.connect H code id level) fun g' => Wired okCode g' ∧ Kept g g' := by
  unfold connect
  cases hentry : g.entry with
  | none =>
    refine ⟨⟨h.closed, h.coded, h.mapped, h.counted, ?_⟩, rfl, rfl, rfl⟩
    -- the first node is the entry
    intro e he
    rw [← Option.some.inj he]
    exact hid level (Nat.le_refl level)
  | some ep =>
    obtain ⟨p, hprep, hp⟩ := hs.prepareCode code hcode
    simp only
    rw [hprep]
    have hlayer : ∀ l, l < g.top + 1 → g.HasLayer ep l := fun l hl =>
      (h.entry ep hentry).mono (by omega)
    -- from the top down to the level of the new node
    have hdescend : Meets fails (g.descend H p (level + 1) (g.top - level) ep)
        fun ep => ∀ l, l < min level g.top + 1 → g.HasLayer ep l := by
      by_cases hdeep : level < g.top
      · refine (descend_closed hs h.coded hp h.closed fun l hl => hlayer l (by omega)).mono ?_
        intro v hv l hl
        exact hv l (by omega)
      · rw [Nat.sub_eq_zero_of_le (by omega)]
        exact fun l hl => hlayer l (by omega)
    refine hdescend.bind ?_
    intro ep' hlayer'
    -- then layer by layer, with links both ways
    have hstart : LinkingClosed g (min level g.top + 1) (g, [ep']) := by
      refine ⟨h.closed, SameShape.refl g, ?_⟩
      intro e he
      rw [List.mem_singleton.mp he]
      exact hlayer'
    refine (linkLayers_closed hs h.coded hp (fun l hl => hid l (by omega)) hstart hfails).bind ?_
    rintro s ⟨hclosed, hshape, -⟩
    have hwired := hclosed.wired_of_shape h hshape
    have hkept := hshape.kept
    rw [meets_pure]
    by_cases hraise : s.1.top < level
    · rw [if_pos hraise]
      refine ⟨⟨hwired.closed, hwired.coded, hwired.mapped, hwired.counted, ?_⟩, hkept.codec,
        hkept.params, hkept.count⟩
      intro e he
      rw [← Option.some.inj he]
      exact hshape.hasLayer.mpr (hid level (Nat.le_refl level))
    · rw [if_neg hraise]
      exact ⟨hwired, hkept⟩

/-- **Inserting keeps the wiring**, and fails only where the beam is refused. -/
theorem insert_wired {v : V} (hs : Sound H g.codec okVec okCode okQuery) (h : Wired okCode g)
    (hv : okVec v) (hfew : g.nodes.length < 2 ^ 32) (key : Bytes)
    (hfails : H.grants 4 (g.params.efConstruction * 4) = false → fails .capacity) :
    Meets fails (g.insert H key v) fun g' => Wired okCode g' ∧ g'.codec = g.codec ∧
      g'.params = g.params ∧ g'.nodes.length = g.nodes.length + 1 := by
  obtain ⟨code, hencode, hcode⟩ := hs.encode v hv
  unfold insert
  rw [hencode]
  refine (bury_wired h key).bind ?_
  rintro ⟨removed, g₁⟩ ⟨hwired, hkept⟩
  simp only at hwired hkept ⊢
  rw [Nat.mod_eq_of_lt hfew, ← hkept.count]
  have hroom : g₁.nodes.length < 2 ^ 32 := by rw [hkept.count]; exact hfew
  refine (connect_wired (g := g₁.push key code _ _) (hkept.codec ▸ hs) (hwired.push hcode hroom)
    hcode (fun l hl => hasLayer_new hl) ?_).mono ?_
  · intro hno
    have hpushed : (g₁.push key code (randomLevel H g.params.m g.rng).1
      (randomLevel H g.params.m g.rng).2).params = g₁.params := rfl
    rw [hpushed, hkept.params] at hno
    exact hfails hno
  · rintro g' ⟨hwired', hkept'⟩
    refine ⟨hwired', hkept'.codec.trans hkept.codec, hkept'.params.trans hkept.params, ?_⟩
    rw [hkept'.count, Hnsw.push, List.length_append, List.length_singleton]

/-! ## Searching -/

omit [LinearOrder D] in
theorem collect_within (k : Nat) {cands : List (D × Nat)} (h : ∀ c ∈ cands, c.2 < g.nodes.length) :
    Meets fails (g.collect k cands) fun _ => True := by
  induction cands generalizing k with
  | nil =>
    cases k with
    | zero => exact trivial
    | succ k => exact trivial
  | cons c cands ih =>
    have hrest := fun c hc => h c (List.mem_cons_of_mem _ hc)
    cases k with
    | zero => exact trivial
    | succ k =>
      unfold collect
      rw [node_of_getElem (List.getElem?_eq_getElem (h c List.mem_cons_self))]
      simp only [bind, Except.bind]
      split
      · exact ih (k + 1) hrest
      · exact (ih k hrest).bind fun _ _ => trivial

/-- **Searching a wired graph** fails only where room for the result is refused. -/
theorem search_wired (hs : Sound H g.codec okVec okCode okQuery) (h : Wired okCode g) {q : V}
    (hq : okVec q) (k ef : Nat)
    (hfails : (H.grants 4 (max ef k * 4) && H.grants 32 k) = false → fails .capacity) :
    Meets fails (g.search H q k ef) fun _ => True := by
  obtain ⟨p, hprep, hp⟩ := hs.prepare q hq
  unfold search
  rw [hprep]
  simp only [bind, Except.bind]
  unfold searchPrepared
  by_cases hk : k = 0
  · rw [if_pos hk]
    exact trivial
  · rw [if_neg hk]
    cases hentry : g.entry with
    | none => exact trivial
    | some ep =>
      have hdown : Meets fails (g.descend H p 1 g.top ep) fun ep => ∀ l, l < 1 → g.HasLayer ep l :=
        descend_closed hs h.coded hp h.closed fun l hl => (h.entry ep hentry).mono (by omega)
      refine hdown.bind ?_
      intro ep' hep'
      have hbase := hep' 0 Nat.one_pos
      refine (searchLayer_meets hs h.coded hp (Q := fun v => g.HasLayer v 0) (fun v hv => hv)
        (fun v ns _ hns => h.closed v 0 ns hns) ?_ (max ef k) ?_).bind ?_
      · intro e he
        rw [List.mem_singleton.mp he]
        exact hbase
      · intro hno
        exact hfails (by rw [hno, Bool.false_and])
      · rintro cands ⟨hcands, -, -, -⟩
        unfold requested
        cases hgrant : H.grants 32 k with
        | false => exact hfails (by rw [hgrant, Bool.and_false])
        | true => exact collect_within k fun c hc => (hcands c hc).2.lt

end Verbs

end Hnsw

end Okm.Vector
