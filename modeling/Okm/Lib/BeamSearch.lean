import Mathlib.Data.List.Sort
import Mathlib.Order.Lattice
import Okm.Lib.Outcome

/-!
# Searching a graph by distance

Two searches over a graph that is only reachable through partial functions: the
neighbours of a vertex and its distance may each fail. `greedy` walks to the closest
neighbour while that improves; `beamSearch` keeps the `ef` closest vertices seen and
expands the closest not yet expanded, until it is farther than all of them.

Both take fuel and fail with `stuck` when it runs out. Over a finite set of vertices that
the neighbours never leave (`Explorable`), one unit more than there are vertices is
enough, whatever the distances are: a greedy walk comes strictly closer with every round,
and a search expands a vertex at most once.

The heaps are kept as sorted lists: what they pop is the least or the greatest pair, by
distance and then by vertex.
-/

namespace Okm.Lib

variable {V D ε : Type} [LinearOrder D]

/-! ## The searches -/

/-- One round over the neighbours: best distance, where it is, whether it moved. -/
def sweep (dist : V → Except ε D) (s : D × V × Bool) (n : V) : Except ε (D × V × Bool) := do
  let d ← dist n
  pure (if d < s.1 then (d, n, true) else s)

/-- Walk to the closest neighbour until none is closer. -/
def greedy (nbrs : V → Except ε (List V)) (dist : V → Except ε D) (stuck : ε) :
    Nat → D → V → Except ε V
  | 0, _, _ => .error stuck
  | fuel + 1, best, ep => do
    let ns ← nbrs ep
    let s ← ns.foldlM (sweep dist) (best, ep, false)
    if s.2.2 then greedy nbrs dist stuck fuel s.1 s.2.1 else pure s.2.1

/-- What a search has seen, what it still wants to expand, and the best so far. -/
structure Beam (V D : Type) where
  visited : List V
  cand : List (D × V)
  top : List (D × V)

/-- The farthest of the best. -/
def Beam.worst (infinity : D) (b : Beam V D) : D := (b.top.getLast?.map Prod.fst).getD infinity

section Search

variable [LinearOrder V]

/-- By distance, then by vertex. -/
def CandLe (a b : D × V) : Prop := a.1 < b.1 ∨ (a.1 = b.1 ∧ a.2 ≤ b.2)

instance candLeDecidable : DecidableRel (CandLe : D × V → D × V → Prop) :=
  fun a b => inferInstanceAs (Decidable (a.1 < b.1 ∨ (a.1 = b.1 ∧ a.2 ≤ b.2)))

instance candLeTotal : Std.Total (CandLe : D × V → D × V → Prop) where
  total a b := by
    rcases lt_trichotomy a.1 b.1 with h | h | h
    · exact Or.inl (Or.inl h)
    · rcases le_total a.2 b.2 with hv | hv
      · exact Or.inl (Or.inr ⟨h, hv⟩)
      · exact Or.inr (Or.inr ⟨h.symm, hv⟩)
    · exact Or.inr (Or.inl h)

instance candLeTrans : IsTrans (D × V) CandLe where
  trans a b c := by
    rintro (hab | ⟨hab, hv⟩) (hbc | ⟨hbc, hw⟩)
    · exact Or.inl (lt_trans hab hbc)
    · exact Or.inl (hbc ▸ hab)
    · exact Or.inl (hab ▸ hbc)
    · exact Or.inr ⟨hab.trans hbc, le_trans hv hw⟩

theorem CandLe.dist_le {a b : D × V} (h : CandLe a b) : a.1 ≤ b.1 := by
  rcases h with h | ⟨h, -⟩
  · exact le_of_lt h
  · exact le_of_eq h

/-- Push on both heaps; of more than `ef` the farthest is dropped. -/
def Beam.enqueue (ef : Nat) (b : Beam V D) (c : D × V) : Beam V D :=
  let top := b.top.orderedInsert CandLe c
  ⟨b.visited, b.cand.orderedInsert CandLe c, if ef < top.length then top.dropLast else top⟩

def Beam.see (b : Beam V D) (v : V) : Beam V D := ⟨v :: b.visited, b.cand, b.top⟩

/-- A starting vertex. -/
def Beam.start (dist : V → Except ε D) (ef : Nat) (b : Beam V D) (e : V) :
    Except ε (Beam V D) :=
  if e ∈ b.visited then pure b
  else do
    let d ← dist e
    pure ((b.see e).enqueue ef (d, e))

/-- A neighbour of the vertex being expanded; `worst` is the farthest of the best. -/
def Beam.visit (dist : V → Except ε D) (ef : Nat) (worst : D) (b : Beam V D) (n : V) :
    Except ε (Beam V D) :=
  if n ∈ b.visited then pure b
  else do
    let d ← dist n
    pure (if b.top.length < ef ∨ d < worst then (b.see n).enqueue ef (d, n) else b.see n)

def Beam.loop (nbrs : V → Except ε (List V)) (dist : V → Except ε D) (infinity : D) (stuck : ε)
    (ef : Nat) : Nat → Beam V D → Except ε (List (D × V))
  | 0, _ => .error stuck
  | fuel + 1, b =>
    match b.cand with
    | [] => pure b.top
    | (d, u) :: rest =>
      if b.worst infinity < d ∧ ef ≤ b.top.length then pure b.top
      else do
        let ns ← nbrs u
        let b ← ns.foldlM (Beam.visit dist ef (b.worst infinity)) ⟨b.visited, rest, b.top⟩
        Beam.loop nbrs dist infinity stuck ef fuel b

/-- The `ef` closest vertices a search from `eps` finds, closest first. -/
def beamSearch (nbrs : V → Except ε (List V)) (dist : V → Except ε D) (infinity : D) (stuck : ε)
    (ef fuel : Nat) (eps : List V) : Except ε (List (D × V)) := do
  let b ← eps.foldlM (Beam.start dist ef) ⟨[], [], []⟩
  Beam.loop nbrs dist infinity stuck ef fuel b

end Search

/-! ## Where they can be run -/

/-- A finite set of vertices the neighbours stay in. -/
structure Explorable (fails : ε → Prop) (nbrs : V → Except ε (List V)) (dist : V → Except ε D)
    (P : V → Prop) (d : V → D) (univ : List V) : Prop where
  stays : ∀ v, P v → Meets fails (nbrs v) fun ns => ∀ n ∈ ns, P n
  measured : ∀ v, P v → Meets fails (dist v) (· = d v)
  finite : ∀ v, P v → v ∈ univ

variable {fails : ε → Prop} {nbrs : V → Except ε (List V)} {dist : V → Except ε D} {P : V → Prop}
  {d : V → D} {univ : List V} {stuck : ε} {infinity : D}

/-! ## The greedy walk -/

/-- A round ends at a vertex no farther, strictly closer if it moved. -/
theorem Explorable.sweep (h : Explorable fails nbrs dist P d univ) {ep : V} (hep : P ep)
    {ns : List V} (hns : ∀ n ∈ ns, P n) :
    Meets fails (ns.foldlM (Lib.sweep dist) (d ep, ep, false)) fun s =>
      P s.2.1 ∧ s.1 = d s.2.1 ∧ (s.2.2 = true → s.1 < d ep) ∧ s.1 ≤ d ep := by
  refine Meets.foldlM ⟨hep, rfl, fun hf => absurd hf (by simp), le_refl _⟩ ?_
  rintro ⟨best, at_, moved⟩ n hn ⟨hat, hbest, hmoved, hle⟩
  refine (h.measured n (hns n hn)).bind ?_
  rintro dn rfl
  rw [meets_pure]
  by_cases hlt : d n < best
  · rw [if_pos hlt]
    exact ⟨hns n hn, rfl, fun _ => lt_of_lt_of_le hlt hle, le_of_lt (lt_of_lt_of_le hlt hle)⟩
  · rw [if_neg hlt]
    exact ⟨hat, hbest, hmoved, hle⟩

/-- Moving closer leaves fewer vertices that are closer still. -/
theorem length_closer_lt {v w : V} (hv : v ∈ univ) (h : d v < d w) :
    (univ.filter fun u => d u < d v).length < (univ.filter fun u => d u < d w).length := by
  have hmono : (univ.filter fun u => d u < d v)
      = (univ.filter fun u => d u < d w).filter fun u => d u < d v := by
    rw [List.filter_filter]
    refine List.filter_congr ?_
    intro u _
    by_cases hu : d u < d v
    · simp [hu, lt_trans hu h]
    · simp [hu]
  rw [hmono, List.length_filter_lt_length_iff_exists]
  exact ⟨v, List.mem_filter.mpr ⟨hv, by simpa using h⟩, by simp⟩

/-- **The greedy walk ends**, at a vertex of the set. -/
theorem Explorable.greedy (h : Explorable fails nbrs dist P d univ) {fuel : Nat} {ep : V}
    (hep : P ep) (hfuel : (univ.filter fun v => d v < d ep).length < fuel) :
    Meets fails (Lib.greedy nbrs dist stuck fuel (d ep) ep) P := by
  induction fuel generalizing ep with
  | zero => omega
  | succ fuel ih =>
    refine (h.stays ep hep).bind ?_
    intro ns hns
    refine (h.sweep hep hns).bind ?_
    rintro ⟨best, ep', moved⟩ ⟨hep', hbest, hmoved, -⟩
    simp only at hep' hbest hmoved ⊢
    subst hbest
    cases moved with
    | false => exact hep'
    | true =>
      refine ih hep' ?_
      have hcloser := length_closer_lt (h.finite ep' hep') (hmoved rfl)
      omega

/-! ## The search -/

/-- What holds between two steps of a search. -/
structure BeamInv [LinearOrder V] (P : V → Prop) (d : V → D) (ef : Nat) (b : Beam V D) : Prop where
  nodup : b.visited.Nodup
  seen : ∀ v ∈ b.visited, P v
  cand : ∀ c ∈ b.cand, c.1 = d c.2 ∧ c.2 ∈ b.visited
  top : ∀ c ∈ b.top, c.1 = d c.2 ∧ c.2 ∈ b.visited
  distinct : (b.top.map Prod.snd).Nodup
  sorted : b.top.Pairwise CandLe
  few : b.top.length ≤ ef

/-- Expansions still possible: candidates waiting and vertices not seen. -/
def Beam.room (univ : List V) (b : Beam V D) : Nat :=
  b.cand.length + (univ.length - b.visited.length)

section Inv

variable [LinearOrder V] {ef : Nat} {b : Beam V D} {v : V}

theorem BeamInv.see (h : BeamInv P d ef b) (hv : P v) (hnew : v ∉ b.visited) :
    BeamInv P d ef (b.see v) := by
  refine ⟨List.nodup_cons.mpr ⟨hnew, h.nodup⟩, ?_, ?_, ?_, h.distinct, h.sorted, h.few⟩
  · intro w hw
    rcases List.mem_cons.mp hw with rfl | hw
    · exact hv
    · exact h.seen w hw
  · intro c hc
    exact ⟨(h.cand c hc).1, List.mem_cons_of_mem v (h.cand c hc).2⟩
  · intro c hc
    exact ⟨(h.top c hc).1, List.mem_cons_of_mem v (h.top c hc).2⟩

theorem BeamInv.enqueue (h : BeamInv P d ef b) (hv : v ∈ b.visited)
    (hnew : ∀ c ∈ b.top, c.2 ≠ v) : BeamInv P d ef (b.enqueue ef (d v, v)) := by
  have hmem : ∀ c ∈ b.top.orderedInsert CandLe (d v, v), c.1 = d c.2 ∧ c.2 ∈ b.visited := by
    intro c hc
    rcases (List.mem_orderedInsert _).mp hc with rfl | hc
    · exact ⟨rfl, hv⟩
    · exact h.top c hc
  have hdistinct : ((b.top.orderedInsert CandLe (d v, v)).map Prod.snd).Nodup := by
    have hperm := (List.perm_orderedInsert CandLe (d v, v) b.top).map Prod.snd
    refine hperm.nodup_iff.mpr (List.nodup_cons.mpr ⟨?_, h.distinct⟩)
    intro hin
    obtain ⟨c, hc, hcv⟩ := List.mem_map.mp hin
    exact hnew c hc hcv
  have hsorted : (b.top.orderedInsert CandLe (d v, v)).Pairwise CandLe :=
    h.sorted.orderedInsert _ _
  have hlen : (b.top.orderedInsert CandLe (d v, v)).length = b.top.length + 1 :=
    List.orderedInsert_length CandLe b.top (d v, v)
  have hdrop : List.Sublist (b.top.orderedInsert CandLe (d v, v)).dropLast
      (b.top.orderedInsert CandLe (d v, v)) := List.dropLast_sublist _
  have hfew := h.few
  have hcand : ∀ c ∈ b.cand.orderedInsert CandLe (d v, v), c.1 = d c.2 ∧ c.2 ∈ b.visited := by
    intro c hc
    rcases (List.mem_orderedInsert _).mp hc with rfl | hc
    · exact ⟨rfl, hv⟩
    · exact h.cand c hc
  unfold Beam.enqueue
  by_cases hfull : ef < (b.top.orderedInsert CandLe (d v, v)).length
  · simp only [if_pos hfull]
    refine ⟨h.nodup, h.seen, hcand, fun c hc => hmem c (hdrop.subset hc),
      hdistinct.sublist (hdrop.map Prod.snd), hsorted.sublist hdrop, ?_⟩
    simp only [List.length_dropLast]
    omega
  · simp only [if_neg hfull]
    exact ⟨h.nodup, h.seen, hcand, hmem, hdistinct, hsorted, by simp only; omega⟩

/-- A vertex seen for the first time may be admitted. -/
theorem BeamInv.enter (h : BeamInv P d ef b) (hv : P v) (hnew : v ∉ b.visited) :
    BeamInv P d ef ((b.see v).enqueue ef (d v, v)) := by
  refine (h.see hv hnew).enqueue List.mem_cons_self ?_
  rintro c hc rfl
  exact hnew (h.top c hc).2

theorem BeamInv.visited_le (h : BeamInv P d ef b) (hfinite : ∀ v, P v → v ∈ univ) :
    b.visited.length ≤ univ.length :=
  (List.subperm_of_subset h.nodup fun v hv => hfinite v (h.seen v hv)).length_le

omit [LinearOrder D] [LinearOrder V] in
theorem room_see_le (hroom : b.visited.length < univ.length) :
    (b.see v).room univ ≤ b.room univ := by
  unfold Beam.room Beam.see
  simp only [List.length_cons]
  omega

/-- Admitting costs what seeing made room for. -/
theorem room_enter_le (hroom : b.visited.length < univ.length) (c : D × V) :
    ((b.see v).enqueue ef c).room univ ≤ b.room univ := by
  have hlen : (b.cand.orderedInsert CandLe c).length = b.cand.length + 1 :=
    List.orderedInsert_length CandLe b.cand c
  unfold Beam.room Beam.enqueue Beam.see
  simp only [List.length_cons, hlen]
  omega

variable (h : Explorable fails nbrs dist P d univ)

include h

theorem Explorable.start {n : Nat} {e : V} (he : P e) (hb : BeamInv P d ef b ∧ b.room univ ≤ n) :
    Meets fails (Beam.start dist ef b e) fun b => BeamInv P d ef b ∧ b.room univ ≤ n := by
  obtain ⟨hinv, hroom⟩ := hb
  unfold Beam.start
  by_cases hseen : e ∈ b.visited
  · rw [if_pos hseen]
    exact ⟨hinv, hroom⟩
  · rw [if_neg hseen]
    refine (h.measured e he).bind ?_
    rintro de rfl
    have hnext := hinv.enter he hseen
    have hless : b.visited.length < univ.length := (hinv.see he hseen).visited_le h.finite
    exact ⟨hnext, le_trans (room_enter_le hless _) hroom⟩

theorem Explorable.visit {n : Nat} {worst : D} {w : V} (hw : P w)
    (hb : BeamInv P d ef b ∧ b.room univ ≤ n) :
    Meets fails (Beam.visit dist ef worst b w) fun b => BeamInv P d ef b ∧ b.room univ ≤ n := by
  obtain ⟨hinv, hroom⟩ := hb
  unfold Beam.visit
  by_cases hseen : w ∈ b.visited
  · rw [if_pos hseen]
    exact ⟨hinv, hroom⟩
  · rw [if_neg hseen]
    refine (h.measured w hw).bind ?_
    rintro dw rfl
    rw [meets_pure]
    have hless : b.visited.length < univ.length := (hinv.see hw hseen).visited_le h.finite
    by_cases hadmit : b.top.length < ef ∨ d w < worst
    · rw [if_pos hadmit]
      exact ⟨hinv.enter hw hseen, le_trans (room_enter_le hless _) hroom⟩
    · rw [if_neg hadmit]
      exact ⟨hinv.see hw hseen, le_trans (room_see_le hless) hroom⟩

/-- What a search returns: vertices of the set, each once, at most `ef`, closest first. -/
def Found (P : V → Prop) (d : V → D) (ef : Nat) (out : List (D × V)) : Prop :=
  (∀ c ∈ out, c.1 = d c.2 ∧ P c.2) ∧ (out.map Prod.snd).Nodup ∧ out.Pairwise CandLe ∧
    out.length ≤ ef

omit h in
theorem BeamInv.found (h : BeamInv P d ef b) : Found P d ef b.top :=
  ⟨fun c hc => ⟨(h.top c hc).1, h.seen _ (h.top c hc).2⟩, h.distinct, h.sorted, h.few⟩

theorem Explorable.loop {fuel : Nat} (hb : BeamInv P d ef b) (hfuel : b.room univ < fuel) :
    Meets fails (Beam.loop nbrs dist infinity stuck ef fuel b) (Found P d ef) := by
  induction fuel generalizing b with
  | zero => omega
  | succ fuel ih =>
    unfold Beam.loop
    split
    · exact hb.found
    · rename_i du u rest hcand
      by_cases hstop : b.worst infinity < du ∧ ef ≤ b.top.length
      · rw [if_pos hstop]
        exact hb.found
      · rw [if_neg hstop]
        have hu : P u := hb.seen u (hb.cand (du, u) (hcand ▸ List.mem_cons_self)).2
        refine (h.stays u hu).bind ?_
        intro ns hns
        -- the popped candidate pays for the round
        have hpop : BeamInv P d ef (⟨b.visited, rest, b.top⟩ : Beam V D) :=
          ⟨hb.nodup, hb.seen, fun c hc => hb.cand c (hcand ▸ List.mem_cons_of_mem _ hc), hb.top,
            hb.distinct, hb.sorted, hb.few⟩
        have hroom : (⟨b.visited, rest, b.top⟩ : Beam V D).room univ ≤ b.room univ - 1 := by
          unfold Beam.room
          rw [hcand, List.length_cons]
          simp only
          omega
        have hpos : 0 < b.room univ := by
          unfold Beam.room
          rw [hcand, List.length_cons]
          omega
        refine (Meets.foldlM ⟨hpop, hroom⟩ fun b' n hn hb' => h.visit (hns n hn) hb').bind ?_
        rintro b' ⟨hinv, hle⟩
        exact ih hinv (by omega)

/-- **A search ends**, with at most `ef` vertices of the set, distinct and closest first. -/
theorem Explorable.beamSearch {fuel : Nat} {eps : List V} (heps : ∀ e ∈ eps, P e)
    (hfuel : univ.length < fuel) :
    Meets fails (Lib.beamSearch nbrs dist infinity stuck ef fuel eps) (Found P d ef) := by
  have hempty : BeamInv P d ef (⟨[], [], []⟩ : Beam V D) :=
    ⟨List.nodup_nil, by simp, by simp, by simp, by simp, List.Pairwise.nil, Nat.zero_le _⟩
  have hroom : (⟨[], [], []⟩ : Beam V D).room univ ≤ univ.length := by
    simp [Beam.room]
  refine (Meets.foldlM ⟨hempty, hroom⟩ fun b e he hb => h.start (heps e he) hb).bind ?_
  rintro b ⟨hinv, hle⟩
  exact h.loop hinv (by omega)

end Inv

end Okm.Lib
