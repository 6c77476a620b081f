import Mathlib.Data.List.Perm.Basic
import Mathlib.Data.List.ProdSigma
import Mathlib.Data.List.TakeWhile
import Mathlib.Order.Lattice
import Okm.Lib.Peekable

/-!
# The merge join

The model of `merge_join`: two key-ordered streams behind peekable iterators, the smaller
head dropped, and at equal heads the run of that key drained on both sides, each right entry
paired with the whole left run.

The specification is the relational equi-join, which pairs every left entry with every right
one and keeps the pairs of one key. What the loop has still to put out is the join of what is
left on both sides (`joinLoop_out`), so it puts out each pair as often as the specification
does, in key order. Neither stream is asked for an entry twice.
-/

namespace Okm.Query

open Lib

variable {K L R : Type} [LinearOrder K]

/-! ## Runs -/

section Runs

variable {V : Type}

/-- The entries at the front with the key of the run. -/
def runOf (runKey : K) (items : List (K × V)) : List (K × V) :=
  items.takeWhile fun e => e.1 = runKey

/-- What comes behind them. -/
def restOf (runKey : K) (items : List (K × V)) : List (K × V) :=
  items.dropWhile fun e => e.1 = runKey

/-- The entries of one key. -/
def ofKey (key : K) (items : List (K × V)) : List (K × V) :=
  items.filter fun e => e.1 = key

/-- Keys do not decrease. -/
def InOrder (items : List (K × V)) : Prop :=
  items.Pairwise fun a b => a.1 ≤ b.1

instance (items : List (K × V)) : Decidable (InOrder items) :=
  inferInstanceAs (Decidable (items.Pairwise fun a b => a.1 ≤ b.1))

variable {key runKey : K} {e : K × V} {items : List (K × V)}

theorem runOf_append_restOf (runKey : K) (items : List (K × V)) :
    runOf runKey items ++ restOf runKey items = items :=
  List.takeWhile_append_dropWhile

theorem runOf_cons_of_eq (h : e.1 = runKey) :
    runOf runKey (e :: items) = e :: runOf runKey items :=
  List.takeWhile_cons_of_pos (decide_eq_true h)

theorem restOf_cons_of_eq (h : e.1 = runKey) :
    restOf runKey (e :: items) = restOf runKey items :=
  List.dropWhile_cons_of_pos (decide_eq_true h)

theorem runOf_cons_of_ne (h : e.1 ≠ runKey) : runOf runKey (e :: items) = [] :=
  List.takeWhile_cons_of_neg (by simpa using h)

theorem restOf_cons_of_ne (h : e.1 ≠ runKey) : restOf runKey (e :: items) = e :: items :=
  List.dropWhile_cons_of_neg (by simpa using h)

theorem length_restOf_le (runKey : K) (items : List (K × V)) :
    (restOf runKey items).length ≤ items.length :=
  (List.dropWhile_suffix _).length_le

theorem mem_runOf (h : e ∈ runOf runKey items) : e.1 = runKey := by
  simpa using List.mem_takeWhile_imp h

theorem InOrder.rest (h : InOrder items) : InOrder (restOf runKey items) :=
  h.sublist (List.dropWhile_sublist _)

theorem InOrder.tail (h : InOrder (e :: items)) : InOrder items :=
  (List.pairwise_cons.mp h).2

theorem InOrder.forall_le (h : InOrder (e :: items)) (hle : key ≤ e.1) :
    ∀ a ∈ e :: items, key ≤ a.1 := by
  intro a ha
  rcases List.mem_cons.mp ha with rfl | ha
  · exact hle
  · exact hle.trans ((List.pairwise_cons.mp h).1 a ha)

theorem InOrder.forall_lt (h : InOrder (e :: items)) (hlt : key < e.1) :
    ∀ a ∈ e :: items, key < a.1 := by
  intro a ha
  exact lt_of_lt_of_le hlt (h.forall_le le_rfl a ha)

/-- **Behind the run every key is greater**, where no key is smaller. -/
theorem lt_of_mem_restOf (h : InOrder items) (hle : ∀ a ∈ items, runKey ≤ a.1) :
    ∀ a ∈ restOf runKey items, runKey < a.1 := by
  induction items with
  | nil => exact fun a ha => nomatch ha
  | cons b items ih =>
    obtain ⟨hfirst, htail⟩ := List.pairwise_cons.mp h
    by_cases hkey : b.1 = runKey
    · rw [restOf_cons_of_eq hkey]
      exact ih htail fun a ha => hle a (List.mem_cons_of_mem _ ha)
    · rw [restOf_cons_of_ne hkey]
      have hb : runKey < b.1 := lt_of_le_of_ne (hle b List.mem_cons_self) (Ne.symm hkey)
      intro a ha
      rcases List.mem_cons.mp ha with rfl | ha
      · exact hb
      · exact lt_of_lt_of_le hb (hfirst a ha)

theorem ofKey_eq_nil (h : ∀ a ∈ items, a.1 ≠ key) : ofKey key items = [] :=
  List.filter_eq_nil_iff.mpr fun a ha hkey => h a ha (of_decide_eq_true hkey)

theorem ofKey_eq_self (h : ∀ a ∈ items, a.1 = key) : ofKey key items = items :=
  List.filter_eq_self.mpr fun a ha => decide_eq_true (h a ha)

/-- The entries of the smallest key are the run. -/
theorem ofKey_run (h : InOrder items) (hle : ∀ a ∈ items, runKey ≤ a.1) :
    ofKey runKey items = runOf runKey items := by
  have hrest := lt_of_mem_restOf h hle
  calc ofKey runKey items
      = ofKey runKey (runOf runKey items) ++ ofKey runKey (restOf runKey items) := by
        rw [ofKey, ofKey, ofKey, ← List.filter_append, runOf_append_restOf]
    _ = runOf runKey items ++ [] := by
        rw [ofKey_eq_self fun a ha => mem_runOf ha,
          ofKey_eq_nil fun a ha => (hrest a ha).ne']
    _ = runOf runKey items := List.append_nil _

/-- The entries of any other key are behind it. -/
theorem ofKey_rest (hne : key ≠ runKey) : ofKey key items = ofKey key (restOf runKey items) := by
  calc ofKey key items
      = ofKey key (runOf runKey items) ++ ofKey key (restOf runKey items) := by
        rw [ofKey, ofKey, ofKey, ← List.filter_append, runOf_append_restOf]
    _ = ofKey key (restOf runKey items) := by
        rw [ofKey_eq_nil fun a ha => (mem_runOf ha).trans_ne hne.symm, List.nil_append]

end Runs

/-! ## Draining a run -/

/-- The first draining loop: the values of the run are pushed. -/
def drainLeft (runKey : K) (li : Peekable (K × L)) (lrun : List L) : List L × Peekable (K × L) :=
  match _h : li.peek.1 with
  | none => (lrun, li.peek.2)
  | some e =>
    if e.1 = runKey then
      drainLeft runKey li.peek.2.next.2 (lrun ++ (li.peek.2.next.1.map Prod.snd).toList)
    else (lrun, li.peek.2)
termination_by li.left.length
decreasing_by exact Peekable.left_next_lt _h

/-- The second: each entry of the run is put out with the whole left run. -/
def drainRight (runKey : K) (lrun : List L) (ri : Peekable (K × R)) (out : List (L × R)) :
    List (L × R) × Peekable (K × R) :=
  match _h : ri.peek.1 with
  | none => (out, ri.peek.2)
  | some e =>
    if e.1 = runKey then
      match ri.peek.2.next.1 with
      | none => (out, ri.peek.2.next.2)
      | some r => drainRight runKey lrun ri.peek.2.next.2 (out ++ lrun.map fun l => (l, r.2))
    else (out, ri.peek.2)
termination_by ri.left.length
decreasing_by exact Peekable.left_next_lt _h

/-- **The left run is drained**, and no more than the run. -/
theorem drainLeft_eq (runKey : K) (li : Peekable (K × L)) (lrun : List L) :
    (drainLeft runKey li lrun).1 = lrun ++ (runOf runKey li.left).map Prod.snd ∧
    (drainLeft runKey li lrun).2.left = restOf runKey li.left ∧
    ∀ n, Peekable.Honest n li → Peekable.Honest n (drainLeft runKey li lrun).2 := by
  induction hleft : li.left generalizing li lrun with
  | nil =>
    have hpeek : li.peek.1 = none := Peekable.peek_nil hleft
    rw [drainLeft]
    split
    · exact ⟨(List.append_nil _).symm, li.left_peek.trans hleft, fun n => Peekable.honest_peek⟩
    · rename_i e he
      rw [hpeek] at he
      cases he
  | cons a rest ih =>
    have hpeek : li.peek.1 = some a := Peekable.peek_cons hleft
    obtain ⟨hnext, hrest⟩ := Peekable.next_peek hleft
    rw [drainLeft]
    split
    · rename_i he
      rw [hpeek] at he
      cases he
    · rename_i e he
      obtain rfl : a = e := Option.some.inj (hpeek.symm.trans he)
      by_cases hkey : a.1 = runKey
      · obtain ⟨hrun, hleft', hhonest⟩ := ih li.peek.2.next.2 (lrun ++ [a.2]) hrest
        rw [if_pos hkey, hnext, runOf_cons_of_eq hkey, restOf_cons_of_eq hkey]
        refine ⟨?_, hleft', ?_⟩
        · exact hrun.trans (List.append_assoc _ _ _)
        · exact fun n hn => hhonest n (Peekable.honest_next_peek hn hleft)
      · rw [if_neg hkey, runOf_cons_of_ne hkey, restOf_cons_of_ne hkey]
        exact ⟨(List.append_nil _).symm, li.left_peek.trans hleft, fun n => Peekable.honest_peek⟩

/-- **The right run is drained**, each entry of it put out with all of `lrun`. -/
theorem drainRight_eq (runKey : K) (lrun : List L) (ri : Peekable (K × R)) (out : List (L × R)) :
    (drainRight runKey lrun ri out).1
      = out ++ (runOf runKey ri.left).flatMap (fun r => lrun.map fun l => (l, r.2)) ∧
    (drainRight runKey lrun ri out).2.left = restOf runKey ri.left ∧
    ∀ n, Peekable.Honest n ri → Peekable.Honest n (drainRight runKey lrun ri out).2 := by
  induction hleft : ri.left generalizing ri out with
  | nil =>
    have hpeek : ri.peek.1 = none := Peekable.peek_nil hleft
    rw [drainRight]
    split
    · exact ⟨(List.append_nil _).symm, ri.left_peek.trans hleft, fun n => Peekable.honest_peek⟩
    · rename_i e he
      rw [hpeek] at he
      cases he
  | cons a rest ih =>
    have hpeek : ri.peek.1 = some a := Peekable.peek_cons hleft
    obtain ⟨hnext, hrest⟩ := Peekable.next_peek hleft
    rw [drainRight]
    split
    · rename_i he
      rw [hpeek] at he
      cases he
    · rename_i e he
      obtain rfl : a = e := Option.some.inj (hpeek.symm.trans he)
      by_cases hkey : a.1 = runKey
      · obtain ⟨hrun, hleft', hhonest⟩ :=
          ih ri.peek.2.next.2 (out ++ lrun.map fun l => (l, a.2)) hrest
        rw [if_pos hkey, hnext, runOf_cons_of_eq hkey, restOf_cons_of_eq hkey]
        refine ⟨?_, hleft', ?_⟩
        · exact hrun.trans (List.append_assoc _ _ _)
        · exact fun n hn => hhonest n (Peekable.honest_next_peek hn hleft)
      · rw [if_neg hkey, runOf_cons_of_ne hkey, restOf_cons_of_ne hkey]
        exact ⟨(List.append_nil _).symm, ri.left_peek.trans hleft, fun n => Peekable.honest_peek⟩

/-! ## The join -/

/-- The loop: the smaller head is dropped, equal heads are drained on both sides. -/
def joinLoop (li : Peekable (K × L)) (ri : Peekable (K × R)) (out : List (L × R)) :
    List (L × R) × Peekable (K × L) × Peekable (K × R) :=
  match _hl : li.peek.1 with
  | none => (out, li.peek.2, ri)
  | some l =>
    match _hr : ri.peek.1 with
    | none => (out, li.peek.2, ri.peek.2)
    | some r =>
      match compare l.1 r.1 with
      | .lt => joinLoop li.peek.2.next.2 ri.peek.2 out
      | .gt => joinLoop li.peek.2 ri.peek.2.next.2 out
      | .eq =>
        match li.peek.2.next.1 with
        | none => (out, li.peek.2.next.2, ri.peek.2)
        | some (runKey, v0) =>
          let left := drainLeft runKey li.peek.2.next.2 [v0]
          let right := drainRight runKey left.1 ri.peek.2 out
          joinLoop left.2 right.2 right.1
termination_by li.left.length + ri.left.length
decreasing_by
  · have hlt := Peekable.left_next_lt _hl
    rw [ri.left_peek]
    omega
  · have hlt := Peekable.left_next_lt _hr
    rw [li.left_peek]
    omega
  · have hlt := Peekable.left_next_lt _hl
    rw [(drainLeft_eq _ _ _).2.1, (drainRight_eq _ _ _ _).2.1, ri.left_peek]
    have hl := length_restOf_le runKey li.peek.2.next.2.left
    have hr := length_restOf_le runKey ri.left
    omega

/-- `merge_join`. -/
def mergeJoin (left : List (K × L)) (right : List (K × R)) : List (L × R) :=
  (joinLoop (Peekable.of left) (Peekable.of right) []).1

/-- The pairs the loop has still to put out: for each right entry in order, the left entries of
its key in order. -/
def matched (left : List (K × L)) (right : List (K × R)) : List ((K × L) × (K × R)) :=
  right.flatMap fun r => (ofKey r.1 left).map fun l => (l, r)

/-- What is put out for a pair. -/
def valuesOf (p : (K × L) × (K × R)) : L × R := (p.1.2, p.2.2)

section Matched

variable {l : K × L} {r : K × R} {left : List (K × L)} {right : List (K × R)}

theorem matched_nil_left (right : List (K × R)) : matched ([] : List (K × L)) right = [] :=
  List.flatMap_eq_nil_iff.mpr fun _ _ => rfl

/-- A left entry smaller than every right one has no partner. -/
theorem matched_drop_left (h : ∀ b ∈ right, l.1 < b.1) :
    matched (l :: left) right = matched left right := by
  refine List.flatMap_congr fun b hb => ?_
  rw [ofKey, List.filter_cons_of_neg (by simpa using (h b hb).ne)]
  rfl

/-- Nor has a right entry smaller than every left one. -/
theorem matched_drop_right (h : ∀ a ∈ left, r.1 < a.1) :
    matched left (r :: right) = matched left right := by
  rw [matched, List.flatMap_cons, ofKey_eq_nil fun a ha => (h a ha).ne']
  rfl

/-- **Where both sides start with one key**, the two runs are paired and the rest is joined. -/
theorem matched_runs {runKey : K} (hl : InOrder left) (hr : InOrder right)
    (hle : ∀ a ∈ left, runKey ≤ a.1) (hle' : ∀ b ∈ right, runKey ≤ b.1) :
    matched left right = (runOf runKey right).flatMap
        (fun r => (runOf runKey left).map fun l => (l, r))
      ++ matched (restOf runKey left) (restOf runKey right) := by
  have hrest := lt_of_mem_restOf hr hle'
  calc matched left right
      = matched left (runOf runKey right) ++ matched left (restOf runKey right) := by
        rw [matched, matched, matched, ← List.flatMap_append, runOf_append_restOf]
    _ = _ := by
        congr 1
        · refine List.flatMap_congr fun r hmem => ?_
          rw [mem_runOf hmem, ofKey_run hl hle]
        · refine List.flatMap_congr fun r hmem => ?_
          rw [ofKey_rest (hrest r hmem).ne']

/-- The pairs of the two runs, as the drained right run puts them out. -/
theorem map_valuesOf_runs {K L R : Type} (lrun : List (K × L)) (rrun : List (K × R)) :
    (rrun.flatMap fun r => lrun.map fun l => (l, r)).map valuesOf
      = rrun.flatMap fun r => (lrun.map Prod.snd).map fun l => (l, r.2) := by
  rw [List.map_flatMap]
  refine List.flatMap_congr fun r _ => ?_
  rw [List.map_map, List.map_map]
  rfl

end Matched

/-! ## What the loop does -/

section Loop

variable {li : Peekable (K × L)} {ri : Peekable (K × R)} {l : K × L} {r : K × R}
  {ls : List (K × L)} {rs : List (K × R)} {out : List (L × R)}

theorem joinLoop_nil_left (hl : li.left = []) : joinLoop li ri out = (out, li.peek.2, ri) := by
  have hpeek := Peekable.peek_nil hl
  rw [joinLoop]
  split
  · rfl
  · rename_i l he
    rw [hpeek] at he
    cases he

theorem joinLoop_nil_right (hl : li.left = l :: ls) (hr : ri.left = []) :
    joinLoop li ri out = (out, li.peek.2, ri.peek.2) := by
  have hpeekl := Peekable.peek_cons hl
  have hpeekr := Peekable.peek_nil hr
  rw [joinLoop]
  split
  · rename_i he
    rw [hpeekl] at he
    cases he
  · split
    · rfl
    · rename_i r he
      rw [hpeekr] at he
      cases he

/-- The loop's body, at the heads of both sides. -/
theorem joinLoop_cons (hl : li.left = l :: ls) (hr : ri.left = r :: rs) (out : List (L × R)) :
    (l.1 < r.1 → joinLoop li ri out = joinLoop li.peek.2.next.2 ri.peek.2 out) ∧
    (r.1 < l.1 → joinLoop li ri out = joinLoop li.peek.2 ri.peek.2.next.2 out) ∧
    (l.1 = r.1 → joinLoop li ri out =
      joinLoop (drainLeft l.1 li.peek.2.next.2 [l.2]).2
        (drainRight l.1 (drainLeft l.1 li.peek.2.next.2 [l.2]).1 ri.peek.2 out).2
        (drainRight l.1 (drainLeft l.1 li.peek.2.next.2 [l.2]).1 ri.peek.2 out).1) := by
  have hpeekl := Peekable.peek_cons hl
  have hpeekr := Peekable.peek_cons hr
  have hnext := (Peekable.next_peek hl).1
  rw [joinLoop]
  split
  · rename_i he
    rw [hpeekl] at he
    cases he
  · rename_i l' he
    obtain rfl : l = l' := Option.some.inj (hpeekl.symm.trans he)
    split
    · rename_i he
      rw [hpeekr] at he
      cases he
    · rename_i r' he
      obtain rfl : r = r' := Option.some.inj (hpeekr.symm.trans he)
      refine ⟨fun hlt => ?_, fun hgt => ?_, fun heq => ?_⟩
      · rw [compare_lt_iff_lt.mpr hlt]
      · rw [compare_gt_iff_gt.mpr hgt]
      · rw [compare_eq_iff_eq.mpr heq, hnext]

/-- **The loop puts out the join of what is left**, and asks each side for an entry once. -/
theorem joinLoop_eq (li : Peekable (K × L)) (ri : Peekable (K × R)) (out : List (L × R))
    (hl : InOrder li.left) (hr : InOrder ri.left) :
    (joinLoop li ri out).1 = out ++ (matched li.left ri.left).map valuesOf ∧
    (∀ n, Peekable.Honest n li → Peekable.Honest n (joinLoop li ri out).2.1) ∧
    ∀ n, Peekable.Honest n ri → Peekable.Honest n (joinLoop li ri out).2.2 := by
  -- every turn takes at least one entry
  induction hsize : li.left.length + ri.left.length using Nat.strong_induction_on
    generalizing li ri out with
  | h size ih =>
    cases hleft : li.left with
    | nil =>
      rw [joinLoop_nil_left hleft, matched_nil_left]
      exact ⟨(List.append_nil _).symm, fun n => Peekable.honest_peek, fun n hn => hn⟩
    | cons l ls =>
      cases hright : ri.left with
      | nil =>
        rw [joinLoop_nil_right hleft hright]
        exact ⟨(List.append_nil _).symm, fun n => Peekable.honest_peek, fun n => Peekable.honest_peek⟩
      | cons r rs =>
        rw [hleft] at hl
        rw [hright] at hr
        obtain ⟨hlt, hgt, heq⟩ := joinLoop_cons hleft hright out
        have hlnext := (Peekable.next_peek hleft).2
        have hrnext := (Peekable.next_peek hright).2
        have hlpeek := li.left_peek.trans hleft
        have hrpeek := ri.left_peek.trans hright
        rw [hleft, hright, List.length_cons, List.length_cons] at hsize
        rcases lt_trichotomy l.1 r.1 with hkey | hkey | hkey
        · -- the left head is dropped: no right entry is as small
          have hdrop : matched (l :: ls) (r :: rs) = matched ls (r :: rs) :=
            matched_drop_left (hr.forall_lt hkey)
          have hsmaller : ls.length + (r :: rs).length < size := by
            rw [List.length_cons]
            omega
          obtain ⟨hout, hhl, hhr⟩ := ih _ hsmaller li.peek.2.next.2 ri.peek.2 out
            (hlnext ▸ hl.tail) (hrpeek ▸ hr) (by rw [hlnext, hrpeek])
          rw [hlt hkey, hdrop, hout, hlnext, hrpeek]
          exact ⟨rfl, fun n hn => hhl n (Peekable.honest_next_peek hn hleft),
            fun n hn => hhr n (Peekable.honest_peek hn)⟩
        · -- the two runs are drained and paired
          obtain ⟨hlrun, hlrest, hlhonest⟩ := drainLeft_eq l.1 li.peek.2.next.2 [l.2]
          obtain ⟨hrout, hrrest, hrhonest⟩ :=
            drainRight_eq l.1 (drainLeft l.1 li.peek.2.next.2 [l.2]).1 ri.peek.2 out
          rw [hlnext] at hlrun hlrest
          rw [hrpeek] at hrout hrrest
          have hruns := matched_runs hl hr (hl.forall_le le_rfl) (hr.forall_le hkey.le)
          rw [runOf_cons_of_eq rfl, restOf_cons_of_eq rfl] at hruns
          have hsmaller : (restOf l.1 ls).length + (restOf l.1 (r :: rs)).length < size := by
            have hl := length_restOf_le l.1 ls
            have hr := length_restOf_le l.1 (r :: rs)
            rw [List.length_cons] at hr
            omega
          obtain ⟨hout, hhl, hhr⟩ := ih _ hsmaller _ _
            (drainRight l.1 (drainLeft l.1 li.peek.2.next.2 [l.2]).1 ri.peek.2 out).1
            (hlrest ▸ hl.tail.rest) (hrrest ▸ hr.rest) (by rw [hlrest, hrrest])
          rw [heq hkey]
          refine ⟨?_, fun n hn => hhl n (hlhonest n (Peekable.honest_next_peek hn hleft)),
            fun n hn => hhr n (hrhonest n (Peekable.honest_peek hn))⟩
          rw [hout, hlrest, hrrest, hrout, hlrun, hruns, List.map_append, map_valuesOf_runs,
            List.append_assoc]
          rfl
        · -- the right head is dropped: no left entry is as small
          have hdrop : matched (l :: ls) (r :: rs) = matched (l :: ls) rs :=
            matched_drop_right (hl.forall_lt hkey)
          have hsmaller : (l :: ls).length + rs.length < size := by
            rw [List.length_cons]
            omega
          obtain ⟨hout, hhl, hhr⟩ := ih _ hsmaller li.peek.2 ri.peek.2.next.2 out
            (hlpeek ▸ hl) (hrnext ▸ hr.tail) (by rw [hlpeek, hrnext])
          rw [hgt hkey, hdrop, hout, hlpeek, hrnext]
          exact ⟨rfl, fun n hn => hhl n (Peekable.honest_peek hn),
            fun n hn => hhr n (Peekable.honest_next_peek hn hright)⟩

end Loop

/-! ## The relational join -/

/-- Every left entry with every right one, and of these the pairs of one key. -/
def equiJoin (left : List (K × L)) (right : List (K × R)) : List ((K × L) × (K × R)) :=
  (left ×ˢ right).filter fun p => p.1.1 = p.2.1

/-- The partners of one left entry. -/
theorem partners_eq (l : K × L) (right : List (K × R)) :
    ((right.map fun r => (l, r)).filter fun p => p.1.1 = p.2.1)
      = right.flatMap fun r => if l.1 = r.1 then [(l, r)] else [] := by
  induction right with
  | nil => rfl
  | cons r right ih =>
    by_cases hkey : l.1 = r.1
    · simpa [hkey] using ih
    · simpa [hkey] using ih

/-- **The pairs put out are those of the relational join**, each as often. -/
theorem matched_perm (left : List (K × L)) (right : List (K × R)) :
    (matched left right).Perm (equiJoin left right) := by
  induction left with
  | nil =>
    rw [matched_nil_left]
    exact List.Perm.nil
  | cons l left ih =>
    have hcons : matched (l :: left) right = right.flatMap fun r =>
        (if l.1 = r.1 then [(l, r)] else []) ++ (ofKey r.1 left).map fun l => (l, r) := by
      refine List.flatMap_congr fun r _ => ?_
      by_cases hkey : l.1 = r.1
      · simp [ofKey, hkey]
      · simp [ofKey, hkey]
    rw [hcons, equiJoin, List.product_cons, List.filter_append, partners_eq]
    exact (List.flatMap_append_perm _ _ _).symm.trans (List.Perm.append_left _ ih)

/-- The pairs stand in the order of their keys. -/
theorem matched_ordered (left : List (K × L)) {right : List (K × R)} (hr : InOrder right) :
    (matched left right).Pairwise fun p q => p.2.1 ≤ q.2.1 := by
  refine List.pairwise_flatMap.mpr ⟨fun r _ => ?_, hr.imp fun h p hp q hq => ?_⟩
  · exact List.pairwise_map.mpr (List.pairwise_of_forall fun _ _ => le_rfl)
  · obtain ⟨_, _, rfl⟩ := List.mem_map.mp hp
    obtain ⟨_, _, rfl⟩ := List.mem_map.mp hq
    exact h

/-- An input stream: entries in the order of their keys. -/
structure Stream (K V : Type) [LinearOrder K] where
  items : List (K × V)
  ordered : InOrder items

/-- **The merge join is the relational equi-join.** Its output is the values of the join's
pairs, in the order of their keys, each as often as the join has it, and each stream is asked
once for each entry and at most once more for its end. -/
theorem mergeJoin_equiJoin (left : Stream K L) (right : Stream K R) :
    (∃ pairs : List ((K × L) × (K × R)),
      mergeJoin left.items right.items = pairs.map valuesOf ∧
      pairs.Perm (equiJoin left.items right.items) ∧
      pairs.Pairwise fun p q => p.1.1 ≤ q.1.1) ∧
    (joinLoop (Peekable.of left.items) (Peekable.of right.items) []).2.1.source.asked
      ≤ left.items.length + 1 ∧
    (joinLoop (Peekable.of left.items) (Peekable.of right.items) []).2.2.source.asked
      ≤ right.items.length + 1 := by
  obtain ⟨hout, hleft, hright⟩ :=
    joinLoop_eq (Peekable.of left.items) (Peekable.of right.items) [] left.ordered right.ordered
  have hperm := matched_perm left.items right.items
  have hkey : ∀ p ∈ matched left.items right.items, p.1.1 = p.2.1 := by
    intro p hp
    exact of_decide_eq_true (List.mem_filter.mp (hperm.mem_iff.mp hp)).2
  refine ⟨⟨matched left.items right.items, hout, hperm, ?_⟩, ?_, ?_⟩
  · refine (matched_ordered left.items right.ordered).imp_of_mem fun hp hq hle => ?_
    rw [hkey _ hp, hkey _ hq]
    exact hle
  · exact (hleft _ (Peekable.honest_of _)).asked_le
  · exact (hright _ (Peekable.honest_of _)).asked_le

/-- Two entries under 1, a key without a partner, one under 4. -/
def guests : Stream Nat String := ⟨[(1, "a"), (1, "b"), (2, "c"), (4, "d")], by decide⟩

/-- Two entries under 1, a key without a partner, two under 4. -/
def tables : Stream Nat Bool :=
  ⟨[(1, true), (1, false), (3, true), (4, false), (4, true)], by decide⟩

/-- Runs of two on both sides: all four pairs of the key, and neither stream read past its end. -/
theorem mergeJoin_equiJoin_runs :
    mergeJoin guests.items tables.items = [("a", true), ("b", true), ("a", false), ("b", false),
      ("d", false), ("d", true)] ∧
    (∃ pairs : List ((Nat × String) × (Nat × Bool)),
      mergeJoin guests.items tables.items = pairs.map valuesOf ∧
      pairs.Perm (equiJoin guests.items tables.items) ∧
      pairs.Pairwise fun p q => p.1.1 ≤ q.1.1) ∧
    (joinLoop (Peekable.of guests.items) (Peekable.of tables.items) []).2.1.source.asked ≤ 5 ∧
    (joinLoop (Peekable.of guests.items) (Peekable.of tables.items) []).2.2.source.asked ≤ 6 :=
  ⟨by decide +kernel, mergeJoin_equiJoin guests tables⟩

end Okm.Query
