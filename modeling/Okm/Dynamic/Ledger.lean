import Okm.Dynamic.Entries
import Okm.Lib.Tally

/-!
# The passes of a runtime table over its reduces

A pass over the reduces unfolds the stored row from its groups, or folds the new one into its
own; a plan makes both, the second over what the first has left. Whatever the logic, a group
with a row in it has an accumulator, so the early end of a pass, at a group that has none, does
not come (`Present`). Where the logic takes a fold back and lets folds change places, the two
passes keep every group the tally of its rows (`Ledger`).

It is over stored rows that a group is tallied. A logic is to see no difference between a row
as it was put and as it is stored.
-/

namespace Okm.Dynamic

open Lib Model VirtualStorage

namespace DynamicCollection

variable {t : DynamicCollection} {store : Keyspace}

/-! ## One pass -/

/-- An accumulator as a pass reads it: what it wrote itself, else the store's. -/
def accIn (st : Reducing) (store : Keyspace) (k : Bytes) : Option Bytes :=
  (st.written.get k).or (store.get k)

/-- The key of a group. -/
abbrev cell (t : DynamicCollection) (r : BoundReduce) (g : Bytes) : Bytes := faceKey t.ns r.slot g

/-- The bytes of a row's group. -/
def groupOf (t : DynamicCollection) (r : BoundReduce) (key document : ValueMap) :
    Except TableError Bytes := r.groupBytes t.schema.toCollectionSchema key document

/-- The logic of a pass. -/
def BoundReduce.turn (r : BoundReduce) (add : Bool) :
    Bytes → ValueMap → ValueMap → Guarded Abort LogicError Bytes :=
  if add then r.logic.fold else r.logic.unfold

/-- What a pass does with one reduce. -/
def Turned (t : DynamicCollection) (store : Keyspace) (key document : ValueMap) (add : Bool)
    (st st' : Reducing) (r : BoundReduce) : Prop :=
  ∃ g acc, t.groupOf r key document = .ok g ∧
    BoundReduce.turn r add ((accIn st store (t.cell r g)).getD r.logic.seed) key document
      = answer acc ∧
    accIn st' store (t.cell r g) = some acc

theorem entryKey_ok {r : BoundReduce} {key document : ValueMap} {ek : Bytes}
    (h : r.entryKey t.schema.toCollectionSchema t.ns key document = .ok ek) :
    ∃ g, t.groupOf r key document = .ok g ∧ ek = t.cell r g := by
  unfold BoundReduce.entryKey at h
  unfold groupOf
  cases hg : r.groupBytes t.schema.toCollectionSchema key document with
  | error e =>
    rw [hg] at h
    cases h
  | ok g =>
    rw [hg] at h
    exact ⟨g, rfl, (Except.ok.inj h).symm⟩

theorem cell_inj {r r' : BoundReduce} {g g' : Bytes} (h : t.cell r g = t.cell r' g') :
    r.slot = r'.slot ∧ g = g' := (faceKey_inj _ _ _ _ _).mp h

/-- **One pass over the reduces**, when every group to be unfolded from is there: each reduce
takes its turn, and nothing else changes. -/
theorem reduceLoop_turns {key document : ValueMap} {add : Bool} {rs : List BoundReduce}
    {st st' : Reducing} (hslots : (rs.map BoundReduce.slot).Nodup)
    (hpresent : add = false → ∀ r ∈ rs, ∀ g, t.groupOf r key document = .ok g →
      accIn st store (t.cell r g) ≠ none)
    (h : t.reduceLoop (accsOf store) key document add rs st = answer st') :
    (∀ r ∈ rs, Turned t store key document add st st' r) ∧
    ∀ k, (∀ r ∈ rs, ∀ g, t.groupOf r key document = .ok g → k ≠ t.cell r g) →
      accIn st' store k = accIn st store k := by
  induction rs generalizing st with
  | nil =>
    obtain rfl := Guarded.answer.inj h
    exact ⟨by simp, fun _ _ => rfl⟩
  | cons r rest ih =>
    rw [List.map_cons, List.nodup_cons] at hslots
    obtain ⟨hfresh, hslots⟩ := hslots
    unfold reduceLoop at h
    obtain ⟨ek, hek, h⟩ := Guarded.bind_eq_answer.mp h
    obtain ⟨g, hg, rfl⟩ := entryKey_ok (Guarded.lift_eq_answer.mp hek)
    obtain ⟨found, hfound, h⟩ := Guarded.bind_eq_answer.mp h
    have hacc : found = accIn st store (t.cell r g) := by
      have hfound := Guarded.lift_eq_answer.mp hfound
      unfold accIn
      cases hw : st.written.get (t.cell r g) with
      | some acc =>
        rw [hw] at hfound
        exact (Except.ok.inj hfound).symm
      | none =>
        rw [hw] at hfound
        exact (Except.ok.inj hfound).symm
    have hgo : ¬ (found = none ∧ add = false) := by
      rintro ⟨hnone, hadd⟩
      exact hpresent hadd r List.mem_cons_self g hg (hacc ▸ hnone)
    rw [if_neg hgo] at h
    obtain ⟨acc, hturn, h⟩ := Guarded.bind_eq_answer.mp h
    have hturn := Guarded.mapRefuse_eq_answer.mp hturn
    generalize hnext : ({ ops := st.ops ++ [(t.cell r g, some acc)]
                          newAccs := st.newAccs ++ [(t.cell r g, acc)]
                          written := st.written.insert (t.cell r g) acc } : Reducing) = next at h
    have hview : ∀ k, accIn next store k
        = if k = t.cell r g then some acc else accIn st store k := by
      intro k
      rw [← hnext]
      unfold accIn
      rw [SortedMap.get_insert]
      split <;> rfl
    -- the groups of the reduces to come are in other slots
    have hother : ∀ r' ∈ rest, ∀ g', t.cell r' g' ≠ t.cell r g := by
      intro r' hr' g' heq
      exact hfresh (List.mem_map.mpr ⟨r', hr', (cell_inj heq).1⟩)
    obtain ⟨hturns, hrest⟩ := ih hslots (fun hadd r' hr' g' hg' => by
      rw [hview, if_neg (hother r' hr' g')]
      exact hpresent hadd r' (List.mem_cons_of_mem _ hr') g' hg') h
    refine ⟨List.forall_mem_cons.mpr ⟨⟨g, acc, hg, ?_, ?_⟩, fun r' hr' => ?_⟩, fun k hk => ?_⟩
    · rw [← hacc]
      unfold BoundReduce.turn
      cases add <;> exact hturn
    · rw [hrest _ fun r' hr' g' _ => Ne.symm (hother r' hr' g'), hview, if_pos rfl]
    · obtain ⟨g', acc', hg', hturn', hview'⟩ := hturns r' hr'
      rw [hview, if_neg (hother r' hr' g')] at hturn'
      exact ⟨g', acc', hg', hturn', hview'⟩
    · rw [hrest k fun r' hr' => hk r' (List.mem_cons_of_mem _ hr'), hview,
        if_neg (hk r List.mem_cons_self g hg)]

/-- A pass that unfolds answers when each of its reduces would. -/
theorem reduceLoop_answers {key document : ValueMap} {rs : List BoundReduce} {st : Reducing}
    (hslots : (rs.map BoundReduce.slot).Nodup)
    (hunfold : ∀ r ∈ rs, ∃ g acc, t.groupOf r key document = .ok g ∧
      r.logic.unfold ((accIn st store (t.cell r g)).getD r.logic.seed) key document = answer acc) :
    ∃ st', t.reduceLoop (accsOf store) key document false rs st = answer st' := by
  induction rs generalizing st with
  | nil => exact ⟨st, rfl⟩
  | cons r rest ih =>
    rw [List.map_cons, List.nodup_cons] at hslots
    obtain ⟨hfresh, hslots⟩ := hslots
    obtain ⟨g, acc, hg, hacc⟩ := hunfold r List.mem_cons_self
    have hek : r.entryKey t.schema.toCollectionSchema t.ns key document = .ok (t.cell r g) := by
      unfold groupOf at hg
      unfold BoundReduce.entryKey
      rw [hg]
      rfl
    have hfound : (st.written.get (t.cell r g)).elim (accsOf store (t.cell r g))
        (fun acc => .ok (some acc)) = .ok (accIn st store (t.cell r g)) := by
      unfold accIn
      cases st.written.get (t.cell r g) <;> rfl
    unfold reduceLoop
    rw [hek, Guarded.lift, Guarded.answer_bind, hfound, Guarded.lift, Guarded.answer_bind]
    split
    · exact ⟨st, rfl⟩
    · simp only [Bool.false_eq_true, if_false]
      rw [hacc, Guarded.mapRefuse, Guarded.answer_bind]
      refine ih hslots fun r' hr' => ?_
      obtain ⟨g', acc', hg', hacc'⟩ := hunfold r' (List.mem_cons_of_mem _ hr')
      refine ⟨g', acc', hg', ?_⟩
      have hne : t.cell r' g' ≠ t.cell r g := fun heq =>
        hfresh (List.mem_map.mpr ⟨r', hr', (cell_inj heq).1⟩)
      have hsame : accIn { ops := st.ops ++ [(t.cell r g, some acc)]
                           newAccs := st.newAccs ++ [(t.cell r g, acc)]
                           written := st.written.insert (t.cell r g) acc } store (t.cell r' g')
          = accIn st store (t.cell r' g') := by
        unfold accIn
        rw [SortedMap.get_insert, if_neg hne]
      rw [hsame]
      exact hacc'

/-- A pass takes no accumulator away. -/
theorem reduceLoop_keeps {key document : ValueMap} {add : Bool} {rs : List BoundReduce}
    {st st' : Reducing} (h : t.reduceLoop (accsOf store) key document add rs st = answer st')
    {k : Bytes} (hk : accIn st store k ≠ none) : accIn st' store k ≠ none := by
  induction rs generalizing st with
  | nil =>
    obtain rfl := Guarded.answer.inj h
    exact hk
  | cons r rest ih =>
    unfold reduceLoop at h
    obtain ⟨ek, -, h⟩ := Guarded.bind_eq_answer.mp h
    obtain ⟨found, -, h⟩ := Guarded.bind_eq_answer.mp h
    split at h
    · obtain rfl := Guarded.answer.inj h
      exact hk
    · obtain ⟨acc, -, h⟩ := Guarded.bind_eq_answer.mp h
      refine ih h ?_
      unfold accIn at hk ⊢
      rw [SortedMap.get_insert]
      split
      · exact Option.some_ne_none _
      · exact hk

/-- What the operations of a pass write is what the pass reads. -/
def Mirrored (st : Reducing) : Prop :=
  ∀ k, pending (putOps st.newAccs) k = (st.written.get k).map some

theorem reduceLoop_mirrored {accOf : AccOf} {key document : ValueMap} {add : Bool}
    {rs : List BoundReduce} {st st' : Reducing} (hst : Mirrored st)
    (h : t.reduceLoop accOf key document add rs st = answer st') : Mirrored st' := by
  induction rs generalizing st with
  | nil =>
    obtain rfl := Guarded.answer.inj h
    exact hst
  | cons r rest ih =>
    unfold reduceLoop at h
    obtain ⟨ek, -, h⟩ := Guarded.bind_eq_answer.mp h
    obtain ⟨found, -, h⟩ := Guarded.bind_eq_answer.mp h
    split at h
    · obtain rfl := Guarded.answer.inj h
      exact hst
    · obtain ⟨acc, -, h⟩ := Guarded.bind_eq_answer.mp h
      refine ih (fun k => ?_) h
      have hsplit : putOps (st.newAccs ++ [(ek, acc)]) = putOps st.newAccs ++ [(ek, some acc)] :=
        List.map_append ..
      dsimp only
      rw [hsplit, pending_concat, SortedMap.get_insert]
      by_cases hk : k = ek
      · rw [if_pos hk, if_pos hk.symm]
        rfl
      · rw [if_neg hk, if_neg (Ne.symm hk)]
        exact hst k

theorem planReduces_loop {accOf : AccOf} {pkey : Bytes} {document : ValueMap} {add : Bool}
    {st st' : Reducing} (h : t.planReduces accOf pkey document add st = answer st') :
    t.reduceLoop accOf (t.keyOf pkey) document add t.reduces st = answer st' := by
  unfold planReduces at h
  obtain ⟨key, hkey, h⟩ := Guarded.bind_eq_answer.mp h
  rw [keyOf_of_decode (Guarded.mapRefuse_eq_answer.mp hkey)]
  exact h

/-! ## The group of a stored row -/

/-- **A row as it is stored is in the group of the row that was put.** -/
theorem groupOf_settled (ready : Readable t.table) {r : BoundReduce} {key document : ValueMap}
    {g : Bytes} (h : t.groupOf r key document = .ok g) :
    t.groupOf r key (t.settledRow document) = .ok g := by
  have hall : ∀ (names : List String) g,
      groupFieldsBytes t.schema.toCollectionSchema key document names = .ok g →
      groupFieldsBytes t.schema.toCollectionSchema key (t.settledRow document) names = .ok g := by
    intro names
    induction names with
    | nil => exact fun g h => h
    | cons name names ih =>
      intro g h
      rw [groupFieldsBytes] at h
      obtain ⟨bytes, hbytes, h⟩ := bind_eq_ok.mp h
      cases hrest : groupFieldsBytes t.schema.toCollectionSchema key document names with
      | error e =>
        rw [hrest] at h
        cases h
      | ok rest =>
        rw [hrest] at h
        have hfield : groupField t.schema.toCollectionSchema key (t.settledRow document) name
            = .ok bytes := by
          unfold groupField at hbytes ⊢
          -- key fields are not settled
          cases hkey : isKeyField t.schema.toCollectionSchema name with
          | true =>
            rw [hkey] at hbytes
            exact hbytes
          | false =>
            rw [hkey] at hbytes
            simp only [Bool.false_eq_true, if_false] at hbytes ⊢
            cases hf : findPayload t.schema.toCollectionSchema name with
            | none =>
              rw [hf] at hbytes
              cases hbytes
            | some f =>
              rw [hf] at hbytes
              cases hv : document.get name with
              | none =>
                rw [hv] at hbytes
                cases hbytes
              | some v =>
                rw [hv] at hbytes
                dsimp only at hbytes
                -- a payload field can only group by types that are kept exactly
                have hexact : settled f.ty v = v := by
                  refine settled_of_exact ?_ v
                  cases hty : f.ty <;> first | rfl | (rw [hty] at hbytes; cases hbytes)
                have hget := @get_settledRow_exact t ready document name f v hf hv hexact
                rw [hget]
                exact hbytes
        rw [groupFieldsBytes, hfield]
        change Except.map _ (groupFieldsBytes _ key (t.settledRow document) names) = _
        rw [ih rest hrest]
        exact h
  exact hall r.groupFields g h

/-! ## Ledgers -/

/-- The rows of the documents. -/
abbrev Rows := Bytes → Option ValueMap

/-- The row of a key is in the group. -/
def InGroup (t : DynamicCollection) (r : BoundReduce) (g pkey : Bytes) (row : Option ValueMap) :
    Prop := ∃ document, row = some document ∧ t.groupOf r (t.keyOf pkey) document = .ok g

/-- **Every row has its group, and every group with a row has an accumulator.** -/
def Present (t : DynamicCollection) (rows : Rows) (read : Bytes → Option Bytes) : Prop :=
  ∀ r ∈ t.reduces, ∀ pkey row, rows pkey = some row →
    ∃ g, t.groupOf r (t.keyOf pkey) row = .ok g ∧ read (t.cell r g) ≠ none

/-- A decoded key and a row: what a logic folds. -/
abbrev Folded := ValueMap × ValueMap

def BoundReduce.folds (r : BoundReduce) (acc : Bytes) (x : Folded) :
    Guarded Abort LogicError Bytes := r.logic.fold acc x.1 x.2

def BoundReduce.unfolds (r : BoundReduce) (acc : Bytes) (x : Folded) :
    Guarded Abort LogicError Bytes := r.logic.unfold acc x.1 x.2

/-- The member of a group a key stands for. -/
def member (t : DynamicCollection) (rows : Rows) (pkey : Bytes) : Folded :=
  (t.keyOf pkey, (rows pkey).getD SortedMap.empty)

/-- **A logic whose accumulators depend on the rows alone**, as they are stored. -/
structure Lawful (t : DynamicCollection) (r : BoundReduce) (good : Bytes → Prop) : Prop where
  seed : good r.logic.seed
  laws : Reversible good (BoundReduce.folds r) (BoundReduce.unfolds r)
  settled : ∀ acc key document,
    r.logic.fold acc key (t.settledRow document) = r.logic.fold acc key document

/-- The accumulator of a group is what its rows tally to. -/
structure Tallied (t : DynamicCollection) (r : BoundReduce) (rows : Rows) (g : Bytes)
    (acc : Option Bytes) (members : List Bytes) : Prop where
  nodup : members.Nodup
  mem : ∀ pkey, pkey ∈ members ↔ t.InGroup r g pkey (rows pkey)
  tally : Tallies (BoundReduce.folds r) r.logic.seed (members.map (t.member rows))
    (acc.getD r.logic.seed)
  absent : acc = none → members = []

/-- Every group of the reduce is tallied. -/
def Ledger (t : DynamicCollection) (r : BoundReduce) (rows : Rows) (read : Bytes → Option Bytes) :
    Prop := ∀ g, ∃ members, Tallied t r rows g (read (t.cell r g)) members

section

variable {r : BoundReduce} {rows : Rows} {read read' : Bytes → Option Bytes} {pkey : Bytes}
  {good : Bytes → Prop}

/-- A group the row of the key is not in keeps its members. -/
theorem Tallied.update {g : Bytes} {acc : Option Bytes} {members : List Bytes}
    (h : Tallied t r rows g acc members) {new : Option ValueMap}
    (hbefore : ¬ t.InGroup r g pkey (rows pkey)) (hafter : ¬ t.InGroup r g pkey new) :
    Tallied t r (Function.update rows pkey new) g acc members := by
  have hout : pkey ∉ members := fun hmem => hbefore ((h.mem pkey).mp hmem)
  refine ⟨h.nodup, fun p => ?_, ?_, h.absent⟩
  · by_cases hp : p = pkey
    · subst hp
      rw [Function.update_self]
      exact iff_of_false hout hafter
    · rw [Function.update_of_ne hp]
      exact h.mem p
  · have hsame : members.map (t.member (Function.update rows pkey new))
        = members.map (t.member rows) := by
      refine List.map_congr_left fun p hp => ?_
      have hne : p ≠ pkey := fun heq => hout (heq ▸ hp)
      unfold member
      rw [Function.update_of_ne hne]
    rw [hsame]
    exact h.tally

/-- **A row of a lawful group can be taken back**, whenever it came in. -/
theorem Tallied.undo {g : Bytes} {acc : Option Bytes} {members : List Bytes}
    (h : Tallied t r rows g acc members) (lawful : Lawful t r good) {old : ValueMap}
    (hrow : rows pkey = some old) (hg : t.groupOf r (t.keyOf pkey) old = .ok g) :
    ∃ b, r.logic.unfold (acc.getD r.logic.seed) (t.keyOf pkey) old = answer b ∧
      Tallies (BoundReduce.folds r) r.logic.seed ((members.erase pkey).map (t.member rows)) b := by
  have hin : pkey ∈ members := (h.mem pkey).mpr ⟨old, hrow, hg⟩
  -- the row is the last of the members to be folded
  have hperm : (members.map (t.member rows)).Perm
      ((members.erase pkey).map (t.member rows) ++ [t.member rows pkey]) := by
    have hfirst := (List.perm_cons_erase hin).map (t.member rows)
    rw [List.map_cons] at hfirst
    exact hfirst.trans (List.perm_append_singleton _ _).symm
  obtain ⟨b, hb, htally⟩ := lawful.laws.leave lawful.seed hperm h.tally
  have hmember : t.member rows pkey = (t.keyOf pkey, old) := by
    unfold member
    rw [hrow]
    rfl
  rw [hmember] at hb
  exact ⟨b, hb, htally⟩

/-- **The row of a key leaves its group.** -/
theorem Ledger.leave (lawful : Lawful t r good) (h : Ledger t r rows read) {old : ValueMap}
    (hrow : rows pkey = some old)
    (hturn : ∀ g, t.groupOf r (t.keyOf pkey) old = .ok g → ∃ acc,
      r.logic.unfold ((read (t.cell r g)).getD r.logic.seed) (t.keyOf pkey) old = answer acc ∧
      read' (t.cell r g) = some acc)
    (hother : ∀ g, t.groupOf r (t.keyOf pkey) old ≠ .ok g → read' (t.cell r g) = read (t.cell r g)) :
    Ledger t r (Function.update rows pkey none) read' := by
  intro g
  obtain ⟨members, hmembers⟩ := h g
  have hnone : ¬ t.InGroup r g pkey none := by
    rintro ⟨document, hdocument, -⟩
    cases hdocument
  by_cases hg : t.groupOf r (t.keyOf pkey) old = .ok g
  · -- the group it was in: one member less, unfolded from what is there
    obtain ⟨acc, hunfold, hacc⟩ := hturn g hg
    have hin : pkey ∈ members := (hmembers.mem pkey).mpr ⟨old, hrow, hg⟩
    refine ⟨members.erase pkey, hmembers.nodup.erase pkey, fun p => ?_, ?_, fun habsent => ?_⟩
    · rw [hmembers.nodup.mem_erase_iff]
      by_cases hp : p = pkey
      · subst hp
        rw [Function.update_self]
        exact iff_of_false (fun h => h.1 rfl) hnone
      · rw [Function.update_of_ne hp, ← hmembers.mem p]
        exact and_iff_right hp
    · obtain ⟨b, hb, htally⟩ := hmembers.undo lawful hrow hg
      obtain rfl := Guarded.answer.inj (hunfold.symm.trans hb)
      have hsame : (members.erase pkey).map (t.member (Function.update rows pkey none))
          = (members.erase pkey).map (t.member rows) := by
        refine List.map_congr_left fun p hp => ?_
        have hne : p ≠ pkey := (hmembers.nodup.mem_erase_iff.mp hp).1
        unfold member
        rw [Function.update_of_ne hne]
      rw [hsame, hacc]
      exact htally
    · rw [hacc] at habsent
      cases habsent
  · -- any other group keeps its members
    refine ⟨members, ?_⟩
    rw [hother g hg]
    refine hmembers.update ?_ hnone
    rintro ⟨document, hdocument, hgroup⟩
    obtain rfl := Option.some.inj (hrow.symm.trans hdocument)
    exact hg hgroup

/-- **A row comes into its group.** -/
theorem Ledger.enter (ready : Readable t.table) (lawful : Lawful t r good) (h : Ledger t r rows read)
    {document : ValueMap} (hrow : rows pkey = none)
    {g₁ : Bytes} (hg₁ : t.groupOf r (t.keyOf pkey) document = .ok g₁) {acc : Bytes}
    (hturn : r.logic.fold ((read (t.cell r g₁)).getD r.logic.seed) (t.keyOf pkey) document
      = answer acc)
    (hacc : read' (t.cell r g₁) = some acc)
    (hother : ∀ g, g ≠ g₁ → read' (t.cell r g) = read (t.cell r g)) :
    Ledger t r (Function.update rows pkey (some (t.settledRow document))) read' := by
  intro g
  obtain ⟨members, hmembers⟩ := h g
  have hout : ¬ t.InGroup r g pkey (rows pkey) := by
    rintro ⟨document', hdocument, -⟩
    rw [hrow] at hdocument
    cases hdocument
  have hsettled := groupOf_settled ready hg₁
  -- the row enters one group
  have hin : t.InGroup r g pkey (some (t.settledRow document)) ↔ g = g₁ := by
    constructor
    · rintro ⟨document', hdocument, hgroup⟩
      obtain rfl := Option.some.inj hdocument
      exact Except.ok.inj (hgroup.symm.trans hsettled)
    · rintro rfl
      exact ⟨_, rfl, hsettled⟩
  by_cases hg : g = g₁
  · subst hg
    have hnew : pkey ∉ members := fun hmem => hout ((hmembers.mem pkey).mp hmem)
    -- as the last member, folded into what the group had
    refine ⟨members ++ [pkey], ?_, fun p => ?_, ?_, fun habsent => ?_⟩
    · rw [List.nodup_append]
      refine ⟨hmembers.nodup, List.nodup_singleton pkey, fun a ha b hb hab => hnew ?_⟩
      rw [← List.mem_singleton.mp hb, ← hab]
      exact ha
    · rw [List.mem_append, List.mem_singleton]
      by_cases hp : p = pkey
      · subst hp
        rw [Function.update_self]
        exact iff_of_true (Or.inr rfl) (hin.mpr rfl)
      · rw [Function.update_of_ne hp, ← hmembers.mem p]
        exact or_iff_left hp
    · have hsame : members.map (t.member (Function.update rows pkey (some (t.settledRow document))))
          = members.map (t.member rows) := by
        refine List.map_congr_left fun p hp => ?_
        have hne : p ≠ pkey := fun heq => hnew (heq ▸ hp)
        unfold member
        rw [Function.update_of_ne hne]
      have hmember : t.member (Function.update rows pkey (some (t.settledRow document))) pkey
          = (t.keyOf pkey, t.settledRow document) := by
        unfold member
        rw [Function.update_self]
        rfl
      rw [List.map_append, hsame, List.map_singleton, hmember, hacc]
      refine tallies_concat.mpr ⟨_, hmembers.tally, ?_⟩
      unfold BoundReduce.folds
      rw [lawful.settled]
      exact hturn
    · rw [hacc] at habsent
      cases habsent
  · refine ⟨members, ?_⟩
    rw [hother g hg]
    exact hmembers.update hout (mt hin.mp hg)

theorem Ledger.congr {rows' : Rows} (h : Ledger t r rows read) (hrows : ∀ p, rows' p = rows p)
    (hread : ∀ g, read' (t.cell r g) = read (t.cell r g)) : Ledger t r rows' read' := by
  obtain rfl : rows' = rows := funext hrows
  intro g
  rw [hread g]
  exact h g

end

/-! ## What a row's arm does to the groups -/

theorem reduce_slots (t : DynamicCollection) : (t.reduces.map BoundReduce.slot).Nodup := by
  have hvals := (List.nodup_append.mp t.apart).2.1
  have hmap : t.reduces.map (fun r => r.slot.val) = (t.reduces.map BoundReduce.slot).map Slot.val := by
    rw [List.map_map]
    rfl
  rw [hmap] at hvals
  exact hvals.of_map

theorem reduce_of_slot {r r' : BoundReduce} (h : r ∈ t.reduces) (h' : r' ∈ t.reduces)
    (heq : r.slot = r'.slot) : r = r' := List.inj_on_of_nodup_map t.reduce_slots h h' heq

theorem cell_face {r : BoundReduce} (h : r ∈ t.reduces) (g : Bytes) : t.ReduceFace (t.cell r g) :=
  ⟨r, h, g, rfl⟩

/-- The two passes over one row: its old state leaves, its new one comes in. -/
structure RowPasses (t : DynamicCollection) (store : Keyspace) (pkey : Bytes)
    (old new : Option ValueMap) (swept folded : Reducing) : Prop where
  first : old.elim (answer {}) (fun old => t.planReduces (accsOf store) pkey old false {})
    = answer swept
  second : new.elim (answer swept)
    (fun document => t.planReduces (accsOf store) pkey document true swept) = answer folded

/-- **What a row's plan leaves at the groups** is what its second pass reads. -/
theorem RowPlanned.groups {pkey : Bytes} {old new : Option ValueMap} {p : RowParts}
    (h : RowPlanned t (accsOf store) pkey old new p) : ∃ swept folded : Reducing,
      RowPasses t store pkey old new swept folded ∧
      ∀ k, t.ReduceFace k → (pending (p.ops t pkey) k).getD (store.get k) = accIn folded store k := by
  obtain ⟨swept, folded, hswept, hfolded, haccs, -⟩ := h.accs
  refine ⟨swept, folded, ⟨hswept, hfolded⟩, fun k hk => ?_⟩
  have hfirst : Mirrored swept := by
    cases old with
    | none =>
      obtain rfl := Guarded.answer.inj hswept
      exact fun _ => rfl
    | some document => exact reduceLoop_mirrored (fun _ => rfl) (planReduces_loop hswept)
  have hmirrored : Mirrored folded := by
    cases new with
    | none =>
      obtain rfl := Guarded.answer.inj hfolded
      exact hfirst
    | some document => exact reduceLoop_mirrored hfirst (planReduces_loop hfolded)
  obtain ⟨hdropped, -, hentries⟩ := h.faces
  have hprimary : t.primaryKey pkey ≠ k :=
    Ne.symm (hk.counting.ne_fixed (show primarySlot.val ≤ 0x0F by decide) pkey)
  have hputs : pending (putOps p.entries) k = none := by
    refine pending_eq_none fun op hop heq => ?_
    obtain ⟨e, he, rfl⟩ := List.mem_map.mp hop
    exact (hentries e he).not_reduce (heq ▸ hk)
  have hdels : pending (delOps p.dropped) k = none := by
    refine pending_eq_none fun op hop heq => ?_
    obtain ⟨key, hkey, rfl⟩ := List.mem_map.mp hop
    obtain rfl : key = k := heq
    exact (hdropped key hkey).not_reduce hk
  rw [RowParts.ops, pending_append, hputs, Option.none_or, pending_concat, if_neg hprimary,
    pending_append, hdels, Option.or_none, haccs, hmirrored k]
  unfold accIn
  cases folded.written.get k <;> rfl

/-- A segment's arm leaves the groups alone. -/
theorem SegmentArm.groups {labels more : List String} {pkey : Bytes} {old change : Option ValueMap}
    {ops : List (Op Bytes Bytes)} (h : SegmentArm t labels pkey old change more ops) {k : Bytes}
    (hk : t.ReduceFace k) : pending ops k = none := by
  have hfields : fieldsKey t.ns pkey ≠ k :=
    Ne.symm (hk.counting.ne_fixed (show dynamicSlot.val ≤ 0x0F by decide) pkey)
  have hpath : ∀ fields write, pending (t.pathEntryOps pkey fields write) k = none := by
    intro fields write
    exact pending_eq_none fun op hop heq => (pathEntryOps_faces op hop).not_reduce (heq ▸ hk)
  have hsweep : pending (old.elim [] fun old => t.pathEntryOps pkey old false) k = none :=
    pending_eq_none fun op hop heq => (pathSweep_faces op hop).not_reduce (heq ▸ hk)
  cases h with
  | idle => rfl
  | rewritten =>
    rw [pending_append, hpath, Option.none_or, pending_append, hsweep, Option.none_or,
      pending_concat, if_neg hfields, pending_growthOps_counting hk.counting]
  | removed => rw [pending_concat, if_neg hfields, hsweep]

section

variable {rows : Rows} {pkey : Bytes} {swept folded : Reducing} {old new : Option ValueMap}

theorem RowPasses.keeps (h : RowPasses t store pkey old new swept folded) {k : Bytes}
    (hk : store.get k ≠ none) : accIn folded store k ≠ none := by
  have hstart : accIn {} store k ≠ none := hk
  have hswept : accIn swept store k ≠ none := by
    cases old with
    | none =>
      obtain rfl := Guarded.answer.inj h.first
      exact hstart
    | some document => exact reduceLoop_keeps (planReduces_loop h.first) hstart
  cases new with
  | none =>
    obtain rfl := Guarded.answer.inj h.second
    exact hswept
  | some document => exact reduceLoop_keeps (planReduces_loop h.second) hswept

/-- **The pass over a new row**: each reduce takes its turn. -/
theorem RowPasses.entered {document : ValueMap}
    (h : RowPasses t store pkey old (some document) swept folded) :
    (∀ r ∈ t.reduces, Turned t store (t.keyOf pkey) document true swept folded r) ∧
    ∀ k, (∀ r ∈ t.reduces, ∀ g, t.groupOf r (t.keyOf pkey) document = .ok g → k ≠ t.cell r g) →
      accIn folded store k = accIn swept store k :=
  reduceLoop_turns t.reduce_slots (fun hadd => nomatch hadd) (planReduces_loop h.second)

/-- **The pass over an old row**: its groups are there, so no reduce is left out. -/
theorem RowPasses.left {document : ValueMap}
    (h : RowPasses t store pkey (some document) new swept folded)
    (present : Present t rows store.get) (hrow : rows pkey = some document) :
    (∀ r ∈ t.reduces, Turned t store (t.keyOf pkey) document false {} swept r) ∧
    ∀ k, (∀ r ∈ t.reduces, ∀ g, t.groupOf r (t.keyOf pkey) document = .ok g → k ≠ t.cell r g) →
      accIn swept store k = store.get k := by
  refine reduceLoop_turns t.reduce_slots (fun _ r hr g hg => ?_) (planReduces_loop h.first)
  obtain ⟨g', hg', hsome⟩ := present r hr pkey document hrow
  obtain rfl := Except.ok.inj (hg.symm.trans hg')
  exact hsome

theorem RowPasses.present (ready : Readable t.table)
    (h : RowPasses t store pkey old new swept folded) (present : Present t rows store.get) :
    Present t (Function.update rows pkey (new.map t.settledRow)) (accIn folded store) := by
  intro r hr p row hp
  by_cases heq : p = pkey
  · subst heq
    rw [Function.update_self] at hp
    obtain ⟨document, rfl, rfl⟩ := Option.map_eq_some_iff.mp hp
    obtain ⟨g, acc, hg, -, hacc⟩ := h.entered.1 r hr
    refine ⟨g, groupOf_settled ready hg, ?_⟩
    rw [hacc]
    exact Option.some_ne_none acc
  · rw [Function.update_of_ne heq] at hp
    obtain ⟨g, hg, hsome⟩ := present r hr p row hp
    exact ⟨g, hg, h.keeps hsome⟩

/-- **The two passes keep a lawful reduce tallied.** -/
theorem RowPasses.ledger (ready : Readable t.table)
    (h : RowPasses t store pkey (rows pkey) new swept folded) (present : Present t rows store.get)
    {r : BoundReduce} (hr : r ∈ t.reduces) {good : Bytes → Prop} (lawful : Lawful t r good)
    (ledger : Ledger t r rows store.get) :
    Ledger t r (Function.update rows pkey (new.map t.settledRow)) (accIn folded store) := by
  have hapart : ∀ (document : ValueMap) g, t.groupOf r (t.keyOf pkey) document ≠ .ok g →
      ∀ r' ∈ t.reduces, ∀ g', t.groupOf r' (t.keyOf pkey) document = .ok g' →
        t.cell r g ≠ t.cell r' g' := by
    intro document g hg r' hr' g' hg' heq
    obtain ⟨hslot, rfl⟩ := cell_inj heq
    obtain rfl := reduce_of_slot hr hr' hslot
    exact hg hg'
  have hleft : Ledger t r (Function.update rows pkey none) (accIn swept store) := by
    cases hrow : rows pkey with
    | none =>
      have hfirst := h.first
      rw [hrow] at hfirst
      obtain rfl := Guarded.answer.inj hfirst
      rw [← hrow, Function.update_eq_self]
      exact ledger
    | some document =>
      rw [hrow] at h
      obtain ⟨hturns, hrest⟩ := h.left present hrow
      refine ledger.leave lawful hrow (fun g hg => ?_) fun g hg => hrest _ (hapart document g hg)
      obtain ⟨g', acc, hg', hturn, hacc⟩ := hturns r hr
      obtain rfl := Except.ok.inj (hg.symm.trans hg')
      exact ⟨acc, hturn, hacc⟩
  cases new with
  | none =>
    obtain rfl := Guarded.answer.inj h.second
    exact hleft
  | some document =>
    obtain ⟨hturns, hrest⟩ := h.entered
    obtain ⟨g, acc, hg, hturn, hacc⟩ := hturns r hr
    have hentered := hleft.enter ready lawful (Function.update_self pkey none rows) hg hturn hacc
      fun g' hne => hrest _ (hapart document g' fun hg' => hne (Except.ok.inj (hg'.symm.trans hg)))
    rw [Function.update_idem] at hentered
    exact hentered

end

end DynamicCollection

end Okm.Dynamic
