import Okm.Dynamic.Ledger

/-!
# The groups of a runtime table tally its rows

Along a run of merges, replaces and purges, answered or refused, every row has its group, and
the accumulator of a group is what its rows tally to, in any order (`groups_exact`). What was
stored can be taken away again: a purge of a document answers (`purge_answers`).
-/

namespace Okm.Dynamic

open Lib Model VirtualStorage

namespace DynamicCollection

variable {t : DynamicCollection}

/-! ## Along a run -/

/-- The rows of a run's documents. -/
def Tracked.rows (st : Tracked) : Rows := fun pkey => (st.docs pkey).row

/-- Every row has its group, and the groups of a lawful reduce are tallied. -/
structure GroupsInv (t : DynamicCollection) (st : Tracked) : Prop where
  present : Present t st.rows st.store.get
  ledgers : ∀ r ∈ t.reduces, ∀ good, Lawful t r good → Ledger t r st.rows st.store.get

theorem Present.congr {rows rows' : Rows} {read read' : Bytes → Option Bytes}
    (h : Present t rows read) (hrows : ∀ p, rows' p = rows p)
    (hread : ∀ k, t.ReduceFace k → read' k = read k) : Present t rows' read' := by
  intro r hr pkey row hrow
  obtain ⟨g, hg, hsome⟩ := h r hr pkey row (hrows pkey ▸ hrow)
  refine ⟨g, hg, ?_⟩
  rwa [hread _ (cell_face hr g)]

/-- **What the two arms of one document do to the groups**: nothing, or two passes. -/
theorem Arms.passes {st : Tracked} {labels more : List String} {pkey : Bytes}
    {row : Option (Option ValueMap)} {segment : Option ValueMap} {plan : PlannedWrite}
    (arms : Arms t (accsOf st.store) labels pkey (st.docs pkey) row segment more plan) :
    (row = none ∧ ∀ k, t.ReduceFace k → (applyOps st.store plan.ops).get k = st.store.get k) ∨
    ∃ new swept folded, row = some new ∧
      RowPasses t st.store pkey (st.rows pkey) new swept folded ∧
      ∀ k, t.ReduceFace k → (applyOps st.store plan.ops).get k = accIn folded st.store k := by
  obtain ⟨rowPlan, ops, hrow, hsegment, hops, -⟩ := arms
  have hread : ∀ k, t.ReduceFace k → (applyOps st.store plan.ops).get k
      = (pending rowPlan.ops k).getD (st.store.get k) := by
    intro k hk
    rw [get_applyOps, readThrough, hops, pending_append, hsegment.groups hk, Option.none_or]
  cases hrow with
  | idle width => exact Or.inl ⟨rfl, hread⟩
  | @planned new parts hparts =>
    obtain ⟨swept, folded, passes, hcells⟩ := hparts.groups
    exact Or.inr ⟨new, swept, folded, rfl, passes, fun k hk => (hread k hk).trans (hcells k hk)⟩

/-- The rows after a change of one document. -/
theorem rows_changed {st : Tracked} {pkey : Bytes} {new : Option ValueMap}
    {segment : Option ValueMap} {store' : Keyspace} :
    (⟨store', Function.update st.docs pkey ((st.docs pkey).changed t (some new) segment)⟩
      : Tracked).rows = Function.update st.rows pkey (new.map t.settledRow) := by
  funext p
  unfold Tracked.rows
  by_cases hp : p = pkey
  · subst hp
    simp only [Function.update_self]
    rfl
  · simp only [Function.update_of_ne hp]

theorem rows_idle {st : Tracked} {pkey : Bytes} {segment : Option ValueMap} {store' : Keyspace} :
    (⟨store', Function.update st.docs pkey ((st.docs pkey).changed t none segment)⟩
      : Tracked).rows = st.rows := by
  funext p
  unfold Tracked.rows
  by_cases hp : p = pkey
  · subst hp
    simp only [Function.update_self]
    rfl
  · simp only [Function.update_of_ne hp]

/-- Writes elsewhere leave the groups alone. -/
theorem elsewhere_groups {store : Keyspace} {ops : List (Op Bytes Bytes)}
    (h : ∀ op ∈ ops, ∀ s, t.Owns s → ∀ suffix, op.1 ≠ faceKey t.ns s suffix) (k : Bytes)
    (hk : t.ReduceFace k) : (applyOps store ops).get k = store.get k := by
  obtain ⟨r, hr, g, rfl⟩ := hk
  exact get_applyOps_of_not_mem store fun op hop => h op hop _ (Or.inr (Or.inr (Or.inr ⟨r, hr, rfl⟩))) g

section

variable (plain : ∀ f ∈ t.schema.hotFields, ∀ s, f.ty ≠ .vocab s)
include plain

/-- **What an event does to the groups**: nothing, or the two passes of one row. -/
theorem advance_groups {st : Tracked} {labels : List String} (inv : t.TableInv st labels)
    {ev : TableEvent} (orderly : t.Orderly st ev) :
    ((∀ p, (t.advance st ev).rows p = st.rows p) ∧
      ∀ k, t.ReduceFace k → (t.advance st ev).store.get k = st.store.get k) ∨
    ∃ pkey new swept folded, RowPasses t st.store pkey (st.rows pkey) new swept folded ∧
      (t.advance st ev).rows = Function.update st.rows pkey (new.map t.settledRow) ∧
      ∀ k, t.ReduceFace k → (t.advance st ev).store.get k = accIn folded st.store k := by
  rcases advance_cases plain inv orderly with
    hsame | ⟨pkey, row, segment, more, plan, arms, -, hnext⟩ | ⟨ops, hnext, helsewhere⟩
  · rw [hsame]
    exact Or.inl ⟨fun _ => rfl, fun _ _ => rfl⟩
  · rw [hnext]
    rcases arms.passes with ⟨rfl, hsame⟩ | ⟨new, swept, folded, rfl, passes, hcells⟩
    · exact Or.inl ⟨fun p => congrFun rows_idle p, hsame⟩
    · exact Or.inr ⟨pkey, new, swept, folded, passes, rows_changed, hcells⟩
  · rw [hnext]
    exact Or.inl ⟨fun _ => rfl, elsewhere_groups helsewhere⟩

variable (ready : Readable t.table)
include ready

/-- **What the passes of one row keep, a run keeps**, as long as it says no more of the store than
what the groups read. -/
theorem groups_invariant (P : Rows → (Bytes → Option Bytes) → Prop)
    (hcongr : ∀ rows read read', (∀ k, t.ReduceFace k → read' k = read k) → P rows read → P rows read')
    (hpasses : ∀ (store : Keyspace) rows pkey new swept folded,
      RowPasses t store pkey (rows pkey) new swept folded → P rows store.get →
        P (Function.update rows pkey (new.map t.settledRow)) (accIn folded store))
    {st : Tracked} {labels : List String} (inv : t.TableInv st labels)
    (hstart : P st.rows st.store.get) {events : List TableEvent}
    (orderly : Along t.advance t.Orderly st events) :
    (∃ labels', t.TableInv (events.foldl t.advance st) labels') ∧
      P (events.foldl t.advance st).rows (events.foldl t.advance st).store.get := by
  refine orderly.invariant (fun _ st => (∃ labels, t.TableInv st labels) ∧ P st.rows st.store.get)
    ⟨⟨labels, inv⟩, hstart⟩ ?_
  rintro - s ev ⟨⟨labels, inv⟩, hP⟩ hev
  obtain ⟨more, inv'⟩ := tableInv_step plain ready inv ev hev
  refine ⟨⟨_, inv'⟩, ?_⟩
  rcases advance_groups plain inv hev with
    ⟨hrows, hsame⟩ | ⟨pkey, new, swept, folded, passes, hrows, hcells⟩
  · rw [funext hrows]
    exact hcongr _ _ _ hsame hP
  · rw [hrows]
    exact hcongr _ _ _ hcells (hpasses s.store s.rows pkey new swept folded passes hP)

/-- **In every state of a run** the store holds the documents and the tallies of their groups. -/
theorem groupsInv_run {st : Tracked} {labels : List String} (inv : t.TableInv st labels)
    (ginv : GroupsInv t st) {events : List TableEvent}
    (orderly : Along t.advance t.Orderly st events) :
    (∃ labels', t.TableInv (events.foldl t.advance st) labels') ∧
      GroupsInv t (events.foldl t.advance st) := by
  obtain ⟨hinv, hpresent, hledgers⟩ := groups_invariant plain ready
    (fun rows read => Present t rows read ∧ ∀ r ∈ t.reduces, ∀ good, Lawful t r good →
      Ledger t r rows read)
    (fun rows read read' hread both => ⟨both.1.congr (fun _ => rfl) hread,
      fun r hr good lawful => (both.2 r hr good lawful).congr (fun _ => rfl)
        fun g => hread _ (cell_face hr g)⟩)
    (fun store rows pkey new swept folded passes both => ⟨passes.present ready both.1,
      fun r hr good lawful => passes.ledger ready both.1 hr lawful (both.2 r hr good lawful)⟩)
    inv ⟨ginv.present, ginv.ledgers⟩ orderly
  exact ⟨hinv, hpresent, hledgers⟩

end

theorem Init.groups {st : Tracked} (init : t.Init st) : GroupsInv t st := by
  have hrows : ∀ p, st.rows p = none := fun p => congrArg Doc.row (init.docs p)
  refine ⟨fun r hr pkey row hrow => ?_, fun r hr good lawful g => ⟨[], List.nodup_nil, fun p => ?_, ?_,
    fun _ => rfl⟩⟩
  · rw [hrows] at hrow
    cases hrow
  · refine iff_of_false List.not_mem_nil ?_
    rintro ⟨document, hdocument, -⟩
    rw [hrows] at hdocument
    cases hdocument
  · have hnone : st.store.get (t.cell r g) = none :=
      init.faces _ (Or.inr (Or.inr (Or.inr ⟨r, hr, rfl⟩))) g
    rw [hnone]
    exact tallies_nil.mpr rfl

/-! ## Counts -/

/-- One row more is counted, while there is room for it. -/
theorem count_fold {r : BoundReduce} (hlogic : r.logic = PresetKind.count.logic) {acc b : Bytes}
    {x : Folded} : BoundReduce.folds r acc x = answer b ↔
      accNumber acc + 1 < 2 ^ 64 ∧ b = beBytes 8 (accNumber acc + 1) := by
  unfold BoundReduce.folds
  rw [hlogic]
  dsimp only [PresetKind.logic]
  by_cases hroom : accNumber acc + 1 < 2 ^ 64
  · rw [if_pos hroom, Guarded.answer.injEq, and_iff_right hroom]
    exact eq_comm
  · rw [if_neg hroom]
    exact iff_of_false (fun h => nomatch h) fun h => hroom h.1

theorem accNumber_beBytes {n : Nat} (h : n < 2 ^ 64) : accNumber (beBytes 8 n) = n := by
  unfold accNumber
  rw [if_pos (length_beBytes _ _)]
  exact beNat_beBytes h

/-- **A count takes its folds back.** -/
theorem count_lawful {r : BoundReduce} (hlogic : r.logic = PresetKind.count.logic) :
    Lawful t r (fun acc => acc.length = 8) := by
  refine ⟨?_, ⟨?_, ?_, ?_⟩, fun _ _ _ => by rw [hlogic]; rfl⟩
  · rw [hlogic]
    exact length_beBytes 8 0
  · intro acc b x _ h
    obtain ⟨-, rfl⟩ := (count_fold hlogic).mp h
    exact length_beBytes _ _
  · intro acc b c x y _ hx hy
    exact ⟨b, (count_fold hlogic).mpr ((count_fold hlogic).mp hx),
      (count_fold hlogic).mpr ((count_fold hlogic).mp hy)⟩
  · intro acc b x hgood h
    obtain ⟨hroom, rfl⟩ := (count_fold hlogic).mp h
    unfold BoundReduce.unfolds
    rw [hlogic]
    change answer (beBytes 8 (accNumber (beBytes 8 (accNumber acc + 1)) - 1)) = _
    rw [accNumber_beBytes hroom, Nat.add_sub_cancel]
    unfold accNumber
    rw [if_pos hgood, ← hgood, beBytes_beNat]

/-- How many rows a count has folded. -/
theorem count_tally {r : BoundReduce} (hlogic : r.logic = PresetKind.count.logic) {xs : List Folded}
    {b acc : Bytes} (h : Tallies (BoundReduce.folds r) b xs acc) :
    accNumber acc = accNumber b + xs.length := by
  induction xs generalizing b with
  | nil =>
    rw [tallies_nil.mp h]
    rfl
  | cons x xs ih =>
    obtain ⟨c, hc, h⟩ := tallies_cons.mp h
    obtain ⟨hroom, rfl⟩ := (count_fold hlogic).mp hc
    rw [ih h, accNumber_beBytes hroom, List.length_cons]
    omega

/-! ## What a group reads -/

/-- `reduce_get`. -/
def reduceGet {σ : Type} [VirtualStorage σ] (store : σ) (ek : Bytes) :
    Except TableError (Option Bytes) := (VirtualStorage.get store ek).mapError .engine

/-- `scan_reduces`. -/
def scanReduces {σ : Type} [VirtualStorage σ] (store : σ) (ns : Bytes) (slot : Slot) :
    Except TableError (List (Bytes × Bytes)) :=
  (VocabCache.scanSuffixKv store (faceKey ns slot [])).mapError .engine

/-- The keys whose rows are in the group, each once. -/
structure Lists (t : DynamicCollection) (r : BoundReduce) (rows : Rows) (g : Bytes)
    (members : List Bytes) : Prop where
  nodup : members.Nodup
  mem : ∀ pkey, pkey ∈ members ↔ t.InGroup r g pkey (rows pkey)

/-- However the rows of a group are listed, it is their tally. -/
theorem Tallied.listed {r : BoundReduce} {rows : Rows} {g : Bytes} {acc : Option Bytes}
    {members listed : List Bytes} {good : Bytes → Prop} (lawful : Lawful t r good)
    (h : Tallied t r rows g acc members) (hlisted : Lists t r rows g listed) :
    Tallies (BoundReduce.folds r) r.logic.seed (listed.map (t.member rows)) (acc.getD r.logic.seed) ∧
      (acc = none → listed = []) := by
  have hperm : members.Perm listed := (List.perm_ext_iff_of_nodup h.nodup hlisted.nodup).mpr
    fun pkey => (h.mem pkey).trans (hlisted.mem pkey).symm
  refine ⟨lawful.laws.perm (hperm.map _) lawful.seed h.tally, fun hnone => ?_⟩
  exact (h.absent hnone ▸ hperm).nil_eq.symm

/-- The listing of a reduce's slot is what its groups read. -/
theorem scanReduces_eq {store : Keyspace} {slot : Slot} (hslot : slot.val % 256 ≠ 255) (ns : Bytes) :
    ∃ groups, scanReduces store ns slot = .ok groups ∧ groups.Pairwise (fun a b => a.1 < b.1) ∧
      ∀ g acc, (g, acc) ∈ groups ↔ store.get (faceKey ns slot g) = some acc := by
  have hscan : VocabCache.scanSuffixKv store (faceKey ns slot [])
      = .ok (store.under (faceKey ns slot [])).entries := by
    have hface : ∃ p, faceKey ns slot [] = p ++ [UInt8.ofNat slot.val] := by
      unfold faceKey Slot.bytes
      split
      · exact ⟨ns, by rw [List.append_nil]⟩
      · exact ⟨ns ++ [UInt8.ofNat (slot.val / 256)], by simp [beBytes]⟩
    obtain ⟨p, hp⟩ := hface
    rw [hp]
    refine scanSuffixKv_under (fun heq => hslot ?_) store
    have hnat := congrArg UInt8.toNat heq
    rw [UInt8.toNat_ofNat'] at hnat
    exact hnat
  refine ⟨_, congrArg (Except.mapError TableError.engine) hscan,
    (store.under (faceKey ns slot [])).sorted, fun g acc => mem_under_face⟩

/-- **The groups of a lawful reduce are exact along every run**: every row is in a group, the
accumulator read for a group is the tally of the rows in it, in whatever order they are listed,
and a group that reads none has no rows. The listing of the reduce's slot is what its groups
read. -/
theorem groups_exact (ready : Readable t.table)
    (plain : ∀ f ∈ t.schema.hotFields, ∀ s, f.ty ≠ .vocab s) {st : Tracked} (init : t.Init st)
    {events : List TableEvent} (orderly : Along t.advance t.Orderly st events) {r : BoundReduce}
    (hr : r ∈ t.reduces) {good : Bytes → Prop} (lawful : Lawful t r good) :
    (∀ pkey row, (events.foldl t.advance st).rows pkey = some row →
      ∃ g, t.groupOf r (t.keyOf pkey) row = .ok g) ∧
    (∀ g, ∃ acc, reduceGet (events.foldl t.advance st).store (t.cell r g) = .ok acc ∧
      (∃ members, Lists t r (events.foldl t.advance st).rows g members) ∧
      ∀ members, Lists t r (events.foldl t.advance st).rows g members →
        Tallies (BoundReduce.folds r) r.logic.seed
          (members.map (t.member (events.foldl t.advance st).rows)) (acc.getD r.logic.seed) ∧
        (acc = none → members = [])) ∧
    (r.slot.val % 256 ≠ 255 → ∃ groups,
      scanReduces (events.foldl t.advance st).store t.ns r.slot = .ok groups ∧
      groups.Pairwise (fun a b => a.1 < b.1) ∧ ∀ g acc, (g, acc) ∈ groups ↔
        reduceGet (events.foldl t.advance st).store (t.cell r g) = .ok (some acc)) := by
  obtain ⟨-, ginv⟩ := groupsInv_run plain ready init.inv init.groups orderly
  generalize events.foldl t.advance st = final at ginv ⊢
  have hget : ∀ g, reduceGet final.store (t.cell r g) = .ok (final.store.get (t.cell r g)) :=
    fun _ => rfl
  refine ⟨fun pkey row hrow => ?_, fun g => ?_, fun hslot => ?_⟩
  · obtain ⟨g, hg, -⟩ := ginv.present r hr pkey row hrow
    exact ⟨g, hg⟩
  · obtain ⟨members, tallied⟩ := ginv.ledgers r hr good lawful g
    exact ⟨_, hget g, ⟨members, tallied.nodup, tallied.mem⟩, fun _ hlisted =>
      tallied.listed lawful hlisted⟩
  · obtain ⟨groups, hscan, hsorted, hmem⟩ := @scanReduces_eq final.store r.slot hslot t.ns
    refine ⟨groups, hscan, hsorted, fun g acc => (hmem g acc).trans ?_⟩
    rw [hget]
    exact (Except.ok.injEq _ _).to_iff.symm

theorem firstReduce_bounds : 1 ≤ Segment.reduce ∧ Segment.reduce ≤ 0xF ∧ 1 ≤ 0xFFF := by decide

/-- A preset over the rows of a kind. -/
def byKind (preset : PresetKind) : BoundReduce :=
  ⟨slot Segment.reduce 1 firstReduce_bounds, ["kind"], preset.logic⟩

theorem byKind_slot (preset : PresetKind) : ∀ r ∈ [byKind preset], 0x1000 ≤ r.slot.val := by
  intro r hr
  obtain rfl := List.mem_singleton.mp hr
  change 0x1000 ≤ Segment.reduce * 0x1000 + 1
  decide

/-- A table with one preset over the rows of a kind. -/
def grouped (table : DeclaredTable) (preset : PresetKind) : DynamicCollection where
  table := table
  ns := [7]
  indexes := []
  reduces := [byKind preset]
  indexSlots := notes.indexSlots
  reduceSlots := byKind_slot preset
  apart := by simp

/-- Notes counted by kind. -/
def countedNotes : DynamicCollection := grouped noteTable .count

theorem countedNotes_orderly :
    Along countedNotes.advance countedNotes.Orderly Tracked.new noteEvents := by
  obtain ⟨⟨hfirst, -⟩, ⟨hsecond, -⟩, -⟩ := noteEvents_orderly
  exact ⟨⟨hfirst, bounded_of_entries (by decide +kernel)⟩,
    ⟨hsecond, bounded_of_entries (by decide +kernel)⟩, trivial⟩

/-- The note is merged once more under another kind, and the count of that kind is its tally. -/
theorem groups_exact_kind : ∃ acc,
    reduceGet (noteEvents.foldl countedNotes.advance Tracked.new).store
      (countedNotes.cell (byKind .count) [6]) = .ok acc ∧
    ∀ members, Lists countedNotes (byKind .count)
        (noteEvents.foldl countedNotes.advance Tracked.new).rows [6] members →
      Tallies (BoundReduce.folds (byKind .count))
        PresetKind.count.logic.seed
        (members.map (countedNotes.member (noteEvents.foldl countedNotes.advance Tracked.new).rows))
        (acc.getD PresetKind.count.logic.seed) ∧ (acc = none → members = []) := by
  obtain ⟨acc, hacc, -, hall⟩ := (@groups_exact countedNotes noteTable_readable notes_plain Tracked.new
    ⟨fun _ _ _ => rfl, fun _ => rfl⟩ noteEvents countedNotes_orderly _ List.mem_cons_self _
    (count_lawful rfl)).2.1 [6]
  exact ⟨acc, hacc, hall⟩

/-- **A count is the number of the rows in its group.** -/
theorem count_rows (ready : Readable t.table)
    (plain : ∀ f ∈ t.schema.hotFields, ∀ s, f.ty ≠ .vocab s) {st : Tracked} (init : t.Init st)
    {events : List TableEvent} (orderly : Along t.advance t.Orderly st events) {r : BoundReduce}
    (hr : r ∈ t.reduces) (hlogic : r.logic = PresetKind.count.logic) (g : Bytes) :
    ∃ acc members, reduceGet (events.foldl t.advance st).store (t.cell r g) = .ok acc ∧
      Lists t r (events.foldl t.advance st).rows g members ∧
      accNumber (acc.getD r.logic.seed) = members.length := by
  obtain ⟨-, ginv⟩ := groupsInv_run plain ready init.inv init.groups orderly
  obtain ⟨members, tallied⟩ := ginv.ledgers r hr _ (count_lawful hlogic) g
  refine ⟨_, members, rfl, ⟨tallied.nodup, tallied.mem⟩, ?_⟩
  have hnumber := count_tally hlogic tallied.tally
  have hseed : accNumber r.logic.seed = 0 := by
    rw [hlogic]
    decide
  rw [hnumber, hseed, List.length_map, Nat.zero_add]

/-! ## Watermarks -/

/-- What a group reads when it reads something of the kind. -/
def Marked (P : Bytes → Prop) (found : Option Bytes) : Prop := ∃ acc, found = some acc ∧ P acc

/-- A property of accumulators that no turn of the logic takes away. -/
structure Lasting (r : BoundReduce) (P : Bytes → Prop) : Prop where
  fold : ∀ {acc key document b}, P acc → r.logic.fold acc key document = answer b → P b
  unfold : ∀ {acc key document b}, P acc → r.logic.unfold acc key document = answer b → P b

theorem Lasting.reduceLoop {store : Keyspace} {r : BoundReduce} {P : Bytes → Prop}
    (lasting : Lasting r P) (hr : r ∈ t.reduces) {g : Bytes} {key document : ValueMap} {add : Bool}
    {rs : List BoundReduce} (hrs : ∀ r' ∈ rs, r' ∈ t.reduces) {st st' : Reducing}
    (h : t.reduceLoop (accsOf store) key document add rs st = answer st')
    (hmarked : Marked P (accIn st store (t.cell r g))) : Marked P (accIn st' store (t.cell r g)) := by
  induction rs generalizing st with
  | nil =>
    obtain rfl := Guarded.answer.inj h
    exact hmarked
  | cons r' rest ih =>
    unfold DynamicCollection.reduceLoop at h
    obtain ⟨ek, hek, h⟩ := Guarded.bind_eq_answer.mp h
    obtain ⟨g', hg', rfl⟩ := entryKey_ok (Guarded.lift_eq_answer.mp hek)
    obtain ⟨found, hfound, h⟩ := Guarded.bind_eq_answer.mp h
    split at h
    · obtain rfl := Guarded.answer.inj h
      exact hmarked
    · obtain ⟨acc, hturn, h⟩ := Guarded.bind_eq_answer.mp h
      refine ih (fun r'' h'' => hrs r'' (List.mem_cons_of_mem _ h'')) h ?_
      unfold accIn
      rw [SortedMap.get_insert]
      by_cases hcell : t.cell r g = t.cell r' g'
      · -- the turn of the reduce itself, at the group
        obtain ⟨hslot, rfl⟩ := cell_inj hcell
        obtain rfl := reduce_of_slot hr (hrs r' List.mem_cons_self) hslot
        rw [if_pos rfl, Option.some_or]
        obtain ⟨before, hbefore, hP⟩ := hmarked
        have hfound := Guarded.lift_eq_answer.mp hfound
        have hsame : found = some before := by
          rw [← hbefore]
          unfold accIn
          cases hw : st.written.get (t.cell r g) <;>
            · rw [hw] at hfound
              exact (Except.ok.inj hfound).symm
        have hturn := Guarded.mapRefuse_eq_answer.mp hturn
        rw [hsame, Option.getD_some] at hturn
        refine ⟨acc, rfl, ?_⟩
        cases add with
        | true => exact lasting.fold hP hturn
        | false => exact lasting.unfold hP hturn
      · rw [if_neg hcell]
        exact hmarked

/-- What no turn takes away, a plan does not take away. -/
theorem Lasting.passes {store : Keyspace} {r : BoundReduce} {P : Bytes → Prop} (lasting : Lasting r P)
    (hr : r ∈ t.reduces) {g pkey : Bytes} {old new : Option ValueMap} {swept folded : Reducing}
    (h : RowPasses t store pkey old new swept folded)
    (hmarked : Marked P (store.get (t.cell r g))) : Marked P (accIn folded store (t.cell r g)) := by
  have hswept : Marked P (accIn swept store (t.cell r g)) := by
    cases old with
    | none =>
      obtain rfl := Guarded.answer.inj h.first
      exact hmarked
    | some document =>
      have hstart : Marked P (accIn {} store (t.cell r g)) := hmarked
      exact lasting.reduceLoop hr (fun _ hr' => hr') (planReduces_loop h.first) hstart
  cases new with
  | none =>
    obtain rfl := Guarded.answer.inj h.second
    exact hswept
  | some document => exact lasting.reduceLoop hr (fun _ hr' => hr') (planReduces_loop h.second) hswept

/-- A watermark over a field, and when a mark covers a number. -/
inductive Watermark : PresetKind → String → (Nat → Nat → Prop) → Prop where
  | high (field : String) : Watermark (.highWater field) field fun mark v => v ≤ mark
  | low (field : String) : Watermark (.lowWater field) field fun mark v => mark ≤ v

theorem accNumber_lt (acc : Bytes) : accNumber acc < 2 ^ 64 := by
  unfold accNumber
  split
  · rename_i hlen
    have hlt := beNat_lt acc
    rw [hlen] at hlt
    exact hlt
  · decide

theorem fieldU64_ok {document : ValueMap} {field : String} {n : Nat}
    (h : fieldU64 document field = .ok n) :
    ∃ v, document.get field = some (.u64 v) ∧ n = v.toNat := by
  unfold fieldU64 at h
  split at h
  · rename_i v hv
    exact ⟨v, hv, (Except.ok.inj h).symm⟩
  · cases h
  · cases h

section

variable {preset : PresetKind} {field : String} {covers : Nat → Nat → Prop} {r : BoundReduce}

/-- **What a watermark's fold leaves** covers the row, and what was covered before. -/
theorem Watermark.fold (h : Watermark preset field covers) (hlogic : r.logic = preset.logic)
    {acc b : Bytes} {key document : ValueMap} (hfold : r.logic.fold acc key document = answer b) :
    (∀ n, covers (accNumber acc) n → covers (accNumber b) n) ∧
    ∃ v, document.get field = some (.u64 v) ∧ covers (accNumber b) v.toNat := by
  rw [hlogic] at hfold
  have hacc := accNumber_lt acc
  cases h with
  | high =>
    obtain ⟨n, hn, hfold⟩ := Guarded.bind_eq_answer.mp hfold
    obtain ⟨v, hv, rfl⟩ := fieldU64_ok (Guarded.lift_eq_answer.mp hn)
    obtain rfl := Guarded.answer.inj hfold
    have hlt : v.toNat < 2 ^ 64 := v.toNat_lt
    rw [accNumber_beBytes (Nat.max_lt.mpr ⟨hacc, hlt⟩)]
    exact ⟨fun n hle => le_trans hle (Nat.le_max_left _ _), v, hv, Nat.le_max_right _ _⟩
  | low =>
    obtain ⟨n, hn, hfold⟩ := Guarded.bind_eq_answer.mp hfold
    obtain ⟨v, hv, rfl⟩ := fieldU64_ok (Guarded.lift_eq_answer.mp hn)
    obtain rfl := Guarded.answer.inj hfold
    rw [accNumber_beBytes (lt_of_le_of_lt (Nat.min_le_left _ _) hacc)]
    exact ⟨fun n hle => le_trans (Nat.min_le_left _ _) hle, v, hv, Nat.min_le_right _ _⟩

theorem Watermark.unfold (h : Watermark preset field covers) (hlogic : r.logic = preset.logic)
    (acc : Bytes) (key document : ValueMap) : r.logic.unfold acc key document = answer acc := by
  rw [hlogic]
  cases h <;> rfl

theorem Watermark.lasting (h : Watermark preset field covers) (hlogic : r.logic = preset.logic)
    (n : Nat) : Lasting r (fun acc => covers (accNumber acc) n) where
  fold hacc hfold := (h.fold hlogic hfold).1 n hacc
  unfold hacc hunfold := by
    rw [h.unfold hlogic] at hunfold
    obtain rfl := Guarded.answer.inj hunfold
    exact hacc

/-- Every row is covered by the mark of its group. -/
def Covered (t : DynamicCollection) (r : BoundReduce) (field : String)
    (covers : Nat → Nat → Prop) (rows : Rows) (read : Bytes → Option Bytes) : Prop :=
  ∀ pkey row g v, rows pkey = some row → t.groupOf r (t.keyOf pkey) row = .ok g →
    row.get field = some (.u64 v) →
      Marked (fun acc => covers (accNumber acc) v.toNat) (read (t.cell r g))

/-- A number in a stored row was put as it is. -/
theorem number_of_settled (ready : Readable t.table) {document : ValueMap} {v : UInt64}
    (h : (t.settledRow document).get field = some (.u64 v)) :
    document.get field = some (.u64 v) := by
  rw [get_settledRow ready] at h
  obtain ⟨f, -, h⟩ := Option.bind_eq_some_iff.mp h
  obtain ⟨w, hw, hsettled⟩ := Option.map_eq_some_iff.mp h
  have hexact : w = .u64 v := by
    unfold settled at hsettled
    split at hsettled
    · split at hsettled
      · cases hsettled
      · exact hsettled
    · split at hsettled
      · cases hsettled
      · exact hsettled
    · exact hsettled
  rw [hw, hexact]

/-- **The two passes keep every row covered.** -/
theorem Covered.passes (ready : Readable t.table) (h : Watermark preset field covers)
    (hlogic : r.logic = preset.logic) (hr : r ∈ t.reduces) {store : Keyspace} {rows : Rows}
    {pkey : Bytes} {old new : Option ValueMap} {swept folded : Reducing}
    (passes : RowPasses t store pkey old new swept folded)
    (covered : Covered t r field covers rows store.get) :
    Covered t r field covers (Function.update rows pkey (new.map t.settledRow))
      (accIn folded store) := by
  intro p row g v hrow hg hv
  by_cases heq : p = pkey
  · subst heq
    rw [Function.update_self] at hrow
    obtain ⟨document, rfl, rfl⟩ := Option.map_eq_some_iff.mp hrow
    obtain ⟨g', acc, hg', hturn, hacc⟩ := passes.entered.1 r hr
    obtain rfl := Except.ok.inj (hg.symm.trans (groupOf_settled ready hg'))
    obtain ⟨w, hw, hcovers⟩ := (h.fold hlogic hturn).2
    have hsame := hw.symm.trans (number_of_settled ready hv)
    injection hsame with hsame
    injection hsame with hsame
    exact ⟨acc, hacc, hsame ▸ hcovers⟩
  · rw [Function.update_of_ne heq] at hrow
    exact (h.lasting hlogic v.toNat).passes hr passes (covered p row g v hrow hg hv)

end

/-- **A watermark covers every row that has ever been in its group**: what the row of a document
reads for the field is covered by the mark of its group in every later state of the run, whether
the row is still there or not. -/
theorem watermark_covers (ready : Readable t.table)
    (plain : ∀ f ∈ t.schema.hotFields, ∀ s, f.ty ≠ .vocab s) {st : Tracked} (init : t.Init st)
    {events later : List TableEvent} (orderly : Along t.advance t.Orderly st (events ++ later))
    {r : BoundReduce} (hr : r ∈ t.reduces) {preset : PresetKind} {field : String}
    {covers : Nat → Nat → Prop} (mark : Watermark preset field covers)
    (hlogic : r.logic = preset.logic) {pkey : Bytes} {row : ValueMap} {g : Bytes} {v : UInt64}
    (hrow : (events.foldl t.advance st).rows pkey = some row)
    (hg : t.groupOf r (t.keyOf pkey) row = .ok g) (hv : row.get field = some (.u64 v)) :
    ∃ acc, reduceGet ((events ++ later).foldl t.advance st).store (t.cell r g) = .ok (some acc) ∧
      covers (accNumber acc) v.toNat := by
  obtain ⟨hevents, hlater⟩ := along_append.mp orderly
  obtain ⟨⟨labels, inv⟩, covered⟩ := groups_invariant plain ready (Covered t r field covers)
    (fun rows read read' hread covered p row g v hrow hg hv => by
      rw [hread _ (cell_face hr g)]
      exact covered p row g v hrow hg hv)
    (fun store rows pkey new swept folded passes covered =>
      covered.passes ready mark hlogic hr passes)
    init.inv (fun p row g v hrow => by
      have hnone : st.rows p = none := congrArg Doc.row (init.docs p)
      rw [hnone] at hrow
      cases hrow) hevents
  have hmarked := groups_invariant plain ready
    (fun _ read => Marked (fun acc => covers (accNumber acc) v.toNat) (read (t.cell r g)))
    (fun rows read read' hread hmarked => by
      rw [hread _ (cell_face hr g)]
      exact hmarked)
    (fun store rows pkey new swept folded passes hmarked =>
      (mark.lasting hlogic v.toNat).passes hr passes hmarked)
    inv (covered pkey row g v hrow hg hv) hlater
  rw [← List.foldl_append] at hmarked
  obtain ⟨acc, hacc, hcovers⟩ := hmarked.2
  exact ⟨acc, congrArg Except.ok hacc, hcovers⟩

/-- A kind and a level. -/
def meterTable : DeclaredTable where
  keyLen := 1
  keyFields := [⟨"meter", .u8, 1⟩]
  nsPrefix := [0, 1]
  layoutVersion := 1
  hotWidth := 9
  fields := [⟨"kind", .u8, 1⟩, ⟨"level", .u64, 8⟩]
  defaults := []
  fieldContracts := []
  indexDecls := []
  faces := []
  keyKinds := by decide
  kinds := by decide
  keyLen_eq := by decide
  hotWidth_eq := by decide

/-- The highest level of each kind. -/
def meters : DynamicCollection := grouped meterTable (.highWater "level")

def meterRow : ValueMap := (SortedMap.empty.insert "kind" (.u8 5)).insert "level" (.u64 9)

theorem meters_orderly :
    Along meters.advance meters.Orderly Tracked.new ([.merge [1] meterRow] ++ [.purge [1]]) := by
  refine ⟨⟨?_, bounded_of_entries (by decide +kernel)⟩,
    ⟨trivial, bounded_of_entries (by decide +kernel)⟩, trivial⟩
  intro e he
  have hmem : e ∈ [("kind", Value.u8 5), ("level", Value.u64 9)] := he
  simp only [List.mem_cons, List.not_mem_nil, or_false] at hmem
  rcases hmem with rfl | rfl <;> exact trivial

theorem meters_plain : ∀ f ∈ meters.schema.hotFields, ∀ s, f.ty ≠ .vocab s := by
  have hfields : meters.schema.hotFields
      = [⟨"kind", .u8, 1, 0, none, none, none⟩, ⟨"level", .u64, 8, 1, none, none, none⟩] := rfl
  rw [hfields]
  simp

/-- The level of a meter that is gone is still under the mark. -/
theorem watermark_covers_purged : ∃ acc,
    reduceGet (([TableEvent.merge [1] meterRow] ++ [TableEvent.purge [1]]).foldl meters.advance
        Tracked.new).store
      (meters.cell (byKind (.highWater "level")) [5])
        = .ok (some acc) ∧ (9 : UInt64).toNat ≤ accNumber acc :=
  @watermark_covers meters ⟨by decide, by decide, by decide, by decide⟩ meters_plain Tracked.new
    ⟨fun _ _ _ => rfl, fun _ => rfl⟩ [.merge [1] meterRow] [.purge [1]] meters_orderly _
    List.mem_cons_self _ _ _ (.high "level") rfl [1] meterRow [5] 9 rfl rfl rfl

/-! ## Removal -/

/-- A logic that can be unfolded: a lawful one from the rows it has folded, another from any
accumulator. -/
def Undoes (t : DynamicCollection) (r : BoundReduce) : Prop :=
  (∃ good, Lawful t r good) ∨ ∀ acc key document, ∃ b, r.logic.unfold acc key document = answer b

/-- **A stored row can be swept**: its entries come out, and each of its groups takes it back. -/
theorem planSweep_answers {st : Tracked} (einv : EntriesInv t st) (ginv : GroupsInv t st)
    (undoes : ∀ r ∈ t.reduces, Undoes t r) {pkey : Bytes} (hwidth : pkey.length = t.schema.keyLen)
    {old : ValueMap} (hrow : st.rows pkey = some old) :
    ∃ st', t.planSweep (accsOf st.store) pkey old {} = answer st' := by
  obtain ⟨entries, hentries⟩ := einv.swept pkey old hrow
  obtain ⟨key, hkey⟩ := decodeKey_answers t.table pkey (Nat.le_of_eq hwidth.symm)
  unfold planSweep
  rw [hentries, Guarded.lift, Guarded.answer_bind]
  unfold planReduces
  rw [show decodeKey t.schema.toCollectionSchema pkey = answer key from hkey, Guarded.mapRefuse,
    Guarded.answer_bind, ← keyOf_of_decode hkey]
  refine reduceLoop_answers t.reduce_slots fun r hr => ?_
  obtain ⟨g, hg, -⟩ := ginv.present r hr pkey old hrow
  rcases undoes r hr with ⟨good, lawful⟩ | htotal
  · obtain ⟨members, tallied⟩ := ginv.ledgers r hr good lawful g
    obtain ⟨b, hb, -⟩ := tallied.undo lawful hrow hg
    exact ⟨g, b, hg, hb⟩
  · obtain ⟨b, hb⟩ := htotal ((accIn _ st.store (t.cell r g)).getD r.logic.seed) (t.keyOf pkey) old
    exact ⟨g, b, hg, hb⟩

theorem purgePlan_answers (plain : ∀ f ∈ t.schema.hotFields, ∀ s, f.ty ≠ .vocab s) {st : Tracked}
    {labels : List String} (inv : t.TableInv st labels) (einv : EntriesInv t st)
    (ginv : GroupsInv t st) (undoes : ∀ r ∈ t.reduces, Undoes t r) {pkey : Bytes}
    (hwidth : pkey.length = t.schema.keyLen) (hdoc : st.docs pkey ≠ {}) :
    ∃ plan, t.purgePlan st.store pkey = answer (some plan) := by
  have sees := inv.sees plain pkey
  have hkey : t.checkKey pkey = .ok () := if_neg (not_not.mpr hwidth)
  have hsome : ¬ ((st.docs pkey).row.isNone = true ∧ (st.docs pkey).segment.isNone = true) := by
    rw [Option.isNone_iff_eq_none, Option.isNone_iff_eq_none, not_and_or]
    exact Doc.ne_empty_iff.mp hdoc
  have hdelete : ∃ plan, (st.docs pkey).row.elim (answer {})
      (fun old => t.planDelete pkey old (accsOf st.store)) = answer plan := by
    cases hrow : (st.docs pkey).row with
    | none => exact ⟨_, rfl⟩
    | some old =>
      obtain ⟨swept, hswept⟩ := planSweep_answers einv ginv undoes hwidth hrow
      rw [Option.elim_some]
      unfold planDelete
      rw [hkey, hswept, Guarded.lift, Guarded.answer_bind, Guarded.answer_bind]
      exact ⟨_, rfl⟩
  obtain ⟨plan, hplan⟩ := hdelete
  unfold purgePlan planPurge
  rw [sees.row hwidth, Guarded.answer_bind, sees.segment, Guarded.answer_bind, if_neg hsome, hkey,
    Guarded.lift, Guarded.answer_bind, hplan, Guarded.answer_bind, Guarded.answer_bind]
  exact ⟨_, rfl⟩

/-- After a purge there is nothing to fetch. -/
theorem fetch_purged {store : Keyspace} {pkey : Bytes} (hwidth : pkey.length = t.schema.keyLen)
    (hrow : store.get (t.primaryKey pkey) = none) (hsegment : store.get (fieldsKey t.ns pkey) = none) :
    t.fetch store pkey = answer none := by
  have hkey : t.checkKey pkey = .ok () := if_neg (not_not.mpr hwidth)
  have hget : VirtualStorage.get store (t.primaryKey pkey) = .ok none := congrArg _ hrow
  have hget' : VirtualStorage.get store (fieldsKey t.ns pkey) = .ok none := congrArg _ hsegment
  unfold fetch storedDocument dynamicMap
  rw [hkey, hget, hget']
  rfl

/-- **What is stored can be taken away**: in every state of a run, a purge answers whether there
was a document, and leaves none. -/
theorem purge_answers (ready : Readable t.table) (faithful : Faithful t)
    (plain : ∀ f ∈ t.schema.hotFields, ∀ s, f.ty ≠ .vocab s)
    (undoes : ∀ r ∈ t.reduces, Undoes t r) {st : Tracked} (init : t.Init st)
    {events : List TableEvent} (orderly : Along t.advance t.Orderly st events) {pkey : Bytes}
    (hwidth : pkey.length = t.schema.keyLen) :
    ∃ store', t.purge (events.foldl t.advance st).store pkey
        = (answer ((events.foldl t.advance st).docs pkey).view.isSome, store') ∧
      t.fetch store' pkey = answer none := by
  obtain ⟨⟨labels, inv⟩, einv⟩ := entriesInv_run ready faithful plain init.inv init.entries orderly
  obtain ⟨-, ginv⟩ := groupsInv_run plain ready init.inv init.groups orderly
  generalize events.foldl t.advance st = final at inv einv ginv ⊢
  by_cases hdoc : final.docs pkey = {}
  · -- there is nothing to remove, and the store is left as it is
    have hnone : t.purgePlan final.store pkey = answer none := by
      have sees := inv.sees plain pkey
      rw [hdoc] at sees
      unfold purgePlan
      rw [sees.row hwidth, Guarded.answer_bind, sees.segment, Guarded.answer_bind]
      rfl
    refine ⟨final.store, ?_, ?_⟩
    · unfold purge
      rw [hnone, hdoc]
      rfl
    · rw [inv.fetch_eq plain hwidth, hdoc]
      rfl
  · -- a document of the run leaves its entries and its groups
    obtain ⟨plan, hplan⟩ := purgePlan_answers plain inv einv ginv undoes hwidth hdoc
    have hview : (final.docs pkey).view.isSome = true := by
      unfold Doc.view
      rw [if_neg]
      · rfl
      · rw [Option.isNone_iff_eq_none, Option.isNone_iff_eq_none, not_and_or]
        exact Doc.ne_empty_iff.mp hdoc
    refine ⟨applyOps final.store plan.ops, ?_, ?_⟩
    · unfold purge
      rw [hplan, hview]
      dsimp only
      rw [replay_keyspace]
      rfl
    · -- what the plan writes at the two addresses of the document
      have arms := purgePlan_answer (inv.sees plain pkey) hplan
      obtain ⟨rowImage, segmentImage, hrow, hsegment, lands⟩ := @Arms.lands t final.store _ _ _ _ _ _ _ _ arms
      refine fetch_purged hwidth ?_ ?_
      · have hat := lands.row pkey
        rw [if_pos rfl] at hat
        rw [hat]
        have hholds := inv.rows pkey
        unfold purgeRow at hrow
        cases hold : (final.docs pkey).row with
        | none =>
          rw [hold] at hrow hholds
          obtain rfl : rowImage = none := hrow
          exact hholds
        | some old =>
          rw [hold] at hrow
          obtain rfl : rowImage = some none := hrow
          rfl
      · have hat := lands.segment pkey
        rw [if_pos rfl] at hat
        rw [hat]
        have hholds := inv.segments pkey
        unfold purgeSegment at hsegment
        cases hold : (final.docs pkey).segment with
        | none =>
          rw [hold] at hsegment hholds
          obtain rfl : segmentImage = none := hsegment
          exact hholds
        | some old =>
          rw [hold] at hsegment
          obtain ⟨body, hframed, rfl⟩ := hsegment
          rw [List.append_nil] at hframed
          -- a segment without fields is deleted
          rw [if_pos ((framed_nil_iff inv.vocab.nodup inv.vocab.fits hframed).mpr rfl)]
          rfl

/-- The note that was merged twice. -/
theorem purge_answers_note : ∃ store',
    countedNotes.purge (noteEvents.foldl countedNotes.advance Tracked.new).store [1]
      = (answer ((noteEvents.foldl countedNotes.advance Tracked.new).docs [1]).view.isSome, store') ∧
    countedNotes.fetch store' [1] = answer none :=
  @purge_answers countedNotes noteTable_readable ⟨(by simp [countedNotes, grouped]), (by simp [countedNotes, grouped])⟩
    notes_plain (by
      intro r hr
      obtain rfl := List.mem_singleton.mp hr
      exact Or.inl ⟨_, count_lawful rfl⟩) Tracked.new
    ⟨fun _ _ _ => rfl, fun _ => rfl⟩ noteEvents countedNotes_orderly [1] rfl

end DynamicCollection

end Okm.Dynamic
