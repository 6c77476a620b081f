/-!
# Runs of a step that may be refused

A run is the operations that were answered, in order, each with its answer. `Trace`
keeps them behind the state they lead to, so that a property of a run is one of its
past and its state, and is proved by what one more answered operation does to both.

Operations may be guarded: `Trace step meets` are the runs in which every operation
met its guard, given the past and the state it found. With a guard that always holds
they are all runs.
-/

namespace Okm.Lib

variable {ε σ ω ρ : Type}

/-- The runs of `step` from `start` whose operations met `meets`. -/
inductive Trace (step : σ → ω → Except ε (ρ × σ)) (meets : List (ω × ρ) → σ → ω → Prop) (start : σ) :
    List (ω × ρ) → σ → Prop where
  | nil : Trace step meets start [] start
  | snoc {past : List (ω × ρ)} {s s' : σ} {op : ω} {answer : ρ} :
      Trace step meets start past s → meets past s op → step s op = .ok (answer, s') →
      Trace step meets start (past ++ [(op, answer)]) s'

variable {step : σ → ω → Except ε (ρ × σ)} {meets : List (ω × ρ) → σ → ω → Prop} {start s : σ}
  {past : List (ω × ρ)}

/-- **What holds at the start and is kept by every answered operation holds of
every run.** -/
theorem Trace.invariant (run : Trace step meets start past s)
    (inv : List (ω × ρ) → σ → Prop) (hstart : inv [] start)
    (hstep : ∀ past s op answer s', inv past s → meets past s op → step s op = .ok (answer, s') →
      inv (past ++ [(op, answer)]) s') : inv past s := by
  induction run with
  | nil => exact hstart
  | snoc _ hmeets hok ih => exact hstep _ _ _ _ _ ih hmeets hok

/-- A run that goes on from where another one ended, under a guard that does not look
back. -/
theorem Trace.trans {more : List (ω × ρ)} {s' : σ}
    (forget : ∀ past past' s op, meets past s op → meets past' s op)
    (run : Trace step meets start past s) (next : Trace step meets s more s') :
    Trace step meets start (past ++ more) s' := by
  induction next with
  | nil => rwa [List.append_nil]
  | snoc _ hmeets hok ih =>
    rw [← List.append_assoc]
    exact ih.snoc (forget _ _ _ _ hmeets) hok

/-- **Every answer of a run was given in the state the operations before it led to.** -/
theorem Trace.split (run : Trace step meets start past s) {before after : List (ω × ρ)} {op : ω}
    {answer : ρ} (hpast : past = before ++ (op, answer) :: after) :
    ∃ t t', Trace step meets start before t ∧ meets before t op ∧ step t op = .ok (answer, t') := by
  induction run generalizing after with
  | nil => exact absurd hpast.symm (by simp)
  | snoc hrun hmeets hok ih =>
    rcases List.eq_nil_or_concat after with rfl | ⟨after, last, rfl⟩
    · obtain ⟨rfl, hlast⟩ := List.append_inj' hpast rfl
      obtain ⟨rfl, rfl⟩ := Prod.mk.inj (List.cons.inj hlast).1
      exact ⟨_, _, hrun, hmeets, hok⟩
    · rw [List.concat_eq_append, ← List.cons_append, ← List.append_assoc] at hpast
      exact ih (List.append_inj' hpast rfl).1

/-- A weaker guard has more runs. -/
theorem Trace.mono {meets' : List (ω × ρ) → σ → ω → Prop}
    (weaker : ∀ past s op, meets past s op → meets' past s op)
    (run : Trace step meets start past s) : Trace step meets' start past s := by
  induction run with
  | nil => exact .nil
  | snoc _ hmeets hok ih => exact ih.snoc (weaker _ _ _ hmeets) hok

/-- These operations, one after another. -/
def runAll (step : σ → ω → Except ε (ρ × σ)) : σ → List ω → Except ε (List (ω × ρ) × σ)
  | s, [] => .ok ([], s)
  | s, op :: ops =>
    match step s op with
    | .error e => .error e
    | .ok (answer, s) =>
      match runAll step s ops with
      | .error e => .error e
      | .ok (past, s) => .ok ((op, answer) :: past, s)

theorem runAll_cons {op : ω} {ops : List ω} (h : runAll step start (op :: ops) = .ok (past, s)) :
    ∃ answer next rest, step start op = .ok (answer, next) ∧ runAll step next ops = .ok (rest, s) ∧
      past = (op, answer) :: rest := by
  unfold runAll at h
  cases hstep : step start op with
  | error e =>
    rw [hstep] at h
    cases h
  | ok found =>
    obtain ⟨answer, next⟩ := found
    rw [hstep] at h
    dsimp only at h
    cases hrest : runAll step next ops with
    | error e =>
      rw [hrest] at h
      cases h
    | ok found =>
      obtain ⟨rest, last⟩ := found
      rw [hrest] at h
      obtain ⟨rfl, rfl⟩ := Prod.mk.inj (Except.ok.inj h)
      exact ⟨answer, next, rest, rfl, hrest, rfl⟩

/-- A run goes on with operations that meet their guard whatever came before, when they
are all answered. -/
theorem Trace.runAll {before : List (ω × ρ)} {first : σ} {ops : List ω}
    (run : Trace step meets first before start) (hmeets : ∀ past s, ∀ op ∈ ops, meets past s op)
    (hok : runAll step start ops = .ok (past, s)) :
    Trace step meets first (before ++ past) s := by
  induction ops generalizing start past before with
  | nil =>
    obtain ⟨rfl, rfl⟩ := Prod.mk.inj (Except.ok.inj hok)
    rwa [List.append_nil]
  | cons op ops ih =>
    obtain ⟨answer, next, rest, hstep, hrest, rfl⟩ := runAll_cons hok
    have hone := run.snoc (hmeets before start op (by simp)) hstep
    rw [show before ++ (op, answer) :: rest = before ++ [(op, answer)] ++ rest by simp]
    exact ih hone (fun past s other hother => hmeets past s other (by simp [hother])) hrest

/-- Operations that meet their guard whatever came before, and are all answered, are a
run. -/
theorem trace_runAll {ops : List ω} (hmeets : ∀ past s, ∀ op ∈ ops, meets past s op)
    (hok : runAll step start ops = .ok (past, s)) : Trace step meets start past s :=
  Trace.nil.runAll hmeets hok

/-- These operations, one after another behind the past, as long as each passes the check
and is answered. -/
def runChecked (step : σ → ω → Except ε (ρ × σ)) (check : List (ω × ρ) → σ → ω → Bool) :
    List (ω × ρ) → σ → List ω → Option (List (ω × ρ) × σ)
  | past, s, [] => some (past, s)
  | past, s, op :: ops =>
    if check past s op then
      match step s op with
      | .error _ => none
      | .ok (answer, s) => runChecked step check (past ++ [(op, answer)]) s ops
    else none

/-- Operations that are answered and pass a check of their guard are a run. -/
theorem Trace.runChecked {check : List (ω × ρ) → σ → ω → Bool}
    (hcheck : ∀ past s op, check past s op = true → meets past s op) {before : List (ω × ρ)}
    {first : σ} {ops : List ω} (run : Trace step meets first before start)
    (hok : runChecked step check before start ops = some (past, s)) :
    Trace step meets first past s := by
  induction ops generalizing start before with
  | nil =>
    obtain ⟨rfl, rfl⟩ := Prod.mk.inj (Option.some.inj hok)
    exact run
  | cons op ops ih =>
    rw [Lib.runChecked] at hok
    by_cases hpass : check before start op = true
    · rw [if_pos hpass] at hok
      cases hstep : step start op with
      | error e =>
        rw [hstep] at hok
        cases hok
      | ok found =>
        obtain ⟨answer, next⟩ := found
        rw [hstep] at hok
        exact ih (run.snoc (hcheck before start op hpass) hstep) hok
    · rw [if_neg hpass] at hok
      cases hok

/-- The operations of a checked run, when its guard can be decided. -/
def runGuarded (step : σ → ω → Except ε (ρ × σ)) (meets : List (ω × ρ) → σ → ω → Prop)
    [∀ past s op, Decidable (meets past s op)] (s : σ) (ops : List ω) :
    Option (List (ω × ρ) × σ) :=
  Lib.runChecked step (fun past s op => decide (meets past s op)) [] s ops

theorem Trace.runGuarded [∀ past s op, Decidable (meets past s op)] {ops : List ω}
    (hok : runGuarded step meets start ops = some (past, s)) : Trace step meets start past s :=
  Trace.nil.runChecked (fun _ _ _ hpass => of_decide_eq_true hpass) hok

/-! ## Steps that always answer

A step that is never refused needs no answers kept: the run is a fold, and the guard is
met along it. -/

section

variable {advance : σ → ω → σ} {meets : σ → ω → Prop}

/-- Every operation meets its guard in the state it finds. -/
def Along (advance : σ → ω → σ) (meets : σ → ω → Prop) : σ → List ω → Prop
  | _, [] => True
  | s, op :: ops => meets s op ∧ Along advance meets (advance s op) ops

/-- **What a guarded operation keeps, a guarded run keeps**, together with what it says of
the operations so far. -/
theorem Along.invariant (inv : List ω → σ → Prop) {ops : List ω} {s : σ}
    (h : Along advance meets s ops) (hstart : inv [] s)
    (hstep : ∀ past s op, inv past s → meets s op → inv (past ++ [op]) (advance s op)) :
    inv ops (ops.foldl advance s) := by
  have hall : ∀ past, inv past s → inv (past ++ ops) (ops.foldl advance s) := by
    clear hstart
    induction ops generalizing s with
    | nil =>
      intro past hpast
      rwa [List.append_nil]
    | cons op ops ih =>
      intro past hpast
      obtain ⟨hnow, hlater⟩ := h
      have hrest := ih hlater (past ++ [op]) (hstep past s op hpast hnow)
      rwa [List.append_assoc] at hrest
  exact hall [] hstart

theorem along_append {ops more : List ω} {s : σ} : Along advance meets s (ops ++ more) ↔
    Along advance meets s ops ∧ Along advance meets (ops.foldl advance s) more := by
  induction ops generalizing s with
  | nil => exact (iff_of_eq (true_and _)).symm
  | cons op ops ih => exact (and_congr_right fun _ => ih).trans and_assoc.symm

end

end Okm.Lib
