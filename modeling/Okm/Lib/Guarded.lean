import Mathlib.Data.List.Basic

/-!
# Answers, refusals and aborts

A computation over input that may be anything comes to one of three ends: it answers, it
refuses the input and says why, or it aborts. A refusal is an end like an answer; only the
abort is a fault of the code.

Where the ends of the steps depend on the elements alone, a loop aborts just when the first
element that does not pass is one that aborts (`foldlM_aborts`).
-/

namespace Okm.Lib

inductive Guarded (φ ε α : Type) where
  | answer (a : α)
  | refuse (e : ε)
  | abort (f : φ)
  deriving DecidableEq

namespace Guarded

variable {φ ε α β σ : Type}

def bind (x : Guarded φ ε α) (k : α → Guarded φ ε β) : Guarded φ ε β :=
  match x with
  | answer a => k a
  | refuse e => refuse e
  | abort f => abort f

instance instMonad : Monad (Guarded φ ε) where
  pure := answer
  bind := bind

@[simp] theorem answer_bind (a : α) (k : α → Guarded φ ε β) : (answer a >>= k) = k a := rfl

@[simp] theorem refuse_bind (e : ε) (k : α → Guarded φ ε β) : (refuse e >>= k) = refuse e := rfl

@[simp] theorem abort_bind (f : φ) (k : α → Guarded φ ε β) : (abort f >>= k) = abort f := rfl

@[simp] theorem pure_eq (a : α) : (pure a : Guarded φ ε α) = answer a := rfl

instance instLawfulMonad : LawfulMonad (Guarded φ ε) :=
  LawfulMonad.mk' _ (fun x => by cases x <;> rfl) (fun _ _ => rfl)
    (fun x _ _ => by cases x <;> rfl)

/-- A refusal already made, or the answer. -/
def lift : Except ε α → Guarded φ ε α
  | .ok a => answer a
  | .error e => refuse e

@[simp] theorem lift_ok (a : α) : (lift (.ok a) : Guarded φ ε α) = answer a := rfl

@[simp] theorem lift_error (e : ε) : (lift (.error e) : Guarded φ ε α) = refuse e := rfl

/-- A refusal put into the words of the caller. -/
def mapRefuse {ε' : Type} (g : ε → ε') : Guarded φ ε α → Guarded φ ε' α
  | answer a => answer a
  | refuse e => refuse (g e)
  | abort f => abort f

/-! ## Which end it comes to -/

def Answers (x : Guarded φ ε α) : Prop := ∃ a, x = answer a

def Aborts (x : Guarded φ ε α) : Prop := ∃ f, x = abort f

@[simp] theorem answers_answer (a : α) : (answer a : Guarded φ ε α).Answers := ⟨a, rfl⟩

@[simp] theorem not_answers_refuse (e : ε) : ¬ (refuse e : Guarded φ ε α).Answers := by
  intro h
  obtain ⟨a, h⟩ := h
  cases h

@[simp] theorem not_answers_abort (f : φ) : ¬ (abort f : Guarded φ ε α).Answers := by
  intro h
  obtain ⟨a, h⟩ := h
  cases h

@[simp] theorem not_aborts_answer (a : α) : ¬ (answer a : Guarded φ ε α).Aborts := by
  intro h
  obtain ⟨f, h⟩ := h
  cases h

@[simp] theorem not_aborts_refuse (e : ε) : ¬ (refuse e : Guarded φ ε α).Aborts := by
  intro h
  obtain ⟨f, h⟩ := h
  cases h

@[simp] theorem aborts_abort (f : φ) : (abort f : Guarded φ ε α).Aborts := ⟨f, rfl⟩

theorem bind_eq_answer {x : Guarded φ ε α} {k : α → Guarded φ ε β} {b : β} :
    (x >>= k) = answer b ↔ ∃ a, x = answer a ∧ k a = answer b := by
  cases x <;> simp

theorem lift_eq_answer {x : Except ε α} {a : α} : (lift x : Guarded φ ε α) = answer a ↔ x = .ok a := by
  cases x <;> simp [lift]

theorem mapRefuse_eq_answer {ε' : Type} {g : ε → ε'} {x : Guarded φ ε α} {a : α} :
    x.mapRefuse g = answer a ↔ x = answer a := by
  cases x <;> simp [mapRefuse]

theorem aborts_bind {x : Guarded φ ε α} {k : α → Guarded φ ε β} :
    (x >>= k).Aborts ↔ x.Aborts ∨ ∃ a, x = answer a ∧ (k a).Aborts := by
  cases x <;> simp

theorem answers_bind {x : Guarded φ ε α} {k : α → Guarded φ ε β} :
    (x >>= k).Answers ↔ ∃ a, x = answer a ∧ (k a).Answers := by
  cases x <;> simp

/-! ## Loops -/

/-- The first element that does not pass is one that stops the loop for good. -/
def FirstStop (passes stops : α → Prop) (as : List α) : Prop :=
  ∃ front a back, as = front ++ a :: back ∧ (∀ b ∈ front, passes b) ∧ stops a

theorem firstStop_nil (passes stops : α → Prop) : ¬ FirstStop passes stops [] := by
  intro h
  obtain ⟨front, a, back, h, -⟩ := h
  cases front <;> cases h

theorem firstStop_cons {passes stops : α → Prop} {a : α} {as : List α} :
    FirstStop passes stops (a :: as) ↔ stops a ∨ passes a ∧ FirstStop passes stops as := by
  constructor
  · intro h
    obtain ⟨front, b, back, heq, hfront, hb⟩ := h
    cases front with
    | nil =>
      obtain ⟨rfl, -⟩ := List.cons.inj heq
      exact Or.inl hb
    | cons c front =>
      obtain ⟨rfl, rfl⟩ := List.cons.inj heq
      obtain ⟨hc, hfront⟩ := List.forall_mem_cons.mp hfront
      exact Or.inr ⟨hc, front, b, back, rfl, hfront, hb⟩
  · intro h
    rcases h with ha | ⟨ha, front, b, back, rfl, hfront, hb⟩
    · exact ⟨[], a, as, rfl, by simp, ha⟩
    · exact ⟨a :: front, b, back, rfl, List.forall_mem_cons.mpr ⟨ha, hfront⟩, hb⟩

/-- Where an element passes unless it stops the loop, any that stops it is enough. -/
theorem firstStop_not {stops : α → Prop} {as : List α} :
    FirstStop (fun a => ¬ stops a) stops as ↔ ∃ a ∈ as, stops a := by
  induction as with
  | nil => simp [firstStop_nil]
  | cons a as ih =>
    rw [firstStop_cons, ih, List.exists_mem_cons_iff]
    by_cases ha : stops a
    · simp [ha]
    · simp [ha]

section

variable {step : σ → α → Guarded φ ε σ} {passes stops : α → Prop}

/-- A loop whose every step answers is the loop of the answers. -/
theorem foldlM_eq_answer {g : σ → α → σ} {as : List α}
    (h : ∀ a ∈ as, ∀ s, step s a = answer (g s a)) (s : σ) :
    as.foldlM step s = answer (as.foldl g s) := by
  induction as generalizing s with
  | nil => rfl
  | cons a as ih =>
    obtain ⟨ha, has⟩ := List.forall_mem_cons.mp h
    rw [List.foldlM_cons, ha s, answer_bind, ih has, List.foldl_cons]

/-- A loop over what is all answered. -/
theorem mapM_eq_answer {f : α → Guarded φ ε β} {as : List α} {bs : List β}
    (h : List.Forall₂ (fun a b => f a = answer b) as bs) : as.mapM f = answer bs := by
  induction h with
  | nil => rfl
  | cons ha _ ih => rw [List.mapM_cons, ha, answer_bind, ih, answer_bind, pure_eq]

/-- What every step that answers keeps, a loop that answers keeps. -/
theorem foldlM_invariant {P : σ → Prop} {as : List α}
    (hstep : ∀ a ∈ as, ∀ s s', P s → step s a = answer s' → P s') {s s' : σ} (hs : P s)
    (h : as.foldlM step s = answer s') : P s' := by
  induction as generalizing s with
  | nil =>
    injection h with h
    exact h ▸ hs
  | cons a as ih =>
    obtain ⟨ha, has⟩ := List.forall_mem_cons.mp hstep
    rw [List.foldlM_cons] at h
    obtain ⟨next, hnext, hrest⟩ := bind_eq_answer.mp h
    exact ih has (ha s next hs hnext) hrest

/-- What each step sees to, and no step undoes, a loop that answers has seen to for every
element. -/
theorem foldlM_each {Q : α → σ → Prop} {as : List α}
    (hset : ∀ a ∈ as, ∀ s s', step s a = answer s' → Q a s')
    (hkeep : ∀ a ∈ as, ∀ b s s', Q b s → step s a = answer s' → Q b s') {s s' : σ}
    (h : as.foldlM step s = answer s') : ∀ a ∈ as, Q a s' := by
  induction as generalizing s with
  | nil =>
    intro a ha
    cases ha
  | cons a as ih =>
    obtain ⟨hkeepA, hkeep⟩ := List.forall_mem_cons.mp hkeep
    obtain ⟨hsetA, hset⟩ := List.forall_mem_cons.mp hset
    rw [List.foldlM_cons] at h
    obtain ⟨next, hnext, hrest⟩ := bind_eq_answer.mp h
    refine List.forall_mem_cons.mpr ⟨?_, ih hset hkeep hrest⟩
    exact foldlM_invariant (fun b hb s s' hs hstep => hkeep b hb a s s' hs hstep)
      (hsetA s next hnext) hrest

/-- What each step adds, a loop that answers adds one after the other. -/
theorem foldlM_collects {R : List β → σ → σ → Prop} (refl : ∀ s, R [] s s)
    (trans : ∀ {xs ys s s' s''}, R xs s s' → R ys s' s'' → R (xs ++ ys) s s'') {f : α → List β}
    {as : List α} (hstep : ∀ a ∈ as, ∀ s s', step s a = answer s' → R (f a) s s') {s s' : σ}
    (h : as.foldlM step s = answer s') : R (as.flatMap f) s s' := by
  induction as generalizing s with
  | nil =>
    injection h with h
    exact h ▸ refl s
  | cons a as ih =>
    obtain ⟨ha, has⟩ := List.forall_mem_cons.mp hstep
    rw [List.foldlM_cons] at h
    obtain ⟨next, hnext, hrest⟩ := bind_eq_answer.mp h
    rw [List.flatMap_cons]
    exact trans (ha s next hnext) (ih has hrest)

/-- A loop answers when every element passes. -/
theorem foldlM_answers {as : List α}
    (hpass : ∀ a ∈ as, ∀ s, (step s a).Answers ↔ passes a) (s : σ) :
    (as.foldlM step s).Answers ↔ ∀ a ∈ as, passes a := by
  induction as generalizing s with
  | nil => simp
  | cons a as ih =>
    obtain ⟨ha, has⟩ := List.forall_mem_cons.mp hpass
    rw [List.foldlM_cons, answers_bind, List.forall_mem_cons]
    constructor
    · intro h
      obtain ⟨s', hs', hrest⟩ := h
      exact ⟨(ha s).mp ⟨s', hs'⟩, (ih has s').mp hrest⟩
    · intro h
      obtain ⟨s', hs'⟩ := (ha s).mpr h.1
      exact ⟨s', hs', (ih has s').mpr h.2⟩

/-- **A loop aborts just when the first element that does not pass is one that aborts.** -/
theorem foldlM_aborts {as : List α}
    (hpass : ∀ a ∈ as, ∀ s, (step s a).Answers ↔ passes a)
    (hstop : ∀ a ∈ as, ∀ s, (step s a).Aborts ↔ stops a) (s : σ) :
    (as.foldlM step s).Aborts ↔ FirstStop passes stops as := by
  induction as generalizing s with
  | nil => simp [firstStop_nil]
  | cons a as ih =>
    obtain ⟨hpassA, hpass⟩ := List.forall_mem_cons.mp hpass
    obtain ⟨hstopA, hstop⟩ := List.forall_mem_cons.mp hstop
    rw [List.foldlM_cons, aborts_bind, firstStop_cons, hstopA s]
    refine or_congr Iff.rfl ?_
    constructor
    · intro h
      obtain ⟨s', hs', hrest⟩ := h
      exact ⟨(hpassA s).mp ⟨s', hs'⟩, (ih hpass hstop s').mp hrest⟩
    · intro h
      obtain ⟨s', hs'⟩ := (hpassA s).mpr h.1
      exact ⟨s', hs', (ih hpass hstop s').mpr h.2⟩

end

end Guarded

end Okm.Lib
