import Mathlib.Data.List.Forall2

/-!
# Fallible computations with an account of their failures

`Meets fails r P` reads: where `r` returns a value it satisfies `P`, and where it fails it
fails in a way `fails` allows. With no failure allowed it says that `r` returns. The rules
compose it along `bind` and through a loop with an invariant.
-/

namespace Okm.Lib

variable {ε α β σ : Type} {fails : ε → Prop}

/-- The value satisfies `P`, the failure is one of `fails`. -/
def Meets (fails : ε → Prop) (r : Except ε α) (P : α → Prop) : Prop :=
  match r with
  | .ok a => P a
  | .error e => fails e

@[simp] theorem meets_ok {a : α} {P : α → Prop} : Meets fails (.ok a : Except ε α) P ↔ P a :=
  Iff.rfl

@[simp] theorem meets_pure {a : α} {P : α → Prop} : Meets fails (pure a : Except ε α) P ↔ P a :=
  Iff.rfl

@[simp] theorem meets_error {e : ε} {P : α → Prop} :
    Meets fails (.error e : Except ε α) P ↔ fails e := Iff.rfl

/-- Nothing claimed. -/
theorem meets_any (r : Except ε α) : Meets (fun _ => True) r fun _ => True := by
  cases r with
  | ok a => exact trivial
  | error e => exact trivial

theorem Meets.mono {r : Except ε α} {P Q : α → Prop} (h : Meets fails r P)
    (hle : ∀ a, P a → Q a) : Meets fails r Q := by
  cases r with
  | ok a => exact hle a h
  | error e => exact h

theorem Meets.bind {r : Except ε α} {f : α → Except ε β} {P : α → Prop} {Q : β → Prop}
    (h : Meets fails r P) (hf : ∀ a, P a → Meets fails (f a) Q) : Meets fails (r >>= f) Q := by
  cases r with
  | ok a => exact hf a h
  | error e => exact h

/-- A loop with an invariant. -/
theorem Meets.foldlM {step : σ → α → Except ε σ} {I : σ → Prop} {as : List α} {s : σ}
    (h : I s) (hstep : ∀ s a, a ∈ as → I s → Meets fails (step s a) I) :
    Meets fails (as.foldlM step s) I := by
  induction as generalizing s with
  | nil => exact h
  | cons a as ih =>
    rw [List.foldlM_cons]
    refine (hstep s a List.mem_cons_self h).bind ?_
    intro s' hs'
    exact ih hs' fun s b hb => hstep s b (List.mem_cons_of_mem a hb)

/-- Element by element, a relation between argument and value. -/
theorem Meets.mapM {f : α → Except ε β} {R : α → β → Prop} {as : List α}
    (h : ∀ a, a ∈ as → Meets fails (f a) (R a)) :
    Meets fails (as.mapM f) (List.Forall₂ R as) := by
  induction as with
  | nil => exact List.Forall₂.nil
  | cons a as ih =>
    rw [List.mapM_cons]
    refine (h a List.mem_cons_self).bind ?_
    intro b hb
    refine (ih fun c hc => h c (List.mem_cons_of_mem a hc)).bind ?_
    intro bs hbs
    exact List.Forall₂.cons hb hbs

/-- What returned, returned a value as described. -/
theorem Meets.of_ok {r : Except ε α} {P : α → Prop} {a : α} (h : Meets fails r P)
    (hr : r = .ok a) : P a := by
  rw [hr] at h
  exact h

end Okm.Lib
