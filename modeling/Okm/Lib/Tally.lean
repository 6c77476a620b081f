import Okm.Lib.Guarded

/-!
# Accumulators that are folded and unfolded

An accumulator goes over a collection that changes: what comes in is folded into it, what
leaves is unfolded. Where folds may change places and an unfold takes the fold before it back,
what the accumulator comes to depends on the collection alone, not on how it came about. The
steps may be refused; only those that answer count.
-/

namespace Okm.Lib

open Guarded

variable {φ ε A X : Type}

/-- The laws of an accumulator, on the values it can have. -/
structure Reversible (good : A → Prop) (fold unfold : A → X → Guarded φ ε A) : Prop where
  keeps : ∀ {a b x}, good a → fold a x = answer b → good b
  swap : ∀ {a b c x y}, good a → fold a x = answer b → fold b y = answer c →
    ∃ b', fold a y = answer b' ∧ fold b' x = answer c
  undo : ∀ {a b x}, good a → fold a x = answer b → unfold b x = answer a

/-- What the accumulator comes to over these elements. -/
def Tallies (fold : A → X → Guarded φ ε A) (seed : A) (xs : List X) (a : A) : Prop :=
  xs.foldlM fold seed = answer a

section

variable {good : A → Prop} {fold unfold : A → X → Guarded φ ε A} {seed a : A} {xs ys : List X}
  {x : X}

theorem tallies_nil : Tallies fold seed [] a ↔ a = seed := by
  unfold Tallies
  rw [List.foldlM_nil, pure_eq, Guarded.answer.injEq]
  exact eq_comm

theorem tallies_cons : Tallies fold seed (x :: xs) a ↔
    ∃ b, fold seed x = answer b ∧ Tallies fold b xs a := by
  unfold Tallies
  rw [List.foldlM_cons, bind_eq_answer]

theorem tallies_concat : Tallies fold seed (xs ++ [x]) a ↔
    ∃ b, Tallies fold seed xs b ∧ fold b x = answer a := by
  induction xs generalizing seed with
  | nil =>
    rw [List.nil_append, tallies_cons]
    constructor
    · rintro ⟨b, hb, ha⟩
      rw [tallies_nil] at ha
      exact ⟨seed, tallies_nil.mpr rfl, ha ▸ hb⟩
    · rintro ⟨b, hb, ha⟩
      rw [tallies_nil] at hb
      exact ⟨a, hb ▸ ha, tallies_nil.mpr rfl⟩
  | cons y xs ih =>
    rw [List.cons_append, tallies_cons]
    constructor
    · rintro ⟨b, hb, ha⟩
      obtain ⟨c, hc, ha⟩ := ih.mp ha
      exact ⟨c, tallies_cons.mpr ⟨b, hb, hc⟩, ha⟩
    · rintro ⟨c, hc, ha⟩
      obtain ⟨b, hb, hc⟩ := tallies_cons.mp hc
      exact ⟨b, hb, ih.mpr ⟨c, hc, ha⟩⟩

theorem Reversible.good_tally (laws : Reversible good fold unfold) (hseed : good seed)
    (h : Tallies fold seed xs a) : good a := by
  induction xs generalizing seed with
  | nil => exact tallies_nil.mp h ▸ hseed
  | cons x xs ih =>
    obtain ⟨b, hb, h⟩ := tallies_cons.mp h
    exact ih (laws.keeps hseed hb) h

/-- **The order of the elements does not matter.** -/
theorem Reversible.perm (laws : Reversible good fold unfold) (hperm : xs.Perm ys)
    (hseed : good seed) (h : Tallies fold seed xs a) : Tallies fold seed ys a := by
  induction hperm generalizing seed with
  | nil => exact h
  | cons x _ ih =>
    obtain ⟨b, hb, h⟩ := tallies_cons.mp h
    exact tallies_cons.mpr ⟨b, hb, ih (laws.keeps hseed hb) h⟩
  | swap x y l =>
    obtain ⟨b, hb, h⟩ := tallies_cons.mp h
    obtain ⟨c, hc, h⟩ := tallies_cons.mp h
    obtain ⟨b', hb', hc'⟩ := laws.swap hseed hb hc
    exact tallies_cons.mpr ⟨b', hb', tallies_cons.mpr ⟨c, hc', h⟩⟩
  | trans _ _ ih ih' => exact ih' hseed (ih hseed h)

/-- **An element that leaves is taken back, whenever it came in.** -/
theorem Reversible.leave (laws : Reversible good fold unfold) (hseed : good seed)
    (hperm : xs.Perm (ys ++ [x])) (h : Tallies fold seed xs a) :
    ∃ b, unfold a x = answer b ∧ Tallies fold seed ys b := by
  obtain ⟨b, hb, ha⟩ := tallies_concat.mp (laws.perm hperm hseed h)
  exact ⟨b, laws.undo (laws.good_tally hseed hb) ha, hb⟩

/-- An element that comes in is folded last. -/
theorem Reversible.enter (laws : Reversible good fold unfold) (hseed : good seed)
    (hperm : ys.Perm (xs ++ [x])) (h : Tallies fold seed xs a) {b : A}
    (hb : fold a x = answer b) : Tallies fold seed ys b :=
  laws.perm hperm.symm hseed (tallies_concat.mpr ⟨a, h, hb⟩)

end

end Okm.Lib
