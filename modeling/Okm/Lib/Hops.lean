import Mathlib.Order.Lattice.Nat

/-!
# Hops along a relation

Walks of a counted number of steps, what is within so many of them, and how far away a node
is. The layers of a breadth-first search are the nodes at each distance: the next layer is
one step from the last and not yet within reach (`atHop_succ_iff`), and once a layer is empty
nothing is farther (`within_of_empty`).
-/

namespace Okm.Lib

/-- `b` is reached from `a` in exactly `n` steps. -/
inductive Steps {N : Type} (r : N → N → Prop) (a : N) : Nat → N → Prop where
  | here : Steps r a 0 a
  | step {n : Nat} {b c : N} (h : Steps r a n b) (hstep : r b c) : Steps r a (n + 1) c

variable {N : Type} {r : N → N → Prop} {a b c : N} {m n : Nat}

/-- `b` is reached from `a` in at most `n` steps. -/
def Within (r : N → N → Prop) (a : N) (n : Nat) (b : N) : Prop :=
  ∃ k ≤ n, Steps r a k b

/-- The fewest steps from `a` to `b`. -/
noncomputable def hopDistance (r : N → N → Prop) (a b : N) : Nat :=
  sInf {n | Steps r a n b}

/-- `b` is reached in `n` steps and in no fewer. -/
def AtHop (r : N → N → Prop) (a : N) (n : Nat) (b : N) : Prop :=
  Steps r a n b ∧ ∀ k < n, ¬ Steps r a k b

theorem Within.mono (h : Within r a m b) (hle : m ≤ n) : Within r a n b := by
  obtain ⟨k, hk, hsteps⟩ := h
  exact ⟨k, hk.trans hle, hsteps⟩

theorem within_zero_iff : Within r a 0 b ↔ b = a := by
  constructor
  · intro h
    obtain ⟨k, hk, hsteps⟩ := h
    obtain rfl := Nat.le_zero.mp hk
    cases hsteps
    rfl
  · intro h
    subst h
    exact ⟨0, Nat.le_refl 0, Steps.here⟩

theorem atHop_zero : AtHop r a 0 a :=
  ⟨Steps.here, fun k hk => absurd hk (Nat.not_lt_zero k)⟩

/-- Within one step more is within as many, or at the next distance. -/
theorem within_succ_iff : Within r a (n + 1) b ↔ Within r a n b ∨ AtHop r a (n + 1) b := by
  constructor
  · intro h
    by_cases hwithin : Within r a n b
    · exact .inl hwithin
    · obtain ⟨k, hk, hsteps⟩ := h
      have hfewer : ∀ j < n + 1, ¬ Steps r a j b :=
        fun j hj hsteps => hwithin ⟨j, Nat.lt_succ_iff.mp hj, hsteps⟩
      rcases Nat.lt_or_eq_of_le hk with hlt | rfl
      · exact absurd hsteps (hfewer k hlt)
      · exact .inr ⟨hsteps, hfewer⟩
  · intro h
    rcases h with hwithin | hat
    · exact hwithin.mono (Nat.le_succ n)
    · exact ⟨n + 1, Nat.le_refl _, hat.1⟩

/-- **The next layer is one step from the last**, and not within reach before. -/
theorem atHop_succ_iff :
    AtHop r a (n + 1) c ↔ (∃ b, AtHop r a n b ∧ r b c) ∧ ¬ Within r a n c := by
  constructor
  · intro h
    obtain ⟨hsteps, hfewer⟩ := h
    have hnot : ¬ Within r a n c := fun hwithin => by
      obtain ⟨k, hk, hsteps⟩ := hwithin
      exact hfewer k (Nat.lt_succ_iff.mpr hk) hsteps
    obtain _ | ⟨hsteps, hstep⟩ := hsteps
    -- were the node before it nearer, so were the node
    exact ⟨⟨_, ⟨hsteps, fun k hk hb => hfewer (k + 1) (Nat.succ_lt_succ hk) (hb.step hstep)⟩, hstep⟩,
      hnot⟩
  · intro h
    obtain ⟨⟨b, hat, hstep⟩, hnot⟩ := h
    exact ⟨hat.1.step hstep, fun k hk hsteps => hnot ⟨k, Nat.lt_succ_iff.mp hk, hsteps⟩⟩

/-- **Past an empty layer nothing is reached.** -/
theorem within_of_empty (hempty : ∀ b, ¬ AtHop r a (n + 1) b) (hle : n ≤ m) :
    Within r a m b ↔ Within r a n b := by
  have hnone : ∀ k b, ¬ AtHop r a (n + 1 + k) b := by
    intro k
    induction k with
    | zero => exact hempty
    | succ k ih =>
      intro b h
      obtain ⟨⟨c, hat, -⟩, -⟩ := atHop_succ_iff.mp h
      exact ih c hat
  obtain ⟨k, rfl⟩ := Nat.exists_eq_add_of_le hle
  clear hle
  induction k with
  | zero => exact Iff.rfl
  | succ k ih =>
    have hat : ¬ AtHop r a (n + k + 1) b := by
      have h := hnone k b
      rwa [Nat.add_right_comm] at h
    exact (within_succ_iff.trans (or_iff_left hat)).trans ih

theorem Within.hopDistance_le (h : Within r a n b) : hopDistance r a b ≤ n := by
  obtain ⟨k, hk, hsteps⟩ := h
  exact (Nat.sInf_le hsteps).trans hk

theorem AtHop.hopDistance_eq (h : AtHop r a n b) : hopDistance r a b = n := by
  have hmem : hopDistance r a b ∈ {n | Steps r a n b} := Nat.sInf_mem ⟨n, h.1⟩
  refine le_antisymm (Nat.sInf_le h.1) (le_of_not_gt fun hlt => ?_)
  exact h.2 _ hlt hmem

end Okm.Lib
