import Mathlib.Data.List.Basic

/-!
# Peekable iterators

An iterator over a finite sequence that counts how often it is asked, and the adaptor that
looks one item ahead: `peek` asks once and puts the answer aside, `next` hands out what was
put aside before it asks again.

`left` is what a consumer has still to see. Peeking does not change it and an item taken is
its head. A consumer that takes only what it has peeked at asks the iterator once for each
item and once for the end (`Honest`).
-/

namespace Okm.Lib

variable {α : Type}

/-- The items still to come, and the calls made so far. -/
structure Source (α : Type) where
  items : List α
  asked : Nat

def Source.next (s : Source α) : Option α × Source α :=
  match s.items with
  | [] => (none, ⟨[], s.asked + 1⟩)
  | a :: rest => (some a, ⟨rest, s.asked + 1⟩)

/-- A source and the answer put aside. -/
structure Peekable (α : Type) where
  source : Source α
  peeked : Option (Option α)

namespace Peekable

/-- Nothing asked yet. -/
def of (items : List α) : Peekable α := ⟨⟨items, 0⟩, none⟩

/-- The answer to come, put aside. -/
def peek (p : Peekable α) : Option α × Peekable α :=
  match p.peeked with
  | some answer => (answer, p)
  | none => (p.source.next.1, ⟨p.source.next.2, some p.source.next.1⟩)

/-- The answer put aside, or the next one. -/
def next (p : Peekable α) : Option α × Peekable α :=
  match p.peeked with
  | some answer => (answer, ⟨p.source, none⟩)
  | none => (p.source.next.1, ⟨p.source.next.2, none⟩)

/-- What a consumer has still to see. -/
def left (p : Peekable α) : List α :=
  match p.peeked with
  | some (some a) => a :: p.source.items
  | some none => []
  | none => p.source.items

/-- Of `n` items each was asked for at most once, and the end at most once. -/
def Honest (n : Nat) (p : Peekable α) : Prop :=
  match p.peeked with
  | some none => p.source.items = [] ∧ p.source.asked = n + 1
  | _ => p.source.asked + p.source.items.length = n

@[simp] theorem left_of (items : List α) : (of items).left = items := rfl

theorem honest_of (items : List α) : Honest items.length (of items) := Nat.zero_add _

variable {p : Peekable α} {n : Nat}

/-- **Peeking answers the head of what is left**, -/
theorem peek_eq (p : Peekable α) : p.peek.1 = p.left.head? := by
  obtain ⟨⟨items, asked⟩, peeked⟩ := p
  cases peeked with
  | some answer => cases answer <;> rfl
  | none => cases items <;> rfl

/-- and leaves it there. -/
theorem left_peek (p : Peekable α) : p.peek.2.left = p.left := by
  obtain ⟨⟨items, asked⟩, peeked⟩ := p
  cases peeked with
  | some answer => rfl
  | none => cases items <;> rfl

theorem peek_nil (h : p.left = []) : p.peek.1 = none := by
  rw [peek_eq, h]
  rfl

theorem peek_cons {a : α} {rest : List α} (h : p.left = a :: rest) : p.peek.1 = some a := by
  rw [peek_eq, h]
  rfl

theorem honest_peek (h : Honest n p) : Honest n p.peek.2 := by
  obtain ⟨⟨items, asked⟩, peeked⟩ := p
  cases peeked with
  | some answer => exact h
  | none =>
    cases items with
    | nil => exact ⟨rfl, congrArg (· + 1) h⟩
    | cons a rest =>
      change asked + (rest.length + 1) = n at h
      change asked + 1 + rest.length = n
      omega

/-- **What was peeked at is taken**: the head of what is left. -/
theorem next_peek {a : α} {rest : List α} (h : p.left = a :: rest) :
    p.peek.2.next.1 = some a ∧ p.peek.2.next.2.left = rest := by
  obtain ⟨⟨items, asked⟩, peeked⟩ := p
  cases peeked with
  | some answer =>
    cases answer with
    | some b =>
      obtain ⟨rfl, rfl⟩ := List.cons.inj h
      exact ⟨rfl, rfl⟩
    | none => cases h
  | none =>
    change items = a :: rest at h
    subst h
    exact ⟨rfl, rfl⟩

theorem left_next_lt {a : α} (h : p.peek.1 = some a) :
    p.peek.2.next.2.left.length < p.left.length := by
  obtain ⟨rest, hleft⟩ := List.head?_eq_some_iff.mp (p.peek_eq.symm.trans h)
  rw [(next_peek hleft).2, hleft, List.length_cons]
  exact Nat.lt_succ_self _

/-- Taking what was peeked at asks for nothing. -/
theorem honest_next_peek {a : α} {rest : List α} (h : Honest n p) (hleft : p.left = a :: rest) :
    Honest n p.peek.2.next.2 := by
  obtain ⟨⟨items, asked⟩, peeked⟩ := p
  cases peeked with
  | some answer =>
    cases answer with
    | some b => exact h
    | none => cases hleft
  | none =>
    cases items with
    | nil => cases hleft
    | cons b rest =>
      change asked + (rest.length + 1) = n at h
      change asked + 1 + rest.length = n
      omega

/-- The bound on the calls. -/
theorem Honest.asked_le (h : Honest n p) : p.source.asked ≤ n + 1 := by
  obtain ⟨⟨items, asked⟩, peeked⟩ := p
  cases peeked with
  | some answer =>
    cases answer with
    | some b =>
      change asked + items.length = n at h
      change asked ≤ n + 1
      omega
    | none => exact Nat.le_of_eq h.2
  | none =>
    change asked + items.length = n at h
    change asked ≤ n + 1
    omega

end Peekable

end Okm.Lib
