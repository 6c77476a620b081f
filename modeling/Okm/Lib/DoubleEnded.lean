import Mathlib.Data.List.Basic

/-!
# Sequences read from both ends

A finite sequence answers calls at its two ends, and what is left lies between them.
`Serves` is the contract such a reader owes: the items from the front, what is left and
the items from the back in reverse are the sequence, and an end answers nothing only
when nothing is left. `takeEnd` is the reader that keeps what is left as a list, and
`serves_takeEnds` says it meets the contract.
-/

namespace Okm.Lib

/-- A call for the next item of one end. -/
inductive Pop where
  | front
  | back
  deriving DecidableEq, Repr

variable {α : Type}

/-- The items one end has answered, in the order it answered them. -/
def popped (side : Pop) (past : List (Pop × Option α)) : List α :=
  past.filterMap fun entry => if entry.1 = side then entry.2 else none

/-- What the two ends have answered is the sequence up to what is left, and an end that
answered nothing left nothing. -/
structure Serves (items : List α) (past : List (Pop × Option α)) : Prop where
  once : ∃ rest, items = popped .front past ++ rest ++ (popped .back past).reverse
  dry : ∀ before side after, past = before ++ (side, none) :: after →
    items = popped .front before ++ (popped .back before).reverse

/-- One call on the items left. -/
def takeEnd (left : List α) : Pop → Option α × List α
  | .front => (left.head?, left.tail)
  | .back => (left.getLast?, left.dropLast)

/-- The answers to a list of calls. -/
def takeEnds (left : List α) : List Pop → List (Pop × Option α)
  | [] => []
  | side :: calls => (side, (takeEnd left side).1) :: takeEnds (takeEnd left side).2 calls

theorem popped_append (side : Pop) (past more : List (Pop × Option α)) :
    popped side (past ++ more) = popped side past ++ popped side more := by
  unfold popped
  exact List.filterMap_append

@[simp] theorem popped_nil (side : Pop) : popped side ([] : List (Pop × Option α)) = [] := rfl

theorem popped_cons (side : Pop) (entry : Pop × Option α) (past : List (Pop × Option α)) :
    popped side (entry :: past)
      = (if entry.1 = side then entry.2 else none).toList ++ popped side past := by
  unfold popped
  rw [List.filterMap_cons]
  cases h : (if entry.1 = side then entry.2 else none) with
  | none => rfl
  | some a => rfl

/-- No more items than answers. -/
theorem length_popped_le (past : List (Pop × Option α)) :
    (popped .front past).length + (popped .back past).length ≤ past.length := by
  induction past with
  | nil => simp
  | cons entry past ih =>
    obtain ⟨side, answer⟩ := entry
    rw [popped_cons, popped_cons, List.length_append, List.length_append, List.length_cons]
    cases side <;> cases answer <;> simp <;> omega

/-- One call takes from its end what is left. -/
theorem takeEnd_split (left : List α) (side : Pop) :
    left = popped .front [(side, (takeEnd left side).1)] ++ (takeEnd left side).2
      ++ (popped .back [(side, (takeEnd left side).1)]).reverse := by
  cases side with
  | front => cases left <;> simp [takeEnd, popped]
  | back =>
    rcases List.eq_nil_or_concat' left with rfl | ⟨init, last, rfl⟩
    · rfl
    · simp [takeEnd, popped]

/-- An end answers nothing only when nothing is left. -/
theorem takeEnd_none {left : List α} {side : Pop} (h : (takeEnd left side).1 = none) : left = [] := by
  cases side with
  | front => exact List.head?_eq_none_iff.mp h
  | back => exact List.getLast?_eq_none_iff.mp h

/-- The contract of a run from its first call and the rest. -/
theorem Serves.cons {left : List α} {side : Pop} {past : List (Pop × Option α)}
    (h : Serves (takeEnd left side).2 past) : Serves left ((side, (takeEnd left side).1) :: past) where
  once := by
    obtain ⟨rest, hrest⟩ := h.once
    refine ⟨rest, ?_⟩
    have hsplit := takeEnd_split left side
    rw [hrest] at hsplit
    rw [← List.singleton_append, popped_append, popped_append, List.reverse_append]
    simpa only [List.append_assoc] using hsplit
  dry := by
    intro before side' after heq
    cases before with
    | nil =>
      -- the first call answered nothing
      obtain ⟨hentry, -⟩ := List.cons.inj heq
      exact takeEnd_none (congrArg Prod.snd hentry)
    | cons entry before =>
      obtain ⟨rfl, heq'⟩ := List.cons.inj heq
      have hsplit := takeEnd_split left side
      rw [h.dry before side' after heq'] at hsplit
      rw [← List.singleton_append, popped_append, popped_append, List.reverse_append]
      simpa only [List.append_assoc] using hsplit

/-- **A list read from both ends meets the contract.** -/
theorem serves_takeEnds (left : List α) (calls : List Pop) : Serves left (takeEnds left calls) := by
  induction calls generalizing left with
  | nil => exact ⟨⟨left, by simp [takeEnds]⟩, by simp [takeEnds]⟩
  | cons side calls ih => exact (ih _).cons

end Okm.Lib
