import Mathlib.Algebra.Group.Nat.Defs
import Okm.Lib.Frames

/-!
# Readers that walk a position

A decoder of a language with machine integers keeps the buffer whole and moves a position
over it. Its steps have three outcomes: a value, a refusal of the input, or an abort, where
an index or a span leaves the buffer or a sum leaves the machine's range.

`Follows` ties such a reader to one that takes its input off the front of what is left: it
answers and refuses with it, the position is what was taken off, and it never aborts. It
composes along sequences and counted loops.
-/

namespace Okm.Lib

variable {φ α β γ : Type}

/-- A reader of a buffer from a position on; an abort is a fault of `φ`. -/
abbrev Positioned (φ β : Type) := ReaderT (List β) (StateT Nat (OptionT (Except φ)))

namespace Positioned

/-- What the reader comes to in the buffer from the position on. -/
def runAt (x : Positioned φ β α) (buf : List β) (pos : Nat) : Except φ (Option (α × Nat)) :=
  (x buf pos).run

/-- The input is refused. -/
def refuse : Positioned φ β α := fun _ _ => OptionT.mk (.ok none)

/-- A step as a function of the buffer and the position. -/
def step (f : List β → Nat → Except φ (Option (α × Nat))) : Positioned φ β α :=
  fun buf pos => OptionT.mk (f buf pos)

/-- `pos + n` on a 64-bit machine. -/
def addSize (fault : φ) (pos n : Nat) : Except φ Nat :=
  if pos + n < 2 ^ 64 then .ok (pos + n) else .error fault

/-- `if pos >= buf.len() { return None }`, then `buf[pos]` and `pos += 1`. -/
def nextByte (fault : φ) : Positioned φ β β := step fun buf pos =>
  if buf.length ≤ pos then .ok none
  else
    match buf[pos]? with
    | none => .error fault
    | some b => (addSize fault pos 1).map fun pos => some (b, pos)

/-- `*buf.get(pos)?`, then `pos += 1`. -/
def getByte (fault : φ) : Positioned φ β β := step fun buf pos =>
  match buf[pos]? with
  | none => .ok none
  | some b => (addSize fault pos 1).map fun pos => some (b, pos)

/-- `buf.get(pos..)?.get(..n)?`, then `pos += n`. -/
def getFront (fault : φ) (n : Nat) : Positioned φ β (List β) := step fun buf pos =>
  if buf.length < pos ∨ (buf.drop pos).length < n then .ok none
  else (addSize fault pos n).map fun pos' => some ((buf.drop pos).take n, pos')

/-- `pos.checked_add(n)?`, then `buf[pos..end]` unless it ends behind the buffer. -/
def takeSpan (fault : φ) (n : Nat) : Positioned φ β (List β) := step fun buf pos =>
  if 2 ^ 64 ≤ pos + n ∨ buf.length < pos + n then .ok none
  else if pos ≤ pos + n ∧ pos + n ≤ buf.length then
    .ok (some ((buf.take (pos + n)).drop pos, pos + n))
  else .error fault

/-- `if pos != buf.len() { return None }`. -/
def expectEnd : Positioned φ β Unit := step fun buf pos =>
  if pos ≠ buf.length then .ok none else .ok (some ((), pos))

/-- `*buf.get(pos)?`, refused unless it is one of `p` and the last: `pos + 1 == buf.len()`. -/
def lastByte (fault : φ) (p : β → Bool) : Positioned φ β β := step fun buf pos =>
  match buf[pos]? with
  | none => .ok none
  | some b =>
    if !p b then .ok none
    else (addSize fault pos 1).map fun behind =>
      if behind ≠ buf.length then none else some (b, behind)

theorem runAt_bind (x : Positioned φ β α) (k : α → Positioned φ β γ) (buf : List β) (pos : Nat) :
    (x >>= k).runAt buf pos = match x.runAt buf pos with
      | .error f => .error f
      | .ok none => .ok none
      | .ok (some (a, pos')) => (k a).runAt buf pos' := by
  change ((x buf pos) >>= fun p => k p.1 buf p.2).run = _
  rw [OptionT.run_bind]
  unfold runAt
  cases (x buf pos).run with
  | error f => rfl
  | ok answer =>
    cases answer with
    | none => rfl
    | some p => rfl

end Positioned

open Positioned

/-- In a buffer a machine can hold, the reader at the end of `front` does what `get` does
with what is left: it never aborts. -/
def Follows (x : Positioned φ β α) (get : List β → Option (α × List β)) : Prop :=
  ∀ front left : List β, (front ++ left).length < 2 ^ 63 →
    match get left with
    | none => x.runAt (front ++ left) front.length = .ok none
    | some (a, rest) => ∃ chunk, left = chunk ++ rest ∧
      x.runAt (front ++ left) front.length = .ok (some (a, (front ++ chunk).length))

section

variable {x : Positioned φ β α} {get : List β → Option (α × List β)}

theorem Follows.none (h : Follows x get) {front left : List β}
    (hfits : (front ++ left).length < 2 ^ 63) (hget : get left = .none) :
    x.runAt (front ++ left) front.length = .ok .none := by
  have hfollow := h front left hfits
  rwa [hget] at hfollow

theorem Follows.some (h : Follows x get) {front left rest : List β} {a : α}
    (hfits : (front ++ left).length < 2 ^ 63) (hget : get left = .some (a, rest)) :
    ∃ chunk, left = chunk ++ rest ∧
      x.runAt (front ++ left) front.length = .ok (.some (a, (front ++ chunk).length)) := by
  have hfollow := h front left hfits
  rwa [hget] at hfollow

theorem follows_pure (a : α) :
    Follows (pure a : Positioned φ β α) fun left => .some (a, left) := by
  intro front left _
  exact ⟨[], rfl, by rw [List.append_nil]; rfl⟩

theorem follows_refuse : Follows (refuse : Positioned φ β α) fun _ => .none :=
  fun _ _ _ => rfl

/-- **One reader after another.** -/
theorem Follows.bind (h : Follows x get) {k : α → Positioned φ β γ}
    {next : α → List β → Option (γ × List β)} (hnext : ∀ a, Follows (k a) (next a)) :
    Follows (x >>= k) fun left => (get left).bind fun p => next p.1 p.2 := by
  intro front left hfits
  dsimp only
  cases hget : get left with
  | none => exact (runAt_bind x k _ _).trans (by rw [h.none hfits hget])
  | some p =>
    obtain ⟨a, rest⟩ := p
    obtain ⟨chunk, rfl, hrun⟩ := h.some hfits hget
    have hrest := hnext a (front ++ chunk) rest (by rwa [List.append_assoc])
    rw [List.append_assoc] at hrest
    have hstep : (x >>= k).runAt (front ++ (chunk ++ rest)) front.length
        = (k a).runAt (front ++ (chunk ++ rest)) (front ++ chunk).length := by
      rw [runAt_bind, hrun]
    rw [Option.bind_some, hstep]
    dsimp only
    cases hn : next a rest with
    | none =>
      rw [hn] at hrest
      exact hrest
    | some q =>
      rw [hn] at hrest
      obtain ⟨chunk', hsplit, hrun'⟩ := hrest
      refine ⟨chunk ++ chunk', ?_, ?_⟩
      · rw [hsplit, List.append_assoc]
      · rw [hrun', List.append_assoc]

theorem Follows.congr (h : Follows x get) {x' : Positioned φ β α}
    {get' : List β → Option (α × List β)} (hx : x' = x) (hget : ∀ left, get' left = get left) :
    Follows x' get' := by
  intro front left hfits
  rw [hget, hx]
  exact h front left hfits

theorem Follows.map (h : Follows x get) (f : α → γ) :
    Follows (x >>= fun a => pure (f a)) fun left => (get left).map fun p => (f p.1, p.2) := by
  refine (h.bind fun a => follows_pure (f a)).congr rfl ?_
  intro left
  cases get left <;> rfl

/-- The same reader `n` times. -/
def Positioned.rounds (x : Positioned φ β α) : Nat → Positioned φ β (List α)
  | 0 => pure []
  | n + 1 => do
    let a ← x
    let as ← x.rounds n
    pure (a :: as)

/-- **A counted loop.** -/
theorem Follows.rounds (h : Follows x get) {loop : Nat → List β → Option (List α × List β)}
    (hzero : ∀ bs, loop 0 bs = .some ([], bs))
    (hsucc : ∀ n bs, loop (n + 1) bs = (get bs).bind fun p =>
      (loop n p.2).bind fun q => .some (p.1 :: q.1, q.2)) (n : Nat) :
    Follows (x.rounds n) (loop n) := by
  induction n with
  | zero => exact (follows_pure []).congr rfl hzero
  | succ n ih =>
    refine (h.bind fun a => ih.bind fun as => follows_pure (a :: as)).congr rfl ?_
    exact hsucc n

/-! ## The steps of a checked read -/

theorem addSize_fits {fault : φ} {pos n : Nat} (h : pos + n < 2 ^ 63) :
    addSize fault pos n = .ok (pos + n) :=
  if_pos (by omega)

theorem getElem?_behind (front : List β) (b : β) (rest : List β) :
    (front ++ b :: rest)[front.length]? = .some b := by
  rw [List.getElem?_append_right (Nat.le_refl _), Nat.sub_self]
  rfl

/-- The first of what is left. -/
def uncons : List β → Option (β × List β)
  | [] => .none
  | b :: rest => .some (b, rest)

theorem follows_nextByte (fault : φ) : Follows (nextByte fault : Positioned φ β β) uncons := by
  intro front left hfits
  cases left with
  | nil =>
    rw [List.append_nil]
    exact if_pos (Nat.le_refl _)
  | cons b rest =>
    rw [List.length_append, List.length_cons] at hfits
    refine ⟨[b], rfl, ?_⟩
    have hlt : ¬ (front ++ b :: rest).length ≤ front.length := by simp
    change (if (front ++ b :: rest).length ≤ front.length then _ else _) = _
    rw [if_neg hlt, getElem?_behind]
    dsimp only
    rw [addSize_fits (by omega)]
    simp [Except.map]

theorem follows_getByte (fault : φ) : Follows (getByte fault : Positioned φ β β) uncons := by
  intro front left hfits
  cases left with
  | nil =>
    rw [List.append_nil]
    change (match front[front.length]? with | .none => _ | .some b => _) = _
    rw [List.getElem?_eq_none (Nat.le_refl _)]
  | cons b rest =>
    rw [List.length_append, List.length_cons] at hfits
    refine ⟨[b], rfl, ?_⟩
    change (match (front ++ b :: rest)[front.length]? with | .none => _ | .some b => _) = _
    rw [getElem?_behind]
    dsimp only
    rw [addSize_fits (by omega)]
    simp [Except.map]

theorem follows_getFront (fault : φ) (n : Nat) :
    Follows (getFront fault n : Positioned φ β (List β)) (takeExact n) := by
  intro front left hfits
  have hdrop : (front ++ left).drop front.length = left := List.drop_left
  by_cases hn : n ≤ left.length
  · rw [takeExact, if_pos hn]
    refine ⟨left.take n, (List.take_append_drop n left).symm, ?_⟩
    rw [List.length_append] at hfits
    have hroom : ¬ ((front ++ left).length < front.length ∨
        ((front ++ left).drop front.length).length < n) := by
      rw [hdrop, List.length_append]
      omega
    refine (if_neg hroom).trans ?_
    rw [addSize_fits (by omega), hdrop, List.length_append, List.length_take_of_le hn]
    rfl
  · rw [takeExact, if_neg hn]
    refine if_pos (Or.inr ?_)
    rw [hdrop]
    omega

theorem follows_takeSpan (fault : φ) (n : Nat) :
    Follows (takeSpan fault n : Positioned φ β (List β)) (takeExact n) := by
  intro front left hfits
  rw [List.length_append] at hfits
  by_cases hn : n ≤ left.length
  · rw [takeExact, if_pos hn]
    refine ⟨left.take n, (List.take_append_drop n left).symm, ?_⟩
    have hroom : ¬ (2 ^ 64 ≤ front.length + n ∨ (front ++ left).length < front.length + n) := by
      rw [List.length_append]
      omega
    have hspan : front.length ≤ front.length + n ∧ front.length + n ≤ (front ++ left).length := by
      rw [List.length_append]
      omega
    refine (if_neg hroom).trans ((if_pos hspan).trans ?_)
    rw [List.drop_take, List.drop_left, Nat.add_sub_cancel_left, List.length_append,
      List.length_take_of_le hn]
  · rw [takeExact, if_neg hn]
    refine if_pos (Or.inr ?_)
    rw [List.length_append]
    omega

theorem follows_expectEnd :
    Follows (expectEnd : Positioned φ β Unit) fun left =>
      if left ≠ [] then .none else .some ((), left) := by
  intro front left _
  by_cases hleft : left = []
  · subst hleft
    refine ⟨[], rfl, ?_⟩
    rw [List.append_nil]
    exact if_neg (fun hne => hne rfl)
  · dsimp only
    rw [if_pos hleft]
    refine if_pos ?_
    have hpos := List.length_pos_iff.mpr hleft
    rw [List.length_append]
    omega

/-- The one element left, when it is one of `p`. -/
def single (p : β → Bool) : List β → Option (β × List β)
  | [b] => if p b then .some (b, []) else .none
  | _ => .none

theorem follows_lastByte (fault : φ) (p : β → Bool) :
    Follows (lastByte fault p : Positioned φ β β) (single p) := by
  intro front left hfits
  cases left with
  | nil =>
    rw [List.append_nil]
    change (match front[front.length]? with | .none => _ | .some b => _) = _
    rw [List.getElem?_eq_none (Nat.le_refl _)]
  | cons b rest =>
    rw [List.length_append, List.length_cons] at hfits
    have hrun : (lastByte fault p : Positioned φ β β).runAt (front ++ b :: rest) front.length
        = if !p b then .ok .none
          else (addSize fault front.length 1).map fun behind =>
            if behind ≠ (front ++ b :: rest).length then .none else .some (b, behind) := by
      change (match (front ++ b :: rest)[front.length]? with | .none => _ | .some b => _) = _
      rw [getElem?_behind]
    rw [hrun]
    cases rest with
    | nil =>
      cases hp : p b with
      | false =>
        rw [single, hp]
        rfl
      | true =>
        rw [single, hp, if_pos rfl]
        refine ⟨[b], rfl, ?_⟩
        rw [addSize_fits (by omega)]
        simp [Except.map]
    | cons c rest =>
      rw [single]
      · cases hp : p b with
        | false => rfl
        | true =>
          rw [addSize_fits (by omega)]
          simp [Except.map]
      · simp

end

end Okm.Lib
