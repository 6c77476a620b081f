/-!
# Streams of self-delimiting frames

A file or a payload is often one frame after another with no count in front: the
reader takes frames off the front until none is there. `frames get` is that loop
over a reader `get` of one frame, bounded by a number of rounds; what is left where
it stops comes back with what it read.

The two facts everything else rests on: a stream written frame by frame is read
back frame by frame (`frames_flatMap`), and what follows the last whole frame
does not matter as long as no frame starts there.
-/

namespace Okm.Lib

variable {β α ι : Type}

/-- Take frames off the front of `bs`, at most `rounds` of them. -/
def frames (get : List β → Option (α × List β)) : Nat → List β → List α × List β
  | 0, bs => ([], bs)
  | rounds + 1, bs =>
    match get bs with
    | none => ([], bs)
    | some (a, rest) =>
      let (as, tail) := frames get rounds rest
      (a :: as, tail)

/-- `chunk` is a frame of `a`, whatever follows it. -/
def Reads (get : List β → Option (α × List β)) (chunk : List β) (a : α) : Prop :=
  ∀ rest, get (chunk ++ rest) = some (a, rest)

/-- Exactly `n` elements off the front. -/
def takeExact (n : Nat) (bs : List β) : Option (List β × List β) :=
  if n ≤ bs.length then some (bs.take n, bs.drop n) else none

theorem takeExact_append {n : Nat} {as : List β} (h : as.length = n) (bs : List β) :
    takeExact n (as ++ bs) = some (as, bs) := by
  subst h
  rw [takeExact, if_pos (by simp), List.take_left, List.drop_left]

theorem takeExact_eq_some {n : Nat} {bs as rest : List β} (h : takeExact n bs = some (as, rest)) :
    as.length = n ∧ bs = as ++ rest := by
  unfold takeExact at h
  split at h
  · rename_i hn
    obtain ⟨rfl, rfl⟩ := Prod.mk.inj (Option.some.inj h)
    exact ⟨List.length_take_of_le hn, (List.take_append_drop n bs).symm⟩
  · cases h

variable {get : List β → Option (α × List β)}

theorem Reads.ne_nil {chunk : List β} {a : α} (h : Reads get chunk a) (hnil : get [] = none) :
    chunk ≠ [] := by
  rintro rfl
  have hread := h []
  rw [List.append_nil, hnil] at hread
  cases hread

theorem frames_none {bs : List β} (h : get bs = none) (rounds : Nat) :
    frames get rounds bs = ([], bs) := by
  cases rounds with
  | zero => rfl
  | succ rounds => rw [frames, h]

theorem frames_some {bs rest : List β} {a : α} (h : get bs = some (a, rest)) (rounds : Nat) :
    frames get (rounds + 1) bs
      = (a :: (frames get rounds rest).1, (frames get rounds rest).2) := by
  rw [frames, h]

/-- **A stream written frame by frame is read back**, and the reading goes on with
what follows it. -/
theorem frames_flatMap {put : ι → List β} {val : ι → α} {xs : List ι}
    (hput : ∀ x ∈ xs, Reads get (put x) (val x)) (rounds : Nat) (tail : List β) :
    frames get (xs.length + rounds) (xs.flatMap put ++ tail)
      = (xs.map val ++ (frames get rounds tail).1, (frames get rounds tail).2) := by
  induction xs with
  | nil => simp
  | cons x xs ih =>
    have hx := hput x (by simp) (xs.flatMap put ++ tail)
    have hrest := ih fun y hy => hput y (by simp [hy])
    rw [List.flatMap_cons, List.append_assoc, List.length_cons, Nat.add_right_comm,
      frames_some hx, hrest]
    rfl

/-- The same with rounds to spare and no frame behind the last one. -/
theorem frames_flatMap_of_none {put : ι → List β} {val : ι → α} {xs : List ι} {tail : List β}
    {rounds : Nat} (hput : ∀ x ∈ xs, Reads get (put x) (val x)) (htail : get tail = none)
    (hrounds : xs.length ≤ rounds) :
    frames get rounds (xs.flatMap put ++ tail) = (xs.map val, tail) := by
  obtain ⟨spare, rfl⟩ := Nat.exists_eq_add_of_le hrounds
  rw [frames_flatMap hput, frames_none htail, List.append_nil]

/-- Frames are never empty, so a stream has no more of them than elements. -/
theorem length_le_flatMap {put : ι → List β} {xs : List ι} (h : ∀ x ∈ xs, put x ≠ []) :
    xs.length ≤ (xs.flatMap put).length := by
  induction xs with
  | nil => simp
  | cons x xs ih =>
    have hx := List.length_pos_iff.mpr (h x (by simp))
    have hxs := ih fun y hy => h y (by simp [hy])
    rw [List.flatMap_cons, List.length_append, List.length_cons]
    omega

/-- A reader that reads whatever another one does reads every stream the other
reads to its end. -/
theorem frames_mono {get get' : List β → Option (α × List β)}
    (h : ∀ bs r, get bs = some r → get' bs = some r) (hnil : get' [] = none) {rounds : Nat}
    {bs : List β} {as : List α} (hread : frames get rounds bs = (as, [])) :
    frames get' rounds bs = (as, []) := by
  induction rounds generalizing bs as with
  | zero => exact hread
  | succ rounds ih =>
    cases hbs : get bs with
    | none =>
      rw [frames_none hbs] at hread
      obtain ⟨rfl, rfl⟩ := Prod.mk.inj hread
      exact frames_none hnil _
    | some frame =>
      obtain ⟨a, rest⟩ := frame
      rw [frames_some hbs] at hread
      obtain ⟨rfl, htail⟩ := Prod.mk.inj hread
      rw [frames_some (h bs _ hbs), ih (Prod.ext rfl htail)]

end Okm.Lib
