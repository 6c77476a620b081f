import Okm.Lib.SortedMap

/-!
# A map seen through pending writes

A batch is a list of writes not yet applied. Reading through it answers from the
newest pending write of the key and falls back to the map; committing replays
the list. `get_applyOps` says the two agree: what a reader saw through the batch
is what the map answers after the commit.
-/

namespace Okm.Lib

variable {κ α : Type} [LinearOrder κ]

/-- One pending write: a value to bind, or a key to unbind. -/
abbrev Op (κ α : Type) := κ × Option α

/-- Apply one write. -/
def applyOp (m : SortedMap κ α) : Op κ α → SortedMap κ α
  | (k, some v) => m.insert k v
  | (k, none) => m.erase k

/-- Replay a list of writes in order. -/
def applyOps (m : SortedMap κ α) (ops : List (Op κ α)) : SortedMap κ α :=
  ops.foldl applyOp m

/-- The newest pending write of `k`, if there is one. -/
def pending (ops : List (Op κ α)) (k : κ) : Option (Option α) :=
  (ops.reverse.find? (fun op => decide (op.1 = k))).map Prod.snd

/-- Read `k` through the pending writes. -/
def readThrough (m : SortedMap κ α) (ops : List (Op κ α)) (k : κ) : Option α :=
  (pending ops k).getD (m.get k)

theorem get_applyOp [DecidableEq κ] (m : SortedMap κ α) (op : Op κ α) (k : κ) :
    (applyOp m op).get k = if k = op.1 then op.2 else m.get k := by
  obtain ⟨k', v⟩ := op
  cases v with
  | none => exact m.get_erase k' k
  | some v => exact m.get_insert k' v k

@[simp] theorem applyOps_nil (m : SortedMap κ α) : applyOps m [] = m := rfl

@[simp] theorem applyOps_append (m : SortedMap κ α) (ops ops' : List (Op κ α)) :
    applyOps m (ops ++ ops') = applyOps (applyOps m ops) ops' :=
  List.foldl_append

@[simp] theorem applyOps_cons (m : SortedMap κ α) (op : Op κ α) (ops : List (Op κ α)) :
    applyOps m (op :: ops) = applyOps (applyOp m op) ops := rfl

@[simp] theorem pending_nil (k : κ) : pending ([] : List (Op κ α)) k = none := rfl

theorem pending_concat [DecidableEq κ] (ops : List (Op κ α)) (op : Op κ α) (k : κ) :
    pending (ops ++ [op]) k = if op.1 = k then some op.2 else pending ops k := by
  unfold pending
  rw [List.reverse_append, List.reverse_singleton, List.singleton_append, List.find?_cons]
  by_cases h : op.1 = k
  · simp [h]
  · simp [h]

theorem pending_singleton [DecidableEq κ] (op : Op κ α) (k : κ) :
    pending [op] k = if op.1 = k then some op.2 else none := pending_concat [] op k

theorem pending_append (ops ops' : List (Op κ α)) (k : κ) :
    pending (ops ++ ops') k = (pending ops' k).or (pending ops k) := by
  induction ops' using List.reverseRecOn with
  | nil => simp
  | append_singleton ops' op ih =>
    rw [← List.append_assoc, pending_concat, pending_concat, ih]
    by_cases h : op.1 = k
    · simp [h]
    · simp [h]

/-- A pending answer is the value of some write of the key. -/
theorem mem_of_pending {ops : List (Op κ α)} {k : κ} {v : Option α}
    (h : pending ops k = some v) : (k, v) ∈ ops := by
  unfold pending at h
  obtain ⟨op, hop, rfl⟩ := Option.map_eq_some_iff.mp h
  have hkey : op.1 = k := by simpa using List.find?_some hop
  have hmem := List.mem_of_find?_eq_some hop
  rw [List.mem_reverse] at hmem
  rwa [← hkey]

/-- Where the writes of a key agree, any of them is the answer. -/
theorem pending_of_mem {ops : List (Op κ α)} {k : κ} {v : Option α} (h : (k, v) ∈ ops)
    (hall : ∀ w, (k, w) ∈ ops → w = v) : pending ops k = some v := by
  cases hp : pending ops k with
  | some w => rw [hall w (mem_of_pending hp)]
  | none =>
    unfold pending at hp
    have hno := List.find?_eq_none.mp (Option.map_eq_none_iff.mp hp) (k, v) (List.mem_reverse.mpr h)
    simp at hno

/-- **The overlay law**: reading through a batch is reading after its commit. -/
theorem get_applyOps (m : SortedMap κ α) (ops : List (Op κ α)) (k : κ) :
    (applyOps m ops).get k = readThrough m ops k := by
  induction ops using List.reverseRecOn with
  | nil => rfl
  | append_singleton ops op ih =>
    rw [applyOps_append]
    change (applyOp _ op).get k = _
    rw [get_applyOp, ih, readThrough, readThrough, pending_concat]
    by_cases h : k = op.1
    · rw [if_pos h, if_pos h.symm, Option.getD_some]
    · rw [if_neg h, if_neg (Ne.symm h)]

/-- A key no write mentions keeps its value. -/
theorem get_applyOps_of_not_mem (m : SortedMap κ α) {ops : List (Op κ α)} {k : κ}
    (h : ∀ op ∈ ops, op.1 ≠ k) : (applyOps m ops).get k = m.get k := by
  induction ops generalizing m with
  | nil => rfl
  | cons op ops ih =>
    rw [applyOps_cons, ih _ (fun op' hop' => h op' (by simp [hop'])), get_applyOp,
      if_neg (h op (by simp)).symm]

end Okm.Lib
