import Okm.Engine.ScanBounds

/-!
# An engine that fails on cue

A keyspace whose every read and write may be refused, by a plan fixed in advance. What has
landed is kept as a log over the keyspace the run began with, so what a run wrote, in which
order, and how far it came are all read off the log. A refused batch may have landed in
part: an engine that replays a batch stops where it fails.
-/

namespace Okm

open Lib

/-- What the engine refuses: a write by its number, after some of its ops; a scan by where
it starts, after some of its items; a point read by its key. -/
structure Faults where
  write : Nat → Option (Nat × Error)
  scan : Bytes → Option (Nat × Error)
  read : Bytes → Option Error

/-- Nothing is refused. -/
def Faults.never : Faults := ⟨fun _ => none, fun _ => none, fun _ => none⟩

structure Flaky where
  base : Keyspace
  log : List (List (Op Bytes Bytes))
  faults : Faults

namespace Flaky

/-- What the keys hold now. -/
def store (s : Flaky) : Keyspace := applyOps s.base s.log.flatten

def land (s : Flaky) (ops : List (Op Bytes Bytes)) : Flaky := { s with log := s.log ++ [ops] }

/-- The state so many writes later. -/
def after (s : Flaky) (w : List (List (Op Bytes Bytes))) : Flaky := { s with log := s.log ++ w }

/-- None of the next writes is refused. -/
def Clean (s : Flaky) (w : List (List (Op Bytes Bytes))) : Prop :=
  ∀ i < w.length, s.faults.write (s.log.length + i) = none

@[simp] theorem after_nil (s : Flaky) : s.after [] = s := by
  simp [after]

@[simp] theorem land_after (s : Flaky) (w : List (List (Op Bytes Bytes)))
    (ops : List (Op Bytes Bytes)) : (s.after w).land ops = s.after (w ++ [ops]) := by
  simp [after, land]

/-- What the keys hold after the writes. -/
theorem store_after (s : Flaky) (w : List (List (Op Bytes Bytes))) :
    (s.after w).store = applyOps s.store w.flatten := by
  unfold after store
  rw [List.flatten_append, applyOps_append]

theorem Clean.concat {s : Flaky} {w : List (List (Op Bytes Bytes))} (h : s.Clean w)
    (ops : List (Op Bytes Bytes)) (hnext : (s.after w).faults.write (s.after w).log.length = none) :
    s.Clean (w ++ [ops]) := by
  intro i hi
  rw [List.length_append, List.length_singleton] at hi
  rcases Nat.lt_or_ge i w.length with hlt | hge
  · exact h i hlt
  · obtain rfl : i = w.length := by omega
    have hlen : (s.after w).log.length = s.log.length + w.length := List.length_append
    rw [hlen] at hnext
    exact hnext

/-- One write, whole or refused. -/
def write (s : Flaky) (op : Op Bytes Bytes) : Except Error Unit × Flaky :=
  match s.faults.write s.log.length with
  | none => (.ok (), s.land [op])
  | some (_, e) => (.error e, s.land [])

/-- A batch, whole or cut off where it was refused. -/
def commit (s : Flaky) (batch : Batch) : Except Error Unit × Flaky :=
  match s.faults.write s.log.length with
  | none => (.ok (), s.land batch.ops)
  | some (n, e) => (.error e, s.land (batch.ops.take n))

def read (s : Flaky) (key : Bytes) : Except Error (Option Bytes) :=
  match s.faults.read key with
  | none => .ok (s.store.get key)
  | some e => .error e

/-- The items of a scan, up to the failure there may be. -/
def scan (s : Flaky) (b : Bytes) (e : Option Bytes) : List ScanItem :=
  match s.faults.scan b with
  | none => (s.store.range b e).map .ok
  | some (n, err) => ((s.store.range b e).take n).map .ok ++ [.error err]

def scanKeys (s : Flaky) (b : Bytes) (e : Option Bytes) : Except Error (List Bytes) :=
  match s.faults.scan b with
  | none => .ok ((s.store.range b e).map Prod.fst)
  | some (_, err) => .error err

end Flaky

instance flaky : VirtualStorage Flaky where
  put s key value := s.write (key, some value)
  get := Flaky.read
  del s key := s.write (key, none)
  scanRange := Flaky.scanKeys
  scanRangeIter := Flaky.scan
  commitBatch := Flaky.commit

namespace Flaky

/-- A write lands or is refused. -/
theorem write_cases (s : Flaky) (op : Op Bytes Bytes) :
    (s.faults.write s.log.length = none ∧ s.write op = (.ok (), s.land [op])) ∨
    ∃ fault, s.faults.write s.log.length = some fault ∧
      s.write op = (.error fault.2, s.land []) := by
  unfold write
  cases h : s.faults.write s.log.length with
  | none => exact Or.inl ⟨rfl, rfl⟩
  | some fault => exact Or.inr ⟨fault, rfl, rfl⟩

/-- A batch lands in full, or is refused with a part of it landed. -/
theorem commit_cases (s : Flaky) (batch : Batch) :
    (s.faults.write s.log.length = none ∧ s.commit batch = (.ok (), s.land batch.ops)) ∨
    ∃ fault, s.faults.write s.log.length = some fault ∧
      s.commit batch = (.error fault.2, s.land (batch.ops.take fault.1)) := by
  unfold commit
  cases h : s.faults.write s.log.length with
  | none => exact Or.inl ⟨rfl, rfl⟩
  | some fault => exact Or.inr ⟨fault, rfl, rfl⟩

/-- A scan hands out what the range holds, whole or cut off by a failure. -/
theorem scan_cases (s : Flaky) (b : Bytes) (e : Option Bytes) :
    (s.faults.scan b = none ∧ s.scan b e = (s.store.range b e).map .ok) ∨
    ∃ fault, s.faults.scan b = some fault ∧
      s.scan b e = ((s.store.range b e).take fault.1).map .ok ++ [.error fault.2] := by
  unfold scan
  cases h : s.faults.scan b with
  | none => exact Or.inl ⟨rfl, rfl⟩
  | some fault => exact Or.inr ⟨fault, rfl, rfl⟩

theorem read_cases (s : Flaky) (key : Bytes) :
    (s.faults.read key = none ∧ s.read key = .ok (s.store.get key)) ∨
    ∃ e, s.faults.read key = some e ∧ s.read key = .error e := by
  unfold read
  cases h : s.faults.read key with
  | none => exact Or.inl ⟨rfl, rfl⟩
  | some e => exact Or.inr ⟨e, rfl, rfl⟩

end Flaky

end Okm
