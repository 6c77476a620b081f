import Okm.Engine.Storage

/-!
# Engines that answer

Most of what is proved about a table holds on any engine that does not refuse:
reads answer, writes land, and a read after a write sees it. `LawfulStorage`
states that once, by the map of what each key reads as. The ordered keyspace is
such an engine, and so is a batch over one: what the batch view reads is what
the store reads after the batch lands.
-/

namespace Okm

open Lib VirtualStorage

/-- An engine that never refuses, described by what its keys read as. -/
class LawfulStorage (σ : Type) extends VirtualStorage σ where
  read : σ → Bytes → Option Bytes
  get_eq : ∀ (s : σ) (k : Bytes), VirtualStorage.get s k = .ok (read s k)
  put_ok : ∀ (s : σ) (k v : Bytes), (VirtualStorage.put s k v).1 = .ok ()
  read_put : ∀ (s : σ) (k v k' : Bytes),
    read (VirtualStorage.put s k v).2 k' = if k' = k then some v else read s k'
  del_ok : ∀ (s : σ) (k : Bytes), (VirtualStorage.del s k).1 = .ok ()
  read_del : ∀ (s : σ) (k k' : Bytes),
    read (VirtualStorage.del s k).2 k' = if k' = k then none else read s k'
  commit_ok : ∀ (s : σ) (b : Batch), (VirtualStorage.commitBatch s b).1 = .ok ()
  read_commit : ∀ (s : σ) (b : Batch) (k : Bytes),
    read (VirtualStorage.commitBatch s b).2 k = (pending b.ops k).getD (read s k)

instance lawfulKeyspace : LawfulStorage Keyspace where
  toVirtualStorage := keyspace
  read := SortedMap.get
  get_eq _ _ := rfl
  put_ok _ _ _ := rfl
  read_put s k v k' := s.get_insert k v k'
  del_ok _ _ := rfl
  read_del s k k' := s.get_erase k k'
  commit_ok _ _ := rfl
  read_commit s b k := get_applyOps s b.ops k

/-- Replaying a batch into a batch appends its ops. -/
theorem replayOps_batchStore (ops : List (Op Bytes Bytes)) (s : BatchStore Keyspace) :
    replayOps VirtualStorage.put VirtualStorage.del s ops
      = (.ok (), { s with batch := ⟨s.batch.ops ++ ops⟩ }) := by
  induction ops generalizing s with
  | nil => simp [replayOps]
  | cons op ops ih =>
    obtain ⟨k, v⟩ := op
    cases v with
    | none =>
      have hdel : VirtualStorage.del s k = (.ok (), { s with batch := s.batch.del k }) := rfl
      simp only [replayOps, hdel, ih]
      simp [Batch.del]
    | some v =>
      have hput : VirtualStorage.put s k v = (.ok (), { s with batch := s.batch.put k v }) := rfl
      simp only [replayOps, hput, ih]
      simp [Batch.put]

theorem commitBatch_batchStore (s : BatchStore Keyspace) (b : Batch) :
    VirtualStorage.commitBatch s b = (.ok (), { s with batch := ⟨s.batch.ops ++ b.ops⟩ }) :=
  replayOps_batchStore b.ops s

/-- What a batch view reads: the newest pending write, else the store. -/
def viewGet (s : BatchStore Keyspace) (k : Bytes) : Option Bytes :=
  readThrough s.store s.batch.ops k

/-- **A batch view reads what its commit will leave.** -/
theorem viewGet_eq (s : BatchStore Keyspace) (k : Bytes) :
    viewGet s k = (applyOps s.store s.batch.ops).get k :=
  (get_applyOps s.store s.batch.ops k).symm

instance lawfulBatchStore : LawfulStorage (BatchStore Keyspace) where
  toVirtualStorage := batchStore
  read := viewGet
  get_eq s k := by
    change (match pending s.batch.ops k with
      | some v => Except.ok v
      | none => VirtualStorage.get s.store k) = Except.ok (readThrough s.store s.batch.ops k)
    unfold readThrough
    cases pending s.batch.ops k with
    | some v => rfl
    | none => rfl
  put_ok _ _ _ := rfl
  read_put s k v k' := by
    change readThrough s.store (s.batch.ops ++ [(k, some v)]) k' = _
    rw [readThrough, pending_concat]
    by_cases h : k = k'
    · simp [h]
    · rw [if_neg h, if_neg (Ne.symm h)]
      rfl
  del_ok _ _ := rfl
  read_del s k k' := by
    change readThrough s.store (s.batch.ops ++ [(k, none)]) k' = _
    rw [readThrough, pending_concat]
    by_cases h : k = k'
    · simp [h]
    · rw [if_neg h, if_neg (Ne.symm h)]
      rfl
  commit_ok s b := by rw [commitBatch_batchStore]
  read_commit s b k := by
    rw [commitBatch_batchStore]
    change readThrough s.store (s.batch.ops ++ b.ops) k = _
    rw [readThrough, pending_append]
    cases pending b.ops k with
    | some v => rfl
    | none => rfl

/-- The store a view stands for: what committing its batch leaves. -/
def viewMap (s : BatchStore Keyspace) : Keyspace := applyOps s.store s.batch.ops

@[simp] theorem get_viewMap (s : BatchStore Keyspace) : (viewMap s).get = viewGet s :=
  funext fun k => (viewGet_eq s k).symm

/-- The view of a store with nothing pending. -/
def freshView (m : Keyspace) : BatchStore Keyspace := ⟨m, {}⟩

end Okm
