import Okm.Dynamic.Entries
import Okm.Model.Rebuild

/-!
# A runtime table rebuilds its faces

The model of `DynamicCollection::rebuild_faces`. The slot of every access method is swept, then
the documents are walked through the two slots they occupy and their entries put, and the stamp
of the faces is the last write. Where a document is walked by its row, its method entries and its
path entries are derived; where it is walked by its segment, its path entries. Both are derived
of the document as it is fetched, row and segment in one map.

How the operations are cut into commits does not matter to what they leave (`Issued`).
-/

namespace Okm.Dynamic

open Lib Model VirtualStorage

/-! ## The verb -/

/-- What ends a rebuild: the engine's failures and the table's own. -/
inductive RebuildFailure where
  | refused (e : TableError)
  | aborted (a : Abort)
  | panicked (p : Panic)

def RebuildFailure.ofEngine : Failure → RebuildFailure
  | .refused e => .refused (.engine e)
  | .panic p => .panicked p

section

variable {σ α : Type}

/-- A part of the run that talks to the engine. -/
def engineSide (x : Run Failure σ α) : Run RebuildFailure σ α := fun s =>
  ((x s).1.mapError RebuildFailure.ofEngine, (x s).2)

/-- A part of the run that reads the table. -/
def tableSide (x : σ → Plan α) : Run RebuildFailure σ α := fun s =>
  match x s with
  | .answer a => (.ok a, s)
  | .refuse e => (.error (.refused e), s)
  | .abort a => (.error (.aborted a), s)

/-- The entries of one document go into the batch. -/
def withEntries (p : Progress) (entries : List (Bytes × Bytes)) : Progress where
  batch := ⟨p.batch.ops ++ putOps entries⟩
  report := { p.report with
    entriesWritten := p.report.entriesWritten + entries.length
    documents := p.report.documents + 1 }

/-- The walk over the items of a slot: where there is no document the item is passed over. -/
def walkDocuments [VirtualStorage σ] (chunk : Nat)
    (derive : Bytes → σ → Plan (Option (List (Bytes × Bytes)))) :
    List ScanItem → Progress → Run RebuildFailure σ Progress
  | [], p => pure p
  | .error e :: _, _ => fun s => (.error (.refused (.engine e)), s)
  | .ok entry :: rest, p =>
    tableSide (derive entry.1) >>= fun found =>
      match found with
      | none => walkDocuments chunk derive rest p
      | some entries =>
        (if chunk ≤ (withEntries p entries).batch.ops.length then engineSide (commitChunk (withEntries p entries))
          else pure (withEntries p entries)) >>= walkDocuments chunk derive rest

end

namespace DynamicCollection

variable (t : DynamicCollection)

/-- The table as its faces are hashed. -/
def runtimeTable : DynamicTable ValueMap where
  exported := t.schema.indexes
  indexes := t.indexes.map Access.toAccessMethod
  slotsNodup := by
    have hvals := (List.nodup_append.mp t.apart).1
    have hmap : t.indexes.map (fun index => index.slot.toNat)
        = ((t.indexes.map Access.toAccessMethod).map AccessMethod.slot).map UInt16.toNat := by
      rw [List.map_map, List.map_map]
      rfl
    rw [hmap] at hvals
    exact hvals.of_map
  slotsPos := by
    intro m hm hzero
    obtain ⟨index, hindex, rfl⟩ := List.mem_map.mp hm
    have hslot := t.indexSlots index hindex
    rw [hzero] at hslot
    exact absurd hslot (by decide)

/-- `computed_faces`. -/
def faces : Bytes := t.runtimeTable.computedFaces

/-- The key prefix of one of the two slots of a document. -/
def documentFace (row : Bool) : Bytes := faceKey t.ns (if row then primarySlot else dynamicSlot) []

/-- The entries derived at one key of a walk. -/
def deriveDocument {σ : Type} [VirtualStorage σ] (row : Bool) (key : Bytes) (store : σ) :
    Plan (Option (List (Bytes × Bytes))) :=
  if key.length < (t.documentFace row).length then abort .slice
  else
    let pkey := key.drop (t.documentFace row).length
    t.fetch store pkey >>= fun found =>
      match found with
      | none => answer none
      | some document =>
        (if row then Guarded.lift (t.entriesOf pkey document) else answer []) >>= fun entries =>
          answer (some (entries ++ pathIndexEntries t.ns t.indexes pkey document))

/-- The walk over one of the two slots. -/
def walkSlot {σ : Type} [VirtualStorage σ] (chunk : Nat) (row : Bool) (p : Progress) :
    Run RebuildFailure σ Progress := fun s =>
  walkDocuments chunk (t.deriveDocument row)
    (scanRangeIter s (t.documentFace row) (prefixEnd (t.documentFace row))) p s

/-- The first two phases of `rebuild_faces`: sweep, then derive. -/
def rederive {σ : Type} [VirtualStorage σ] (chunk : Nat) : Run RebuildFailure σ Progress := do
  let p ← engineSide (sweepFaces chunk (t.indexes.map (accessFace t.ns)) {})
  let p ← engineSide (commitRest p)
  let p ← t.walkSlot chunk true p
  let p ← t.walkSlot chunk false p
  engineSide (commitRest p)

/-- `rebuild_faces`: the stamp is the last write. -/
def rebuildFaces {σ : Type} [VirtualStorage σ] (chunk : Nat) : Run RebuildFailure σ RebuildReport := do
  let p ← t.rederive (max chunk 1)
  let _ ← engineSide (stampFaces t.ns t.schema.layoutVersion t.faces)
  pure p.report

end DynamicCollection

/-! ## What a run over a keyspace issues -/

/-- The run has issued `ops`: some have landed, the rest stand in the batch. -/
def Issued (m₀ : Keyspace) (ops : List (Op Bytes Bytes)) (p : Progress) (m : Keyspace) : Prop :=
  ∃ landed, m = applyOps m₀ landed ∧ landed ++ p.batch.ops = ops

/-- The run answers, with all of `ops` issued. -/
def Issues (m₀ : Keyspace) (ops : List (Op Bytes Bytes))
    (r : Except RebuildFailure Progress × Keyspace) : Prop :=
  ∃ p m, r = (.ok p, m) ∧ Issued m₀ ops p m

section

variable {m₀ m : Keyspace} {ops : List (Op Bytes Bytes)} {p : Progress}

theorem Issued.start (m₀ : Keyspace) (report : RebuildReport) :
    Issued m₀ [] { report := report } m₀ := ⟨[], rfl, rfl⟩

/-- A commit moves the batch into the store. -/
theorem commitChunk_issues (h : Issued m₀ ops p m) :
    ∃ p', commitChunk p m = (.ok p', applyOps m p.batch.ops) ∧
      Issued m₀ ops p' (applyOps m p.batch.ops) ∧ p'.batch.ops = [] := by
  obtain ⟨landed, rfl, hops⟩ := h
  refine ⟨_, rfl, ⟨landed ++ p.batch.ops, ?_, ?_⟩, rfl⟩
  · rw [applyOps_append]
  · rw [List.append_nil]
    exact hops

theorem commitRest_issues (h : Issued m₀ ops p m) :
    ∃ p', commitRest p m = (.ok p', applyOps m p.batch.ops) ∧
      Issued m₀ ops p' (applyOps m p.batch.ops) ∧ p'.batch.ops = [] := by
  unfold commitRest
  by_cases hempty : p.batch.ops = []
  · rw [if_pos hempty]
    refine ⟨p, ?_, ?_, hempty⟩
    · rw [hempty]
      rfl
    · rw [hempty]
      exact h
  · rw [if_neg hempty]
    exact commitChunk_issues h

/-- What has been issued and committed is what the store has. -/
theorem Issued.landed (h : Issued m₀ ops p m) (hempty : p.batch.ops = []) : m = applyOps m₀ ops := by
  obtain ⟨landed, rfl, hops⟩ := h
  rw [hempty, List.append_nil] at hops
  rw [hops]

/-- Keys that no operation names stay as they were. -/
theorem Issued.get (h : Issued m₀ ops p m) {k : Bytes} (hk : ∀ op ∈ ops, op.1 ≠ k) :
    m.get k = m₀.get k := by
  obtain ⟨landed, rfl, rfl⟩ := h
  exact get_applyOps_of_not_mem m₀ fun op hop => hk op (List.mem_append_left _ hop)

/-- The deletes of one face. -/
theorem sweepEntries_issues {chunk : Nat} {entries : List (Bytes × Bytes)} (h : Issued m₀ ops p m) :
    ∃ p' m', Model.walkItems chunk sweepEntry (entries.map .ok) p m = (.ok p', m') ∧
      Issued m₀ (ops ++ entries.flatMap fun e => [(e.1, none)]) p' m' := by
  induction entries generalizing ops p m with
  | nil => exact ⟨p, m, rfl, by rwa [List.flatMap_nil, List.append_nil]⟩
  | cons e entries ih =>
    have hnext : Issued m₀ (ops ++ [(e.1, none)]) ⟨p.batch.del e.1,
        { p.report with entriesDeleted := p.report.entriesDeleted + 1 }⟩ m := by
      obtain ⟨landed, hm, rfl⟩ := h
      exact ⟨landed, hm, by rw [List.append_assoc]; rfl⟩
    rw [List.flatMap_cons, ← List.append_assoc, List.map_cons, Model.walkItems]
    unfold sweepEntry
    dsimp only
    split
    · obtain ⟨p', hcommit, hp', -⟩ := commitChunk_issues hnext
      obtain ⟨p'', m'', hwalk, hissued⟩ := ih hp'
      exact ⟨p'', m'', (run_bind_of_ok hcommit).trans hwalk, hissued⟩
    · obtain ⟨p'', m'', hwalk, hissued⟩ := ih hnext
      exact ⟨p'', m'', hwalk, hissued⟩

/-- **The sweep issues the deletes of what the run began with**, face by face: the ranges of
two faces do not meet. -/
theorem sweepFaces_issues {chunk n : Nat} {before faces : List Bytes}
    (h : Issued m₀ (sweepOps m₀ before) p m) (hlen : ∀ f ∈ before ++ faces, f.length = n)
    (hnodup : (before ++ faces).Nodup) :
    ∃ p' m', sweepFaces chunk faces p m = (.ok p', m') ∧
      Issued m₀ (sweepOps m₀ (before ++ faces)) p' m' := by
  induction faces generalizing before p m with
  | nil => exact ⟨p, m, rfl, by rwa [List.append_nil]⟩
  | cons face faces ih =>
    have hrange : m.range face (prefixEnd face) = m₀.range face (prefixEnd face) := by
      refine SortedMap.range_congr fun k hlo hhi => h.get fun op hop heq => ?_
      obtain ⟨other, hother, v, -, hlo', hhi', -⟩ := mem_sweepOps.mp hop
      rw [heq] at hlo' hhi'
      have hsame := eq_of_mem_ranges (by rw [hlen face (by simp), hlen other (by simp [hother])])
        hlo' hhi' hlo hhi
      exact List.disjoint_of_nodup_append hnodup hother (by simp [hsame])
    have hsplit : before ++ face :: faces = (before ++ [face]) ++ faces := by simp
    obtain ⟨p', m', hwalk, hissued⟩ := @sweepEntries_issues m₀ m _ p chunk
      (m.range face (prefixEnd face)) h
    have hone : sweepOps m₀ (before ++ [face]) = sweepOps m₀ before
        ++ (m.range face (prefixEnd face)).flatMap fun e => [(e.1, none)] := by
      rw [hrange, sweepOps_append]
      exact congrArg _ (List.flatMap_singleton _ _)
    rw [← hone] at hissued
    rw [hsplit] at hlen hnodup ⊢
    have hnext : Issued m₀ (sweepOps m₀ (before ++ [face]))
        { p' with report := { p'.report with facesSwept := p'.report.facesSwept + 1 } } m' := hissued
    obtain ⟨p'', m'', hrest, hissued'⟩ := ih hnext hlen hnodup
    refine ⟨p'', m'', ?_, hissued'⟩
    rw [sweepFaces]
    exact (run_bind_of_ok hwalk).trans hrest

/-- **A walk issues the puts of its documents' entries**, one after the other, where what is read
along it lies outside the region it writes. -/
theorem walkDocuments_issues {chunk : Nat}
    {derive : Bytes → Keyspace → Plan (Option (List (Bytes × Bytes)))}
    {derived : Bytes × Bytes → List (Bytes × Bytes)} {region : Bytes → Prop}
    {entries : List (Bytes × Bytes)}
    (hregion : ∀ e ∈ entries, ∀ f ∈ derived e, region f.1)
    (hderive : ∀ e ∈ entries, ∀ m, (∀ k, ¬ region k → m.get k = m₀.get k) →
      derive e.1 m = answer (some (derived e)))
    (hops : ∀ op ∈ ops, region op.1) (h : Issued m₀ ops p m) :
    Issues m₀ (ops ++ putOps (entries.flatMap derived))
      (walkDocuments chunk derive (entries.map .ok) p m) := by
  induction entries generalizing ops p m with
  | nil =>
    refine ⟨p, m, rfl, ?_⟩
    rw [List.flatMap_nil]
    exact h.imp fun landed hlanded => ⟨hlanded.1, hlanded.2.trans (List.append_nil _).symm⟩
  | cons e entries ih =>
    rw [List.forall_mem_cons] at hregion hderive
    have hnext : Issued m₀ (ops ++ putOps (derived e)) (withEntries p (derived e)) m := by
      obtain ⟨landed, hm, rfl⟩ := h
      exact ⟨landed, hm, (List.append_assoc ..).symm⟩
    have hops' : ∀ op ∈ ops ++ putOps (derived e), region op.1 := by
      intro op hop
      rcases List.mem_append.mp hop with hop | hop
      · exact hops op hop
      · obtain ⟨f, hf, rfl⟩ := List.mem_map.mp hop
        exact hregion.1 f hf
    have hsplit : ops ++ putOps ((e :: entries).flatMap derived)
        = (ops ++ putOps (derived e)) ++ putOps (entries.flatMap derived) := by
      rw [List.flatMap_cons, List.append_assoc]
      congr 1
      exact List.map_append
    -- the operations land in the region only, so the entries of `e` are derived as before
    have hread := hderive.1 m fun k hk => h.get fun op hop heq => hk (heq ▸ hops op hop)
    have htable : tableSide (derive e.1) m = (.ok (some (derived e)), m) := by
      unfold tableSide
      rw [hread]
    rw [hsplit, List.map_cons, walkDocuments, run_bind_of_ok htable]
    dsimp only
    split
    · -- a full chunk is committed before the walk goes on
      obtain ⟨p', hcommit, hp', -⟩ := commitChunk_issues hnext
      have hengine : engineSide (commitChunk (withEntries p (derived e))) m
          = (.ok p', applyOps m (withEntries p (derived e)).batch.ops) := by
        unfold engineSide
        rw [hcommit]
        rfl
      rw [run_bind_of_ok hengine]
      exact ih hregion.2 hderive.2 hops' hp'
    · exact ih hregion.2 hderive.2 hops' hnext

end

end Okm.Dynamic
