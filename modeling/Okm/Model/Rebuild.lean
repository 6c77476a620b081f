import Okm.Engine.Flaky
import Okm.Model.Fingerprint
import Okm.Model.RowWrites
import Okm.Model.TableMeta

/-!
# Rebuilding the faces

The model of `Collection::rebuild_faces`. The faces the declaration derives today are swept,
one range each; the rows are walked and their entries put; the face stamp is the last write.
Both walks collect their ops in one batch, which is committed whenever it holds a chunk.

How the ops are cut into commits does not matter to what they leave, so a run is described
by the list of ops it issues: a run that ends well has landed all of them, a run that is cut
short a front part (`Ended`).
-/

namespace Okm.Model

open Lib VirtualStorage KeyEncode

/-! ## The verb -/

/-- Which declaration kind owns a face. -/
inductive FaceKind where
  | index
  | lead
  deriving DecidableEq

/-- The slot family is the discriminator. -/
def FaceKind.of (slot : UInt16) : Option FaceKind :=
  if slot.toNat / 0x1000 = Segment.index then some .index
  else if slot.toNat / 0x1000 = Segment.lead then some .lead
  else none

/-- What a rebuild did. -/
structure RebuildReport where
  facesSwept : Nat := 0
  entriesDeleted : Nat := 0
  documents : Nat := 0
  entriesWritten : Nat := 0
  chunks : Nat := 0
  deriving DecidableEq

/-- A document type with the constants the derive emits beside it. A deprecated face keeps
its declaration and has no access method. -/
structure Declared (K R : Type) [KeyEncode K] where
  doc : Document K R
  layoutVersion : UInt8
  indexDecls : List IndexDecl
  liveSlots : (indexDecls.filter fun d => !d.deprecated).map (fun d => d.slot.toNat)
    = doc.indexes.map (fun i => i.slot.val) ++ doc.leads.map fun l => l.slot.val

/-- The open batch and the report so far. -/
structure Progress where
  batch : Batch := {}
  report : RebuildReport := {}

section

variable {σ : Type} [VirtualStorage σ]

/-- Commit the open batch and begin another. -/
def commitChunk (p : Progress) : Run Failure σ Progress := fun s =>
  match commitBatch s p.batch with
  | (.ok (), s) =>
    (.ok { batch := {}, report := { p.report with chunks := p.report.chunks + 1 } }, s)
  | (.error e, s) => (.error (.refused e), s)

/-- Either loop: an item updates the batch and the report or ends the run, and a full batch
is committed. -/
def walkItems (chunk : Nat) (step : Bytes × Bytes → Progress → Except Failure Progress) :
    List ScanItem → Progress → Run Failure σ Progress
  | [], p => pure p
  | .error e :: _, _ => fun s => (.error (.refused e), s)
  | .ok entry :: rest, p =>
    match step entry p with
    | .error f => fun s => (.error f, s)
    | .ok p =>
      (if chunk ≤ p.batch.ops.length then commitChunk p else pure p) >>= walkItems chunk step rest

/-- What is left in the batch when a walk ends. -/
def commitRest (p : Progress) : Run Failure σ Progress :=
  if p.batch.ops = [] then pure p else commitChunk p

/-- One entry of a swept face. -/
def sweepEntry (entry : Bytes × Bytes) (p : Progress) : Except Failure Progress :=
  .ok { batch := p.batch.del entry.1
        report := { p.report with entriesDeleted := p.report.entriesDeleted + 1 } }

/-- The sweep, face by face. -/
def sweepFaces (chunk : Nat) : List Bytes → Progress → Run Failure σ Progress
  | [], p => pure p
  | face :: rest, p => do
    let p ← fun s => walkItems chunk sweepEntry (scanRangeIter s face (prefixEnd face)) p s
    sweepFaces chunk rest
      { p with report := { p.report with facesSwept := p.report.facesSwept + 1 } }

/-- The row a stamp is written into: the one there is, or a fresh one. -/
def stampedRow (version : UInt8) : Option Bytes → Except Panic TableMeta
  | none => .ok (TableMeta.stamped version)
  | some bytes => TableMeta.decode bytes

/-- `stamp_faces`. -/
def stampFaces (header : Bytes) (version : UInt8) (faces : Bytes) : Run Failure σ TableMeta :=
  fun s =>
    let key := faceKey header metaSlot []
    match VirtualStorage.get s key with
    | .error e => (.error (.refused e), s)
    | .ok found =>
      match stampedRow version found with
      | .error p => (.error (.panic p), s)
      | .ok row =>
        let row := row.set TableMeta.facesName faces
        match VirtualStorage.put s key row.encode with
        | (.ok (), s) => (.ok row, s)
        | (.error e, s) => (.error (.refused e), s)

end

namespace Declared

variable {K R : Type} [KeyEncode K] (d : Declared K R)

def header : Bytes := d.doc.header

/-- `FACES`. -/
def faces : Bytes := fingerprint d.indexDecls

/-- The key prefixes of the live faces, in the order of `INDEX_DECLS`. -/
def sweptFaces : List Bytes :=
  (d.indexDecls.filter fun decl => !decl.deprecated).map fun decl =>
    d.header ++ (if decl.slot.toNat ≤ 0x0F then [UInt8.ofNat decl.slot.toNat]
      else beBytes 2 decl.slot.toNat)

/-- A payload is decoded only for a face that reads fields out of it. -/
def needsPayload : Bool :=
  d.indexDecls.any fun decl => !decl.deprecated && FaceKind.of decl.slot = some .index

/-- The entries of a stored row. -/
def rowEntries (key : K) (value : Bytes) : List (Bytes × Bytes) :=
  if d.needsPayload then d.doc.indexEntries key (d.doc.decodePayload value)
  else d.doc.keyEntries key

def primaryFace : Bytes := faceKey d.header primarySlot []

/-- The key a primary entry is stored under, without the face. -/
def rowKey (full : Bytes) : K :=
  let suffix := full.drop d.primaryFace.length
  decode (suffix.drop (suffix.length - keyLen K))

/-- One row of the second walk. -/
def deriveRow (entry : Bytes × Bytes) (p : Progress) : Except Failure Progress :=
  if entry.1.length < d.primaryFace.length then .error (.panic .slice)
  else
    let suffix := entry.1.drop d.primaryFace.length
    if suffix.length < keyLen K then
      .error (.refused (.corrupt ("a primary entry is " ++ toString suffix.length
        ++ " byte(s), shorter than the " ++ toString (keyLen K) ++ "-byte key")))
    else
      let entries := d.rowEntries (d.rowKey entry.1) entry.2
      .ok { batch := ⟨p.batch.ops ++ putOps entries⟩
            report := { p.report with
              entriesWritten := p.report.entriesWritten + entries.length
              documents := p.report.documents + 1 } }

/-- The first two phases of `rebuild_faces`: sweep, then derive. -/
def rederive {σ : Type} [VirtualStorage σ] (chunk : Nat) : Run Failure σ Progress := do
  let p ← sweepFaces chunk d.sweptFaces {}
  let p ← commitRest p
  let p ← fun s =>
    walkItems chunk d.deriveRow (scanRangeIter s d.primaryFace (prefixEnd d.primaryFace)) p s
  commitRest p

/-- `rebuild_faces`: nothing before the stamp claims completion. -/
def rebuildFaces {σ : Type} [VirtualStorage σ] (chunk : Nat) : Run Failure σ RebuildReport := do
  let p ← d.rederive (max chunk 1)
  let _ ← stampFaces d.header d.layoutVersion d.faces
  pure p.report

end Declared

/-! ## What a run issues -/

/-- The run has issued `ops`: some have landed, the rest stand in the batch. -/
def Standing (s₀ : Flaky) (ops : List (Op Bytes Bytes)) (p : Progress) (s : Flaky) : Prop :=
  ∃ w, s = s₀.after w ∧ w.flatten ++ p.batch.ops = ops ∧ s₀.Clean w

/-- **How a part of a run ends**: with all of `ops` issued, or refused with a front part of
them landed. -/
inductive Ended (s₀ : Flaky) (ops : List (Op Bytes Bytes)) (Q : Prop) :
    Except Failure Progress × Flaky → Prop
  | stands {p : Progress} {s : Flaky} (h : Standing s₀ ops p s) (hQ : Q) : Ended s₀ ops Q (.ok p, s)
  | refused {e : Error} {w : List (List (Op Bytes Bytes))} (h : w.flatten <+: ops)
      (cause : s₀.faults ≠ Faults.never) : Ended s₀ ops Q (.error (.refused e), s₀.after w)

section

variable {s₀ : Flaky} {ops ops' : List (Op Bytes Bytes)} {Q Q' : Prop}

/-- The next part takes over where one stands. -/
theorem Ended.bind {x : Run Failure Flaky Progress} {f : Progress → Run Failure Flaky Progress}
    {s : Flaky} (h : Ended s₀ ops Q (x s)) (hops : ops <+: ops')
    (hf : ∀ p s', Standing s₀ ops p s' → Q → Ended s₀ ops' Q' (f p s')) :
    Ended s₀ ops' Q' ((x >>= f) s) := by
  rw [run_bind]
  cases h' : x s with
  | mk answer s' =>
    rw [h'] at h
    cases h with
    | stands hstands hQ => exact hf _ _ hstands hQ
    | refused hpre cause => exact .refused (hpre.trans hops) cause

theorem Ended.imp {r : Except Failure Progress × Flaky} (h : Ended s₀ ops Q r) (hQ : Q → Q') :
    Ended s₀ ops Q' r := by
  cases h with
  | stands hstands hq => exact .stands hstands (hQ hq)
  | refused hpre cause => exact .refused hpre cause

/-- A fault that fires is a fault. -/
theorem faults_ne_of_write {f : Faults} {n : Nat} {fault : Nat × Error}
    (h : f.write n = some fault) : f ≠ Faults.never := by
  intro heq
  rw [heq] at h
  cases h

/-- A commit moves the batch into the log, or a part of it. -/
theorem commitChunk_ended {p : Progress} {s : Flaky} (h : Standing s₀ ops p s) :
    Ended s₀ ops True (commitChunk p s) := by
  obtain ⟨w, rfl, hops, hclean⟩ := h
  unfold commitChunk
  rcases Flaky.commit_cases (s₀.after w) p.batch with ⟨hok, hcommit⟩ | ⟨fault, hfault, hcommit⟩
  · have hcommit' : commitBatch (s₀.after w) p.batch
        = (.ok (), s₀.after (w ++ [p.batch.ops])) := by
      rw [← Flaky.land_after]
      exact hcommit
    rw [hcommit']
    refine .stands ⟨_, rfl, ?_, hclean.concat _ hok⟩ trivial
    simpa using hops
  · have hcommit' : commitBatch (s₀.after w) p.batch
        = (.error fault.2, s₀.after (w ++ [p.batch.ops.take fault.1])) := by
      rw [← Flaky.land_after]
      exact hcommit
    rw [hcommit']
    refine .refused ?_ (faults_ne_of_write hfault)
    rw [← hops, List.flatten_append, List.flatten_singleton]
    exact (List.prefix_append_right_inj _).mpr (List.take_prefix _ _)

theorem commitRest_ended {p : Progress} {s : Flaky} (h : Standing s₀ ops p s) :
    Ended s₀ ops True (commitRest p s) := by
  unfold commitRest
  by_cases hempty : p.batch.ops = []
  · rw [if_pos hempty]
    exact .stands h trivial
  · rw [if_neg hempty]
    exact commitChunk_ended h

/-- A commit of what is left leaves the batch empty. -/
theorem commitRest_empty {σ : Type} [VirtualStorage σ] {p p' : Progress} {s s' : σ}
    (h : commitRest p s = (.ok p', s')) : p'.batch.ops = [] := by
  unfold commitRest at h
  by_cases hempty : p.batch.ops = []
  · rw [if_pos hempty] at h
    obtain ⟨hp, -⟩ := Prod.mk.inj h
    rw [← Except.ok.inj hp]
    exact hempty
  · rw [if_neg hempty] at h
    unfold commitChunk at h
    cases hcommit : commitBatch s p.batch with
    | mk answer s'' =>
      rw [hcommit] at h
      cases answer with
      | error e => cases (Prod.mk.inj h).1
      | ok u =>
        obtain ⟨hp, -⟩ := Prod.mk.inj h
        rw [← Except.ok.inj hp]

/-- **A walk issues its items' ops one after the other**, however they are cut into
chunks. -/
theorem walkItems_ended {chunk : Nat} {step : Bytes × Bytes → Progress → Except Failure Progress}
    {opsOf : Bytes × Bytes → List (Op Bytes Bytes)} {entries : List (Bytes × Bytes)}
    (hstep : ∀ e ∈ entries, ∀ p, ∃ p', step e p = .ok p' ∧
      p'.batch.ops = p.batch.ops ++ opsOf e) {tail : List ScanItem} {p : Progress} {s : Flaky}
    (h : Standing s₀ ops p s)
    (htail : ∀ p s, Standing s₀ (ops ++ entries.flatMap opsOf) p s →
      Ended s₀ (ops ++ entries.flatMap opsOf) Q (walkItems chunk step tail p s)) :
    Ended s₀ (ops ++ entries.flatMap opsOf) Q
      (walkItems chunk step (entries.map .ok ++ tail) p s) := by
  induction entries generalizing ops p s with
  | nil =>
    rw [List.flatMap_nil, List.append_nil] at htail ⊢
    exact htail p s h
  | cons e entries ih =>
    obtain ⟨p', hp', hbatch⟩ := hstep e List.mem_cons_self p
    have hstands : Standing s₀ (ops ++ opsOf e) p' s := by
      obtain ⟨w, hs, hops, hclean⟩ := h
      refine ⟨w, hs, ?_, hclean⟩
      rw [hbatch, ← hops, List.append_assoc]
    have hsplit : ops ++ (e :: entries).flatMap opsOf
        = (ops ++ opsOf e) ++ entries.flatMap opsOf := by
      rw [List.flatMap_cons, List.append_assoc]
    rw [hsplit] at htail ⊢
    rw [List.map_cons, List.cons_append, walkItems, hp']
    dsimp only
    have hchunk : Ended s₀ (ops ++ opsOf e) True
        ((if chunk ≤ p'.batch.ops.length then commitChunk p' else pure p'
          : Run Failure Flaky Progress) s) := by
      by_cases hfull : chunk ≤ p'.batch.ops.length
      · rw [if_pos hfull]
        exact commitChunk_ended hstands
      · rw [if_neg hfull]
        exact .stands hstands trivial
    refine hchunk.bind (List.prefix_append _ _) fun p'' s' hp'' _ => ?_
    exact ih (fun f hf => hstep f (List.mem_cons_of_mem _ hf)) hp'' htail

/-- A scan reads what the run began with, where nothing was written since. -/
theorem Standing.range_eq {p : Progress} {s : Flaky} (h : Standing s₀ ops p s) {lo : Bytes}
    {hi : Option Bytes} (hout : ∀ op ∈ ops, ¬ (lo ≤ op.1 ∧ ∀ u ∈ hi, op.1 < u)) :
    s.store.range lo hi = s₀.store.range lo hi := by
  obtain ⟨w, rfl, hops, -⟩ := h
  rw [Flaky.store_after]
  refine SortedMap.range_congr fun k hlo hhi => get_applyOps_of_not_mem _ fun op hop heq => ?_
  have hmem : op ∈ ops := by
    rw [← hops]
    exact List.mem_append_left _ hop
  exact hout op hmem (by rw [heq]; exact ⟨hlo, hhi⟩)

/-- A walk over a scan issues the ops of all it finds, or is refused on the way. -/
theorem walkScan_ended {chunk : Nat} {step : Bytes × Bytes → Progress → Except Failure Progress}
    {opsOf : Bytes × Bytes → List (Op Bytes Bytes)} {p : Progress} {s : Flaky} {b : Bytes}
    {e : Option Bytes} (h : Standing s₀ ops p s)
    (hstep : ∀ f ∈ s.store.range b e, ∀ p, ∃ p', step f p = .ok p' ∧
      p'.batch.ops = p.batch.ops ++ opsOf f) :
    Ended s₀ (ops ++ (s.store.range b e).flatMap opsOf) (s₀.faults.scan b = none)
      (walkItems chunk step (scanRangeIter s b e) p s) := by
  have hfaults : s.faults = s₀.faults := by
    obtain ⟨w, rfl, -⟩ := h
    rfl
  have hscan : scanRangeIter s b e = s.scan b e := rfl
  rw [hscan]
  rcases s.scan_cases b e with ⟨hnone, heq⟩ | ⟨fault, hfault, heq⟩
  · rw [heq, ← List.append_nil (List.map _ _)]
    exact walkItems_ended hstep h fun p s hstands => .stands hstands (hfaults ▸ hnone)
  · -- the items up to the failure are walked, and the failure ends the walk
    have hcut : Ended s₀ (ops ++ ((s.store.range b e).take fault.1).flatMap opsOf) False
        (walkItems chunk step (s.scan b e) p s) := by
      rw [heq]
      refine walkItems_ended (fun f hf => hstep f (List.mem_of_mem_take hf)) h ?_
      intro p s hstands
      obtain ⟨w, rfl, hops, -⟩ := hstands
      refine .refused ⟨p.batch.ops, hops⟩ fun hnever => ?_
      rw [hfaults, hnever] at hfault
      cases hfault
    cases hwalk : walkItems chunk step (s.scan b e) p s with
    | mk answer s' =>
      rw [hwalk] at hcut
      cases hcut with
      | stands _ hfalse => exact absurd hfalse id
      | refused hpre cause =>
        refine .refused (hpre.trans ((List.prefix_append_right_inj _).mpr ?_)) cause
        have htake := List.take_append_drop fault.1 (s.store.range b e)
        refine ⟨((s.store.range b e).drop fault.1).flatMap opsOf, ?_⟩
        rw [← List.flatMap_append, htake]

/-- The deletes of a sweep over a keyspace. -/
def sweepOps (m : Keyspace) (faces : List Bytes) : List (Op Bytes Bytes) :=
  faces.flatMap fun face => (m.range face (prefixEnd face)).flatMap fun e => [(e.1, none)]

theorem mem_sweepOps {m : Keyspace} {faces : List Bytes} {op : Op Bytes Bytes} :
    op ∈ sweepOps m faces ↔ ∃ face ∈ faces, ∃ v, m.get op.1 = some v ∧ face ≤ op.1 ∧
      (∀ u ∈ prefixEnd face, op.1 < u) ∧ op.2 = none := by
  unfold sweepOps
  simp only [List.mem_flatMap, List.mem_singleton, SortedMap.mem_range]
  constructor
  · intro h
    obtain ⟨face, hface, e, ⟨hget, hlo, hhi⟩, rfl⟩ := h
    exact ⟨face, hface, e.2, hget, hlo, hhi, rfl⟩
  · intro h
    obtain ⟨face, hface, v, hget, hlo, hhi, hnone⟩ := h
    exact ⟨face, hface, (op.1, v), ⟨hget, hlo, hhi⟩, Prod.ext rfl hnone⟩

theorem sweepOps_append (m : Keyspace) (faces rest : List Bytes) :
    sweepOps m (faces ++ rest) = sweepOps m faces ++ sweepOps m rest := List.flatMap_append

/-- **The sweep issues the deletes of what the run began with**, face by face: the ranges of
two faces do not meet, so no face is changed before it is scanned. -/
theorem sweepFaces_ended {chunk n : Nat} {before faces : List Bytes} {p : Progress} {s : Flaky}
    (h : Standing s₀ (sweepOps s₀.store before) p s) (hlen : ∀ f ∈ before ++ faces, f.length = n)
    (hnodup : (before ++ faces).Nodup) :
    Ended s₀ (sweepOps s₀.store (before ++ faces)) (∀ f ∈ faces, s₀.faults.scan f = none)
      (sweepFaces chunk faces p s) := by
  induction faces generalizing before p s with
  | nil =>
    rw [List.append_nil]
    exact .stands h (by simp)
  | cons face faces ih =>
    have hrange : s.store.range face (prefixEnd face) = s₀.store.range face (prefixEnd face) := by
      refine h.range_eq fun op hop hin => ?_
      obtain ⟨other, hother, v, -, hlo, hhi, -⟩ := mem_sweepOps.mp hop
      have hsame := eq_of_mem_ranges (by rw [hlen face (by simp), hlen other (by simp [hother])])
        hlo hhi hin.1 hin.2
      exact List.disjoint_of_nodup_append hnodup hother (by simp [hsame])
    have hsplit : before ++ face :: faces = (before ++ [face]) ++ faces := by simp
    have hone : sweepOps s₀.store (before ++ [face]) = sweepOps s₀.store before
        ++ (s.store.range face (prefixEnd face)).flatMap fun e => [(e.1, none)] := by
      rw [hrange, sweepOps_append]
      exact congrArg _ (List.flatMap_singleton _ _)
    rw [sweepFaces]
    have hwalk : Ended s₀ (sweepOps s₀.store (before ++ [face])) (s₀.faults.scan face = none)
        (walkItems chunk sweepEntry (scanRangeIter s face (prefixEnd face)) p s) := by
      rw [hone]
      exact walkScan_ended h fun e _ p => ⟨_, rfl, rfl⟩
    have hfront : sweepOps s₀.store (before ++ [face])
        <+: sweepOps s₀.store (before ++ face :: faces) := by
      rw [hsplit, sweepOps_append _ (before ++ [face])]
      exact List.prefix_append _ _
    rw [hsplit] at hlen hnodup
    refine Ended.bind hwalk hfront fun p' s' hstands hscan => ?_
    have hrest := @ih (before ++ [face])
      { p' with report := { p'.report with facesSwept := p'.report.facesSwept + 1 } } s'
      hstands hlen hnodup
    rw [← hsplit] at hrest
    refine hrest.imp fun hall f hf => ?_
    rcases List.mem_cons.mp hf with rfl | hf
    · exact hscan
    · exact hall f hf

end

/-! ## The whole run -/

namespace Declared

variable {K R : Type} [KeyEncode K] (d : Declared K R)

/-- The slots of the live faces. -/
def liveFaces : List Slot := d.doc.indexes.map KvIndex.slot ++ d.doc.leads.map LeadFace.slot

theorem mem_liveFaces {s : Slot} : s ∈ d.liveFaces ↔ s ∈ d.doc.faceSlots := by
  unfold liveFaces Document.faceSlots
  rw [List.mem_append, List.mem_append, or_comm]

theorem sweptFaces_eq : d.sweptFaces = d.liveFaces.map fun s => faceKey d.header s [] := by
  have hlive := congrArg (List.map fun n => d.header ++ (if n ≤ 0x0F then [UInt8.ofNat n]
    else beBytes 2 n)) d.liveSlots
  rw [List.map_map, List.map_append, List.map_map, List.map_map] at hlive
  unfold sweptFaces
  refine hlive.trans ?_
  unfold liveFaces
  rw [List.map_append, List.map_map, List.map_map]
  congr 1 <;> exact List.map_congr_left fun _ _ => (List.append_nil _).symm

/-- A live slot is of a counting family: its face is two bytes behind the header. -/
theorem liveFace_bytes {s : Slot} (h : s ∈ d.liveFaces) :
    faceKey d.header s [] = d.header ++ [UInt8.ofNat (s.val / 256), UInt8.ofNat s.val] ∧
      0x0F < UInt8.ofNat (s.val / 256) := by
  have hfamily := d.doc.family_of_faceSlots (d.mem_liveFaces.mp h)
  have hlow : 0x3000 ≤ s.val := by
    unfold Segment.lead Segment.index at hfamily
    omega
  have hhigh : s.val ≤ 0xFFFF := by
    rcases s.wf with h | h <;> omega
  constructor
  · unfold faceKey Slot.bytes
    rw [if_neg (by omega), beBytes_two, List.append_nil]
  · rw [UInt8.lt_iff_toNat_lt, UInt8.toNat_ofNat']
    change 15 < s.val / 256 % 256
    omega

theorem nodup_sweptFaces : d.sweptFaces.Nodup := by
  rw [sweptFaces_eq]
  have hslots : d.liveFaces.Nodup := by
    refine List.nodup_append.mpr ⟨d.doc.indexesNodup, d.doc.leadsNodup, fun s hs t ht heq => ?_⟩
    obtain ⟨index, hindex, rfl⟩ := List.mem_map.mp hs
    obtain ⟨lead, hlead, rfl⟩ := List.mem_map.mp ht
    have hfi := d.doc.indexSlots index hindex
    have hfl := d.doc.leadSlots lead hlead
    rw [heq, hfl] at hfi
    cases hfi
  exact hslots.map fun s t heq => ((faceKey_inj d.header s t [] []).mp heq).1

theorem length_sweptFaces : ∀ f ∈ d.sweptFaces, f.length = d.header.length + 2 := by
  intro f hf
  rw [sweptFaces_eq] at hf
  obtain ⟨s, hs, rfl⟩ := List.mem_map.mp hf
  rw [(d.liveFace_bytes hs).1]
  simp

/-- Fixed faces lie below every live face. -/
theorem fixed_lt_face {s : Slot} (h : s ∈ d.liveFaces) {b : UInt8} (hb : b ≤ 0x0F) :
    d.header ++ [b] < faceKey d.header s [] := by
  obtain ⟨hbytes, hhigh⟩ := d.liveFace_bytes h
  rw [hbytes, append_lt_append_iff]
  exact (cons_lt_cons_iff _ _ _ _).mpr (Or.inl (lt_of_le_of_lt hb hhigh))

def metaKey : Bytes := faceKey d.header metaSlot []

/-- The puts of the second walk over a keyspace. -/
def deriveOps (m : Keyspace) : List (Op Bytes Bytes) :=
  (m.range d.primaryFace (prefixEnd d.primaryFace)).flatMap fun e =>
    putOps (d.rowEntries (d.rowKey e.1) e.2)

/-- What a run over a keyspace issues before the stamp. -/
def issued (m : Keyspace) : List (Op Bytes Bytes) := sweepOps m d.sweptFaces ++ d.deriveOps m

/-- Every primary entry is stored under a key of the table. -/
def RowsWellFormed (m : Keyspace) : Prop :=
  ∀ k v, m.get k = some v → d.primaryFace <+: k → ∃ key, k = d.doc.primaryKey key

/-- **How a rebuild ends.** Refused with a front part of its ops landed; with all of them
landed, aborted on a meta row no encoder wrote; or done, with the stamp as one write more. -/
inductive RebuildEnd (s₀ : Flaky) : Except Failure RebuildReport × Flaky → Prop
  | refused {e : Error} {w : List (List (Op Bytes Bytes))} (landed : w.flatten <+: d.issued s₀.store)
      (cause : s₀.faults ≠ Faults.never) : RebuildEnd s₀ (.error (.refused e), s₀.after w)
  | aborted {p : Panic} {w : List (List (Op Bytes Bytes))} (landed : w.flatten = d.issued s₀.store)
      (unreadable : stampedRow d.layoutVersion (s₀.store.get d.metaKey) = .error p) :
      RebuildEnd s₀ (.error (.panic p), s₀.after w)
  | done {report : RebuildReport} {row : TableMeta} {w : List (List (Op Bytes Bytes))}
      (landed : w.flatten = d.issued s₀.store)
      (found : stampedRow d.layoutVersion (s₀.store.get d.metaKey) = .ok row)
      (clean : s₀.Clean (w ++ [[(d.metaKey, some (row.set TableMeta.facesName d.faces).encode)]]))
      (swept : ∀ f ∈ d.sweptFaces, s₀.faults.scan f = none)
      (walked : s₀.faults.scan d.primaryFace = none) (read : s₀.faults.read d.metaKey = none) :
      RebuildEnd s₀ (.ok report,
        s₀.after (w ++ [[(d.metaKey, some (row.set TableMeta.facesName d.faces).encode)]]))

end Declared

end Okm.Model
