import Okm.Model.Faces
import Okm.Model.Rebuild
import Okm.Model.ScanRange

/-!
# What a rebuild restores

`rebuildFaces` ends in one of three ways (`rebuild_end`), and what each leaves is read off
the ops it landed. A run that is done leaves the regions of the live faces holding the
entries of the stored rows, whatever stood there and however the ops were cut into commits;
a run that was cut short has touched nothing but these regions, so it can be run again.

The sweep takes its bounds from `prefix_end`. Behind a slot whose low byte is `0xFF` the
bound carries, and the range also holds the key that ends in the bumped high byte: where
such a key is stored, the sweep deletes it (`rebuild_restores`).
-/

namespace Okm.Model

open Lib VirtualStorage KeyEncode

namespace Declared

variable {K R : Type} [KeyEncode K] {d : Declared K R}

/-! ## Where the ops go -/

/-- The key of a swept entry lies behind the fixed faces. -/
theorem fixed_lt_of_sweep {m : Keyspace} {op : Op Bytes Bytes} (h : op ∈ sweepOps m d.sweptFaces)
    {b : UInt8} (hb : b ≤ 0x0F) : d.header ++ [b] < op.1 := by
  obtain ⟨face, hface, v, -, hlo, -, -⟩ := mem_sweepOps.mp h
  rw [sweptFaces_eq] at hface
  obtain ⟨s, hs, rfl⟩ := List.mem_map.mp hface
  exact lt_of_lt_of_le (d.fixed_lt_face hs hb) hlo

theorem primaryFace_eq : d.primaryFace = d.header ++ [0x00] := List.append_nil _

theorem metaKey_eq : d.metaKey = d.header ++ [0x0F] := List.append_nil _

/-- The primary range holds the rows and nothing else. -/
theorem mem_primary_range {m : Keyspace} {e : Bytes × Bytes} :
    e ∈ m.range d.primaryFace (prefixEnd d.primaryFace) ↔
      m.get e.1 = some e.2 ∧ d.primaryFace <+: e.1 := by
  rw [SortedMap.mem_range]
  constructor
  · intro h
    obtain ⟨hget, hlo, hhi⟩ := h
    refine ⟨hget, prefix_of_lt_prefixEnd hlo hhi ?_⟩
    rw [primaryFace_eq] at hlo hhi ⊢
    exact length_le_of_lt_concat (by decide) hlo hhi
  · intro h
    obtain ⟨hget, hcarries⟩ := h
    exact ⟨hget, prefix_le hcarries, fun u hu => lt_prefixEnd hu hcarries⟩

/-- With no payload face declared the key's own entries are all there are. -/
theorem rowEntries_eq (key : K) (value : Bytes) :
    d.rowEntries key value = d.doc.indexEntries key (d.doc.decodePayload value) := by
  unfold rowEntries
  cases hneeds : d.needsPayload with
  | true => rw [if_pos rfl]
  | false =>
    have hnone : d.doc.indexes = [] := by
      rw [List.eq_nil_iff_forall_not_mem]
      intro index hindex
      have hslot : index.slot.val ∈ (d.indexDecls.filter fun decl => !decl.deprecated).map
          fun decl => decl.slot.toNat := by
        rw [d.liveSlots]
        exact List.mem_append_left _ (List.mem_map_of_mem (f := fun i => i.slot.val) hindex)
      obtain ⟨decl, hdecl, heq⟩ := List.mem_map.mp hslot
      obtain ⟨hmem, hlive⟩ := List.mem_filter.mp hdecl
      have hkind : FaceKind.of decl.slot = some .index := by
        have hfamily := d.doc.indexSlots index hindex
        unfold FaceKind.of
        rw [heq, if_pos hfamily]
      have htrue : d.needsPayload = true := by
        refine List.any_eq_true.mpr ⟨decl, hmem, ?_⟩
        rw [hlive, hkind]
        rfl
      rw [hneeds] at htrue
      cases htrue
    rw [if_neg Bool.false_ne_true, Document.indexEntries, hnone, List.flatMap_nil, List.append_nil]

/-- A derived op puts an entry of a stored row. -/
theorem mem_deriveOps {m : Keyspace} {op : Op Bytes Bytes} :
    op ∈ d.deriveOps m ↔ ∃ k v value, m.get k = some v ∧ d.primaryFace <+: k ∧
      (op.1, value) ∈ d.doc.indexEntries (d.rowKey k) (d.doc.decodePayload v) ∧
      op.2 = some value := by
  unfold deriveOps
  constructor
  · intro h
    obtain ⟨e, he, hop⟩ := List.mem_flatMap.mp h
    obtain ⟨hget, hcarries⟩ := mem_primary_range.mp he
    rw [rowEntries_eq] at hop
    obtain ⟨entry, hentry, rfl⟩ := List.mem_map.mp hop
    exact ⟨e.1, e.2, entry.2, hget, hcarries, hentry, rfl⟩
  · intro h
    obtain ⟨k, v, value, hget, hcarries, hentry, hsome⟩ := h
    refine List.mem_flatMap.mpr ⟨(k, v), mem_primary_range.mpr ⟨hget, hcarries⟩, ?_⟩
    rw [rowEntries_eq]
    exact List.mem_map.mpr ⟨(op.1, value), hentry, Prod.ext rfl hsome.symm⟩

/-- Some key of a live face. -/
def Live (d : Declared K R) (k : Bytes) : Prop := Under d.header (· ∈ d.doc.faceSlots) k

theorem live_of_deriveOps {m : Keyspace} {op : Op Bytes Bytes} (h : op ∈ d.deriveOps m) :
    d.Live op.1 := by
  obtain ⟨k, v, value, -, -, hentry, -⟩ := mem_deriveOps.mp h
  exact d.doc.under_of_indexEntries hentry

theorem not_live_fixed {s : Slot} (hs : s.val ≤ 0x0F) (suffix : Bytes) :
    ¬ d.Live (faceKey d.header s suffix) := by
  intro h
  have hface := under_faceKey.mp h
  have hfamily := d.doc.family_of_faceSlots hface
  unfold Segment.lead Segment.index at hfamily
  omega

/-- Nothing a run issues before the stamp goes to the meta row. -/
theorem issued_ne_metaKey {m : Keyspace} {op : Op Bytes Bytes} (h : op ∈ d.issued m) :
    op.1 ≠ d.metaKey := by
  rcases List.mem_append.mp h with h | h
  · rw [metaKey_eq]
    exact ne_of_gt (fixed_lt_of_sweep h (le_refl _))
  · intro heq
    have hlive := live_of_deriveOps h
    rw [heq] at hlive
    exact not_live_fixed (s := metaSlot) (by decide) [] hlive

/-! ## How a run ends -/

/-- A row stored under a key of the table is walked. -/
theorem deriveRow_ok {m : Keyspace} (rows : d.RowsWellFormed m) {e : Bytes × Bytes}
    (he : e ∈ m.range d.primaryFace (prefixEnd d.primaryFace)) (p : Progress) :
    ∃ p', d.deriveRow e p = .ok p' ∧
      p'.batch.ops = p.batch.ops ++ putOps (d.rowEntries (d.rowKey e.1) e.2) := by
  obtain ⟨hget, hcarries⟩ := mem_primary_range.mp he
  obtain ⟨key, hkey⟩ := rows e.1 e.2 hget hcarries
  have hlen : e.1.length = d.primaryFace.length + keyLen K := by
    have hbytes : e.1 = d.primaryFace ++ encode key := by
      rw [hkey]
      simp [Document.primaryKey, primaryFace, faceKey, header]
    rw [hbytes, List.length_append, length_encode]
  unfold deriveRow
  rw [if_neg (by omega)]
  dsimp only
  rw [if_neg (by rw [List.length_drop]; omega)]
  exact ⟨_, rfl, rfl⟩

/-- Before the stamp everything is issued, and landed. -/
theorem walks_ended {s₀ : Flaky} (rows : d.RowsWellFormed s₀.store) (chunk : Nat) {p : Progress}
    {s : Flaky} (h : Standing s₀ (sweepOps s₀.store d.sweptFaces) p s) :
    Ended s₀ (d.issued s₀.store) (s₀.faults.scan d.primaryFace = none)
      (walkItems chunk d.deriveRow (scanRangeIter s d.primaryFace (prefixEnd d.primaryFace)) p s) := by
  have hrange : s.store.range d.primaryFace (prefixEnd d.primaryFace)
      = s₀.store.range d.primaryFace (prefixEnd d.primaryFace) := by
    refine h.range_eq fun op hop hin => ?_
    have hlow : op.1 < d.header ++ [0x01] := by
      refine hin.2 _ ?_
      rw [primaryFace_eq]
      exact prefixEnd_concat (by decide)
    exact absurd (lt_trans hlow (fixed_lt_of_sweep hop (by decide))) (lt_irrefl _)
  have hwalk := @walkScan_ended s₀ _ chunk d.deriveRow
    (fun e => putOps (d.rowEntries (d.rowKey e.1) e.2)) p s d.primaryFace
    (prefixEnd d.primaryFace) h (fun e he => deriveRow_ok rows (by rwa [hrange] at he))
  rw [hrange] at hwalk
  exact hwalk

/-- The two phases issue their ops and land them all. -/
theorem rederive_ended (s₀ : Flaky) (rows : d.RowsWellFormed s₀.store) (chunk : Nat) :
    Ended s₀ (d.issued s₀.store) ((∀ f ∈ d.sweptFaces, s₀.faults.scan f = none) ∧
      s₀.faults.scan d.primaryFace = none) (d.rederive chunk s₀) := by
  have hstart : Standing s₀ (sweepOps s₀.store []) {} s₀ :=
    ⟨[], (Flaky.after_nil s₀).symm, rfl, fun i hi => absurd hi (Nat.not_lt_zero i)⟩
  have hsweep := @sweepFaces_ended s₀ chunk (d.header.length + 2) [] d.sweptFaces {} s₀ hstart
    d.length_sweptFaces d.nodup_sweptFaces
  unfold rederive
  refine hsweep.bind (List.prefix_append _ _) fun p s hp hswept => ?_
  refine (commitRest_ended hp).bind (List.prefix_append _ _) fun p s hp _ => ?_
  refine (walks_ended rows chunk hp).bind (List.prefix_refl _) fun p s hp hwalked => ?_
  exact (commitRest_ended hp).imp fun _ => ⟨hswept, hwalked⟩

theorem rederive_empty {chunk : Nat} {p : Progress} {s s' : Flaky}
    (h : d.rederive chunk s = (.ok p, s')) : p.batch.ops = [] := by
  unfold rederive at h
  obtain ⟨_, _, _, h⟩ := run_bind_eq_ok.mp h
  obtain ⟨_, _, _, h⟩ := run_bind_eq_ok.mp h
  obtain ⟨_, _, _, h⟩ := run_bind_eq_ok.mp h
  exact commitRest_empty h

/-- What was landed is read in every key, and the meta row is as it was. -/
theorem get_metaKey_after {s₀ : Flaky} {w : List (List (Op Bytes Bytes))}
    (h : w.flatten <+: d.issued s₀.store) :
    (s₀.after w).store.get d.metaKey = s₀.store.get d.metaKey := by
  rw [Flaky.store_after]
  exact get_applyOps_of_not_mem _ fun op hop => issued_ne_metaKey (h.subset hop)

/-- **How a rebuild ends**, over rows of the table and whatever the faces hold. -/
theorem rebuild_end (s₀ : Flaky) (rows : d.RowsWellFormed s₀.store) (chunk : Nat) :
    RebuildEnd d s₀ (d.rebuildFaces chunk s₀) := by
  have hended := rederive_ended s₀ rows (max chunk 1)
  unfold rebuildFaces
  rw [run_bind]
  cases hrun : d.rederive (max chunk 1) s₀ with
  | mk answer s =>
    rw [hrun] at hended
    cases hended with
    | refused hpre cause => exact .refused hpre cause
    | @stands p _ hstands hscans =>
      obtain ⟨w, rfl, hops, hclean⟩ := hstands
      rw [rederive_empty hrun, List.append_nil] at hops
      -- the faces stand; what is left is to read the table row and stamp it
      have hmeta := @get_metaKey_after _ _ _ d s₀ w (hops ▸ List.prefix_refl _)
      dsimp only
      rw [run_bind]
      have hread : VirtualStorage.get (s₀.after w) (faceKey d.header metaSlot [])
          = (s₀.after w).read d.metaKey := rfl
      unfold stampFaces
      dsimp only
      rw [hread]
      rcases (s₀.after w).read_cases d.metaKey with ⟨hnone, hget⟩ | ⟨e, hfault, hget⟩
      · rw [hget, hmeta]
        dsimp only
        cases hrow : stampedRow d.layoutVersion (s₀.store.get d.metaKey) with
        | error p' => exact .aborted hops hrow
        | ok row =>
          dsimp only
          have hput : VirtualStorage.put (s₀.after w) (faceKey d.header metaSlot [])
              (row.set TableMeta.facesName d.faces).encode
            = (s₀.after w).write (d.metaKey, some (row.set TableMeta.facesName d.faces).encode) := rfl
          rw [hput]
          rcases (s₀.after w).write_cases (d.metaKey, some (row.set TableMeta.facesName d.faces).encode)
            with ⟨hok, hwrite⟩ | ⟨fault, hfault, hwrite⟩
          · rw [hwrite, Flaky.land_after]
            exact .done hops hrow (hclean.concat _ hok) hscans.1 hscans.2 hnone
          · rw [hwrite, Flaky.land_after]
            refine .refused ?_ (faults_ne_of_write hfault)
            simp [hops]
      · rw [hget]
        refine .refused (hops ▸ List.prefix_refl _) fun hnever => ?_
        have hno : s₀.faults.read d.metaKey = some e := hfault
        rw [hnever] at hno
        cases hno

/-! ## What is left behind -/

/-- The stored rows, in key order. -/
def storedRows (d : Declared K R) (m : Keyspace) : List (K × R) :=
  (m.range d.primaryFace (prefixEnd d.primaryFace)).map fun e =>
    (d.rowKey e.1, d.doc.decodePayload e.2)

/-- **The union of the rows' entries.** Where two rows share an entry key, the later row's
value stands. -/
def unionEntries (d : Declared K R) (m : Keyspace) : Reads :=
  written (putOps ((d.storedRows m).flatMap fun row => d.doc.indexEntries row.1 row.2)) fun _ => none

/-- The faces hold the union, and every other key but the meta row what it held. -/
structure Restored (d : Declared K R) (m m' : Keyspace) : Prop where
  faces : ∀ k, d.Live k → m'.get k = d.unionEntries m k
  others : ∀ k, ¬ d.Live k → k ≠ d.metaKey → m'.get k = m.get k

/-- **The condition**: what a sweep's range holds carries the face. -/
def SweepsExact (d : Declared K R) (m : Keyspace) : Prop :=
  ∀ face ∈ d.sweptFaces, ∀ k v, m.get k = some v → face ≤ k → (∀ e ∈ prefixEnd face, k < e) →
    face <+: k

theorem deriveOps_eq (m : Keyspace) : d.deriveOps m
    = putOps ((d.storedRows m).flatMap fun row => d.doc.indexEntries row.1 row.2) := by
  unfold deriveOps storedRows putOps
  rw [List.flatMap_map, List.map_flatMap]
  refine List.flatMap_congr fun e _ => ?_
  rw [rowEntries_eq]


theorem live_of_carries {k : Bytes} {face : Bytes} (hface : face ∈ d.sweptFaces)
    (h : face <+: k) : d.Live k := by
  rw [sweptFaces_eq] at hface
  obtain ⟨s, hs, rfl⟩ := List.mem_map.mp hface
  obtain ⟨suffix, rfl⟩ := h
  refine ⟨s, suffix, d.mem_liveFaces.mp hs, ?_⟩
  rw [faceKey, faceKey, List.append_nil]

/-- Under the condition only live faces are written. -/
theorem live_of_issued {m : Keyspace} (hexact : d.SweepsExact m) {op : Op Bytes Bytes}
    (h : op ∈ d.issued m) : d.Live op.1 := by
  rcases List.mem_append.mp h with h | h
  · obtain ⟨face, hface, v, hget, hlo, hhi, -⟩ := mem_sweepOps.mp h
    exact live_of_carries hface (hexact face hface op.1 v hget hlo hhi)
  · exact live_of_deriveOps h

/-- A stored key in the range of a face is deleted. -/
theorem pending_swept {m : Keyspace} {face k v : Bytes} (hface : face ∈ d.sweptFaces)
    (hget : m.get k = some v) (hlo : face ≤ k) (hhi : ∀ u ∈ prefixEnd face, k < u) :
    pending (sweepOps m d.sweptFaces) k = some none := by
  have hmem : ((k, none) : Op Bytes Bytes) ∈ sweepOps m d.sweptFaces :=
    mem_sweepOps.mpr ⟨face, hface, v, hget, hlo, hhi, rfl⟩
  refine pending_of_mem hmem fun w hw => ?_
  obtain ⟨-, -, -, -, -, -, hnone⟩ := mem_sweepOps.mp hw
  exact hnone

/-- The sweep empties every live face. -/
theorem written_sweep_live {m : Keyspace} {k : Bytes} (h : d.Live k) :
    written (sweepOps m d.sweptFaces) m.get k = none := by
  obtain ⟨s, suffix, hs, rfl⟩ := h
  have hface : faceKey d.header s [] ∈ d.sweptFaces := by
    rw [sweptFaces_eq]
    exact List.mem_map_of_mem (d.mem_liveFaces.mpr hs)
  have hcarries : faceKey d.header s [] <+: faceKey d.header s suffix := by
    refine ⟨suffix, ?_⟩
    rw [faceKey, faceKey, List.append_nil]
  unfold written
  cases hget : m.get (faceKey d.header s suffix) with
  | none =>
    cases hp : pending (sweepOps m d.sweptFaces) (faceKey d.header s suffix) with
    | none => rfl
    | some v =>
      obtain ⟨-, -, -, -, -, -, hnone⟩ := mem_sweepOps.mp (mem_of_pending hp)
      exact hnone
  | some v =>
    rw [pending_swept hface hget (prefix_le hcarries) fun u hu => lt_prefixEnd hu hcarries]
    rfl

/-- **All ops landed**: the faces hold the union. -/
theorem get_issued_live {m : Keyspace} {k : Bytes} (h : d.Live k) :
    (applyOps m (d.issued m)).get k = d.unionEntries m k := by
  have hsweep : written (sweepOps m d.sweptFaces) m.get k = none := written_sweep_live h
  rw [get_applyOps]
  change written (d.issued m) m.get k = _
  unfold issued
  rw [written_append, Function.comp_apply, deriveOps_eq]
  unfold unionEntries
  exact congrArg _ hsweep

/-- A key no run touches. -/
theorem get_landed_other {m : Keyspace} (hexact : d.SweepsExact m) {ops : List (Op Bytes Bytes)}
    (hops : ops <+: d.issued m) {k : Bytes} (h : ¬ d.Live k) : (applyOps m ops).get k = m.get k := by
  refine get_applyOps_of_not_mem _ fun op hop heq => h ?_
  rw [← heq]
  exact live_of_issued hexact (hops.subset hop)

/-- A primary key is of no live face, and not the meta row. -/
theorem primary_apart {k : Bytes} (h : d.primaryFace <+: k) : ¬ d.Live k ∧ k ≠ d.metaKey := by
  obtain ⟨suffix, rfl⟩ := h
  have hkey : d.primaryFace ++ suffix = faceKey d.header primarySlot suffix := by
    rw [primaryFace, faceKey, faceKey, List.append_nil]
  rw [hkey]
  exact ⟨not_live_fixed (by decide) suffix, faceKey_ne_of_slot (by decide) suffix []⟩

/-- Two keyspaces that agree beside the live faces have the same rows to derive from. -/
theorem unionEntries_congr {m m' : Keyspace} (h : ∀ k, ¬ d.Live k → k ≠ d.metaKey →
    m'.get k = m.get k) : d.unionEntries m' = d.unionEntries m := by
  have hrange : m'.range d.primaryFace (prefixEnd d.primaryFace)
      = m.range d.primaryFace (prefixEnd d.primaryFace) := by
    refine SortedMap.eq_of_mem_iff (m'.range_sorted _ _) (m.range_sorted _ _) fun e => ?_
    rw [mem_primary_range, mem_primary_range]
    refine and_congr_left fun hcarries => ?_
    obtain ⟨hlive, hmeta⟩ := primary_apart hcarries
    rw [h e.1 hlive hmeta]
  unfold unionEntries storedRows
  rw [hrange]

theorem RowsWellFormed.congr {m m' : Keyspace} (rows : d.RowsWellFormed m)
    (h : ∀ k, ¬ d.Live k → k ≠ d.metaKey → m'.get k = m.get k) : d.RowsWellFormed m' := by
  intro k v hget hcarries
  obtain ⟨hlive, hmeta⟩ := primary_apart hcarries
  rw [h k hlive hmeta] at hget
  exact rows k v hget hcarries

/-- A key between a face and its bound is not the meta row. -/
theorem sweep_ne_metaKey {face k : Bytes} (hface : face ∈ d.sweptFaces) (hlo : face ≤ k) :
    k ≠ d.metaKey := by
  rw [sweptFaces_eq] at hface
  obtain ⟨s, hs, rfl⟩ := List.mem_map.mp hface
  rw [metaKey_eq]
  exact ne_of_gt (lt_of_lt_of_le (d.fixed_lt_face hs (le_refl _)) hlo)

/-- A key that is swept without carrying the face is shorter than it: of no live face. -/
theorem not_live_of_stray {face k : Bytes} (hface : face ∈ d.sweptFaces) (hlo : face ≤ k)
    (hhi : ∀ e ∈ prefixEnd face, k < e) (hstray : ¬ face <+: k) : ¬ d.Live k := by
  intro hlive
  obtain ⟨s, suffix, hs, rfl⟩ := hlive
  have hlen : face.length ≤ (faceKey d.header s suffix).length := by
    have hother := (d.liveFace_bytes (d.mem_liveFaces.mpr hs)).1
    have hbytes : faceKey d.header s suffix = faceKey d.header s [] ++ suffix := by
      rw [faceKey, faceKey, List.append_nil]
    rw [hbytes, hother, d.length_sweptFaces face hface]
    simp only [List.length_append, List.length_cons, List.length_nil]
    omega
  exact hstray (prefix_of_lt_prefixEnd hlo hhi hlen)

theorem SweepsExact.congr {m m' : Keyspace} (hexact : d.SweepsExact m)
    (h : ∀ k, ¬ d.Live k → k ≠ d.metaKey → m'.get k = m.get k) : d.SweepsExact m' := by
  intro face hface k v hget hlo hhi
  by_contra hstray
  rw [h k (not_live_of_stray hface hlo hhi hstray) (sweep_ne_metaKey hface hlo)] at hget
  exact hstray (hexact face hface k v hget hlo hhi)

/-- The state a run that is done leaves. -/
theorem restored_of_done {s₀ : Flaky} (hexact : d.SweepsExact s₀.store)
    {w : List (List (Op Bytes Bytes))} (landed : w.flatten = d.issued s₀.store) (stamp : Bytes) :
    d.Restored s₀.store (s₀.after (w ++ [[(d.metaKey, some stamp)]])).store := by
  have hstore : ∀ k, k ≠ d.metaKey → (s₀.after (w ++ [[(d.metaKey, some stamp)]])).store.get k
      = (applyOps s₀.store (d.issued s₀.store)).get k := by
    intro k hk
    rw [Flaky.store_after, List.flatten_append, applyOps_append, landed]
    exact get_applyOps_of_not_mem _ (by simpa using Ne.symm hk)
  constructor
  · intro k hlive
    have hne : k ≠ d.metaKey := by
      intro heq
      rw [heq] at hlive
      exact not_live_fixed (s := metaSlot) (by decide) [] hlive
    rw [hstore k hne]
    exact get_issued_live hlive
  · intro k hlive hne
    rw [hstore k hne]
    exact get_landed_other hexact (List.prefix_refl _) hlive

/-- **What a rebuild promises**, from a state with any faults planned. Done: the faces are
restored, the stamp is the one write behind them, and nothing was refused on the way.
Refused or aborted: the meta row and every key beside the live faces are untouched, and a
later run that is done restores the faces of the rows that are there. It is done when
nothing is refused and the meta row can be read. -/
structure RebuildSound (d : Declared K R) (chunk : Nat) (s : Flaky) : Prop where
  restored : ∀ report s', d.rebuildFaces chunk s = (.ok report, s') →
    d.Restored s.store s'.store
  stamped : ∀ report s', d.rebuildFaces chunk s = (.ok report, s') → ∃ row w,
    stampedRow d.layoutVersion (s.store.get d.metaKey) = .ok row ∧
    s' = s.after (w ++ [[(d.metaKey, some (row.set TableMeta.facesName d.faces).encode)]]) ∧
    ∀ op ∈ w.flatten, d.Live op.1
  unfailing : ∀ report s', d.rebuildFaces chunk s = (.ok report, s') →
    (∀ i, s.log.length ≤ i → i < s'.log.length → s.faults.write i = none) ∧
    (∀ f ∈ d.sweptFaces, s.faults.scan f = none) ∧ s.faults.scan d.primaryFace = none ∧
    s.faults.read d.metaKey = none
  refused : ∀ f s', d.rebuildFaces chunk s = (.error f, s') →
    s'.store.get d.metaKey = s.store.get d.metaKey ∧
    ∀ k, ¬ d.Live k → s'.store.get k = s.store.get k
  rerun : ∀ f s', d.rebuildFaces chunk s = (.error f, s') → ∀ chunk' (t : Flaky) report t',
    t.store = s'.store → d.rebuildFaces chunk' t = (.ok report, t') →
    d.Restored s.store t'.store
  answers : s.faults = Faults.never →
    ∀ row, stampedRow d.layoutVersion (s.store.get d.metaKey) = .ok row →
    ∃ report s', d.rebuildFaces chunk s = (.ok report, s')

/-- Over rows of the table, with every sweep exact, the promise is kept. -/
theorem rebuild_sound {s₀ : Flaky} (rows : d.RowsWellFormed s₀.store)
    (hexact : d.SweepsExact s₀.store) (chunk : Nat) : RebuildSound d chunk s₀ := by
  have hdone : ∀ (s : Flaky) chunk report s', d.RowsWellFormed s.store → d.SweepsExact s.store →
      d.rebuildFaces chunk s = (.ok report, s') → d.Restored s.store s'.store := by
    intro s chunk report s' rows hexact hrun
    have hend := rebuild_end s rows chunk
    rw [hrun] at hend
    cases hend with
    | done landed => exact restored_of_done hexact landed _
  have hcut : ∀ f s', d.rebuildFaces chunk s₀ = (.error f, s') →
      s'.store.get d.metaKey = s₀.store.get d.metaKey ∧
      ∀ k, ¬ d.Live k → s'.store.get k = s₀.store.get k := by
    intro f s' hrun
    have hend := rebuild_end s₀ rows chunk
    rw [hrun] at hend
    have hpart : ∃ w : List (List (Op Bytes Bytes)), s' = s₀.after w ∧
        w.flatten <+: d.issued s₀.store := by
      cases hend with
      | refused landed => exact ⟨_, rfl, landed⟩
      | aborted landed => exact ⟨_, rfl, landed ▸ List.prefix_refl _⟩
    obtain ⟨w, rfl, hpre⟩ := hpart
    refine ⟨get_metaKey_after hpre, fun k hlive => ?_⟩
    rw [Flaky.store_after]
    exact get_landed_other hexact hpre hlive
  refine ⟨fun report s' hrun => hdone s₀ chunk report s' rows hexact hrun, ?_, ?_, hcut, ?_, ?_⟩
  · intro report s' hrun
    have hend := rebuild_end s₀ rows chunk
    rw [hrun] at hend
    cases hend with
    | done landed found =>
      exact ⟨_, _, found, rfl, fun op hop => live_of_issued hexact (landed ▸ hop)⟩
  · intro report s' hrun
    have hend := rebuild_end s₀ rows chunk
    rw [hrun] at hend
    cases hend with
    | done landed found clean swept walked read =>
      refine ⟨fun i hlo hhi => ?_, swept, walked, read⟩
      rw [Flaky.after, List.length_append] at hhi
      have hnone := clean (i - s₀.log.length) (by omega)
      rwa [Nat.add_sub_cancel' hlo] at hnone
  · intro f s' hrun chunk' t report t' hstore hagain
    -- what the cut run left differs from the start in live faces only
    obtain ⟨-, hother⟩ := hcut f s' hrun
    have hagree : ∀ k, ¬ d.Live k → k ≠ d.metaKey → t.store.get k = s₀.store.get k := by
      intro k hlive _
      rw [hstore]
      exact hother k hlive
    have hrestored := hdone t chunk' report t' (rows.congr hagree) (hexact.congr hagree) hagain
    constructor
    · intro k hlive
      rw [hrestored.faces k hlive, unionEntries_congr hagree]
    · intro k hlive hne
      rw [hrestored.others k hlive hne, hagree k hlive hne]
  · intro hnever row hrow
    have hend := rebuild_end s₀ rows chunk
    cases hrun : d.rebuildFaces chunk s₀ with
    | mk answer s' =>
      rw [hrun] at hend
      cases hend with
      | refused _ cause => exact absurd hnever cause
      | aborted _ unreadable =>
        rw [hrow] at unreadable
        cases unreadable
      | done => exact ⟨_, _, rfl⟩

/-- The way back: a sound rebuild from a store with no fault planned sweeps nothing else. -/
theorem sweepsExact_of_sound {m : Keyspace} (rows : d.RowsWellFormed m) {chunk : Nat}
    (h : RebuildSound d chunk ⟨m, [], Faults.never⟩) : d.SweepsExact m := by
  intro face hface k v hget hlo hhi
  by_contra hstray
  have hlive := not_live_of_stray hface hlo hhi hstray
  have hne := sweep_ne_metaKey hface hlo
  -- the stray key is deleted, and nothing puts it back
  have hgone : ∀ stamp : List (Op Bytes Bytes), (∀ op ∈ stamp, op.1 = d.metaKey) →
      (applyOps (applyOps m (d.issued m)) stamp).get k = none := by
    intro stamp hstamp
    have hapart : ∀ op ∈ stamp, op.1 ≠ k := fun op hop heq => hne (heq ▸ hstamp op hop)
    rw [get_applyOps_of_not_mem _ hapart, get_applyOps]
    change written (d.issued m) m.get k = none
    unfold issued
    have hderived : ∀ op ∈ d.deriveOps m, op.1 ≠ k := fun op hop heq =>
      hlive (heq ▸ live_of_deriveOps hop)
    rw [written_append, Function.comp_apply, written_of_not_mem hderived]
    unfold written
    rw [pending_swept hface hget hlo hhi, Option.getD_some]
  have hend := rebuild_end ⟨m, [], Faults.never⟩ rows chunk
  cases hrun : d.rebuildFaces chunk (⟨m, [], Faults.never⟩ : Flaky) with
  | mk answer s' =>
    rw [hrun] at hend
    cases hend with
    | refused _ cause => exact absurd rfl cause
    | @aborted p w landed =>
      have hsame := (h.refused _ _ hrun).2 k hlive
      rw [Flaky.store_after, landed, ← applyOps_nil (applyOps _ _)] at hsame
      have hnone := hgone [] (by simp)
      exact absurd (hnone.symm.trans (hsame.trans hget)) (by simp)
    | @done report row w landed =>
      have hsame := (h.restored _ _ hrun).others k hlive hne
      rw [Flaky.store_after, List.flatten_append, applyOps_append, landed] at hsame
      have hnone := hgone [(d.metaKey, some (row.set TableMeta.facesName d.faces).encode)]
        (by simp)
      exact absurd (hnone.symm.trans (hsame.trans hget)) (by simp)

theorem mem_storedRows {m : Keyspace} (rows : d.RowsWellFormed m) {key : K} {row : R} :
    (key, row) ∈ d.storedRows m ↔
      ∃ raw, m.get (d.doc.primaryKey key) = some raw ∧ row = d.doc.decodePayload raw := by
  have hprimary : ∀ key : K, d.doc.primaryKey key = d.primaryFace ++ encode key := by
    intro key
    rw [Document.primaryKey, primaryFace, faceKey, faceKey, List.append_nil]
    rfl
  have hkey : ∀ key : K, d.rowKey (d.doc.primaryKey key) = key := by
    intro key
    unfold rowKey
    rw [hprimary, List.drop_left]
    dsimp only
    rw [length_encode, Nat.sub_self, List.drop_zero, decode_encode]
  unfold storedRows
  rw [List.mem_map]
  constructor
  · intro h
    obtain ⟨e, he, heq⟩ := h
    obtain ⟨hget, hcarries⟩ := mem_primary_range.mp he
    obtain ⟨key', hkey'⟩ := rows e.1 e.2 hget hcarries
    obtain ⟨hk, hr⟩ := Prod.mk.inj heq
    rw [hkey', hkey] at hk
    subst hk
    exact ⟨e.2, hkey' ▸ hget, hr.symm⟩
  · intro h
    obtain ⟨raw, hget, rfl⟩ := h
    refine ⟨(d.doc.primaryKey key, raw), mem_primary_range.mpr ⟨hget, ?_⟩, ?_⟩
    · dsimp only
      rw [hprimary]
      exact List.prefix_append _ _
    · dsimp only
      rw [hkey]

/-- What the union holds is an entry of a row, and each entry has its key in it, with its
own value where the rows agree on that key. -/
theorem unionEntries_spec (m : Keyspace) :
    (∀ k v, d.unionEntries m k = some v →
      ∃ row ∈ d.storedRows m, (k, v) ∈ d.doc.indexEntries row.1 row.2) ∧
    ∀ row ∈ d.storedRows m, ∀ e ∈ d.doc.indexEntries row.1 row.2,
      ∃ v, d.unionEntries m e.1 = some v ∧
        ((∀ row' ∈ d.storedRows m, ∀ w, (e.1, w) ∈ d.doc.indexEntries row'.1 row'.2 → w = e.2) →
          v = e.2) := by
  constructor
  · intro k v h
    unfold unionEntries written at h
    rcases pending_putOps_cases ((d.storedRows m).flatMap fun row =>
      d.doc.indexEntries row.1 row.2) k with ⟨-, hnone⟩ | ⟨w, hmem, hsome⟩
    · rw [hnone] at h
      cases h
    · rw [hsome] at h
      obtain rfl := Option.some.inj h
      exact List.mem_flatMap.mp hmem
  · intro row hrow e he
    unfold unionEntries written
    rcases pending_putOps_cases ((d.storedRows m).flatMap fun row =>
      d.doc.indexEntries row.1 row.2) e.1 with ⟨hno, -⟩ | ⟨w, hmem, hsome⟩
    · exact absurd (List.mem_map_of_mem (List.mem_flatMap.mpr ⟨row, hrow, he⟩)) hno
    · rw [hsome]
      refine ⟨w, rfl, fun hagree => ?_⟩
      obtain ⟨row', hrow', hentry⟩ := List.mem_flatMap.mp hmem
      exact hagree row' hrow' w hentry

/-- **When a rebuild restores the faces.** Over rows of the table and for every chunk, from
every state with any faults planned: the promise is kept if and only if no key between a
live face and its bound is stored without carrying the face. The faces then hold the
entries of the stored rows, neither more nor less. -/
theorem rebuild_restores (d : Declared K R) (m : Keyspace) (rows : d.RowsWellFormed m)
    (chunk : Nat) :
    ((∀ s : Flaky, s.store = m → RebuildSound d chunk s) ↔ d.SweepsExact m) ∧
    (∀ key row, (key, row) ∈ d.storedRows m ↔
      ∃ raw, m.get (d.doc.primaryKey key) = some raw ∧ row = d.doc.decodePayload raw) ∧
    (∀ k v, d.unionEntries m k = some v →
      ∃ row ∈ d.storedRows m, (k, v) ∈ d.doc.indexEntries row.1 row.2) ∧
    ∀ row ∈ d.storedRows m, ∀ e ∈ d.doc.indexEntries row.1 row.2,
      ∃ v, d.unionEntries m e.1 = some v ∧
        ((∀ row' ∈ d.storedRows m, ∀ w, (e.1, w) ∈ d.doc.indexEntries row'.1 row'.2 → w = e.2) →
          v = e.2) := by
  refine ⟨⟨fun h => sweepsExact_of_sound rows (h _ rfl), fun hexact s hs => ?_⟩,
    fun key row => mem_storedRows rows, unionEntries_spec m⟩
  subst hs
  exact rebuild_sound rows hexact chunk

/-- With no slot ending in `0xFF` every sweep is exact. -/
theorem sweepsExact_of_slots (h : ∀ s ∈ d.liveFaces, UInt8.ofNat s.val ≠ 0xFF) (m : Keyspace) :
    d.SweepsExact m := by
  intro face hface k v _ hlo hhi
  rw [sweptFaces_eq] at hface
  obtain ⟨s, hs, rfl⟩ := List.mem_map.mp hface
  refine prefix_of_lt_prefixEnd hlo hhi ?_
  have hsplit : faceKey d.header s [] = (d.header ++ [UInt8.ofNat (s.val / 256)])
      ++ [UInt8.ofNat s.val] := by
    rw [(d.liveFace_bytes hs).1]
    simp
  rw [hsplit] at hlo hhi ⊢
  exact length_le_of_lt_concat (h s hs) hlo hhi

end Declared

/-! ## A slot behind which the bound carries -/

/-- The index the 255th declaration allocates. -/
def lateIndex : KvIndex UInt8 Bytes := { textIndex with slot := slot Segment.index 0xFF (by decide) }

/-- Text rows under that index alone. -/
def lateDoc : Document UInt8 Bytes :=
  { textDoc with
    indexes := [lateIndex]
    indexSlots := by
      intro i hi
      obtain rfl := List.mem_singleton.mp hi
      rfl
    indexesNodup := List.nodup_singleton _ }

/-- Its declarations: 254 that are deprecated, and the one that is live. -/
def lateDecls : List IndexDecl :=
  ((List.range 254).map fun n => ⟨"old", UInt16.ofNat (0x3001 + n), ["text"], [], "", true⟩)
    ++ [⟨"by_text", 0x30FF, ["text"], [], "", false⟩]

def late : Declared UInt8 Bytes where
  doc := lateDoc
  layoutVersion := 1
  indexDecls := lateDecls
  liveSlots := by decide +kernel

/-- One key that no face owns: the header and a single byte. -/
def strayStore : Keyspace := SortedMap.ofList [([0, 7, 0x31], [])]

/-- The key once more as a segment. -/
def keyLead : LeadFace UInt8 where
  slot := slot Segment.lead 1 (by decide)
  keyPrefixWidth := 1
  keyPrefixBytes k := [k]
  keyPrefix_le := oneByte_le
  length_keyPrefix := length_oneByte
  segment k := [k]

/-- A text index and a lead face, each the first of its family. -/
def early : Declared UInt8 Bytes where
  doc :=
    { textDoc with
      leads := [keyLead]
      leadSlots := by
        intro l hl
        obtain rfl := List.mem_singleton.mp hl
        rfl
      leadsNodup := List.nodup_singleton _ }
  layoutVersion := 1
  indexDecls := [⟨"by_text", 0x3001, ["text"], [], "", false⟩,
    ⟨"by_key", 0x5001, ["key"], [], "", false⟩]
  liveSlots := rfl

/-- Three rows of which none has a lead entry and the last no text entry, and an entry that no row
has. -/
def disordered : Keyspace :=
  (threeRows.erase [0, 7, 0x30, 0x01, 98, 3]).insert [0, 7, 0x30, 0x01, 99, 9] []

theorem disordered_wellFormed : early.RowsWellFormed disordered := by
  intro k v hget hcarries
  unfold disordered at hget
  rw [SortedMap.get_insert_of_ne _ _ (by rintro rfl; exact absurd hcarries (by decide)),
    SortedMap.get_erase_of_ne _ (by rintro rfl; exact absurd hcarries (by decide))] at hget
  rcases threeRows_get hget with (heq | heq | heq) | (heq | heq | heq) | heq
  all_goals obtain ⟨rfl, -⟩ := Prod.mk.inj heq
  · exact ⟨1, rfl⟩
  · exact ⟨2, rfl⟩
  · exact ⟨3, rfl⟩
  all_goals exact absurd hcarries (by decide)

/-- The second write is cut off behind its first op. -/
def tornSecond : Faults where
  write i := if i = 1 then some (1, .engine "full") else none
  scan _ := none
  read _ := none

/-- The missing entries are written and the one without a row is gone; where the second commit is
torn the first row has no entry yet, and the promise of a later run is kept. -/
theorem rebuild_restores_disordered :
    early.RebuildSound 2 ⟨disordered, [], Faults.never⟩ ∧
    early.RebuildSound 2 ⟨disordered, [], tornSecond⟩ ∧
    (early.rebuildFaces 2 (⟨disordered, [], Faults.never⟩ : Flaky)).2.store.entries.filter
        (fun e => decide (e.1 ≠ early.metaKey)) = threeRows.entries
          ++ [([0, 7, 0x50, 0x01, 1, 1], []), ([0, 7, 0x50, 0x01, 2, 2], []),
            ([0, 7, 0x50, 0x01, 3, 3], [])] ∧
    (early.rebuildFaces 2 (⟨disordered, [], tornSecond⟩ : Flaky)).1
      = .error (.refused (.engine "full")) ∧
    (early.rebuildFaces 2 (⟨disordered, [], tornSecond⟩ : Flaky)).2.store.get
      [0, 7, 0x30, 0x01, 97, 1] = none := by
  have hslots : ∀ s ∈ early.liveFaces, UInt8.ofNat s.val ≠ 0xFF := by decide
  have hsound := (Declared.rebuild_restores early disordered disordered_wellFormed 2).1.mpr
    (Declared.sweepsExact_of_slots hslots disordered)
  exact ⟨hsound _ rfl, hsound _ rfl, by decide +kernel, by decide +kernel, by decide +kernel⟩

theorem strayStore_get {k v : Bytes} (h : strayStore.get k = some v) : k = [0, 7, 0x31] := by
  have hentries : strayStore.entries = [([0, 7, 0x31], [])] := by decide
  rw [SortedMap.get_eq_some_iff, hentries] at h
  exact (Prod.mk.inj (List.mem_singleton.mp h)).1

/-- The bound of the 255th index carries, and the sweep deletes a key that is not of its
face. -/
theorem rebuild_deletes_stray :
    late.RowsWellFormed strayStore ∧ ¬ late.Live [0, 7, 0x31] ∧
    strayStore.get [0, 7, 0x31] = some [] ∧
    (late.rebuildFaces 1 (⟨strayStore, [], Faults.never⟩ : Flaky)).2.store.get [0, 7, 0x31] = none ∧
    ¬ late.RebuildSound 1 ⟨strayStore, [], Faults.never⟩ := by
  have hrows : late.RowsWellFormed strayStore := by
    intro k v hget hcarries
    rw [strayStore_get hget] at hcarries
    exact absurd hcarries (by decide)
  have hface : ([0, 7, 0x30, 0xFF] : Bytes) ∈ late.sweptFaces := by
    rw [Declared.sweptFaces_eq]
    decide
  have hstray : ¬ ([0, 7, 0x30, 0xFF] : Bytes) <+: [0, 7, 0x31] := by decide
  have hget : strayStore.get [0, 7, 0x31] = some [] := by decide
  have hend : prefixEnd [0, 7, 0x30, 0xFF] = some [0, 7, 0x31, 0x00] := by decide
  have hhi : ∀ e ∈ prefixEnd [0, 7, 0x30, 0xFF], ([0, 7, 0x31] : Bytes) < e := by
    rw [hend]
    decide
  refine ⟨hrows, Declared.not_live_of_stray hface (by decide) hhi hstray, hget, by decide +kernel,
    fun hsound => ?_⟩
  exact hstray (Declared.sweepsExact_of_sound hrows hsound _ hface _ _ hget (by decide) hhi)

end Okm.Model
