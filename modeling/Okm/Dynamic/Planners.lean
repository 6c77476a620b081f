import Okm.Dynamic.MirrorLaws
import Okm.Model.SideWrites

/-!
# Planners over one table

Any number of callers plan segments of one table, each over its own mirror; the operations of
a plan land in the store as they are, and every other caller adopts the plan's receipt. The
mirrors stay what the store would load, so nobody has to load it again, and a segment reads
the same through each of them (`planners_agree`).

A refused plan is the exception: what it claimed stays in its mirror and no operation carries
it. The planner loads before it plans again. If it does not, the next segment with such a
name cannot be read by anybody who loads (`refused_plan_loses`).
-/

namespace Okm.Dynamic

open Lib Model VirtualStorage

/-- The store, the callers' mirrors, and the fields each key was last given. -/
structure Fleet where
  store : Keyspace
  mirrors : Nat → VocabMirror
  said : Bytes → ValueMap

/-- One event: a caller's plan lands or is refused, a segment is removed, a caller loads, or
something is written outside the three faces. -/
inductive FieldsEvent where
  | put (planner : Nat) (pkey : Bytes) (fields : ValueMap)
  | remove (pkey : Bytes)
  | load (planner : Nat)
  | elsewhere (ops : List (Op Bytes Bytes))

/-- The faces a segment's plan writes. -/
def segmentFaces : List Slot := [dynamicSlot, fieldVocabIdSlot, fieldVocabNameSlot]

namespace Fleet

/-- A caller plans a segment; the others adopt the receipt. -/
def put (ns : Bytes) (st : Fleet) (planner : Nat) (pkey : Bytes) (fields : ValueMap) : Fleet :=
  match planPutFields ns pkey fields (st.mirrors planner) with
  | (.error _, mirror) => { st with mirrors := Function.update st.mirrors planner mirror }
  | (.ok plan, mirror) => {
      store := applyOps st.store plan.ops
      mirrors := Function.update (fun j => (st.mirrors j).adopt plan.newVocabEntries) planner mirror
      said := Function.update st.said pkey fields }

def load (ns : Bytes) (st : Fleet) (planner : Nat) : Fleet :=
  match VocabMirror.load st.store ns with
  | .error _ => st
  | .ok mirror => { st with mirrors := Function.update st.mirrors planner mirror }

def step (ns : Bytes) (st : Fleet) : FieldsEvent → Fleet
  | .put planner pkey fields => st.put ns planner pkey fields
  | .remove pkey => { st with
      store := applyOps st.store (planDeleteFields ns pkey).ops
      said := Function.update st.said pkey SortedMap.empty }
  | .load planner => st.load ns planner
  | .elsewhere ops => { st with store := applyOps st.store ops }

/-- **The condition on an event**: a planner has no unpublished names, and writes elsewhere
stay elsewhere. -/
def Orderly (ns : Bytes) (st : Fleet) : FieldsEvent → Prop
  | .put planner _ _ => (st.mirrors planner).written = []
  | .elsewhere ops => ∀ op ∈ ops, ∀ s ∈ segmentFaces, ∀ suffix, op.1 ≠ faceKey ns s suffix
  | _ => True

/-- The runs whose every event is orderly. -/
inductive Runs (ns : Bytes) (st : Fleet) : Fleet → Prop where
  | refl : Runs ns st st
  | step {st' : Fleet} (run : Runs ns st st') (ev : FieldsEvent) (orderly : Orderly ns st' ev) :
      Runs ns st (st'.step ns ev)

/-- Nothing stored yet, every mirror new. -/
structure Init (ns : Bytes) (st : Fleet) : Prop where
  faces : ∀ s ∈ segmentFaces, ∀ suffix, st.store.get (faceKey ns s suffix) = none
  mirrors : ∀ j, st.mirrors j = {}
  said : ∀ pkey, st.said pkey = SortedMap.empty

/-- What a caller reads of a segment. -/
def read (ns : Bytes) (st : Fleet) (planner : Nat) (pkey : Bytes) : ValueMap :=
  ((st.store.get (fieldsKey ns pkey)).map fun raw =>
    fieldsFromFrames raw (st.mirrors planner)).getD SortedMap.empty

end Fleet

/-! ## The invariant -/

variable {ns : Bytes}

/-- The entry of a segment: its frames, over these labels. -/
def Holds (ns : Bytes) (read : Bytes → Option Bytes) (labels : List String) (pkey : Bytes)
    (fields : ValueMap) : Prop :=
  ∃ body, Framed labels fields body ∧
    read (fieldsKey ns pkey) = if body = [] then none else some body

/-- The store's faces denote a list of labels, a mirror with nothing unpublished reflects it,
and every segment is framed over it. -/
structure FleetInv (ns : Bytes) (st : Fleet) (labels : List String) : Prop where
  vocab : Encodes .u16 fieldVocab ns st.store.get labels
  mirrors : ∀ j, (st.mirrors j).written = [] → Reflects (st.mirrors j) labels []
  segments : ∀ pkey, Holds ns st.store.get labels pkey (st.said pkey)

theorem adopt_written (d : VocabMirror) (entries : List (String × Nat)) :
    (d.adopt entries).written = d.written := by
  induction entries generalizing d with
  | nil => rfl
  | cons e entries ih => exact ih _

theorem framed_empty (labels : List String) : Framed labels SortedMap.empty [] :=
  fun _ _ => rfl

/-- A claim moves the end of the mirror only. -/
theorem keeps_resolveGrowing (labels : List String) (name : String) :
    Keeps (fun g g' : Growth => ∀ more, Reflects g.mirror labels more →
      ∃ more', Reflects g'.mirror labels (more ++ more')) (resolveGrowing ns name) := by
  intro g more href
  unfold resolveGrowing
  cases hname : g.mirror.byName.get name with
  | some i => exact ⟨[], by rw [List.append_nil]; exact href⟩
  | none =>
    dsimp only
    unfold claimId
    by_cases hroom : g.mirror.nextId + 1 < 2 ^ 16
    · rw [if_pos hroom]
      exact ⟨[name], href.claim hname hroom⟩
    · rw [if_neg hroom]
      exact ⟨[], by rw [List.append_nil]; exact href⟩

/-- **A plan, answered or refused, leaves the labels and what it claimed.** -/
theorem planPutFields_reflects {pkey : Bytes} {fields : ValueMap} {d : VocabMirror}
    {labels : List String} (href : Reflects d labels []) {e : Error} {d' : VocabMirror}
    (h : planPutFields ns pkey fields d = (.error e, d')) : ∃ more, Reflects d' labels more := by
  obtain ⟨g, hframes, rfl⟩ := planPutFields_eq_error h
  have hkeeps := keeps_putFramesNamed
    (P := fun g g' : Growth => ∀ more, Reflects g.mirror labels more →
      ∃ more', Reflects g'.mirror labels (more ++ more'))
    (fun g more h => ⟨[], by rw [List.append_nil]; exact h⟩)
    (fun a b c hab hbc more h => by
      obtain ⟨more₁, h₁⟩ := hab more h
      obtain ⟨more₂, h₂⟩ := hbc _ h₁
      exact ⟨more₁ ++ more₂, by rw [← List.append_assoc]; exact h₂⟩)
    (@keeps_resolveGrowing ns labels) (dynFields fields) ⟨d, []⟩ [] href
  rw [hframes] at hkeeps
  obtain ⟨more, hmore⟩ := hkeeps
  exact ⟨more, hmore⟩

theorem Holds.grows {read : Bytes → Option Bytes} {labels labels' : List String} {pkey : Bytes}
    {fields : ValueMap} (h : Holds ns read labels pkey fields) (hgrows : GrowsTo labels labels') :
    Holds ns read labels' pkey fields := by
  obtain ⟨body, hframed, hentry⟩ := h
  exact ⟨body, hframed.grows hgrows, hentry⟩

theorem fieldsKey_ne_face {s : Slot} (hs : dynamicSlot ≠ s) (pkey suffix : Bytes) :
    fieldsKey ns pkey ≠ faceKey ns s suffix := faceKey_ne_of_slot hs pkey suffix

theorem fieldsKey_ne {a b : Bytes} (h : a ≠ b) : fieldsKey ns a ≠ fieldsKey ns b :=
  faceKey_ne_of_suffix h

theorem vocab_faces (labels : List String) (more : List String) {op : Op Bytes Bytes}
    (h : op ∈ growthOps ns labels more) :
    ∃ s ∈ [fieldVocabIdSlot, fieldVocabNameSlot], ∃ suffix, op.1 = faceKey ns s suffix := by
  rcases List.mem_append.mp h with h | h
  · obtain ⟨e, -, hop⟩ := List.mem_flatMap.mp h
    rcases List.mem_pair.mp hop with rfl | rfl
    · exact ⟨fieldVocabIdSlot, by simp, _, rfl⟩
    · exact ⟨fieldVocabNameSlot, by simp, _, rfl⟩
  · split at h
    · cases h
    · rw [List.mem_singleton] at h
      exact ⟨fieldVocabIdSlot, by simp, [], by rw [h]; rfl⟩

/-- No label operation leaves the two faces. -/
theorem pending_growthOps_off (labels more : List String) {s : Slot}
    (hs : s ∉ [fieldVocabIdSlot, fieldVocabNameSlot]) (suffix : Bytes) :
    pending (growthOps ns labels more) (faceKey ns s suffix) = none := by
  cases hp : pending (growthOps ns labels more) (faceKey ns s suffix) with
  | none => rfl
  | some v =>
    obtain ⟨s', hs', suffix', heq⟩ := vocab_faces labels more (mem_of_pending hp)
    have hslot := ((faceKey_inj ns s s' suffix suffix').mp heq).1
    exact absurd (hslot ▸ hs') hs

theorem pending_growthOps_fields (labels more : List String) (pkey : Bytes) :
    pending (growthOps ns labels more) (fieldsKey ns pkey) = none :=
  pending_growthOps_off labels more (by decide) pkey

/-- What a plan's operations leave: the labels grown, the one segment written. -/
theorem planned_store {store : Keyspace} {labels more : List String} {pkey : Bytes}
    {entry : Option Bytes} (h : Encodes .u16 fieldVocab ns store.get labels)
    (hnodup : (labels ++ more).Nodup) (hfits : (labels ++ more).length < 2 ^ 16) :
    Encodes .u16 fieldVocab ns
        (applyOps store (growthOps ns labels more ++ [(fieldsKey ns pkey, entry)])).get
        (labels ++ more) ∧
      ∀ other, (applyOps store (growthOps ns labels more ++ [(fieldsKey ns pkey, entry)])).get
          (fieldsKey ns other)
        = if other = pkey then entry else store.get (fieldsKey ns other) := by
  have hread : ∀ k, (applyOps store
      (growthOps ns labels more ++ [(fieldsKey ns pkey, entry)])).get k
        = if fieldsKey ns pkey = k then entry
          else (pending (growthOps ns labels more) k).getD (store.get k) := by
    intro k
    rw [get_applyOps, readThrough, pending_concat]
    split <;> rfl
  refine ⟨(encodes_growth h hnodup hfits).congr (fun suffix => ?_) (fun suffix => ?_),
    fun other => ?_⟩
  · rw [hread, if_neg (fieldsKey_ne_face (by decide) _ _)]
  · rw [hread, if_neg (fieldsKey_ne_face (by decide) _ _)]
  · rw [hread, pending_growthOps_fields, Option.getD_none]
    by_cases heq : other = pkey
    · rw [if_pos heq, if_pos (by rw [heq])]
    · rw [if_neg heq, if_neg (fieldsKey_ne (Ne.symm heq))]

theorem fleetInv_init {st : Fleet} (h : st.Init ns) : FleetInv ns st [] where
  vocab := encodes_empty (h.faces _ (by simp [segmentFaces]; exact Or.inr (Or.inl rfl)))
    (h.faces _ (by simp [segmentFaces]; exact Or.inr (Or.inr rfl)))
  mirrors j _ := by
    rw [h.mirrors j]
    exact Reflects.empty
  segments pkey := by
    rw [h.said pkey]
    exact ⟨[], framed_empty [], h.faces dynamicSlot (by simp [segmentFaces]) pkey⟩

theorem fleetInv_put {st : Fleet} {labels : List String} (inv : FleetInv ns st labels)
    {planner : Nat} {pkey : Bytes} {fields : ValueMap} (hsynced : (st.mirrors planner).written = []) :
    ∃ more, FleetInv ns (st.put ns planner pkey fields) (labels ++ more) := by
  have href := inv.mirrors planner hsynced
  unfold Fleet.put
  cases hplan : planPutFields ns pkey fields (st.mirrors planner) with
  | mk answer mirror =>
    cases answer with
    | error e =>
      obtain ⟨more, hmirror⟩ := planPutFields_reflects href hplan
      refine ⟨[], ?_⟩
      rw [List.append_nil]
      refine ⟨inv.vocab, fun j hj => ?_, inv.segments⟩
      dsimp only at hj ⊢
      by_cases heq : j = planner
      · subst heq
        rw [Function.update_self] at hj ⊢
        -- with nothing unpublished the mirror is still that of the labels
        have hnone := hmirror.written.symm.trans hj
        rw [List.zipIdx_eq_nil_iff] at hnone
        rwa [hnone] at hmirror
      · rw [Function.update_of_ne heq] at hj ⊢
        exact inv.mirrors j hj
    | ok plan =>
      obtain ⟨more, body, hmirror, hframed, hreceipt, hops⟩ := planPutFields_synced href hplan
      have hnodup : (labels ++ more).Nodup := by simpa using hmirror.nodup
      have hfits : (labels ++ more).length < 2 ^ 16 := by simpa using hmirror.fits
      have hgrows : GrowsTo labels (labels ++ more) := ⟨List.prefix_append _ _, fun _ => hnodup⟩
      obtain ⟨hvocab, hsegments⟩ := @planned_store ns st.store labels more pkey
        (if body = [] then none else some body) inv.vocab hnodup hfits
      refine ⟨more, ?_, fun j hj => ?_, fun other => ?_⟩
      · dsimp only
        rw [hops]
        exact hvocab
      · dsimp only at hj ⊢
        by_cases heq : j = planner
        · subst heq
          rw [Function.update_self]
          exact hmirror
        · rw [Function.update_of_ne heq] at hj ⊢
          rw [adopt_written] at hj
          rw [hreceipt]
          exact (inv.mirrors j hj).adopt hnodup hfits
      · dsimp only
        rw [hops]
        by_cases heq : other = pkey
        · subst heq
          rw [Function.update_self]
          exact ⟨body, hframed, by rw [hsegments, if_pos rfl]⟩
        · rw [Function.update_of_ne heq]
          obtain ⟨body', hframed', hentry⟩ := (inv.segments other).grows hgrows
          exact ⟨body', hframed', by rw [hsegments, if_neg heq, hentry]⟩

theorem fleetInv_step {st : Fleet} {labels : List String} (inv : FleetInv ns st labels)
    (ev : FieldsEvent) (orderly : st.Orderly ns ev) :
    ∃ more, FleetInv ns (st.step ns ev) (labels ++ more) := by
  cases ev with
  | put planner pkey fields => exact fleetInv_put inv orderly
  | remove pkey =>
    refine ⟨[], ?_⟩
    rw [List.append_nil]
    -- a removal deletes one segment
    have hread : ∀ k, (applyOps st.store (planDeleteFields ns pkey).ops).get k
        = if k = fieldsKey ns pkey then none else st.store.get k := fun k =>
      get_applyOp st.store (fieldsKey ns pkey, none) k
    refine ⟨inv.vocab.congr (fun suffix => ?_) fun suffix => ?_, inv.mirrors, fun other => ?_⟩
    · exact (hread _).trans (if_neg (Ne.symm (fieldsKey_ne_face (by decide) _ _)))
    · exact (hread _).trans (if_neg (Ne.symm (fieldsKey_ne_face (by decide) _ _)))
    · simp only [Fleet.step]
      by_cases heq : other = pkey
      · subst heq
        rw [Function.update_self]
        exact ⟨[], framed_empty labels, by rw [hread, if_pos rfl, if_pos rfl]⟩
      · rw [Function.update_of_ne heq]
        obtain ⟨body, hframed, hentry⟩ := inv.segments other
        exact ⟨body, hframed, by rw [hread, if_neg (fieldsKey_ne heq), hentry]⟩
  | load planner =>
    refine ⟨[], ?_⟩
    rw [List.append_nil]
    -- a load reads the vocabulary as it is
    obtain ⟨d, hload, href⟩ := load_spec inv.vocab
    simp only [Fleet.step, Fleet.load, hload]
    refine ⟨inv.vocab, fun j hj => ?_, inv.segments⟩
    dsimp only at hj ⊢
    by_cases heq : j = planner
    · subst heq
      rw [Function.update_self]
      exact href
    · rw [Function.update_of_ne heq] at hj ⊢
      exact inv.mirrors j hj
  | elsewhere ops =>
    refine ⟨[], ?_⟩
    rw [List.append_nil]
    -- operations elsewhere miss the faces of the segments
    have hread : ∀ s ∈ segmentFaces, ∀ suffix, (applyOps st.store ops).get (faceKey ns s suffix)
        = st.store.get (faceKey ns s suffix) := fun s hs suffix =>
      get_applyOps_of_not_mem st.store fun op hop => orderly op hop s hs suffix
    refine ⟨inv.vocab.congr (fun suffix => ?_) fun suffix => ?_, inv.mirrors, fun pkey => ?_⟩
    · exact hread _ (by decide) suffix
    · exact hread _ (by decide) suffix
    · obtain ⟨body, hframed, hentry⟩ := inv.segments pkey
      exact ⟨body, hframed, (hread _ (by decide) pkey).trans hentry⟩

theorem fleetInv_run {st st' : Fleet} {labels : List String} (inv : FleetInv ns st labels)
    (run : st.Runs ns st') : ∃ more, FleetInv ns st' (labels ++ more) := by
  induction run with
  | refl => exact ⟨[], by rwa [List.append_nil]⟩
  | step run ev orderly ih =>
    obtain ⟨more, inv'⟩ := ih
    obtain ⟨more', inv''⟩ := fleetInv_step inv' ev orderly
    exact ⟨more ++ more', by rwa [← List.append_assoc]⟩

/-! ## What the callers see -/

/-- Only the map of no fields has no frames. -/
theorem framed_nil_iff {labels : List String} {fields : ValueMap} {body : Bytes}
    (hnodup : labels.Nodup) (hfits : labels.length < 2 ^ 16) (h : Framed labels fields body) :
    body = [] ↔ fields.entries = [] := by
  have hframes := h labels (GrowsTo.refl labels)
  unfold dynFields at hframes
  cases hfields : fields.entries with
  | nil =>
    rw [hfields] at hframes
    exact ⟨fun _ => rfl, fun _ => (Except.ok.inj hframes).symm⟩
  | cons first rest =>
    rw [hfields, List.map_cons, putFramesNamed] at hframes
    obtain ⟨frame, hframe, hframes⟩ := bind_eq_ok.mp hframes
    obtain ⟨frames, -, hframes⟩ := bind_eq_ok.mp hframes
    have happend := Except.ok.inj hframes
    refine ⟨fun hbody => ?_, fun hnil => (List.cons_ne_nil _ _ hnil).elim⟩
    rw [hbody] at happend
    have hnil : frame = [] := (List.append_eq_nil_iff.mp happend).1
    obtain ⟨id, ty, body', -, -, heq⟩ :=
      @putFrameNamed_eq_ok (NameIds.ofLabels labels hnodup hfits) _ _ _ hframe
    rw [hnil] at heq
    exact absurd (List.append_eq_nil_iff.mp heq.symm).1 (idBytes_ne_nil id)

/-- **A segment reads as what was last said of it**, through any mirror of the labels. -/
theorem Holds.read_eq {store : Keyspace} {labels : List String} {pkey : Bytes} {fields : ValueMap}
    {d : VocabMirror} (h : Holds ns store.get labels pkey fields) (href : Reflects d labels [])
    (hwf : ∀ e ∈ fields.entries, e.2.Wf)
    (hsize : ∀ raw ∈ store.get (fieldsKey ns pkey), raw.length < 2 ^ 49) (name : String) :
    (((store.get (fieldsKey ns pkey)).map fun raw => fieldsFromFrames raw d).getD
      SortedMap.empty).get name = (fields.get name).map kept := by
  obtain ⟨body, hframed, hentry⟩ := h
  have hnil := framed_nil_iff (by simpa using href.nodup) (by simpa using href.fits) hframed
  by_cases hbody : body = []
  · have hnone : fields.get name = none := by
      refine (fields.get_eq_none_iff name).mpr fun v hv => ?_
      rw [hnil.mp hbody] at hv
      cases hv
    rw [hentry, if_pos hbody, hnone]
    rfl
  · rw [hentry, if_neg hbody] at hsize ⊢
    exact get_fieldsFromFrames href hframed hwf (hsize body rfl) name

/-- **Planners agree**: in every state of an orderly run a mirror with nothing unpublished is
the one the store would load; a segment, read through it, has the fields it was last given,
as a segment keeps them; and the faces of the vocabulary are inverse to each other. -/
theorem planners_agree {st₀ st : Fleet} (init : st₀.Init ns) (run : st₀.Runs ns st) :
    SoundVocab .u16 fieldVocab ns st.store.get ∧
    ∀ planner, (st.mirrors planner).written = [] →
      VocabMirror.load st.store ns = .ok (st.mirrors planner) ∧
      ∀ pkey, (∀ e ∈ (st.said pkey).entries, e.2.Wf) →
        (∀ raw ∈ st.store.get (fieldsKey ns pkey), raw.length < 2 ^ 49) →
        ∀ name, (st.read ns planner pkey).get name = ((st.said pkey).get name).map kept := by
  obtain ⟨labels, inv⟩ := fleetInv_run (fleetInv_init init) run
  refine ⟨inv.vocab.sound, fun planner hsynced => ⟨?_, fun pkey hwf hsize name => ?_⟩⟩
  · obtain ⟨d, hload, href⟩ := load_spec inv.vocab
    rw [hload, href.unique (inv.mirrors planner hsynced)]
  · exact (inv.segments pkey).read_eq (inv.mirrors planner hsynced) hwf hsize name

def Fleet.new : Fleet := ⟨SortedMap.empty, fun _ => {}, fun _ => SortedMap.empty⟩

theorem Fleet.init_new (ns : Bytes) : Fleet.new.Init ns := ⟨fun _ _ _ => rfl, fun _ => rfl, fun _ => rfl⟩

/-- Caller 0 writes a field, then caller 1, which adopted the receipt, that field and another. -/
def twoPlans : Fleet :=
  (Fleet.new.step [7] (.put 0 [1] (SortedMap.empty.insert "note" (.str "hi")))).step [7]
    (.put 1 [2] ((SortedMap.empty.insert "note" .null).insert "rank" (.u8 3)))

theorem twoPlans_run : Fleet.new.Runs [7] twoPlans := by
  refine .step (.step .refl _ ?_) _ ?_
  · rfl
  · change _ = _
    decide +kernel

/-- Caller 1 has what the store would load, and reads through it what either caller wrote. -/
theorem planners_agree_twoPlans :
    VocabMirror.load twoPlans.store [7] = .ok (twoPlans.mirrors 1) ∧
    (twoPlans.read [7] 1 [1]).get "note" = some (kept (.str "hi")) ∧
    (twoPlans.read [7] 1 [2]).get "note" = some (kept .null) ∧
    (twoPlans.read [7] 1 [2]).get "rank" = some (kept (.u8 3)) := by
  obtain ⟨hload, hread⟩ :=
    (planners_agree (Fleet.init_new [7]) twoPlans_run).2 1 (by decide +kernel)
  have hsize : ∀ pkey ∈ ([[1], [2]] : List Bytes),
      ∀ raw ∈ twoPlans.store.get (fieldsKey [7] pkey), raw.length < 2 ^ 49 := by
    decide +kernel
  have hwf : (∀ e ∈ (twoPlans.said [1]).entries, e.2.Wf) ∧
      ∀ e ∈ (twoPlans.said [2]).entries, e.2.Wf := by
    have hsaid : (twoPlans.said [1]).entries = [("note", .str "hi")] ∧
        (twoPlans.said [2]).entries = [("note", .null), ("rank", .u8 3)] := ⟨rfl, rfl⟩
    rw [hsaid.1, hsaid.2]
    simp [Value.Wf, valueToDynValue, DynamicValue.Wf]
  have hfirst := hread [1] hwf.1 (hsize [1] (by decide))
  have hsecond := hread [2] hwf.2 (hsize [2] (by decide))
  exact ⟨hload, (hfirst "note").trans rfl, (hsecond "note").trans rfl, (hsecond "rank").trans rfl⟩

/-! ## After a refusal -/

/-- A store can be loaded, whatever is in it. -/
theorem load_keyspace (store : Keyspace) (ns : Bytes) :
    ∃ d, VocabMirror.load store ns = .ok d ∧ d.byId = loadedNames ns store := by
  have hslots : fieldVocabIdSlot.val ≤ 0x0F ∧ fieldVocabNameSlot.val ≤ 0x0F := by decide
  have hcursor : VirtualStorage.get store (VocabCache.cursorKey fieldVocab ns)
      = .ok (store.get (VocabCache.cursorKey fieldVocab ns)) := rfl
  unfold VocabMirror.load
  rw [scanSuffixKv_face hslots.1, scanSuffixKv_face hslots.2, hcursor]
  simp only [bind, Except.bind]
  rw [foldl_enterName, foldl_enterId]
  cases (store.get (VocabCache.cursorKey fieldVocab ns)).bind VocabId.u16.fromBe with
  | none => exact ⟨_, rfl, rfl⟩
  | some cursor => exact ⟨_, rfl, rfl⟩

/-- A name no entry of the id face spells has no id in the loaded mirror. -/
theorem loadedNames_ne {store : Keyspace} {name : String}
    (h : ∀ suffix, suffix ≠ [] →
      store.get (faceKey ns fieldVocabIdSlot suffix) ≠ some (strBytes name)) (id : Nat) :
    (loadedNames ns store).get id ≠ some name := by
  intro hget
  rcases SortedMap.mem_of_get_enterAll hget with hempty | ⟨e, he, hpair⟩
  · cases hempty
  · unfold idPair at hpair
    obtain ⟨id', hid, hpair⟩ := Option.bind_eq_some_iff.mp hpair
    obtain ⟨name', hname, hpair⟩ := Option.map_eq_some_iff.mp hpair
    obtain ⟨rfl, rfl⟩ := Prod.mk.inj hpair
    refine h e.1 (fun hnil => ?_) ?_
    · rw [hnil] at hid
      cases hid
    · rw [strBytes_of_strOfBytes hname]
      exact mem_under_face.mp he

/-- **A refused plan loses its names**: what it claimed stays in its mirror, and no later
operation of that planner carries it. A segment written with such a name afterwards has its
frame, but whoever loads the store reads the segment without the field. -/
theorem refused_plan_loses {store : Keyspace} {labels : List String}
    (vocab : Encodes .u16 fieldVocab ns store.get labels) {d d' d'' : VocabMirror}
    (loaded : VocabMirror.load store ns = .ok d) {pkey pkey' : Bytes} {fields fields' : ValueMap}
    {e : Error} {plan : PlannedFields} (refused : planPutFields ns pkey fields d = (.error e, d'))
    (again : planPutFields ns pkey' fields' d' = (.ok plan, d'')) {name : String}
    (claimed : (d'.byName.get name).isSome) (fresh : d.byName.get name = none) :
    ∃ later, VocabMirror.load (applyOps store plan.ops) ns = .ok later ∧
      ∀ raw, (fieldsFromFrames raw later).get name = none := by
  obtain ⟨d₀, hload, href⟩ := load_spec vocab
  obtain rfl := Except.ok.inj (hload.symm.trans loaded)
  obtain ⟨before, href'⟩ := planPutFields_reflects href refused
  obtain ⟨more, body, href'', -, -, hops⟩ := planPutFields_eq_ok href' again
  -- the name is one of those claimed by the refused plan
  have hnew : name ∉ labels := by
    rw [href.names, List.append_nil, List.idxOf?_eq_none_iff] at fresh
    exact fresh
  have hbefore : name ∈ before := by
    rw [href'.names, List.isSome_idxOf?] at claimed
    exact (List.mem_append.mp claimed).resolve_left hnew
  have hmore : name ∉ more := by
    have hnodup := href''.nodup
    rw [List.append_nil] at hnodup
    have hback := (List.nodup_append.mp (List.nodup_append.mp hnodup).2.1).2.2
    exact fun hmem => hback name hbefore name hmem rfl
  -- so no entry of the id face spells it
  have hface : ∀ suffix, suffix ≠ [] → (applyOps store plan.ops).get
      (faceKey ns fieldVocabIdSlot suffix) ≠ some (strBytes name) := by
    intro suffix hsuffix hget
    rw [get_applyOps, readThrough] at hget
    cases hpending : pending plan.ops (faceKey ns fieldVocabIdSlot suffix) with
    | some v =>
      rw [hpending, Option.getD_some] at hget
      subst hget
      have hmem := mem_of_pending hpending
      rw [hops] at hmem
      rcases List.mem_append.mp hmem with hmem | hmem
      · rcases List.mem_append.mp hmem with hmem | hmem
        · obtain ⟨entry, hentry, hop⟩ := List.mem_flatMap.mp hmem
          rcases List.mem_pair.mp hop with heq | heq
          · have hbytes := Option.some.inj (Prod.mk.inj heq).2
            have hname := strBytes_injective hbytes
            have hin := List.fst_mem_of_mem_zipIdx hentry
            rw [← hname] at hin
            exact hmore hin
          · exact faceKey_ne_of_slot fieldVocab.distinct _ _ (Prod.mk.inj heq).1
        · split at hmem
          · cases hmem
          · have heq := (Prod.mk.inj (List.mem_singleton.mp hmem)).1
            exact hsuffix ((faceKey_inj ns fieldVocabIdSlot _ suffix []).mp heq).2
      · have heq := (Prod.mk.inj (List.mem_singleton.mp hmem)).1
        exact fieldsKey_ne_face (by decide) _ _ heq.symm
    | none =>
      rw [hpending, Option.getD_none, show fieldVocabIdSlot = fieldVocab.idSlot from rfl,
        vocab.ids suffix hsuffix] at hget
      obtain ⟨id, -, hlabel⟩ := Option.bind_eq_some_iff.mp hget
      obtain ⟨label, hlabel, hbytes⟩ := Option.map_eq_some_iff.mp hlabel
      rw [strBytes_injective hbytes] at hlabel
      exact hnew (List.mem_of_getElem? hlabel)
  obtain ⟨later, hlater, hids⟩ := load_keyspace (applyOps store plan.ops) ns
  refine ⟨later, hlater, fun raw => ?_⟩
  cases hread : (fieldsFromFrames raw later).get name with
  | none => rfl
  | some v =>
    rw [fieldsFromFrames_eq] at hread
    rcases SortedMap.mem_of_get_enterAll hread with hempty | ⟨f, -, hpair⟩
    · cases hempty
    · unfold framePair VocabMirror.nameFor at hpair
      obtain ⟨name', hname, hpair⟩ := Option.map_eq_some_iff.mp hpair
      obtain ⟨rfl, -⟩ := Prod.mk.inj hpair
      rw [hids] at hname
      exact absurd hname (loadedNames_ne hface _)

/-! ## A vocabulary with room for one more name -/

/-- Names told apart by their length. -/
def manyNames (n : Nat) : List String := (List.range n).map fun i => String.ofList (List.replicate i 'a')

theorem length_manyNames (n : Nat) : (manyNames n).length = n := by simp [manyNames]

theorem nodup_manyNames (n : Nat) : (manyNames n).Nodup := by
  refine List.Nodup.map (fun i j heq => ?_) List.nodup_range
  have hlen := congrArg String.length heq
  simpa using hlen

/-- A store that holds them. -/
def manyStore (n : Nat) : Keyspace := applyOps SortedMap.empty (growthOps [7] [] (manyNames n))

theorem encodes_manyStore {n : Nat} (h : n < 2 ^ 16) :
    Encodes .u16 fieldVocab [7] (manyStore n).get (manyNames n) := by
  have hempty : Encodes .u16 fieldVocab [7] (SortedMap.empty : Keyspace).get [] :=
    encodes_empty (fun _ => rfl) fun _ => rfl
  have hgrown := @encodes_growth [7] _ [] (manyNames n) hempty
    (by rw [List.nil_append]; exact nodup_manyNames n)
    (by rw [List.nil_append, length_manyNames]; exact h)
  rw [List.nil_append] at hgrown
  have hread : (manyStore n).get = fun k =>
      (pending (growthOps [7] [] (manyNames n)) k).getD ((SortedMap.empty : Keyspace).get k) :=
    funext fun k => get_applyOps _ _ k
  rw [hread]
  exact hgrown

theorem not_mem_manyNames {n : Nat} {name : String} (h : 'a' ∉ name.toList) (hne : name ≠ "") :
    name ∉ manyNames n := by
  intro hmem
  obtain ⟨i, -, rfl⟩ := List.mem_map.mp hmem
  cases i with
  | zero => exact hne rfl
  | succ i => simp at h

/-- Fields "x" and "y" where only one more name fits, then field "x" alone. -/
theorem refused_plan_loses_full : ∃ (d d' d'' later : VocabMirror) (e : Error) (plan : PlannedFields),
    VocabMirror.load (manyStore 65534) [7] = .ok d ∧
    planPutFields [7] [1] ((SortedMap.empty.insert "x" .null).insert "y" .null) d = (.error e, d') ∧
    planPutFields [7] [1] (SortedMap.empty.insert "x" .null) d' = (.ok plan, d'') ∧
    VocabMirror.load (applyOps (manyStore 65534) plan.ops) [7] = .ok later ∧
    ∀ raw, (fieldsFromFrames raw later).get "x" = none := by
  have vocab := @encodes_manyStore 65534 (by omega)
  obtain ⟨d, hload, href⟩ := load_spec vocab
  have hnext := href.next
  rw [List.append_nil, length_manyNames] at hnext
  have hx : d.byName.get "x" = none := by
    rw [href.names, List.append_nil]
    exact List.idxOf?_eq_none_iff.mpr (not_mem_manyNames (by decide) (by decide))
  have hy : d.byName.get "y" = none := by
    rw [href.names, List.append_nil]
    exact List.idxOf?_eq_none_iff.mpr (not_mem_manyNames (by decide) (by decide))
  -- the last free id goes to `x`, and `y` finds none
  have hclaim : ∀ ops, resolveGrowing [7] "x" ⟨d, ops⟩
      = (.ok 65534, ⟨d.claimed "x" 65534 65535, ops ++ nameOps [7] ("x", 65534)⟩) := by
    intro ops
    unfold resolveGrowing
    rw [hx, hnext]
    rfl
  have hrefuse : ∀ ops, resolveGrowing [7] "y" ⟨d.claimed "x" 65534 65535, ops⟩
      = (.error exhausted, ⟨d.claimed "x" 65534 65535, ops⟩) := by
    intro ops
    unfold resolveGrowing
    rw [VocabMirror.claimed, SortedMap.get_insert_of_ne _ _ (by decide), hy]
    rfl
  have hfound : ∀ ops, resolveGrowing [7] "x" ⟨d.claimed "x" 65534 65535, ops⟩
      = (.ok 65534, ⟨d.claimed "x" 65534 65535, ops⟩) := by
    intro ops
    unfold resolveGrowing
    rw [VocabMirror.claimed, SortedMap.get_insert_self]
    rfl
  have hrefused : planPutFields [7] [1] ((SortedMap.empty.insert "x" .null).insert "y" .null) d
      = (.error exhausted, d.claimed "x" 65534 65535) := by
    have hframes : putFramesNamed (resolveGrowing [7])
        (dynFields ((SortedMap.empty.insert "x" .null).insert "y" .null)) ⟨d, []⟩
        = (.error exhausted, ⟨d.claimed "x" 65534 65535, nameOps [7] ("x", 65534)⟩) := by
      change (putFramesNamed (resolveGrowing [7]) [("x", .null), ("y", .null)]) ⟨d, []⟩ = _
      rw [putFramesNamed, putFramesNamed, putFrameNamed, putFrameNamed]
      simp only [run_bind, hclaim, hrefuse, encodeValue, run_pure, List.nil_append]
    unfold planPutFields
    rw [hframes]
  -- the refused mirror has `x` already and writes no name for it
  have hagain : ∃ plan, planPutFields [7] [1] (SortedMap.empty.insert "x" .null)
      (d.claimed "x" 65534 65535) = (.ok plan, { d.claimed "x" 65534 65535 with written := [] }) := by
    have hframes : putFramesNamed (resolveGrowing [7])
        (dynFields (SortedMap.empty.insert "x" .null)) ⟨d.claimed "x" 65534 65535, []⟩
        = (.ok (idBytes 65534 ++ typedBytes .null [] ++ []), ⟨d.claimed "x" 65534 65535, []⟩) := by
      change (putFramesNamed (resolveGrowing [7]) [("x", .null)]) _ = _
      rw [putFramesNamed, putFramesNamed, putFrameNamed]
      simp only [run_bind, hfound, encodeValue, run_pure]
    unfold planPutFields
    rw [hframes]
    exact ⟨_, rfl⟩
  obtain ⟨plan, hplan⟩ := hagain
  obtain ⟨later, hlater, hlost⟩ := refused_plan_loses vocab hload hrefused hplan
    (by rw [VocabMirror.claimed, SortedMap.get_insert_self]; rfl) hx
  exact ⟨d, _, _, later, _, plan, hload, hrefused, hplan, hlater, hlost⟩

end Okm.Dynamic
