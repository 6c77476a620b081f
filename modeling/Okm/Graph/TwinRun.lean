import Okm.Graph.Twin

/-!
# Runs of both forms

Linking an edge under an id without one enters the same row, the same faces and the same
segment on both sides; unlinking drops the same row and faces, and on the dynamic side the
segment as well. So every step is answered or refused by both, and keeps them in step.
-/

namespace Okm.Model

open Lib VirtualStorage Engine

variable {b : BareDecl} {p p' : Pair} {rows : UInt64 → Option (EdgeRow Unit)}
  {labels names : List String} {id : UInt64}

/-! ## What both forms write -/

/-- Writes to the row and the faces of an edge. -/
def edgeOps (b : BareDecl) (row : EdgeRow Unit) (id : UInt64) (stored entered : Option Bytes) :
    List (Op Bytes Bytes) :=
  [(b.declared.primaryKey id, stored)]
    ++ EdgeFace.all.map fun face =>
      (b.declared.edgeFaceKey row.head.src row.head.dst row.predicate id face, entered)

theorem mem_edgeOps {row : EdgeRow Unit} {stored entered : Option Bytes} {op : Op Bytes Bytes}
    (h : op ∈ edgeOps b row id stored entered) :
    ∃ s sfx, s ≠ dynamicSlot ∧ b.declared.EdgeSlot s ∧ op.1 = faceKey b.declared.ns s sfx := by
  rcases List.mem_append.mp h with hop | hop
  · obtain rfl := List.mem_singleton.mp hop
    exact ⟨primarySlot, _, dynamic_ne_primary.symm, Or.inl rfl, rfl⟩
  · obtain ⟨face, -, rfl⟩ := List.mem_map.mp hop
    exact ⟨face.slot, _, face.dynamic_ne_slot.symm, Or.inr (Or.inr (Or.inl ⟨face, rfl⟩)), rfl⟩

/-- They spare the segments. -/
theorem pending_edgeOps (b : BareDecl) (row : EdgeRow Unit) (id : UInt64)
    (stored entered : Option Bytes) (other : UInt64) :
    pending (edgeOps b row id stored entered) (b.declared.dynamicKey other) = none := by
  refine pending_eq_none fun op hop => ?_
  obtain ⟨s, sfx, hne, -, hkey⟩ := mem_edgeOps hop
  rw [hkey]
  exact faceKey_ne_of_slot hne _ _

theorem dynamicKey_inj {other : UInt64} (h : b.declared.dynamicKey id = b.declared.dynamicKey other) :
    id = other := idBe_inj ((faceKey_inj _ _ _ _ _).mp h).2

theorem pending_segmentPut {wire k : Bytes} (hk : k ≠ b.declared.dynamicKey id) :
    pending (segmentPut b id wire) k = none := by
  unfold segmentPut
  by_cases hwire : wire = []
  · rw [if_pos hwire]
    rfl
  · rw [if_neg hwire, pending_singleton, if_neg hk.symm]

/-- The batch of the declared link. -/
def declaredLink (b : BareDecl) (row : EdgeRow Unit) (id : UInt64) (wire : Bytes) :
    List (Op Bytes Bytes) :=
  b.declared.writeOps (b.declared.body row) () id ++ [(b.declared.dynamicKey id, none)]
    ++ segmentPut b id wire

theorem writeOps_eq (row : EdgeRow Unit) :
    b.declared.writeOps (b.declared.body row) () id
      = [(b.declared.dynamicKey id, none)]
        ++ edgeOps b row id (some (b.declared.body row).encode) (some []) := by
  have hentries : b.declared.indexEntries id () = [] := rfl
  rw [GraphEncode.writeOps, hentries, edgeOps, putOps, List.map_nil, List.append_nil]
  rfl

theorem dynamicLink_eq (b : BareDecl) (edge : DynEdge) (found : Nat) (id : UInt64) (wire : Bytes) :
    ∃ before after, edgeOps b ⟨edge.head, found, ()⟩ id
        (some (b.declared.body ⟨edge.head, found, ()⟩).encode) (some []) = before ++ after ∧
      b.dynamic.writeOps edge found wire id = before ++ segmentPut b id wire ++ after :=
  ⟨_, _, rfl, rfl⟩

/-- Both links write the same, and differ in nothing but how they clear the segment. -/
theorem pending_links {edge : DynEdge} {found : Nat} {wire k : Bytes}
    (hk : k ≠ b.declared.dynamicKey id) :
    pending (declaredLink b ⟨edge.head, found, ()⟩ id wire) k
      = pending (b.dynamic.writeOps edge found wire id) k := by
  obtain ⟨before, after, hedge, hdynamic⟩ := dynamicLink_eq b edge found id wire
  have hclear : pending ([(b.declared.dynamicKey id, none)] : List (Op Bytes Bytes)) k = none := by
    rw [pending_singleton, if_neg hk.symm]
  rw [declaredLink, writeOps_eq, hedge, hdynamic]
  simp only [pending_append, pending_segmentPut hk, hclear, Option.none_or, Option.or_none]

/-- Where nothing was stored, both leave the segment alike. -/
theorem written_links_segment {edge : DynEdge} {found : Nat} {wire : Bytes} {f f' : Reads}
    (hquiet : f' (b.declared.dynamicKey id) = none) :
    written (declaredLink b ⟨edge.head, found, ()⟩ id wire) f (b.declared.dynamicKey id)
      = written (b.dynamic.writeOps edge found wire id) f' (b.declared.dynamicKey id) := by
  obtain ⟨before, after, hedge, hdynamic⟩ := dynamicLink_eq b edge found id wire
  have hspare := pending_edgeOps b ⟨edge.head, found, ()⟩ id
    (some (b.declared.body ⟨edge.head, found, ()⟩).encode) (some []) id
  rw [hedge, pending_append, Option.or_eq_none_iff] at hspare
  have hdyn : pending (b.dynamic.writeOps edge found wire id) (b.declared.dynamicKey id)
      = pending (segmentPut b id wire) (b.declared.dynamicKey id) := by
    rw [hdynamic, pending_append, pending_append, hspare.1, hspare.2, Option.none_or,
      Option.or_none]
  have hdecl : written (declaredLink b ⟨edge.head, found, ()⟩ id wire) f (b.declared.dynamicKey id)
      = (pending (segmentPut b id wire) (b.declared.dynamicKey id)).getD none := by
    rw [declaredLink, written_append, Function.comp_apply, written, written_append,
      Function.comp_apply, written, pending_singleton, if_pos rfl]
    rfl
  rw [hdecl, written, hdyn, hquiet]

/-- The batch of the dynamic unlink. -/
theorem dynamicLeave_eq (b : BareDecl) (row : EdgeRow Unit) (id : UInt64) :
    ∃ before after, edgeOps b row id none none = before ++ after ∧
      b.dynamic.unlinkOps row.head.src row.head.dst row.predicate id
        = before ++ [(b.declared.dynamicKey id, none)] ++ after :=
  ⟨[_], _, rfl, rfl⟩

theorem unlinkOps_eq (row : EdgeRow Unit) :
    b.declared.unlinkOps (b.declared.body row) () id = edgeOps b row id none none := by
  have hkeys : b.declared.declaredKeys id () = [] := rfl
  rw [GraphEncode.unlinkOps, hkeys, edgeOps, delOps, List.map_nil, List.append_nil]
  rfl

theorem pending_leaves {row : EdgeRow Unit} {k : Bytes} (hk : k ≠ b.declared.dynamicKey id) :
    pending (b.declared.unlinkOps (b.declared.body row) () id) k
      = pending (b.dynamic.unlinkOps row.head.src row.head.dst row.predicate id) k := by
  obtain ⟨before, after, hedge, hdynamic⟩ := dynamicLeave_eq b row id
  have hclear : pending ([(b.declared.dynamicKey id, none)] : List (Op Bytes Bytes)) k = none := by
    rw [pending_singleton, if_neg hk.symm]
  rw [unlinkOps_eq, hedge, hdynamic]
  simp only [pending_append, hclear, Option.none_or]

/-- The dynamic unlink drops the segment. -/
theorem written_leave_segment (row : EdgeRow Unit) (f : Reads) :
    written (b.dynamic.unlinkOps row.head.src row.head.dst row.predicate id) f
      (b.declared.dynamicKey id) = none := by
  obtain ⟨before, after, hedge, hdynamic⟩ := dynamicLeave_eq b row id
  have hspare := pending_edgeOps b row id none none id
  rw [hedge, pending_append, Option.or_eq_none_iff] at hspare
  rw [written, hdynamic, pending_append, pending_append, hspare.1, Option.none_or,
    pending_singleton, if_pos rfl]
  rfl

/-! ## Committing on both sides -/

/-- The state a commit leaves. -/
def dynCommitted (batch : Batch) (d : DynGraph Keyspace) : DynGraph Keyspace :=
  ⟨applyOps d.store batch.ops, d.predicates, d.fields⟩

theorem dynCommit_eq (verb : String) (batch : Batch) (d : DynGraph Keyspace) :
    DynSchema.dynCommit verb batch d = (.ok (), dynCommitted batch d) := rfl

theorem get_dynCommitted (batch : Batch) (d : DynGraph Keyspace) :
    (dynCommitted batch d).store.get = written batch.ops d.store.get :=
  funext fun k => get_applyOps d.store batch.ops k

/-- Both handles after a commit on either side. -/
def bothCommitted (p : Pair) (ops ops' : List (Op Bytes Bytes)) : Pair :=
  ⟨committed ⟨ops⟩ p.declared, dynCommitted ⟨ops'⟩ p.dynamic⟩

/-- **Two batches keep the forms in step** when they write alike beside the segment of one
id, leave that segment alike where the id has an edge, and empty the dynamic one where it
has none. -/
theorem Twins.commit (h : Twins b p rows labels names) {ops ops' : List (Op Bytes Bytes)}
    {row : Option (EdgeRow Unit)}
    (honly : OnlyUnder b.declared.ns b.declared.EdgeSlot p.declared.store.get
      (written ops p.declared.store.get))
    (honly' : OnlyUnder b.declared.ns b.declared.EdgeSlot p.dynamic.store.get
      (written ops' p.dynamic.store.get))
    (hedges : EdgesInv b.declared (written ops p.declared.store.get) (Function.update rows id row))
    (hrow : ∀ r ∈ row, RowOk b.declared labels id r)
    (hbeside : ∀ k, k ≠ b.declared.dynamicKey id → pending ops k = pending ops' k)
    (hlive : row ≠ none → written ops p.declared.store.get (b.declared.dynamicKey id)
      = written ops' p.dynamic.store.get (b.declared.dynamicKey id))
    (hdead : row = none → written ops' p.dynamic.store.get (b.declared.dynamicKey id) = none)
    (hspare : ∀ other, other ≠ id → pending ops' (b.declared.dynamicKey other) = none) :
    Twins b (bothCommitted p ops ops') (Function.update rows id row) labels names := by
  have hget : (bothCommitted p ops ops').declared.store.get = written ops p.declared.store.get :=
    get_committed ⟨ops⟩ p.declared
  have hget' : (bothCommitted p ops ops').dynamic.store.get = written ops' p.dynamic.store.get :=
    get_dynCommitted ⟨ops'⟩ p.dynamic
  have hpredicate : ∀ s, predicateVocab.Slots s → ¬ b.declared.EdgeSlot s := fun s hs =>
    b.declared.not_edgeSlot_vocab (Or.inl hs)
  have hfield : ∀ s, fieldVocab.Slots s → ¬ b.declared.EdgeSlot s := fun s hs =>
    b.declared.not_edgeSlot_vocab (Or.inr hs)
  refine
    { declared := ?_, dynamic := ?_, declaredNames := ?_, dynamicNames := ?_, edges := ?_,
      rowsOk := ?_, agree := ?_, quiet := ?_ }
  · -- the vocabularies lie beside the edges
    rw [hget]
    exact h.declared.frame honly hpredicate
  · rw [hget']
    exact h.dynamic.frame honly' hpredicate
  · rw [hget]
    exact h.declaredNames.congr (fun sfx => honly.at_slot (hfield _ (Or.inl rfl)) sfx)
      (fun sfx => honly.at_slot (hfield _ (Or.inr rfl)) sfx)
  · rw [hget']
    exact h.dynamicNames.frame honly' hfield
  · rw [hget]
    exact hedges
  · intro other r hr
    by_cases heq : other = id
    · subst heq
      rw [Function.update_self] at hr
      exact hrow r hr
    · rw [Function.update_of_ne heq] at hr
      exact h.rowsOk other r hr
  · -- the two stores agree off the segments of dead edges
    rw [hget, hget']
    intro k hk
    by_cases heq : k = b.declared.dynamicKey id
    · rw [heq]
      refine hlive fun hnone => hk id ?_ heq
      rw [Function.update_self, hnone]
    · rw [written, written, hbeside k heq, h.agree (settled_update hk heq)]
  · intro other hnone
    rw [hget']
    by_cases heq : other = id
    · subst heq
      rw [Function.update_self] at hnone
      exact hdead hnone
    · rw [Function.update_of_ne heq] at hnone
      rw [written, hspare other heq]
      exact h.quiet other hnone

theorem onlyUnder_edgeOps (b : BareDecl) (row : EdgeRow Unit) (id : UInt64)
    (stored entered : Option Bytes) {ops : List (Op Bytes Bytes)} (f : Reads)
    (h : ∀ op ∈ ops, op ∈ edgeOps b row id stored entered ∨ op.1 = b.declared.dynamicKey id) :
    OnlyUnder b.declared.ns b.declared.EdgeSlot f (written ops f) := by
  refine onlyUnder_of_keys (fun op hop => ?_) f
  rcases h op hop with hmem | hkey
  · obtain ⟨s, sfx, -, hslot, hkey⟩ := mem_edgeOps hmem
    exact ⟨s, sfx, hslot, hkey⟩
  · exact ⟨dynamicSlot, _, Or.inr (Or.inl rfl), hkey⟩

theorem mem_segmentPut {wire : Bytes} {op : Op Bytes Bytes} (h : op ∈ segmentPut b id wire) :
    op.1 = b.declared.dynamicKey id := by
  unfold segmentPut at h
  by_cases hwire : wire = []
  · rw [if_pos hwire] at h
    cases h
  · rw [if_neg hwire] at h
    obtain rfl := List.mem_singleton.mp h
    rfl

/-- **Both links entered.** -/
theorem Twins.linked (h : Twins b p rows labels names) (hnone : rows id = none) {edge : DynEdge}
    {found : Nat} (hok : RowOk b.declared labels id ⟨edge.head, found, ()⟩) (wire : Bytes) :
    Twins b (bothCommitted p (declaredLink b ⟨edge.head, found, ()⟩ id wire)
        (b.dynamic.writeOps edge found wire id))
      (Function.update rows id (some ⟨edge.head, found, ()⟩)) labels names := by
  obtain ⟨before, after, hedge, hdynamic⟩ := dynamicLink_eq b edge found id wire
  -- the declared form also writes the segment, the dynamic one in between
  have hsegment : ∀ op ∈ ([(b.declared.dynamicKey id, none)] ++ segmentPut b id wire :
      List (Op Bytes Bytes)), op.1 = b.declared.dynamicKey id := by
    intro op hop
    rcases List.mem_append.mp hop with hop | hop
    · obtain rfl := List.mem_singleton.mp hop
      rfl
    · exact mem_segmentPut hop
  refine h.commit ?_ ?_ ?_ (fun r hr => ?_) (fun k hk => pending_links hk)
    (fun _ => written_links_segment (h.quiet id hnone)) (fun hrow => by cases hrow) ?_
  · refine onlyUnder_edgeOps b ⟨edge.head, found, ()⟩ id
      (some (b.declared.body ⟨edge.head, found, ()⟩).encode) (some []) _ fun op hop => ?_
    rw [declaredLink, writeOps_eq, List.append_assoc] at hop
    rcases List.mem_append.mp hop with hop | hop
    · rcases List.mem_append.mp hop with hop | hop
      · obtain rfl := List.mem_singleton.mp hop
        exact Or.inr rfl
      · exact Or.inl hop
    · exact Or.inr (hsegment op hop)
  · refine onlyUnder_edgeOps b ⟨edge.head, found, ()⟩ id
      (some (b.declared.body ⟨edge.head, found, ()⟩).encode) (some []) _ fun op hop => ?_
    rw [hdynamic] at hop
    rw [hedge]
    rcases List.mem_append.mp hop with hop | hop
    · rcases List.mem_append.mp hop with hop | hop
      · exact Or.inl (List.mem_append_left _ hop)
      · exact Or.inr (mem_segmentPut hop)
    · exact Or.inl (List.mem_append_right _ hop)
  · rw [declaredLink, List.append_assoc, written_append, Function.comp_apply]
    exact (h.edges.enter hnone ⟨edge.head, found, ()⟩).frame (onlyUnder_segment hsegment)
      fun s hs => Or.inl hs
  · obtain rfl := Option.mem_some.mp hr
    exact hok
  · intro other hne
    have hspare := pending_edgeOps b ⟨edge.head, found, ()⟩ id
      (some (b.declared.body ⟨edge.head, found, ()⟩).encode) (some []) other
    rw [hedge, pending_append, Option.or_eq_none_iff] at hspare
    rw [hdynamic, pending_append, pending_append, hspare.1, hspare.2,
      pending_segmentPut fun heq => hne (dynamicKey_inj heq)]
    rfl

/-- **An edge left on both sides.** -/
theorem Twins.left (h : Twins b p rows labels names) {row : EdgeRow Unit}
    (hrow : rows id = some row) :
    Twins b (bothCommitted p (b.declared.unlinkOps (b.declared.body row) () id)
        (b.dynamic.unlinkOps row.head.src row.head.dst row.predicate id))
      (Function.update rows id none) labels names := by
  obtain ⟨before, after, hedge, hdynamic⟩ := dynamicLeave_eq b row id
  refine h.commit ?_ ?_ ?_ (fun r hr => by cases hr) (fun k hk => pending_leaves hk)
    (fun hlive => absurd rfl hlive) (fun _ => written_leave_segment row _) ?_
  · refine onlyUnder_edgeOps b row id none none _ fun op hop => ?_
    rw [unlinkOps_eq] at hop
    exact Or.inl hop
  · refine onlyUnder_edgeOps b row id none none _ fun op hop => ?_
    rw [hdynamic] at hop
    rw [hedge]
    rcases List.mem_append.mp hop with hop | hop
    · rcases List.mem_append.mp hop with hop | hop
      · exact Or.inl (List.mem_append_left _ hop)
      · obtain rfl := List.mem_singleton.mp hop
        exact Or.inr rfl
    · exact Or.inl (List.mem_append_right _ hop)
  · exact h.edges.leave hrow (h.rowsOk id row hrow).link
  · intro other hne
    have hspare := pending_edgeOps b row id none none other
    rw [hedge, pending_append, Option.or_eq_none_iff] at hspare
    rw [hdynamic, pending_append, pending_append, hspare.1, hspare.2, pending_singleton,
      if_neg fun heq => hne (dynamicKey_inj heq).symm]
    rfl

/-! ## The verbs -/

/-- Both forms take the step, answer or refuse it together, and stay in step. -/
def TwinsAdvance (b : BareDecl) (p : Pair) (op : TwinOp) : Prop :=
  ∃ answer answer' p' rows labels names, b.step p op = .ok ((answer, answer'), p') ∧
    answer.isOk = answer'.isOk ∧ Twins b p' rows labels names

theorem advance_refused {op : TwinOp} (e : Error) (text : String) (h : Twins b p' rows labels names)
    (heq : b.declared.twin op p.declared = (.error (.refused e), p'.declared))
    (heq' : b.dynamic.twin op p.dynamic = (.error (.refused text), p'.dynamic)) :
    TwinsAdvance b p op := by
  refine ⟨.error e, .error text, p', rows, labels, names, ?_, rfl, h⟩
  rw [BareDecl.step, twinStep, heq, heq']
  rfl

theorem advance_ok {op : TwinOp} (h : Twins b p' rows labels names)
    (heq : b.declared.twin op p.declared = (.ok (), p'.declared))
    (heq' : b.dynamic.twin op p.dynamic = (.ok (), p'.dynamic)) : TwinsAdvance b p op := by
  refine ⟨.ok (), .ok (), p', rows, labels, names, ?_, rfl, h⟩
  rw [BareDecl.step, twinStep, heq, heq']
  rfl

/-- What stands under an id is the same on both sides. -/
theorem Twins.primary_eq (h : Twins b p rows labels names) (id : UInt64) :
    p.dynamic.store.get (b.declared.primaryKey id)
      = p.declared.store.get (b.declared.primaryKey id) :=
  (h.agree (settled_of_slot dynamic_ne_primary.symm _)).symm

/-- What the dynamic form finds under an id. -/
theorem Twins.dynLook_primary (h : Twins b p rows labels names) (id : UInt64) {found : Option Bytes}
    (hfound : p.declared.store.get (b.declared.primaryKey id) = found) :
    dynLook (fun store => get store (b.dynamic.primaryKey id)) p.dynamic = (.ok found, p.dynamic) := by
  have hget : get p.dynamic.store (b.dynamic.primaryKey id) = .ok found := by
    rw [← hfound]
    exact congrArg Except.ok (h.primary_eq id)
  rw [dynLook, hget]
  rfl

/-- **A link under an id without an edge.** -/
theorem advance_link (h : Twins b p rows labels names) {edge : DynEdge}
    (hsrc : edge.src.Readable) (hdst : edge.dst.Readable)
    (hfree : p.declared.store.get (b.declared.primaryKey id) = none) :
    TwinsAdvance b p (.link edge id) := by
  have hnone : rows id = none := by
    cases hrow : rows id with
    | none => rfl
    | some row =>
      rw [h.edges.stored hrow] at hfree
      cases hfree
  -- the id is free, so the dynamic form finds no edge either
  have hlook := h.dynLook_primary id hfree
  rcases checkMembers_both b edge.src edge.dst with
    ⟨hcheck, hcheck', hsrcNs, hdstNs⟩ | ⟨e, text, hcheck, hcheck'⟩
  · -- both forms take the members, then intern the predicate
    obtain ⟨q, labels', hq, hpred⟩ := h.predicate edge.predicate
    rcases hpred with ⟨e, text, heq, heq'⟩ | ⟨found, hfound, heq, heq'⟩
    · refine advance_refused e text hq ?_ ?_
      · rw [GraphEncode.twin, GraphEncode.linkWith, GraphEncode.writeInto, run_bind, DynEdge.head,
          hcheck, run_bind_of_ok (answer_ok () _), run_bind, heq]
      · rw [DynSchema.twin, DynSchema.link, run_bind_of_ok hlook]
        dsimp only
        rw [run_bind, DynSchema.writeInto, hcheck', run_bind_of_ok (dynAnswer_ok () _), run_bind,
          heq']
    · have hwrite : b.declared.writeInto {} edge.head () id p.declared
          = (.ok ⟨b.declared.writeOps (b.declared.body ⟨edge.head, found, ()⟩) () id⟩,
            q.declared) := by
        rw [GraphEncode.writeInto, DynEdge.head, hcheck, run_bind_of_ok (answer_ok () _),
          run_bind_of_ok heq]
        rfl
      -- then the attribute names
      obtain ⟨q', names', hq', hattrs⟩ := hq.attributes edge.attrs
        ⟨b.declared.writeOps (b.declared.body ⟨edge.head, found, ()⟩) () id⟩ id
      rcases hattrs with ⟨e, text, hreplace, hwire⟩ | ⟨wire, hreplace, hwire⟩
      · refine advance_refused e text hq' ?_ ?_
        · rw [GraphEncode.twin, GraphEncode.linkWith, run_bind_of_ok hwrite, run_bind, hreplace]
        · rw [DynSchema.twin, DynSchema.link, run_bind_of_ok hlook]
          dsimp only
          rw [run_bind, DynSchema.writeInto, hcheck', run_bind_of_ok (dynAnswer_ok () _),
            run_bind_of_ok heq', run_bind, hwire]
      · -- both write the edge
        have hok : RowOk b.declared labels' id ⟨edge.head, found, ()⟩ :=
          ⟨hfound, ⟨hsrc, hdst, fun k hk => by cases hk⟩, hsrcNs, hdstNs⟩
        have hlinked : Twins b (bothCommitted q'
            (declaredLink b ⟨edge.head, found, ()⟩ id wire) (b.dynamic.writeOps edge found wire id))
            (Function.update rows id (some ⟨edge.head, found, ()⟩)) labels' names' :=
          hq'.linked hnone hok wire
        refine advance_ok hlinked ?_ ?_
        · rw [GraphEncode.twin, GraphEncode.linkWith, run_bind_of_ok hwrite,
            run_bind_of_ok hreplace, commit_eq]
          rfl
        · have hbatch : b.dynamic.writeInto {} edge id p.dynamic
              = (.ok ⟨b.dynamic.writeOps edge found wire id⟩, q'.dynamic) := by
            rw [DynSchema.writeInto, hcheck', run_bind_of_ok (dynAnswer_ok () _),
              run_bind_of_ok heq', run_bind_of_ok hwire]
            rfl
          rw [DynSchema.twin, DynSchema.link, run_bind_of_ok hlook]
          dsimp only
          rw [run_bind_of_ok hbatch, dynCommit_eq]
          rfl
  · -- both refuse a member of another graph
    refine advance_refused e text h ?_ ?_
    · rw [GraphEncode.twin, GraphEncode.linkWith, GraphEncode.writeInto, run_bind, DynEdge.head,
        hcheck]
      rfl
    · rw [DynSchema.twin, DynSchema.link, run_bind_of_ok hlook]
      dsimp only
      rw [run_bind, DynSchema.writeInto, hcheck']
      rfl

/-- **A stored body is parsed** where it was put together. -/
theorem parseBodyHead_encode {row : EdgeRow Unit} (hsrc : row.head.src.Readable)
    (hdst : row.head.dst.Readable) (hpred : row.predicate < 256 ^ 2) :
    DynSchema.parseBodyHead (b.declared.body row).encode
      = .ok (.ok (row.head.src, row.head.dst, row.predicate)) := by
  have hcut : (b.declared.body row).Cut := EdgeBody.cut hsrc hdst hpred
  unfold DynSchema.parseBodyHead
  rw [hcut.src]
  simp only [bind, Except.bind]
  rw [hcut.dst]
  dsimp only
  rw [if_neg hcut.long, hcut.number]
  rfl

/-- **An unlink.** -/
theorem advance_unlink (h : Twins b p rows labels names) (id : UInt64) :
    TwinsAdvance b p (.unlink id) := by
  cases hrow : rows id with
  | none =>
    refine advance_refused (.edgeNotFound id.toNat)
      ("unlink: edge_id " ++ toString id.toNat ++ " not found") h ?_ ?_
    · rw [GraphEncode.twin, GraphEncode.unlink, run_bind, unlinkInto_none h.edges hrow]
    · rw [DynSchema.twin, DynSchema.unlink,
        run_bind_of_ok (h.dynLook_primary id (h.edges.not_stored hrow))]
      rfl
  | some row =>
    have hok := h.rowsOk id row hrow
    refine advance_ok (h.left hrow) ?_ ?_
    · rw [GraphEncode.twin, GraphEncode.unlink,
        run_bind_of_ok (unlinkInto_some h.declared h.edges hrow hok {}), commit_eq]
      rfl
    · have hparse := parseBodyHead_encode (b := b) hok.link.src hok.link.dst
        (h.declared.encodes.index_lt hok.named)
      rw [DynSchema.twin, DynSchema.unlink,
        run_bind_of_ok (h.dynLook_primary id (h.edges.stored hrow))]
      dsimp only
      rw [hparse, run_bind_of_ok (dynUnwrap_ok _ _), run_bind_of_ok (dynAnswer_ok _ _)]
      exact dynCommit_eq _ _ _

end Okm.Model
