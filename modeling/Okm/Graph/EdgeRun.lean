import Okm.Graph.EdgeInv

/-!
# Runs of a graph

A graph is written by linking fresh ids, unlinking, rewriting an edge in one batch and
setting open attributes; asking for a predicate only fills the cache. Whatever is refused
on the way, the faces stay in step (`GraphInv`), and what the traversals answer is what
was linked and not unlinked since (`edgesAfter`).

The one condition a step needs beyond its own inputs is that of an unlink: the edge has no
open attributes stored. `unlink_into` does not drop the segment, so the attributes of an
unlinked edge are still read under its id (`unlink_keeps_attributes`).
-/

namespace Okm.Model

open Lib VirtualStorage

variable {R : Type} (g : GraphEncode R)

/-! ## What the parts of a verb do -/

/-- The predicate vocabulary grew, and nothing else changed. -/
structure Grown (s s' : Graph Keyspace) (labels labels' : List String) : Prop where
  cache : CacheSound .u16 predicateVocab g.ns s'.vocab s'.store.get labels'
  labels : labels <+: labels'
  only : OnlyUnder g.ns predicateVocab.Slots s.store.get s'.store.get

/-- An edge of the graph: its predicate has its number, and it can leave again. -/
structure RowOk (labels : List String) (id : UInt64) (row : EdgeRow R) : Prop where
  named : labels[row.predicate]? = some row.head.predicate
  link : g.Linkable row.head row.payload id
  src : row.head.src.ns ∈ g.members
  dst : row.head.dst.ns ∈ g.members

/-- **The state of a graph**: the cache is sound, every face holds the entries of the
edges, every segment belongs to one, and every edge can leave again. -/
structure GraphInv (s : Graph Keyspace) (rows : UInt64 → Option (EdgeRow R))
    (labels : List String) : Prop where
  cache : CacheSound .u16 predicateVocab g.ns s.vocab s.store.get labels
  edges : EdgesInv g s.store.get rows
  segments : SegmentsOwned g s.store.get rows none
  rowsOk : ∀ id row, rows id = some row → RowOk g labels id row

section

variable {g} {s s' : Graph Keyspace} {rows : UInt64 → Option (EdgeRow R)}
  {labels labels' : List String} {id : UInt64} {head : EdgeHead} {payload : R} {batch : Batch}

theorem getElem_of_prefix {id : Nat} {label : String} (hpfx : labels <+: labels')
    (h : labels[id]? = some label) : labels'[id]? = some label := by
  obtain ⟨more, rfl⟩ := hpfx
  rw [List.getElem?_append_left (List.getElem?_eq_some_iff.mp h).1, h]

theorem RowOk.grow {row : EdgeRow R} (h : RowOk g labels id row) (hpfx : labels <+: labels') :
    RowOk g labels' id row where
  named := getElem_of_prefix hpfx h.named
  link := h.link
  src := h.src
  dst := h.dst

theorem Grown.refl (h : CacheSound .u16 predicateVocab g.ns s.vocab s.store.get labels) :
    Grown g s s labels labels where
  cache := h
  labels := List.prefix_refl labels
  only := OnlyUnder.refl _

theorem predicate_not_edge (s : Slot) (hs : predicateVocab.Slots s) : ¬ g.EdgeSlot s :=
  g.not_edgeSlot_vocab (Or.inl hs)

/-- A vocabulary that grew leaves the edges as they were. -/
theorem GraphInv.grow (h : GraphInv g s rows labels) (hgrown : Grown g s s' labels labels') :
    GraphInv g s' rows labels' where
  cache := hgrown.cache
  edges := h.edges.frame hgrown.only fun t ht => Or.inr (predicate_not_edge t ht)
  segments := h.segments.frame hgrown.only fun hp =>
    predicate_not_edge (g := g) _ hp (Or.inr (Or.inl rfl))
  rowsOk id row hrow := (h.rowsOk id row hrow).grow hgrown.labels

/-- **Resolving a predicate** answers its number, or is refused at the end of the width. -/
theorem predicateVocabId_spec
    (h : CacheSound .u16 predicateVocab g.ns s.vocab s.store.get labels) (predicate : String) :
    (∃ e s', g.predicateVocabId predicate s = (.error (.refused e), s') ∧
      Grown g s s' labels labels) ∨
    (∃ found s' labels', g.predicateVocabId predicate s = (.ok found, s') ∧
      labels'[found]? = some predicate ∧ Grown g s s' labels labels') := by
  have honly := (idFor_onlyUnder .u16 s.vocab s.store g.ns predicate).2
  rw [h.faces_eq] at honly
  unfold GraphEncode.predicateVocabId
  have hread : CacheSound .u16 predicateVocab g.ns s.vocab (LawfulStorage.read s.store) labels := h
  rcases idFor_sound hread predicate with ⟨found, cache, hfound, heq, hsound⟩ |
    ⟨hnew, -, cache, store, heq, -, hsound⟩ | ⟨-, -, cache, heq, hsound⟩
  · rw [heq]
    exact Or.inr ⟨found, _, labels, rfl, hfound, hsound, List.prefix_refl labels,
      OnlyUnder.refl _⟩
  · rw [heq] at honly ⊢
    refine Or.inr ⟨labels.length, _, labels ++ [predicate], rfl, by simp, hsound,
      List.prefix_append _ _, honly⟩
  · rw [heq]
    exact Or.inl ⟨_, _, rfl, hsound, List.prefix_refl labels, OnlyUnder.refl _⟩

theorem checkMembers_cases (g : GraphEncode R) (src dst : NodeRef) :
    (g.checkMembers src dst = .ok () ∧ src.ns ∈ g.members ∧ dst.ns ∈ g.members) ∨
    ∃ e, g.checkMembers src dst = .error e := by
  unfold GraphEncode.checkMembers
  by_cases hsrc : src.ns ∉ g.members
  · exact Or.inr ⟨_, if_pos hsrc⟩
  · rw [if_neg hsrc]
    by_cases hdst : dst.ns ∉ g.members
    · exact Or.inr ⟨_, if_pos hdst⟩
    · exact Or.inl ⟨if_neg hdst, not_not.mp hsrc, not_not.mp hdst⟩

theorem checkMembers_of_mem {src dst : NodeRef} (hsrc : src.ns ∈ g.members)
    (hdst : dst.ns ∈ g.members) : g.checkMembers src dst = .ok () := by
  rw [GraphEncode.checkMembers, if_neg (not_not.mpr hsrc), if_neg (not_not.mpr hdst)]

/-- **What `write_into` answers**: the entries of the new edge, or a refusal. -/
theorem writeInto_spec (h : CacheSound .u16 predicateVocab g.ns s.vocab s.store.get labels)
    (batch : Batch) (head : EdgeHead) (payload : R) (id : UInt64) :
    (∃ e s', g.writeInto batch head payload id s = (.error (.refused e), s') ∧
      Grown g s s' labels labels) ∨
    (∃ predicate s' labels', g.writeInto batch head payload id s
        = (.ok ⟨batch.ops ++ g.writeOps (g.body ⟨head, predicate, payload⟩) payload id⟩, s') ∧
      labels'[predicate]? = some head.predicate ∧ head.src.ns ∈ g.members ∧
      head.dst.ns ∈ g.members ∧ Grown g s s' labels labels') := by
  unfold GraphEncode.writeInto
  rcases checkMembers_cases g head.src head.dst with ⟨hok, hsrc, hdst⟩ | ⟨e, hrefused⟩
  · rw [hok, run_bind_of_ok (answer_ok () s)]
    rcases predicateVocabId_spec h head.predicate with
      ⟨e, s', heq, hgrown⟩ | ⟨found, s', labels', heq, hfound, hgrown⟩
    · rw [run_bind, heq]
      exact Or.inl ⟨e, s', rfl, hgrown⟩
    · rw [run_bind, heq]
      exact Or.inr ⟨found, s', labels', rfl, hfound, hsrc, hdst, hgrown⟩
  · rw [hrefused, run_bind]
    exact Or.inl ⟨e, s, rfl, Grown.refl h⟩

/-- An id without an edge is not unlinked. -/
theorem unlinkInto_none (hedges : EdgesInv g s.store.get rows) (hnone : rows id = none)
    (batch : Batch) :
    g.unlinkInto batch id s = (.error (.refused (.edgeNotFound id.toNat)), s) := by
  have hget : get s.store (g.primaryKey id) = .ok none :=
    congrArg Except.ok (hedges.not_stored hnone)
  have hlook : look (fun store => get store (g.primaryKey id)) s = (.ok none, s) := by
    rw [look, hget]
    rfl
  rw [GraphEncode.unlinkInto, run_bind_of_ok hlook]
  rfl

/-- **What `unlink_into` answers** for an edge: the entries its row was entered with. -/
theorem unlinkInto_some (hcache : CacheSound .u16 predicateVocab g.ns s.vocab s.store.get labels)
    (hedges : EdgesInv g s.store.get rows) {row : EdgeRow R} (hrow : rows id = some row)
    (hok : RowOk g labels id row) (batch : Batch) :
    g.unlinkInto batch id s = (.ok ⟨batch.ops ++ g.unlinkOps (g.body row)
      (g.doc.decodePayload (g.doc.encodePayload row.payload)) id⟩, s) := by
  have hget : get s.store (g.primaryKey id) = .ok (some (g.body row).encode) :=
    congrArg Except.ok (hedges.stored hrow)
  have hlook : look (fun store => get store (g.primaryKey id)) s
      = (.ok (some (g.body row).encode), s) := by
    rw [look, hget]
    rfl
  have hdecode : decodeBody (g.body row).encode = .ok (g.body row) :=
    decodeBody_encode hok.link.src hok.link.dst (hcache.encodes.index_lt hok.named)
  have hmembers : g.checkMembers (g.body row).src (g.body row).dst = .ok () :=
    checkMembers_of_mem hok.src hok.dst
  rw [GraphEncode.unlinkInto, run_bind_of_ok hlook]
  dsimp only
  rw [hdecode, run_bind_of_ok (unwrap_ok (g.body row) s), hmembers,
    run_bind_of_ok (answer_ok () s)]
  rfl

/-- The state a commit leaves. -/
def committed (batch : Batch) (s : Graph Keyspace) : Graph Keyspace :=
  ⟨applyOps s.store batch.ops, s.vocab⟩

theorem commit_eq (batch : Batch) (s : Graph Keyspace) :
    commit batch s = (.ok (), committed batch s) := rfl

theorem get_committed (batch : Batch) (s : Graph Keyspace) :
    (committed batch s).store.get = written batch.ops s.store.get :=
  funext fun k => get_applyOps s.store batch.ops k

/-! ## The verbs keep the faces in step -/

/-- What was linked, by id. -/
def headsOf (rows : UInt64 → Option (EdgeRow R)) (id : UInt64) : Option (EdgeHead × R) :=
  (rows id).map fun row => (row.head, row.payload)

theorem headsOf_update (rows : UInt64 → Option (EdgeRow R)) (id : UInt64)
    (row : Option (EdgeRow R)) :
    headsOf (Function.update rows id row)
      = Function.update (headsOf rows) id (row.map fun row => (row.head, row.payload)) := by
  funext other
  unfold headsOf
  by_cases h : other = id
  · subst h
    rw [Function.update_self, Function.update_self]
  · rw [Function.update_of_ne h, Function.update_of_ne h]

/-- Writes to the edge slots leave the vocabulary alone. -/
theorem cache_committed (h : CacheSound .u16 predicateVocab g.ns s.vocab s.store.get labels)
    (honly : OnlyUnder g.ns g.EdgeSlot s.store.get (written batch.ops s.store.get)) :
    CacheSound .u16 predicateVocab g.ns (committed batch s).vocab (committed batch s).store.get
      labels := by
  rw [get_committed]
  exact h.frame honly predicate_not_edge

/-- **A fresh edge is entered** by a batch that enters it. -/
theorem GraphInv.enter (h : GraphInv g s rows labels) (hnone : rows id = none) {row : EdgeRow R}
    (hrow : RowOk g labels id row) :
    GraphInv g (committed ⟨g.writeOps (g.body row) row.payload id⟩ s)
      (Function.update rows id (some row)) labels where
  cache := cache_committed h.cache (g.onlyUnder_writeOps _)
  edges := by
    rw [get_committed]
    exact h.edges.enter hnone row
  segments := by
    rw [get_committed]
    have hspare : SegmentsOwned g s.store.get rows (some id) := by
      intro sfx v hv
      obtain ⟨id', rfl, hown⟩ := h.segments sfx v hv
      exact ⟨id', rfl, Or.inl (hown.resolve_right (by simp))⟩
    exact hspare.enter row
  rowsOk id' row' hrow' := by
    by_cases heq : id' = id
    · subst heq
      rw [Function.update_self] at hrow'
      obtain rfl := Option.some.inj hrow'
      exact hrow
    · rw [Function.update_of_ne heq] at hrow'
      exact h.rowsOk id' row' hrow'

/-- **An edge without open attributes leaves** by a batch that drops its entries. -/
theorem GraphInv.leave (h : GraphInv g s rows labels) {row : EdgeRow R} (hrow : rows id = some row)
    (hplain : s.store.get (g.dynamicKey id) = none) :
    GraphInv g (committed ⟨g.unlinkOps (g.body row)
      (g.doc.decodePayload (g.doc.encodePayload row.payload)) id⟩ s)
      (Function.update rows id none) labels where
  cache := cache_committed h.cache (g.onlyUnder_unlinkOps _)
  edges := by
    rw [get_committed]
    exact h.edges.leave hrow (h.rowsOk id row hrow).link
  segments := by
    rw [get_committed]
    refine (h.segments.leave _ _).settle ?_
    rw [GraphEncode.dynamicKey,
      GraphEncode.written_unlinkOps_fixed g (by decide) EdgeFace.dynamic_ne_slot,
      if_neg fun heq => dynamic_ne_primary heq.1]
    exact hplain
  rowsOk id' row' hrow' := by
    by_cases heq : id' = id
    · rw [heq, Function.update_self] at hrow'
      cases hrow'
    · rw [Function.update_of_ne heq] at hrow'
      exact h.rowsOk id' row' hrow'

/-- **An edge is replaced** by a batch that drops its entries and enters those of its
successor: whatever was stored beside it goes as well. -/
theorem GraphInv.replace (h : GraphInv g s rows labels) {old row : EdgeRow R}
    (hold : rows id = some old) (hrow : RowOk g labels id row) :
    GraphInv g (committed ⟨g.unlinkOps (g.body old)
        (g.doc.decodePayload (g.doc.encodePayload old.payload)) id
        ++ g.writeOps (g.body row) row.payload id⟩ s)
      (Function.update rows id (some row)) labels where
  cache := by
    refine cache_committed h.cache ?_
    rw [written_append, Function.comp_apply]
    exact (g.onlyUnder_unlinkOps _).trans (g.onlyUnder_writeOps _)
  edges := by
    rw [get_committed, written_append, Function.comp_apply]
    have hleft := h.edges.leave hold (h.rowsOk id old hold).link
    have hentered := hleft.enter (Function.update_self id none rows) row
    rwa [Function.update_idem] at hentered
  segments := by
    rw [get_committed, written_append, Function.comp_apply]
    have hleft : SegmentsOwned g _ _ (some id) := h.segments.leave (g.body old)
      (g.doc.decodePayload (g.doc.encodePayload old.payload))
    have hentered := hleft.enter row
    rwa [Function.update_idem] at hentered
  rowsOk id' row' hrow' := by
    by_cases heq : id' = id
    · subst heq
      rw [Function.update_self] at hrow'
      obtain rfl := Option.some.inj hrow'
      exact hrow
    · rw [Function.update_of_ne heq] at hrow'
      exact h.rowsOk id' row' hrow'

end

/-! ## Steps and runs -/

/-- What a caller does to a graph. A rewrite is `unlink_into` and `link_into` of one id in
one committed batch. -/
inductive GraphOp (R : Type) where
  | link (head : EdgeHead) (payload : R) (id : UInt64)
  | unlink (id : UInt64)
  | rewrite (head : EdgeHead) (payload : R) (id : UInt64)
  | replace (id : UInt64) (fields : SortedMap String DynamicValue)
  | ask (predicate : String)

namespace GraphEncode

/-- The verb behind an operation. -/
def verb : GraphOp R → GraphVerb Keyspace Unit
  | .link head payload id => g.link head payload id
  | .unlink id => g.unlink id
  | .rewrite head payload id => g.rewrite head payload id
  | .replace id fields => g.replaceAttrs id fields
  | .ask predicate => do
    let _ ← g.predicateGet predicate
    pure ()

end GraphEncode

/-- A refusal is an answer; a panic is none. -/
def settle {α : Type} : Except Failure α × Graph Keyspace →
    Except Panic (Except Error α × Graph Keyspace)
  | (.ok a, s) => .ok (.ok a, s)
  | (.error (.refused e), s) => .ok (.error e, s)
  | (.error (.panic p), _) => .error p

namespace GraphEncode

def step (s : Graph Keyspace) (op : GraphOp R) : Except Panic (Except Error Unit × Graph Keyspace) :=
  settle (g.verb op s)

/-- **The condition on an operation**: what is linked can leave again, and an edge is
unlinked without open attributes. Attributes are set on edges there are. -/
def Meets (_ : List (GraphOp R × Except Error Unit)) (s : Graph Keyspace) : GraphOp R → Prop
  | .link head payload id => g.Linkable head payload id
  | .unlink id => s.store.get (g.dynamicKey id) = none
  | .rewrite head payload id => g.Linkable head payload id
  | .replace id _ => s.store.get (g.primaryKey id) ≠ none
  | .ask _ => True

end GraphEncode

/-- The edges there are after an operation and its answer. -/
def track (edges : UInt64 → Option (EdgeHead × R)) :
    GraphOp R × Except Error Unit → UInt64 → Option (EdgeHead × R)
  | (.link head payload id, .ok ()) => Function.update edges id (some (head, payload))
  | (.unlink id, .ok ()) => Function.update edges id none
  | (.rewrite head payload id, .ok ()) => Function.update edges id (some (head, payload))
  | _ => edges

/-- The edges there are after a run from an empty graph. -/
def edgesAfter (past : List (GraphOp R × Except Error Unit)) : UInt64 → Option (EdgeHead × R) :=
  past.foldl track fun _ => none

section

variable {g} {s s' : Graph Keyspace} {rows : UInt64 → Option (EdgeRow R)}
  {labels : List String} {id : UInt64} {head : EdgeHead} {payload : R}

/-- What a step leaves: it answers, the faces are in step with the edges it leaves. -/
def Advances (g : GraphEncode R) (s : Graph Keyspace) (rows : UInt64 → Option (EdgeRow R))
    (op : GraphOp R) : Prop :=
  ∃ answer s' rows' labels', g.step s op = .ok (answer, s') ∧ GraphInv g s' rows' labels' ∧
    headsOf rows' = track (headsOf rows) (op, answer)

/-- A refused verb leaves the edges as they were. -/
theorem advances_refused {op : GraphOp R} {e : Error} {labels' : List String}
    (hinv : GraphInv g s' rows labels') (heq : g.verb op s = (.error (.refused e), s')) :
    Advances g s rows op := by
  refine ⟨.error e, s', rows, labels', ?_, hinv, ?_⟩
  · rw [GraphEncode.step, heq]
    rfl
  · cases op <;> rfl

theorem advances_link (h : GraphInv g s rows labels) (hlink : g.Linkable head payload id) :
    Advances g s rows (.link head payload id) := by
  cases hrow : rows id with
  | some row =>
    have hlook : look (fun store => get store (g.primaryKey id)) s
        = (.ok (some (g.body row).encode), s) := by
      rw [look, show get s.store (g.primaryKey id) = .ok (some (g.body row).encode) from
        congrArg Except.ok (h.edges.stored hrow)]
      rfl
    refine advances_refused (e := .edgeAlreadyLive id.toNat) h ?_
    rw [GraphEncode.verb, GraphEncode.link, run_bind_of_ok hlook]
    rfl
  | none =>
    have hlook : look (fun store => get store (g.primaryKey id)) s = (.ok none, s) := by
      rw [look, show get s.store (g.primaryKey id) = .ok none from
        congrArg Except.ok (h.edges.not_stored hrow)]
      rfl
    rcases writeInto_spec h.cache {} head payload id with
      ⟨e, s', heq, hgrown⟩ | ⟨found, s', labels', heq, hfound, hsrc, hdst, hgrown⟩
    · refine advances_refused (e := e) (h.grow hgrown) ?_
      rw [GraphEncode.verb, GraphEncode.link, run_bind_of_ok hlook]
      dsimp only
      rw [run_bind, heq]
    · have hok : RowOk g labels' id ⟨head, found, payload⟩ := ⟨hfound, hlink, hsrc, hdst⟩
      have hentered := (h.grow hgrown).enter hrow hok
      refine ⟨.ok (), _, _, labels', ?_, hentered, ?_⟩
      · rw [GraphEncode.step, GraphEncode.verb, GraphEncode.link, run_bind_of_ok hlook]
        dsimp only
        rw [run_bind_of_ok heq, commit_eq]
        rfl
      · rw [headsOf_update]
        rfl

theorem advances_unlink (h : GraphInv g s rows labels)
    (hplain : s.store.get (g.dynamicKey id) = none) : Advances g s rows (.unlink id) := by
  cases hrow : rows id with
  | none =>
    refine advances_refused (e := .edgeNotFound id.toNat) h ?_
    rw [GraphEncode.verb, GraphEncode.unlink, run_bind, unlinkInto_none h.edges hrow]
  | some row =>
    refine ⟨.ok (), _, _, labels, ?_, h.leave hrow hplain, ?_⟩
    · rw [GraphEncode.step, GraphEncode.verb, GraphEncode.unlink,
        run_bind_of_ok (unlinkInto_some h.cache h.edges hrow (h.rowsOk id _ hrow) {}), commit_eq]
      rfl
    · rw [headsOf_update]
      rfl

theorem advances_rewrite (h : GraphInv g s rows labels) (hlink : g.Linkable head payload id) :
    Advances g s rows (.rewrite head payload id) := by
  cases hrow : rows id with
  | none =>
    refine advances_refused (e := .edgeNotFound id.toNat) h ?_
    rw [GraphEncode.verb, GraphEncode.rewrite, run_bind, unlinkInto_none h.edges hrow]
  | some old =>
    rcases writeInto_spec h.cache ⟨[] ++ g.unlinkOps (g.body old)
        (g.doc.decodePayload (g.doc.encodePayload old.payload)) id⟩ head payload id with
      ⟨e, s', heq, hgrown⟩ | ⟨found, s', labels', heq, hfound, hsrc, hdst, hgrown⟩
    · refine advances_refused (e := e) (h.grow hgrown) ?_
      rw [GraphEncode.verb, GraphEncode.rewrite, run_bind_of_ok (unlinkInto_some h.cache h.edges hrow (h.rowsOk id _ hrow) {}),
        run_bind, heq]
    · have hok : RowOk g labels' id ⟨head, found, payload⟩ := ⟨hfound, hlink, hsrc, hdst⟩
      have hreplaced := (h.grow hgrown).replace hrow hok
      refine ⟨.ok (), _, _, labels', ?_, hreplaced, ?_⟩
      · rw [GraphEncode.step, GraphEncode.verb, GraphEncode.rewrite,
          run_bind_of_ok (unlinkInto_some h.cache h.edges hrow (h.rowsOk id _ hrow) {}), run_bind_of_ok heq, commit_eq]
        rfl
      · rw [headsOf_update]
        rfl

theorem advances_ask (h : GraphInv g s rows labels) (predicate : String) :
    Advances g s rows (.ask predicate) := by
  have hread : CacheSound .u16 predicateVocab g.ns s.vocab (LawfulStorage.read s.store) labels :=
    h.cache
  obtain ⟨found, cache, heq, hsound, -⟩ := idGet_sound hread predicate
  have hget : g.predicateGet predicate s = (.ok found, ⟨s.store, cache⟩) := by
    rw [GraphEncode.predicateGet, heq]
  refine ⟨.ok (), ⟨s.store, cache⟩, rows, labels, ?_, ?_, rfl⟩
  · rw [GraphEncode.step, GraphEncode.verb, run_bind_of_ok hget]
    rfl
  · exact ⟨hsound, h.edges, h.segments, h.rowsOk⟩

/-! ## Setting open attributes -/

/-- Between two moments of one segment's encoding: the cache stays on the field
vocabulary, and only its two faces changed. -/
def FieldGrowth (g : GraphEncode R) (a b : VocabCache × Keyspace) : Prop :=
  a.1.faces = fieldVocab → b.1.faces = fieldVocab ∧
    OnlyUnder g.ns fieldVocab.Slots a.2.get b.2.get

theorem keeps_fieldName (g : GraphEncode R) (name : String) :
    Keeps (FieldGrowth g) (g.fieldId (σ := Keyspace) name) := by
  intro a hcache
  obtain ⟨cache, store⟩ := a
  have honly := idFor_onlyUnder .u16 cache store g.ns name
  rw [hcache] at honly
  unfold GraphEncode.fieldId attributeId
  dsimp only
  generalize VocabCache.idFor .u16 cache store g.ns name = answer at honly ⊢
  obtain ⟨verdict, cache', store'⟩ := answer
  cases verdict with
  | error e => exact honly
  | ok id => exact honly

/-- **Encoding attributes** answers their frames or is refused; only the field vocabulary
grows. -/
theorem attributeBytes_spec (g : GraphEncode R) (fields : SortedMap String DynamicValue)
    (s : Graph Keyspace) :
    ∃ s', s'.vocab = s.vocab ∧ OnlyUnder g.ns fieldVocab.Slots s.store.get s'.store.get ∧
      ((∃ body, g.attributeBytes fields s = (.ok body, s')) ∨
        ∃ e, g.attributeBytes fields s = (.error (.refused e), s')) := by
  have hkeeps : Keeps (FieldGrowth g) (putFramesNamed (g.fieldId (σ := Keyspace)) fields.entries) :=
    keeps_putFramesNamed (fun _ h => ⟨h, OnlyUnder.refl _⟩)
      (fun _ _ _ h h' ha => ⟨(h' (h ha).1).1, (h ha).2.trans (h' (h ha).1).2⟩)
      (keeps_fieldName g) fields.entries
  have hgrowth := (hkeeps ({ faces := fieldVocab }, s.store) rfl).2
  unfold GraphEncode.attributeBytes
  generalize putFramesNamed (g.fieldId (σ := Keyspace)) fields.entries
    ({ faces := fieldVocab }, s.store) = answer at hgrowth ⊢
  obtain ⟨verdict, cache, store⟩ := answer
  cases verdict with
  | error e => exact ⟨⟨store, s.vocab⟩, rfl, hgrowth, Or.inr ⟨e, rfl⟩⟩
  | ok body => exact ⟨⟨store, s.vocab⟩, rfl, hgrowth, Or.inl ⟨body, rfl⟩⟩

theorem field_not_edge (s : Slot) (hs : fieldVocab.Slots s) : ¬ g.EdgeSlot s :=
  g.not_edgeSlot_vocab (Or.inr hs)

/-- Writes that spare the edges and the predicates, and put attributes under the ids of
edges only. -/
theorem GraphInv.beside (h : GraphInv g s rows labels) {P : Slot → Prop} (hvocab : s'.vocab = s.vocab)
    (honly : OnlyUnder g.ns P s.store.get s'.store.get)
    (hP : ∀ t, P t → t = dynamicSlot ∨ fieldVocab.Slots t)
    (hsegments : SegmentsOwned g s'.store.get rows none) : GraphInv g s' rows labels where
  cache := by
    rw [hvocab]
    refine h.cache.frame honly fun t ht hp => ?_
    rcases hP t hp with rfl | hfield
    · rcases ht with heq | heq <;> exact absurd heq (by decide)
    · rcases ht with rfl | rfl <;> rcases hfield with heq | heq <;> exact absurd heq (by decide)
  edges := h.edges.frame honly fun t ht => (hP t ht).imp id (field_not_edge t)
  segments := hsegments
  rowsOk := h.rowsOk

/-- The batch of a segment: the old entry goes, and a new one may come. -/
theorem SegmentsOwned.written {f : Reads} (h : SegmentsOwned g f rows none) (hrow : rows id ≠ none)
    {ops : List (Op Bytes Bytes)} (hops : ∀ op ∈ ops, op.1 = g.dynamicKey id) :
    SegmentsOwned g (written ops f) rows none := by
  intro sfx v hv
  by_cases hsfx : sfx = idBe id
  · exact ⟨id, hsfx, Or.inl hrow⟩
  · rw [written_of_not_mem fun op hop heq => hsfx ?_] at hv
    · exact h sfx v hv
    · rw [hops op hop, GraphEncode.dynamicKey] at heq
      exact ((faceKey_inj _ _ _ _ _).mp heq).2.symm

theorem onlyUnder_segment {f : Reads} {ops : List (Op Bytes Bytes)}
    (hops : ∀ op ∈ ops, op.1 = g.dynamicKey id) :
    OnlyUnder g.ns (· = dynamicSlot) f (Okm.Model.written ops f) := by
  intro k hk
  refine written_of_not_mem (fun op hop heq => hk ⟨dynamicSlot, idBe id, rfl, ?_⟩) f
  rw [← heq, hops op hop]
  rfl

theorem advances_replace (h : GraphInv g s rows labels)
    (hlive : s.store.get (g.primaryKey id) ≠ none) (fields : SortedMap String DynamicValue) :
    Advances g s rows (.replace id fields) := by
  have hrow : rows id ≠ none := fun hnone => hlive (h.edges.not_stored hnone)
  -- committing writes to the one segment keeps everything else
  have hcommit : ∀ (t : Graph Keyspace) (ops : List (Op Bytes Bytes)), GraphInv g t rows labels →
      (∀ op ∈ ops, op.1 = g.dynamicKey id) → GraphInv g (committed ⟨ops⟩ t) rows labels := by
    intro t ops ht hops
    have honly : OnlyUnder g.ns (· = dynamicSlot) t.store.get (committed ⟨ops⟩ t).store.get := by
      rw [get_committed]
      exact onlyUnder_segment hops
    refine ht.beside rfl honly (fun _ hp => Or.inl hp) ?_
    rw [get_committed]
    exact ht.segments.written hrow hops
  have hdel : ∀ op ∈ (({} : Batch).del (g.dynamicKey id)).ops, op.1 = g.dynamicKey id := by
    intro op hop
    obtain rfl := List.mem_singleton.mp hop
    rfl
  by_cases hempty : fields.entries = []
  · refine ⟨.ok (), _, rows, labels, ?_, hcommit s _ h hdel, rfl⟩
    rw [GraphEncode.step, GraphEncode.verb, GraphEncode.replaceAttrs, GraphEncode.replaceInto,
      if_pos hempty, run_bind_of_ok (run_pure _ s), commit_eq]
    rfl
  · obtain ⟨s', hvocab, honly, hanswer⟩ := attributeBytes_spec g fields s
    have hbeside : GraphInv g s' rows labels := by
      refine h.beside hvocab honly (fun _ hp => Or.inr hp) ?_
      refine h.segments.frame honly fun hp => ?_
      rcases hp with heq | heq <;> exact absurd heq (by decide)
    rcases hanswer with ⟨body, heq⟩ | ⟨e, heq⟩
    · have hput : ∀ op ∈ ((({} : Batch).del (g.dynamicKey id)).put (g.dynamicKey id) body).ops,
          op.1 = g.dynamicKey id := by
        intro op hop
        rcases List.mem_append.mp hop with hop | hop
        · exact hdel op hop
        · obtain rfl := List.mem_singleton.mp hop
          rfl
      have hreplace : g.replaceInto {} id fields s
          = (.ok ((({} : Batch).del (g.dynamicKey id)).put (g.dynamicKey id) body), s') := by
        rw [GraphEncode.replaceInto, if_neg hempty]
        exact run_bind_of_ok heq
      refine ⟨.ok (), _, rows, labels, ?_, hcommit s' _ hbeside hput, rfl⟩
      rw [GraphEncode.step, GraphEncode.verb, GraphEncode.replaceAttrs, run_bind_of_ok hreplace,
        commit_eq]
      rfl
    · refine advances_refused (e := e) hbeside ?_
      rw [GraphEncode.verb, GraphEncode.replaceAttrs, GraphEncode.replaceInto, if_neg hempty,
        run_bind, run_bind, heq]

/-- **Every operation that meets its condition answers and keeps the faces in step.** -/
theorem advances (h : GraphInv g s rows labels) {past : List (GraphOp R × Except Error Unit)}
    {op : GraphOp R} (hmeets : g.Meets past s op) : Advances g s rows op := by
  cases op with
  | link head payload id => exact advances_link h hmeets
  | unlink id => exact advances_unlink h hmeets
  | rewrite head payload id => exact advances_rewrite h hmeets
  | replace id fields => exact advances_replace h hmeets fields
  | ask predicate => exact advances_ask h predicate

/-- **Every run keeps the faces in step** with the edges it leaves. -/
theorem graphInv_run {store : Keyspace} {past : List (GraphOp R × Except Error Unit)}
    (hfresh : ∀ t sfx, store.get (faceKey g.ns t sfx) = none)
    (run : Trace g.step g.Meets (Graph.new store) past s) :
    ∃ rows labels, GraphInv g s rows labels ∧ headsOf rows = edgesAfter past := by
  refine run.invariant (fun past s => ∃ rows labels, GraphInv g s rows labels ∧
    headsOf rows = edgesAfter past) ?_ ?_
  · refine ⟨fun _ => none, [], ?_, rfl⟩
    exact
      { cache := CacheSound.fresh (encodes_empty (hfresh _) (hfresh _))
        edges :=
          { primary := Represents.empty (hfresh _)
            faces := fun face => Represents.empty (hfresh _)
            declared := fun t _ sfx v hv => by
              exact absurd (hv.symm.trans (hfresh t sfx)) (by simp) }
        segments := fun sfx v hv => absurd (hv.symm.trans (hfresh dynamicSlot sfx)) (by simp)
        rowsOk := fun _ _ hrow => by cases hrow }
  · intro past s op answer s' hinv hmeets hstep
    obtain ⟨rows, labels, hinv, hheads⟩ := hinv
    obtain ⟨answer', s'', rows', labels', hstep', hinv', hheads'⟩ := advances hinv hmeets
    obtain ⟨rfl, rfl⟩ := Prod.mk.inj (Except.ok.inj (hstep.symm.trans hstep'))
    refine ⟨rows', labels', hinv', ?_⟩
    rw [hheads', hheads, edgesAfter, edgesAfter, List.foldl_append]
    rfl

end

end Okm.Model
