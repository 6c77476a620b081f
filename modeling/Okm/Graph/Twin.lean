import Okm.Graph.DynEdge
import Okm.Graph.EdgeRun

/-!
# The two forms of a graph side by side

A graph that declares nothing but its members has a declared form and a dynamic one. Run
beside each other from an empty store they keep `Twins`: the caches of both are sound for
the same lists, and the stores agree on every key but the attribute segments of ids that
have no edge. The dynamic form drops a segment with its edge; the declared `unlink` does
not, and its next `link_into` of the id does.

A step is a verb of each form. Their parts go hand in hand: the members are checked alike,
two sound caches give a label one number (`idFor_both`), and attributes are encoded by
resolvers that do (`related_putFramesNamed`).
-/

namespace Okm.Model

open Lib VirtualStorage Engine

/-! ## Both forms -/

/-- `predicate_vocab_name`. -/
def GraphEncode.predicateVocabName {R σ : Type} [VirtualStorage σ] (g : GraphEncode R) (id : Nat) :
    GraphVerb σ (Option String) := fun s =>
  match VocabCache.nameFor .u16 s.vocab s.store g.ns id with
  | (.ok name, vocab) => (.ok name, ⟨s.store, vocab⟩)
  | (.error e, vocab) => (.error (.refused e), ⟨s.store, vocab⟩)

/-- A link with attributes: `link_into` and `replace_into` in one committed batch. -/
def GraphEncode.linkWith {R σ : Type} [VirtualStorage σ] (g : GraphEncode R) (head : EdgeHead)
    (payload : R) (id : UInt64) (fields : SortedMap String DynamicValue) : GraphVerb σ Unit := do
  let batch ← g.writeInto {} head payload id
  let batch ← g.replaceInto batch id fields
  commit batch

def DynEdge.head (edge : DynEdge) : EdgeHead := ⟨edge.src, edge.dst, edge.predicate⟩

/-- A declaration of members and nothing else; `#[ok_nodes]` lists at least one. -/
structure BareDecl where
  ns : UInt16
  members : List UInt16
  named : members ≠ []

/-- Its declared form, at the layout version the dynamic form writes. -/
def BareDecl.declared (b : BareDecl) : GraphEncode Unit := bareGraph b.ns 1 b.members

def BareDecl.dynamic (b : BareDecl) : DynSchema := ⟨b.ns, b.members⟩

/-- A handle of each form, each on its own store. -/
structure Pair where
  declared : Graph Keyspace
  dynamic : DynGraph Keyspace

def Pair.new (store : Keyspace) : Pair := ⟨Graph.new store, DynGraph.new store⟩

/-- What both forms are asked to do. -/
inductive TwinOp where
  | link (edge : DynEdge) (id : UInt64)
  | unlink (id : UInt64)
  | ask (predicate : String)
  | fetch (id : UInt64)

/-- The verb of the declared form. -/
def GraphEncode.twin (g : GraphEncode Unit) : TwinOp → GraphVerb Keyspace Unit
  | .link edge id => g.linkWith edge.head () id edge.attrs
  | .unlink id => g.unlink id
  | .ask predicate => do
    let _ ← g.predicateGet predicate
    pure ()
  | .fetch id => do
    let _ ← g.getEdge id
    pure ()

/-- The verb of the dynamic form. -/
def DynSchema.twin (c : DynSchema) : TwinOp → DynVerb Keyspace Unit
  | .link edge id => c.link edge id
  | .unlink id => c.unlink id
  | .ask predicate => do
    let _ ← c.predicateGet predicate
    pure ()
  | .fetch id => do
    let _ ← c.getEdge id
    pure ()

/-- A refusal is an answer; a panic is none. -/
def dynSettle {α : Type} : Except DynFailure α × DynGraph Keyspace →
    Except Panic (Except String α × DynGraph Keyspace)
  | (.ok a, d) => .ok (.ok a, d)
  | (.error (.refused text), d) => .ok (.error text, d)
  | (.error (.panic p), _) => .error p

/-- Both forms take the step. -/
def twinStep (g : GraphEncode Unit) (c : DynSchema) (p : Pair) (op : TwinOp) :
    Except Panic ((Except Error Unit × Except String Unit) × Pair) := do
  let (answer, s) ← settle (g.twin op p.declared)
  let (answer', d) ← dynSettle (c.twin op p.dynamic)
  pure ((answer, answer'), ⟨s, d⟩)

/-- What both forms answered, step by step. -/
abbrev TwinPast := List (TwinOp × (Except Error Unit × Except String Unit))

namespace BareDecl

variable (b : BareDecl)

/-- One step of both forms of the declaration. -/
def step (p : Pair) (op : TwinOp) :
    Except Panic ((Except Error Unit × Except String Unit) × Pair) :=
  twinStep b.declared b.dynamic p op

/-- **The condition on a step**: an edge is linked under an id that has none, between keys
that are read back. -/
def Meets (_ : TwinPast) (p : Pair) : TwinOp → Prop
  | .link edge id => edge.src.Readable ∧ edge.dst.Readable ∧
    p.declared.store.get (b.declared.primaryKey id) = none
  | _ => True

end BareDecl

/-! ## The invariant -/

/-- Every key but the attribute segments of ids without an edge. -/
def Settled (b : BareDecl) (rows : UInt64 → Option (EdgeRow Unit)) : Set Bytes :=
  {k | ∀ id, rows id = none → k ≠ b.declared.dynamicKey id}

/-- **The two forms are in step.** -/
structure Twins (b : BareDecl) (p : Pair) (rows : UInt64 → Option (EdgeRow Unit))
    (labels names : List String) : Prop where
  declared : CacheSound .u16 predicateVocab b.declared.ns p.declared.vocab p.declared.store.get
    labels
  dynamic : CacheSound .u16 predicateVocab b.declared.ns p.dynamic.predicates
    p.dynamic.store.get labels
  declaredNames : Encodes .u16 fieldVocab b.declared.ns p.declared.store.get names
  dynamicNames : CacheSound .u16 fieldVocab b.declared.ns p.dynamic.fields p.dynamic.store.get names
  edges : EdgesInv b.declared p.declared.store.get rows
  rowsOk : ∀ id row, rows id = some row → RowOk b.declared labels id row
  agree : Set.EqOn p.declared.store.get p.dynamic.store.get (Settled b rows)
  quiet : ∀ id, rows id = none → p.dynamic.store.get (b.declared.dynamicKey id) = none

variable {b : BareDecl} {p p' : Pair} {rows : UInt64 → Option (EdgeRow Unit)}
  {labels labels' names names' : List String} {id : UInt64}

theorem settled_of_slot {s : Slot} (hs : s ≠ dynamicSlot) (sfx : Bytes) :
    faceKey b.declared.ns s sfx ∈ Settled b rows := fun _ _ =>
  faceKey_ne_of_slot hs _ _

theorem settled_of_row {row : EdgeRow Unit} (hrow : rows id = some row) :
    b.declared.dynamicKey id ∈ Settled b rows := by
  intro other hnone heq
  have hid : id = other := idBe_inj ((faceKey_inj _ _ _ _ _).mp heq).2
  rw [← hid, hrow] at hnone
  cases hnone

/-- The segment of one more id is settled, or is its own. -/
theorem settled_update {row : Option (EdgeRow Unit)} {k : Bytes}
    (hk : k ∈ Settled b (Function.update rows id row)) (hne : k ≠ b.declared.dynamicKey id) :
    k ∈ Settled b rows := by
  intro other hnone heq
  by_cases hid : other = id
  · exact hne (by rw [heq, hid])
  · exact hk other (by rw [Function.update_of_ne hid, hnone]) heq

/-- Vocabularies that grow leave the rest in step. -/
theorem Twins.grow (h : Twins b p rows labels names) {V : Slot → Prop}
    (hV : ∀ s, V s → predicateVocab.Slots s ∨ fieldVocab.Slots s)
    (honly : OnlyUnder b.declared.ns V p.declared.store.get p'.declared.store.get)
    (honly' : OnlyUnder b.declared.ns V p.dynamic.store.get p'.dynamic.store.get)
    (hlabels : labels <+: labels')
    (hdeclared : CacheSound .u16 predicateVocab b.declared.ns p'.declared.vocab
      p'.declared.store.get labels')
    (hdynamic : CacheSound .u16 predicateVocab b.declared.ns p'.dynamic.predicates
      p'.dynamic.store.get labels')
    (hnames : Encodes .u16 fieldVocab b.declared.ns p'.declared.store.get names')
    (hnames' : CacheSound .u16 fieldVocab b.declared.ns p'.dynamic.fields p'.dynamic.store.get
      names')
    (hagree : Set.EqOn p'.declared.store.get p'.dynamic.store.get (Settled b rows)) :
    Twins b p' rows labels' names' where
  declared := hdeclared
  dynamic := hdynamic
  declaredNames := hnames
  dynamicNames := hnames'
  edges := h.edges.frame honly fun s hs => Or.inr (b.declared.not_edgeSlot_vocab (hV s hs))
  rowsOk id row hrow := (h.rowsOk id row hrow).grow hlabels
  agree := hagree
  quiet id hnone := by
    have hslot : ¬ V dynamicSlot := fun hs =>
      b.declared.not_edgeSlot_vocab (hV _ hs) (Or.inr (Or.inl rfl))
    rw [GraphEncode.dynamicKey, honly'.at_slot hslot]
    exact h.quiet id hnone

theorem predicate_not_field (s : Slot) (hs : predicateVocab.Slots s) : ¬ fieldVocab.Slots s := by
  intro hf
  rcases hs with rfl | rfl <;> rcases hf with heq | heq <;> exact absurd heq (by decide)

/-! ## The parts of a link -/

/-- Both forms check the members alike. -/
theorem checkMembers_both (b : BareDecl) (src dst : NodeRef) :
    (b.declared.checkMembers src dst = .ok () ∧ b.dynamic.checkMembers src dst = .ok () ∧
      src.ns ∈ b.declared.members ∧ dst.ns ∈ b.declared.members) ∨
    ∃ e text, b.declared.checkMembers src dst = .error e ∧
      b.dynamic.checkMembers src dst = .error text := by
  have hmembers : b.dynamic.members = b.declared.members := rfl
  have hnamed : b.dynamic.members ≠ [] := b.named
  unfold DynSchema.checkMembers GraphEncode.checkMembers
  rw [if_neg hnamed, hmembers]
  by_cases hsrc : src.ns ∉ b.declared.members
  · rw [if_pos hsrc, if_pos hsrc]
    exact Or.inr ⟨_, _, rfl, rfl⟩
  · rw [if_neg hsrc, if_neg hsrc]
    by_cases hdst : dst.ns ∉ b.declared.members
    · rw [if_pos hdst, if_pos hdst]
      exact Or.inr ⟨_, _, rfl, rfl⟩
    · rw [if_neg hdst, if_neg hdst]
      exact Or.inl ⟨rfl, rfl, not_not.mp hsrc, not_not.mp hdst⟩

/-- **Both forms number a predicate alike.** -/
theorem Twins.predicate (h : Twins b p rows labels names) (predicate : String) :
    ∃ p' labels', Twins b p' rows labels' names ∧
      ((∃ e text, b.declared.predicateVocabId predicate p.declared
          = (.error (.refused e), p'.declared) ∧
        b.dynamic.predicateVocabId predicate p.dynamic = (.error (.refused text), p'.dynamic)) ∨
      ∃ found, labels'[found]? = some predicate ∧
        b.declared.predicateVocabId predicate p.declared = (.ok found, p'.declared) ∧
        b.dynamic.predicateVocabId predicate p.dynamic = (.ok found, p'.dynamic)) := by
  have honly := (idFor_onlyUnder .u16 p.declared.vocab p.declared.store b.declared.ns predicate).2
  have honly' := (idFor_onlyUnder .u16 p.dynamic.predicates p.dynamic.store b.declared.ns
    predicate).2
  rw [h.declared.faces_eq] at honly
  rw [h.dynamic.faces_eq] at honly'
  have hread : CacheSound .u16 predicateVocab b.declared.ns p.declared.vocab
    (LawfulStorage.read p.declared.store) labels := h.declared
  have hread' : CacheSound .u16 predicateVocab b.declared.ns p.dynamic.predicates
    (LawfulStorage.read p.dynamic.store) labels := h.dynamic
  obtain ⟨verdict, next, next', s', t', labels', ops, heq, heq', hnext, hnext', hgrown, hfound,
    hs', ht'⟩ := idFor_both hread hread' predicate
  rw [heq] at honly
  rw [heq'] at honly'
  have hagree : Set.EqOn s'.get t'.get (Settled b rows) := by
    have hwritten := eqOn_written h.agree ops
    rwa [show s'.get = written ops p.declared.store.get from hs',
      show t'.get = written ops p.dynamic.store.get from ht']
  have hnames : Encodes .u16 fieldVocab b.declared.ns s'.get names :=
    h.declaredNames.congr
      (fun sfx => honly.at_slot (fun hp => predicate_not_field _ hp (Or.inl rfl)) sfx)
      (fun sfx => honly.at_slot (fun hp => predicate_not_field _ hp (Or.inr rfl)) sfx)
  have hnames' : CacheSound .u16 fieldVocab b.declared.ns p.dynamic.fields t'.get names :=
    h.dynamicNames.frame honly' fun s hs hp => predicate_not_field s hp hs
  refine ⟨⟨⟨s', next⟩, ⟨t', next', p.dynamic.fields⟩⟩, labels',
    h.grow (fun s hs => Or.inl hs) honly honly' hgrown hnext hnext' hnames hnames' hagree, ?_⟩
  unfold GraphEncode.predicateVocabId DynSchema.predicateVocabId
  have hns : b.dynamic.header = b.declared.ns := rfl
  rw [hns, heq, heq']
  cases verdict with
  | error e => exact Or.inl ⟨e, errorText e, rfl, rfl⟩
  | ok found => exact Or.inr ⟨found, hfound found rfl, rfl, rfl⟩

/-- Between two moments of encoding attributes: both caches are sound for one list, the
stores agree where they did, and only the field vocabularies grew. -/
def AttrRel (b : BareDecl) (p : Pair) (A : Set Bytes) (x y : VocabCache × Keyspace) : Prop :=
  (∃ names, CacheSound .u16 fieldVocab b.declared.ns x.1 x.2.get names ∧
    CacheSound .u16 fieldVocab b.declared.ns y.1 y.2.get names) ∧
  Set.EqOn x.2.get y.2.get A ∧
  OnlyUnder b.declared.ns fieldVocab.Slots p.declared.store.get x.2.get ∧
  OnlyUnder b.declared.ns fieldVocab.Slots p.dynamic.store.get y.2.get

theorem related_attributeId (b : BareDecl) (p : Pair) (A : Set Bytes) (name : String) :
    Related (AttrRel b p A) (attributeId (σ := Keyspace) b.declared.ns name)
      (attributeId (σ := Keyspace) b.declared.ns name) := by
  intro x y hrel
  obtain ⟨cache, store⟩ := x
  obtain ⟨cache', store'⟩ := y
  obtain ⟨⟨names, hx, hy⟩, hagree, hgrown, hgrown'⟩ := hrel
  have honly := (idFor_onlyUnder .u16 cache store b.declared.ns name).2
  have honly' := (idFor_onlyUnder .u16 cache' store' b.declared.ns name).2
  rw [hx.faces_eq] at honly
  rw [hy.faces_eq] at honly'
  have hread : CacheSound .u16 fieldVocab b.declared.ns cache (LawfulStorage.read store) names := hx
  have hread' : CacheSound .u16 fieldVocab b.declared.ns cache' (LawfulStorage.read store') names :=
    hy
  obtain ⟨verdict, next, next', s', t', names', ops, heq, heq', hnext, hnext', -, -, hs', ht'⟩ :=
    idFor_both hread hread' name
  rw [heq] at honly
  rw [heq'] at honly'
  have hwritten : Set.EqOn s'.get t'.get A := by
    have hw := eqOn_written hagree ops
    rwa [show s'.get = written ops store.get from hs', show t'.get = written ops store'.get from ht']
  have hrel' : AttrRel b p A (next, s') (next', t') :=
    ⟨⟨names', hnext, hnext'⟩, hwritten, hgrown.trans honly, hgrown'.trans honly'⟩
  unfold attributeId
  dsimp only
  rw [heq, heq']
  cases verdict with
  | error e => exact ⟨rfl, hrel'⟩
  | ok found => exact ⟨rfl, hrel'⟩

/-- What a segment of these frames adds to a batch: nothing where there are none. -/
def segmentPut (b : BareDecl) (id : UInt64) (wire : Bytes) : List (Op Bytes Bytes) :=
  if wire = [] then [] else [(b.declared.dynamicKey id, some wire)]

/-- **Both forms encode attributes alike.** -/
theorem Twins.attributes (h : Twins b p rows labels names)
    (fields : SortedMap String DynamicValue) (batch : Batch) (id : UInt64) :
    ∃ p' names', Twins b p' rows labels names' ∧
      ((∃ e text, b.declared.replaceInto batch id fields p.declared
          = (.error (.refused e), p'.declared) ∧
        b.dynamic.attrsWire fields p.dynamic = (.error (.refused text), p'.dynamic)) ∨
      ∃ wire, b.declared.replaceInto batch id fields p.declared
          = (.ok ⟨batch.ops ++ [(b.declared.dynamicKey id, none)] ++ segmentPut b id wire⟩,
            p'.declared) ∧
        b.dynamic.attrsWire fields p.dynamic = (.ok wire, p'.dynamic)) := by
  by_cases hempty : fields.entries = []
  · refine ⟨p, names, h, Or.inr ⟨[], ?_, ?_⟩⟩
    · rw [GraphEncode.replaceInto, if_pos hempty, segmentPut, if_pos rfl, List.append_nil]
      rfl
    · rw [DynSchema.attrsWire, hempty]
      rfl
  · -- both forms intern the names in one order, each through its own cache
    have hstart : AttrRel b p (Settled b rows) ({ faces := fieldVocab }, p.declared.store)
        (p.dynamic.fields, p.dynamic.store) :=
      ⟨⟨names, CacheSound.fresh h.declaredNames, h.dynamicNames⟩, h.agree, OnlyUnder.refl _,
        OnlyUnder.refl _⟩
    obtain ⟨hanswer, hrel⟩ := related_putFramesNamed
      (related_attributeId b p (Settled b rows)) fields.entries _ _ hstart
    cases hx : putFramesNamed (attributeId (σ := Keyspace) b.declared.ns) fields.entries
        ({ faces := fieldVocab }, p.declared.store) with
    | mk verdict x =>
      cases hy : putFramesNamed (attributeId (σ := Keyspace) b.declared.ns) fields.entries
          (p.dynamic.fields, p.dynamic.store) with
      | mk verdict' y =>
        obtain ⟨cache, store⟩ := x
        obtain ⟨cache', store'⟩ := y
        rw [hx, hy] at hanswer hrel
        obtain ⟨⟨names', hnames, hnames'⟩, hagree, honly, honly'⟩ := hrel
        dsimp only at hanswer
        subst hanswer
        -- what was interned lies in the attribute names of both
        have hgrown : Twins b ⟨⟨store, p.declared.vocab⟩,
            ⟨store', p.dynamic.predicates, cache'⟩⟩ rows labels names' :=
          h.grow (fun s hs => Or.inr hs) honly honly' (List.prefix_refl labels)
            (h.declared.frame honly fun s hs hf => predicate_not_field s hs hf)
            (h.dynamic.frame honly' fun s hs hf => predicate_not_field s hs hf)
            hnames.encodes hnames' hagree
        refine ⟨_, names', hgrown, ?_⟩
        have hbytes : putFramesNamed (b.declared.fieldId (σ := Keyspace)) fields.entries
            ({ faces := fieldVocab }, p.declared.store) = (verdict, cache, store) := hx
        have hwire : putFramesNamed (attributeId (σ := Keyspace) b.dynamic.header) fields.entries
            (p.dynamic.fields, p.dynamic.store) = (verdict, cache', store') := hy
        rw [GraphEncode.replaceInto, if_neg hempty, DynSchema.attrsWire, hwire]
        cases verdict with
        | error e =>
          have hstop : b.declared.attributeBytes fields p.declared
              = (.error (.refused e), ⟨store, p.declared.vocab⟩) := by
            rw [GraphEncode.attributeBytes, hbytes]
          refine Or.inl ⟨e, errorText e, ?_, rfl⟩
          rw [run_bind, hstop]
        | ok wire =>
          have hbody : b.declared.attributeBytes fields p.declared
              = (.ok wire, ⟨store, p.declared.vocab⟩) := by
            rw [GraphEncode.attributeBytes, hbytes]
          refine Or.inr ⟨wire, ?_, rfl⟩
          rw [segmentPut, if_neg (putFramesNamed_ne_nil hempty hx)]
          exact run_bind_of_ok hbody

end Okm.Model
