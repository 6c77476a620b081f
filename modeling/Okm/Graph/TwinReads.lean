import Okm.Graph.EdgeReads
import Okm.Graph.TwinRun

/-!
# Both forms answer alike

In step, the two stores agree under every face, the two predicate caches know one list, and
the segments of the edges are the same bytes read through the same names. So every
traversal finds the same ids, and an edge is described alike: its endpoints, the name of
its predicate, its attributes.
-/

namespace Okm.Model

open Lib VirtualStorage Engine

variable {b : BareDecl} {p p' : Pair} {rows : UInt64 → Option (EdgeRow Unit)}
  {labels names : List String} {id : UInt64}

/-! ## Traversals -/

/-- Both forms answer these ids. -/
def SameIds (p : Pair) (x : GraphVerb Keyspace (List UInt64)) (y : DynVerb Keyspace (List UInt64)) :
    Prop :=
  ∃ ids, (x p.declared).1 = .ok ids ∧ (y p.dynamic).1 = .ok ids

/-- Both stores are scanned alike under a face. -/
theorem Twins.suffixes (h : Twins b p rows labels names) {slot : Slot} (hslot : slot ≠ dynamicSlot)
    (pfx : Bytes) : p.declared.store.suffixes (faceKey b.declared.ns slot pfx)
      = p.dynamic.store.suffixes (faceKey b.declared.ns slot pfx) := by
  refine Keyspace.suffixes_congr fun sfx => ?_
  have happ : faceKey b.declared.ns slot pfx ++ sfx = faceKey b.declared.ns slot (pfx ++ sfx) := by
    rw [faceKey, faceKey, List.append_assoc]
  rw [happ]
  exact h.agree (settled_of_slot hslot _)

/-- A scan below a prefix of a face, cut to ids. -/
theorem Twins.scan (h : Twins b p rows labels names) {slot : Slot} (hslot : slot ≠ dynamicSlot)
    (pfx : Bytes) (ids : List Bytes → List UInt64) :
    SameIds p (look fun store => (scanSuffix store (faceKey b.declared.ns slot pfx)).map ids)
      (dynLook fun store => (scanSuffix store (faceKey b.declared.ns slot pfx)).map ids) := by
  refine ⟨ids (p.declared.store.suffixes (faceKey b.declared.ns slot pfx)), rfl, ?_⟩
  rw [h.suffixes hslot]
  rfl

/-- **Both forms know the number of a predicate, or neither does.** -/
theorem Twins.predicateGet (h : Twins b p rows labels names) (predicate : String) :
    ∃ found p', Twins b p' rows labels names ∧
      p'.declared.store = p.declared.store ∧ p'.dynamic.store = p.dynamic.store ∧
      b.declared.predicateGet predicate p.declared = (.ok found, p'.declared) ∧
      b.dynamic.predicateGet predicate p.dynamic = (.ok found, p'.dynamic) := by
  have hread : CacheSound .u16 predicateVocab b.declared.ns p.declared.vocab
    (LawfulStorage.read p.declared.store) labels := h.declared
  have hread' : CacheSound .u16 predicateVocab b.declared.ns p.dynamic.predicates
    (LawfulStorage.read p.dynamic.store) labels := h.dynamic
  obtain ⟨found, next, heq, hnext, hsome, hnone⟩ := idGet_sound hread predicate
  obtain ⟨found', next', heq', hnext', hsome', hnone'⟩ := idGet_sound hread' predicate
  have hsame : found = found' := by
    cases found with
    | none =>
      cases found' with
      | none => rfl
      | some i => exact absurd (List.mem_of_getElem? (hsome' i rfl)) (hnone rfl)
    | some i =>
      have hi := hsome i rfl
      cases found' with
      | none => exact absurd (List.mem_of_getElem? hi) (hnone' rfl)
      | some j =>
        have hlt := (List.getElem?_eq_some_iff.mp hi).1
        have hij : i = j := (List.getElem?_inj hlt h.declared.encodes.nodup).mp
          (hi.trans (hsome' j rfl).symm)
        rw [hij]
  subst hsame
  refine ⟨found, ⟨⟨p.declared.store, next⟩, ⟨p.dynamic.store, next', p.dynamic.fields⟩⟩,
    { h with declared := hnext, dynamic := hnext' }, rfl, rfl, ?_, ?_⟩
  · rw [GraphEncode.predicateGet, heq]
  · rw [DynSchema.predicateGet]
    have hns : b.dynamic.header = b.declared.ns := rfl
    rw [hns, heq']

/-- **A read qualified by a predicate.** -/
theorem Twins.typedScan (h : Twins b p rows labels names) {slot : Slot} (hslot : slot ≠ dynamicSlot)
    (predicate : String) (rest : Bytes) (ids : List Bytes → List UInt64) :
    SameIds p (b.declared.typedScan slot predicate rest ids)
      (b.dynamic.typedScan slot predicate rest ids) := by
  obtain ⟨found, q, hq, -, -, heq, heq'⟩ := h.predicateGet predicate
  unfold SameIds
  rw [GraphEncode.typedScan, DynSchema.typedScan, run_bind_of_ok heq, run_bind_of_ok heq']
  cases found with
  | none => exact ⟨[], rfl, rfl⟩
  | some number => exact hq.scan hslot _ ids

/-- The traversals both forms have. -/
structure SameTraversals (b : BareDecl) (p : Pair) : Prop where
  outEdges : ∀ src, SameIds p (b.declared.outEdges src) (b.dynamic.outEdges src)
  inEdges : ∀ dst, SameIds p (b.declared.inEdges dst) (b.dynamic.inEdges dst)
  outEdgesTo : ∀ src dst, SameIds p (b.declared.outEdgesTo src dst) (b.dynamic.outEdgesTo src dst)
  inEdgesFrom : ∀ dst src,
    SameIds p (b.declared.inEdgesFrom dst src) (b.dynamic.inEdgesFrom dst src)
  typedOut : ∀ predicate src,
    SameIds p (b.declared.typedOut predicate src) (b.dynamic.typedOut predicate src)
  typedIn : ∀ predicate dst,
    SameIds p (b.declared.typedIn predicate dst) (b.dynamic.typedIn predicate dst)
  typedOutTo : ∀ predicate src dst,
    SameIds p (b.declared.typedOutTo predicate src dst) (b.dynamic.typedOutTo predicate src dst)
  edgesOfPredicate : ∀ predicate,
    SameIds p (b.declared.edgesOfPredicate predicate) (b.dynamic.edgesOfPredicate predicate)

theorem Twins.traversals (h : Twins b p rows labels names) : SameTraversals b p where
  outEdges _ := h.scan (by decide) _ _
  inEdges _ := h.scan (by decide) _ _
  outEdgesTo _ _ := h.scan (by decide) _ _
  inEdgesFrom _ _ := h.scan (by decide) _ _
  typedOut _ _ := h.typedScan (by decide) _ _ _
  typedIn _ _ := h.typedScan (by decide) _ _ _
  typedOutTo _ _ _ := h.typedScan (by decide) _ _ _
  edgesOfPredicate _ := h.typedScan (by decide) _ _ _

/-! ## Describing an edge -/

/-- Both forms describe the id alike: no edge, or the same endpoints, the name the stored
number has, and the attributes the segment holds. -/
def SameEdge (b : BareDecl) (p : Pair) (id : UInt64) : Prop :=
  ((b.declared.getEdge id p.declared).1 = .ok none ∧
    (b.dynamic.getEdge id p.dynamic).1 = .ok none) ∨
  ∃ (body : EdgeBody) (edge : DynEdge) (attrs : Option (SortedMap String DynamicValue)),
    (b.declared.getEdge id p.declared).1 = .ok (some body) ∧
    (b.dynamic.getEdge id p.dynamic).1 = .ok (some edge) ∧
    body.src = edge.src ∧ body.dst = edge.dst ∧
    (b.declared.predicateVocabName body.predicateVocabId p.declared).1
      = .ok (some edge.predicate) ∧
    (b.declared.attrs id p.declared).1 = .ok attrs ∧ attrs.getD SortedMap.empty = edge.attrs

/-- The names the declared form reads attributes through. -/
theorem Twins.fieldName (h : Twins b p rows labels names) (i : UInt16) :
    b.declared.fieldName p.declared.store i = names[i.toNat]? := by
  have hfresh : CacheSound .u16 fieldVocab b.declared.ns { faces := fieldVocab }
    (LawfulStorage.read p.declared.store) names := CacheSound.fresh h.declaredNames
  have hlt : i.toNat < 256 ^ VocabId.u16.width := i.toNat_lt
  obtain ⟨next, heq, -⟩ := nameFor_sound hfresh hlt
  rw [GraphEncode.fieldName, heq]

/-- The names the dynamic form reads attributes through. -/
theorem Twins.dynFieldName (h : Twins b p rows labels names) (i : UInt16) :
    b.dynamic.fieldName p.dynamic i = names[i.toNat]? := by
  have hread : CacheSound .u16 fieldVocab b.declared.ns p.dynamic.fields
    (LawfulStorage.read p.dynamic.store) names := h.dynamicNames
  have hlt : i.toNat < 256 ^ VocabId.u16.width := i.toNat_lt
  obtain ⟨next, heq, -⟩ := nameFor_sound hread hlt
  have hns : b.dynamic.header = b.declared.ns := rfl
  rw [DynSchema.fieldName, hns, heq]

/-- **The attributes of an edge read alike.** -/
theorem Twins.attrs (h : Twins b p rows labels names) {row : EdgeRow Unit}
    (hrow : rows id = some row) :
    ∃ attrs, b.declared.attrs id p.declared = (.ok attrs, p.declared) ∧
      b.dynamic.storedAttrs id p.dynamic = (.ok (attrs.getD SortedMap.empty), p.dynamic) := by
  have hnames : b.declared.fieldName p.declared.store = b.dynamic.fieldName p.dynamic :=
    funext fun i => (h.fieldName i).trans (h.dynFieldName i).symm
  have hraw : p.declared.store.get (b.declared.dynamicKey id)
      = p.dynamic.store.get (b.declared.dynamicKey id) := h.agree (settled_of_row hrow)
  have hget : get p.declared.store (b.declared.dynamicKey id)
      = .ok (p.dynamic.store.get (b.declared.dynamicKey id)) := congrArg Except.ok hraw
  have hget' : get p.dynamic.store (b.dynamic.fieldsKey id)
      = .ok (p.dynamic.store.get (b.declared.dynamicKey id)) := rfl
  refine ⟨(p.dynamic.store.get (b.declared.dynamicKey id)).bind
    (b.declared.attributeMap p.declared.store), ?_, ?_⟩
  · rw [GraphEncode.attrs, look, hget]
    rfl
  · rw [DynSchema.storedAttrs, hget']
    cases p.dynamic.store.get (b.declared.dynamicKey id) with
    | none => rfl
    | some raw =>
      rw [Option.bind_some, GraphEncode.attributeMap, hnames]
      by_cases hempty : (decodeNamed (b.dynamic.fieldName p.dynamic) raw).isEmpty = true
      · rw [if_pos hempty]
        have hframes : decodeNamed (b.dynamic.fieldName p.dynamic) raw = [] :=
          List.isEmpty_iff.mp hempty
        have hmap : b.dynamic.attrsFrom p.dynamic raw = SortedMap.empty := by
          rw [DynSchema.attrsFrom, hframes]
          rfl
        simp only [Except.mapError, Except.map, Option.map_some, Option.getD_some, hmap,
          Option.getD_none, dynAnswer_ok]
      · rw [if_neg hempty]
        rfl

/-- What the declared form answers for an edge. -/
theorem Twins.getEdge_row (h : Twins b p rows labels names) {row : EdgeRow Unit}
    (hrow : rows id = some row) :
    b.declared.getEdge id p.declared = (.ok (some (b.declared.body row)), p.declared) := by
  have hok := h.rowsOk id row hrow
  have hlook : look (fun store => get store (b.declared.primaryKey id)) p.declared
      = (.ok (some (b.declared.body row).encode), p.declared) := by
    rw [look, show get p.declared.store (b.declared.primaryKey id)
      = .ok (some (b.declared.body row).encode) from congrArg Except.ok (h.edges.stored hrow)]
    rfl
  have hdecode : decodeBody (b.declared.body row).encode = .ok (b.declared.body row) :=
    decodeBody_encode hok.link.src hok.link.dst (h.declared.encodes.index_lt hok.named)
  have hmembers : b.declared.checkMembers (b.declared.body row).src (b.declared.body row).dst
      = .ok () := checkMembers_of_mem hok.src hok.dst
  rw [GraphEncode.getEdge, run_bind_of_ok hlook]
  dsimp only
  rw [hdecode, run_bind_of_ok (unwrap_ok _ _), hmembers]
  rfl

/-- **What the dynamic form answers for an edge**; its predicate cache learns the name. -/
theorem Twins.dynGetEdge_row (h : Twins b p rows labels names) {row : EdgeRow Unit}
    (hrow : rows id = some row) :
    ∃ attrs q, b.dynamic.getEdge id p.dynamic
        = (.ok (some ⟨row.head.src, row.head.dst, row.head.predicate, attrs.getD SortedMap.empty⟩),
          q.dynamic) ∧
      b.declared.attrs id p.declared = (.ok attrs, p.declared) ∧
      q.declared = p.declared ∧ Twins b q rows labels names := by
  have hok := h.rowsOk id row hrow
  have hpred := h.declared.encodes.index_lt hok.named
  have hcut : (b.declared.body row).Cut := EdgeBody.cut hok.link.src hok.link.dst hpred
  have hread : CacheSound .u16 predicateVocab b.declared.ns p.dynamic.predicates
    (LawfulStorage.read p.dynamic.store) labels := h.dynamic
  -- the name of the predicate comes through the cache, which may grow
  obtain ⟨next, hname, hnext⟩ := nameFor_sound hread hpred
  have hq : Twins b ⟨p.declared, ⟨p.dynamic.store, next, p.dynamic.fields⟩⟩ rows labels names :=
    { h with dynamic := hnext }
  obtain ⟨attrs, hattrs, hattrs'⟩ := hq.attrs hrow
  refine ⟨attrs, ⟨p.declared, ⟨p.dynamic.store, next, p.dynamic.fields⟩⟩, ?_, hattrs, rfl, hq⟩
  have hcheck : b.dynamic.checkMembers row.head.src row.head.dst = .ok () := by
    rcases checkMembers_both b row.head.src row.head.dst with ⟨-, hok', -⟩ | ⟨e, text, hbad, -⟩
    · exact hok'
    · rw [checkMembers_of_mem hok.src hok.dst] at hbad
      cases hbad
  have hpredicate : b.dynamic.predicateName row.predicate p.dynamic
      = (.ok (some row.head.predicate), ⟨p.dynamic.store, next, p.dynamic.fields⟩) := by
    have hns : b.dynamic.header = b.declared.ns := rfl
    rw [DynSchema.predicateName, hns, hname, hok.named]
  -- the body is cut where the declared form cuts it
  have hsrc : NodeRef.decode (b.declared.body row).encode
      = .ok (some (row.head.src, row.head.src.encode.length)) := hcut.src
  have hdst : NodeRef.decode ((b.declared.body row).encode.drop row.head.src.encode.length)
      = .ok (some (row.head.dst, row.head.dst.encode.length)) := hcut.dst
  have hnumber : (if (b.declared.body row).encode.length
        < row.head.src.encode.length + row.head.dst.encode.length + 2 then Except.error Panic.slice
      else Except.ok (beNat (((b.declared.body row).encode.drop
        (row.head.src.encode.length + row.head.dst.encode.length)).take 2)))
      = Except.ok row.predicate := by
    have hlong : ¬ (b.declared.body row).encode.length
      < row.head.src.encode.length + row.head.dst.encode.length + 2 := hcut.long
    rw [if_neg hlong]
    exact congrArg Except.ok hcut.number
  rw [DynSchema.getEdge, run_bind_of_ok (h.dynLook_primary id (h.edges.stored hrow))]
  dsimp only
  rw [hsrc, run_bind_of_ok (dynUnwrap_ok _ _)]
  dsimp only
  rw [hdst, run_bind_of_ok (dynUnwrap_ok _ _)]
  dsimp only
  rw [DynSchema.describe, hcheck]
  dsimp only
  rw [hnumber, run_bind_of_ok (dynUnwrap_ok _ _), run_bind_of_ok hpredicate]
  dsimp only
  exact run_bind_of_ok hattrs'

/-- What both forms answer for an id without an edge. -/
theorem Twins.getEdge_none (h : Twins b p rows labels names) (hnone : rows id = none) :
    b.declared.getEdge id p.declared = (.ok none, p.declared) ∧
      b.dynamic.getEdge id p.dynamic = (.ok none, p.dynamic) := by
  have hstored := h.edges.not_stored hnone
  have hlook : look (fun store => get store (b.declared.primaryKey id)) p.declared
      = (.ok none, p.declared) := by
    rw [look, show get p.declared.store (b.declared.primaryKey id) = .ok none from
      congrArg Except.ok hstored]
    rfl
  constructor
  · rw [GraphEncode.getEdge, run_bind_of_ok hlook]
    rfl
  · rw [DynSchema.getEdge, run_bind_of_ok (h.dynLook_primary id hstored)]
    rfl

/-- **Every id is described alike.** -/
theorem Twins.sameEdge (h : Twins b p rows labels names) (id : UInt64) : SameEdge b p id := by
  cases hrow : rows id with
  | none =>
    obtain ⟨heq, heq'⟩ := h.getEdge_none hrow
    exact Or.inl ⟨by rw [heq], by rw [heq']⟩
  | some row =>
    obtain ⟨attrs, q, heq', hattrs, -, -⟩ := h.dynGetEdge_row hrow
    have hok := h.rowsOk id row hrow
    have hread : CacheSound .u16 predicateVocab b.declared.ns p.declared.vocab
      (LawfulStorage.read p.declared.store) labels := h.declared
    obtain ⟨next, hname, -⟩ := nameFor_sound hread (h.declared.encodes.index_lt hok.named)
    refine Or.inr ⟨b.declared.body row, _, attrs, by rw [h.getEdge_row hrow], by rw [heq'], rfl, rfl,
      ?_, by rw [hattrs], rfl⟩
    have hnumber : (b.declared.body row).predicateVocabId = row.predicate := rfl
    rw [GraphEncode.predicateVocabName, hnumber, hname, hok.named]

/-! ## Every run -/

theorem advance_ask (h : Twins b p rows labels names) (predicate : String) :
    TwinsAdvance b p (.ask predicate) := by
  obtain ⟨found, q, hq, -, -, heq, heq'⟩ := h.predicateGet predicate
  refine advance_ok hq ?_ ?_
  · rw [GraphEncode.twin, run_bind_of_ok heq]
    rfl
  · rw [DynSchema.twin, run_bind_of_ok heq']
    rfl

theorem advance_fetch (h : Twins b p rows labels names) (id : UInt64) :
    TwinsAdvance b p (.fetch id) := by
  cases hrow : rows id with
  | none =>
    obtain ⟨heq, heq'⟩ := h.getEdge_none hrow
    refine advance_ok h ?_ ?_
    · rw [GraphEncode.twin, run_bind_of_ok heq]
      rfl
    · rw [DynSchema.twin, run_bind_of_ok heq']
      rfl
  | some row =>
    obtain ⟨attrs, q, heq', -, hdeclared, hq⟩ := h.dynGetEdge_row hrow
    refine advance_ok hq ?_ ?_
    · rw [GraphEncode.twin, run_bind_of_ok (h.getEdge_row hrow), hdeclared]
      rfl
    · rw [DynSchema.twin, run_bind_of_ok heq']
      rfl

/-- **Every step that meets its condition** is answered or refused by both forms. -/
theorem twins_advance (h : Twins b p rows labels names) {past : TwinPast} {op : TwinOp}
    (hmeets : b.Meets past p op) : TwinsAdvance b p op := by
  cases op with
  | link edge id =>
    obtain ⟨hsrc, hdst, hfree⟩ := hmeets
    exact advance_link h hsrc hdst hfree
  | unlink id => exact advance_unlink h id
  | ask predicate => exact advance_ask h predicate
  | fetch id => exact advance_fetch h id

/-- Two empty stores are in step. -/
theorem twins_new (b : BareDecl) :
    Twins b (Pair.new SortedMap.empty) (fun _ => none) [] [] where
  declared := CacheSound.fresh (encodes_empty (fun _ => rfl) (fun _ => rfl))
  dynamic := CacheSound.fresh (encodes_empty (fun _ => rfl) (fun _ => rfl))
  declaredNames := encodes_empty (fun _ => rfl) (fun _ => rfl)
  dynamicNames := CacheSound.fresh (encodes_empty (fun _ => rfl) (fun _ => rfl))
  edges :=
    { primary := Represents.empty fun _ => rfl
      faces := fun _ => Represents.empty fun _ => rfl
      declared := fun _ _ _ _ hv => by cases hv }
  rowsOk _ _ hrow := by cases hrow
  agree _ _ := rfl
  quiet _ _ := rfl

/-- The two stores hold the same keys and values, but for the attribute segments of ids
without an edge, of which the dynamic store has none. -/
structure SameStores (b : BareDecl) (p : Pair) : Prop where
  same : ∀ k, (∀ id, p.declared.store.get (b.declared.primaryKey id) = none →
    k ≠ b.declared.dynamicKey id) → p.declared.store.get k = p.dynamic.store.get k
  none : ∀ id, p.declared.store.get (b.declared.primaryKey id) = none →
    p.dynamic.store.get (b.declared.dynamicKey id) = none

theorem Twins.sameStores (h : Twins b p rows labels names) : SameStores b p := by
  have hfree : ∀ id, p.declared.store.get (b.declared.primaryKey id) = none ↔ rows id = none := by
    intro id
    constructor
    · intro hnone
      cases hrow : rows id with
      | none => rfl
      | some row =>
        rw [h.edges.stored hrow] at hnone
        cases hnone
    · exact h.edges.not_stored
  exact ⟨fun k hk => h.agree fun id hnone => hk id ((hfree id).mpr hnone),
    fun id hnone => h.quiet id ((hfree id).mp hnone)⟩

/-- **In every run from an empty store that links ids without an edge**, both forms accept
or refuse every step together; after it the stores hold the same but for segments of ids
without an edge, and every traversal and every edge reads alike. -/
theorem forms_agree {past : TwinPast}
    (run : Trace b.step b.Meets (Pair.new SortedMap.empty) past p) :
    (∀ entry ∈ past, entry.2.1.isOk = entry.2.2.isOk) ∧ SameStores b p ∧ SameTraversals b p ∧
    (∀ id, SameEdge b p id) ∧
    ∀ op, b.Meets past p op → ∃ answer p', b.step p op = .ok (answer, p') := by
  obtain ⟨hpast, rows, labels, names, htwins⟩ := run.invariant
    (fun past p => (∀ entry ∈ past, entry.2.1.isOk = entry.2.2.isOk) ∧
      ∃ rows labels names, Twins b p rows labels names)
    ⟨fun entry hentry => (by cases hentry), fun _ => none, [], [], twins_new b⟩
    (by
      intro past p op answer p' hinv hmeets hstep
      obtain ⟨hpast, rows, labels, names, htwins⟩ := hinv
      obtain ⟨x, y, q, rows', labels', names', hstep', hsame, hq⟩ := twins_advance htwins hmeets
      obtain ⟨rfl, rfl⟩ := Prod.mk.inj (Except.ok.inj (hstep.symm.trans hstep'))
      refine ⟨fun entry hentry => ?_, rows', labels', names', hq⟩
      rcases List.mem_append.mp hentry with hold | hnew
      · exact hpast entry hold
      · obtain rfl := List.mem_singleton.mp hnew
        exact hsame)
  refine ⟨hpast, htwins.sameStores, htwins.traversals, htwins.sameEdge, fun op hmeets => ?_⟩
  obtain ⟨x, y, q, -, -, -, hstep, -, -⟩ := twins_advance htwins hmeets
  exact ⟨_, q, hstep⟩

/-! ## Small runs -/

instance BareDecl.decidableMeets (b : BareDecl) (past : TwinPast) (p : Pair) (op : TwinOp) :
    Decidable (b.Meets past p op) := by
  cases op with
  | link edge id =>
    unfold BareDecl.Meets
    infer_instance
  | _ => exact isTrue trivial

/-- The graph of `friends` in both forms. -/
def pals : BareDecl := ⟨4, [16], by decide⟩

def knowsSince (src dst : UInt8) (since : SortedMap String DynamicValue) : DynEdge :=
  ⟨person src, person dst, "knows", since⟩

def sinceFive : SortedMap String DynamicValue := SortedMap.empty.insert "since" (.uint 5)

/-- An edge is linked with attributes, unlinked, and linked again. -/
def relink : List TwinOp :=
  [.link (knowsSince 1 2 sinceFive) 7, .unlink 7, .link (knowsSince 1 3 SortedMap.empty) 7]

/-- Both forms accept the three steps, and agree after them. -/
theorem forms_agree_relink :
    ∃ (past : TwinPast) (p : Pair), past.length = 3 ∧ (∀ entry ∈ past, entry.2.1.isOk = entry.2.2.isOk) ∧
      SameStores pals p ∧ SameTraversals pals p ∧ ∀ id, SameEdge pals p id := by
  have hsome : ((runChecked pals.step (fun _ p op => decide (pals.Meets [] p op)) []
      (Pair.new SortedMap.empty) relink).map fun run => run.1.length) = some 3 := by
    decide +kernel
  obtain ⟨⟨past, p⟩, hrun, hlen⟩ := Option.map_eq_some_iff.mp hsome
  have run : Trace pals.step pals.Meets (Pair.new SortedMap.empty) past p := by
    refine Trace.nil.runChecked (fun past p op hpass => ?_) hrun
    have hmeets : pals.Meets [] p op := of_decide_eq_true hpass
    cases op with
    | link edge id => exact hmeets
    | _ => trivial
  obtain ⟨hpast, hstores, htraversals, hedge, -⟩ := forms_agree run
  exact ⟨past, p, hlen, hpast, hstores, htraversals, hedge⟩

/-- Whether each form accepted, step by step, and what both stores hold under a key. -/
def outcome (g : GraphEncode Unit) (c : DynSchema) (ops : List TwinOp) (k : Bytes) :
    Option (List (Bool × Bool) × Option Bytes × Option Bytes) :=
  (runAll (twinStep g c) (Pair.new SortedMap.empty) ops).toOption.map fun run =>
    (run.1.map fun entry => (entry.2.1.isOk, entry.2.2.isOk), run.2.declared.store.get k,
      run.2.dynamic.store.get k)

/-- **The forms differ** in three ways: a link of a live id is accepted by the declared form
alone and replaces its row; an unlinked edge keeps its segment on the declared side; and a
declaration of another layout version stamps it in its rows. -/
theorem forms_disagree :
    outcome pals.declared pals.dynamic
        [.link (knowsSince 1 2 SortedMap.empty) 7, .link (knowsSince 1 3 SortedMap.empty) 7]
        (pals.declared.primaryKey 7)
      = some ([(true, true), (true, false)],
          some [0, 16, 1, 1, 0, 16, 1, 3, 0, 0, 1, 0, 0], some [0, 16, 1, 1, 0, 16, 1, 2, 0, 0, 1, 0, 0]) ∧
    outcome pals.declared pals.dynamic [.link (knowsSince 1 2 sinceFive) 7, .unlink 7]
        (pals.declared.dynamicKey 7)
      = some ([(true, true), (true, true)], some [0, 0, 1, 5], none) ∧
    outcome (bareGraph 4 2 [16]) pals.dynamic [.link (knowsSince 1 2 SortedMap.empty) 7]
        (pals.declared.primaryKey 7)
      = some ([(true, true)], some [0, 16, 1, 1, 0, 16, 1, 2, 0, 0, 2, 0, 0],
          some [0, 16, 1, 1, 0, 16, 1, 2, 0, 0, 1, 0, 0]) := by
  refine ⟨?_, ?_, ?_⟩
  · decide +kernel
  · decide +kernel
  · decide +kernel

end Okm.Model
