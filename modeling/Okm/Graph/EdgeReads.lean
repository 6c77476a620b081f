import Okm.Graph.EdgeRun

/-!
# What a graph answers

Every traversal scans one face below one prefix and cuts the id off the end. That is
exact because references delimit themselves: a prefix made of whole references and a
whole predicate number matches the entries of the edges with these endpoints and this
predicate, whatever the widths of the keys, and each edge has one entry on a face.

`graph_faces` puts it together for every run: the reads answer the edges linked and not
unlinked since, and an edge that is gone has left nothing behind.
-/

namespace Okm.Model

open Lib VirtualStorage

/-- These ids, each once. -/
def Exactly (ids : List UInt64) (P : UInt64 → Prop) : Prop := ids.Nodup ∧ ∀ id, id ∈ ids ↔ P id

/-- The read answers exactly these ids. -/
def Answers (read : GraphVerb Keyspace (List UInt64)) (s : Graph Keyspace) (P : UInt64 → Prop) :
    Prop :=
  ∃ ids s', read s = (.ok ids, s') ∧ Exactly ids P

theorem Exactly.congr {ids : List UInt64} {P Q : UInt64 → Prop} (h : Exactly ids P)
    (heq : ∀ id, P id ↔ Q id) : Exactly ids Q :=
  ⟨h.1, fun id => (h.2 id).trans (heq id)⟩

variable {R : Type} {g : GraphEncode R}

/-! ## Scanning a face below a prefix -/

section

variable {store : Keyspace} {rows : UInt64 → Option (EdgeRow R)} {slot : Slot} {p : Bytes}
  {key tail : UInt64 → EdgeRow R → Bytes} {Q : EdgeRow R → Prop}

/-- **A prefix scan of a face** finds the tails of the edges the prefix matches, and the
ids read off the tails are theirs. -/
theorem scan_exact
    (hrep : Represents (fun id row => (key id row, ([] : Bytes))) rows
      fun sfx => store.get (faceKey g.ns slot sfx))
    (hkey : ∀ id row, rows id = some row → ∀ sfx, key id row = p ++ sfx ↔ Q row ∧ sfx = tail id row)
    {keep : Bytes → Bool} {dec : Bytes → UInt64} (hkeep : ∀ id row, keep (tail id row) = true)
    (hdec : ∀ id row, dec (tail id row) = id) :
    Exactly (((store.suffixes (faceKey g.ns slot p)).filter keep).map dec)
      fun id => ∃ row, rows id = some row ∧ Q row := by
  have hmem : ∀ sfx, sfx ∈ store.suffixes (faceKey g.ns slot p) ↔
      ∃ id row, rows id = some row ∧ Q row ∧ sfx = tail id row := by
    intro sfx
    have happ : faceKey g.ns slot p ++ sfx = faceKey g.ns slot (p ++ sfx) := by
      rw [faceKey, faceKey, List.append_assoc]
    rw [Keyspace.mem_suffixes, happ]
    constructor
    · intro h
      obtain ⟨v, hv⟩ := h
      obtain ⟨id, row, hrow, heq⟩ := hrep.owner hv
      have hmatch := (hkey id row hrow sfx).mp (Prod.mk.inj heq).1
      exact ⟨id, row, hrow, hmatch.1, hmatch.2⟩
    · intro h
      obtain ⟨id, row, hrow, hq, hsfx⟩ := h
      have hk := (hkey id row hrow sfx).mpr ⟨hq, hsfx⟩
      exact ⟨[], (hrep _ _).mpr ⟨id, row, hrow, congrArg (·, []) hk⟩⟩
  constructor
  · refine List.Nodup.map_on ?_ ((Keyspace.nodup_suffixes store _).filter _)
    intro a ha b hb hab
    obtain ⟨id, row, hrow, -, rfl⟩ := (hmem a).mp (List.mem_filter.mp ha).1
    obtain ⟨id', row', hrow', -, rfl⟩ := (hmem b).mp (List.mem_filter.mp hb).1
    -- one id has one edge, and one edge one tail
    rw [hdec, hdec] at hab
    subst hab
    rw [hrow] at hrow'
    rw [Option.some.inj hrow']
  · intro id
    constructor
    · intro h
      obtain ⟨sfx, hsfx, rfl⟩ := List.mem_map.mp h
      obtain ⟨id', row, hrow, hq, rfl⟩ := (hmem sfx).mp (List.mem_filter.mp hsfx).1
      rw [hdec]
      exact ⟨row, hrow, hq⟩
    · intro h
      obtain ⟨row, hrow, hq⟩ := h
      refine List.mem_map.mpr ⟨tail id row, List.mem_filter.mpr ⟨?_, hkeep id row⟩, hdec id row⟩
      exact (hmem _).mpr ⟨id, row, hrow, hq, rfl⟩

/-- The id behind one endpoint or more. -/
theorem lastId_append {front : Bytes} (id : UInt64) :
    UInt64.ofNat (beNat ((front ++ idBe id).drop ((front ++ idBe id).length - 8))) = id := by
  have hlen : (front ++ idBe id).length - 8 = front.length := by
    rw [List.length_append, length_idBe]
    omega
  rw [hlen, List.drop_left, ofNat_idBe]

theorem endpoint_exact (front : EdgeRow R → Bytes) (hfront : ∀ row, 0 < (front row).length)
    (hrep : Represents (fun id row => (key id row, ([] : Bytes))) rows
      fun sfx => store.get (faceKey g.ns slot sfx))
    (hkey : ∀ id row, rows id = some row → ∀ sfx,
      key id row = p ++ sfx ↔ Q row ∧ sfx = front row ++ idBe id) :
    Exactly (GraphEncode.idsAfterEndpoint (store.suffixes (faceKey g.ns slot p)))
      fun id => ∃ row, rows id = some row ∧ Q row := by
  refine scan_exact hrep hkey (fun id row => ?_) fun id row => lastId_append id
  have hpos := hfront row
  rw [decide_eq_true_iff, List.length_append, length_idBe]
  omega

theorem pair_exact
    (hrep : Represents (fun id row => (key id row, ([] : Bytes))) rows
      fun sfx => store.get (faceKey g.ns slot sfx))
    (hkey : ∀ id row, rows id = some row → ∀ sfx,
      key id row = p ++ sfx ↔ Q row ∧ sfx = idBe id) :
    Exactly (GraphEncode.idsAfterPair (store.suffixes (faceKey g.ns slot p)))
      fun id => ∃ row, rows id = some row ∧ Q row := by
  refine scan_exact hrep hkey (fun id row => ?_) fun id row => ofNat_idBe id
  rw [decide_eq_true_iff, length_idBe]

end

/-! ## Whole references match whole references -/

theorem ref_match {a node : NodeRef} {t sfx : Bytes} :
    a.encode ++ t = node.encode ++ sfx ↔ a = node ∧ sfx = t := by
  constructor
  · intro h
    obtain ⟨hnode, ht⟩ := NodeRef.encode_inj h
    exact ⟨hnode, ht.symm⟩
  · intro h
    rw [h.1, h.2]

theorem refs_match {a b node node' : NodeRef} {t sfx : Bytes} :
    a.encode ++ (b.encode ++ t) = (node.encode ++ node'.encode) ++ sfx ↔
      (a = node ∧ b = node') ∧ sfx = t := by
  rw [List.append_assoc, ref_match, eq_comm (b := b.encode ++ t), ref_match, and_assoc]

theorem number_match {m n : Nat} (hm : m < 256 ^ 2) (hn : n < 256 ^ 2) {t sfx : Bytes} :
    VocabId.u16.toBe m ++ t = VocabId.u16.toBe n ++ sfx ↔ m = n ∧ t = sfx := by
  constructor
  · intro h
    obtain ⟨hbe, ht⟩ := List.append_inj h (by rw [VocabId.length_toBe, VocabId.length_toBe])
    exact ⟨beBytes_injective hm hn hbe, ht⟩
  · intro h
    rw [h.1, h.2]

/-! ## The reads -/

section

variable {s : Graph Keyspace} {rows : UInt64 → Option (EdgeRow R)} {labels : List String}
  (h : GraphInv g s rows labels)

include h

/-- The number of a predicate is its own. -/
theorem predicate_eq_iff {id : UInt64} {row : EdgeRow R} {found : Nat} {predicate : String}
    (hrow : rows id = some row) (hfound : labels[found]? = some predicate) :
    row.predicate = found ↔ row.head.predicate = predicate := by
  have hnamed := (h.rowsOk id row hrow).named
  constructor
  · intro heq
    rw [heq, hfound] at hnamed
    exact (Option.some.inj hnamed).symm
  · intro heq
    have hlt := (List.getElem?_eq_some_iff.mp hnamed).1
    refine (List.getElem?_inj hlt h.cache.encodes.nodup).mp ?_
    rw [hnamed, hfound, heq]

/-- **A read qualified by a predicate** is exact where the scan behind its number is. -/
theorem typedScan_exact {slot : Slot} {predicate : String} {rest : Bytes}
    {ids : List Bytes → List UInt64} {Q : EdgeRow R → Prop}
    (hscan : ∀ found, labels[found]? = some predicate →
      Exactly (ids (s.store.suffixes (faceKey g.ns slot (VocabId.u16.toBe found ++ rest))))
        fun id => ∃ row, rows id = some row ∧ row.predicate = found ∧ Q row) :
    Answers (g.typedScan slot predicate rest ids) s
      fun id => ∃ row, rows id = some row ∧ row.head.predicate = predicate ∧ Q row := by
  have hread : CacheSound .u16 predicateVocab g.ns s.vocab (LawfulStorage.read s.store) labels :=
    h.cache
  obtain ⟨found, cache, heq, -, hsome, hnone⟩ := idGet_sound hread predicate
  have hget : g.predicateGet predicate s = (.ok found, ⟨s.store, cache⟩) := by
    rw [GraphEncode.predicateGet, heq]
  cases found with
  | none =>
    refine ⟨[], ⟨s.store, cache⟩, ?_, List.nodup_nil, fun id => ?_⟩
    · rw [GraphEncode.typedScan, run_bind_of_ok hget]
      rfl
    · constructor
      · intro hid
        cases hid
      · intro hid
        obtain ⟨row, hrow, hpred, -⟩ := hid
        have hnamed := (h.rowsOk id row hrow).named
        rw [hpred] at hnamed
        exact absurd (List.mem_of_getElem? hnamed) (hnone rfl)
  | some found =>
    have hfound := hsome found rfl
    refine ⟨_, ⟨s.store, cache⟩, ?_, (hscan found hfound).congr fun id => ?_⟩
    · rw [GraphEncode.typedScan, run_bind_of_ok hget]
      rfl
    · constructor
      · intro hid
        obtain ⟨row, hrow, hpred, hq⟩ := hid
        exact ⟨row, hrow, (predicate_eq_iff h hrow hfound).mp hpred, hq⟩
      · intro hid
        obtain ⟨row, hrow, hpred, hq⟩ := hid
        exact ⟨row, hrow, (predicate_eq_iff h hrow hfound).mpr hpred, hq⟩

theorem number_lt {id : UInt64} {row : EdgeRow R} (hrow : rows id = some row) :
    row.predicate < 256 ^ 2 :=
  h.cache.encodes.index_lt (h.rowsOk id row hrow).named

theorem outEdges_exact (src : NodeRef) :
    Answers (g.outEdges src) s fun id => ∃ row, rows id = some row ∧ row.head.src = src := by
  refine ⟨_, s, rfl, endpoint_exact (fun row => row.head.dst.encode) (fun row => ?_)
    (h.edges.faces .out) fun id row _ sfx => ref_match⟩
  have hthree := row.head.dst.three_le_length
  omega

theorem inEdges_exact (dst : NodeRef) :
    Answers (g.inEdges dst) s fun id => ∃ row, rows id = some row ∧ row.head.dst = dst := by
  refine ⟨_, s, rfl, endpoint_exact (fun row => row.head.src.encode) (fun row => ?_)
    (h.edges.faces .into) fun id row _ sfx => ref_match⟩
  have hthree := row.head.src.three_le_length
  omega

theorem outEdgesTo_exact (src dst : NodeRef) :
    Answers (g.outEdgesTo src dst) s
      fun id => ∃ row, rows id = some row ∧ row.head.src = src ∧ row.head.dst = dst :=
  ⟨_, s, rfl, pair_exact (h.edges.faces .out) fun _ _ _ _ => refs_match⟩

theorem inEdgesFrom_exact (dst src : NodeRef) :
    Answers (g.inEdgesFrom dst src) s
      fun id => ∃ row, rows id = some row ∧ row.head.dst = dst ∧ row.head.src = src :=
  ⟨_, s, rfl, pair_exact (h.edges.faces .into) fun _ _ _ _ => refs_match⟩

theorem typedOut_exact (predicate : String) (src : NodeRef) :
    Answers (g.typedOut predicate src) s
      fun id => ∃ row, rows id = some row ∧ row.head.predicate = predicate ∧ row.head.src = src := by
  refine typedScan_exact h fun found hfound => ?_
  refine endpoint_exact (fun row => row.head.dst.encode) (fun row => ?_)
    (h.edges.faces .predicateOut) fun id row hrow sfx => ?_
  · have hthree := row.head.dst.three_le_length
    omega
  · rw [List.append_assoc]
    refine (number_match (number_lt h hrow) (h.cache.encodes.index_lt hfound)).trans ?_
    rw [ref_match, and_assoc]

theorem typedIn_exact (predicate : String) (dst : NodeRef) :
    Answers (g.typedIn predicate dst) s
      fun id => ∃ row, rows id = some row ∧ row.head.predicate = predicate ∧ row.head.dst = dst := by
  refine typedScan_exact h fun found hfound => ?_
  refine endpoint_exact (fun row => row.head.src.encode) (fun row => ?_)
    (h.edges.faces .predicateInto) fun id row hrow sfx => ?_
  · have hthree := row.head.src.three_le_length
    omega
  · rw [List.append_assoc]
    refine (number_match (number_lt h hrow) (h.cache.encodes.index_lt hfound)).trans ?_
    rw [ref_match, and_assoc]

theorem typedOutTo_exact (predicate : String) (src dst : NodeRef) :
    Answers (g.typedOutTo predicate src dst) s fun id => ∃ row, rows id = some row ∧
      row.head.predicate = predicate ∧ row.head.src = src ∧ row.head.dst = dst := by
  refine typedScan_exact h fun found hfound => ?_
  refine pair_exact (h.edges.faces .predicateOut) fun id row hrow sfx => ?_
  rw [List.append_assoc]
  refine (number_match (number_lt h hrow) (h.cache.encodes.index_lt hfound)).trans ?_
  rw [refs_match, ← and_assoc]

theorem typedInFrom_exact (predicate : String) (dst src : NodeRef) :
    Answers (g.typedInFrom predicate dst src) s fun id => ∃ row, rows id = some row ∧
      row.head.predicate = predicate ∧ row.head.dst = dst ∧ row.head.src = src := by
  refine typedScan_exact h fun found hfound => ?_
  refine pair_exact (h.edges.faces .predicateInto) fun id row hrow sfx => ?_
  rw [List.append_assoc]
  refine (number_match (number_lt h hrow) (h.cache.encodes.index_lt hfound)).trans ?_
  rw [refs_match, ← and_assoc]

theorem edgesOfPredicate_exact (predicate : String) :
    Answers (g.edgesOfPredicate predicate) s
      fun id => ∃ row, rows id = some row ∧ row.head.predicate = predicate ∧ True := by
  refine typedScan_exact h fun found hfound => ?_
  refine endpoint_exact (fun row => row.head.src.encode ++ row.head.dst.encode)
    (fun row => ?_) (h.edges.faces .predicateOut) fun id row hrow sfx => ?_
  · have hthree := row.head.src.three_le_length
    rw [List.length_append]
    omega
  · rw [List.append_nil, List.append_assoc]
    refine (number_match (number_lt h hrow) (h.cache.encodes.index_lt hfound)).trans ?_
    rw [and_true, eq_comm (a := sfx)]

end

/-! ## Every run -/

/-- The traversals answer the edges whose head matches, each once. -/
structure ReadsExact (g : GraphEncode R) (s : Graph Keyspace)
    (edges : UInt64 → Option (EdgeHead × R)) : Prop where
  outEdges : ∀ src, Answers (g.outEdges src) s fun id => ∃ e, edges id = some e ∧ e.1.src = src
  inEdges : ∀ dst, Answers (g.inEdges dst) s fun id => ∃ e, edges id = some e ∧ e.1.dst = dst
  outEdgesTo : ∀ src dst, Answers (g.outEdgesTo src dst) s
    fun id => ∃ e, edges id = some e ∧ e.1.src = src ∧ e.1.dst = dst
  inEdgesFrom : ∀ dst src, Answers (g.inEdgesFrom dst src) s
    fun id => ∃ e, edges id = some e ∧ e.1.dst = dst ∧ e.1.src = src
  typedOut : ∀ predicate src, Answers (g.typedOut predicate src) s
    fun id => ∃ e, edges id = some e ∧ e.1.predicate = predicate ∧ e.1.src = src
  typedIn : ∀ predicate dst, Answers (g.typedIn predicate dst) s
    fun id => ∃ e, edges id = some e ∧ e.1.predicate = predicate ∧ e.1.dst = dst
  typedOutTo : ∀ predicate src dst, Answers (g.typedOutTo predicate src dst) s
    fun id => ∃ e, edges id = some e ∧ e.1.predicate = predicate ∧ e.1.src = src ∧ e.1.dst = dst
  typedInFrom : ∀ predicate dst src, Answers (g.typedInFrom predicate dst src) s
    fun id => ∃ e, edges id = some e ∧ e.1.predicate = predicate ∧ e.1.dst = dst ∧ e.1.src = src
  edgesOfPredicate : ∀ predicate, Answers (g.edgesOfPredicate predicate) s
    fun id => ∃ e, edges id = some e ∧ e.1.predicate = predicate

/-- Nothing in the store belongs to the id: no row, no attributes, no traversal entry that
ends in it, and every declared entry there is belongs to another edge. -/
structure Gone (g : GraphEncode R) (s : Graph Keyspace)
    (edges : UInt64 → Option (EdgeHead × R)) (id : UInt64) : Prop where
  primary : s.store.get (g.primaryKey id) = none
  dynamic : s.store.get (g.dynamicKey id) = none
  faces : ∀ (face : EdgeFace) front, s.store.get (faceKey g.ns face.slot (front ++ idBe id)) = none
  declared : ∀ t, g.Declared t → ∀ sfx v, s.store.get (faceKey g.ns t sfx) = some v →
    ∃ other e, other ≠ id ∧ edges other = some e ∧ faceKey g.ns t sfx ∈ g.declaredKeys other e.2
  attrs : g.attrs id s = (.ok none, s)
  getEdge : g.getEdge id s = (.ok none, s)

section

variable {s : Graph Keyspace} {rows : UInt64 → Option (EdgeRow R)} {labels : List String}

/-- A read over the rows is one over the heads. -/
theorem answers_heads {read : GraphVerb Keyspace (List UInt64)} {Q : EdgeHead → Prop}
    (h : Answers read s fun id => ∃ row, rows id = some row ∧ Q row.head) :
    Answers read s fun id => ∃ e, headsOf rows id = some e ∧ Q e.1 := by
  obtain ⟨ids, s', heq, hexact⟩ := h
  refine ⟨ids, s', heq, hexact.congr fun id => ?_⟩
  unfold headsOf
  cases rows id with
  | none => simp
  | some row => simp

/-- **In a state whose faces are in step the reads are exact.** -/
theorem GraphInv.readsExact (h : GraphInv g s rows labels) : ReadsExact g s (headsOf rows) where
  outEdges src := answers_heads (Q := fun head => head.src = src) (outEdges_exact h src)
  inEdges dst := answers_heads (Q := fun head => head.dst = dst) (inEdges_exact h dst)
  outEdgesTo src dst := answers_heads (Q := fun head => head.src = src ∧ head.dst = dst)
    (outEdgesTo_exact h src dst)
  inEdgesFrom dst src := answers_heads (Q := fun head => head.dst = dst ∧ head.src = src)
    (inEdgesFrom_exact h dst src)
  typedOut predicate src :=
    answers_heads (Q := fun head => head.predicate = predicate ∧ head.src = src)
      (typedOut_exact h predicate src)
  typedIn predicate dst :=
    answers_heads (Q := fun head => head.predicate = predicate ∧ head.dst = dst)
      (typedIn_exact h predicate dst)
  typedOutTo predicate src dst :=
    answers_heads (Q := fun head => head.predicate = predicate ∧ head.src = src ∧ head.dst = dst)
      (typedOutTo_exact h predicate src dst)
  typedInFrom predicate dst src :=
    answers_heads (Q := fun head => head.predicate = predicate ∧ head.dst = dst ∧ head.src = src)
      (typedInFrom_exact h predicate dst src)
  edgesOfPredicate predicate := by
    refine answers_heads (Q := fun head => head.predicate = predicate) ?_
    obtain ⟨ids, s', heq, hexact⟩ := edgesOfPredicate_exact h predicate
    refine ⟨ids, s', heq, hexact.congr fun id => ?_⟩
    simp only [and_true]

/-- **In a state whose faces are in step** an id without an edge has left nothing. -/
theorem GraphInv.gone (h : GraphInv g s rows labels) {id : UInt64} (hnone : rows id = none) :
    Gone g s (headsOf rows) id := by
  have hprimary := h.edges.not_stored hnone
  have hdynamic : s.store.get (g.dynamicKey id) = none := by
    cases hv : s.store.get (g.dynamicKey id) with
    | none => rfl
    | some v =>
      obtain ⟨id', heq, hown⟩ := h.segments (idBe id) v hv
      obtain rfl := idBe_inj heq
      exact absurd hnone (hown.resolve_right (by simp))
  refine ⟨hprimary, hdynamic, fun face front => ?_, fun t ht sfx v hv => ?_, ?_, ?_⟩
  · cases hv : s.store.get (faceKey g.ns face.slot (front ++ idBe id)) with
    | none => rfl
    | some v =>
      obtain ⟨id', row, hrow, heq⟩ := (h.edges.faces face).owner hv
      have hsfx := (Prod.mk.inj heq).1
      obtain ⟨front', -, hend⟩ :=
        face.suffix_eq row.head.src row.head.dst row.predicate id'
      rw [hend] at hsfx
      have hid := idBe_inj (List.append_inj_right' hsfx (by rw [length_idBe, length_idBe]))
      rw [hid, hnone] at hrow
      cases hrow
  · obtain ⟨other, row, hrow, hmem⟩ := h.edges.declared t ht sfx v hv
    refine ⟨other, (row.head, row.payload), fun heq => ?_, ?_, hmem⟩
    · rw [heq, hnone] at hrow
      cases hrow
    · rw [headsOf, hrow]
      rfl
  · have hget : get s.store (g.dynamicKey id) = .ok none := congrArg Except.ok hdynamic
    rw [GraphEncode.attrs, look, hget]
    rfl
  · have hlook : look (fun store => get store (g.primaryKey id)) s = (.ok none, s) := by
      rw [look, show get s.store (g.primaryKey id) = .ok none from congrArg Except.ok hprimary]
      rfl
    rw [GraphEncode.getEdge, run_bind_of_ok hlook]
    rfl

end

/-- **In every run over keys that are read back and payloads that declare their entries
again, where no edge is unlinked with open attributes stored**, every traversal answers
exactly the edges linked and not unlinked since whose head matches, each once; an edge
that is gone has left nothing; and the next such step answers. -/
theorem graph_faces {store : Keyspace} (hfresh : ∀ t sfx, store.get (faceKey g.ns t sfx) = none)
    {past : List (GraphOp R × Except Error Unit)} {s : Graph Keyspace}
    (run : Trace g.step g.Meets (Graph.new store) past s) :
    ReadsExact g s (edgesAfter past) ∧
    (∀ id, edgesAfter past id = none → Gone g s (edgesAfter past) id) ∧
    ∀ op, g.Meets past s op → ∃ answer s', g.step s op = .ok (answer, s') := by
  obtain ⟨rows, labels, hinv, hheads⟩ := graphInv_run hfresh run
  rw [← hheads]
  refine ⟨hinv.readsExact, fun id hid => hinv.gone ?_, fun op hmeets => ?_⟩
  · exact Option.map_eq_none_iff.mp hid
  · obtain ⟨answer, s', -, -, heq, -⟩ := advances hinv hmeets
    exact ⟨answer, s', heq⟩

/-! ## A small graph -/

/-- A node of collection 16. -/
def person (key : UInt8) : NodeRef := ⟨16, [key], by simp⟩

def knows (src dst : UInt8) : EdgeHead := ⟨person src, person dst, "knows"⟩

def friends : GraphEncode Unit := bareGraph 4 1 [16]

theorem friends_linkable (src dst : UInt8) (id : UInt64) :
    friends.Linkable (knows src dst) () id where
  src := by
    change [src].length < 2 ^ 49
    simp
  dst := by
    change [dst].length < 2 ^ 49
    simp
  rederives k hk := by cases hk

/-- Two links of different edges. -/
def twoLinks : List (GraphOp Unit) := [.link (knows 1 2) () 7, .link (knows 1 3) () 8]

/-- Two edges are linked and one is unlinked: the reads are exact, and it has left nothing. -/
theorem graph_faces_friends :
    ∃ past s, (edgesAfter past 7).isSome = false ∧ (edgesAfter past 8).isSome = true ∧
      ReadsExact friends s (edgesAfter past) ∧ Gone friends s (edgesAfter past) 7 := by
  have hfresh : ∀ t sfx, (SortedMap.empty : Keyspace).get (faceKey friends.ns t sfx) = none :=
    fun _ _ => rfl
  have hok : (runAll friends.step (Graph.new SortedMap.empty) twoLinks).isOk = true := by
    decide +kernel
  obtain ⟨⟨past, s⟩, hrun⟩ := exists_of_isOk hok
  have hlinks : ∀ past s, ∀ op ∈ twoLinks, friends.Meets past s op := by
    intro past s op hop
    rcases List.mem_cons.mp hop with rfl | hop
    · exact friends_linkable 1 2 7
    · obtain rfl := List.mem_singleton.mp hop
      exact friends_linkable 1 3 8
  have run : Trace friends.step friends.Meets (Graph.new SortedMap.empty) past s :=
    trace_runAll hlinks hrun
  have hplain : friends.Meets past s (.unlink 7) := by
    have heval : (runAll friends.step (Graph.new SortedMap.empty) twoLinks).toOption.map
        (fun r => r.2.store.get (friends.dynamicKey 7)) = some none := by
      decide +kernel
    rw [hrun] at heval
    exact Option.some.inj heval
  obtain ⟨answer, s', hstep⟩ := (graph_faces hfresh run).2.2 _ hplain
  have hanswer : answer = .ok () := by
    have heval : (runAll friends.step (Graph.new SortedMap.empty) twoLinks).toOption.bind
        (fun r => (friends.step r.2 (.unlink 7)).toOption.map Prod.fst) = some (.ok ()) := by
      decide +kernel
    rw [hrun] at heval
    have hfst : (friends.step s (.unlink 7)).toOption.map Prod.fst = some (.ok ()) := heval
    rw [hstep] at hfst
    exact Option.some.inj hfst
  have hedges : (runAll friends.step (Graph.new SortedMap.empty) twoLinks).toOption.map
      (fun r => ((edgesAfter (r.1 ++ [(.unlink 7, .ok ())]) 7).isSome,
        (edgesAfter (r.1 ++ [(.unlink 7, .ok ())]) 8).isSome)) = some (false, true) := by
    decide +kernel
  rw [hrun] at hedges
  obtain ⟨hseven, height⟩ := Prod.mk.inj (Option.some.inj hedges)
  rw [hanswer] at hstep
  have hexact := graph_faces hfresh (run.snoc hplain hstep)
  refine ⟨_, s', hseven, height, hexact.1, hexact.2.1 7 ?_⟩
  exact Option.isSome_eq_false_iff.mp hseven |> Option.isNone_iff_eq_none.mp

/-- **The attributes of an unlinked edge stay**: one is linked, given an attribute and
unlinked, each step answered, and `attrs` still answers them. -/
theorem unlink_keeps_attributes :
    (runAll friends.step (Graph.new SortedMap.empty)
        [.link (knows 1 2) () 7, .replace 7 (SortedMap.empty.insert "a" (.uint 5)),
          .unlink 7]).toOption.map
      (fun run => (run.1.map Prod.snd, (edgesAfter run.1 7).isSome,
        run.2.store.get (friends.dynamicKey 7),
        (friends.attrs 7 run.2).1.toOption.join.isSome))
      = some ([.ok (), .ok (), .ok ()], false, some [0, 0, 1, 5], true) := by
  decide +kernel

end Okm.Model
