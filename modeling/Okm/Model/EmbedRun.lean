import Okm.Model.EmbedTree

/-!
# Runs over nested tables

Calls on the collections of a family of tables, in any order: every table is the
parent of the children its rows carry and may be a child itself. `EmbedGuard` is what
a call must meet for its embed pass to do what the child's own verbs would have done.
Along a run of such calls every embedded table stays in order (`familyInv_run`), and a
row that was put with its children is read back with the whole tree
(`embedded_children_ordinary`).

The pass sweeps nothing, moves no ledger and follows no child of a child, so a release
leaves the entries of the released row behind (`release_leaves_entry`).
-/

namespace Okm.Model

open Lib VirtualStorage KeyEncode

variable {ι : Type} {Key Row : ι → Type} [∀ i, KeyEncode (Key i)]

section

variable (doc : ∀ i, Document (Key i) (Row i)) (embeds : ∀ i, List (EmbedField Key Row i))

/-- A row carried below a carried child is already stored as it is carried, and the
write neither puts another row in its place nor releases it: the pass does not write
it. -/
def Prepared (m : Keyspace) (i : ι) (row : Row i) (prev : Option (Row i)) (l : ι) (key : Key l)
    (child : Row l) : Prop :=
  (doc l).partitionPrefix = [] ∧ Held doc m.get l key child ∧
  (∀ child', ⟨l, key, child'⟩ ∈ carried embeds i row →
    (doc l).encodePayload child' = (doc l).encodePayload child) ∧
  ⟨l, key⟩ ∉ released doc embeds i row prev

/-- What the embed pass of a write asks of the children's tables. -/
structure PassGuard (m : Keyspace) (i : ι) (row : Row i) (prev : Option (Row i)) : Prop where
  unpartitioned : ∀ x ∈ carried embeds i row, (doc x.1).partitionPrefix = []
  compatible : ∀ j, Compatible doc j (carried embeds i row)
  adopted : ∀ j key child, ⟨j, key, child⟩ ∈ carried embeds i row →
    Adoptable (doc j) ((doc j).seen m) key child
  dropped : ∀ j key, ⟨j, key⟩ ∈ released doc embeds i row prev →
    (doc j).partitionPrefix = [] ∧ Droppable (doc j) key ((doc j).seen m key)
  settled : ∀ j key child, ⟨j, key, child⟩ ∈ carried embeds i row →
    EachBelow embeds (Prepared doc embeds m i row prev) j child

/-- What a call must meet: its row keeps to itself where the table is some parent's
child, and its embed pass meets `PassGuard`. -/
structure EmbedGuard (m : Keyspace) (i : ι) (v : RowVerb (Key i) (Row i)) : Prop where
  settled : ∀ key row, (doc i).rowStored m v = some (key, row) → (doc i).Settled row
  tidy : Embedded embeds i → (doc i).Tidy m v
  own : Embedded embeds i → ∀ key row, (doc i).rowStored m v = some (key, row) →
    (∀ reduce ∈ (doc i).reduces, (doc i).Recounted reduce key row) ∧
    (doc i).Rederivable key row ∧ ∀ key' row', encode key' ≠ encode key →
      (doc i).seen m key' = some row' → (doc i).Apart key row key' row'
  pass : ∀ key row, (doc i).rowStored m v = some (key, row) →
    PassGuard doc embeds m i row ((doc i).seen m key)

/-- The stores a run reaches from the empty one. -/
inductive EmbedRun : Keyspace → Prop
  | start : EmbedRun SortedMap.empty
  | call {m : Keyspace} (run : EmbedRun m) (i : ι) (v : RowVerb (Key i) (Row i))
      (guard : EmbedGuard doc embeds m i v) : EmbedRun ((doc i).verb m v)

/-- Every table reads as rows, and every embedded one is in order. -/
def FamilyInv (m : Keyspace) : Prop :=
  ∀ i, ∃ w, (doc i).RowInv m.get w ∧ (Embedded embeds i → TableInv (doc i) m w)

end

/-- A table whose entries are those of its rows and whose ledgers are their totals. -/
structure Ordinary {K R : Type} [KeyEncode K] (doc : Document K R) (m : Keyspace) : Prop where
  faces : ∀ k, Under doc.header (· ∈ doc.faceSlots) k → ∀ v, m.get k = some v ↔
    ∃ key row, doc.get m key = .ok (some row) ∧ (k, v) ∈ doc.indexEntries key row
  ledgers : ∀ reduce ∈ doc.reduces, ∀ g acc, doc.ledger reduce g m = some acc →
    Reduce.decodeAcc (m.get (faceKey doc.header reduce.slot g)) = acc

/-! ## One table -/

section

variable {K R : Type} [KeyEncode K] {doc : Document K R}
variable (payload : doc.PayloadLaws) (labels : doc.LabelLaws)

include payload labels

/-- What `get` answers beside what the table holds. -/
theorem seen_spec {m : Keyspace} {w : K → Option R} (inv : doc.FaceInv m.get w) (key : K) :
    (w key = none ∧ doc.seen m key = none) ∨
    ∃ row row', w key = some row ∧ doc.seen m key = some row' ∧
      doc.indexEntries key row' = doc.indexEntries key row ∧
      doc.encodePayload row' = doc.encodePayload row := by
  have hget := doc.get_seen m key
  cases hrow : w key with
  | none =>
    refine Or.inl ⟨rfl, ?_⟩
    have hfound := (Document.found_get payload labels (s := m) inv.encoded hget).1
    have hstored := inv.stored key
    rw [hrow] at hstored
    exact Option.map_eq_none_iff.mp (hfound.symm.trans hstored)
  | some row =>
    have hstored := inv.stored key
    rw [hrow] at hstored
    obtain ⟨row', hget', hc⟩ :=
      Document.get_carries payload labels m (inv.encoded.settled hstored)
        (inv.named key row hrow) hstored
    rw [hget] at hget'
    exact Or.inr ⟨row, row', rfl, Except.ok.inj hget', inv.rederivable key row hrow row' hc, hc.1⟩

theorem rowShare_seen {m : Keyspace} {w : K → Option R} (inv : doc.FaceInv m.get w)
    (counts : Recounts doc m.get) (key : K) {reduce : Reduce K R} (hmem : reduce ∈ doc.reduces) (g : Bytes) :
    reduce.rowShare g key (w key) = reduce.rowShare g key (doc.seen m key) := by
  rcases seen_spec payload labels inv key with ⟨hw, hs⟩ | ⟨row, row', hw, hs, -, hpayload⟩
  · rw [hw, hs]
  · have hstored := inv.stored key
    rw [hw] at hstored
    obtain ⟨hgroup, hamount⟩ := counts reduce hmem key row hstored row' hpayload
    rw [hw, hs, Reduce.rowShare, Reduce.rowShare, hgroup, hamount]

/-- What may be put over what `get` answers may be put over what the table holds. -/
theorem Adoptable.of_seen {m : Keyspace} {w : K → Option R} (inv : doc.FaceInv m.get w)
    (counts : Recounts doc m.get) {key : K} {child : R} (h : Adoptable doc (doc.seen m) key child) : Adoptable doc w key child := by
  obtain ⟨kept, unlabelled, stale, shares, rederivable, apart⟩ := h
  refine ⟨kept, unlabelled, ?_, fun reduce hmem hexact g => ?_, rederivable, fun key' row hne hrow => ?_⟩
  · rcases seen_spec payload labels inv key with ⟨hw, -⟩ | ⟨row, row', hw, hs, hentries, -⟩
    · rw [hw]
      rfl
    · rw [hs, Document.staleFaces, hentries] at stale
      rw [hw]
      exact stale
  · rw [rowShare_seen payload labels inv counts key hmem]
    exact shares reduce hmem hexact g
  · rcases seen_spec payload labels inv key' with ⟨hw, -⟩ | ⟨row₀, row', hw, hs, hentries, -⟩
    · rw [hw] at hrow
      cases hrow
    · rw [hw] at hrow
      obtain rfl := Option.some.inj hrow
      have hapart := apart key' row' hne hs
      unfold Document.Apart at hapart ⊢
      rwa [hentries] at hapart

theorem Droppable.of_seen {m : Keyspace} {w : K → Option R} (inv : doc.FaceInv m.get w)
    (counts : Recounts doc m.get) {key : K} (h : Droppable doc key (doc.seen m key)) : Droppable doc key (w key) := by
  refine ⟨fun row hrow => ?_, fun reduce hmem hexact g => ?_⟩
  · rcases seen_spec payload labels inv key with ⟨hw, -⟩ | ⟨row₀, row', hw, hs, hentries, -⟩
    · rw [hw] at hrow
      cases hrow
    · rw [hw] at hrow
      obtain rfl := Option.some.inj hrow
      rw [← hentries]
      exact h.faces row' hs
  · rw [rowShare_seen payload labels inv counts key hmem]
    exact h.shares reduce hmem hexact g

omit payload labels in
theorem LedgersRead.ledger {m : Keyspace} (h : LedgersRead doc m) {reduce : Reduce K R}
    (hmem : reduce ∈ doc.reduces) {g : Bytes} {acc : UInt64}
    (hacc : doc.ledger reduce g m = some acc) :
    Reduce.decodeAcc (m.get (faceKey doc.header reduce.slot g)) = acc := by
  obtain ⟨hexact, htotal⟩ := groupTotal_of_ledger hacc
  rw [h reduce hmem hexact g, htotal]

/-- A table in order is an ordinary one. -/
theorem TableInv.ordinary {m : Keyspace} {w : K → Option R} (inv : TableInv doc m w) :
    Ordinary doc m where
  faces _ hk v := inv.faces.entries_iff payload labels hk v
  ledgers _ hmem _ _ hacc := inv.ledgers.ledger hmem hacc

end

/-! ## The family -/

section

variable {doc : ∀ i, Document (Key i) (Row i)} {embeds : ∀ i, List (EmbedField Key Row i)}
variable (laws : Embeds doc embeds)

/-- Released children depend on what is stored of the old row only. -/
theorem released_congr (laws : Embeds doc embeds) {i : ι} (row : Row i) {prev prev' : Option (Row i)}
    (h : prev.map (doc i).encodePayload = prev'.map (doc i).encodePayload) :
    released doc embeds i row prev = released doc embeds i row prev' := by
  cases prev with
  | none =>
    cases prev' with
    | none => rfl
    | some old' => cases h
  | some old =>
    cases prev' with
    | none => cases h
    | some old' =>
      rw [released, released, Option.map_some, Option.map_some,
        pointed_of_payload laws (Option.some.inj h)]

include laws in
/-- A table the row does not embed sees nothing of its embed pass. -/
theorem embedOps_elsewhere {i j : ι} {row : Row i} {prev : Option (Row i)}
    (hno : ∀ field ∈ embeds i, field.child ≠ j) :
    ∀ op ∈ (doc i).embedOps row prev, ¬ Under (doc j).header (fun _ => True) op.1 := by
  intro op hop hunder
  rw [embedOps_eq laws] at hop
  rcases List.mem_append.mp hop with hop | hop
  · obtain ⟨e, he, hkey⟩ := Document.mem_putOps hop
    obtain ⟨⟨l, key, child⟩, hx, he⟩ := List.mem_flatMap.mp he
    obtain ⟨field, hfield, cell, -, c, -, heq⟩ := mem_carried.mp hx
    cases heq
    exact laws.bare j field.child (Ne.symm (hno field hfield)) _ hunder
      (hkey ▸ childEntries_under he)
  · obtain ⟨p, hp, hkey⟩ := List.mem_map.mp (Document.mem_delOps hop)
    cases prev with
    | none => cases hp
    | some old =>
      obtain ⟨field, hfield, cell, -, rfl⟩ := mem_pointed.mp (List.mem_filter.mp hp).1
      exact laws.bare j field.child (Ne.symm (hno field hfield)) _ hunder
        (hkey ▸ under_faceKey.mpr trivial)

variable (payload : ∀ i, (doc i).PayloadLaws) (labels : ∀ i, (doc i).LabelLaws)

include laws payload labels

/-- **A call keeps its own table.** -/
theorem own_step {m : Keyspace} {i : ι} {v : RowVerb (Key i) (Row i)} (inv : FamilyInv doc embeds m)
    (guard : EmbedGuard doc embeds m i v) :
    ∃ w, (doc i).RowInv ((doc i).verb m v).get w ∧
      (Embedded embeds i → TableInv (doc i) ((doc i).verb m v) w) := by
  obtain ⟨w, rows, table⟩ := inv i
  cases Document.tableEffect (payload i) (labels i) (embedsElsewhere laws i) rows.encoded v with
  | rest h => exact ⟨w, rows.resting h, fun hi => (table hi).resting h⟩
  | wrote key old row h hstored =>
    -- a put moves one row and its entries
    have change : (doc i).RowChange m.get ((doc i).verb m v).get key (some row) :=
      ⟨h.move.rows, h.vocabs⟩
    have hsettled : ∀ row', some row = some row' → (doc i).Settled row' := by
      intro row' hrow
      rw [← Option.some.inj hrow]
      exact guard.settled key row hstored
    refine ⟨Document.setRow w key (some row), rows.changed change hsettled, fun hi => ?_⟩
    obtain ⟨hcounts, hre, hapart⟩ := guard.own hi key row hstored
    have hkept : ∀ row', some row = some row' → KeptAll (doc i) key row' := by
      intro row' hrow
      rw [← Option.some.inj hrow]
      exact ⟨guard.settled key row hstored, hcounts⟩
    obtain ⟨found, hfound, hstored', hswept⟩ := h.faces (guard.tidy hi)
    refine ⟨(table hi).faces.changed change hswept
      ((table hi).faces.old_entries hstored' hfound) hsettled (fun row' hrow => ?_)
      fun row' hrow => ?_, (table hi).recounts.changed hkept h.move.rows,
      (table hi).ledgers.moved rows.encoded (table hi).recounts hkept h.move⟩
    · rw [← Option.some.inj hrow]
      exact hre
    · -- no other row shares an entry with the new one
      rw [← Option.some.inj hrow]
      intro key' row₀ hne hrow₀
      rcases seen_spec (payload i) (labels i) (table hi).faces key' with
        ⟨hw, -⟩ | ⟨row₁, row₂, hw, hs, hentries, -⟩
      · rw [hw] at hrow₀
        cases hrow₀
      · rw [hw] at hrow₀
        obtain rfl := Option.some.inj hrow₀
        have hfar := hapart key' row₂ hne hs
        unfold Document.Apart at hfar ⊢
        rwa [hentries] at hfar
  | removed key old h found outside =>
    -- a removal leaves nothing to keep apart
    refine ⟨Document.setRow w key none, rows.changed h.change (by simp), fun hi => ?_⟩
    exact ⟨(table hi).faces.cleaned h found (by simp) (by simp) (by simp),
      (table hi).recounts.changed (by simp) h.move.rows,
      (table hi).ledgers.moved rows.encoded (table hi).recounts (by simp) h.move⟩

/-- **A call keeps the other tables**: the children it carries are in theirs. -/
theorem other_step {m : Keyspace} {i j : ι} {key : Key i} {row : Row i} {old : Option (Row i)}
    {m' : Keyspace} {tidy : Prop} (hne : j ≠ i) (hwrote : (doc i).Wrote m m'.get key old row tidy)
    {w : Key j → Option (Row j)} (table : TableInv (doc j) m w)
    (rows : (doc i).RowsEncoded m.get)
    (guard : PassGuard doc embeds m i row ((doc i).seen m key)) :
    ∃ w', TableInv (doc j) m' w' ∧
      ∀ k child, ⟨j, k, child⟩ ∈ carried embeds i row → w' k = some child := by
  have hsame : old.map (doc i).encodePayload
      = ((doc i).seen m key).map (doc i).encodePayload := by
    rw [← hwrote.move.stored]
    exact (Document.found_get (payload i) (labels i) (s := m) rows
      ((doc i).get_seen m key)).1
  have hreleased := released_congr laws row hsame
  obtain ⟨w', inv', hput⟩ := table.pass laws row old
    guard.unpartitioned (guard.compatible j)
    (fun k child hmem =>
      (guard.adopted j k child hmem).of_seen (payload j) (labels j) table.faces
        table.recounts)
    fun k hmem => by
      rw [hreleased] at hmem
      obtain ⟨hpart, hdrop⟩ := guard.dropped j k hmem
      exact ⟨hpart, hdrop.of_seen (payload j) (labels j) table.faces
        table.recounts⟩
  refine ⟨w', inv'.congr fun s suffix => ?_, hput⟩
  rw [get_applyOps_written]
  exact hwrote.embeds _ fun hunder => laws.apart i j (Ne.symm hne) _ hunder
    (under_faceKey.mpr trivial)

/-- **One call keeps the family.** -/
theorem familyInv_step {m : Keyspace} {i : ι} {v : RowVerb (Key i) (Row i)}
    (inv : FamilyInv doc embeds m) (guard : EmbedGuard doc embeds m i v) :
    FamilyInv doc embeds ((doc i).verb m v) := by
  intro j
  by_cases hne : j = i
  · subst hne
    exact own_step laws payload labels inv guard
  · obtain ⟨w, rows, table⟩ := inv j
    obtain ⟨wi, rowsi, -⟩ := inv i
    have hkept : (∀ s suffix, ((doc i).verb m v).get (faceKey (doc j).header s suffix)
        = m.get (faceKey (doc j).header s suffix)) →
        ∃ w', (doc j).RowInv ((doc i).verb m v).get w' ∧
          (Embedded embeds j → TableInv (doc j) ((doc i).verb m v) w') := by
      intro hsame
      exact ⟨w, rows.kept (hsame primarySlot)
        (Document.vocabs_of_same rows.vocabs fun s suffix _ => hsame s suffix),
        fun hj => (table hj).congr hsame⟩
    have houtside : ∀ s suffix,
        ¬ Under (doc i).header (fun _ => True) (faceKey (doc j).header s suffix) :=
      fun s suffix hunder => laws.apart i j (Ne.symm hne) _ hunder (under_faceKey.mpr trivial)
    cases Document.tableEffect (payload i) (labels i) (embedsElsewhere laws i) rowsi.encoded v with
    | rest h => exact hkept fun s suffix => h.outside _ (houtside s suffix)
    | removed key old h found outside =>
      exact hkept fun s suffix => outside _ (houtside s suffix)
    | wrote key old row h hstored =>
      by_cases hj : Embedded embeds j
      · obtain ⟨w', inv', -⟩ := other_step laws payload labels hne h (table hj) rowsi.encoded
          (guard.pass key row hstored)
        exact ⟨w', inv'.faces.toRowInv, fun _ => inv'⟩
      · refine hkept fun s suffix => ?_
        rw [h.embeds _ (houtside s suffix)]
        refine written_of_not_mem (fun op hop heq => ?_) _
        refine embedOps_elsewhere laws (fun field hfield hchild => hj ⟨i, field, hfield, hchild⟩)
          op hop ?_
        rw [heq]
        exact under_faceKey.mpr trivial

theorem familyInv_run {m : Keyspace} (run : EmbedRun doc embeds m) : FamilyInv doc embeds m := by
  induction run with
  | start =>
    intro i
    have inv := Document.faceInv_start (doc i)
    refine ⟨fun _ => none, inv.toRowInv, fun _ => ⟨inv, fun reduce hmem key row hrow => ?_,
      fun reduce hmem hexact g => ?_⟩⟩
    · cases hrow
    have hno : ¬ (doc i).Populated reduce SortedMap.empty g := by
      rintro ⟨key, raw, hraw, -⟩
      cases hraw
    rw [groupTotal_eq_zero inv.encoded hno]
    rfl
  | call run i v guard ih => exact familyInv_step laws payload labels ih guard

/-! ## Reading a parent back -/

omit payload labels in
/-- Naming the labels of a row leaves its cells alone. -/
theorem cells_derefVocabFields {i : ι} {field : EmbedField Key Row i} (hmem : field ∈ embeds i)
    {m : Keyspace} {fs : List (VocabField (Row i))} (hfs : ∀ v ∈ fs, v ∈ (doc i).vocabFields)
    {row row' : Row i}
    (h : Document.derefVocabFields (doc i).header m fs row = .ok row') :
    field.cells row' = field.cells row := by
  induction fs generalizing row with
  | nil => rw [Except.ok.inj h]
  | cons f fs ih =>
    have hfs' : ∀ v ∈ fs, v ∈ (doc i).vocabFields := fun v hv => hfs v (List.mem_cons_of_mem _ hv)
    rw [Document.derefVocabFields] at h
    cases hlabel : f.label row with
    | some label =>
      rw [hlabel] at h
      exact ih hfs' h
    | none =>
      cases hid : f.id row with
      | none =>
        rw [hlabel, hid] at h
        exact ih hfs' h
      | some id =>
        rw [hlabel, hid] at h
        dsimp only at h
        generalize VocabCache.nameFor f.width { faces := f.faces } m (doc i).header id = answer at h
        obtain ⟨verdict, cache⟩ := answer
        cases verdict with
        | error e => cases h
        | ok name =>
          cases name with
          | none => exact ih hfs' h
          | some name =>
            rw [ih hfs' h, laws.cells_setName i field hmem f (hfs f List.mem_cons_self)]

omit payload labels laws in
/-- A read is a dereference of the decoded payload, then of its labels. -/
theorem get_eq_some {i : ι} {m : Keyspace} {key : Key i} {row : Row i} {raw : Bytes}
    (hraw : m.get ((doc i).primaryKey key) = some raw) (h : (doc i).get m key = .ok (some row)) :
    ∃ row₁, (doc i).embedDeref (VirtualStorage.get m) ((doc i).decodePayload raw) = .ok row₁ ∧
      (doc i).derefVocab m row₁ = .ok row := by
  obtain ⟨found, hfound, h⟩ := bind_eq_ok.mp h
  have hsame : (Except.ok (some raw) : Except Error (Option Bytes)) = .ok found := by
    rw [← hfound, ← hraw]
    exact (LawfulStorage.get_eq m _).symm
  obtain rfl := Except.ok.inj hsame
  obtain ⟨row₁, hderef, h⟩ := bind_eq_ok.mp h
  obtain ⟨row₂, hvocab, h⟩ := bind_eq_ok.mp h
  obtain rfl := Option.some.inj (Except.ok.inj h)
  exact ⟨row₁, hderef, hvocab⟩

omit labels in
/-- **A row whose tree is stored is read back with its tree.** -/
theorem get_returned {i : ι} {m : Keyspace} {key : Key i} {row row' : Row i}
    (hraw : m.get ((doc i).primaryKey key) = some ((doc i).encodePayload row))
    (held : EachBelow embeds (Held doc m.get) i row) (hget : (doc i).get m key = .ok (some row'))
    (hcarries : (doc i).Carries row row') : Returned embeds doc i row row' := by
  obtain ⟨row₁, hderef, hvocab⟩ := get_eq_some hraw hget
  have hcells : ∀ field ∈ embeds i, field.cells row' = field.cells row₁ :=
    fun field hmem => cells_derefVocabFields laws hmem (fun _ hv => hv) hvocab
  have hbelow := fun field (hmem : field ∈ embeds i) =>
    returned_of_held laws payload (fun k => LawfulStorage.get_eq m k) held hderef hmem
  refine .intro hcarries (fun field hmem => ?_) (fun field hmem p k child hp => ?_)
    fun field hmem p k child child' hp hp' => ?_
  · rw [hcells field hmem]
    exact (hbelow field hmem).1
  · obtain ⟨child', hp', -⟩ := (hbelow field hmem).2 p k child hp
    rw [hcells field hmem]
    exact ⟨child', hp'⟩
  · obtain ⟨child₂, hp₂, hret⟩ := (hbelow field hmem).2 p k child hp
    rw [hcells field hmem, hp₂] at hp'
    obtain rfl : child₂ = child' := Option.some.inj (Prod.mk.inj (Option.some.inj hp')).2
    exact hret

omit payload labels in
/-- A settled row is still there after the pass. -/
theorem held_of_settled {i l : ι} {row : Row i} {prev : Option (Row i)} {m : Keyspace}
    {key : Key l} {child : Row l} (h : Prepared doc embeds m i row prev l key child) :
    written ((doc i).embedOps row prev) m.get (embedKey doc l key)
      = some ((doc l).encodePayload child) := by
  obtain ⟨hpart, ⟨-, -, hstored⟩, hsame, hkept⟩ := h
  have hunder : Under (doc l).header (fun _ => True) (embedKey doc l key) := by
    rw [embedKey_eq hpart]
    exact under_faceKey.mpr trivial
  rw [embedOps_eq laws, written_append, Function.comp_apply]
  -- the release names other children
  have hdrop : pending (delOps ((released doc embeds i row prev).map fun p => embedKey doc p.1 p.2))
      (embedKey doc l key) = none := by
    refine pending_eq_none fun op hop heq => hkept ?_
    obtain ⟨⟨l', key'⟩, hp, hkey⟩ := List.mem_map.mp (Document.mem_delOps hop)
    by_cases hl : l = l'
    · subst hl
      have hsuffix := ((faceKey_inj _ _ _ _ _).mp (hkey.trans heq)).2
      rw [← encode_injective hsuffix]
      exact hp
    · exact absurd (heq ▸ hkey ▸ under_faceKey.mpr trivial) (laws.bare l l' hl _ hunder)
  rw [written, hdrop, Option.getD_none, written]
  rcases pending_putOps_cases ((carried embeds i row).flatMap fun x : Σ j, Key j × Row j =>
      childEntries doc x.1 x.2.1 x.2.2) (embedKey doc l key) with ⟨-, hput⟩ | ⟨v, hmem, hput⟩
  · rw [hput, Option.getD_none]
    exact hstored
  · -- another row carried for the key is the same one
    obtain ⟨⟨l', key', child'⟩, hx, hentry⟩ := List.mem_flatMap.mp hmem
    by_cases hl : l = l'
    · subst hl
      dsimp only at hentry
      rw [childEntries_eq hpart, embedKey_eq hpart] at hentry
      rcases List.mem_cons.mp hentry with heq | hface
      · obtain ⟨hkey, hv⟩ := Prod.mk.inj heq
        have hsuffix := ((faceKey_inj _ _ _ _ _).mp hkey).2
        rw [← encode_injective hsuffix] at hx
        rw [hput, Option.getD_some, hv, hsame child' hx]
      · obtain ⟨s, suffix, hs, heq⟩ := (doc l).under_of_indexEntries hface
        exact absurd heq ((doc l).primaryKey_ne_face key hs suffix)
    · exact absurd (childEntries_under hentry) (laws.bare l l' hl _ hunder)

/-- **What a put stores is read back**: each child by its own table's `get`, the
parent with the whole tree it carried. -/
theorem put_read_back {m : Keyspace} {i : ι} {v : RowVerb (Key i) (Row i)} {key : Key i}
    {row : Row i} (inv : FamilyInv doc embeds m) (guard : EmbedGuard doc embeds m i v)
    (hputs : (doc i).Puts m v key row) :
    (∀ j k child, ⟨j, k, child⟩ ∈ carried embeds i row → ∃ child',
      (doc j).get ((doc i).verb m v) k = .ok (some child') ∧ (doc j).Carries child child') ∧
    ∃ row', (doc i).get ((doc i).verb m v) key = .ok (some row') ∧
      Returned embeds doc i row row' := by
  obtain ⟨wi, rowsi, -⟩ := inv i
  have hpass := guard.pass key row hputs.stored
  obtain ⟨old, hwrote⟩ := Document.wrote_of_puts (payload i) (labels i) (embedsElsewhere laws i)
    rowsi.encoded hputs
  -- every carried child was put into its own table, which is not the parent's
  have hchild : ∀ j k child, ⟨j, k, child⟩ ∈ carried embeds i row → ∃ w,
      TableInv (doc j) ((doc i).verb m v) w ∧ w k = some child := by
    intro j k child hmem
    obtain ⟨p, field, hfield, rfl⟩ := embedded_of_carried hmem
    obtain ⟨fi, hfi, cell, hcell, c, hc, heq⟩ := mem_carried.mp hmem
    have hne : field.child ≠ i := by
      have hchild : fi.child = field.child := congrArg Sigma.fst heq
      rw [← hchild]
      exact laws.child_ne hfi
    obtain ⟨w, -, table⟩ := inv field.child
    obtain ⟨w', inv', hput⟩ := other_step laws payload labels hne hwrote
      (table ⟨p, field, hfield, rfl⟩) rowsi.encoded hpass
    exact ⟨w', inv', hput k child hmem⟩
  -- the row itself lies under its primary key
  have hstored : ((doc i).verb m v).get ((doc i).primaryKey key)
      = some ((doc i).encodePayload row) := by
    rw [Document.primaryKey, hwrote.move.rows, if_pos rfl]
    rfl
  refine ⟨fun j k child hmem => ?_, ?_⟩
  · obtain ⟨w, table, hw⟩ := hchild j k child hmem
    have hraw := table.faces.stored k
    rw [hw] at hraw
    exact Document.get_carries (payload j) (labels j) ((doc i).verb m v)
      (table.faces.encoded.settled hraw) (table.faces.named k child hw) hraw
  · -- the row read back, then its children level by level
    obtain ⟨-, -, hnamed⟩ := hwrote.vocabs rowsi.vocabs
    obtain ⟨row', hget, hcarries⟩ := Document.get_carries (payload i) (labels i)
      ((doc i).verb m v) (guard.settled key row hputs.stored) (hnamed row rfl) hstored
    refine ⟨row', hget, get_returned laws payload hstored ?_ hget hcarries⟩
    obtain ⟨rank, hrank⟩ := laws.nested
    have hheld : ∀ field ∈ embeds i, ∀ cell ∈ field.cells row, ∀ child, cell.2 = some child →
        (⟨field.child, cell.1, child⟩ : Σ j, Key j × Row j) ∈ carried embeds i row :=
      fun field hfield cell hcell child hsome =>
        mem_carried.mpr ⟨field, hfield, cell, hcell, child, hsome, rfl⟩
    refine .intro (fun field hfield cell hcell child hsome => ?_)
      fun field hfield cell hcell child hsome => ?_
    · have hmem := hheld field hfield cell hcell child hsome
      obtain ⟨w, table, hw⟩ := hchild _ _ _ hmem
      refine ⟨(hpass.adopted _ _ _ hmem).kept.settled, (hpass.adopted _ _ _ hmem).unlabelled, ?_⟩
      rw [embedKey_eq (hpass.unpartitioned _ hmem), table.faces.stored, hw]
      rfl
    · -- a row below was settled, and its table is not the parent's
      refine (hpass.settled _ _ _ (hheld field hfield cell hcell child hsome)).mono hrank
        fun l hl k grandchild hsettled => ⟨hsettled.2.1.1, hsettled.2.1.2.1, ?_⟩
      have hne : i ≠ l := by
        have hlt := hrank i field hfield
        rintro rfl
        omega
      have houtside : ¬ Under (doc i).header (fun _ => True) (embedKey doc l k) := by
        rw [embedKey_eq hsettled.1]
        exact fun hunder => laws.apart i l hne _ hunder (under_faceKey.mpr trivial)
      have hsame : old.map (doc i).encodePayload
          = ((doc i).seen m key).map (doc i).encodePayload := by
        rw [← hwrote.move.stored]
        exact (Document.found_get (payload i) (labels i) (s := m) rowsi.encoded
          ((doc i).get_seen m key)).1
      have hops : (doc i).embedOps row old = (doc i).embedOps row ((doc i).seen m key) := by
        rw [embedOps_eq laws, embedOps_eq laws, released_congr laws row hsame]
      rw [hwrote.embeds _ houtside, hops]
      exact held_of_settled laws hsettled

/-- **Embedded children are ordinary children** along every run of guarded calls: an
embedded table's entries are those of its rows and its ledgers their totals; and a
guarded put, upsert or save that stores its row makes the `get` of each child's table
answer the child, and the parent's the whole tree. -/
theorem embedded_children_ordinary {m : Keyspace} (run : EmbedRun doc embeds m) :
    (∀ j, Embedded embeds j → Ordinary (doc j) m) ∧
    ∀ i v key row, EmbedGuard doc embeds m i v → (doc i).Puts m v key row →
      (∀ j k child, ⟨j, k, child⟩ ∈ carried embeds i row → ∃ child',
        (doc j).get ((doc i).verb m v) k = .ok (some child') ∧ (doc j).Carries child child') ∧
      ∃ row', (doc i).get ((doc i).verb m v) key = .ok (some row') ∧
        Returned embeds doc i row row' := by
  have inv := familyInv_run laws payload labels run
  refine ⟨fun j hj => ?_, fun i v key row guard hputs =>
    put_read_back laws payload labels inv guard hputs⟩
  obtain ⟨w, -, table⟩ := inv j
  exact (table hj).ordinary (payload j) (labels j)

end

/-! ## Folders with a note -/

inductive Desk where
  | folder
  | note
  deriving DecidableEq

/-- A folder: its colour, and the note it refers to with the tag it carries. -/
structure Folder where
  colour : UInt8
  note : (UInt8 × UInt8) × Option UInt8

abbrev DeskKey : Desk → Type
  | .folder => UInt8
  | .note => UInt8 × UInt8

abbrev DeskRow : Desk → Type
  | .folder => Folder
  | .note => UInt8

instance deskKey : ∀ i, KeyEncode (DeskKey i)
  | .folder => byteKey
  | .note => pairKey

def noteEntries : (UInt8 × UInt8) × Option UInt8 → List (Bytes × Bytes)
  | (key, some tag) =>
    (faceKey tailDoc.nsPrefix primarySlot (encode key), tailDoc.encodePayload tag) ::
      tailDoc.indexEntriesUnder tailDoc.nsPrefix (decode (encode key)) tag
  | (_, none) => []

def derefNote (read : ReadFn) : (UInt8 × UInt8) × Option UInt8 → Except Error (Option UInt8)
  | (_, some tag) => .ok (some tag)
  | (key, none) => do
    match ← read (faceKey tailDoc.nsPrefix primarySlot (encode key)) with
    | none => .ok none
    | some payload =>
      let tag ← tailDoc.embedDeref read (tailDoc.decodePayload payload)
      .ok (some tag)

theorem derefNote_ok {read : ReadFn} (h : ∀ k, ∃ v, read k = .ok v)
    (cell : (UInt8 × UInt8) × Option UInt8) : ∃ value, derefNote read cell = .ok value := by
  obtain ⟨key, tag⟩ := cell
  cases tag with
  | some tag => exact ⟨some tag, rfl⟩
  | none =>
    obtain ⟨raw, hraw⟩ := h (faceKey tailDoc.nsPrefix primarySlot (encode key))
    unfold derefNote
    dsimp only
    rw [hraw]
    cases raw with
    | none => exact ⟨none, rfl⟩
    | some raw => exact ⟨_, rfl⟩

/-- Folders; their notes are rows of `tailDoc`. -/
def folderDoc : Document UInt8 Folder where
  partitionPrefix := []
  nsPrefix := [0, 5]
  leads := []
  indexes := []
  reduces := []
  vocabFields := []
  encodePayload folder := folder.colour :: encode folder.note.1
  decodePayload raw := ⟨raw.headD 0, decode raw.tail, none⟩
  embedDeref read folder := do
    let tag ← derefNote read folder.note
    .ok ⟨folder.colour, folder.note.1, tag⟩
  embedEntries folder := noteEntries folder.note
  embedKeys folder := [faceKey tailDoc.nsPrefix primarySlot (encode folder.note.1)]
  fields := ["colour", "note"]
  toMap folder := (SortedMap.empty.insert "colour" (.uint folder.colour.toUInt64)).insert "note"
    (.bytes (encode folder.note.1))
  tryFromMap map := do
    let colour ← byteField map "colour"
    match map.get "note" with
    | some (.bytes raw) => .ok ⟨colour, decode raw, none⟩
    | some _ => .error (.kindMismatch "note" "Bytes" "")
    | none => .ok ⟨colour, (0, 0), none⟩
  leadSlots := noLeads
  indexSlots := by simp
  reduceSlots := by simp
  leadsNodup := List.nodup_nil
  indexesNodup := List.nodup_nil
  reducesNodup := List.nodup_nil
  vocabFaces := by simp
  embedDeref_ok h folder := by
    obtain ⟨tag, htag⟩ := derefNote_ok h folder.note
    rw [htag]
    exact ⟨_, rfl⟩

def noteField : EmbedField DeskKey DeskRow .folder where
  child := .note
  cells (folder : Folder) := [folder.note]
  fill (folder : Folder) values := (⟨folder.colour, folder.note.1, values.headD none⟩ : Folder)

def desk : ∀ i, Document (DeskKey i) (DeskRow i)
  | .folder => folderDoc
  | .note => tailDoc

def deskEmbeds : ∀ i, List (EmbedField DeskKey DeskRow i)
  | .folder => [noteField]
  | .note => []

theorem desk_embeds : Embeds desk deskEmbeds where
  entries i row := by
    cases i with
    | note => rfl
    | folder =>
      obtain ⟨colour, key, tag⟩ := row
      cases tag with
      | none => rfl
      | some tag => rfl
  keys i row := by
    cases i with
    | note => rfl
    | folder => rfl
  deref i read row := by
    cases i with
    | note => rfl
    | folder =>
      obtain ⟨colour, key, tag⟩ := row
      -- one field with one cell: the pass is the hand-written dereference
      have hcell : noteField.derefCell desk read (key, tag) = derefNote read (key, tag) := by
        cases tag with
        | none => rfl
        | some tag => rfl
      have hderef := @EmbedField.deref_ref _ DeskKey DeskRow _ desk .folder noteField read
        (⟨colour, key, tag⟩ : Folder) (key, tag) rfl
      rw [hcell] at hderef
      change (derefNote read (key, tag) >>= _) = (noteField.deref desk read _ >>= _)
      rw [hderef]
      cases derefNote read (key, tag) with
      | error e => rfl
      | ok value => rfl
  nested := by
    -- a folder refers to notes and a note to nothing
    refine ⟨fun i => if i = .folder then 1 else 0, fun i field h => ?_⟩
    cases i with
    | note => cases h
    | folder =>
      obtain rfl := List.mem_singleton.mp h
      decide
  nodup i := by
    cases i with
    | note => exact List.nodup_nil
    | folder => exact List.nodup_singleton _
  cells_fill i field h row values hlen := by
    cases i with
    | note => cases h
    | folder =>
      obtain rfl := List.mem_singleton.mp h
      obtain ⟨value, rfl⟩ := List.length_eq_one_iff.mp hlen
      rfl
  cells_fill_other i field h other h' hne := by
    cases i with
    | note => cases h
    | folder =>
      rw [List.mem_singleton.mp h, List.mem_singleton.mp h'] at hne
      exact absurd rfl hne
  cells_decode i field h row := by
    cases i with
    | note => cases h
    | folder =>
      obtain rfl := List.mem_singleton.mp h
      rfl
  cells_setName i field h v hv := by
    cases i with
    | note => cases h
    | folder => cases hv
  apart i j hne k hi hj := by
    obtain ⟨s, suffix, -, rfl⟩ := hi
    obtain ⟨t, suffix', -, heq⟩ := hj
    cases i <;> cases j
    · exact hne rfl
    · cases heq
    · cases heq
    · exact hne rfl
  bare i j hne k hi hj := by
    obtain ⟨s, suffix, -, rfl⟩ := hi
    obtain ⟨t, suffix', -, heq⟩ := hj
    cases i <;> cases j
    · exact hne rfl
    · cases heq
    · cases heq
    · exact hne rfl

theorem folderDoc_payload : folderDoc.PayloadLaws where
  embedDeref_payload h := by
    obtain ⟨tag, -, h⟩ := bind_eq_ok.mp h
    obtain rfl := Except.ok.inj h
    rfl
  setName_payload := by simp [folderDoc]

theorem folderDoc_labels : folderDoc.LabelLaws := by
  constructor <;> simp [folderDoc]

theorem desk_payload : ∀ i, (desk i).PayloadLaws
  | .folder => folderDoc_payload
  | .note => tailDoc_payload

theorem desk_labels : ∀ i, (desk i).LabelLaws
  | .folder => folderDoc_labels
  | .note => tailDoc_labels

/-- A folder with a note of its own. -/
def ownNote : RowVerb UInt8 Folder := .put 1 ⟨3, (1, 1), some 5⟩

theorem ownNote_guard : EmbedGuard desk deskEmbeds SortedMap.empty .folder ownNote := by
  have hno : ¬ Embedded deskEmbeds .folder := by
    rintro ⟨i, field, hfield, hchild⟩
    cases i with
    | note => cases hfield
    | folder =>
      rw [List.mem_singleton.mp hfield] at hchild
      cases hchild
  refine ⟨fun key row _ => rfl, fun h => absurd h hno, fun h => absurd h hno,
    fun key row hstored => ?_⟩
  obtain ⟨rfl, rfl⟩ := Prod.mk.inj (Option.some.inj hstored)
  have hcarried : ∀ j key child,
      ⟨j, key, child⟩ ∈ carried deskEmbeds .folder (⟨3, (1, 1), some 5⟩ : Folder) →
        (⟨j, key, child⟩ : Σ j, DeskKey j × DeskRow j) = ⟨.note, (1, 1), (5 : UInt8)⟩ :=
    fun j key child hmem => List.mem_singleton.mp hmem
  refine ⟨fun x hx => ?_, fun j => ⟨fun key child child' h h' => ?_,
    fun key child key' child' h h' hne => ?_⟩, fun j key child h => ?_, fun j key h => ?_,
    fun j key child h => ?_⟩
  · obtain ⟨j, key, child⟩ := x
    cases hcarried j key child hx
    rfl
  · have heq := (hcarried j key child h).trans (hcarried j key child' h').symm
    cases heq
    rfl
  · have heq := (hcarried j key child h).trans (hcarried j key' child' h').symm
    cases heq
    exact absurd rfl hne
  · cases hcarried j key child h
    exact ⟨⟨rfl, by simp [desk, tailDoc]⟩, by simp [desk, tailDoc], rfl,
      by simp [SameShares, desk, tailDoc], tailDoc_rederivable _ _,
      fun key' row' _ hrow => nomatch hrow⟩
  · cases h
  · cases hcarried j key child h
    refine .intro (fun field hfield => ?_) fun field hfield => ?_
    · cases hfield
    · cases hfield

/-- The note is a row of its table, and the folder is read back with it. -/
theorem embedded_children_ordinary_note :
    Ordinary tailDoc (folderDoc.verb SortedMap.empty ownNote) ∧
    (∃ tag, tailDoc.get (folderDoc.verb SortedMap.empty ownNote) (1, 1) = .ok (some tag) ∧
      tailDoc.Carries 5 tag) ∧
    ∃ folder, folderDoc.get (folderDoc.verb SortedMap.empty ownNote) 1 = .ok (some folder) ∧
      Returned deskEmbeds desk .folder (⟨3, (1, 1), some 5⟩ : Folder) folder := by
  have hrun : EmbedRun desk deskEmbeds (folderDoc.verb SortedMap.empty ownNote) :=
    @EmbedRun.call _ DeskKey DeskRow _ desk deskEmbeds _ .start .folder ownNote ownNote_guard
  have hbefore := (embedded_children_ordinary desk_embeds desk_payload desk_labels .start).2 Desk.folder ownNote (1 : UInt8) ⟨3, (1, 1), some 5⟩ ownNote_guard (.put rfl)
  have hafter := (embedded_children_ordinary desk_embeds desk_payload desk_labels hrun).1 Desk.note ⟨Desk.folder, noteField, List.mem_singleton_self _, rfl⟩
  exact ⟨hafter, hbefore.1 .note (1, 1) (5 : UInt8) (List.mem_singleton_self _), hbefore.2⟩

/-- The folder then turns to another note: the one it owned is gone, and its index
entry points at a missing row. -/
theorem release_leaves_entry :
    let m := folderDoc.verb (folderDoc.verb SortedMap.empty ownNote)
      (.clean (.save 1 ⟨3, (1, 2), none⟩))
    tailDoc.get m (1, 1) = .ok none ∧
    m.get (faceKey tailDoc.header tailIndex.slot [5, 1]) = some [] :=
  ⟨by rfl, by decide⟩

end Okm.Model
