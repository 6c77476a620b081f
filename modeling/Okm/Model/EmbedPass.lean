import Okm.Model.Embedding

/-!
# Rows put into a table from outside

What the embed pass of a parent does to a child's table. A carried child is put
with its entries and nothing else: the entries of the row it covers stay, and no
accumulator moves. So the table is as its own verbs would have left it when the
covered row had no entry the new one lacks and the ledgers tell the two apart by
nothing (`Adoptable`); a released child goes by its primary key alone, which is
right when it had no entries and no share (`Droppable`).
-/

namespace Okm.Model

open Lib VirtualStorage KeyEncode

variable {K R : Type} [KeyEncode K]

/-! ## Ledgers by what they read as -/

/-- The exact accumulators of a table read as what the rows of their groups add up
to; one that was never written reads as zero. -/
def LedgersRead (doc : Document K R) (m : Keyspace) : Prop :=
  ∀ reduce ∈ doc.reduces, reduce.Exact → ∀ g,
    Reduce.decodeAcc (m.get (faceKey doc.header reduce.slot g)) = doc.groupTotal reduce g m

/-- The ledgers cannot tell the one from the other. -/
def SameShares (doc : Document K R) (key : K) (old new : Option R) : Prop :=
  ∀ reduce ∈ doc.reduces, reduce.Exact → ∀ g,
    reduce.rowShare g key old = reduce.rowShare g key new

/-- Every reduce recounts every row of the table. -/
def Recounts (doc : Document K R) (f : Reads) : Prop :=
  ∀ reduce ∈ doc.reduces, doc.RowsRecounted reduce f

/-- The row keeps its payload when it is read back, and every reduce recounts it. -/
structure KeptAll (doc : Document K R) (key : K) (row : R) : Prop where
  settled : doc.Settled row
  recounted : ∀ reduce ∈ doc.reduces, doc.Recounted reduce key row

namespace Reduce

omit [KeyEncode K]

variable {reduce : Reduce K R}

theorem decodeAcc_leave (h : reduce.Exact) (key : K) (row : Option R) (g : Bytes)
    (acc : Option Bytes) :
    decodeAcc (movedBy reduce key row false g acc) = decodeAcc acc - reduce.rowShare g key row := by
  cases row with
  | none => rw [movedBy, rowShare, sub_zero]
  | some document =>
    rw [movedBy, regrouped, rowShare]
    by_cases hg : g = reduce.groupBytes key document
    · rw [if_pos hg, if_pos hg.symm, next_exact h, decodeAcc_encodeAcc, if_neg Bool.false_ne_true]
    · rw [if_neg hg, if_neg (Ne.symm hg), sub_zero]

theorem decodeAcc_enter (h : reduce.Exact) (key : K) (row : Option R) (g : Bytes)
    (acc : Option Bytes) :
    decodeAcc (movedBy reduce key row true g acc) = decodeAcc acc + reduce.rowShare g key row := by
  cases row with
  | none => rw [movedBy, rowShare, add_zero]
  | some document =>
    rw [movedBy, regrouped, rowShare]
    by_cases hg : g = reduce.groupBytes key document
    · rw [if_pos hg, if_pos hg.symm, next_exact h, decodeAcc_encodeAcc, if_pos rfl]
    · rw [if_neg hg, if_neg (Ne.symm hg), add_zero]

end Reduce

section

variable {doc : Document K R} {m m' : Keyspace}

/-- The same rows and the same accumulators read the same. -/
theorem LedgersRead.kept (h : LedgersRead doc m)
    (hrows : ∀ suffix, m'.get (faceKey doc.header primarySlot suffix)
      = m.get (faceKey doc.header primarySlot suffix))
    (hgroups : ∀ reduce ∈ doc.reduces, ∀ g, m'.get (faceKey doc.header reduce.slot g)
      = m.get (faceKey doc.header reduce.slot g)) : LedgersRead doc m' := by
  intro reduce hmem hexact g
  rw [hgroups reduce hmem, h reduce hmem hexact g, Document.groupTotal, Document.groupTotal,
    rowTable_congr hrows]

/-- **A changed row keeps the ledgers** when its accumulators lose the old share and
take in the new one. -/
theorem LedgersRead.changed (h : LedgersRead doc m) (rows : doc.RowsEncoded m.get)
    (counts : Recounts doc m.get) {key : K} {old new : Option R}
    (kept : ∀ row, new = some row → KeptAll doc key row)
    (hstored : m.get (doc.primaryKey key) = old.map doc.encodePayload)
    (hrows : ∀ suffix, m'.get (faceKey doc.header primarySlot suffix)
      = if suffix = encode key then new.map doc.encodePayload
        else m.get (faceKey doc.header primarySlot suffix))
    (hacc : ∀ reduce ∈ doc.reduces, reduce.Exact → ∀ g,
      Reduce.decodeAcc (m'.get (faceKey doc.header reduce.slot g))
        = Reduce.decodeAcc (m.get (faceKey doc.header reduce.slot g))
          - reduce.rowShare g key old + reduce.rowShare g key new) : LedgersRead doc m' := by
  intro reduce hmem hexact g
  have hstored' : m'.get (doc.primaryKey key) = new.map doc.encodePayload := by
    rw [Document.primaryKey, hrows, if_pos rfl]
  have hbefore := groupTotal_split rows (counts reduce hmem) hstored g
  have hafter := groupTotal_split (rows.changed hrows fun row hrow => (kept row hrow).settled)
    ((counts reduce hmem).changed hrows fun row hrow => (kept row hrow).recounted reduce hmem)
    hstored' g
  rw [rowTable_erase hrows] at hafter
  rw [hacc reduce hmem hexact g, h reduce hmem hexact g, hbefore, hafter, add_sub_cancel_left,
    add_comm]

theorem Recounts.changed {f f' : Reads} (h : Recounts doc f) {key : K} {new : Option R}
    (kept : ∀ row, new = some row → KeptAll doc key row)
    (hrows : ∀ suffix, f' (faceKey doc.header primarySlot suffix)
      = if suffix = encode key then new.map doc.encodePayload
        else f (faceKey doc.header primarySlot suffix)) : Recounts doc f' :=
  fun reduce hmem => (h reduce hmem).changed hrows fun row hrow =>
    (kept row hrow).recounted reduce hmem

theorem LedgersRead.moved (h : LedgersRead doc m) (rows : doc.RowsEncoded m.get)
    (counts : Recounts doc m.get) {key : K} {old new : Option R}
    (kept : ∀ row, new = some row → KeptAll doc key row)
    (move : doc.RowMove m.get m'.get key old new) : LedgersRead doc m' := by
  refine h.changed rows counts kept move.stored move.rows fun reduce hmem hexact g => ?_
  rw [move.groups reduce hmem g, Reduce.decodeAcc_enter hexact, Reduce.decodeAcc_leave hexact]

end

/-! ## One row from outside -/

/-- A table in order: its faces hold the entries of its rows, its ledgers their
totals. -/
structure TableInv (doc : Document K R) (m : Keyspace) (w : K → Option R) : Prop where
  faces : doc.FaceInv m.get w
  recounts : Recounts doc m.get
  ledgers : LedgersRead doc m

/-- A row that may be put from outside over what the table holds. -/
structure Adoptable (doc : Document K R) (w : K → Option R) (key : K) (child : R) : Prop where
  kept : KeptAll doc key child
  unlabelled : ∀ v ∈ doc.vocabFields, v.label child = none
  stale : doc.staleFaces key child (w key) = []
  shares : SameShares doc key (w key) (some child)
  rederivable : doc.Rederivable key child
  apart : ∀ key' row', encode key' ≠ encode key → w key' = some row' →
    doc.Apart key child key' row'

/-- A row that may be taken out by its primary key alone. -/
structure Droppable (doc : Document K R) (key : K) (old : Option R) : Prop where
  faces : ∀ row, old = some row → doc.indexEntries key row = []
  shares : SameShares doc key old none

theorem get_applyOps_written (m : Keyspace) (ops : List (Op Bytes Bytes)) :
    (applyOps m ops).get = written ops m.get := funext fun k => get_applyOps m ops k

section

variable {doc : Document K R} {m : Keyspace} {w : K → Option R}

theorem TableInv.congr (inv : TableInv doc m w) {m' : Keyspace}
    (hsame : ∀ s suffix, m'.get (faceKey doc.header s suffix)
      = m.get (faceKey doc.header s suffix)) : TableInv doc m' w where
  faces := inv.faces.kept (hsame primarySlot) (fun s _ => hsame s)
    (Document.vocabs_of_same inv.faces.vocabs fun s suffix _ => hsame s suffix)
  recounts reduce hmem := (inv.recounts reduce hmem).kept (hsame primarySlot)
  ledgers := inv.ledgers.kept (hsame primarySlot) fun reduce _ => hsame reduce.slot

theorem TableInv.resting (inv : TableInv doc m w) {m' : Keyspace}
    (h : Document.Resting doc m.get m'.get) : TableInv doc m' w where
  faces := inv.faces.resting h
  recounts reduce hmem := (inv.recounts reduce hmem).kept (h.quiet.at_slot fun hq => hq.1 rfl)
  ledgers := inv.ledgers.kept (h.quiet.at_slot fun hq => hq.1 rfl) fun _ hmem =>
    h.quiet.at_slot (Document.quiet_not_reduce hmem)

/-- What a put of a row with its entries leaves, slot by slot. -/
theorem written_entries (key : K) (row : R) (raw : Bytes) (f : Reads) (s : Slot) (suffix : Bytes) :
    written (putOps ((doc.primaryKey key, raw) :: doc.indexEntries key row)) f
        (faceKey doc.header s suffix)
      = written (putOps (doc.indexEntries key row))
          (written [(doc.primaryKey key, some raw)] f) (faceKey doc.header s suffix) := by
  have hsplit : putOps ((doc.primaryKey key, raw) :: doc.indexEntries key row)
      = [(doc.primaryKey key, some raw)] ++ putOps (doc.indexEntries key row) := rfl
  rw [hsplit, written_append, Function.comp_apply]

theorem written_entries_other (key : K) (row : R) (raw : Bytes) (f : Reads) {s : Slot}
    (hs : s ∉ doc.faceSlots) (suffix : Bytes) :
    written (putOps ((doc.primaryKey key, raw) :: doc.indexEntries key row)) f
        (faceKey doc.header s suffix)
      = written [(doc.primaryKey key, some raw)] f (faceKey doc.header s suffix) := by
  rw [written_entries]
  refine written_of_not_mem (fun op hop heq => hs ?_) _
  obtain ⟨e, he, hkey⟩ := Document.mem_putOps hop
  exact under_faceKey.mp (heq ▸ hkey ▸ doc.under_of_indexEntries he)

theorem written_primary_other (key : K) (v : Option Bytes) (f : Reads) {s : Slot}
    (hs : s ≠ primarySlot) (suffix : Bytes) :
    written [(doc.primaryKey key, v)] f (faceKey doc.header s suffix)
      = f (faceKey doc.header s suffix) := by
  refine written_of_not_mem (fun op hop => ?_) f
  obtain rfl := List.mem_singleton.mp hop
  exact faceKey_ne_of_slot hs.symm _ _

theorem written_primary (key : K) (v : Option Bytes) (f : Reads) (suffix : Bytes) :
    written [(doc.primaryKey key, v)] f (faceKey doc.header primarySlot suffix)
      = if suffix = encode key then v else f (faceKey doc.header primarySlot suffix) := by
  rw [written, doc.pending_primary key v suffix]
  by_cases h : suffix = encode key
  · rw [if_pos h, if_pos h, Option.getD_some]
  · rw [if_neg h, if_neg h, Option.getD_none]

/-- **An adopted row leaves the table in order.** -/
theorem TableInv.adopt (inv : TableInv doc m w) {key : K} {child : R}
    (h : Adoptable doc w key child) :
    TableInv doc (applyOps m (putOps ((doc.primaryKey key, doc.encodePayload child) ::
      doc.indexEntries key child))) (Document.setRow w key (some child)) := by
  -- the pass writes the row and its entries, and nothing else
  have hother : ∀ {s : Slot}, s ∉ doc.faceSlots → s ≠ primarySlot → ∀ suffix,
      (applyOps m (putOps ((doc.primaryKey key, doc.encodePayload child) ::
        doc.indexEntries key child))).get (faceKey doc.header s suffix)
        = m.get (faceKey doc.header s suffix) := by
    intro s hs hne suffix
    rw [get_applyOps_written, written_entries_other _ _ _ _ hs, written_primary_other _ _ _ hne]
  have hrows : ∀ suffix,
      (applyOps m (putOps ((doc.primaryKey key, doc.encodePayload child) ::
        doc.indexEntries key child))).get (faceKey doc.header primarySlot suffix)
        = if suffix = encode key then (some child).map doc.encodePayload
          else m.get (faceKey doc.header primarySlot suffix) := by
    intro suffix
    rw [get_applyOps_written, written_entries_other _ _ _ _ doc.primary_not_face, written_primary]
    rfl
  have hkept : ∀ row, some child = some row → KeptAll doc key row := by
    intro row hrow
    rw [← Option.some.inj hrow]
    exact h.kept
  refine ⟨inv.faces.changed ⟨hrows, fun hsound => ?_⟩
    (Document.swept_of_stale h.stale fun s hs suffix => ?_) rfl
    (fun row hrow => (hkept row hrow).settled) (fun row hrow => ?_) fun row hrow => ?_,
    inv.recounts.changed hkept hrows, ?_⟩
  · obtain ⟨hs', hk⟩ := Document.vocabs_of_same hsound fun s suffix hlabel =>
      hother (doc.labelSlot_quiet hlabel).2.1 (doc.labelSlot_quiet hlabel).1 suffix
    refine ⟨hs', hk, fun row hrow v hv label hl => ?_⟩
    obtain rfl := Option.some.inj hrow
    rw [h.unlabelled v hv] at hl
    cases hl
  · have hne : s ≠ primarySlot := fun heq => doc.primary_not_face (heq ▸ hs)
    rw [get_applyOps_written, written_entries]
    exact congrArg (Option.getD _) (written_primary_other key _ m.get hne suffix)
  · rw [← Option.some.inj hrow]
    exact h.rederivable
  · rw [← Option.some.inj hrow]
    exact h.apart
  · -- the counts do not move, so the shares of old and new have to be equal
    refine inv.ledgers.changed inv.faces.encoded inv.recounts hkept (inv.faces.stored key) hrows
      fun reduce hmem hexact g => ?_
    rw [hother (doc.reduce_not_face hmem) (doc.reduce_ne_primary hmem),
      h.shares reduce hmem hexact g, sub_add_cancel]

/-- **A dropped row leaves the table in order.** -/
theorem TableInv.drop (inv : TableInv doc m w) {key : K} (h : Droppable doc key (w key)) :
    TableInv doc (applyOps m (delOps [doc.primaryKey key])) (Document.setRow w key none) := by
  have hget : (applyOps m (delOps [doc.primaryKey key])).get
      = written [(doc.primaryKey key, none)] m.get := get_applyOps_written _ _
  have hother : ∀ {s : Slot}, s ≠ primarySlot → ∀ suffix,
      (applyOps m (delOps [doc.primaryKey key])).get (faceKey doc.header s suffix)
        = m.get (faceKey doc.header s suffix) := by
    intro s hne suffix
    rw [hget, written_primary_other _ _ _ hne]
  have hrows : ∀ suffix,
      (applyOps m (delOps [doc.primaryKey key])).get (faceKey doc.header primarySlot suffix)
        = if suffix = encode key then (none : Option R).map doc.encodePayload
          else m.get (faceKey doc.header primarySlot suffix) := by
    intro suffix
    rw [hget, written_primary]
    rfl
  have swept : doc.Swept m.get (applyOps m (delOps [doc.primaryKey key])).get key (w key) none := by
    intro s hs suffix
    have hne : s ≠ primarySlot := fun heq => doc.primary_not_face (heq ▸ hs)
    rw [hother hne]
    cases hrow : w key with
    | none => rfl
    | some row =>
      change _ = written (delOps ((doc.indexEntries key row).map Prod.fst) ++ putOps []) _ _
      rw [h.faces row hrow]
      rfl
  refine ⟨inv.faces.changed ⟨hrows, fun hsound => ?_⟩ swept rfl (by simp) (by simp) (by simp),
    inv.recounts.changed (by simp) hrows, ?_⟩
  · obtain ⟨hs', hk⟩ := Document.vocabs_of_same hsound fun s suffix hlabel =>
      hother (doc.labelSlot_quiet hlabel).1 suffix
    exact ⟨hs', hk, by simp⟩
  · refine inv.ledgers.changed inv.faces.encoded inv.recounts (by simp) (inv.faces.stored key) hrows
      fun reduce hmem hexact g => ?_
    rw [hother (doc.reduce_ne_primary hmem), h.shares reduce hmem hexact g, sub_add_cancel]

end

/-! ## The pass -/

theorem staleFaces_self (doc : Document K R) (key : K) (row : R) :
    doc.staleFaces key row (some row) = [] := by
  refine List.filter_eq_nil_iff.mpr fun face hface => ?_
  simpa using hface

/-- Two rows adopted one after the other: the second finds the first. -/
theorem Adoptable.after {doc : Document K R} {w : K → Option R} {key key' : K} {child child' : R}
    (h : Adoptable doc w key' child') (hsame : key' = key → child' = child)
    (hapart : encode key' ≠ encode key → doc.Apart key' child' key child) :
    Adoptable doc (Document.setRow w key (some child)) key' child' := by
  obtain ⟨kept, unlabelled, stale, shares, rederivable, apart⟩ := h
  by_cases hk : encode key' = encode key
  · have hfound : Document.setRow w key (some child) key' = some child' := by
      rw [Document.setRow, if_pos hk, hsame (encode_injective hk)]
    refine ⟨kept, unlabelled, ?_, ?_, rederivable, fun key'' row hne hrow => ?_⟩
    · rw [hfound]
      exact staleFaces_self doc key' child'
    · rw [hfound]
      exact fun _ _ _ _ => rfl
    · rw [Document.setRow, if_neg (hk ▸ hne)] at hrow
      exact apart key'' row hne hrow
  · have hfound : Document.setRow w key (some child) key' = w key' := if_neg hk
    refine ⟨kept, unlabelled, ?_, ?_, rederivable, fun key'' row hne hrow => ?_⟩
    · rw [hfound]
      exact stale
    · rw [hfound]
      exact shares
    · unfold Document.setRow at hrow
      by_cases hk' : encode key'' = encode key
      · rw [if_pos hk'] at hrow
        rw [encode_injective hk', ← Option.some.inj hrow]
        exact hapart hk
      · rw [if_neg hk'] at hrow
        exact apart key'' row hne hrow

section

variable {ι : Type} {Key Row : ι → Type} [∀ i, KeyEncode (Key i)]
variable {doc : ∀ i, Document (Key i) (Row i)} {embeds : ∀ i, List (EmbedField Key Row i)}

/-- The rows of a table one pass puts: one row for a key, and no entry of two rows. -/
structure Compatible (doc : ∀ i, Document (Key i) (Row i)) (j : ι)
    (rows : List (Σ l, Key l × Row l)) : Prop where
  same : ∀ key child child', ⟨j, key, child⟩ ∈ rows → ⟨j, key, child'⟩ ∈ rows → child = child'
  apart : ∀ key child key' child', ⟨j, key, child⟩ ∈ rows → ⟨j, key', child'⟩ ∈ rows →
    encode key ≠ encode key' → (doc j).Apart key child key' child'

theorem Compatible.tail {j : ι} {x : Σ l, Key l × Row l} {rows : List (Σ l, Key l × Row l)}
    (h : Compatible doc j (x :: rows)) : Compatible doc j rows where
  same key child child' hc hc' :=
    h.same key child child' (List.mem_cons_of_mem _ hc) (List.mem_cons_of_mem _ hc')
  apart key child key' child' hc hc' :=
    h.apart key child key' child' (List.mem_cons_of_mem _ hc) (List.mem_cons_of_mem _ hc')

/-- Without a partition the hooks and the table agree where a child lives. -/
theorem childEntries_eq {j : ι} (h : (doc j).partitionPrefix = []) (key : Key j) (child : Row j) :
    childEntries doc j key child = ((doc j).primaryKey key, (doc j).encodePayload child) ::
      (doc j).indexEntries key child := by
  have hheader : (doc j).nsPrefix = (doc j).header := by
    rw [Document.header, h, List.nil_append]
  rw [childEntries, embedKey, hheader, decode_encode]
  rfl

theorem embedKey_eq {j : ι} (h : (doc j).partitionPrefix = []) (key : Key j) :
    embedKey doc j key = (doc j).primaryKey key := by
  rw [embedKey, Document.primaryKey, Document.header, h, List.nil_append]

variable (laws : Embeds doc embeds)

/-- A list of writes under other namespaces leaves the table alone. -/
theorem TableInv.elsewhere {j : ι} {m : Keyspace} {w : Key j → Option (Row j)}
    (inv : TableInv (doc j) m w) {ops : List (Op Bytes Bytes)}
    (h : ∀ op ∈ ops, ¬ Under (doc j).header (fun _ => True) op.1) :
    TableInv (doc j) (applyOps m ops) w := by
  refine inv.congr fun s suffix => ?_
  rw [get_applyOps_written]
  exact written_of_not_mem (fun op hop heq => h op hop (heq ▸ under_faceKey.mpr trivial)) _

include laws

/-- **A pass of puts leaves each table in order**, with the rows it put in it. -/
theorem TableInv.adoptAll {j : ι} (rows : List (Σ l, Key l × Row l)) {m : Keyspace}
    {w : Key j → Option (Row j)} (inv : TableInv (doc j) m w)
    (hbare : ∀ x ∈ rows, (doc x.1).partitionPrefix = []) (compat : Compatible doc j rows)
    (hadopt : ∀ key child, ⟨j, key, child⟩ ∈ rows → Adoptable (doc j) w key child) :
    ∃ w', TableInv (doc j)
        (applyOps m (putOps (rows.flatMap fun x => childEntries doc x.1 x.2.1 x.2.2))) w' ∧
      (∀ key child, ⟨j, key, child⟩ ∈ rows → w' key = some child) ∧
      ∀ key, (∀ child, ⟨j, key, child⟩ ∉ rows) → w' key = w key := by
  induction rows generalizing m w with
  | nil => exact ⟨w, inv, by simp, fun _ _ => rfl⟩
  | cons x rest ih =>
    obtain ⟨l, key, child⟩ := x
    have hsplit : putOps ((⟨l, key, child⟩ :: rest).flatMap fun x : Σ l, Key l × Row l =>
        childEntries doc x.1 x.2.1 x.2.2) = putOps (childEntries doc l key child)
          ++ putOps (rest.flatMap fun x => childEntries doc x.1 x.2.1 x.2.2) := by
      rw [List.flatMap_cons, putOps, List.map_append]
      rfl
    have hbare' : ∀ x ∈ rest, (doc x.1).partitionPrefix = [] :=
      fun x hx => hbare x (List.mem_cons_of_mem _ hx)
    rw [hsplit, applyOps_append]
    by_cases hl : l = j
    · subst hl
      have hhead : (⟨l, key, child⟩ : Σ l, Key l × Row l) ∈ (⟨l, key, child⟩ :: rest :
        List (Σ l, Key l × Row l)) := List.mem_cons_self
      -- a child of this table is put, and the rest stay adoptable
      have inv₁ := inv.adopt (hadopt key child hhead)
      rw [← childEntries_eq (hbare _ hhead)] at inv₁
      obtain ⟨w', inv', hput, hkept⟩ := ih inv₁ hbare' compat.tail fun key' child' hmem => by
        have hmem' := List.mem_cons_of_mem (⟨l, key, child⟩ : Σ l, Key l × Row l) hmem
        refine (hadopt key' child' hmem').after (fun heq => ?_) fun hne => ?_
        · subst heq
          exact compat.same key' child' child hmem' hhead
        · exact compat.apart key' child' key child hmem' hhead hne
      refine ⟨w', inv', fun key' child' hmem => ?_, fun key' hno => ?_⟩
      · rcases List.mem_cons.mp hmem with heq | hmem'
        · cases heq
          -- the key may come again, with the same child
          by_cases hagain : ∃ child', (⟨l, key, child'⟩ : Σ l, Key l × Row l) ∈ rest
          · obtain ⟨child', hagain⟩ := hagain
            rw [hput key child' hagain,
              compat.same key child' child (List.mem_cons_of_mem _ hagain) hhead]
          · rw [hkept key fun child' hmem' => hagain ⟨child', hmem'⟩]
            exact if_pos rfl
        · exact hput key' child' hmem'
      · rw [hkept key' fun child' hmem' => hno child' (List.mem_cons_of_mem _ hmem')]
        refine if_neg fun heq => hno child ?_
        rw [encode_injective heq]
        exact hhead
    · -- a child of another table writes beside this one
      have inv₁ : TableInv (doc j) (applyOps m (putOps (childEntries doc l key child))) w := by
        refine inv.elsewhere fun op hop hunder => ?_
        obtain ⟨e, he, hkey⟩ := Document.mem_putOps hop
        exact laws.bare j l (Ne.symm hl) _ hunder (hkey ▸ childEntries_under he)
      obtain ⟨w', inv', hput, hkept⟩ := ih inv₁ hbare' compat.tail fun key' child' hmem =>
        hadopt key' child' (List.mem_cons_of_mem _ hmem)
      refine ⟨w', inv', fun key' child' hmem => ?_, fun key' hno => ?_⟩
      · rcases List.mem_cons.mp hmem with heq | hmem'
        · cases heq
          exact absurd rfl hl
        · exact hput key' child' hmem'
      · exact hkept key' fun child' hmem' => hno child' (List.mem_cons_of_mem _ hmem')

/-- **A pass of deletes leaves each table in order.** -/
theorem TableInv.dropAll {j : ι} (keys : List (Σ l, Key l)) {m : Keyspace}
    {w : Key j → Option (Row j)} (inv : TableInv (doc j) m w)
    (hdrop : ∀ key, ⟨j, key⟩ ∈ keys →
      (doc j).partitionPrefix = [] ∧ Droppable (doc j) key (w key)) :
    ∃ w', TableInv (doc j)
        (applyOps m (delOps (keys.map fun p => embedKey doc p.1 p.2))) w' ∧
      ∀ key, ⟨j, key⟩ ∉ keys → w' key = w key := by
  induction keys generalizing m w with
  | nil => exact ⟨w, inv, fun _ _ => rfl⟩
  | cons p rest ih =>
    obtain ⟨l, key⟩ := p
    have hsplit : delOps ((⟨l, key⟩ :: rest).map fun p : Σ l, Key l => embedKey doc p.1 p.2)
        = delOps [embedKey doc l key] ++ delOps (rest.map fun p => embedKey doc p.1 p.2) := rfl
    rw [hsplit, applyOps_append]
    by_cases hl : l = j
    · subst hl
      -- a row of this table goes, and the rest stay droppable
      obtain ⟨hpart, hhead⟩ := hdrop key List.mem_cons_self
      have inv₁ := inv.drop hhead
      rw [← embedKey_eq hpart] at inv₁
      obtain ⟨w', inv', hkept⟩ := ih inv₁ fun key' hmem => by
        obtain ⟨-, hfaces, hshares⟩ := hdrop key' (List.mem_cons_of_mem _ hmem)
        refine ⟨hpart, ?_⟩
        by_cases hk : encode key' = encode key
        · have hnone : Document.setRow w key none key' = none := if_pos hk
          rw [hnone]
          exact ⟨by simp, fun _ _ _ _ => rfl⟩
        · have hsame : Document.setRow w key none key' = w key' := if_neg hk
          rw [hsame]
          exact ⟨hfaces, hshares⟩
      refine ⟨w', inv', fun key' hno => ?_⟩
      rw [hkept key' fun hmem => hno (List.mem_cons_of_mem _ hmem)]
      refine if_neg fun heq => hno ?_
      rw [encode_injective heq]
      exact List.mem_cons_self
    · have inv₁ : TableInv (doc j) (applyOps m (delOps [embedKey doc l key])) w := by
        refine inv.elsewhere fun op hop hunder => ?_
        obtain rfl := List.mem_singleton.mp hop
        exact laws.bare j l (Ne.symm hl) _ hunder (under_faceKey.mpr trivial)
      obtain ⟨w', inv', hkept⟩ := ih inv₁ fun key' hmem =>
        hdrop key' (List.mem_cons_of_mem _ hmem)
      exact ⟨w', inv', fun key' hno => hkept key' fun hmem => hno (List.mem_cons_of_mem _ hmem)⟩

theorem embedOps_eq (i : ι) (row : Row i) (prev : Option (Row i)) :
    (doc i).embedOps row prev
      = putOps ((carried embeds i row).flatMap fun x => childEntries doc x.1 x.2.1 x.2.2)
        ++ delOps ((released doc embeds i row prev).map fun p => embedKey doc p.1 p.2) := by
  rw [Document.embedOps, embedEntries_eq laws, releasedKeys_eq laws]

/-- A carried child is not released. -/
theorem carried_not_released {i j : ι} {row : Row i} {prev : Option (Row i)} {key : Key j}
    {child : Row j} (h : ⟨j, key, child⟩ ∈ carried embeds i row) :
    ⟨j, key⟩ ∉ released doc embeds i row prev := by
  intro hmem
  cases prev with
  | none => cases hmem
  | some old =>
    have hno := (List.mem_filter.mp hmem).2
    rw [Bool.not_eq_true', List.contains_eq_mem, decide_eq_false_iff_not, embedKeys_eq laws] at hno
    exact hno (List.mem_map_of_mem (f := fun p : Σ l, Key l => embedKey doc p.1 p.2)
      (pointed_of_carried h))

/-- **The embed pass leaves each table in order**, and in it the children carried. -/
theorem TableInv.pass {i j : ι} {m : Keyspace} {w : Key j → Option (Row j)}
    (inv : TableInv (doc j) m w) (row : Row i) (prev : Option (Row i))
    (hbare : ∀ x ∈ carried embeds i row, (doc x.1).partitionPrefix = [])
    (compat : Compatible doc j (carried embeds i row))
    (hadopt : ∀ key child, ⟨j, key, child⟩ ∈ carried embeds i row → Adoptable (doc j) w key child)
    (hdrop : ∀ key, ⟨j, key⟩ ∈ released doc embeds i row prev →
      (doc j).partitionPrefix = [] ∧ Droppable (doc j) key (w key)) :
    ∃ w', TableInv (doc j) (applyOps m ((doc i).embedOps row prev)) w' ∧
      ∀ key child, ⟨j, key, child⟩ ∈ carried embeds i row → w' key = some child := by
  obtain ⟨w₁, inv₁, hput, hkept⟩ := inv.adoptAll laws _ hbare compat hadopt
  obtain ⟨w', inv', hkept'⟩ := inv₁.dropAll laws (released doc embeds i row prev) fun key hmem => by
      obtain ⟨hpart, hdroppable⟩ := hdrop key hmem
      rw [hkept key fun child hcarried => carried_not_released laws hcarried hmem]
      exact ⟨hpart, hdroppable⟩
  rw [embedOps_eq laws, applyOps_append]
  refine ⟨w', inv', fun key child hcarried => ?_⟩
  rw [hkept' key (carried_not_released laws hcarried), hput key child hcarried]

end

end Okm.Model
