import Okm.Model.VerbSteps

/-!
# Ledgers

The accumulator of a group is meant to say something about the rows of the group:
how many there are, or what a field of theirs adds up to, in the arithmetic of
the accumulator's width. `LedgerInv` states it, together with what its
preservation needs: rows are stored as encodings and recounted when they are read
back, and a group with a row in it was touched. One moved row keeps it (`LedgerInv.moved`): the group the old row
leaves loses exactly what the row had put in. So it holds along every run of the
verbs and of caller batches (`ledgerInv_run`), and the ledger is exact
(`ledger_exact`).

An embedded child is written by its parent without a pass over the reduces, so a
type that embeds itself counts its children short (`selfEmbedding_miscounts`).
-/

namespace Okm.Model

open Lib VirtualStorage KeyEncode

variable {K R : Type} [KeyEncode K]

/-! ## The rows of a table -/

namespace Document

variable (doc : Document K R)

def isRow (k : Bytes) : Bool := (faceKey doc.header primarySlot []).isPrefixOf k

/-- The primary entries. -/
def rowTable (m : Keyspace) : Keyspace := m.restrict doc.isRow

/-- The row of a primary entry: its key and its document. -/
def rowOf (k raw : Bytes) : K × R :=
  (decode (k.drop (faceKey doc.header primarySlot []).length), doc.decodePayload raw)

/-- Every stored row, in key order. -/
def storedRows (m : Keyspace) : List (K × R) :=
  (doc.rowTable m).entries.map fun e => doc.rowOf e.1 e.2

/-- The stored rows of a group. -/
def groupRows (reduce : Reduce K R) (g : Bytes) (m : Keyspace) : List (K × R) :=
  (doc.storedRows m).filter fun row => reduce.groupBytes row.1 row.2 = g

theorem faceKey_primary (suffix : Bytes) :
    faceKey doc.header primarySlot suffix = faceKey doc.header primarySlot [] ++ suffix := by
  simp [faceKey]

theorem isRow_iff {k : Bytes} :
    doc.isRow k = true ↔ ∃ suffix, k = faceKey doc.header primarySlot suffix := by
  unfold isRow
  rw [List.isPrefixOf_iff_prefix]
  constructor
  · rintro ⟨suffix, rfl⟩
    exact ⟨suffix, (doc.faceKey_primary suffix).symm⟩
  · rintro ⟨suffix, rfl⟩
    exact ⟨suffix, (doc.faceKey_primary suffix).symm⟩

@[simp] theorem isRow_primaryKey (key : K) : doc.isRow (doc.primaryKey key) = true :=
  doc.isRow_iff.mpr ⟨_, rfl⟩

theorem rowOf_primaryKey (key : K) (raw : Bytes) :
    doc.rowOf (doc.primaryKey key) raw = (key, doc.decodePayload raw) := by
  have hdrop : (doc.primaryKey key).drop (faceKey doc.header primarySlot []).length
      = encode key := by
    rw [primaryKey, doc.faceKey_primary (encode key), List.drop_left]
  rw [rowOf, hdrop, decode_encode]

/-! ## What a group adds up to -/

/-- What one primary entry adds to a group. -/
def share (reduce : Reduce K R) (g k raw : Bytes) : UInt64 :=
  let row := doc.rowOf k raw
  if reduce.groupBytes row.1 row.2 = g then Reduce.amount row.1 row.2 reduce.logic else 0

/-- What the rows of a group add up to. -/
def groupTotal (reduce : Reduce K R) (g : Bytes) (m : Keyspace) : UInt64 :=
  SortedMap.total (doc.share reduce g) (doc.rowTable m)

theorem groupTotal_eq_sum (reduce : Reduce K R) (g : Bytes) (m : Keyspace) :
    doc.groupTotal reduce g m
      = ((doc.groupRows reduce g m).map fun row => Reduce.amount row.1 row.2 reduce.logic).sum := by
  unfold groupTotal SortedMap.total groupRows storedRows
  induction (doc.rowTable m).entries with
  | nil => rfl
  | cons e es ih =>
    rw [List.map_cons, List.sum_cons, ih, List.map_cons, List.filter_cons]
    by_cases hg : reduce.groupBytes (doc.rowOf e.1 e.2).1 (doc.rowOf e.1 e.2).2 = g
    · simp [share, hg]
    · simp [share, hg]

/-- Some stored row is in the group. -/
def Populated (reduce : Reduce K R) (m : Keyspace) (g : Bytes) : Prop :=
  ∃ key raw, m.get (doc.primaryKey key) = some raw ∧
    reduce.groupBytes key (doc.decodePayload raw) = g

/-! ## The invariant -/

/-- The reduce finds in every row with this payload the group and the amount it finds
in the row. -/
def Recounted (reduce : Reduce K R) (key : K) (row : R) : Prop :=
  ∀ row', doc.encodePayload row' = doc.encodePayload row →
    reduce.groupBytes key row' = reduce.groupBytes key row ∧
    Reduce.amount key row' reduce.logic = Reduce.amount key row reduce.logic

/-- Every stored row is recounted. -/
def RowsRecounted (reduce : Reduce K R) (f : Reads) : Prop :=
  ∀ key row, f (doc.primaryKey key) = some (doc.encodePayload row) → doc.Recounted reduce key row

variable {doc}

theorem Recounted.congr {reduce : Reduce K R} {key : K} {row row' : R}
    (h : doc.Recounted reduce key row) (heq : doc.encodePayload row' = doc.encodePayload row) :
    doc.Recounted reduce key row' := by
  intro row'' hsame
  obtain ⟨hgroup, hamount⟩ := h row' heq
  obtain ⟨hgroup', hamount'⟩ := h row'' (hsame.trans heq)
  exact ⟨hgroup'.trans hgroup.symm, hamount'.trans hamount.symm⟩

/-- **A changed row among recounted ones.** -/
theorem RowsRecounted.changed {reduce : Reduce K R} {f f' : Reads}
    (h : doc.RowsRecounted reduce f) {key : K} {new : Option R}
    (hrows : ∀ suffix, f' (faceKey doc.header primarySlot suffix)
      = if suffix = encode key then new.map doc.encodePayload
        else f (faceKey doc.header primarySlot suffix))
    (hnew : ∀ row, new = some row → doc.Recounted reduce key row) : doc.RowsRecounted reduce f' := by
  intro k row hrow
  rw [primaryKey, hrows] at hrow
  by_cases hk : encode k = encode key
  · rw [if_pos hk] at hrow
    obtain ⟨row₀, hsome, hpayload⟩ := Option.map_eq_some_iff.mp hrow
    rw [encode_injective hk]
    exact (hnew row₀ hsome).congr hpayload.symm
  · rw [if_neg hk] at hrow
    exact h k row hrow

theorem RowsRecounted.kept {reduce : Reduce K R} {f f' : Reads} (h : doc.RowsRecounted reduce f)
    (hrows : ∀ suffix, f' (faceKey doc.header primarySlot suffix)
      = f (faceKey doc.header primarySlot suffix)) : doc.RowsRecounted reduce f' :=
  fun key row hrow => h key row ((hrows _).symm.trans hrow)

end Document

/-- An exact preset: a count or a sum. -/
def Reduce.Exact (reduce : Reduce K R) : Prop :=
  reduce.logic = .count ∨ ∃ field, reduce.logic = .sum field

/-- The ledger of one reduce: a touched group's accumulator is what its rows add
up to, an untouched group has none. -/
structure LedgerInv (doc : Document K R) (reduce : Reduce K R) (m : Keyspace)
    (touched : Bytes → Prop) : Prop where
  rows : doc.RowsEncoded m.get
  recounts : doc.RowsRecounted reduce m.get
  seen : ∀ g, doc.Populated reduce m g → touched g
  known : ∀ g, touched g → m.get (faceKey doc.header reduce.slot g)
    = some (Reduce.encodeAcc (doc.groupTotal reduce g m))
  unknown : ∀ g, ¬ touched g → m.get (faceKey doc.header reduce.slot g) = none

/-! ## Accumulators -/

namespace Reduce

omit [KeyEncode K]

@[simp] theorem decodeAcc_encodeAcc (acc : UInt64) : decodeAcc (some (encodeAcc acc)) = acc := by
  have hlt : acc.toNat < 256 ^ 8 := acc.toNat_lt
  rw [decodeAcc, encodeAcc, beNat_beBytes hlt, UInt64.ofNat_toNat]

variable {reduce : Reduce K R}

/-- What a row, if there is one, adds to a group. -/
def rowShare (reduce : Reduce K R) (g : Bytes) (key : K) : Option R → UInt64
  | some row => if reduce.groupBytes key row = g then amount key row reduce.logic else 0
  | none => 0

theorem next_exact (h : reduce.Exact) (acc : Option Bytes) (key : K) (document : R) (add : Bool) :
    reduce.next acc key document add
      = encodeAcc (if add then decodeAcc acc + amount key document reduce.logic
          else decodeAcc acc - amount key document reduce.logic) := by
  unfold next
  rcases h with h | ⟨field, h⟩
  · rw [h]
  · rw [h]

/-- A row leaves a group whose accumulator is there. -/
theorem movedBy_leave (h : reduce.Exact) (key : K) (row : Option R) (g : Bytes) (acc : UInt64) :
    movedBy reduce key row false g (some (encodeAcc acc))
      = some (encodeAcc (acc - reduce.rowShare g key row)) := by
  cases row with
  | none => simp [movedBy, rowShare]
  | some document =>
    rw [movedBy, regrouped, rowShare]
    by_cases hg : g = reduce.groupBytes key document
    · rw [if_pos hg, if_pos hg.symm, next_exact h, decodeAcc_encodeAcc]
      simp
    · rw [if_neg hg, if_neg (Ne.symm hg), sub_zero]

/-- A row enters a group, whose accumulator may not be there yet. -/
theorem movedBy_enter (h : reduce.Exact) (key : K) (row : Option R) (g : Bytes)
    (acc : Option Bytes) :
    movedBy reduce key row true g acc
      = if ∃ document, row = some document ∧ reduce.groupBytes key document = g then
          some (encodeAcc (decodeAcc acc + reduce.rowShare g key row))
        else acc := by
  cases row with
  | none => simp [movedBy]
  | some document =>
    rw [movedBy, regrouped, rowShare]
    by_cases hg : g = reduce.groupBytes key document
    · rw [if_pos hg, if_pos hg.symm, if_pos ⟨document, rfl, hg.symm⟩, next_exact h]
      simp
    · have hno : ¬ ∃ document', some document = some document' ∧
          reduce.groupBytes key document' = g := by
        rintro ⟨document', hsame, hg'⟩
        obtain rfl := Option.some.inj hsame
        exact hg hg'.symm
      rw [if_neg hg, if_neg hno]

end Reduce

/-! ## One row moves -/

section

variable {doc : Document K R} {m m' : Keyspace}

/-- A group without rows adds up to nothing. -/
theorem groupTotal_eq_zero {reduce : Reduce K R} (hrows : doc.RowsEncoded m.get) {g : Bytes}
    (h : ¬ doc.Populated reduce m g) : doc.groupTotal reduce g m = 0 := by
  have hnil : doc.groupRows reduce g m = [] := by
    refine List.filter_eq_nil_iff.mpr fun row hrow hg => h ?_
    obtain ⟨e, he, rfl⟩ := List.mem_map.mp hrow
    have hget : (doc.rowTable m).get e.1 = some e.2 := ((doc.rowTable m).get_eq_some_iff _ _).mpr he
    rw [Document.rowTable, SortedMap.get_restrict] at hget
    by_cases hrow : doc.isRow e.1 = true
    · rw [if_pos hrow] at hget
      obtain ⟨suffix, hsuffix⟩ := doc.isRow_iff.mp hrow
      rw [hsuffix] at hget
      obtain ⟨key, document, rfl, -, -⟩ := hrows suffix e.2 hget
      have hkey : e.1 = doc.primaryKey key := hsuffix
      rw [hkey, doc.rowOf_primaryKey] at hg
      exact ⟨key, e.2, hget, by simpa using hg⟩
    · rw [if_neg hrow] at hget
      cases hget
  rw [doc.groupTotal_eq_sum, hnil]
  rfl

/-- The table of rows is what the primary slot reads as. -/
theorem rowTable_congr (h : ∀ suffix, m'.get (faceKey doc.header primarySlot suffix)
    = m.get (faceKey doc.header primarySlot suffix)) : doc.rowTable m' = doc.rowTable m := by
  refine SortedMap.ext_get fun k => ?_
  rw [Document.rowTable, Document.rowTable, SortedMap.get_restrict, SortedMap.get_restrict]
  by_cases hrow : doc.isRow k = true
  · obtain ⟨suffix, rfl⟩ := doc.isRow_iff.mp hrow
    rw [if_pos hrow, if_pos hrow, h]
  · rw [if_neg hrow, if_neg hrow]

/-- Beside a changed row the table of rows stays. -/
theorem rowTable_erase {key : K} {new : Option Bytes}
    (h : ∀ suffix, m'.get (faceKey doc.header primarySlot suffix)
      = if suffix = encode key then new else m.get (faceKey doc.header primarySlot suffix)) :
    (doc.rowTable m').erase (doc.primaryKey key)
      = (doc.rowTable m).erase (doc.primaryKey key) := by
  refine SortedMap.ext_get fun k => ?_
  rw [SortedMap.get_erase, SortedMap.get_erase]
  by_cases hk : k = doc.primaryKey key
  · rw [if_pos hk, if_pos hk]
  · rw [if_neg hk, if_neg hk, Document.rowTable, Document.rowTable, SortedMap.get_restrict,
      SortedMap.get_restrict]
    by_cases hrow : doc.isRow k = true
    · obtain ⟨suffix, rfl⟩ := doc.isRow_iff.mp hrow
      have hne : suffix ≠ encode key := fun heq => hk (by rw [heq, Document.primaryKey])
      rw [if_pos hrow, if_pos hrow, h, if_neg hne]
    · rw [if_neg hrow, if_neg hrow]

theorem Document.RowMove.rest {key : K} {old new : Option R}
    (move : doc.RowMove m.get m'.get key old new) :
    (doc.rowTable m').erase (doc.primaryKey key)
      = (doc.rowTable m).erase (doc.primaryKey key) := rowTable_erase move.rows

end

section

variable {doc : Document K R} {reduce : Reduce K R} {m : Keyspace}
variable (hrows : doc.RowsEncoded m.get) (hcounts : doc.RowsRecounted reduce m.get)

include hrows hcounts

/-- The group and the share of a stored row are those of its payload. -/
theorem payload_share {key : K} {row : R}
    (h : m.get (doc.primaryKey key) = some (doc.encodePayload row)) :
    reduce.groupBytes key (doc.decodePayload (doc.encodePayload row))
        = reduce.groupBytes key row ∧
    Reduce.amount key (doc.decodePayload (doc.encodePayload row)) reduce.logic
        = Reduce.amount key row reduce.logic :=
  hcounts key row h _ (hrows.settled h)

/-- A group's total is the share of the row under one key and the rest. -/
theorem groupTotal_split {key : K} {row : Option R}
    (h : m.get (doc.primaryKey key) = row.map doc.encodePayload) (g : Bytes) :
    doc.groupTotal reduce g m = reduce.rowShare g key row
      + SortedMap.total (doc.share reduce g) ((doc.rowTable m).erase (doc.primaryKey key)) := by
  have hrow : (doc.rowTable m).get (doc.primaryKey key) = row.map doc.encodePayload := by
    rw [Document.rowTable, SortedMap.get_restrict, doc.isRow_primaryKey, if_pos rfl, h]
  cases row with
  | none =>
    rw [SortedMap.erase_of_get_none hrow, Reduce.rowShare, zero_add]
    rfl
  | some document =>
    obtain ⟨hgroup, hamount⟩ := payload_share hrows hcounts h
    rw [Document.groupTotal, SortedMap.total_of_get _ hrow, Document.share,
      doc.rowOf_primaryKey, Reduce.rowShare]
    dsimp only
    rw [hgroup, hamount]

end

section

variable {doc : Document K R} {reduce : Reduce K R}

/-- The row keeps its payload, its group and its amount when it is read back. -/
def Document.Kept (doc : Document K R) (reduce : Reduce K R) (key : K) (row : R) : Prop :=
  doc.Settled row ∧ doc.Recounted reduce key row

/-- **One moved row keeps the ledger.** The group the old row leaves loses the share
the row had put in; a group the new row opens starts from nothing. -/
theorem LedgerInv.moved (hmem : reduce ∈ doc.reduces) (hexact : reduce.Exact) {m m' : Keyspace}
    {touched : Bytes → Prop} (inv : LedgerInv doc reduce m touched) {key : K} {old new : Option R}
    (move : doc.RowMove m.get m'.get key old new)
    (hkept : ∀ row, new = some row → doc.Kept reduce key row) :
    LedgerInv doc reduce m' (fun g => touched g ∨ doc.Populated reduce m' g) := by
  have hnew : m'.get (doc.primaryKey key) = new.map doc.encodePayload := by
    rw [Document.primaryKey, move.rows, if_pos rfl]
  have hrows' := inv.rows.changed move.rows fun row hrow => (hkept row hrow).1
  have hcounts' := inv.recounts.changed move.rows fun row hrow => (hkept row hrow).2
  have htotal := fun g => groupTotal_split inv.rows inv.recounts move.stored g
  have htotal' := fun g => groupTotal_split hrows' hcounts' hnew g
  simp only [move.rest] at htotal'
  -- a row among the old or the new populates its group
  have hold : ∀ g document, old = some document → reduce.groupBytes key document = g →
      doc.Populated reduce m g := by
    rintro g document rfl rfl
    exact ⟨key, _, move.stored, (payload_share inv.rows inv.recounts move.stored).1⟩
  have hopen : ∀ g, (∃ document, new = some document ∧ reduce.groupBytes key document = g) →
      doc.Populated reduce m' g := by
    rintro g ⟨document, rfl, rfl⟩
    exact ⟨key, _, hnew, (payload_share hrows' hcounts' hnew).1⟩
  have hfresh : ∀ g, doc.Populated reduce m' g → ¬ doc.Populated reduce m g →
      ∃ document, new = some document ∧ reduce.groupBytes key document = g := by
    rintro g ⟨key', raw, hraw, hg⟩ hno
    by_cases hkey : encode key' = encode key
    · obtain rfl := encode_injective hkey
      obtain ⟨document, rfl, rfl⟩ := Option.map_eq_some_iff.mp (hnew.symm.trans hraw)
      exact ⟨document, rfl, by rw [← hg, (payload_share hrows' hcounts' hraw).1]⟩
    · rw [Document.primaryKey, move.rows, if_neg hkey] at hraw
      exact absurd ⟨key', raw, hraw, hg⟩ hno
  refine ⟨hrows', hcounts', fun g hg => Or.inr hg, fun g hg => ?_, fun g hg => ?_⟩
  · rw [move.groups reduce hmem g]
    by_cases ht : touched g
    · rw [inv.known g ht, Reduce.movedBy_leave hexact, htotal g, add_sub_cancel_left,
        Reduce.movedBy_enter hexact, Reduce.decodeAcc_encodeAcc, htotal' g]
      by_cases hin : ∃ document, new = some document ∧ reduce.groupBytes key document = g
      · rw [if_pos hin, add_comm]
      · rw [if_neg hin]
        have hzero : reduce.rowShare g key new = 0 := by
          cases new with
          | none => rfl
          | some document => exact if_neg fun hg' => hin ⟨document, rfl, hg'⟩
        rw [hzero, zero_add]
    · have hno : ¬ doc.Populated reduce m g := fun hp => ht (inv.seen g hp)
      have hin := hfresh g (hg.resolve_left ht) hno
      have hleave : movedBy reduce key old false g none = none := by
        cases hcase : old with
        | none => rfl
        | some document => exact if_neg fun hg' => hno (hold g document hcase hg'.symm)
      have hshare : reduce.rowShare g key old = 0 := by
        cases hcase : old with
        | none => rfl
        | some document => exact if_neg fun hg' => hno (hold g document hcase hg')
      have hzero := htotal g
      rw [groupTotal_eq_zero inv.rows hno, hshare, zero_add] at hzero
      rw [inv.unknown g ht, hleave, Reduce.movedBy_enter hexact, if_pos hin, htotal' g, ← hzero,
        add_zero]
      exact congrArg (some ∘ Reduce.encodeAcc) (zero_add _)
  · have ht : ¬ touched g := fun h => hg (Or.inl h)
    have hno : ¬ doc.Populated reduce m g := fun hp => ht (inv.seen g hp)
    have hin : ¬ ∃ document, new = some document ∧ reduce.groupBytes key document = g :=
      fun h => hg (Or.inr (hopen g h))
    have hleave : movedBy reduce key old false g none = none := by
      cases hcase : old with
      | none => rfl
      | some document => exact if_neg fun hg' => hno (hold g document hcase hg'.symm)
    rw [move.groups reduce hmem g, inv.unknown g ht, hleave, Reduce.movedBy_enter hexact,
      if_neg hin]

end

/-- **A quiet step keeps the ledger.** -/
theorem LedgerInv.quiet {doc : Document K R} {reduce : Reduce K R} (hmem : reduce ∈ doc.reduces)
    {m m' : Keyspace} {touched : Bytes → Prop} (inv : LedgerInv doc reduce m touched)
    (hq : OnlyUnder doc.header doc.Quiet m.get m'.get) : LedgerInv doc reduce m' touched := by
  have hprimary : ∀ suffix, m'.get (faceKey doc.header primarySlot suffix)
      = m.get (faceKey doc.header primarySlot suffix) := hq.at_slot fun hs => hs.1 rfl
  have hgroup : ∀ g, m'.get (faceKey doc.header reduce.slot g)
      = m.get (faceKey doc.header reduce.slot g) := hq.at_slot (Document.quiet_not_reduce hmem)
  have htable : doc.rowTable m' = doc.rowTable m := rowTable_congr hprimary
  refine ⟨inv.rows.kept hprimary, inv.recounts.kept hprimary, ?_, fun g hg => ?_,
    fun g hg => ?_⟩
  · rintro g ⟨key, raw, hraw, hg⟩
    exact inv.seen g ⟨key, raw, (hprimary _).symm.trans hraw, hg⟩
  · rw [hgroup, inv.known g hg, Document.groupTotal, Document.groupTotal, htable]
  · rw [hgroup, inv.unknown g hg]

/-- **Whatever a verb does to rows and accumulators keeps the ledger.** -/
theorem LedgerInv.effect {doc : Document K R} {reduce : Reduce K R} (hmem : reduce ∈ doc.reduces)
    (hexact : reduce.Exact) {m m' : Keyspace} {touched : Bytes → Prop}
    (inv : LedgerInv doc reduce m touched)
    (h : Document.RowEffect doc (doc.Kept reduce) m.get m'.get) :
    LedgerInv doc reduce m' (fun g => touched g ∨ doc.Populated reduce m' g) := by
  cases h with
  | moved key old new move hnew => exact inv.moved hmem hexact move hnew
  | still quiet =>
    have inv' := inv.quiet hmem quiet
    have hsame : (fun g => touched g ∨ doc.Populated reduce m' g) = touched :=
      funext fun g => propext ⟨fun hg => hg.elim id (inv'.seen g), Or.inl⟩
    rw [hsame]
    exact inv'

/-! ## Runs -/

/-- One call of a verb that stages into a caller's batch. -/
inductive BatchCall (K R : Type) where
  | save (key : K) (document : R)
  | purge (key : K)

/-- One call of a verb that commits on its own. -/
inductive TableWrite (K R : Type) where
  | put (key : K) (document : R)
  | upsertWith (key : K) (f : Option R → R)
  | merge (key : K) (object : SortedMap String DynamicValue)
  | replace (key : K) (object : SortedMap String DynamicValue)
  | purge (key : K)

namespace Document

variable (doc : Document K R)

/-- The batch after a call, whatever the call answered. -/
def call (s : BatchStore Keyspace) : BatchCall K R → BatchStore Keyspace
  | .save key document => (doc.saveWithPrevInto key document none s).2
  | .purge key => (doc.purgeInto key s).2

/-- The store after a verb, whatever the verb answered. -/
def write (m : Keyspace) : TableWrite K R → Keyspace
  | .put key document => (doc.put m key document).2
  | .upsertWith key f => (doc.upsertWith m key f).2
  | .merge key object => (doc.merge m key object).2
  | .replace key object => (doc.replace m key object).2
  | .purge key => (doc.purge m key).2

/-- The store after a caller's batch: its calls in order, then the commit. -/
def commitCalls (m : Keyspace) (calls : List (BatchCall K R)) : Keyspace :=
  (commitView (calls.foldl doc.call (freshView m))).2

/-- The groups the calls of a batch put rows into on their way. -/
def Touching (reduce : Reduce K R) (s : BatchStore Keyspace) (g : Bytes) :
    List (BatchCall K R) → Prop
  | [] => False
  | c :: calls =>
    doc.Populated reduce (viewMap (doc.call s c)) g ∨ Touching reduce (doc.call s c) g calls

/-- The row a call of a batch stores meets `P`. -/
def CallMeets (P : K → R → Prop) (s : BatchStore Keyspace) : BatchCall K R → Prop
  | .save key document => doc.Storing P s key document
  | .purge _ => True

/-- The rows the calls of a batch store meet `P`, each as the calls before it left the
batch. -/
def CallsMeet (P : K → R → Prop) (s : BatchStore Keyspace) : List (BatchCall K R) → Prop
  | [] => True
  | c :: calls => doc.CallMeets P s c ∧ CallsMeet P (doc.call s c) calls

/-- The row a verb stores meets `P`. -/
def WriteMeets (P : K → R → Prop) (m : Keyspace) : TableWrite K R → Prop
  | .put key document => doc.Storing P (freshView m) key document
  | .upsertWith key f => ∀ old, doc.get m key = .ok old → doc.Storing P (freshView m) key (f old)
  | .merge key object => (doc.splitNames object).1.entries ≠ [] → ∀ document prev,
      doc.mergedRow m key (doc.splitNames object).1 = .ok (document, prev) →
      doc.Storing P (freshView m) key document
  | .replace key object => (doc.splitNames object).1.entries ≠ [] → ∀ document prev,
      doc.replacedRow m key (doc.splitNames object).1 = .ok (document, prev) →
      doc.Storing P (freshView m) key document
  | .purge _ => True

/-- The stores a run reaches from the empty one, with the groups of `reduce` that
had a row on the way. Every row a call stores keeps payload, group and amount when it
is read back. -/
inductive LedgerRun (reduce : Reduce K R) : Keyspace → (Bytes → Prop) → Prop
  | start : LedgerRun reduce SortedMap.empty fun _ => False
  | write {m : Keyspace} {touched : Bytes → Prop} (run : LedgerRun reduce m touched)
      (w : TableWrite K R) (guard : doc.WriteMeets (doc.Kept reduce) m w) :
      LedgerRun reduce (doc.write m w) fun g => touched g ∨ doc.Populated reduce (doc.write m w) g
  | batch {m : Keyspace} {touched : Bytes → Prop} (run : LedgerRun reduce m touched)
      (calls : List (BatchCall K R))
      (guard : doc.CallsMeet (doc.Kept reduce) (freshView m) calls) :
      LedgerRun reduce (doc.commitCalls m calls) fun g =>
        touched g ∨ doc.Touching reduce (freshView m) g calls

/-- What the accumulator of a group is to say, for the exact presets. -/
def ledger (reduce : Reduce K R) (g : Bytes) (m : Keyspace) : Option UInt64 :=
  match reduce.logic with
  | .count => some (UInt64.ofNat (doc.groupRows reduce g m).length)
  | .sum field =>
    some (UInt64.ofNat ((doc.groupRows reduce g m).map fun row => (field row.1 row.2).toNat).sum)
  | .other _ => none

end Document

section

variable {doc : Document K R} (laws : doc.PayloadLaws) (elsewhere : doc.EmbedsElsewhere)
variable {reduce : Reduce K R} (hmem : reduce ∈ doc.reduces) {P : K → R → Prop}

theorem sum_ofNat (amounts : List UInt64) :
    amounts.sum = UInt64.ofNat (amounts.map UInt64.toNat).sum := by
  induction amounts with
  | nil => rfl
  | cons a rest ih =>
    rw [List.sum_cons, List.map_cons, List.sum_cons, UInt64.ofNat_add, ih, UInt64.ofNat_toNat]

/-- The total of an exact preset is what its accumulator is to say. -/
theorem groupTotal_of_ledger {g : Bytes} {m : Keyspace} {acc : UInt64}
    (h : doc.ledger reduce g m = some acc) : reduce.Exact ∧ doc.groupTotal reduce g m = acc := by
  rw [doc.groupTotal_eq_sum, sum_ofNat, List.map_map]
  unfold Document.ledger at h
  cases hlogic : reduce.logic with
  | count =>
    rw [hlogic] at h
    refine ⟨Or.inl hlogic, ?_⟩
    rw [← Option.some.inj h]
    have hone : (UInt64.toNat ∘ fun row : K × R => Reduce.amount row.1 row.2 .count)
        = fun _ => 1 := rfl
    rw [hone]
    simp
  | sum field =>
    rw [hlogic] at h
    refine ⟨Or.inr ⟨field, hlogic⟩, ?_⟩
    rw [← Option.some.inj h]
    rfl
  | other next =>
    rw [hlogic] at h
    cases h

include laws elsewhere

theorem effect_call {s : BatchStore Keyspace} (hrows : doc.RowsEncoded (viewMap s).get)
    {c : BatchCall K R} (meets : doc.CallMeets P s c) :
    Document.RowEffect doc P (viewMap s).get (viewMap (doc.call s c)).get := by
  rw [get_viewMap] at hrows ⊢
  rw [get_viewMap]
  cases c with
  | save key document =>
    exact Document.effect_saveWithPrevInto laws elsewhere hrows meets (by simp)
  | purge key => exact Document.effect_purgeInto laws hrows key

theorem effect_write {m : Keyspace} (hrows : doc.RowsEncoded m.get) {w : TableWrite K R}
    (meets : doc.WriteMeets P m w) : Document.RowEffect doc P m.get (doc.write m w).get := by
  cases w with
  | put key document => exact Document.effect_put elsewhere hrows meets
  | upsertWith key f => exact Document.effect_upsertWith laws elsewhere hrows meets
  | merge key object => exact Document.effect_merge laws elsewhere hrows meets
  | replace key object => exact Document.effect_replace laws elsewhere hrows meets
  | purge key => exact Document.effect_purge laws hrows key

include hmem

theorem ledgerInv_calls (hexact : reduce.Exact) {calls : List (BatchCall K R)}
    {s : BatchStore Keyspace} {touched : Bytes → Prop}
    (meets : doc.CallsMeet (doc.Kept reduce) s calls)
    (inv : LedgerInv doc reduce (viewMap s) touched) :
    LedgerInv doc reduce (viewMap (calls.foldl doc.call s))
      (fun g => touched g ∨ doc.Touching reduce s g calls) := by
  induction calls generalizing s touched with
  | nil => simpa [Document.Touching] using inv
  | cons c calls ih =>
    have hstep := inv.effect hmem hexact (effect_call laws elsewhere inv.rows meets.1)
    have hrest := ih meets.2 hstep
    simp only [or_assoc] at hrest
    exact hrest

/-- **The ledger holds along every run.** -/
theorem ledgerInv_run (hexact : reduce.Exact) {m : Keyspace} {touched : Bytes → Prop}
    (run : doc.LedgerRun reduce m touched) : LedgerInv doc reduce m touched := by
  induction run with
  | start =>
    refine ⟨fun suffix raw hraw => ?_, fun key row hrow => ?_, ?_, fun g hg => hg.elim,
      fun g hg => rfl⟩
    · cases hraw
    · cases hrow
    · rintro g ⟨key, raw, hraw, -⟩
      cases hraw
  | write run w guard ih =>
    exact ih.effect hmem hexact (effect_write laws elsewhere ih.rows guard)
  | batch run calls guard ih =>
    exact ledgerInv_calls laws elsewhere hmem hexact (s := freshView _) guard ih

/-- **Ledger exactness**: in every store a run reaches, a touched group's accumulator
counts the group's stored rows, or holds their exact total at the accumulator's
width; a group that never had a row has no accumulator. -/
theorem ledger_exact {m : Keyspace} {touched : Bytes → Prop}
    (run : doc.LedgerRun reduce m touched) {g : Bytes} {acc : UInt64}
    (h : doc.ledger reduce g m = some acc) :
    (touched g → m.get (faceKey doc.header reduce.slot g) = some (Reduce.encodeAcc acc)) ∧
    (¬ touched g → m.get (faceKey doc.header reduce.slot g) = none) := by
  obtain ⟨hexact, htotal⟩ := groupTotal_of_ledger h
  have inv := ledgerInv_run laws elsewhere hmem hexact run
  rw [← htotal]
  exact ⟨inv.known g, inv.unknown g⟩

end

/-! ## Orders by customer -/

/-- A one-byte group and a one-byte amount. -/
def orderCount : Reduce UInt8 (UInt8 × UInt8) where
  slot := slot Segment.reduce 1 (by decide)
  groupBytes _ order := [order.1]
  logic := .count

def orderSum : Reduce UInt8 (UInt8 × UInt8) where
  slot := slot Segment.reduce 2 (by decide)
  groupBytes _ order := [order.1]
  logic := .sum fun _ order => order.2.toUInt64

/-- Orders: a customer and an amount, counted and added up by customer. -/
def orderDoc : Document UInt8 (UInt8 × UInt8) where
  partitionPrefix := []
  nsPrefix := [0, 9]
  leads := []
  indexes := []
  reduces := [orderCount, orderSum]
  vocabFields := []
  encodePayload order := [order.1, order.2]
  decodePayload raw := (raw.headD 0, raw.tail.headD 0)
  embedDeref _ order := .ok order
  embedEntries _ := []
  embedKeys _ := []
  fields := ["customer", "amount"]
  toMap order := (SortedMap.empty.insert "customer" (.uint order.1.toUInt64)).insert "amount"
    (.uint order.2.toUInt64)
  tryFromMap map := do
    let customer ← byteField map "customer"
    let amount ← byteField map "amount"
    .ok (customer, amount)
  leadSlots := noLeads
  indexSlots := by simp
  reduceSlots := by simp [orderCount, orderSum, slot, Segment.reduce]
  leadsNodup := List.nodup_nil
  indexesNodup := List.nodup_nil
  reducesNodup := by simp [orderCount, orderSum, slot, Segment.reduce]
  vocabFaces := by simp
  embedDeref_ok _ order := ⟨order, rfl⟩

theorem orderDoc_payload : orderDoc.PayloadLaws where
  embedDeref_payload h := by
    obtain rfl := Except.ok.inj h
    rfl
  setName_payload := by simp [orderDoc]

theorem orderDoc_kept (reduce : Reduce UInt8 (UInt8 × UInt8)) (key : UInt8) (row : UInt8 × UInt8) :
    orderDoc.Kept reduce key row := by
  refine ⟨rfl, fun row' h => ?_⟩
  obtain rfl : row' = row := by
    obtain ⟨a, b⟩ := row
    obtain ⟨c, d⟩ := row'
    simpa [orderDoc] using h
  exact ⟨rfl, rfl⟩

theorem orderDoc_elsewhere : orderDoc.EmbedsElsewhere where
  entries := by simp [orderDoc]
  keys := by simp [orderDoc]

/-- One order, then a batch that moves it to another customer, adds a second one
and takes it out again. -/
def orderCalls : List (BatchCall UInt8 (UInt8 × UInt8)) :=
  [.save 1 (6, 4), .save 2 (6, 9), .purge 2]

def orderStore : Keyspace :=
  orderDoc.commitCalls (orderDoc.write SortedMap.empty (.put 1 (5, 10))) orderCalls

theorem orderStore_run (reduce : Reduce UInt8 (UInt8 × UInt8)) :
    orderDoc.LedgerRun reduce orderStore fun g =>
      (False ∨ orderDoc.Populated reduce (orderDoc.write SortedMap.empty (.put 1 (5, 10))) g) ∨
      orderDoc.Touching reduce (freshView (orderDoc.write SortedMap.empty (.put 1 (5, 10)))) g
        orderCalls :=
  .batch (.write .start (.put 1 (5, 10)) fun row _ _ => orderDoc_kept reduce 1 row) orderCalls
    ⟨fun row _ _ => orderDoc_kept reduce 1 row, fun row _ _ => orderDoc_kept reduce 2 row, trivial,
      trivial⟩

/-- The customer the order left counts nothing; the other one adds up to it. -/
theorem ledger_exact_orders :
    orderStore.get (faceKey orderDoc.header orderCount.slot [5]) = some (Reduce.encodeAcc 0) ∧
    orderStore.get (faceKey orderDoc.header orderSum.slot [6]) = some (Reduce.encodeAcc 4) := by
  constructor
  · refine (ledger_exact orderDoc_payload orderDoc_elsewhere (by simp [orderDoc])
      (orderStore_run orderCount) (by decide)).1 ?_
    exact Or.inl (Or.inr ⟨1, [5, 10], by decide, by decide⟩)
  · refine (ledger_exact orderDoc_payload orderDoc_elsewhere (by simp [orderDoc])
      (orderStore_run orderSum) (by decide)).1 ?_
    exact Or.inr (Or.inl ⟨1, [6, 4], by decide, by decide⟩)

/-! ## A type that embeds itself -/

/-- A node: its kind, the keys of its children, and which of them it carries as new
leaves of its own kind. -/
structure Node where
  kind : UInt8
  children : List UInt8
  owned : List UInt8
  deriving DecidableEq

def nodeCount : Reduce UInt8 Node where
  slot := slot Segment.reduce 1 (by decide)
  groupBytes _ node := [node.kind]
  logic := .count

/-- Nodes that carry nodes: a child is written under the header of its parent. -/
def nodeDoc : Document UInt8 Node where
  partitionPrefix := []
  nsPrefix := [0, 3]
  leads := []
  indexes := []
  reduces := [nodeCount]
  vocabFields := []
  encodePayload node := node.kind :: beBytes 4 node.children.length ++ node.children
  decodePayload raw := ⟨raw.headD 0, raw.drop 5, []⟩
  embedDeref _ node := .ok node
  embedEntries node :=
    node.owned.map fun child => (faceKey [0, 3] primarySlot [child], node.kind :: beBytes 4 0)
  embedKeys node := node.children.map fun child => faceKey [0, 3] primarySlot [child]
  fields := ["kind", "children"]
  toMap node := (SortedMap.empty.insert "kind" (.uint node.kind.toUInt64)).insert "children"
    (.array (node.children.map fun child => .bytes [child]))
  tryFromMap map := do
    let kind ← byteField map "kind"
    match map.get "children" with
    | some (.array items) =>
      .ok ⟨kind, items.filterMap fun item => match item with
        | .bytes b => b.head?
        | _ => none, []⟩
    | some _ => .error (.kindMismatch "children" "Array" "")
    | none => .ok ⟨kind, [], []⟩
  leadSlots := noLeads
  indexSlots := by simp
  reduceSlots := by simp [nodeCount, slot, Segment.reduce]
  leadsNodup := List.nodup_nil
  indexesNodup := List.nodup_nil
  reducesNodup := List.nodup_singleton _
  vocabFaces := by simp
  embedDeref_ok _ node := ⟨node, rfl⟩

/-- One put of a node with one new child stores two rows of the group and counts
one. -/
theorem selfEmbedding_miscounts :
    (nodeDoc.groupRows nodeCount [7] (nodeDoc.put SortedMap.empty 1 ⟨7, [2], [2]⟩).2).length = 2 ∧
    (nodeDoc.put SortedMap.empty 1 ⟨7, [2], [2]⟩).2.get
        (faceKey nodeDoc.header nodeCount.slot [7]) = some (Reduce.encodeAcc 1) := by
  decide

end Okm.Model
