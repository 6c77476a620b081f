import Okm.Model.FaceRun
import Okm.Model.Ledger

/-!
# Embedded children

The model of `Ref` and `Refs` fields and of the embed hooks the derive writes for
them. A row of one table points at rows of others and may carry some of them. The
write path puts the carried ones itself, their key and their index entries built
by hand under the namespace of the child's table, and deletes the children the
old row pointed at and the new one does not.

The tables are a family, so a child may carry children of its own. `Embeds` says
which fields the hooks of each table go through.
-/

namespace Okm.Model

open Lib VirtualStorage KeyEncode

/-- `index_entries` under a key header of the caller's. -/
def Document.indexEntriesUnder {K R : Type} [KeyEncode K] (doc : Document K R) (header : Bytes)
    (key : K) (document : R) : List (Bytes × Bytes) :=
  (doc.leads.map fun lead => lead.entryPair header key)
    ++ doc.indexes.flatMap fun index => index.entryPairs header key document

/-- A `Ref` or `Refs` field of the rows of table `i`: the table of its children, the
keys it points at, each with the row it carries if it carries one, and the field
with other rows behind the same keys. -/
structure EmbedField {ι : Type} (Key Row : ι → Type) (i : ι) where
  child : ι
  cells : Row i → List (Key child × Option (Row child))
  fill : Row i → List (Option (Row child)) → Row i

section

variable {ι : Type} {Key Row : ι → Type} [∀ i, KeyEncode (Key i)]
variable (doc : ∀ i, Document (Key i) (Row i))

/-- Where the hooks keep a child: under the namespace of its table, which leaves out
the partition. -/
def embedKey (i : ι) (key : Key i) : Bytes := faceKey (doc i).nsPrefix primarySlot (encode key)

/-- The entries of one carried child. -/
def childEntries (i : ι) (key : Key i) (child : Row i) : List (Bytes × Bytes) :=
  (embedKey doc i key, (doc i).encodePayload child) ::
    (doc i).indexEntriesUnder (doc i).nsPrefix (decode (encode key)) child

namespace EmbedField

variable {i : ι} (field : EmbedField Key Row i)

def cellEntries : Key field.child × Option (Row field.child) → List (Bytes × Bytes)
  | (key, some child) => childEntries doc field.child key child
  | (_, none) => []

/-- One arm of `__okm_embed_entries`. -/
def entries (row : Row i) : List (Bytes × Bytes) :=
  (field.cells row).flatMap (field.cellEntries doc)

/-- One arm of `__okm_embed_keys`. -/
def keys (row : Row i) : List Bytes :=
  (field.cells row).map fun cell => embedKey doc field.child cell.1

/-- A cell without a row takes the stored one, dereferenced in its turn. -/
def derefCell (read : ReadFn) :
    Key field.child × Option (Row field.child) → Except Error (Option (Row field.child))
  | (_, some child) => .ok (some child)
  | (key, none) => do
    match ← read (embedKey doc field.child key) with
    | none => .ok none
    | some payload =>
      let child ← (doc field.child).embedDeref read ((doc field.child).decodePayload payload)
      .ok (some child)

/-- One arm of `__okm_embed_deref`. -/
def deref (read : ReadFn) (row : Row i) : Except Error (Row i) := do
  let values ← (field.cells row).mapM (field.derefCell doc read)
  .ok (field.fill row values)

end EmbedField

/-- `__okm_embed_deref`: the arms one after the other. -/
def derefFields {i : ι} (read : ReadFn) :
    List (EmbedField Key Row i) → Row i → Except Error (Row i)
  | [], row => .ok row
  | field :: rest, row => do
    let row ← field.deref doc read row
    derefFields read rest row

/-- The hooks of the tables are those of their fields. Types nest and do not recur, a
field holds its cells and nothing else of the row reaches them, the wire keeps the
keys of a field only, and no key of one table is a key of another. -/
structure Embeds (embeds : ∀ i, List (EmbedField Key Row i)) : Prop where
  entries : ∀ i row, (doc i).embedEntries row = (embeds i).flatMap fun field => field.entries doc row
  keys : ∀ i row, (doc i).embedKeys row = (embeds i).flatMap fun field => field.keys doc row
  deref : ∀ i read row, (doc i).embedDeref read row = derefFields doc read (embeds i) row
  nested : ∃ rank : ι → Nat, ∀ i, ∀ field ∈ embeds i, rank field.child < rank i
  nodup : ∀ i, (embeds i).Nodup
  cells_fill : ∀ i, ∀ field ∈ embeds i, ∀ row values, values.length = (field.cells row).length →
    field.cells (field.fill row values) = ((field.cells row).map Prod.fst).zip values
  cells_fill_other : ∀ i, ∀ field ∈ embeds i, ∀ other ∈ embeds i, field ≠ other →
    ∀ row values, field.cells (other.fill row values) = field.cells row
  cells_decode : ∀ i, ∀ field ∈ embeds i, ∀ row,
    field.cells ((doc i).decodePayload ((doc i).encodePayload row))
      = (field.cells row).map fun cell => (cell.1, none)
  cells_setName : ∀ i, ∀ field ∈ embeds i, ∀ v ∈ (doc i).vocabFields, ∀ row name,
    field.cells (v.setName row name) = field.cells row
  apart : ∀ i j, i ≠ j → ∀ k, Under (doc i).header (fun _ => True) k →
    ¬ Under (doc j).header (fun _ => True) k
  bare : ∀ i j, i ≠ j → ∀ k, Under (doc i).header (fun _ => True) k →
    ¬ Under (doc j).nsPrefix (fun _ => True) k

variable (embeds : ∀ i, List (EmbedField Key Row i))

/-- The children a row carries, with their tables and keys. -/
def carried (i : ι) (row : Row i) : List (Σ j, Key j × Row j) :=
  (embeds i).flatMap fun field => (field.cells row).filterMap fun cell =>
    cell.2.map fun child => ⟨field.child, cell.1, child⟩

/-- The children a row points at. -/
def pointed (i : ι) (row : Row i) : List (Σ j, Key j) :=
  (embeds i).flatMap fun field => (field.cells row).map fun cell => ⟨field.child, cell.1⟩

/-- The children the old row pointed at and the new one does not. -/
def released (i : ι) (row : Row i) (prev : Option (Row i)) : List (Σ j, Key j) :=
  ((prev.map (pointed embeds i)).getD []).filter fun p =>
    !((doc i).embedKeys row).contains (embedKey doc p.1 p.2)

/-- A table some row type embeds. -/
def Embedded (j : ι) : Prop := ∃ i, ∃ field ∈ embeds i, field.child = j

/-! ## The hooks, child by child -/

variable {doc embeds} (laws : Embeds doc embeds)

omit [∀ i, KeyEncode (Key i)] in
theorem mem_carried {i : ι} {row : Row i} {j : ι} {key : Key j} {child : Row j} :
    (⟨j, key, child⟩ : Σ j, Key j × Row j) ∈ carried embeds i row ↔
      ∃ field ∈ embeds i, ∃ cell ∈ field.cells row, ∃ c, cell.2 = some c ∧
        (⟨field.child, cell.1, c⟩ : Σ j, Key j × Row j) = ⟨j, key, child⟩ := by
  unfold carried
  simp only [List.mem_flatMap, List.mem_filterMap, Option.map_eq_some_iff]

omit [∀ i, KeyEncode (Key i)] in
theorem mem_pointed {i : ι} {row : Row i} {p : Σ j, Key j} :
    p ∈ pointed embeds i row ↔
      ∃ field ∈ embeds i, ∃ cell ∈ field.cells row, (⟨field.child, cell.1⟩ : Σ j, Key j) = p := by
  unfold pointed
  simp only [List.mem_flatMap, List.mem_map]

omit [∀ i, KeyEncode (Key i)] in
theorem pointed_of_carried {i : ι} {row : Row i} {x : Σ j, Key j × Row j}
    (h : x ∈ carried embeds i row) : (⟨x.1, x.2.1⟩ : Σ j, Key j) ∈ pointed embeds i row := by
  obtain ⟨j, key, child⟩ := x
  obtain ⟨field, hfield, cell, hcell, c, -, heq⟩ := mem_carried.mp h
  cases heq
  exact mem_pointed.mpr ⟨field, hfield, cell, hcell, rfl⟩

omit [∀ i, KeyEncode (Key i)] in
theorem embedded_of_carried {i : ι} {row : Row i} {x : Σ j, Key j × Row j}
    (h : x ∈ carried embeds i row) : Embedded embeds x.1 := by
  obtain ⟨j, key, child⟩ := x
  obtain ⟨field, hfield, cell, hcell, c, -, heq⟩ := mem_carried.mp h
  cases heq
  exact ⟨i, field, hfield, rfl⟩

include laws

theorem Embeds.child_ne {i : ι} {field : EmbedField Key Row i} (h : field ∈ embeds i) :
    field.child ≠ i := by
  obtain ⟨rank, hrank⟩ := laws.nested
  have hlt := hrank i field h
  intro heq
  rw [heq] at hlt
  omega

theorem embedEntries_eq (i : ι) (row : Row i) :
    (doc i).embedEntries row
      = (carried embeds i row).flatMap fun x => childEntries doc x.1 x.2.1 x.2.2 := by
  rw [laws.entries, carried, List.flatMap_assoc]
  refine List.flatMap_congr fun field _ => ?_
  unfold EmbedField.entries
  induction field.cells row with
  | nil => rfl
  | cons cell rest ih =>
    obtain ⟨key, child⟩ := cell
    rw [List.flatMap_cons, ih]
    cases child with
    | none => rfl
    | some child => rfl

theorem embedKeys_eq (i : ι) (row : Row i) :
    (doc i).embedKeys row = (pointed embeds i row).map fun p => embedKey doc p.1 p.2 := by
  rw [laws.keys, pointed, List.map_flatMap]
  refine List.flatMap_congr fun field _ => ?_
  rw [List.map_map]
  rfl

theorem releasedKeys_eq (i : ι) (row : Row i) (prev : Option (Row i)) :
    (doc i).releasedKeys row prev
      = (released doc embeds i row prev).map fun p => embedKey doc p.1 p.2 := by
  cases prev with
  | none => rfl
  | some old =>
    rw [Document.releasedKeys, embedKeys_eq laws i old, List.filter_map]
    refine congrArg _ (List.filter_congr fun p _ => ?_)
    simp

/-- Rows with one payload point at the same children. -/
theorem pointed_of_payload {i : ι} {row row' : Row i}
    (h : (doc i).encodePayload row = (doc i).encodePayload row') :
    pointed embeds i row = pointed embeds i row' := by
  refine List.flatMap_congr fun field hfield => ?_
  have hcells := laws.cells_decode i field hfield row
  rw [h, laws.cells_decode i field hfield row'] at hcells
  have hkeys := congrArg (List.map fun cell => (⟨field.child, cell.1⟩ : Σ j, Key j)) hcells
  rw [List.map_map, List.map_map] at hkeys
  exact hkeys.symm

omit laws in
/-- A child's entries lie under the namespace of its table. -/
theorem childEntries_under {j : ι} {key : Key j} {child : Row j} {e : Bytes × Bytes}
    (he : e ∈ childEntries doc j key child) : Under (doc j).nsPrefix (fun _ => True) e.1 := by
  rcases List.mem_cons.mp he with rfl | he
  · exact under_faceKey.mpr trivial
  · rcases List.mem_append.mp he with he | he
    · obtain ⟨lead, -, rfl⟩ := List.mem_map.mp he
      exact under_faceKey.mpr trivial
    · obtain ⟨index, -, he⟩ := List.mem_flatMap.mp he
      unfold KvIndex.entryPairs at he
      by_cases hadm : index.admits child
      · rw [if_pos hadm] at he
        obtain ⟨segment, -, rfl⟩ := List.mem_map.mp he
        exact under_faceKey.mpr trivial
      · simp [hadm] at he

/-- What the hooks write lies outside the table. -/
theorem embedsElsewhere (i : ι) : (doc i).EmbedsElsewhere := by
  have hbare : ∀ field ∈ embeds i, ∀ k, Under (doc field.child).nsPrefix (fun _ => True) k →
      ¬ Under (doc i).header (fun _ => True) k := by
    intro field hfield k hk hunder
    exact laws.bare i field.child (Ne.symm (laws.child_ne hfield)) k hunder hk
  refine ⟨fun row e he => ?_, fun row k hk => ?_⟩
  · rw [embedEntries_eq laws] at he
    obtain ⟨⟨j, key, child⟩, hx, he⟩ := List.mem_flatMap.mp he
    obtain ⟨field, hfield, cell, -, c, -, heq⟩ := mem_carried.mp hx
    cases heq
    exact hbare field hfield _ (childEntries_under he)
  · rw [embedKeys_eq laws] at hk
    obtain ⟨p, hp, rfl⟩ := List.mem_map.mp hk
    obtain ⟨field, hfield, cell, -, rfl⟩ := mem_pointed.mp hp
    exact hbare field hfield _ (under_faceKey.mpr trivial)

end

end Okm.Model
