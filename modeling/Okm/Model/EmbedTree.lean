import Okm.Model.EmbedPass
import Okm.Model.TableCalls

/-!
# Owned trees

What a parent's write stores of the rows it carries, and what a read gives back. The
whole tree below a row is stored when every row carried in it, at any depth, is stored
as it is carried (`EachBelow` of `Held`); then a read of the row returns the tree
(`returned_of_held`).
-/

namespace Okm.Model

open Lib VirtualStorage KeyEncode

variable {ι : Type} {Key Row : ι → Type}

section

variable (embeds : ∀ i, List (EmbedField Key Row i))

/-- `P` holds of every row carried below a row, at any depth. -/
inductive EachBelow (P : ∀ l, Key l → Row l → Prop) : ∀ i, Row i → Prop
  | intro {i : ι} {row : Row i}
      (here : ∀ field ∈ embeds i, ∀ cell ∈ field.cells row, ∀ child, cell.2 = some child →
        P field.child cell.1 child)
      (below : ∀ field ∈ embeds i, ∀ cell ∈ field.cells row, ∀ child, cell.2 = some child →
        EachBelow P field.child child) : EachBelow P i row

variable [∀ i, KeyEncode (Key i)] (doc : ∀ i, Document (Key i) (Row i))

/-- The child is stored as it is carried and keeps its payload when it is read back;
its categorical fields hold ids. -/
def Held (f : Reads) (l : ι) (key : Key l) (child : Row l) : Prop :=
  (doc l).Settled child ∧ (∀ v ∈ (doc l).vocabFields, v.label child = none) ∧
    f (embedKey doc l key) = some ((doc l).encodePayload child)

/-- The row read back is the row put, and with it the whole tree it carried. -/
inductive Returned : ∀ i, Row i → Row i → Prop
  | intro {i : ι} {row row' : Row i} (own : (doc i).Carries row row')
      (keys : ∀ field ∈ embeds i, (field.cells row').map Prod.fst = (field.cells row).map Prod.fst)
      (carried : ∀ field ∈ embeds i, ∀ (p : Nat) (key : Key field.child) (child : Row field.child),
        (field.cells row)[p]? = some (key, some child) →
        ∃ child', (field.cells row')[p]? = some (key, some child'))
      (below : ∀ field ∈ embeds i, ∀ (p : Nat) (key : Key field.child)
        (child child' : Row field.child), (field.cells row)[p]? = some (key, some child) →
        (field.cells row')[p]? = some (key, some child') → Returned field.child child child') :
      Returned i row row'

end

/-- What holds of a row carried below holds of all rows of lesser rank in the way `P`
entails `Q` there. -/
theorem EachBelow.mono {embeds : ∀ i, List (EmbedField Key Row i)} {rank : ι → Nat}
    (hrank : ∀ i, ∀ field ∈ embeds i, rank field.child < rank i)
    {P Q : ∀ l, Key l → Row l → Prop} {i : ι} {row : Row i} (h : EachBelow embeds P i row)
    (himp : ∀ l, rank l < rank i → ∀ key child, P l key child → Q l key child) :
    EachBelow embeds Q i row := by
  induction h with
  | @intro i row here below ih =>
    refine .intro (fun field hfield cell hcell child hchild =>
      himp _ (hrank i field hfield) _ _ (here field hfield cell hcell child hchild))
      fun field hfield cell hcell child hchild => ih field hfield cell hcell child hchild ?_
    intro l hl
    exact himp l (hl.trans (hrank i field hfield))

/-! ## Dereferencing -/

theorem forall₂_of_mapM {α β : Type} {f : α → Except Error β} {l : List α} {values : List β}
    (h : l.mapM f = .ok values) : List.Forall₂ (fun a b => f a = .ok b) l values := by
  induction l generalizing values with
  | nil =>
    obtain rfl := Except.ok.inj h
    exact .nil
  | cons a l ih =>
    rw [List.mapM_cons] at h
    obtain ⟨b, hb, h⟩ := bind_eq_ok.mp h
    obtain ⟨rest, hrest, h⟩ := bind_eq_ok.mp h
    obtain rfl := Except.ok.inj h
    exact .cons hb (ih hrest)

section

variable [∀ i, KeyEncode (Key i)] {doc : ∀ i, Document (Key i) (Row i)}
variable {embeds : ∀ i, List (EmbedField Key Row i)}

/-- A dereferenced cell keeps its key. -/
theorem deref_cell_at {i : ι} {field : EmbedField Key Row i} {read : ReadFn}
    {cells : List (Key field.child × Option (Row field.child))}
    {values : List (Option (Row field.child))}
    (h : List.Forall₂ (fun cell value => field.derefCell doc read cell = .ok value) cells values)
    {p : Nat} {cell : Key field.child × Option (Row field.child)} (hp : cells[p]? = some cell) :
    ∃ value, field.derefCell doc read cell = .ok value ∧
      ((cells.map Prod.fst).zip values)[p]? = some (cell.1, value) := by
  induction h generalizing p with
  | nil => simp at hp
  | @cons a b cells values hab hrest ih =>
    cases p with
    | zero =>
      obtain rfl := Option.some.inj hp
      exact ⟨b, hab, rfl⟩
    | succ p => exact ih hp

/-- A field of one cell, as `Ref` is, has one read. -/
theorem EmbedField.deref_ref {i : ι} (field : EmbedField Key Row i) {read : ReadFn} {row : Row i}
    {cell : Key field.child × Option (Row field.child)} (h : field.cells row = [cell]) :
    field.deref doc read row
      = (field.derefCell doc read cell >>= fun value => .ok (field.fill row [value])) := by
  rw [EmbedField.deref, h, List.mapM_cons, List.mapM_nil]
  cases field.derefCell doc read cell with
  | error e => rfl
  | ok value => rfl

variable (laws : Embeds doc embeds)

include laws

/-- **The arms of the dereference** each fill their own field. -/
theorem derefFields_cells {i : ι} {read : ReadFn} {fields : List (EmbedField Key Row i)}
    (hfields : ∀ field ∈ fields, field ∈ embeds i) (hnodup : fields.Nodup) {row row' : Row i}
    (h : derefFields doc read fields row = .ok row') {field : EmbedField Key Row i}
    (hmem : field ∈ embeds i) :
    (field ∈ fields → ∃ values,
      List.Forall₂ (fun cell value => field.derefCell doc read cell = .ok value)
        (field.cells row) values ∧
      field.cells row' = ((field.cells row).map Prod.fst).zip values) ∧
    (field ∉ fields → field.cells row' = field.cells row) := by
  induction fields generalizing row with
  | nil =>
    obtain rfl := Except.ok.inj h
    exact ⟨by simp, fun _ => rfl⟩
  | cons first rest ih =>
    obtain ⟨hfirst, hrest⟩ := List.nodup_cons.mp hnodup
    have hfields' : ∀ field ∈ rest, field ∈ embeds i :=
      fun field hf => hfields field (List.mem_cons_of_mem _ hf)
    obtain ⟨row₁, hderef, h⟩ := bind_eq_ok.mp h
    obtain ⟨values, hvalues, hfill⟩ := bind_eq_ok.mp hderef
    obtain rfl := Except.ok.inj hfill
    have hall := forall₂_of_mapM hvalues
    obtain ⟨hin, hout⟩ := ih hfields' hrest h
    refine ⟨fun hmem' => ?_, fun hno => ?_⟩
    · rcases List.mem_cons.mp hmem' with rfl | hmem'
      · refine ⟨values, hall, ?_⟩
        rw [hout hfirst, laws.cells_fill i field hmem row values hall.length_eq.symm]
      · have hne : field ≠ first := fun heq => hfirst (heq ▸ hmem')
        have hsame := laws.cells_fill_other i field hmem first (hfields first List.mem_cons_self)
          hne row values
        obtain ⟨values', hall', hcells⟩ := hin hmem'
        rw [hsame] at hall' hcells
        exact ⟨values', hall', hcells⟩
    · have hne : field ≠ first := fun heq => hno (heq ▸ List.mem_cons_self)
      rw [hout fun hmem' => hno (List.mem_cons_of_mem _ hmem'),
        laws.cells_fill_other i field hmem first (hfields first List.mem_cons_self) hne]

/-- A decoded row points at the children it was encoded with, and carries none. -/
theorem decoded_cell_at {i : ι} {field : EmbedField Key Row i} (hmem : field ∈ embeds i)
    {row : Row i} {p : Nat} {cell : Key field.child × Option (Row field.child)}
    (hp : (field.cells row)[p]? = some cell) :
    (field.cells ((doc i).decodePayload ((doc i).encodePayload row)))[p]? = some (cell.1, none) := by
  rw [laws.cells_decode i field hmem, List.getElem?_map, hp]
  rfl

variable (payload : ∀ i, (doc i).PayloadLaws)

include payload

/-- **A stored tree is returned.** -/
theorem returned_of_held {f : Reads} {read : ReadFn} (hread : ∀ k, read k = .ok (f k)) {i : ι}
    {row row' : Row i} (held : EachBelow embeds (Held doc f) i row)
    (hderef : (doc i).embedDeref read ((doc i).decodePayload ((doc i).encodePayload row)) = .ok row')
    {field : EmbedField Key Row i} (hmem : field ∈ embeds i) :
    (field.cells row').map Prod.fst = (field.cells row).map Prod.fst ∧
    ∀ (p : Nat) (key : Key field.child) (child : Row field.child),
      (field.cells row)[p]? = some (key, some child) → ∃ child', (field.cells row')[p]? = some (key, some child') ∧
        Returned embeds doc field.child child child' := by
  induction held with
  | @intro i row here below ih =>
    rw [laws.deref] at hderef
    obtain ⟨values, hall, hcells⟩ :=
      (derefFields_cells laws (fun _ h => h) (laws.nodup i) hderef hmem).1 hmem
    refine ⟨?_, fun p key child hp => ?_⟩
    · rw [hcells, List.map_fst_zip (by rw [List.length_map, hall.length_eq]),
        laws.cells_decode i field hmem, List.map_map]
      rfl
    · obtain ⟨value, hvalue, hat⟩ := deref_cell_at hall (decoded_cell_at laws hmem hp)
      rw [← hcells] at hat
      have hcell := List.mem_of_getElem? hp
      obtain ⟨hsettled, hlabels, hstored⟩ := here field hmem _ hcell child rfl
      obtain ⟨raw, hraw, hvalue⟩ := bind_eq_ok.mp hvalue
      rw [hread, hstored] at hraw
      obtain rfl := Except.ok.inj hraw
      obtain ⟨child', hchild', hvalue⟩ := bind_eq_ok.mp hvalue
      obtain rfl := Except.ok.inj hvalue
      refine ⟨child', hat, ?_⟩
      have hbelow := fun other (hother : other ∈ embeds field.child) =>
        ih field hmem _ hcell child rfl hchild' hother
      refine .intro ⟨?_, fun v hv label hl => ?_⟩ (fun other hother => (hbelow other hother).1)
        (fun other hother p key child hp => ?_) fun other hother p key child child'' hp hp' => ?_
      · rw [(payload _).embedDeref_payload hchild', hsettled]
      · rw [hlabels v hv] at hl
        cases hl
      · obtain ⟨child'', hp', -⟩ := (hbelow other hother).2 p key child hp
        exact ⟨child'', hp'⟩
      · obtain ⟨child₃, hp₃, hret⟩ := (hbelow other hother).2 p key child hp
        rw [hp'] at hp₃
        obtain rfl : child'' = child₃ := Option.some.inj (Prod.mk.inj (Option.some.inj hp₃)).2
        exact hret

end

end Okm.Model
