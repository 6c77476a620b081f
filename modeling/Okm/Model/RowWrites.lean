import Okm.Model.Collection

/-!
# What a row write leaves

The two bodies of the write path, seen through what the keys read as. Neither is
refused by an engine that answers, and each is a list of puts and deletes between
two passes over the reduces. The keys of a table split by slot, so the effect is
read off slot by slot: the primary slot moves by one row (`RowMove.rows`), every
accumulator by the row that leaves and the row that enters (`RowMove.groups`),
and the remaining slots of the table keep what they held.
-/

namespace Okm.Model

open Lib VirtualStorage KeyEncode

/-- What every key reads as. -/
abbrev Reads := Bytes → Option Bytes

/-- Some key under a slot of the table. -/
def Under (header : Bytes) (P : Slot → Prop) (k : Bytes) : Prop :=
  ∃ s suffix, P s ∧ k = faceKey header s suffix

theorem under_faceKey {header : Bytes} {P : Slot → Prop} {s : Slot} {suffix : Bytes} :
    Under header P (faceKey header s suffix) ↔ P s := by
  constructor
  · rintro ⟨s', suffix', hs, heq⟩
    exact ((faceKey_inj header s s' suffix suffix').mp heq).1 ▸ hs
  · exact fun hs => ⟨s, suffix, hs, rfl⟩

/-- Two states that differ under slots of `P` only. -/
def OnlyUnder (header : Bytes) (P : Slot → Prop) (f f' : Reads) : Prop :=
  ∀ k, ¬ Under header P k → f' k = f k

namespace OnlyUnder

variable {header : Bytes} {P Q : Slot → Prop} {f f' f'' : Reads}

theorem refl (f : Reads) : OnlyUnder header P f f := fun _ _ => rfl

theorem trans (h : OnlyUnder header P f f') (h' : OnlyUnder header P f' f'') :
    OnlyUnder header P f f'' := fun k hk => (h' k hk).trans (h k hk)

theorem mono (h : OnlyUnder header P f f') (hPQ : ∀ s, P s → Q s) : OnlyUnder header Q f f' :=
  fun k hk => h k fun ⟨s, suffix, hs, heq⟩ => hk ⟨s, suffix, hPQ s hs, heq⟩

theorem at_slot (h : OnlyUnder header P f f') {s : Slot} (hs : ¬ P s) (suffix : Bytes) :
    f' (faceKey header s suffix) = f (faceKey header s suffix) :=
  h _ fun hu => hs (under_faceKey.mp hu)

end OnlyUnder

/-! ## Lists of writes -/

/-- What the keys read as after a list of writes. -/
def written (ops : List (Op Bytes Bytes)) (f : Reads) : Reads :=
  fun k => (pending ops k).getD (f k)

theorem written_append (ops ops' : List (Op Bytes Bytes)) :
    written (ops ++ ops') = written ops' ∘ written ops := by
  funext f k
  unfold written
  rw [Function.comp_apply, pending_append]
  cases pending ops' k with
  | some v => rfl
  | none => rfl

theorem pending_eq_none {ops : List (Op Bytes Bytes)} {k : Bytes} (h : ∀ op ∈ ops, op.1 ≠ k) :
    pending ops k = none := by
  cases hp : pending ops k with
  | none => rfl
  | some v => exact absurd rfl (h _ (mem_of_pending hp))

theorem written_of_not_mem {ops : List (Op Bytes Bytes)} {k : Bytes} (h : ∀ op ∈ ops, op.1 ≠ k)
    (f : Reads) : written ops f k = f k := by
  rw [written, pending_eq_none h, Option.getD_none]

/-- Writes to keys under slots of `P` change nothing else. -/
theorem onlyUnder_of_keys {header : Bytes} {P : Slot → Prop} {ops : List (Op Bytes Bytes)}
    (h : ∀ op ∈ ops, Under header P op.1) (f : Reads) :
    OnlyUnder header P f (written ops f) := by
  intro k hk
  refine written_of_not_mem (fun op hop heq => hk ?_) f
  rw [← heq]
  exact h op hop

/-- The same writes keep an agreement. -/
theorem eqOn_written {f f' : Reads} {A : Set Bytes} (h : Set.EqOn f f' A)
    (ops : List (Op Bytes Bytes)) : Set.EqOn (written ops f) (written ops f') A := by
  intro k hk
  rw [written, written, h hk]

def putOps (pairs : List (Bytes × Bytes)) : List (Op Bytes Bytes) :=
  pairs.map fun e => (e.1, some e.2)

def delOps (keys : List Bytes) : List (Op Bytes Bytes) := keys.map fun k => (k, none)

section

variable {σ : Type} [LawfulStorage σ]

/-- The step changes what the keys read as by `F`, and is never refused. -/
abbrev Writes (F : Reads → Reads) (x : Verb σ Unit) : Prop :=
  Does (LawfulStorage.read (σ := σ)) F x

theorem writes_writeKey (key value : Bytes) :
    Writes (σ := σ) (written [(key, some value)]) (writeKey key value) := by
  intro s
  refine ⟨(VirtualStorage.put s key value).2, ?_, ?_⟩
  · exact Prod.ext (LawfulStorage.put_ok s key value) rfl
  · funext k
    rw [LawfulStorage.read_put, written, pending_singleton]
    by_cases h : k = key
    · rw [if_pos h, if_pos h.symm, Option.getD_some]
    · rw [if_neg h, if_neg (Ne.symm h), Option.getD_none]

theorem writes_dropKey (key : Bytes) :
    Writes (σ := σ) (written [(key, none)]) (dropKey key) := by
  intro s
  refine ⟨(VirtualStorage.del s key).2, ?_, ?_⟩
  · exact Prod.ext (LawfulStorage.del_ok s key) rfl
  · funext k
    rw [LawfulStorage.read_del, written, pending_singleton]
    by_cases h : k = key
    · rw [if_pos h, if_pos h.symm, Option.getD_some]
    · rw [if_neg h, if_neg (Ne.symm h), Option.getD_none]

theorem writes_writeAll (pairs : List (Bytes × Bytes)) :
    Writes (σ := σ) (written (putOps pairs)) (writeAll pairs) := by
  induction pairs with
  | nil => exact Does.nothing
  | cons e rest ih =>
    have h := (writes_writeKey (σ := σ) e.1 e.2).seq ih
    rw [← written_append] at h
    exact h

theorem writes_dropAll (keys : List Bytes) :
    Writes (σ := σ) (written (delOps keys)) (dropAll keys) := by
  induction keys with
  | nil => exact Does.nothing
  | cons k rest ih =>
    have h := (writes_dropKey (σ := σ) k).seq ih
    rw [← written_append] at h
    exact h

end

/-! ## A pass over the reduces -/

section

variable {K R : Type}

/-- One accumulator after a row entered (`add`) or left its group. -/
def regrouped (reduce : Reduce K R) (key : K) (document : R) (add : Bool) (g : Bytes)
    (acc : Option Bytes) : Option Bytes :=
  if g = reduce.groupBytes key document then some (reduce.next acc key document add) else acc

/-- What the keys read as after the hook ran over `reduces`. -/
def regroup (header : Bytes) (key : K) (document : R) (add : Bool) :
    List (Reduce K R) → Reads → Reads
  | [], f => f
  | reduce :: rest, f =>
    regroup header key document add rest
      (written [(reduce.entryKey header key document,
        some (reduce.next (f (reduce.entryKey header key document)) key document add))] f)

theorem writes_applyReduces [KeyEncode K] {σ : Type} [LawfulStorage σ] (header : Bytes) (key : K) (document : R)
    (add : Bool) (reduces : List (Reduce K R)) :
    Writes (σ := σ) (regroup header key document add reduces)
      (Document.applyReduces header key document add reduces) := by
  induction reduces with
  | nil => exact Does.nothing
  | cons reduce rest ih =>
    intro s
    obtain ⟨s', hok, hread⟩ := writes_writeKey (reduce.entryKey header key document)
      (reduce.next (LawfulStorage.read s (reduce.entryKey header key document)) key document add) s
    obtain ⟨s'', hok', hread'⟩ := ih s'
    refine ⟨s'', ?_, ?_⟩
    · change VirtualStorage.put s _ _ = _ at hok
      unfold Document.applyReduces
      dsimp only
      rw [LawfulStorage.get_eq]
      dsimp only
      rw [hok]
      exact hok'
    · rw [hread', hread, regroup]

theorem regroup_at_other {header : Bytes} {key : K} {document : R} {add : Bool} {k : Bytes}
    {reduces : List (Reduce K R)} (h : ∀ r ∈ reduces, ∀ g, k ≠ faceKey header r.slot g)
    (f : Reads) : regroup header key document add reduces f k = f k := by
  induction reduces generalizing f with
  | nil => rfl
  | cons reduce rest ih =>
    rw [regroup, ih fun r hr => h r (List.mem_cons_of_mem _ hr)]
    refine written_of_not_mem (fun op hop => ?_) f
    obtain rfl := List.mem_singleton.mp hop
    exact (h reduce List.mem_cons_self _).symm

/-- **A pass moves each accumulator by the row's own share.** -/
theorem regroup_at {header : Bytes} {key : K} {document : R} {add : Bool}
    {reduces : List (Reduce K R)} (hnodup : (reduces.map Reduce.slot).Nodup) {reduce : Reduce K R}
    (hmem : reduce ∈ reduces) (g : Bytes) (f : Reads) :
    regroup header key document add reduces f (faceKey header reduce.slot g)
      = regrouped reduce key document add g (f (faceKey header reduce.slot g)) := by
  induction reduces generalizing f with
  | nil => simp at hmem
  | cons first rest ih =>
    obtain ⟨hfirst, hrest⟩ := List.nodup_cons.mp hnodup
    rw [regroup]
    rcases List.mem_cons.mp hmem with rfl | hmem
    · -- the later reduces live under other slots
      have hother : ∀ r ∈ rest, ∀ g', faceKey header reduce.slot g ≠ faceKey header r.slot g' := by
        intro r hr g' heq
        have hslot := ((faceKey_inj header _ _ _ _).mp heq).1
        exact hfirst (hslot ▸ List.mem_map_of_mem hr)
      rw [regroup_at_other hother, written, pending_singleton, regrouped]
      by_cases hg : g = reduce.groupBytes key document
      · rw [if_pos hg, Reduce.entryKey, hg, if_pos rfl, Option.getD_some]
      · have hne : reduce.entryKey header key document ≠ faceKey header reduce.slot g :=
          fun heq => hg ((faceKey_inj header _ _ _ _).mp heq).2.symm
        rw [if_neg hg, if_neg hne, Option.getD_none]
    · rw [ih hrest hmem]
      have hne : first.entryKey header key document ≠ faceKey header reduce.slot g := by
        intro heq
        have hslot := ((faceKey_inj header _ _ _ _).mp heq).1
        exact hfirst (hslot ▸ List.mem_map_of_mem hmem)
      rw [written_of_not_mem fun op hop => by
        obtain rfl := List.mem_singleton.mp hop
        exact hne]

/-- An accumulator after the row in question, if there is one, entered or left. -/
def movedBy (reduce : Reduce K R) (key : K) (row : Option R) (add : Bool) (g : Bytes)
    (acc : Option Bytes) : Option Bytes :=
  match row with
  | some document => regrouped reduce key document add g acc
  | none => acc

end

/-! ## The two bodies -/

namespace Document

variable {K R : Type} [KeyEncode K] (doc : Document K R)

/-- The slots whose entries follow from a row. -/
def faceSlots : List Slot := doc.leads.map LeadFace.slot ++ doc.indexes.map KvIndex.slot

theorem family_of_faceSlots {s : Slot} (h : s ∈ doc.faceSlots) :
    s.val / 0x1000 = Segment.lead ∨ s.val / 0x1000 = Segment.index := by
  rcases List.mem_append.mp h with h | h
  · obtain ⟨lead, hlead, rfl⟩ := List.mem_map.mp h
    exact Or.inl (doc.leadSlots lead hlead)
  · obtain ⟨index, hindex, rfl⟩ := List.mem_map.mp h
    exact Or.inr (doc.indexSlots index hindex)

theorem primary_not_face : primarySlot ∉ doc.faceSlots := by
  intro h
  rcases doc.family_of_faceSlots h with h | h <;> simp [primarySlot, Segment.lead,
    Segment.index] at h

theorem reduce_ne_primary {reduce : Reduce K R} (h : reduce ∈ doc.reduces) :
    reduce.slot ≠ primarySlot := by
  intro heq
  have hfam := doc.reduceSlots reduce h
  rw [heq] at hfam
  simp [primarySlot, Segment.reduce] at hfam

theorem reduce_not_face {reduce : Reduce K R} (h : reduce ∈ doc.reduces) :
    reduce.slot ∉ doc.faceSlots := by
  intro hface
  have hfam := doc.reduceSlots reduce h
  rcases doc.family_of_faceSlots hface with h | h <;>
    simp [hfam, Segment.lead, Segment.index, Segment.reduce] at h

theorem under_of_indexEntries {key : K} {document : R} {e : Bytes × Bytes}
    (h : e ∈ doc.indexEntries key document) : Under doc.header (· ∈ doc.faceSlots) e.1 := by
  rcases List.mem_append.mp h with h | h
  · obtain ⟨lead, hlead, rfl⟩ := List.mem_map.mp h
    exact ⟨lead.slot, _, List.mem_append_left _ (List.mem_map_of_mem hlead), rfl⟩
  · obtain ⟨index, hindex, h⟩ := List.mem_flatMap.mp h
    unfold KvIndex.entryPairs at h
    by_cases hadm : index.admits document
    · rw [if_pos hadm] at h
      obtain ⟨segment, -, rfl⟩ := List.mem_map.mp h
      exact ⟨index.slot, _, List.mem_append_right _ (List.mem_map_of_mem hindex), rfl⟩
    · simp [hadm] at h

/-- Embedded children live in tables of their own: no key the embedding writes or
releases is a key of this table. -/
structure EmbedsElsewhere : Prop where
  entries : ∀ r, ∀ e ∈ doc.embedEntries r, ¬ Under doc.header (fun _ => True) e.1
  keys : ∀ r, ∀ k ∈ doc.embedKeys r, ¬ Under doc.header (fun _ => True) k

/-- What `writeRow` does between its two passes over the reduces. -/
def rowOps (key : K) (document : R) (prev : Option R) (stale : List Bytes) :
    List (Op Bytes Bytes) :=
  [(doc.primaryKey key, some (doc.encodePayload document))] ++ delOps stale
    ++ putOps (doc.indexEntries key document) ++ putOps (doc.embedEntries document)
    ++ delOps (doc.releasedKeys document prev)

/-- What `deleteInto` does before its pass. -/
def removeOps (key : K) (document : R) : List (Op Bytes Bytes) :=
  [(doc.primaryKey key, none)] ++ delOps ((doc.indexEntries key document).map Prod.fst)

/-- What the keys read as after the pass of `unfoldPrev`. -/
def unfolded (key : K) : Option R → Reads → Reads
  | some old => regroup doc.header key old false doc.reduces
  | none => id

/-- What the keys read as after `writeRow`. -/
def rowImage (key : K) (document : R) (prev : Option R) (stale : List Bytes) (f : Reads) : Reads :=
  regroup doc.header key document true doc.reduces
    (written (doc.rowOps key document prev stale) (doc.unfolded key prev f))

/-- What the keys read as after `deleteInto`. -/
def removeImage (key : K) (document : R) (f : Reads) : Reads :=
  regroup doc.header key document false doc.reduces (written (doc.removeOps key document) f)

section

variable {σ : Type} [LawfulStorage σ]

theorem writes_unfoldPrev (key : K) (prev : Option R) :
    Writes (σ := σ) (doc.unfolded key prev) (doc.unfoldPrev key prev) := by
  cases prev with
  | none => exact Does.nothing
  | some old => exact writes_applyReduces doc.header key old false doc.reduces

theorem writes_writeRow (key : K) (document : R) (prev : Option R) (stale : List Bytes) :
    Writes (σ := σ) (doc.rowImage key document prev stale)
      (doc.writeRow key document prev stale) := by
  have h := (doc.writes_unfoldPrev (σ := σ) key prev).seq
    ((writes_writeKey (doc.primaryKey key) (doc.encodePayload document)).seq
      ((writes_dropAll stale).seq
        ((writes_writeAll (doc.indexEntries key document)).seq
          ((writes_writeAll (doc.embedEntries document)).seq
            ((writes_dropAll (doc.releasedKeys document prev)).seq
              (writes_applyReduces doc.header key document true doc.reduces))))))
  intro s
  obtain ⟨s', hok, hview⟩ := h s
  refine ⟨s', hok, ?_⟩
  rw [hview, rowImage, rowOps, written_append, written_append, written_append, written_append]
  rfl

theorem writes_deleteInto (key : K) (document : R) :
    Writes (σ := σ) (doc.removeImage key document) (doc.deleteInto key document) := by
  have h := (writes_dropKey (σ := σ) (doc.primaryKey key)).seq
    ((writes_dropAll ((doc.indexEntries key document).map Prod.fst)).seq
      (writes_applyReduces doc.header key document false doc.reduces))
  intro s
  obtain ⟨s', hok, hview⟩ := h s
  refine ⟨s', hok, ?_⟩
  rw [hview, removeImage, removeOps, written_append]
  rfl

end

/-! ## The effect, slot by slot -/

/-- How one row moves what the table reads as: the row `old` stored under `key`
gives way to `new`, and every accumulator loses the one and takes in the other. -/
structure RowMove (f f' : Reads) (key : K) (old new : Option R) : Prop where
  stored : f (doc.primaryKey key) = old.map doc.encodePayload
  rows : ∀ suffix, f' (faceKey doc.header primarySlot suffix)
    = if suffix = encode key then new.map doc.encodePayload
      else f (faceKey doc.header primarySlot suffix)
  groups : ∀ reduce ∈ doc.reduces, ∀ g, f' (faceKey doc.header reduce.slot g)
    = movedBy reduce key new true g
        (movedBy reduce key old false g (f (faceKey doc.header reduce.slot g)))

/-- The faces after a sweep: the entries of the old row are gone, those of the new
one are there. -/
def Swept (f f' : Reads) (key : K) (old new : Option R) : Prop :=
  ∀ s ∈ doc.faceSlots, ∀ suffix, f' (faceKey doc.header s suffix)
    = written (delOps ((old.elim [] (doc.indexEntries key)).map Prod.fst)
        ++ putOps (new.elim [] (doc.indexEntries key))) f (faceKey doc.header s suffix)

theorem mem_putOps {pairs : List (Bytes × Bytes)} {op : Op Bytes Bytes} (h : op ∈ putOps pairs) :
    ∃ e ∈ pairs, op.1 = e.1 := by
  obtain ⟨e, he, rfl⟩ := List.mem_map.mp h
  exact ⟨e, he, rfl⟩

theorem mem_delOps {keys : List Bytes} {op : Op Bytes Bytes} (h : op ∈ delOps keys) :
    op.1 ∈ keys := by
  obtain ⟨k, hk, rfl⟩ := List.mem_map.mp h
  exact hk

theorem pending_primary (key : K) (v : Option Bytes) (suffix : Bytes) :
    pending [(doc.primaryKey key, v)] (faceKey doc.header primarySlot suffix)
      = if suffix = encode key then some v else none := by
  rw [pending_singleton]
  by_cases h : suffix = encode key
  · rw [if_pos h, h]
    exact if_pos rfl
  · have hne : doc.primaryKey key ≠ faceKey doc.header primarySlot suffix :=
      fun heq => h ((faceKey_inj doc.header _ _ _ _).mp heq).2.symm
    rw [if_neg h]
    exact if_neg hne

section

variable {doc} {key : K} {document : R} {prev : Option R} {stale : List Bytes}
variable (elsewhere : doc.EmbedsElsewhere)
variable (hstale : ∀ k ∈ stale, Under doc.header (· ∈ doc.faceSlots) k)

include elsewhere in
/-- The embedding and the release touch no key of the table. -/
theorem pending_embeds (document : R) (prev : Option R) (s : Slot) (suffix : Bytes) :
    pending (putOps (doc.embedEntries document)) (faceKey doc.header s suffix) = none ∧
    pending (delOps (doc.releasedKeys document prev)) (faceKey doc.header s suffix) = none := by
  constructor
  · refine pending_eq_none fun op hop heq => ?_
    obtain ⟨e, he, hkey⟩ := mem_putOps hop
    exact elsewhere.entries document e he ⟨s, suffix, trivial, hkey ▸ heq⟩
  · refine pending_eq_none fun op hop heq => ?_
    have hmem := mem_delOps hop
    cases prev with
    | none => simp [releasedKeys] at hmem
    | some old =>
      exact elsewhere.keys old op.1 (List.mem_filter.mp hmem).1 ⟨s, suffix, trivial, heq⟩

include hstale in
/-- The sweep and the new entries touch face slots only. -/
theorem pending_faces {s : Slot} (hs : s ∉ doc.faceSlots) (suffix : Bytes) :
    pending (delOps stale ++ putOps (doc.indexEntries key document))
      (faceKey doc.header s suffix) = none := by
  refine pending_eq_none fun op hop heq => ?_
  rcases List.mem_append.mp hop with hop | hop
  · exact hs (under_faceKey.mp (heq ▸ hstale op.1 (mem_delOps hop)))
  · obtain ⟨e, he, hkey⟩ := mem_putOps hop
    exact hs (under_faceKey.mp (heq ▸ hkey ▸ doc.under_of_indexEntries he))

include elsewhere in
/-- On the keys of the table the row operations are the row, the sweep and the new
entries. -/
theorem pending_rowOps (s : Slot) (suffix : Bytes) :
    pending (doc.rowOps key document prev stale) (faceKey doc.header s suffix)
      = (pending (delOps stale ++ putOps (doc.indexEntries key document))
          (faceKey doc.header s suffix)).or
        (pending [(doc.primaryKey key, some (doc.encodePayload document))]
          (faceKey doc.header s suffix)) := by
  obtain ⟨hput, hdel⟩ := pending_embeds elsewhere document prev s suffix
  simp only [rowOps, pending_append, hput, hdel, Option.none_or, Option.or_assoc]

end

/-! ## The passes, slot by slot -/

theorem regroup_at_slot {key : K} {document : R} {add : Bool} {s : Slot}
    (hs : s ∉ doc.reduces.map Reduce.slot) (suffix : Bytes) (f : Reads) :
    regroup doc.header key document add doc.reduces f (faceKey doc.header s suffix)
      = f (faceKey doc.header s suffix) := by
  refine regroup_at_other (fun r hr g heq => ?_) f
  exact hs (((faceKey_inj doc.header _ _ _ _).mp heq).1 ▸ List.mem_map_of_mem hr)

theorem unfolded_at_slot {key : K} {prev : Option R} {s : Slot}
    (hs : s ∉ doc.reduces.map Reduce.slot) (suffix : Bytes) (f : Reads) :
    doc.unfolded key prev f (faceKey doc.header s suffix) = f (faceKey doc.header s suffix) := by
  cases prev with
  | none => rfl
  | some old => exact doc.regroup_at_slot hs suffix f

theorem unfolded_at {key : K} {prev : Option R} {reduce : Reduce K R} (h : reduce ∈ doc.reduces)
    (g : Bytes) (f : Reads) :
    doc.unfolded key prev f (faceKey doc.header reduce.slot g)
      = movedBy reduce key prev false g (f (faceKey doc.header reduce.slot g)) := by
  cases prev with
  | none => rfl
  | some old => exact regroup_at doc.reducesNodup h g f

theorem primary_not_reduce : primarySlot ∉ doc.reduces.map Reduce.slot := by
  intro h
  obtain ⟨reduce, hmem, heq⟩ := List.mem_map.mp h
  exact doc.reduce_ne_primary hmem heq

theorem face_not_reduce {s : Slot} (h : s ∈ doc.faceSlots) : s ∉ doc.reduces.map Reduce.slot := by
  intro hr
  obtain ⟨reduce, hmem, heq⟩ := List.mem_map.mp hr
  exact doc.reduce_not_face hmem (heq ▸ h)

/-! ## What a write and a removal leave -/

variable {doc}

/-- **A row write moves the table by one row.** -/
theorem rowMove_writeRow {key : K} {document : R} {prev : Option R} {stale : List Bytes}
    (elsewhere : doc.EmbedsElsewhere)
    (hstale : ∀ k ∈ stale, Under doc.header (· ∈ doc.faceSlots) k) {f : Reads}
    (hprev : f (doc.primaryKey key) = prev.map doc.encodePayload) :
    doc.RowMove f (doc.rowImage key document prev stale f) key prev (some document) where
  stored := hprev
  rows suffix := by
    rw [rowImage, doc.regroup_at_slot doc.primary_not_reduce, written, pending_rowOps elsewhere,
      pending_faces hstale doc.primary_not_face, Option.none_or, pending_primary,
      doc.unfolded_at_slot doc.primary_not_reduce]
    by_cases h : suffix = encode key
    · rw [if_pos h, if_pos h]
      rfl
    · rw [if_neg h, if_neg h]
      rfl
  groups reduce hmem g := by
    have hne : doc.primaryKey key ≠ faceKey doc.header reduce.slot g :=
      faceKey_ne_of_slot (doc.reduce_ne_primary hmem).symm _ _
    rw [rowImage, regroup_at doc.reducesNodup hmem, written, pending_rowOps elsewhere,
      pending_faces hstale (doc.reduce_not_face hmem), pending_singleton, if_neg hne,
      doc.unfolded_at hmem]
    rfl

theorem pending_removeOps {key : K} {document : R} {s : Slot} (hs : s ∉ doc.faceSlots)
    (suffix : Bytes) :
    pending (doc.removeOps key document) (faceKey doc.header s suffix)
      = pending [(doc.primaryKey key, none)] (faceKey doc.header s suffix) := by
  have hdel : pending (delOps ((doc.indexEntries key document).map Prod.fst))
      (faceKey doc.header s suffix) = none := by
    refine pending_eq_none fun op hop heq => hs ?_
    obtain ⟨e, he, hkey⟩ := List.mem_map.mp (mem_delOps hop)
    exact under_faceKey.mp (heq ▸ hkey ▸ doc.under_of_indexEntries he)
  rw [removeOps, pending_append, hdel, Option.none_or]

/-- **A removal takes one row out.** -/
theorem rowMove_deleteInto {key : K} {document : R} {f : Reads}
    (hprev : f (doc.primaryKey key) = some (doc.encodePayload document)) :
    doc.RowMove f (doc.removeImage key document f) key (some document) none where
  stored := hprev
  rows suffix := by
    rw [removeImage, doc.regroup_at_slot doc.primary_not_reduce, written,
      pending_removeOps doc.primary_not_face, pending_primary]
    by_cases h : suffix = encode key
    · rw [if_pos h, if_pos h]
      rfl
    · rw [if_neg h, if_neg h]
      rfl
  groups reduce hmem g := by
    have hne : doc.primaryKey key ≠ faceKey doc.header reduce.slot g :=
      faceKey_ne_of_slot (doc.reduce_ne_primary hmem).symm _ _
    rw [removeImage, regroup_at doc.reducesNodup hmem, written,
      pending_removeOps (doc.reduce_not_face hmem), pending_singleton, if_neg hne]
    rfl

/-! ## The other slots -/

/-- A slot of the table that holds neither rows, nor faces, nor accumulators. -/
def Quiet (doc : Document K R) (s : Slot) : Prop :=
  s ≠ primarySlot ∧ s ∉ doc.faceSlots ∧ s ∉ doc.reduces.map Reduce.slot

/-- **A row write leaves the quiet slots alone.** -/
theorem writeRow_quiet {key : K} {document : R} {prev : Option R} {stale : List Bytes}
    (elsewhere : doc.EmbedsElsewhere)
    (hstale : ∀ k ∈ stale, Under doc.header (· ∈ doc.faceSlots) k) (f : Reads) {s : Slot}
    (hs : doc.Quiet s) (suffix : Bytes) :
    doc.rowImage key document prev stale f (faceKey doc.header s suffix)
      = f (faceKey doc.header s suffix) := by
  obtain ⟨hprim, hface, hred⟩ := hs
  have hne : doc.primaryKey key ≠ faceKey doc.header s suffix :=
    faceKey_ne_of_slot hprim.symm _ _
  rw [rowImage, doc.regroup_at_slot hred, written, pending_rowOps elsewhere, pending_faces hstale hface,
    pending_singleton, if_neg hne, doc.unfolded_at_slot hred]
  rfl

/-- **A removal leaves the quiet slots alone.** -/
theorem deleteInto_quiet {key : K} {document : R} (f : Reads) {s : Slot} (hs : doc.Quiet s)
    (suffix : Bytes) :
    doc.removeImage key document f (faceKey doc.header s suffix)
      = f (faceKey doc.header s suffix) := by
  obtain ⟨hprim, hface, hred⟩ := hs
  have hne : doc.primaryKey key ≠ faceKey doc.header s suffix :=
    faceKey_ne_of_slot hprim.symm _ _
  rw [removeImage, doc.regroup_at_slot hred, written, pending_removeOps hface, pending_singleton, if_neg hne]
  rfl

end Document

end Okm.Model
