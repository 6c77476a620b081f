import Okm.Model.DynamicRoundTrip
import Okm.Model.VocabLog

/-!
# Frames written while the vocabulary grows

An encoder hands every name it meets to a resolver, and the resolver may allocate. Its frames
are those of the plain encoder over the vocabulary as it stands in the end (`settles_frames`):
ids are handed out once and never changed, so a frame written early keeps its meaning. Nested
objects allocate in the middle of their own encoding; the induction is on the value.
-/

namespace Okm.Model

open Lib

/-- The id of a label: its place in the list. -/
def numberOf (labels : List String) (name : String) : Option UInt16 :=
  (labels.idxOf? name).map UInt16.ofNat

/-- The resolver that only looks up. -/
def resolveIn (labels : List String) (name : String) : Except Error UInt16 :=
  match numberOf labels name with
  | some id => .ok id
  | none => .error (.vocabularyRequired name)

theorem getElem_of_idxOf {labels : List String} {name : String} {i : Nat}
    (h : labels.idxOf? name = some i) : labels[i]? = some name := by
  obtain ⟨hlt, hat, -⟩ := List.idxOf?_eq_some_iff.mp h
  rw [List.getElem?_eq_getElem hlt, hat]

theorem idxOf_of_getElem {labels : List String} (hnodup : labels.Nodup) {name : String} {i : Nat}
    (h : labels[i]? = some name) : labels.idxOf? name = some i := by
  cases hidx : labels.idxOf? name with
  | none => exact absurd (List.mem_of_getElem? h) (List.idxOf?_eq_none_iff.mp hidx)
  | some j =>
    have hj := getElem_of_idxOf hidx
    obtain ⟨hilt, hi⟩ := List.getElem?_eq_some_iff.mp h
    obtain ⟨hjlt, hj⟩ := List.getElem?_eq_some_iff.mp hj
    rw [(hnodup.getElem_inj_iff).mp (hj.trans hi.symm)]

/-- A list of labels as an assignment of ids. -/
def NameIds.ofLabels (labels : List String) (nodup : labels.Nodup)
    (fits : labels.length < 2 ^ 16) : NameIds where
  idOf := numberOf labels
  nameOf id := labels[id.toNat]?
  inverse name id := by
    unfold numberOf
    constructor
    · intro h
      obtain ⟨i, hidx, rfl⟩ := Option.map_eq_some_iff.mp h
      have hi := getElem_of_idxOf hidx
      have hlt := (List.getElem?_eq_some_iff.mp hi).1
      rw [UInt16.toNat_ofNat', Nat.mod_eq_of_lt (by omega)]
      exact hi
    · intro h
      rw [idxOf_of_getElem nodup h, Option.map_some, UInt16.ofNat_toNat]

/-- A name found in a list is found in every longer one. -/
theorem resolveIn_of_prefix {labels labels' : List String} (h : labels <+: labels')
    (hnodup : labels'.Nodup) {name : String} {id : UInt16}
    (hid : resolveIn labels name = .ok id) : resolveIn labels' name = .ok id := by
  unfold resolveIn numberOf at hid ⊢
  cases hidx : labels.idxOf? name with
  | none =>
    rw [hidx] at hid
    cases hid
  | some i =>
    rw [hidx] at hid
    obtain ⟨more, rfl⟩ := h
    have hi := getElem_of_idxOf hidx
    have hlt := (List.getElem?_eq_some_iff.mp hi).1
    have hi' : (labels ++ more)[i]? = some name := by
      rw [List.getElem?_append_left hlt, hi]
    rw [idxOf_of_getElem hnodup hi']
    exact hid

/-! ## The encoder over a resolver that allocates -/

/-- One list of labels goes on from another, and repeats none. -/
def GrowsTo (labels labels' : List String) : Prop := labels <+: labels' ∧ (labels.Nodup → labels'.Nodup)

theorem GrowsTo.refl (labels : List String) : GrowsTo labels labels :=
  ⟨List.prefix_refl labels, id⟩

theorem GrowsTo.trans (a b c : List String) (hab : GrowsTo a b) (hbc : GrowsTo b c) :
    GrowsTo a c := ⟨hab.1.trans hbc.1, hbc.2 ∘ hab.2⟩

section

variable {ε τ : Type} {holds : τ → List String → Prop} {resolve : String → Run ε τ UInt16}

mutual

theorem settles_encodeValue (hres : ∀ name,
    Settles holds GrowsTo (resolve name) fun labels => resolveIn labels name) : ∀ v : DynamicValue,
    Settles holds GrowsTo (encodeValue resolve v) fun labels => encodeValue (resolveIn labels) v
  | .int v => by
    simp only [encodeValue]
    exact Settles.pure GrowsTo.refl _
  | .uint v => by
    simp only [encodeValue]
    exact Settles.pure GrowsTo.refl _
  | .f64 bits => by
    simp only [encodeValue]
    exact Settles.pure GrowsTo.refl _
  | .str s => by
    simp only [encodeValue]
    exact Settles.pure GrowsTo.refl _
  | .bytes b => by
    simp only [encodeValue]
    exact Settles.pure GrowsTo.refl _
  | .bool b => by
    simp only [encodeValue]
    exact Settles.pure GrowsTo.refl _
  | .null => by
    simp only [encodeValue]
    exact Settles.pure GrowsTo.refl _
  | .array items => by
    simp only [encodeValue]
    exact (settles_encodeItems hres items).bind GrowsTo.trans fun _ => Settles.pure GrowsTo.refl _
  | .obj fields => by
    simp only [encodeValue]
    exact (settles_putFields hres fields).bind GrowsTo.trans fun _ => Settles.pure GrowsTo.refl _

theorem settles_encodeItems (hres : ∀ name,
    Settles holds GrowsTo (resolve name) fun labels => resolveIn labels name) : ∀ items : List DynamicValue,
    Settles holds GrowsTo (encodeItems resolve items) fun labels =>
      encodeItems (resolveIn labels) items
  | [] => by
    simp only [encodeItems]
    exact Settles.pure GrowsTo.refl _
  | v :: rest => by
    simp only [encodeItems]
    exact (settles_encodeValue hres v).bind GrowsTo.trans fun _ =>
      (settles_encodeItems hres rest).bind GrowsTo.trans fun _ => Settles.pure GrowsTo.refl _

theorem settles_putFields (hres : ∀ name,
    Settles holds GrowsTo (resolve name) fun labels => resolveIn labels name) : ∀ fields : List (String × DynamicValue),
    Settles holds GrowsTo (putFields resolve fields) fun labels =>
      putFields (resolveIn labels) fields
  | [] => by
    simp only [putFields]
    exact Settles.pure GrowsTo.refl _
  | (name, v) :: rest => by
    simp only [putFields]
    exact (hres name).bind GrowsTo.trans fun _ =>
      (settles_encodeValue hres v).bind GrowsTo.trans fun _ =>
        (settles_putFields hres rest).bind GrowsTo.trans fun _ => Settles.pure GrowsTo.refl _

end

theorem settles_putFrameNamed (hres : ∀ name,
    Settles holds GrowsTo (resolve name) fun labels => resolveIn labels name) (name : String) (v : DynamicValue) :
    Settles holds GrowsTo (putFrameNamed resolve name v) fun labels =>
      putFrameNamed (resolveIn labels) name v := by
  unfold putFrameNamed
  refine (hres name).bind GrowsTo.trans fun id => ?_
  cases v with
  | obj fields =>
    exact (settles_putFields hres fields).bind GrowsTo.trans fun _ => Settles.pure GrowsTo.refl _
  | _ =>
    exact (settles_encodeValue hres _).bind GrowsTo.trans fun _ => Settles.pure GrowsTo.refl _

/-- **The frames of an encoder that allocates are those over the vocabulary it leaves.** -/
theorem settles_frames (hres : ∀ name,
    Settles holds GrowsTo (resolve name) fun labels => resolveIn labels name) : ∀ fields : List (String × DynamicValue),
    Settles holds GrowsTo (putFramesNamed resolve fields) fun labels =>
      putFramesNamed (resolveIn labels) fields
  | [] => by
    simp only [putFramesNamed]
    exact Settles.pure GrowsTo.refl _
  | (name, v) :: rest => by
    simp only [putFramesNamed]
    exact (settles_putFrameNamed hres name v).bind GrowsTo.trans fun _ =>
      (settles_frames hres rest).bind GrowsTo.trans fun _ => Settles.pure GrowsTo.refl _

end

end Okm.Model
