import Mathlib.Data.List.Forall2
import Okm.Lib.ByteCodec

/-!
# Self-delimiting encodings

Bytes that are only hashed or compared are never read back, so what they owe is not a
decoder but this: where two encodings begin two equal byte strings, they encode the same
thing and what follows is the same (`Delimits`). The property is kept by a number at a
fixed width, by a byte string after its length and by a list after its count, each within
the range its length field can hold.

The relation says what counts as the same thing: an encoding may leave parts of a value
out.
-/

namespace Okm.Lib

variable {α β : Type} {enc : α → List β} {P : α → Prop} {R : α → α → Prop}

/-- Between values of `P`, an encoding tells the value up to `R`, and where it ends. -/
def Delimits (enc : α → List β) (P : α → Prop) (R : α → α → Prop) : Prop :=
  ∀ ⦃a b : α⦄ ⦃s t : List β⦄, P a → P b → enc a ++ s = enc b ++ t → R a b ∧ s = t

theorem Delimits.mono {Q : α → Prop} (h : Delimits enc P R) (hle : ∀ a, Q a → P a) :
    Delimits enc Q R :=
  fun _ _ _ _ ha hb heq => h (hle _ ha) (hle _ hb) heq

theorem delimits_beBytes (w : Nat) : Delimits (beBytes w) (· < 256 ^ w) (· = ·) := by
  intro m n s t hm hn h
  obtain ⟨hbytes, hrest⟩ := List.append_inj h (by rw [length_beBytes, length_beBytes])
  exact ⟨beBytes_injective hm hn hbytes, hrest⟩

/-- A byte string after its length. -/
theorem delimits_sized (w : Nat) {bytes : α → List UInt8}
    (inj : ∀ a b, P a → P b → bytes a = bytes b → R a b) :
    Delimits (fun a => beBytes w (bytes a).length ++ bytes a)
      (fun a => P a ∧ (bytes a).length < 256 ^ w) R := by
  intro a b s t ha hb h
  rw [List.append_assoc, List.append_assoc] at h
  obtain ⟨hlen, h⟩ := delimits_beBytes w ha.2 hb.2 h
  obtain ⟨hbytes, hrest⟩ := List.append_inj h hlen
  exact ⟨inj a b ha.1 hb.1 hbytes, hrest⟩

/-- As many encodings one after another. -/
theorem Delimits.flatMap (h : Delimits enc P R) {as bs : List α} {s t : List β}
    (hlen : as.length = bs.length) (has : ∀ a ∈ as, P a) (hbs : ∀ b ∈ bs, P b)
    (heq : as.flatMap enc ++ s = bs.flatMap enc ++ t) : List.Forall₂ R as bs ∧ s = t := by
  induction as generalizing bs with
  | nil =>
    obtain rfl : bs = [] := List.eq_nil_of_length_eq_zero hlen.symm
    exact ⟨.nil, heq⟩
  | cons a as ih =>
    cases bs with
    | nil => cases hlen
    | cons b bs =>
      rw [List.flatMap_cons, List.flatMap_cons, List.append_assoc, List.append_assoc] at heq
      obtain ⟨hhead, heq⟩ := h (has a List.mem_cons_self) (hbs b List.mem_cons_self) heq
      obtain ⟨htail, hrest⟩ := ih (Nat.succ.inj hlen)
        (fun x hx => has x (List.mem_cons_of_mem a hx))
        (fun x hx => hbs x (List.mem_cons_of_mem b hx)) heq
      exact ⟨.cons hhead htail, hrest⟩

/-- Encodings one after another with no count in front: the front part of a byte string is
the front part of the list. -/
theorem Delimits.prefix_iff (h : Delimits enc P (· = ·)) (hne : ∀ a, P a → enc a ≠ [])
    {as bs : List α} (has : ∀ a ∈ as, P a) (hbs : ∀ b ∈ bs, P b) :
    as.flatMap enc <+: bs.flatMap enc ↔ as <+: bs := by
  constructor
  · intro hpre
    induction as generalizing bs with
    | nil => exact List.nil_prefix
    | cons a as ih =>
      obtain ⟨t, ht⟩ := hpre
      rw [List.flatMap_cons, List.append_assoc] at ht
      cases bs with
      | nil => exact absurd (List.append_eq_nil_iff.mp ht).1 (hne a (has a List.mem_cons_self))
      | cons b bs =>
        rw [List.flatMap_cons] at ht
        obtain ⟨rfl, hrest⟩ := h (has a List.mem_cons_self) (hbs b List.mem_cons_self) ht
        exact List.cons_prefix_cons.mpr ⟨rfl, ih
          (fun x hx => has x (List.mem_cons_of_mem a hx))
          (fun x hx => hbs x (List.mem_cons_of_mem a hx)) ⟨t, hrest⟩⟩
  · rintro ⟨more, rfl⟩
    rw [List.flatMap_append]
    exact List.prefix_append _ _

/-- A list after its count. -/
theorem Delimits.counted {enc : α → List UInt8} (h : Delimits enc P R) (w : Nat) :
    Delimits (fun as => beBytes w as.length ++ as.flatMap enc)
      (fun as => as.length < 256 ^ w ∧ ∀ a ∈ as, P a) (List.Forall₂ R) := by
  intro as bs s t has hbs heq
  rw [List.append_assoc, List.append_assoc] at heq
  obtain ⟨hlen, heq⟩ := delimits_beBytes w has.1 hbs.1 heq
  exact h.flatMap hlen has.2 hbs.2 heq

end Okm.Lib
