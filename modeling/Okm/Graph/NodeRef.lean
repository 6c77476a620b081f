import Okm.Lib.Delimited
import Okm.Model.VarLen

/-!
# Endpoint references

The model of the `NodeRef` part of `graph.rs`. A reference is
`[ns 2B][len varint][pkey]`: the width of the key rides in front of it, so keys of any
widths stand side by side and the bytes say where a reference ends (`delimits_encode`).
That holds for every key there can be. Reading a reference back (`decode_encode`) needs
a key below `2 ^ 49` bytes, as reading any length does.
-/

namespace Okm.Model

open Lib

/-! ## Lengths delimit themselves -/

/-- What a reader makes of a length: two lengths never look alike. -/
theorem takeLen_putLen_cases {n : Nat} (h : n < 2 ^ 64) (rest : Bytes) :
    (n < 2 ^ 49 ∧ takeLen (putLen n ++ rest) = some (n, (putLen n).length)) ∨
    (2 ^ 49 ≤ n ∧ takeLen (putLen n ++ rest) = some (254 * 2 ^ 56 + n, 8)) ∨
    (2 ^ 56 ≤ n ∧ takeLen (putLen n ++ rest) = some (n, 9)) := by
  by_cases h49 : n < 2 ^ 49
  · exact Or.inl ⟨h49, takeLen_putLen h49 rest⟩
  · by_cases h56 : n < 2 ^ 56
    · exact Or.inr (Or.inl ⟨by omega, takeLen_putLen_overflow (by omega) h56 rest⟩)
    · exact Or.inr (Or.inr ⟨by omega, takeLen_putLen_wide (by omega) h rest⟩)

theorem delimits_putLen : Delimits putLen (· < 2 ^ 64) (· = ·) := by
  intro m n s t hm hn heq
  have hmn : m = n := by
    have hread := congrArg takeLen heq
    -- the three ranges answer lengths of their own, or widths of their own
    rcases takeLen_putLen_cases hm s with ⟨hm', hs⟩ | ⟨hm', hs⟩ | ⟨hm', hs⟩ <;>
      rcases takeLen_putLen_cases hn t with ⟨hn', ht⟩ | ⟨hn', ht⟩ | ⟨hn', ht⟩ <;>
      rw [hs, ht] at hread <;>
      obtain ⟨hvalue, hwidth⟩ := Prod.mk.inj (Option.some.inj hread) <;>
      omega
  subst hmn
  exact ⟨rfl, List.append_cancel_left heq⟩

/-! ## References -/

/-- An endpoint: the namespace of its collection and its bare key. The key is a byte
string of the machine, so its length is a `usize`. -/
structure NodeRef where
  ns : UInt16
  pkey : Bytes
  sized : pkey.length < 2 ^ 64

namespace NodeRef

theorem ext_fields {m n : NodeRef} (hns : m.ns = n.ns) (hpkey : m.pkey = n.pkey) : m = n := by
  obtain ⟨ns, pkey, hm⟩ := m
  obtain ⟨ns', pkey', hn⟩ := n
  obtain rfl := hns
  obtain rfl := hpkey
  rfl

instance decEq : DecidableEq NodeRef := fun m n =>
  if h : m.ns = n.ns ∧ m.pkey = n.pkey then isTrue (ext_fields h.1 h.2)
  else isFalse fun heq => h ⟨congrArg ns heq, congrArg pkey heq⟩

/-- `NodeRef::encode`. -/
def encode (n : NodeRef) : Bytes := beBytes 2 n.ns.toNat ++ (putLen n.pkey.length ++ n.pkey)

/-- `NodeRef::decode`: the reference at the front of the bytes, and what it took. The end
of the reference is a sum the machine may not hold. -/
def decode (wire : Bytes) : Except Panic (Option (NodeRef × Nat)) :=
  if wire.length < 3 then .ok none
  else
    match takeLen (wire.drop 2) with
    | none => .ok none
    | some (len, width) =>
      if h : 2 + width + len < 2 ^ 64 then
        if wire.length < 2 + width + len then .ok none
        else
          have hsized : ((wire.drop (2 + width)).take len).length < 2 ^ 64 := by
            rw [List.length_take]
            omega
          .ok (some (⟨UInt16.ofNat (beNat (wire.take 2)), (wire.drop (2 + width)).take len, hsized⟩,
            2 + width + len))
      else .error .overflow

/-- The key is short enough for its length to be read back. -/
def Readable (n : NodeRef) : Prop := n.pkey.length < 2 ^ 49

instance decidableReadable (n : NodeRef) : Decidable n.Readable := by
  unfold Readable
  infer_instance

theorem length_encode (n : NodeRef) :
    n.encode.length = 2 + (putLen n.pkey.length).length + n.pkey.length := by
  rw [encode, List.length_append, List.length_append, length_beBytes]
  omega

theorem three_le_length (n : NodeRef) : 3 ≤ n.encode.length := by
  have hpos : 0 < (putLen n.pkey.length).length := by
    unfold putLen
    dsimp only
    split <;> simp
  rw [length_encode]
  omega

/-- **A reference says where it ends**, whatever the width of its key. -/
theorem delimits_encode : Delimits encode (fun _ => True) (· = ·) := by
  intro m n s t _ _ heq
  simp only [encode, List.append_assoc] at heq
  have hlt : ∀ ns : UInt16, ns.toNat < 256 ^ 2 := fun ns => ns.toNat_lt
  obtain ⟨hns, heq⟩ := delimits_beBytes 2 (hlt m.ns) (hlt n.ns) heq
  obtain ⟨hlen, heq⟩ := delimits_putLen m.sized n.sized heq
  obtain ⟨hpkey, hrest⟩ := List.append_inj heq hlen
  exact ⟨ext_fields (UInt16.toNat_inj.mp hns) hpkey, hrest⟩

/-- Two references with the same bytes are one. -/
theorem encode_inj {m n : NodeRef} {s t : Bytes} (h : m.encode ++ s = n.encode ++ t) :
    m = n ∧ s = t := delimits_encode trivial trivial h

/-- **A reference is read back** from the front of what it was written to. -/
theorem decode_encode {n : NodeRef} (h : n.Readable) (rest : Bytes) :
    decode (n.encode ++ rest) = .ok (some (n, n.encode.length)) := by
  have hlen : (n.encode ++ rest).length = n.encode.length + rest.length := List.length_append
  have hthree := n.three_le_length
  have htotal := n.length_encode
  unfold Readable at h
  have hwidth : (putLen n.pkey.length).length ≤ 9 := by
    rw [length_putLen (by omega)]
    have hspec := widthOf_spec (v := n.pkey.length) (by omega)
    omega
  have hns : (n.encode ++ rest).take 2 = beBytes 2 n.ns.toNat := by
    rw [encode, List.append_assoc]
    exact List.take_left' (length_beBytes 2 _)
  have hdrop : (n.encode ++ rest).drop 2 = putLen n.pkey.length ++ (n.pkey ++ rest) := by
    rw [encode, List.append_assoc, List.append_assoc]
    exact List.drop_left' (length_beBytes 2 _)
  have hkey : ((n.encode ++ rest).drop (2 + (putLen n.pkey.length).length)).take n.pkey.length
      = n.pkey := by
    rw [← List.drop_drop, hdrop, List.drop_left, List.take_left]
  unfold decode
  rw [if_neg (by omega), hdrop, takeLen_putLen h]
  dsimp only
  rw [dif_pos (by omega), if_neg (by omega)]
  have hback : UInt16.ofNat (beNat ((n.encode ++ rest).take 2)) = n.ns := by
    rw [hns, beNat_beBytes n.ns.toNat_lt, UInt16.ofNat_toNat]
  rw [htotal]
  refine congrArg (fun m => Except.ok (some (m, _))) (ext_fields hback hkey)

end NodeRef

end Okm.Model
