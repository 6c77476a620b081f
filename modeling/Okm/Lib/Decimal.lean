import Okm.Lib.LexOrder

/-!
# Decimal numerals

File names carry numbers as ASCII digits, and a directory listing is sorted by the bytes
of the names. At a fixed number of digits that order is the numeric one
(`decDigits_lt`); a numeral that needs a digit more sorts where its bytes put it.
-/

namespace Okm.Lib

/-- The low `w` decimal digits of `n`, most significant first, in ASCII. -/
def decDigits : Nat → Nat → List UInt8
  | 0, _ => []
  | w + 1, n => decDigits w (n / 10) ++ [UInt8.ofNat (48 + n % 10)]

@[simp] theorem length_decDigits (w n : Nat) : (decDigits w n).length = w := by
  induction w generalizing n with
  | zero => rfl
  | succ w ih => simp [decDigits, ih]

/-- **At one width the order of numerals is the numeric order.** -/
theorem decDigits_lt {w m n : Nat} (hn : n < 10 ^ w) (h : m < n) :
    decDigits w m < decDigits w n := by
  induction w generalizing m n with
  | zero =>
    rw [Nat.pow_zero] at hn
    omega
  | succ w ih =>
    rw [Nat.pow_succ] at hn
    rw [decDigits, decDigits]
    rcases Nat.lt_or_ge (m / 10) (n / 10) with hhigh | hhigh
    · -- the high digits differ, and neither is a prefix of the other
      have hlt := ih (show n / 10 < 10 ^ w by omega) hhigh
      refine append_lt_append_of_lt hlt ?_ _ _
      intro hpre
      have heq := hpre.eq_of_length (by rw [length_decDigits, length_decDigits])
      rw [heq] at hlt
      exact lt_irrefl _ hlt
    · have heq : m / 10 = n / 10 := by omega
      rw [heq, append_lt_append_iff, cons_lt_cons_iff]
      refine Or.inl ?_
      rw [UInt8.lt_iff_toNat_lt, UInt8.toNat_ofNat', UInt8.toNat_ofNat']
      omega

theorem decDigits_injective {w m n : Nat} (hm : m < 10 ^ w) (hn : n < 10 ^ w)
    (h : decDigits w m = decDigits w n) : m = n := by
  rcases Nat.lt_trichotomy m n with hlt | heq | hlt
  · exact absurd (h ▸ decDigits_lt hn hlt) (lt_irrefl _)
  · exact heq
  · exact absurd (h ▸ decDigits_lt hm hlt) (lt_irrefl _)

end Okm.Lib
