import Mathlib.Algebra.Group.Int.Defs
import Mathlib.Algebra.Group.Nat.Defs
import Mathlib.Algebra.GroupWithZero.Nat
import Mathlib.Tactic.Common
import Okm.Lib.Frames

/-!
# Zig-zag numbers in groups of seven bits

A signed number as an unsigned one with its sign in the lowest bit, so that small magnitudes
stay small, and an unsigned number as bytes of seven bits, least significant first, all but
the last with their top bit set.

Both come back on all numbers; `toNat_zigzagWord` says the shifts and the exclusive or of a
64-bit machine compute the first.
-/

namespace Okm.Lib

/-! ## The sign in the lowest bit -/

def zig (n : Int) : Nat := if 0 ≤ n then (2 * n).toNat else (-2 * n - 1).toNat

def zag (n : Nat) : Int := if n % 2 = 0 then (n / 2 : Nat) else -(n / 2 : Nat) - 1

theorem zag_zig (n : Int) : zag (zig n) = n := by
  unfold zig zag
  by_cases h : 0 ≤ n
  · rw [if_pos h]
    split <;> omega
  · rw [if_neg h]
    split <;> omega

/-- A shift by all but one bit spreads the sign. -/
theorem sshiftRight_sign (x : BitVec 64) :
    x.sshiftRight 63 = if x.msb then BitVec.allOnes 64 else 0#64 := by
  apply BitVec.eq_of_toNat_eq
  cases hmsb : x.msb
  · have hlt : x.toNat < 2 ^ 63 := by simpa [BitVec.msb_eq_decide] using hmsb
    rw [BitVec.toNat_sshiftRight_of_msb_false hmsb, Nat.shiftRight_eq_div_pow]
    simpa using Nat.div_eq_of_lt hlt
  · have hle : 2 ^ 63 ≤ x.toNat := by simpa [BitVec.msb_eq_decide] using hmsb
    rw [BitVec.toNat_sshiftRight_of_msb_true hmsb, Nat.shiftRight_eq_div_pow,
      Nat.div_eq_of_lt (by omega)]
    simp

/-- **The machine's zig-zag is `zig`.** -/
theorem toNat_zigzagWord (n : Int64) :
    ((n <<< 1) ^^^ (n >>> 63)).toUInt64.toNat = zig n.toInt := by
  have hbits : ((n <<< 1) ^^^ (n >>> 63)).toUInt64.toNat
      = (n.toBitVec <<< 1 ^^^ n.toBitVec.sshiftRight 63).toNat := by
    change ((n <<< 1) ^^^ (n >>> 63)).toBitVec.toNat = _
    simp
  have hint : n.toInt = n.toBitVec.toInt := rfl
  have hlt := n.toBitVec.isLt
  rw [hbits, sshiftRight_sign, zig, hint]
  cases hmsb : n.toBitVec.msb
  · -- a non-negative number is doubled
    have hsmall : n.toBitVec.toNat < 2 ^ 63 := by simpa [BitVec.msb_eq_decide] using hmsb
    rw [BitVec.toInt_eq_toNat_of_msb hmsb, if_pos (Int.natCast_nonneg _), if_neg Bool.false_ne_true,
      BitVec.xor_zero, BitVec.toNat_shiftLeft, Nat.shiftLeft_eq]
    omega
  · -- a negative one is doubled and all its bits are turned
    have hlarge : 2 ^ 63 ≤ n.toBitVec.toNat := by simpa [BitVec.msb_eq_decide] using hmsb
    have hneg : n.toBitVec.toInt = n.toBitVec.toNat - 2 ^ 64 := by
      rw [BitVec.toInt_eq_msb_cond, hmsb]
      rfl
    rw [hneg, if_pos rfl, BitVec.xor_allOnes, BitVec.toNat_not, BitVec.toNat_shiftLeft,
      Nat.shiftLeft_eq, if_neg (by omega)]
    omega

/-! ## Groups of seven bits -/

/-- The groups of a number, least significant first. -/
def putGroups (n : Nat) : List UInt8 :=
  if n < 128 then [UInt8.ofNat n] else UInt8.ofNat (n % 128 + 128) :: putGroups (n / 128)

def getGroups : List UInt8 → Option (Nat × List UInt8)
  | [] => none
  | b :: bs =>
    if b < 0x80 then some (b.toNat, bs)
    else (getGroups bs).map fun (high, rest) => (b.toNat % 128 + 128 * high, rest)

/-- **The groups of a number are read back**, whatever follows them. -/
theorem reads_putGroups (n : Nat) : Reads getGroups (putGroups n) n := by
  intro rest
  induction n using putGroups.induct with
  | case1 n h =>
    have hbyte : (UInt8.ofNat n).toNat = n := by
      rw [UInt8.toNat_ofNat']
      omega
    have hlast : UInt8.ofNat n < 0x80 := by
      rw [UInt8.lt_iff_toNat_lt, hbyte]
      exact h
    rw [putGroups, if_pos h, List.cons_append, List.nil_append, getGroups, if_pos hlast, hbyte]
  | case2 n h ih =>
    have hbyte : (UInt8.ofNat (n % 128 + 128)).toNat = n % 128 + 128 := by
      rw [UInt8.toNat_ofNat']
      omega
    have hmore : ¬ UInt8.ofNat (n % 128 + 128) < 0x80 := by
      rw [UInt8.lt_iff_toNat_lt, hbyte]
      exact Nat.not_lt.mpr (Nat.le_add_left _ _)
    rw [putGroups, if_neg h, List.cons_append, getGroups, if_neg hmore, ih, Option.map_some, hbyte]
    dsimp only
    congr 2
    omega

theorem length_putGroups_le {k n : Nat} (h : n < 128 ^ (k + 1)) :
    (putGroups n).length ≤ k + 1 := by
  induction k generalizing n with
  | zero =>
    rw [putGroups, if_pos (by omega)]
    exact Nat.le_refl 1
  | succ k ih =>
    rw [putGroups]
    split
    · exact Nat.succ_le_succ (Nat.zero_le _)
    · have hdiv : n / 128 < 128 ^ (k + 1) := by
        rw [Nat.pow_succ] at h
        exact Nat.div_lt_of_lt_mul (by rwa [Nat.mul_comm] at h)
      exact Nat.succ_le_succ (ih hdiv)

/-- A byte with its top bit set. -/
theorem toNat_or_topBit (b : UInt8) : (b ||| 0x80).toNat = b.toNat % 128 + 128 := by
  have hb := b.toNat_lt
  have hlow : b.toNat % 128 < 2 ^ 7 := Nat.mod_lt _ (by omega)
  have hset : 128 + b.toNat % 128 = 128 ||| b.toNat % 128 := Nat.two_pow_add_eq_or_of_lt hlow 1
  rw [UInt8.toNat_or]
  change b.toNat ||| 128 = _
  rcases Nat.lt_or_ge b.toNat 128 with h | h
  · rw [Nat.mod_eq_of_lt h] at hset ⊢
    rw [Nat.or_comm]
    omega
  · have hb' : b.toNat = 128 ||| b.toNat % 128 := by omega
    rw [Nat.or_comm, hb', ← Nat.or_assoc, Nat.or_self]
    omega

theorem toNat_shiftRight_seven (n : UInt64) : (n >>> 7).toNat = n.toNat / 128 := by
  rw [UInt64.toNat_shiftRight, Nat.shiftRight_eq_div_pow]
  rfl

theorem putGroups_ne_nil (n : Nat) : putGroups n ≠ [] := by
  rw [putGroups]
  split
  · exact List.cons_ne_nil _ _
  · exact List.cons_ne_nil _ _

end Okm.Lib
