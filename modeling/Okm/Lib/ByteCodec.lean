import Mathlib.Data.Nat.Log
import Mathlib.Tactic.Ring
import Okm.Lib.LexOrder

/-!
# Fixed-width big-endian numbers

A `w`-byte big-endian number: `beBytes w n` writes the low `w` bytes of `n`,
`beNat` reads any byte string back. The two are inverse below `256 ^ w`, and on
strings of one width the byte order is the numeric order.
-/

namespace Okm.Lib

/-- The number a byte string spells, most significant byte first. -/
def beNat (bs : List UInt8) : Nat := bs.foldl (fun acc b => acc * 256 + b.toNat) 0

/-- The low `w` bytes of `n`, most significant first. -/
def beBytes : Nat → Nat → List UInt8
  | 0, _ => []
  | w + 1, n => beBytes w (n / 256) ++ [UInt8.ofNat n]

@[simp] theorem length_beBytes (w n : Nat) : (beBytes w n).length = w := by
  induction w generalizing n with
  | zero => rfl
  | succ w ih => simp [beBytes, ih]

/-- A wide number ends in the narrow one. -/
theorem beBytes_add (j k n : Nat) : beBytes (j + k) n = beBytes j (n / 256 ^ k) ++ beBytes k n := by
  induction k generalizing n with
  | zero => simp [beBytes]
  | succ k ih =>
    rw [← Nat.add_assoc, beBytes, ih, beBytes, Nat.div_div_eq_div_mul, Nat.pow_succ,
      Nat.mul_comm 256, List.append_assoc]

@[simp] theorem beNat_nil : beNat [] = 0 := rfl

theorem beNat_concat (bs : List UInt8) (b : UInt8) :
    beNat (bs ++ [b]) = beNat bs * 256 + b.toNat := by
  simp [beNat, List.foldl_append]

theorem beNat_append (as bs : List UInt8) :
    beNat (as ++ bs) = beNat as * 256 ^ bs.length + beNat bs := by
  induction bs using List.reverseRecOn with
  | nil => simp
  | append_singleton bs b ih =>
    rw [← List.append_assoc, beNat_concat, ih, beNat_concat, List.length_append,
      List.length_singleton, Nat.pow_succ]
    ring

theorem beNat_cons (b : UInt8) (bs : List UInt8) :
    beNat (b :: bs) = b.toNat * 256 ^ bs.length + beNat bs := by
  have h := beNat_append [b] bs
  simpa [beNat] using h

theorem beNat_replicate_zero (j : Nat) (bs : List UInt8) :
    beNat (List.replicate j 0x00 ++ bs) = beNat bs := by
  induction j with
  | zero => rfl
  | succ j ih =>
    rw [List.replicate_succ, List.cons_append, beNat_cons, ih]
    simp

theorem beNat_beBytes_mod (w n : Nat) : beNat (beBytes w n) = n % 256 ^ w := by
  induction w generalizing n with
  | zero => simp [beBytes, Nat.mod_one]
  | succ w ih =>
    have hlow : (UInt8.ofNat n).toNat = n % 256 := UInt8.toNat_ofNat'
    have hsplit : n % (256 * 256 ^ w) = n % 256 + 256 * (n / 256 % 256 ^ w) := Nat.mod_mul
    rw [beBytes, beNat_concat, ih, hlow, Nat.pow_succ, Nat.mul_comm (256 ^ w) 256, hsplit]
    omega

/-- Reading back what was written, when it fits. -/
theorem beNat_beBytes {w n : Nat} (h : n < 256 ^ w) : beNat (beBytes w n) = n := by
  rw [beNat_beBytes_mod, Nat.mod_eq_of_lt h]

theorem beNat_lt (bs : List UInt8) : beNat bs < 256 ^ bs.length := by
  induction bs using List.reverseRecOn with
  | nil => simp
  | append_singleton bs b ih =>
    rw [beNat_concat, List.length_append, List.length_singleton, Nat.pow_succ]
    have hb := b.toNat_lt
    omega

/-- Writing back what was read, at the width it was read at. -/
theorem beBytes_beNat (bs : List UInt8) : beBytes bs.length (beNat bs) = bs := by
  induction bs using List.reverseRecOn with
  | nil => rfl
  | append_singleton bs b ih =>
    have hb := b.toNat_lt
    have hdiv : (beNat bs * 256 + b.toNat) / 256 = beNat bs := by omega
    have hlow : UInt8.ofNat (beNat bs * 256 + b.toNat) = b := by
      apply UInt8.toNat_inj.mp
      have h : (UInt8.ofNat (beNat bs * 256 + b.toNat)).toNat
          = (beNat bs * 256 + b.toNat) % 256 := UInt8.toNat_ofNat'
      omega
    rw [beNat_concat, List.length_append, List.length_singleton, beBytes, hdiv, ih, hlow]

theorem beBytes_injective {w m n : Nat} (hm : m < 256 ^ w) (hn : n < 256 ^ w)
    (h : beBytes w m = beBytes w n) : m = n := by
  rw [← beNat_beBytes hm, ← beNat_beBytes hn, h]

/-- **At one width the byte order is the numeric order.** -/
theorem beBytes_lt {w m n : Nat} (hn : n < 256 ^ w) (h : m < n) : beBytes w m < beBytes w n := by
  induction w generalizing m n with
  | zero =>
    rw [Nat.pow_zero] at hn
    omega
  | succ w ih =>
    rw [Nat.pow_succ] at hn
    rw [beBytes, beBytes]
    rcases Nat.lt_or_ge (m / 256) (n / 256) with hhigh | hhigh
    · -- the high bytes differ, and neither is a prefix of the other
      have hbelow : n / 256 < 256 ^ w := by omega
      have hlt := ih hbelow hhigh
      refine append_lt_append_of_lt hlt ?_ _ _
      intro hpre
      have heq := hpre.eq_of_length (by rw [length_beBytes, length_beBytes])
      rw [heq] at hlt
      exact lt_irrefl _ hlt
    · have heq : m / 256 = n / 256 := by omega
      rw [heq, append_lt_append_iff, cons_lt_cons_iff]
      refine Or.inl ?_
      rw [UInt8.lt_iff_toNat_lt, UInt8.toNat_ofNat', UInt8.toNat_ofNat']
      omega

end Okm.Lib
