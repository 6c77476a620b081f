import Okm.Engine.Storage

/-!
# Variable-length lengths

The model of `wrappers/wire.rs`: a length is written behind as many leading one
bits as it needs further bytes. Seven value bits are left per byte, so a width
`w` below nine holds the lengths below `2 ^ (7 * w)`.

The mask of a first byte is `0xFF >> w`. At width eight that shifts a byte by
its own size, which a release build takes modulo eight: the mask is full there,
and the length comes back with the marker bits in it (`takeLen_putLen_overflow`).
Every shorter length is read back (`takeLen_putLen`).
-/

namespace Okm.Model

open Lib

/-- The value bits of width `w`. -/
def payloadBits (w : Nat) : Nat := (w - 1) * 8 + (8 - w)

/-- `width_of`: the smallest width whose payload holds `v`. -/
def widthOf (v : Nat) : Nat :=
  if 2 ^ 56 ≤ v then 9
  else ((List.range' 1 8).find? fun w => v < 2 ^ payloadBits w).getD 8

/-- `prefix`: `w - 1` leading ones and a zero. -/
def lenMarker (w : Nat) : UInt8 :=
  if 9 ≤ w then 0xFF else UInt8.ofNat ((0xFFFF - 0xFFFF >>> (w - 1)) >>> 8)

/-- `u8::leading_ones`. -/
def leadingOnes (b : UInt8) : Nat :=
  if b < 0x80 then 0
  else if b < 0xC0 then 1
  else if b < 0xE0 then 2
  else if b < 0xF0 then 3
  else if b < 0xF8 then 4
  else if b < 0xFC then 5
  else if b < 0xFE then 6
  else if b < 0xFF then 7
  else 8

/-- `prefix_width`: the width a first byte announces. -/
def markerWidth (first : UInt8) : Nat := leadingOnes first + 1

/-- `0xFF >> w` on a byte; the shift amount is taken modulo eight. -/
def lenMask (w : Nat) : UInt8 := 0xFF >>> UInt8.ofNat w

/-- `put_len`. -/
def putLen (v : Nat) : Bytes :=
  let w := widthOf v
  if w = 9 then 0xFF :: beBytes 8 v
  else (lenMarker w ||| (UInt8.ofNat (v >>> ((w - 1) * 8)) &&& lenMask w)) :: beBytes (w - 1) v

/-- `take_len`: the length and the bytes it took. -/
def takeLen : Bytes → Option (Nat × Nat)
  | [] => none
  | first :: rest =>
    let w := markerWidth first
    if rest.length + 1 < w then none
    else if w = 9 then some (beNat (rest.take 8), w)
    else
      let hi := (first &&& lenMask w).toNat
      let low := beNat (rest.take (w - 1))
      some (hi <<< (payloadBits w - (8 - w)) ||| low, w)

/-! ## Reading back what was written -/

theorem widthOf_spec {v : Nat} (h : v < 2 ^ 56) :
    1 ≤ widthOf v ∧ widthOf v ≤ 8 ∧ v < 2 ^ payloadBits (widthOf v) := by
  have hsome : ((List.range' 1 8).find? fun w => v < 2 ^ payloadBits w).isSome := by
    rw [List.find?_isSome]
    exact ⟨8, by decide, by simpa [payloadBits] using h⟩
  obtain ⟨w, hw⟩ := Option.isSome_iff_exists.mp hsome
  have hwidth : widthOf v = w := by
    rw [widthOf, if_neg (by omega), hw, Option.getD_some]
  have hmem := List.mem_of_find?_eq_some hw
  have hlt := List.find?_some hw
  rw [List.mem_range'_1] at hmem
  rw [hwidth]
  exact ⟨hmem.1, by omega, by simpa using hlt⟩

/-- A length below the capacity of width `w` needs no more. -/
theorem widthOf_le {v w : Nat} (h1 : 1 ≤ w) (hw : w ≤ 8) (hv : v < 2 ^ payloadBits w) :
    widthOf v ≤ w := by
  have hpow : 2 ^ payloadBits w ≤ 2 ^ 56 := by
    refine Nat.pow_le_pow_right (by omega) ?_
    unfold payloadBits
    omega
  have hlt : v < 2 ^ 56 := by omega
  by_contra hgt
  -- every width the search passed over is too small
  have hspec := widthOf_spec hlt
  cases hfind : (List.range' 1 8).find? (fun w => v < 2 ^ payloadBits w) with
  | none =>
    have hnone := List.find?_eq_none.mp hfind w (by rw [List.mem_range'_1]; omega)
    exact hnone (by simpa using hv)
  | some w' =>
    have hwidth : widthOf v = w' := by rw [widthOf, if_neg (by omega), hfind, Option.getD_some]
    obtain ⟨-, as, bs, heq, hnot⟩ := List.find?_eq_some_iff_append.mp hfind
    have hmem : w ∈ as := by
      have hw' : w ∈ List.range' 1 8 := by rw [List.mem_range'_1]; omega
      rw [heq, List.mem_append] at hw'
      rcases hw' with has | hbs
      · exact has
      · -- the list ascends, so what follows `w'` is larger
        have hsorted : (as ++ w' :: bs).Pairwise (· < ·) := by
          rw [← heq]
          exact List.pairwise_lt_range'
        have hge := (List.pairwise_append.mp hsorted).2.1
        rcases List.mem_cons.mp hbs with rfl | hbs
        · omega
        · have := (List.pairwise_cons.mp hge).1 w hbs
          omega
    have := hnot w hmem
    simp only [hv, decide_true, Bool.not_true, Bool.false_eq_true] at this

/-- The first byte of a width below eight keeps marker and value apart. -/
theorem first_byte {w hi : Nat} (h1 : 1 ≤ w) (hw : w ≤ 7) (hhi : hi < 2 ^ (8 - w)) :
    markerWidth (lenMarker w ||| (UInt8.ofNat hi &&& lenMask w)) = w ∧
    ((lenMarker w ||| (UInt8.ofNat hi &&& lenMask w)) &&& lenMask w).toNat = hi := by
  have hall : ∀ w < 8, 1 ≤ w → ∀ hi < 2 ^ (8 - w),
      markerWidth (lenMarker w ||| (UInt8.ofNat hi &&& lenMask w)) = w ∧
      ((lenMarker w ||| (UInt8.ofNat hi &&& lenMask w)) &&& lenMask w).toNat = hi := by
    decide +kernel
  exact hall w (by omega) h1 hi hhi

theorem length_putLen {v : Nat} (h : v < 2 ^ 56) : (putLen v).length = widthOf v := by
  have hspec := widthOf_spec h
  unfold putLen
  rw [if_neg (by omega)]
  simp only [List.length_cons, length_beBytes]
  omega

/-- The value bits of the first byte and the bytes behind it make up the length. -/
theorem high_low {v k : Nat} : v >>> (k * 8) <<< (k * 8) ||| v % 256 ^ k = v := by
  have hpow : (256 : Nat) ^ k = 2 ^ (k * 8) := by
    rw [Nat.mul_comm k 8, Nat.pow_mul]
  have hlt : v % 2 ^ (k * 8) < 2 ^ (k * 8) := Nat.mod_lt _ (Nat.pow_pos (by omega))
  rw [hpow, ← Nat.shiftLeft_add_eq_or_of_lt hlt, Nat.shiftLeft_eq, Nat.shiftRight_eq_div_pow]
  exact Nat.div_add_mod' v _

/-- What a length of width `w` looks like to the reader. -/
theorem takeLen_cons {first : UInt8} {bytes rest : Bytes} (h9 : markerWidth first ≠ 9)
    (hlen : bytes.length + 1 = markerWidth first) :
    takeLen (first :: bytes ++ rest) = some
      ((first &&& lenMask (markerWidth first)).toNat <<< ((markerWidth first - 1) * 8)
        ||| beNat bytes, markerWidth first) := by
  have hbits : payloadBits (markerWidth first) - (8 - markerWidth first)
      = (markerWidth first - 1) * 8 := by
    unfold payloadBits
    omega
  have htake : (bytes ++ rest).take (markerWidth first - 1) = bytes := by
    have hn : markerWidth first - 1 = bytes.length := by omega
    rw [hn, List.take_left]
  rw [List.cons_append, takeLen]
  dsimp only
  rw [if_neg (by rw [List.length_append]; omega), if_neg h9, hbits, htake]

/-- **A length below `2 ^ 49` is read back**, with the bytes it took. -/
theorem takeLen_putLen {n : Nat} (h : n < 2 ^ 49) (rest : Bytes) :
    takeLen (putLen n ++ rest) = some (n, (putLen n).length) := by
  have h56 : n < 2 ^ 56 := by omega
  obtain ⟨h1, -, hfit⟩ := widthOf_spec h56
  have hle : widthOf n ≤ 7 := widthOf_le (by omega) (by omega) (by simpa [payloadBits] using h)
  have hlen := length_putLen h56
  rw [hlen, putLen, if_neg (by omega)]
  generalize widthOf n = w at h1 hfit hle
  have hhi : n >>> ((w - 1) * 8) < 2 ^ (8 - w) := by
    rw [Nat.shiftRight_eq_div_pow, Nat.div_lt_iff_lt_mul (Nat.pow_pos (by omega)), ← Nat.pow_add,
      Nat.add_comm]
    exact hfit
  obtain ⟨hwidth, hval⟩ := first_byte h1 hle hhi
  rw [takeLen_cons (by omega) (by rw [length_beBytes]; omega), hwidth, hval, beNat_beBytes_mod,
    high_low]

/-- From `2 ^ 56` on a length takes its eight bytes behind a full marker. -/
theorem takeLen_putLen_wide {n : Nat} (hlo : 2 ^ 56 ≤ n) (hhi : n < 2 ^ 64) (rest : Bytes) :
    takeLen (putLen n ++ rest) = some (n, 9) := by
  have hwidth : widthOf n = 9 := if_pos hlo
  have hmarker : markerWidth 0xFF = 9 := by decide
  have hput : putLen n = 0xFF :: beBytes 8 n := by rw [putLen, if_pos hwidth]
  have htake : (beBytes 8 n ++ rest).take 8 = beBytes 8 n := List.take_left' (length_beBytes 8 n)
  have hlong : ¬ (beBytes 8 n ++ rest).length + 1 < markerWidth 0xFF := by
    rw [hmarker, List.length_append, length_beBytes]
    omega
  rw [hput, List.cons_append, takeLen]
  dsimp only
  rw [if_neg hlong, if_pos hmarker, htake, beNat_beBytes hhi, hmarker]

/-- From `2 ^ 49` to `2 ^ 56` the full mask leaves the marker in the length. -/
theorem takeLen_putLen_overflow {n : Nat} (hlo : 2 ^ 49 ≤ n) (hhi : n < 2 ^ 56) (rest : Bytes) :
    takeLen (putLen n ++ rest) = some (254 * 2 ^ 56 + n, 8) := by
  obtain ⟨h1, h8, hfit⟩ := widthOf_spec hhi
  have hw : widthOf n = 8 := by
    by_contra hne
    have hpow : 2 ^ payloadBits (widthOf n) ≤ 2 ^ 49 := by
      refine Nat.pow_le_pow_right (by omega) ?_
      unfold payloadBits
      omega
    omega
  have hzero : n >>> ((8 - 1) * 8) = 0 := by
    rw [Nat.shiftRight_eq_div_pow]
    exact Nat.div_eq_of_lt hhi
  have hfirst : lenMarker 8 ||| (UInt8.ofNat 0 &&& lenMask 8) = 0xFE := by decide
  have hmarker : markerWidth 0xFE = 8 := by decide
  have hmask : ((0xFE : UInt8) &&& lenMask 8).toNat = 254 := by decide
  rw [putLen, if_neg (by omega), hw, hzero, hfirst,
    takeLen_cons (by rw [hmarker]; omega) (by rw [hmarker, length_beBytes]), hmarker, hmask,
    beNat_beBytes hhi, ← Nat.shiftLeft_add_eq_or_of_lt hhi, Nat.shiftLeft_eq]

end Okm.Model
