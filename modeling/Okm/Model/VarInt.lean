import Okm.Model.Slot
import Okm.Model.VarLen

/-!
# The prefix-monotonic integer

The model of `wrappers/varint.rs`: `VarInt<u64>` writes the same bytes as `put_len`
and reads them as `take_len` does, so what is said of one is said of both.

The encoding is an order-preserving prefix code on all of `u64`: the first byte of a
width lies above every first byte of a smaller one (`head_lt`), and inside a width the
bytes are big endian. Reading is another matter. The mask of a first byte is
`0xFF >> w` on a byte, and width eight shifts it by all its bits: a checked build
aborts there and a release build keeps the marker in the value. `varint_correct` says
that this is the only width at which anything goes wrong.
-/

namespace Okm.Model

open Lib

/-- `VarInt::<u64>::encode`. -/
def varintEncode (v : Nat) : Bytes :=
  let w := widthOf v
  if w = 9 then 0xFF :: beBytes 8 v
  else
    let low := v &&& (1 <<< ((w - 1) * 8) - 1)
    (lenMarker w ||| (UInt8.ofNat (v >>> ((w - 1) * 8)) &&& lenMask w))
      :: (beBytes 8 low).drop (8 - (w - 1))

/-- `VarInt::<u64>::varint_decode`, with the width it took; `none` is an assertion
that fails. -/
def varintDecode : Bytes → Option (Nat × Nat)
  | [] => none
  | first :: rest =>
    let w := markerWidth first
    if rest.length + 1 < w then none
    else if w = 9 then some (beNat (rest.take 8), w)
    else
      let hi := (first &&& lenMask w).toNat
      let low := beNat (rest.take (w - 1))
      some (hi <<< (payloadBits w - (8 - w)) ||| low, w)

/-! ## The same with every shift checked -/

/-- `x >> n` on an integer of `bits` bits, as a checked build evaluates it. -/
def shrChecked (bits x n : Nat) : Option Nat := if n < bits then some (x >>> n) else none

/-- `x << n` on an integer of `bits` bits, as a checked build evaluates it. -/
def shlChecked (bits x n : Nat) : Option Nat :=
  if n < bits then some (x <<< n % 2 ^ bits) else none

/-- `put_len` in a checked build; `none` is an abort. -/
def putLenChecked (v : Nat) : Option Bytes :=
  let w := widthOf v
  if w = 9 then some (0xFF :: beBytes 8 v)
  else do
    let ones ← shrChecked 16 0xFFFF (w - 1)
    let hi ← shrChecked 64 v ((w - 1) * 8)
    let mask ← shrChecked 8 0xFF w
    let bound ← shlChecked 64 1 ((w - 1) * 8)
    some ((UInt8.ofNat ((0xFFFF - ones) >>> 8) ||| (UInt8.ofNat hi &&& UInt8.ofNat mask))
      :: (beBytes 8 (v &&& (bound - 1))).drop (8 - (w - 1)))

/-- `take_len` in a checked build: the outer `none` is an abort. -/
def takeLenChecked : Bytes → Option (Option (Nat × Nat))
  | [] => some none
  | first :: rest =>
    let w := markerWidth first
    if rest.length + 1 < w then some none
    else if w = 9 then some (some (beNat (rest.take 8), w))
    else do
      let mask ← shrChecked 8 0xFF w
      let hi ← shlChecked 64 (first &&& UInt8.ofNat mask).toNat (payloadBits w - (8 - w))
      some (some (hi ||| beNat (rest.take (w - 1)), w))

/-! ## Widths -/

theorem widthOf_bounds {v : Nat} (h : v < 2 ^ 64) :
    1 ≤ widthOf v ∧ widthOf v ≤ 9 ∧ v < 2 ^ payloadBits (widthOf v) := by
  rcases Nat.lt_or_ge v (2 ^ 56) with hlt | hge
  · obtain ⟨h1, h8, hfit⟩ := widthOf_spec hlt
    exact ⟨h1, by omega, hfit⟩
  · have hw : widthOf v = 9 := by rw [widthOf, if_pos hge]
    rw [hw]
    exact ⟨by omega, le_refl _, h⟩

/-- A larger value is never narrower. -/
theorem widthOf_mono {v w : Nat} (hw : w < 2 ^ 64) (h : v ≤ w) : widthOf v ≤ widthOf w := by
  have hbounds := widthOf_bounds hw
  rcases Nat.lt_or_ge w (2 ^ 56) with hlt | hge
  · obtain ⟨h1, h8, hfit⟩ := widthOf_spec hlt
    exact widthOf_le h1 h8 (by omega)
  · have h9 : widthOf w = 9 := by rw [widthOf, if_pos hge]
    have hv := widthOf_bounds (v := v) (by omega)
    omega

/-- Width eight is where the values from `2 ^ 49` to `2 ^ 56` live. -/
theorem widthOf_eq_eight {v : Nat} : widthOf v = 8 ↔ 2 ^ 49 ≤ v ∧ v < 2 ^ 56 := by
  constructor
  · intro h
    have hhi : v < 2 ^ 56 := by
      by_contra hge
      rw [widthOf, if_pos (by omega)] at h
      omega
    refine ⟨?_, hhi⟩
    by_contra hlt
    have h7 := widthOf_le (v := v) (w := 7) (by omega) (by omega) (by
      change v < 2 ^ 49
      omega)
    omega
  · rintro ⟨hlo, hhi⟩
    obtain ⟨h1, h8, hfit⟩ := widthOf_spec hhi
    by_contra hne
    have hpow : 2 ^ payloadBits (widthOf v) ≤ 2 ^ 49 := by
      refine Nat.pow_le_pow_right (by omega) ?_
      unfold payloadBits
      omega
    omega

/-! ## What is written -/

/-- The first byte of width `w` over the high bits `hi`. -/
def headOf (w hi : Nat) : Nat := 256 - 2 ^ (9 - w) + hi

theorem firstByte_eq {w hi : Nat} (h1 : 1 ≤ w) (h8 : w ≤ 8) (hhi : hi < 2 ^ (8 - w)) :
    lenMarker w ||| (UInt8.ofNat hi &&& lenMask w) = UInt8.ofNat (headOf w hi) := by
  have hall : ∀ w < 9, 1 ≤ w → ∀ hi < 2 ^ (8 - w),
      lenMarker w ||| (UInt8.ofNat hi &&& lenMask w) = UInt8.ofNat (headOf w hi) := by
    decide +kernel
  exact hall w (by omega) h1 hi hhi

/-- The high bits a first byte has to carry. -/
theorem high_lt {v : Nat} (h : v < 2 ^ 64) : v / 256 ^ (widthOf v - 1) < 2 ^ (8 - widthOf v) := by
  obtain ⟨h1, h9, hfit⟩ := widthOf_bounds h
  have hpow : (256 : Nat) ^ (widthOf v - 1) = 2 ^ ((widthOf v - 1) * 8) := by
    rw [Nat.mul_comm, Nat.pow_mul]
  rw [hpow, Nat.div_lt_iff_lt_mul (Nat.pow_pos (by omega)), ← Nat.pow_add, Nat.add_comm]
  exact hfit

/-- **Every value is its first byte over big-endian bytes.** -/
theorem putLen_eq {v : Nat} (h : v < 2 ^ 64) :
    putLen v = UInt8.ofNat (headOf (widthOf v) (v / 256 ^ (widthOf v - 1)))
      :: beBytes (widthOf v - 1) v := by
  obtain ⟨h1, h9, hfit⟩ := widthOf_bounds h
  have hhigh := high_lt h
  unfold putLen
  by_cases hw : widthOf v = 9
  · have hzero : v / 256 ^ (9 - 1) = 0 := Nat.div_eq_of_lt h
    rw [hw, if_pos rfl, hzero]
    rfl
  · have hshift : v >>> ((widthOf v - 1) * 8) = v / 256 ^ (widthOf v - 1) := by
      rw [Nat.shiftRight_eq_div_pow, Nat.mul_comm, Nat.pow_mul]
    dsimp only
    rw [if_neg hw, hshift, firstByte_eq h1 (by omega) hhigh]

/-- Every encoding is as long as its width. -/
theorem length_putLen_width {v : Nat} (h : v < 2 ^ 64) : (putLen v).length = widthOf v := by
  obtain ⟨h1, -, -⟩ := widthOf_bounds h
  rw [putLen_eq h, List.length_cons, length_beBytes]
  omega

/-- The low bytes of a value are those of its remainder. -/
theorem beBytes_mod (w n : Nat) : beBytes w (n % 256 ^ w) = beBytes w n := by
  have hback := beBytes_beNat (beBytes w n)
  rwa [length_beBytes, beNat_beBytes_mod] at hback

/-- The low bytes of a value, cut off its eight. -/
theorem drop_beBytes {k n : Nat} (hk : k ≤ 8) :
    (beBytes 8 (n &&& (1 <<< (k * 8) - 1))).drop (8 - k) = beBytes k n := by
  have hmask : n &&& (1 <<< (k * 8) - 1) = n % 256 ^ k := by
    rw [Nat.shiftLeft_eq, Nat.one_mul, Nat.and_two_pow_sub_one_eq_mod, Nat.mul_comm k 8,
      Nat.pow_mul]
  have hsplit : beBytes 8 (n % 256 ^ k)
      = beBytes (8 - k) (n % 256 ^ k / 256 ^ k) ++ beBytes k (n % 256 ^ k) := by
    rw [← beBytes_add, Nat.sub_add_cancel hk]
  have hlen : (beBytes (8 - k) (n % 256 ^ k / 256 ^ k)).length = 8 - k := length_beBytes _ _
  rw [hmask, hsplit, List.drop_append_of_le_length (by omega), List.drop_of_length_le (by omega),
    List.nil_append, beBytes_mod]

/-- **The two encoders write the same bytes.** -/
theorem varintEncode_eq {v : Nat} (h : v < 2 ^ 64) : varintEncode v = putLen v := by
  obtain ⟨h1, h9, -⟩ := widthOf_bounds h
  unfold varintEncode putLen
  by_cases hw : widthOf v = 9
  · dsimp only
    rw [if_pos hw, if_pos hw]
  · dsimp only
    rw [if_neg hw, if_neg hw, drop_beBytes (by omega)]

/-- The two decoders are one function. -/
theorem varintDecode_eq (b : Bytes) : varintDecode b = takeLen b := by
  cases b <;> rfl

/-! ## Order -/

/-- **A first byte of a wider class lies above every one of a narrower.** -/
theorem head_lt {w w' hi : Nat} (hi' : Nat) (h1 : 1 ≤ w) (hw : w < w') (h9 : w' ≤ 9)
    (hhi : hi < 2 ^ (8 - w)) : headOf w hi < headOf w' hi' := by
  have hall : ∀ w < 10, ∀ w' < 10, 1 ≤ w → w < w' →
      256 - 2 ^ (9 - w) + 2 ^ (8 - w) ≤ 256 - 2 ^ (9 - w') := by decide
  have hle := hall w (by omega) w' (by omega) h1 hw
  unfold headOf
  omega

theorem headOf_lt_256 {w hi : Nat} (h1 : 1 ≤ w) (h9 : w ≤ 9) (hhi : hi < 2 ^ (8 - w)) :
    headOf w hi < 256 := by
  have hall : ∀ w < 10, 1 ≤ w → 256 - 2 ^ (9 - w) + 2 ^ (8 - w) ≤ 256 := by decide
  have hle := hall w (by omega) h1
  unfold headOf
  omega

theorem ofNat_lt_ofNat {a b : Nat} (hb : b < 256) (h : a < b) :
    UInt8.ofNat a < UInt8.ofNat b := by
  rw [UInt8.lt_iff_toNat_lt, UInt8.toNat_ofNat', UInt8.toNat_ofNat']
  omega

/-- **The encoding keeps the order.** -/
theorem putLen_lt {v w : Nat} (hw : w < 2 ^ 64) (h : v < w) : putLen v < putLen w := by
  have hv : v < 2 ^ 64 := by omega
  obtain ⟨h1, h9, -⟩ := widthOf_bounds hv
  obtain ⟨h1', h9', -⟩ := widthOf_bounds hw
  have hhigh := high_lt hv
  have hhigh' := high_lt hw
  have hbyte := headOf_lt_256 h1' h9' hhigh'
  rw [putLen_eq hv, putLen_eq hw, cons_lt_cons_iff]
  rcases Nat.lt_or_ge (widthOf v) (widthOf w) with hlt | hge
  · exact Or.inl (ofNat_lt_ofNat hbyte (head_lt _ h1 hlt h9' hhigh))
  · -- one width: the high bits decide, or else the bytes behind them
    have hsame : widthOf v = widthOf w := le_antisymm (widthOf_mono hw (by omega)) hge
    rw [hsame] at hhigh ⊢
    have hdiv : v / 256 ^ (widthOf w - 1) ≤ w / 256 ^ (widthOf w - 1) :=
      Nat.div_le_div_right (by omega)
    rcases Nat.lt_or_ge (v / 256 ^ (widthOf w - 1)) (w / 256 ^ (widthOf w - 1)) with hdlt | hdge
    · refine Or.inl (ofNat_lt_ofNat hbyte ?_)
      unfold headOf
      omega
    · have heq : v / 256 ^ (widthOf w - 1) = w / 256 ^ (widthOf w - 1) := by omega
      refine Or.inr ⟨by rw [heq], ?_⟩
      have hvsplit := Nat.div_add_mod v (256 ^ (widthOf w - 1))
      have hwsplit := Nat.div_add_mod w (256 ^ (widthOf w - 1))
      have hmod : v % 256 ^ (widthOf w - 1) < w % 256 ^ (widthOf w - 1) := by
        rw [heq] at hvsplit
        omega
      have hbound : w % 256 ^ (widthOf w - 1) < 256 ^ (widthOf w - 1) :=
        Nat.mod_lt _ (Nat.pow_pos (by omega))
      rw [← beBytes_mod _ v, ← beBytes_mod _ w]
      exact beBytes_lt hbound hmod

theorem putLen_lt_iff {v w : Nat} (hv : v < 2 ^ 64) (hw : w < 2 ^ 64) :
    putLen v < putLen w ↔ v < w := by
  constructor
  · intro h
    rcases lt_trichotomy v w with hlt | heq | hgt
    · exact hlt
    · rw [heq] at h
      exact absurd h (lt_irrefl _)
    · exact absurd (lt_trans h (putLen_lt hv hgt)) (lt_irrefl _)
  · exact putLen_lt hw

/-- **No encoding continues another.** -/
theorem eq_of_putLen_begins {v w : Nat} (hv : v < 2 ^ 64) (hw : w < 2 ^ 64)
    (h : putLen v <+: putLen w) : v = w := by
  obtain ⟨h1, h9, -⟩ := widthOf_bounds hv
  obtain ⟨h1', h9', -⟩ := widthOf_bounds hw
  have hhigh := high_lt hv
  have hhigh' := high_lt hw
  have hheads := h
  rw [putLen_eq hv, putLen_eq hw, List.cons_prefix_cons] at hheads
  have hheads := ofNat_inj_of_lt (headOf_lt_256 h1 h9 hhigh) (headOf_lt_256 h1' h9' hhigh')
    hheads.1
  have hwidth : widthOf v = widthOf w := by
    rcases lt_trichotomy (widthOf v) (widthOf w) with hlt | heq | hgt
    · have := head_lt (w / 256 ^ (widthOf w - 1)) h1 hlt h9' hhigh
      omega
    · exact heq
    · have := head_lt (v / 256 ^ (widthOf v - 1)) h1' hgt h9 hhigh'
      omega
  have heq : putLen v = putLen w :=
    h.eq_of_length (by rw [length_putLen_width hv, length_putLen_width hw, hwidth])
  rcases lt_trichotomy v w with hlt | hsame | hgt
  · exact absurd heq (ne_of_lt (putLen_lt hw hlt))
  · exact hsame
  · exact absurd heq.symm (ne_of_lt (putLen_lt hv hgt))

/-! ## What is read -/

/-- **Every value outside width eight is read back**, with its width. -/
theorem takeLen_putLen_width {v : Nat} (h : v < 2 ^ 64) (h8 : widthOf v ≠ 8) (rest : Bytes) :
    takeLen (putLen v ++ rest) = some (v, widthOf v) := by
  rcases Nat.lt_or_ge v (2 ^ 49) with hlt | hge
  · rw [takeLen_putLen hlt, length_putLen_width h]
  · have hwide : 2 ^ 56 ≤ v := by
      by_contra hnot
      exact h8 (widthOf_eq_eight.mpr ⟨hge, by omega⟩)
    have hw : widthOf v = 9 := by rw [widthOf, if_pos hwide]
    rw [takeLen_putLen_wide hwide h, hw]

/-! ## Where a checked build aborts -/

theorem putLenChecked_eq {v : Nat} (h : v < 2 ^ 64) :
    putLenChecked v = if widthOf v = 8 then none else some (putLen v) := by
  obtain ⟨h1, h9, hfit⟩ := widthOf_bounds h
  unfold putLenChecked
  by_cases hw9 : widthOf v = 9
  · have hput : putLen v = 0xFF :: beBytes 8 v := by
      unfold putLen
      rw [hw9]
      rfl
    dsimp only
    rw [if_pos hw9, if_neg (by omega), hput]
  · dsimp only
    rw [if_neg hw9]
    by_cases hw8 : widthOf v = 8
    · rw [if_pos hw8, hw8]
      rfl
    · have hones : shrChecked 16 0xFFFF (widthOf v - 1) = some (0xFFFF >>> (widthOf v - 1)) :=
        if_pos (by omega)
      have hhi : shrChecked 64 v ((widthOf v - 1) * 8) = some (v >>> ((widthOf v - 1) * 8)) :=
        if_pos (by omega)
      have hmask : shrChecked 8 0xFF (widthOf v) = some (0xFF >>> widthOf v) :=
        if_pos (by omega)
      have hpow : 1 <<< ((widthOf v - 1) * 8) % 2 ^ 64 = 1 <<< ((widthOf v - 1) * 8) := by
        rw [Nat.shiftLeft_eq, Nat.one_mul]
        exact Nat.mod_eq_of_lt (Nat.pow_lt_pow_right (by omega) (by omega))
      have hbound : shlChecked 64 1 ((widthOf v - 1) * 8)
          = some (1 <<< ((widthOf v - 1) * 8)) := by
        rw [shlChecked, if_pos (by omega), hpow]
      have hmarker : UInt8.ofNat ((0xFFFF - 0xFFFF >>> (widthOf v - 1)) >>> 8)
          = lenMarker (widthOf v) := by
        rw [lenMarker, if_neg (by omega)]
      have hbyte : UInt8.ofNat (0xFF >>> widthOf v) = lenMask (widthOf v) := by
        have hall : ∀ w < 8, UInt8.ofNat (0xFF >>> w) = lenMask w := by decide
        exact hall _ (by omega)
      have hput : putLen v = (lenMarker (widthOf v)
          ||| (UInt8.ofNat (v >>> ((widthOf v - 1) * 8)) &&& lenMask (widthOf v)))
          :: beBytes (widthOf v - 1) v := by
        unfold putLen
        exact if_neg hw9
      rw [if_neg hw8, hput, hones, hhi, hmask, hbound]
      simp only [Option.bind_eq_bind, Option.bind_some]
      rw [hmarker, hbyte, drop_beBytes (by omega)]

/-- Where a first byte does not announce width eight, a checked build reads what a
release build reads. -/
theorem takeLenChecked_cons {first : UInt8} (h8 : markerWidth first ≠ 8) (rest : Bytes) :
    takeLenChecked (first :: rest) = some (takeLen (first :: rest)) := by
  have hall : ∀ n < 256, markerWidth (UInt8.ofNat n) ≤ 9 ∧ 1 ≤ markerWidth (UInt8.ofNat n) := by
    decide +kernel
  have hself : UInt8.ofNat first.toNat = first := UInt8.ofNat_toNat
  obtain ⟨h9, h1⟩ := hall first.toNat first.toNat_lt
  rw [hself] at h9 h1
  unfold takeLenChecked takeLen
  dsimp only
  by_cases hshort : rest.length + 1 < markerWidth first
  · rw [if_pos hshort, if_pos hshort]
  rw [if_neg hshort, if_neg hshort]
  by_cases hw9 : markerWidth first = 9
  · rw [if_pos hw9, if_pos hw9]
  rw [if_neg hw9, if_neg hw9]
  have hmask : shrChecked 8 0xFF (markerWidth first) = some (0xFF >>> markerWidth first) :=
    if_pos (by omega)
  have hbyte : UInt8.ofNat (0xFF >>> markerWidth first) = lenMask (markerWidth first) := by
    have hall : ∀ w < 8, UInt8.ofNat (0xFF >>> w) = lenMask w := by decide
    exact hall _ (by omega)
  have hfit : (first &&& lenMask (markerWidth first)).toNat
      <<< (payloadBits (markerWidth first) - (8 - markerWidth first)) < 2 ^ 64 := by
    have hbits : payloadBits (markerWidth first) - (8 - markerWidth first) ≤ 48 := by
      unfold payloadBits
      omega
    have hlt : (first &&& lenMask (markerWidth first)).toNat < 2 ^ 8 := UInt8.toNat_lt _
    rw [Nat.shiftLeft_eq]
    calc _ < 2 ^ 8 * 2 ^ (payloadBits (markerWidth first) - (8 - markerWidth first)) :=
          Nat.mul_lt_mul_of_pos_right hlt (Nat.pow_pos (by omega))
      _ ≤ 2 ^ 8 * 2 ^ 48 :=
          Nat.mul_le_mul_left _ (Nat.pow_le_pow_right (by omega) hbits)
      _ < 2 ^ 64 := by omega
  have hshift : shlChecked 64 (first &&& lenMask (markerWidth first)).toNat
      (payloadBits (markerWidth first) - (8 - markerWidth first))
      = some ((first &&& lenMask (markerWidth first)).toNat
        <<< (payloadBits (markerWidth first) - (8 - markerWidth first))) := by
    rw [shlChecked, if_pos (by unfold payloadBits; omega), Nat.mod_eq_of_lt hfit]
  rw [hmask]
  simp only [Option.bind_eq_bind, Option.bind_some]
  rw [hbyte, hshift, Option.bind_some]

/-- Of the first bytes only one announces width eight. -/
theorem eq_of_markerWidth_eight {first : UInt8} (h : markerWidth first = 8) : first = 0xFE := by
  have hall : ∀ n < 256, markerWidth (UInt8.ofNat n) = 8 → UInt8.ofNat n = 0xFE := by
    decide +kernel
  have hself : UInt8.ofNat first.toNat = first := UInt8.ofNat_toNat
  have heq := hall first.toNat first.toNat_lt
  rw [hself] at heq
  exact heq h

/-- A length of width eight that is there in full. -/
def widthEight : Bytes → Bool
  | [] => false
  | first :: rest => decide (markerWidth first = 8 ∧ 7 ≤ rest.length)

/-- **A checked build aborts on width eight** and reads every other length as it is. -/
theorem takeLenChecked_eq (b : Bytes) :
    takeLenChecked b = if widthEight b = true then none else some (takeLen b) := by
  cases b with
  | nil => rfl
  | cons first rest =>
    by_cases h8 : markerWidth first = 8
    · by_cases hshort : rest.length + 1 < markerWidth first
      · have hnarrow : ¬ widthEight (first :: rest) = true := by
          rw [widthEight, decide_eq_true_eq]
          omega
        rw [if_neg hnarrow, takeLenChecked, takeLen]
        dsimp only
        rw [if_pos hshort, if_pos hshort]
      · have hwide : widthEight (first :: rest) = true := by
          rw [widthEight, decide_eq_true_eq]
          omega
        rw [if_pos hwide, takeLenChecked]
        rw [if_neg hshort, h8]
        rfl
    · have hnarrow : ¬ widthEight (first :: rest) = true := by
        rw [widthEight, decide_eq_true_eq]
        exact fun h => h8 h.1
      rw [takeLenChecked_cons h8, if_neg hnarrow]

/-- **A checked build reads the same length or aborts**, and where it aborts the other build
reads one that no buffer holds. -/
theorem takeLenChecked_cases (b : Bytes) : takeLenChecked b = some (takeLen b) ∨
    takeLenChecked b = none ∧ ∃ len, takeLen b = some (len, 8) ∧ 2 ^ 63 ≤ len := by
  rw [takeLenChecked_eq]
  cases b with
  | nil => exact Or.inl rfl
  | cons first rest =>
    by_cases hwide : widthEight (first :: rest) = true
    · right
      obtain ⟨h8, hlong⟩ := of_decide_eq_true hwide
      have hmask : ((0xFE : UInt8) &&& lenMask 8).toNat = 254 := by decide
      have hge : 254 * 2 ^ 56 ≤ 254 <<< 56 ||| beNat (rest.take 7) := by
        rw [← Nat.shiftLeft_eq]
        exact Nat.left_le_or
      refine ⟨if_pos hwide, 254 <<< 56 ||| beNat (rest.take 7), ?_, by omega⟩
      rw [takeLen]
      dsimp only
      rw [if_neg (by omega), h8, if_neg (by omega), eq_of_markerWidth_eight h8, hmask]
      rfl
    · exact Or.inl (if_neg hwide)

/-- Encodings of other widths never announce width eight. -/
theorem takeLenChecked_putLen {v : Nat} (h : v < 2 ^ 64) (h8 : widthOf v ≠ 8) (rest : Bytes) :
    takeLenChecked (putLen v ++ rest) = some (takeLen (putLen v ++ rest)) := by
  have hread := takeLen_putLen_width h h8 rest
  rw [putLen_eq h, List.cons_append] at hread ⊢
  refine takeLenChecked_cons ?_ _
  intro hm
  -- the reader reports the width the first byte announces
  rw [takeLen] at hread
  dsimp only at hread
  rw [hm] at hread
  split at hread
  · cases hread
  · rw [if_neg (by omega)] at hread
    have hw := congrArg Prod.snd (Option.some.inj hread)
    exact h8 hw.symm

/-! ## The whole contract -/

/-- The codec is right on `v`, next to any `w`. -/
structure VarIntCorrect (v w : UInt64) : Prop where
  /-- Both encoders write the same bytes, as many as the width. -/
  width : varintEncode v.toNat = putLen v.toNat ∧ (putLen v.toNat).length = widthOf v.toNat
  /-- Both decoders give value and width, whatever follows. -/
  reads : ∀ rest, varintDecode (varintEncode v.toNat ++ rest) = some (v.toNat, widthOf v.toNat)
    ∧ takeLen (putLen v.toNat ++ rest) = some (v.toNat, widthOf v.toNat)
  /-- No shift reaches the size of what it shifts. -/
  shifts : putLenChecked v.toNat = some (putLen v.toNat)
    ∧ ∀ rest, takeLenChecked (putLen v.toNat ++ rest) = some (takeLen (putLen v.toNat ++ rest))
  order : putLen v.toNat < putLen w.toNat ↔ v < w
  prefixFree : putLen v.toNat <+: putLen w.toNat → v = w

/-- **The codec is right exactly outside width eight.** -/
theorem varint_correct (v w : UInt64) :
    VarIntCorrect v w ↔ ¬ (2 ^ 49 ≤ v.toNat ∧ v.toNat < 2 ^ 56) := by
  have hv : v.toNat < 2 ^ 64 := v.toNat_lt
  have hw : w.toNat < 2 ^ 64 := w.toNat_lt
  rw [← widthOf_eq_eight]
  constructor
  · intro h h8
    have hchecked := putLenChecked_eq hv
    rw [if_pos h8, h.shifts.1] at hchecked
    cases hchecked
  · intro h8
    refine ⟨⟨varintEncode_eq hv, length_putLen_width hv⟩, ?_, ⟨?_, ?_⟩, ?_, ?_⟩
    · intro rest
      have hread := takeLen_putLen_width hv h8 rest
      rw [varintDecode_eq, varintEncode_eq hv]
      exact ⟨hread, hread⟩
    · rw [putLenChecked_eq hv, if_neg h8]
    · exact takeLenChecked_putLen hv h8
    · rw [putLen_lt_iff hv hw, UInt64.lt_iff_toNat_lt]
    · intro hpre
      exact UInt64.toNat_inj.mp (eq_of_putLen_begins hv hw hpre)

/-- The first value of width eight comes back with its marker, and a checked build
aborts on it. -/
theorem varint_marker_kept :
    takeLen (putLen (2 ^ 49)) = some (254 * 2 ^ 56 + 2 ^ 49, 8)
      ∧ putLenChecked (2 ^ 49) = none ∧ ¬ VarIntCorrect (2 ^ 49) 0 := by
  have hread := takeLen_putLen_overflow (n := 2 ^ 49) (by omega) (by omega) []
  rw [List.append_nil] at hread
  have habort : putLenChecked (2 ^ 49) = none := by
    rw [putLenChecked_eq (by omega), if_pos (widthOf_eq_eight.mpr ⟨le_refl _, by omega⟩)]
  refine ⟨hread, habort, ?_⟩
  intro h
  have hval : (2 ^ 49 : UInt64).toNat = 2 ^ 49 := by decide
  have hshift := h.shifts.1
  rw [hval, habort] at hshift
  cases hshift

end Okm.Model
