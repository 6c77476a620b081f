import Okm.Model.FieldKinds

/-!
# Lengths in either build

`take_len` beside `put_len` in a build that checks shifts and in one that does not. Outside
width eight the two builds write and read the same; there a checked build aborts, and the
other reads a length no buffer has.
-/

namespace Okm.Model

open Lib

/-- `take_len` in either build; the option is the callers' `expect`. -/
def takeLenIn (checked : Bool) (b : Bytes) : Except Panic (Nat × Nat) :=
  match if checked then takeLenChecked b else some (takeLen b) with
  | some (some answer) => .ok answer
  | some none => .error .expect
  | none => .error .overflow

variable {checked : Bool}

theorem putLenIn_ok {n : Nat} {b : Bytes} (h : putLenIn checked n = .ok b) : b = putLen n := by
  unfold putLenIn at h
  split at h
  · cases h
  · exact (Except.ok.inj h).symm

theorem putLenIn_eq {n : Nat} (h8 : widthOf n ≠ 8) : putLenIn checked n = .ok (putLen n) := by
  have hok : ∃ b, putLenIn checked n = .ok b := putLenIn_eq_ok.mpr fun _ => h8
  obtain ⟨b, hb⟩ := hok
  rw [hb, putLenIn_ok hb]

/-- **A length outside width eight is read back in either build.** -/
theorem takeLenIn_putLen {n : Nat} (h : n < 2 ^ 64) (h8 : widthOf n ≠ 8) (rest : Bytes) :
    takeLenIn checked (putLen n ++ rest) = .ok (n, (putLen n).length) := by
  have hread := takeLen_putLen_width h h8 rest
  rw [length_putLen_width h]
  cases checked with
  | false =>
    unfold takeLenIn
    rw [if_neg (by decide), hread]
  | true =>
    unfold takeLenIn
    rw [if_pos rfl, takeLenChecked_putLen h h8, hread]

/-- What a checked build reads, the other one reads too. -/
theorem takeLen_of_in {b : Bytes} {answer : Nat × Nat} (h : takeLenIn checked b = .ok answer) :
    takeLen b = some answer := by
  have hsome : (if checked then takeLenChecked b else some (takeLen b)) = some (some answer) := by
    unfold takeLenIn at h
    split at h
    · rename_i heq
      rw [heq, Except.ok.inj h]
    · cases h
    · cases h
  cases checked with
  | false => exact Option.some.inj hsome
  | true =>
    rcases takeLenChecked_cases b with hsame | ⟨hnone, -⟩
    · exact Option.some.inj (hsame.symm.trans hsome)
    · rw [if_pos rfl, hnone] at hsome
      cases hsome

/-- A length of width eight is read as one far above it, which no buffer has. -/
theorem width_of_takeLen {n m took : Nat} {rest : Bytes} (hn : n < 2 ^ 64)
    (h : takeLen (putLen n ++ rest) = some (m, took)) (hm : m < 254 * 2 ^ 56 + n) :
    widthOf n ≠ 8 ∧ m = n ∧ took = (putLen n).length := by
  rw [length_putLen_width hn]
  by_cases h8 : widthOf n = 8
  · obtain ⟨hlo, hhi⟩ := widthOf_eq_eight.mp h8
    rw [takeLen_putLen_overflow hlo hhi] at h
    obtain ⟨rfl, -⟩ := Prod.mk.inj (Option.some.inj h)
    omega
  · rw [takeLen_putLen_width hn h8] at h
    obtain ⟨rfl, rfl⟩ := Prod.mk.inj (Option.some.inj h)
    exact ⟨h8, rfl, rfl⟩

/-! ## What a length is read from -/

/-- A length is read from the bytes it took, whatever stands behind them. -/
theorem takeLen_front {b : Bytes} {n took : Nat} (h : takeLen b = some (n, took)) :
    (1 ≤ took ∧ took ≤ b.length ∧ n < 2 ^ 64) ∧ ∀ rest, takeLen (b.take took ++ rest) = some (n, took) := by
  cases b with
  | nil => cases h
  | cons first tail =>
    have hone : 1 ≤ markerWidth first := Nat.le_add_left 1 _
    rw [takeLen] at h
    dsimp only at h
    split at h
    · cases h
    · rename_i hlong
      -- only the bytes of the announced width are looked at
      have htake : ∀ rest, ∀ k ≤ markerWidth first - 1,
          (tail.take (markerWidth first - 1) ++ rest).take k = tail.take k := by
        intro rest k hk
        rw [List.take_append_of_le_length (by rw [List.length_take]; omega), List.take_take,
          Nat.min_eq_left hk]
      have hfront : ∀ rest, (first :: tail).take (markerWidth first) ++ rest
          = first :: (tail.take (markerWidth first - 1) ++ rest) := by
        intro rest
        obtain ⟨w, hw⟩ : ∃ w, markerWidth first = w + 1 := ⟨markerWidth first - 1, by omega⟩
        rw [hw, List.take_succ_cons, Nat.add_sub_cancel, List.cons_append]
      have hshort : ∀ rest, ¬ (tail.take (markerWidth first - 1) ++ rest).length + 1
          < markerWidth first := by
        intro rest
        rw [List.length_append, List.length_take]
        omega
      split at h
      · rename_i h9
        obtain ⟨rfl, rfl⟩ := Prod.mk.inj (Option.some.inj h)
        have hlt := beNat_lt (tail.take 8)
        have hpow : 256 ^ (tail.take 8).length ≤ 256 ^ 8 :=
          Nat.pow_le_pow_right (by omega) (List.length_take_le 8 tail)
        refine ⟨⟨hone, by rw [List.length_cons]; omega, by omega⟩, fun rest => ?_⟩
        rw [hfront, takeLen]
        dsimp only
        rw [if_neg (hshort rest), if_pos h9, htake rest 8 (by omega)]
      · rename_i h9
        obtain ⟨rfl, rfl⟩ := Prod.mk.inj (Option.some.inj h)
        have hwidth : markerWidth first ≤ 8 := by
          have hall : ∀ i < 256, markerWidth (UInt8.ofNat i) ≤ 9 := by decide +kernel
          have hnine := hall first.toNat first.toNat_lt
          rw [UInt8.ofNat_toNat] at hnine
          omega
        have hbits : payloadBits (markerWidth first) - (8 - markerWidth first)
            = (markerWidth first - 1) * 8 := by
          unfold payloadBits
          omega
        refine ⟨⟨hone, by rw [List.length_cons]; omega, ?_⟩, fun rest => ?_⟩
        · rw [hbits]
          have hhigh : (first &&& lenMask (markerWidth first)).toNat
              <<< ((markerWidth first - 1) * 8) < 2 ^ 64 := by
            have hbyte : (first &&& lenMask (markerWidth first)).toNat < 2 ^ 8 := UInt8.toNat_lt _
            have hshift : 2 ^ ((markerWidth first - 1) * 8) ≤ 2 ^ 56 :=
              Nat.pow_le_pow_right (by omega) (by omega)
            rw [Nat.shiftLeft_eq]
            calc _ < 2 ^ 8 * 2 ^ ((markerWidth first - 1) * 8) :=
                  Nat.mul_lt_mul_of_pos_right hbyte (Nat.pow_pos (by omega))
              _ ≤ 2 ^ 8 * 2 ^ 56 := Nat.mul_le_mul_left _ hshift
              _ = 2 ^ 64 := by norm_num
          have hlow : beNat (tail.take (markerWidth first - 1)) < 2 ^ 64 := by
            have hlt := beNat_lt (tail.take (markerWidth first - 1))
            have hpow : 256 ^ (tail.take (markerWidth first - 1)).length ≤ 256 ^ 8 :=
              Nat.pow_le_pow_right (by omega) (by rw [List.length_take]; omega)
            omega
          exact Nat.or_lt_two_pow hhigh hlow
        · rw [hfront, takeLen]
          dsimp only
          rw [if_neg (hshort rest), if_neg h9, htake rest _ (le_refl _)]

/-- A checked build answers only where the first byte does not announce width eight. -/
theorem takeLenChecked_width {first : UInt8} {tail : Bytes} {answer : Nat × Nat}
    (h : takeLenChecked (first :: tail) = some (some answer)) : markerWidth first ≠ 8 := by
  intro h8
  rw [takeLenChecked] at h
  split at h
  · cases h
  · rw [if_neg (by omega), h8] at h
    cases h

/-- The same in either build. -/
theorem takeLenIn_front {b : Bytes} {n took : Nat} (h : takeLenIn checked b = .ok (n, took))
    (rest : Bytes) : takeLenIn checked (b.take took ++ rest) = .ok (n, took) := by
  obtain ⟨⟨hone, -, -⟩, hfront⟩ := takeLen_front (takeLen_of_in h)
  have hread := hfront rest
  cases checked with
  | false =>
    unfold takeLenIn
    rw [if_neg (by decide), hread]
  | true =>
    have hchecked : takeLenChecked b = some (some (n, took)) := by
      unfold takeLenIn at h
      rw [if_pos rfl] at h
      split at h
      · rename_i heq
        rw [heq, Except.ok.inj h]
      · cases h
      · cases h
    cases b with
    | nil => cases hchecked
    | cons first tail =>
      obtain ⟨k, rfl⟩ : ∃ k, took = k + 1 := ⟨took - 1, by omega⟩
      rw [List.take_succ_cons, List.cons_append] at hread ⊢
      unfold takeLenIn
      rw [if_pos rfl, takeLenChecked_cons (takeLenChecked_width hchecked), hread]

end Okm.Model
