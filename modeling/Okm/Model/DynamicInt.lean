import Okm.Model.Dynamic

/-!
# Stripped integers

An integer body drops the leading bytes that repeat its sign and the reader puts
them back. An unsigned number always comes back. A negative one does too, since
one sign byte is kept. A nonnegative signed number loses every zero byte, so when
the first byte left has its top bit set the reader extends it with ones
(`rereadInt_eq_iff`).
-/

namespace Okm.Model

open Lib

/-- Eight bytes are a run of `fill` and what `fillWidth` keeps. -/
theorem fillWidth_spec {fill : UInt8} {be : Bytes} (hlen : be.length = 8) :
    fillWidth fill be ≤ 7 ∧ be = List.replicate (fillWidth fill be) fill
      ++ be.drop (fillWidth fill be) ∧
    (fillWidth fill be < 7 → ∀ b ∈ (be.drop (fillWidth fill be)).head?, b ≠ fill) := by
  have hsplit : ∀ j, j ≤ 8 → (∀ k (hk : k < be.length), k < j → be[k] = fill) →
      be = List.replicate j fill ++ be.drop j := by
    intro j hj hall
    have htake : be.take j = List.replicate j fill := by
      rw [List.eq_replicate_iff]
      refine ⟨by rw [List.length_take]; omega, fun b hb => ?_⟩
      obtain ⟨k, hk, rfl⟩ := List.mem_iff_getElem.mp hb
      rw [List.length_take] at hk
      rw [List.getElem_take]
      exact hall k (by omega) (by omega)
    rw [← htake, List.take_append_drop]
  unfold fillWidth
  cases hfind : be.findIdx? (· ≠ fill) with
  | none =>
    rw [Option.getD_none]
    refine ⟨Nat.le_refl 7, hsplit 7 (by omega) fun k hk _ => ?_, fun h => absurd h (by omega)⟩
    have hnone := List.findIdx?_eq_none_iff.mp hfind be[k] (List.getElem_mem hk)
    simpa using hnone
  | some j =>
    rw [Option.getD_some]
    obtain ⟨hj, hne, hbefore⟩ := List.findIdx?_eq_some_iff_getElem.mp hfind
    refine ⟨by omega, hsplit j (by omega) fun k hk hkj => ?_, fun _ b hb => ?_⟩
    · simpa using hbefore k hkj
    · have hhead : (be.drop j).head? = some be[j] := by
        rw [List.head?_drop, List.getElem?_eq_getElem hj]
      rw [hhead] at hb
      obtain rfl := Option.some.inj hb
      simpa using hne

/-- **An unsigned body is read back.** -/
theorem readUInt_uintBody (v : UInt64) : readUInt (uintBody v) = some v := by
  obtain ⟨hle, hsplit, -⟩ := @fillWidth_spec 0x00 (beBytes 8 v.toNat) (length_beBytes 8 _)
  have hlen : (uintBody v).length = 8 - fillWidth 0x00 (beBytes 8 v.toNat) := by
    rw [uintBody, List.length_drop, length_beBytes]
  have hpad : 8 - (uintBody v).length = fillWidth 0x00 (beBytes 8 v.toNat) := by omega
  have hlt : v.toNat < 256 ^ 8 := v.toNat_lt
  rw [readUInt, if_neg (by omega), hpad, uintBody, ← hsplit, beNat_beBytes hlt,
    UInt64.ofNat_toNat]

theorem top_bit (b : UInt8) : b &&& 0x80 ≠ 0 ↔ 128 ≤ b.toNat := by
  have hall : ∀ n < 256, UInt8.ofNat n &&& 0x80 ≠ 0 ↔ 128 ≤ n := by decide +kernel
  have h := hall b.toNat b.toNat_lt
  rwa [UInt8.ofNat_toNat] at h

/-- What the reader makes of a stripped signed number. -/
def rereadInt (v : Int64) : Int64 :=
  match intBody v with
  | [] => v
  | first :: rest => signExtend first (first :: rest)

/-- The byte a nonnegative number starts with leaves the sign bit clear. -/
def SignKept (v : Int64) : Prop :=
  ∀ k, 1 ≤ k → k ≤ 7 → ¬ ((2 : Int) ^ (8 * k - 1) ≤ v.toInt ∧ v.toInt < (2 : Int) ^ (8 * k))

theorem lt_zero_iff (v : Int64) : v < 0 ↔ 2 ^ 63 ≤ v.toUInt64.toNat := by
  rw [Int64.lt_iff_toInt_lt]
  change v.toBitVec.toInt < 0 ↔ 2 ^ 63 ≤ v.toBitVec.toNat
  have hlt := v.toBitVec.isLt
  rw [BitVec.toInt_eq_toNat_cond]
  split
  · omega
  · omega

theorem toInt_of_nonneg {v : Int64} (h : ¬ v < 0) : v.toInt = v.toUInt64.toNat := by
  rw [lt_zero_iff] at h
  change v.toBitVec.toInt = (v.toBitVec.toNat : Int)
  change ¬ 2 ^ 63 ≤ v.toBitVec.toNat at h
  rw [BitVec.toInt_eq_toNat_cond, if_pos (by omega)]

/-- Eight bytes spell the number whose bits they are. -/
theorem toInt64_eq_iff {bs : Bytes} (hlen : bs.length = 8) (v : Int64) :
    (UInt64.ofNat (beNat bs)).toInt64 = v ↔ bs = beBytes 8 v.toUInt64.toNat := by
  have hlt : beNat bs < 256 ^ 8 := by
    rw [← hlen]
    exact beNat_lt bs
  have hnat : (UInt64.ofNat (beNat bs)).toNat = beNat bs := by
    rw [UInt64.toNat_ofNat']
    exact Nat.mod_eq_of_lt hlt
  refine ⟨fun h => ?_, fun h => ?_⟩
  · rw [← h, UInt64.toUInt64_toInt64, hnat]
    conv_lhs => rw [← beBytes_beNat bs, hlen]
  · have hv : v.toUInt64.toNat < 256 ^ 8 := v.toUInt64.toNat_lt
    rw [h, beNat_beBytes hv, UInt64.ofNat_toNat, Int64.toInt64_toUInt64]

/-- Reading `j` stripped bytes back gives the number exactly if they repeated
the top bit of the byte left in front. -/
theorem signExtend_eq_iff {v : Int64} {j : Nat} {fill first : UInt8} {rest : Bytes}
    (hbe : beBytes 8 v.toUInt64.toNat = List.replicate j fill ++ first :: rest) :
    signExtend first (first :: rest) = v ↔
      j = 0 ∨ fill = if first &&& 0x80 ≠ 0 then 0xFF else 0x00 := by
  have hlen := congrArg List.length hbe
  simp only [length_beBytes, List.length_append, List.length_replicate, List.length_cons] at hlen
  unfold signExtend
  dsimp only
  generalize (if first &&& 0x80 ≠ 0 then (0xFF : UInt8) else 0x00) = ext
  have hj : 8 - (first :: rest).length = j := by
    rw [List.length_cons]
    omega
  rw [hj, toInt64_eq_iff (by simp; omega), hbe, List.append_left_inj]
  cases j with
  | zero => simp
  | succ j =>
    rw [List.replicate_succ, List.replicate_succ, List.cons_eq_cons]
    refine ⟨fun h => Or.inr h.1.symm, fun h => ?_⟩
    rcases h with h | h
    · omega
    · rw [h]
      exact ⟨rfl, rfl⟩

theorem drop_ne_nil {be : Bytes} {j : Nat} (hlen : be.length = 8) (hj : j ≤ 7) :
    ∃ first rest, be.drop j = first :: rest ∧ rest.length = 7 - j := by
  cases hd : be.drop j with
  | nil =>
    have := congrArg List.length hd
    rw [List.length_drop, List.length_nil] at this
    omega
  | cons first rest =>
    refine ⟨first, rest, rfl, ?_⟩
    have := congrArg List.length hd
    rw [List.length_drop, List.length_cons] at this
    omega

theorem intBody_ne_nil (v : Int64) : intBody v ≠ [] := by
  have hlen := length_beBytes 8 v.toUInt64.toNat
  have hle := (@fillWidth_spec (if v < 0 then 0xFF else 0x00) _ hlen).1
  intro hnil
  have hdrop := List.drop_eq_nil_iff.mp hnil
  rw [hlen] at hdrop
  generalize fillWidth (if v < 0 then 0xFF else 0x00) (beBytes 8 v.toUInt64.toNat) = w
    at hle hdrop
  split at hdrop
  · omega
  · omega

/-- A negative number keeps a sign byte, or its full width. -/
theorem rereadInt_of_neg {v : Int64} (h : v < 0) : rereadInt v = v := by
  have hbig := (lt_zero_iff v).mp h
  have hlen := length_beBytes 8 v.toUInt64.toNat
  obtain ⟨hle, hsplit, -⟩ := @fillWidth_spec 0xFF _ hlen
  have hnat : beNat (beBytes 8 v.toUInt64.toNat) = v.toUInt64.toNat :=
    beNat_beBytes (by exact v.toUInt64.toNat_lt)
  unfold rereadInt intBody
  simp only [if_pos h]
  by_cases hpos : 0 < fillWidth 0xFF (beBytes 8 v.toUInt64.toNat)
  · rw [if_pos ⟨h, hpos⟩]
    obtain ⟨j, hj⟩ : ∃ j, fillWidth 0xFF (beBytes 8 v.toUInt64.toNat) = j + 1 :=
      ⟨fillWidth 0xFF (beBytes 8 v.toUInt64.toNat) - 1, by omega⟩
    rw [hj] at hsplit ⊢
    rw [Nat.add_sub_cancel]
    have hrun : beBytes 8 v.toUInt64.toNat = List.replicate j 0xFF
        ++ 0xFF :: (beBytes 8 v.toUInt64.toNat).drop (j + 1) := by
      conv_lhs => rw [hsplit, List.replicate_succ', List.append_assoc]
      rfl
    have hdrop : (beBytes 8 v.toUInt64.toNat).drop j
        = 0xFF :: (beBytes 8 v.toUInt64.toNat).drop (j + 1) := by
      conv_lhs => rw [hrun]
      exact List.drop_left' (List.length_replicate ..)
    rw [hdrop]
    exact (signExtend_eq_iff hrun).mpr (Or.inr (by decide))
  · have hzero : fillWidth 0xFF (beBytes 8 v.toUInt64.toNat) = 0 := by omega
    rw [if_neg (fun hc => hpos hc.2), hzero, List.drop_zero]
    obtain ⟨first, rest, hd, -⟩ := drop_ne_nil hlen (Nat.zero_le 7)
    rw [List.drop_zero] at hd
    rw [hd]
    exact (@signExtend_eq_iff v 0 0 first rest (by rw [hd]; rfl)).mpr (Or.inl rfl)

/-- The digits of a number with `k` digits and a top one below `128` leave no
room for a number of `k'` digits with its top bit set. -/
theorem top_digit_iff {n top low k : Nat} (hk : k ≤ 7) (hlow : low < 2 ^ (8 * k))
    (hn : top * 2 ^ (8 * k) + low = n) (htop : 0 < k → top ≠ 0) (hbyte : top < 256)
    (hsmall : n < 2 ^ 63) :
    top < 128 ↔ ∀ k', 1 ≤ k' → k' ≤ 7 → ¬ (2 ^ (8 * k' - 1) ≤ n ∧ n < 2 ^ (8 * k')) := by
  have h128 : 128 * 2 ^ (8 * k) = 2 ^ (8 * (k + 1) - 1) := by
    have hexp : 8 * (k + 1) - 1 = 8 * k + 7 := by omega
    rw [hexp, Nat.pow_add, Nat.mul_comm]
  have h256 : 256 * 2 ^ (8 * k) = 2 ^ (8 * (k + 1)) := by
    rw [Nat.mul_add, Nat.pow_add, Nat.mul_comm]
  refine ⟨fun hlt k' h1 h7 hk' => ?_, fun hall => ?_⟩
  · have hle : (top + 1) * 2 ^ (8 * k) ≤ 128 * 2 ^ (8 * k) := Nat.mul_le_mul_right _ (by omega)
    rw [Nat.succ_mul] at hle
    rcases Nat.lt_or_ge k k' with hlt' | hge
    · have hpow : 2 ^ (8 * (k + 1) - 1) ≤ 2 ^ (8 * k' - 1) :=
        Nat.pow_le_pow_right (by omega) (by omega)
      omega
    · -- `k'` digits are fewer than the number has
      have hpow : 2 ^ (8 * k') ≤ 2 ^ (8 * k) := Nat.pow_le_pow_right (by omega) (by omega)
      have hone : 1 * 2 ^ (8 * k) ≤ top * 2 ^ (8 * k) :=
        Nat.mul_le_mul_right _ (Nat.pos_of_ne_zero (htop (by omega)))
      omega
  · by_contra hge
    have hle : 128 * 2 ^ (8 * k) ≤ top * 2 ^ (8 * k) := Nat.mul_le_mul_right _ (by omega)
    have hlt : (top + 1) * 2 ^ (8 * k) ≤ 256 * 2 ^ (8 * k) := Nat.mul_le_mul_right _ (by omega)
    rw [Nat.succ_mul] at hlt
    have hk6 : k + 1 ≤ 7 := by
      by_contra hk7
      have hpow : 2 ^ (8 * (7 + 1) - 1) ≤ 2 ^ (8 * (k + 1) - 1) :=
        Nat.pow_le_pow_right (by omega) (by omega)
      omega
    exact hall (k + 1) (by omega) hk6 ⟨by omega, by omega⟩

/-- **Which signed numbers come back**: the negative ones, and a nonnegative one
whose first byte is not mistaken for a sign. -/
theorem rereadInt_eq_iff (v : Int64) : rereadInt v = v ↔ SignKept v := by
  by_cases h : v < 0
  · -- negative values keep their sign byte
    refine iff_of_true (rereadInt_of_neg h) fun k _ _ hk => ?_
    rw [Int64.lt_iff_toInt_lt] at h
    have hpow : (0 : Int) < 2 ^ (8 * k - 1) := Int.pow_pos (by omega)
    have hzero : (0 : Int64).toInt = 0 := rfl
    omega
  · -- others are cut to their significant bytes, the top bit of which is read as a sign
    have hlen := length_beBytes 8 v.toUInt64.toNat
    have hnat : beNat (beBytes 8 v.toUInt64.toNat) = v.toUInt64.toNat :=
      beNat_beBytes (by exact v.toUInt64.toNat_lt)
    have hsmall : v.toUInt64.toNat < 2 ^ 63 := by
      rw [lt_zero_iff] at h
      omega
    have hkept : SignKept v ↔ ∀ k', 1 ≤ k' → k' ≤ 7 →
        ¬ (2 ^ (8 * k' - 1) ≤ v.toUInt64.toNat ∧ v.toUInt64.toNat < 2 ^ (8 * k')) := by
      unfold SignKept
      rw [toInt_of_nonneg h]
      norm_cast
    obtain ⟨hle, hsplit, hhead⟩ := @fillWidth_spec 0x00 _ hlen
    obtain ⟨first, rest, hd, hrest⟩ := drop_ne_nil hlen hle
    unfold rereadInt intBody
    simp only [if_neg h, if_neg (fun hc : v < 0 ∧ _ => h hc.1)]
    rw [hd] at hsplit hhead ⊢
    dsimp only
    rw [signExtend_eq_iff hsplit, hkept]
    rw [hsplit, beNat_replicate_zero, beNat_cons, hrest] at hnat
    have hpow : (256 : Nat) ^ (7 - fillWidth 0 (beBytes 8 v.toUInt64.toNat))
        = 2 ^ (8 * (7 - fillWidth 0 (beBytes 8 v.toUInt64.toNat))) := by
      rw [Nat.pow_mul]
    have hlow := beNat_lt rest
    rw [hrest, hpow] at hlow
    rw [hpow] at hnat
    have hne : 0 < 7 - fillWidth 0 (beBytes 8 v.toUInt64.toNat) → first.toNat ≠ 0 := by
      intro hpos hzero
      exact hhead (by omega) first rfl (UInt8.toNat_inj.mp hzero)
    rw [← top_digit_iff (by omega) hlow hnat hne first.toNat_lt hsmall]
    by_cases htop : first &&& 0x80 ≠ 0
    · have hge := (top_bit first).mp htop
      rw [if_pos htop]
      refine iff_of_false (fun hor => ?_) (by omega)
      rcases hor with hzero | hff
      · rw [hzero] at hnat
        have : 128 * 2 ^ (8 * (7 - 0)) ≤ first.toNat * 2 ^ (8 * (7 - 0)) :=
          Nat.mul_le_mul_right _ hge
        omega
      · exact absurd hff (by decide)
    · rw [if_neg htop]
      rw [top_bit] at htop
      exact iff_of_true (Or.inr rfl) (by omega)

end Okm.Model
