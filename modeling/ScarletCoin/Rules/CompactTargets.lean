import ScarletCoin.Core.Pow
import Mathlib.Tactic.Common

/-!
# Rounding of compact targets

Encoding a target keeps its leading bytes, at most 23 bits of them. So decoding what was encoded
rounds the target down (`bitsToTarget_encode`), to a value that depends on the target monotonically
(`roundTarget_mono`), is encoded by the same bits (`targetToBits_roundTarget`) and keeps fifteen
bits of precision (`roundTarget_error`).
-/

set_option autoImplicit false

namespace ScarletCoin

open Toolkit

/-! ## The exponent -/

/-- The number of bytes of a target, with one more if the first bit of them is set. -/
def compactExponent (target : Nat) : Nat :=
  if target >>> (8 * byteLength target - 1) = 0 then byteLength target else byteLength target + 1

/-- The exponent is the least number of bytes that leaves the first bit clear. -/
theorem compactExponent_spec {t : Nat} (h : t ≠ 0) :
    1 ≤ compactExponent t ∧ t < 2 ^ (8 * compactExponent t - 1) ∧
      2 ^ (8 * (compactExponent t - 1) - 1) ≤ t := by
  have hbound := lt_two_pow_byteLength t
  have hlog : 2 ^ Nat.log2 t ≤ t := Nat.log2_self_le h
  have hpos : 1 ≤ byteLength t := by
    unfold byteLength
    omega
  have hbytes : 8 * (byteLength t - 1) ≤ Nat.log2 t := by
    unfold byteLength
    omega
  unfold compactExponent
  rw [Nat.shiftRight_eq_div_pow]
  split
  · rename_i htop
    rcases Nat.div_eq_zero_iff.mp htop with hpow | hlt
    · exact absurd hpow (Nat.two_pow_pos _).ne'
    · refine ⟨hpos, hlt, Nat.le_trans (Nat.pow_le_pow_right (by decide) ?_) hlog⟩
      omega
  · rename_i htop
    refine ⟨by omega, Nat.lt_of_lt_of_le hbound (Nat.pow_le_pow_right (by decide) (by omega)), ?_⟩
    rw [Nat.add_sub_cancel]
    exact Nat.not_lt.mp fun hlt => htop (Nat.div_eq_of_lt hlt)

theorem compactExponent_mono {t u : Nat} (ht : t ≠ 0) (h : t ≤ u) :
    compactExponent t ≤ compactExponent u := by
  obtain ⟨-, -, hlow⟩ := compactExponent_spec ht
  obtain ⟨-, hhigh, -⟩ := compactExponent_spec (t := u) (by omega)
  by_contra hlt
  have hpow : 2 ^ (8 * compactExponent u - 1) ≤ 2 ^ (8 * (compactExponent t - 1) - 1) :=
    Nat.pow_le_pow_right (by decide) (by omega)
  omega

/-- A target of 255 bits has an exponent of at most 32. -/
theorem compactExponent_le {t : Nat} (h : t < 2 ^ 255) : compactExponent t ≤ 32 := by
  by_cases hzero : t = 0
  · rw [hzero]
    decide
  · obtain ⟨-, -, hlow⟩ := compactExponent_spec hzero
    by_contra hlt
    have hpow : 2 ^ 255 ≤ 2 ^ (8 * (compactExponent t - 1) - 1) :=
      Nat.pow_le_pow_right (by decide) (by omega)
    omega

/-! ## The rounded target -/

/-- The target without the bits that its compact form drops. -/
def roundTarget (target : Nat) : Nat :=
  target / 2 ^ (8 * (compactExponent target - 3)) * 2 ^ (8 * (compactExponent target - 3))

theorem roundTarget_le (t : Nat) : roundTarget t ≤ t := Nat.div_mul_le_self t _

/-- A power of two below a target is below the rounded target, if the rounding keeps it. -/
theorem le_roundTarget {t k : Nat} (hk : 8 * (compactExponent t - 3) ≤ k) (h : 2 ^ k ≤ t) :
    2 ^ k ≤ roundTarget t := by
  have hdvd : 2 ^ (8 * (compactExponent t - 3)) ∣ 2 ^ k := Nat.pow_dvd_pow 2 hk
  unfold roundTarget
  calc 2 ^ k = 2 ^ k / 2 ^ (8 * (compactExponent t - 3)) * 2 ^ (8 * (compactExponent t - 3)) :=
        (Nat.div_mul_cancel hdvd).symm
    _ ≤ _ := Nat.mul_le_mul_right _ (Nat.div_le_div_right h)

theorem roundTarget_pos {t : Nat} (h : t ≠ 0) : 0 < roundTarget t := by
  obtain ⟨hpos, -, hlow⟩ := compactExponent_spec h
  exact Nat.lt_of_lt_of_le (Nat.two_pow_pos _) (le_roundTarget (by omega) hlow)

/-- Rounding is monotone. -/
theorem roundTarget_mono {t u : Nat} (h : t ≤ u) : roundTarget t ≤ roundTarget u := by
  by_cases hzero : t = 0
  · rw [hzero]
    exact Nat.zero_le _
  have hexp := compactExponent_mono hzero h
  rcases Nat.eq_or_lt_of_le hexp with heq | hlt
  · unfold roundTarget
    rw [heq]
    exact Nat.mul_le_mul_right _ (Nat.div_le_div_right h)
  · -- the larger exponent leaves room for the whole of the smaller target
    obtain ⟨-, hhigh, -⟩ := compactExponent_spec hzero
    obtain ⟨hpos, -, hlow⟩ := compactExponent_spec (t := u) (by omega)
    have hbound := le_roundTarget (by omega) hlow
    have hpow : 2 ^ (8 * compactExponent t - 1) ≤ 2 ^ (8 * (compactExponent u - 1) - 1) :=
      Nat.pow_le_pow_right (by decide) (by omega)
    have hle := roundTarget_le t
    omega

theorem compactExponent_roundTarget (t : Nat) :
    compactExponent (roundTarget t) = compactExponent t := by
  by_cases hzero : t = 0
  · rw [hzero]
    decide
  have hpos := roundTarget_pos hzero
  refine Nat.le_antisymm (compactExponent_mono hpos.ne' (roundTarget_le t)) ?_
  obtain ⟨-, hhigh, -⟩ := compactExponent_spec hpos.ne'
  obtain ⟨hone, -, hlow⟩ := compactExponent_spec hzero
  have hbound := le_roundTarget (by omega) hlow
  by_contra hlt
  have hpow : 2 ^ (8 * compactExponent (roundTarget t) - 1) ≤
      2 ^ (8 * (compactExponent t - 1) - 1) :=
    Nat.pow_le_pow_right (by decide) (by omega)
  omega

/-! ## Encoding -/

theorem targetToBits_eq {t : Nat} (h : t ≠ 0) :
    targetToBits t = compactExponent t <<< 24 |||
      (if compactExponent t ≤ 3 then t <<< (8 * (3 - compactExponent t))
        else t >>> (8 * (compactExponent t - 3))) := by
  unfold targetToBits
  rw [if_neg h]
  rfl

/-- A rounded target has the bits of the target. -/
theorem targetToBits_roundTarget (t : Nat) : targetToBits (roundTarget t) = targetToBits t := by
  by_cases hzero : t = 0
  · rw [hzero]
    decide
  have hpos := roundTarget_pos hzero
  rw [targetToBits_eq hpos.ne', targetToBits_eq hzero, compactExponent_roundTarget]
  by_cases hsmall : compactExponent t ≤ 3
  · have hsame : roundTarget t = t := by
      unfold roundTarget
      rw [Nat.sub_eq_zero_of_le hsmall]
      simp
    rw [hsame]
  · rw [if_neg hsmall, if_neg hsmall, Nat.shiftRight_eq_div_pow, Nat.shiftRight_eq_div_pow]
    unfold roundTarget
    rw [Nat.mul_div_cancel _ (Nat.two_pow_pos _)]

/-- Decoding the bits of a target rounds it. -/
theorem bitsToTarget_encode {t : Nat} (h : t < 2 ^ 255) :
    bitsToTarget (targetToBits t) = .ok (roundTarget t) := by
  by_cases hzero : t = 0
  · rw [hzero]
    rfl
  obtain ⟨hpos, hhigh, -⟩ := compactExponent_spec hzero
  rw [targetToBits_eq hzero]
  by_cases hsmall : compactExponent t ≤ 3
  · have hfit : t <<< (8 * (3 - compactExponent t)) < 2 ^ 23 := by
      rw [Nat.shiftLeft_eq]
      calc t * 2 ^ (8 * (3 - compactExponent t))
          < 2 ^ (8 * compactExponent t - 1) * 2 ^ (8 * (3 - compactExponent t)) :=
            Nat.mul_lt_mul_of_pos_right hhigh (Nat.two_pow_pos _)
        _ = 2 ^ (8 * compactExponent t - 1 + 8 * (3 - compactExponent t)) :=
          (Nat.pow_add _ _ _).symm
        _ ≤ 2 ^ 23 := Nat.pow_le_pow_right (by decide) (by omega)
    rw [if_pos hsmall, bitsToTarget_of_parts (compactExponent_le h) hfit, if_pos hsmall,
      Nat.shiftLeft_shiftRight]
    unfold roundTarget
    rw [Nat.sub_eq_zero_of_le hsmall]
    simp
  · have hfit : t >>> (8 * (compactExponent t - 3)) < 2 ^ 23 := by
      rw [Nat.shiftRight_eq_div_pow, Nat.div_lt_iff_lt_mul (Nat.two_pow_pos _), ← Nat.pow_add]
      exact Nat.lt_of_lt_of_le hhigh (Nat.pow_le_pow_right (by decide) (by omega))
    rw [if_neg hsmall, bitsToTarget_of_parts (compactExponent_le h) hfit, if_neg hsmall,
      Nat.shiftRight_eq_div_pow, Nat.shiftLeft_eq]
    rfl

/-! ## The error -/

/-- What rounding drops is less than one part in `2 ^ 15`: of the three bytes that are kept, the
first may be the zero that clears the sign, and the other two hold sixteen bits. -/
theorem roundTarget_error {t : Nat} (h : t ≠ 0) : (t - roundTarget t) * 2 ^ 15 < t := by
  obtain ⟨-, -, hlow⟩ := compactExponent_spec h
  have hdrop : t - roundTarget t = t % 2 ^ (8 * (compactExponent t - 3)) := by
    have hsplit := Nat.div_add_mod' t (2 ^ (8 * (compactExponent t - 3)))
    unfold roundTarget
    omega
  rw [hdrop]
  by_cases hsmall : compactExponent t ≤ 3
  · rw [Nat.sub_eq_zero_of_le hsmall, Nat.mul_zero, Nat.pow_zero, Nat.mod_one, Nat.zero_mul]
    exact Nat.pos_of_ne_zero h
  · calc t % 2 ^ (8 * (compactExponent t - 3)) * 2 ^ 15
        < 2 ^ (8 * (compactExponent t - 3)) * 2 ^ 15 :=
          Nat.mul_lt_mul_of_pos_right (Nat.mod_lt _ (Nat.two_pow_pos _)) (Nat.two_pow_pos _)
      _ = 2 ^ (8 * (compactExponent t - 3) + 15) := (Nat.pow_add _ _ _).symm
      _ ≤ 2 ^ (8 * (compactExponent t - 1) - 1) := Nat.pow_le_pow_right (by decide) (by omega)
      _ ≤ t := hlow

/-- Every target of at most 255 bits is encoded and decoded, to a target that is at most the first,
less than one part in `2 ^ 15` below it and encoded by the same bits; a larger target decodes to no
less. -/
theorem bitsToTarget_targetToBits_rounds {t : Nat} (hpos : 0 < t) (h : t < 2 ^ 255) :
    ∃ decoded, bitsToTarget (targetToBits t) = .ok decoded ∧ decoded ≤ t ∧
      (t - decoded) * 2 ^ 15 < t ∧ targetToBits decoded = targetToBits t ∧
      ∀ u, t ≤ u → u < 2 ^ 255 →
        ∃ decoded', bitsToTarget (targetToBits u) = .ok decoded' ∧ decoded ≤ decoded' :=
  ⟨roundTarget t, bitsToTarget_encode h, roundTarget_le t, roundTarget_error hpos.ne',
    targetToBits_roundTarget t,
    fun u htu hu => ⟨roundTarget u, bitsToTarget_encode hu, roundTarget_mono htu⟩⟩

/-- A target whose first bit would be taken for a sign. -/
theorem bitsToTarget_targetToBits_rounds_signed : targetToBits 0x80FFFF = 0x040080FF ∧
    ∃ decoded, bitsToTarget (targetToBits 0x80FFFF) = .ok decoded ∧
      (0x80FFFF - decoded) * 2 ^ 15 < 0x80FFFF := by
  obtain ⟨decoded, hdecoded, -, herror, -⟩ :=
    bitsToTarget_targetToBits_rounds (t := 0x80FFFF) (by decide) (by decide)
  exact ⟨by decide +kernel, decoded, hdecoded, herror⟩

end ScarletCoin
