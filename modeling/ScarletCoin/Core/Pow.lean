import ScarletCoin.Core.Crypto
import Mathlib.Data.Nat.Bitwise

/-!
# Proof of work

Compact targets, work and retargeting, from `core/pow.py`. Amounts of time are integers, since a
block may be older than the one before it.

A decoded target is below `2 ^ 255` (`bitsToTarget_lt`), and bits put together from an exponent and
a mantissa decode to the number they stand for (`bitsToTarget_of_parts`).
-/

set_option autoImplicit false

namespace ScarletCoin

open Toolkit

/-- Highest possible target. -/
def MAX_TARGET_LIMIT : Nat := 2 ^ 256 - 1

/-- Expand the compact representation of a target. -/
def bitsToTarget (bits : Nat) : Except PyError Nat := do
  raiseIf (0xFFFFFFFF < bits) (.value s!"compact target out of range: {hexBits bits}")
  raiseIf (bits &&& 0x00800000 ≠ 0) (.value "negative compact target")
  let exponent := bits >>> 24
  let mantissa := bits &&& 0x007FFFFF
  if mantissa = 0 then
    pure 0
  else if exponent ≤ 3 then
    pure (mantissa >>> (8 * (3 - exponent)))
  else do
    raiseIf (32 < exponent) (.value s!"compact target overflows 256 bits: {hexBits bits}")
    let target := mantissa <<< (8 * (exponent - 3))
    raiseIf (MAX_TARGET_LIMIT < target)
      (.value s!"compact target overflows 256 bits: {hexBits bits}")
    pure target

/-- Number of bytes of a positive number in big-endian form. -/
def byteLength (n : Nat) : Nat := (Nat.log2 n + 8) / 8

/-- Compress a target into its canonical compact representation: the number of bytes, with a zero
byte in front if the first bit is set, and the first three of them. -/
def targetToBits (target : Nat) : Nat :=
  if target = 0 then 0
  else
    let length := byteLength target
    let exponent := if target >>> (8 * length - 1) = 0 then length else length + 1
    let mantissa :=
      if exponent ≤ 3 then target <<< (8 * (3 - exponent)) else target >>> (8 * (exponent - 3))
    exponent <<< 24 ||| mantissa

/-- A block hash as a number. -/
def hashToInt (blockHash : Hash) : Nat := leNat blockHash.val

/-- Whether a block hash meets the target of `bits`, and the target the limit of the network. -/
def checkProofOfWork (blockHash : Hash) (bits powLimit : Nat) : Bool :=
  match bitsToTarget bits with
  | .error _ => false
  | .ok target => decide (target ≠ 0 ∧ target ≤ powLimit ∧ hashToInt blockHash ≤ target)

/-- Expected number of hashes needed to solve a block. -/
def blockWork (bits : Nat) : Except PyError Nat := do
  let target ← bitsToTarget bits
  if target = 0 then pure 0 else pure (2 ^ 256 / (target + 1))

/-- Compact target of the next retargeting period. -/
def nextBits (currentBits : Nat) (actualTimespan : Int)
    (targetTimespan powLimit maxAdjustmentFactor : Nat) : Except PyError Nat := do
  raiseIf (targetTimespan = 0) (.value "target timespan must be positive")
  let low := targetTimespan / maxAdjustmentFactor
  let high := targetTimespan * maxAdjustmentFactor
  let clamped := (min (max actualTimespan low) high).toNat
  let target ← bitsToTarget currentBits
  pure (targetToBits (min (target * clamped / targetTimespan) powLimit))

/-- Compact target that makes the observed hash rate hit the spacing. -/
def bitsFromWork (work elapsed : Int)
    (targetSpacing powLimit parentBits maxAdjustmentFactor : Nat) : Except PyError Nat :=
  if work ≤ 0 ∨ elapsed ≤ 0 then
    pure parentBits
  else do
    let target := (MAX_TARGET_LIMIT + 1) * elapsed.toNat / (work.toNat * targetSpacing)
    let parentTarget ← bitsToTarget parentBits
    let hardest := parentTarget / maxAdjustmentFactor
    pure (targetToBits (max (min target powLimit) hardest))

/-! ## Decoding succeeds -/

/-- A decoded target is below `2 ^ 255`. -/
theorem bitsToTarget_lt {bits target : Nat} (h : bitsToTarget bits = .ok target) :
    target < 2 ^ 255 := by
  unfold bitsToTarget at h
  obtain ⟨hbits, h₁⟩ := raiseIf_bind_eq_ok.mp h
  obtain ⟨-, h₂⟩ := raiseIf_bind_eq_ok.mp h₁
  have hmantissa : bits &&& 0x007FFFFF < 2 ^ 23 := by
    have hmod : bits &&& 0x007FFFFF = bits % 2 ^ 23 := Nat.and_two_pow_sub_one_eq_mod bits 23
    rw [hmod]
    exact Nat.mod_lt _ (by decide)
  dsimp only at h₂
  split at h₂
  · rw [← pure_eq_ok.mp h₂]
    decide
  split at h₂
  · rw [← pure_eq_ok.mp h₂, Nat.shiftRight_eq_div_pow]
    have hdiv := Nat.div_le_self (bits &&& 0x007FFFFF) (2 ^ (8 * (3 - bits >>> 24)))
    exact Nat.lt_of_le_of_lt hdiv (Nat.lt_trans hmantissa (by decide))
  · obtain ⟨hexp, h₃⟩ := raiseIf_bind_eq_ok.mp h₂
    obtain ⟨-, h₄⟩ := raiseIf_bind_eq_ok.mp h₃
    rw [← pure_eq_ok.mp h₄, Nat.shiftLeft_eq]
    have hpow : 2 ^ (8 * (bits >>> 24 - 3)) ≤ 2 ^ 232 :=
      Nat.pow_le_pow_right (by decide) (by omega)
    calc (bits &&& 0x007FFFFF) * 2 ^ (8 * (bits >>> 24 - 3))
        < 2 ^ 23 * 2 ^ (8 * (bits >>> 24 - 3)) :=
          Nat.mul_lt_mul_of_pos_right hmantissa (Nat.two_pow_pos _)
      _ ≤ 2 ^ 23 * 2 ^ 232 := Nat.mul_le_mul_left _ hpow
      _ = 2 ^ 255 := by decide

/-- The target of bits put together from a small exponent and a mantissa without the sign bit. -/
theorem bitsToTarget_of_parts {exponent mantissa : Nat} (hexp : exponent ≤ 32)
    (hmantissa : mantissa < 2 ^ 23) :
    bitsToTarget (exponent <<< 24 ||| mantissa) =
      .ok (if exponent ≤ 3 then mantissa >>> (8 * (3 - exponent))
        else mantissa <<< (8 * (exponent - 3))) := by
  have hsum : exponent <<< 24 ||| mantissa = exponent * 2 ^ 24 + mantissa := by
    rw [← Nat.shiftLeft_add_eq_or_of_lt (Nat.lt_trans hmantissa (by decide)), Nat.shiftLeft_eq]
  have hshift : (exponent * 2 ^ 24 + mantissa) >>> 24 = exponent := by
    rw [Nat.shiftRight_eq_div_pow]
    omega
  -- the sign bit is the highest of the mantissa, which has less than 23 bits here
  have hsign : (exponent * 2 ^ 24 + mantissa) &&& 0x00800000 = 0 := by
    have hbit : (exponent * 2 ^ 24 + mantissa).testBit 23 = false := by
      rw [Nat.testBit_eq_decide_div_mod_eq]
      have hzero : (exponent * 2 ^ 24 + mantissa) / 2 ^ 23 % 2 = 0 := by omega
      rw [hzero]
      rfl
    have hand := Nat.and_two_pow (exponent * 2 ^ 24 + mantissa) 23
    rw [hbit] at hand
    simpa using hand
  have hlow : (exponent * 2 ^ 24 + mantissa) &&& 0x007FFFFF = mantissa := by
    have hmod := Nat.and_two_pow_sub_one_eq_mod (exponent * 2 ^ 24 + mantissa) 23
    have hval : (exponent * 2 ^ 24 + mantissa) % 2 ^ 23 = mantissa := by omega
    exact hmod.trans hval
  rw [hsum]
  unfold bitsToTarget
  simp only [hshift, hsign, hlow]
  rw [raiseIf, if_neg (by omega), raiseIf, if_neg (by simp)]
  simp only [ok_bind]
  split
  · rename_i hzero
    rw [hzero, Nat.zero_shiftRight, Nat.zero_shiftLeft, ite_self]
    rfl
  split
  · rfl
  · -- at most 23 bits shifted by 232 stay within the limit
    have hpow : 2 ^ (8 * (exponent - 3)) ≤ 2 ^ 232 :=
      Nat.pow_le_pow_right (by decide) (by omega)
    have hfit : mantissa <<< (8 * (exponent - 3)) ≤ MAX_TARGET_LIMIT := by
      rw [Nat.shiftLeft_eq]
      calc mantissa * 2 ^ (8 * (exponent - 3)) ≤ 2 ^ 23 * 2 ^ 232 :=
            Nat.mul_le_mul (Nat.le_of_lt hmantissa) hpow
        _ ≤ MAX_TARGET_LIMIT := by decide
    rw [raiseIf, if_neg (by omega)]
    simp only [ok_bind]
    rw [raiseIf, if_neg (by omega)]
    rfl

theorem lt_two_pow_byteLength (n : Nat) : n < 2 ^ (8 * byteLength n) := by
  have hlog : n < 2 ^ (Nat.log2 n + 1) := Nat.lt_log2_self
  refine Nat.lt_of_lt_of_le hlog (Nat.pow_le_pow_right (by decide) ?_)
  unfold byteLength
  omega

end ScarletCoin
