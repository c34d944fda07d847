import Mathlib.Algebra.Group.Nat.Defs
import Mathlib.Tactic.Common

/-!
# `Lib.Align` — masking a word to a power-of-two boundary

`x &&& ~~~(2 ^ k - 1)` clears the low `k` bits of `x`, `x &&& (2 ^ k - 1)` keeps only them. Read as
natural numbers the two are `x / 2 ^ k * 2 ^ k` and `x % 2 ^ k`; every address computation of a paged
system goes through these two facts.
-/

namespace Align

variable {w : Nat}

/-- The mask of the low `k` bits. -/
def lowMask (w k : Nat) : BitVec w := BitVec.ofNat w (2 ^ k - 1)

theorem lowMask_getLsbD {k i : Nat} (hi : i < w) : (lowMask w k).getLsbD i = decide (i < k) := by
  rw [lowMask, BitVec.getLsbD_ofNat, Nat.testBit_two_pow_sub_one]
  simp [hi]

/-- The usual way to write the mask. -/
theorem shiftLeft_sub_one {k : Nat} (hk : k < w) : 1#w <<< k - 1#w = lowMask w k := by
  have hpow : 2 ^ k < 2 ^ w := Nat.pow_lt_pow_right (by decide) hk
  have hone : (1#w).toNat = 1 := by
    rw [BitVec.toNat_ofNat, Nat.mod_eq_of_lt (Nat.one_lt_two_pow (by omega))]
  have hshift : (1#w <<< k).toNat = 2 ^ k := by
    rw [BitVec.toNat_shiftLeft, hone, Nat.shiftLeft_eq, Nat.one_mul, Nat.mod_eq_of_lt hpow]
  have hle : 1#w ≤ 1#w <<< k := by
    rw [BitVec.le_def, hone, hshift]
    exact Nat.one_le_two_pow
  apply BitVec.eq_of_toNat_eq
  rw [BitVec.toNat_sub_of_le hle, hshift, hone, lowMask, BitVec.toNat_ofNat, Nat.mod_eq_of_lt (by omega)]

/-- Keeping the low `k` bits is the remainder modulo `2 ^ k`. -/
theorem and_lowMask_toNat (x : BitVec w) (k : Nat) : (x &&& lowMask w k).toNat = x.toNat % 2 ^ k := by
  apply Nat.eq_of_testBit_eq
  intro i
  rw [Nat.testBit_mod_two_pow, BitVec.testBit_toNat, BitVec.testBit_toNat, BitVec.getLsbD_and]
  by_cases hi : i < w
  · rw [lowMask_getLsbD hi, Bool.and_comm]
  · simp [BitVec.getLsbD_of_ge x i (by omega)]

/-- Clearing the low `k` bits rounds down to a multiple of `2 ^ k`. -/
theorem and_not_lowMask_toNat (x : BitVec w) (k : Nat) :
    (x &&& ~~~(lowMask w k)).toNat = x.toNat / 2 ^ k * 2 ^ k := by
  apply Nat.eq_of_testBit_eq
  intro i
  rw [← Nat.shiftRight_eq_div_pow, ← Nat.shiftLeft_eq, Nat.testBit_shiftLeft, Nat.testBit_shiftRight,
    BitVec.testBit_toNat, BitVec.testBit_toNat, BitVec.getLsbD_and, BitVec.getLsbD_not]
  by_cases hi : i < w
  · rw [lowMask_getLsbD hi]
    by_cases hk : k ≤ i
    · have hadd : k + (i - k) = i := by omega
      simp [hi, hk, hadd]
    · simp [hi, hk, Nat.lt_of_not_le hk]
  · have hge : x.getLsbD (k + (i - k)) = false := BitVec.getLsbD_of_ge x _ (by omega)
    simp [hi, hge]

end Align
