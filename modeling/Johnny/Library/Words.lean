import Mathlib.Data.BitVec
import Mathlib.Tactic.Ring

namespace Johnny
namespace Library

/-!
# Bits of signed machine words

Facts about two's complement words that C code meets when it treats a signed
integer as a set of bits: what the signed remainder by two says about the
lowest bit, and which bits a widened one-bit mask really has.
-/

variable {w : Nat}

theorem toInt_two (large : 2 < w) : (2#w).toInt = 2 := by
  have small : 2 < 2 ^ (w - 1) := by
    calc 2 < 2 ^ 2 := by decide
      _ ≤ 2 ^ (w - 1) := Nat.pow_le_pow_right (by decide) (by omega)
  have split : 2 ^ w = 2 * 2 ^ (w - 1) := by
    rw [← Nat.pow_succ', Nat.succ_eq_add_one, Nat.sub_add_cancel (by omega)]
  rw [BitVec.toInt_eq_toNat_cond, BitVec.toNat_ofNat, Nat.mod_eq_of_lt (by omega),
    if_pos (by omega)]
  rfl

theorem toInt_one (large : 2 < w) : (1#w).toInt = 1 := by
  rw [BitVec.toInt_one]
  omega

/-- The signed remainder by two is one only for odd words that are not
negative; an odd negative word leaves minus one. -/
theorem srem_two_eq_one_iff (large : 2 < w) (word : BitVec w) :
    word.srem 2#w = 1#w <-> word.msb = false ∧ word.getLsbD 0 = true := by
  rw [← BitVec.toInt_inj, BitVec.toInt_srem, toInt_two large, toInt_one large]
  have lowest : word.getLsbD 0 = decide (word.toNat % 2 = 1) := by
    rw [BitVec.getLsbD, Nat.testBit_zero]
  rw [lowest, decide_eq_true_eq, BitVec.toInt_eq_msb_cond]
  cases sign : word.msb with
  | false =>
      simp only [Bool.false_eq_true, if_false, true_and]
      rw [Int.tmod_eq_emod_of_nonneg (Int.natCast_nonneg _)]
      omega
  | true =>
      simp only [if_true, Bool.true_eq_false, false_and, iff_false]
      have bound : (word.toNat : Int) < ((2 ^ w : Nat) : Int) := Int.ofNat_lt.mpr word.isLt
      have opposite := Int.neg_tmod (((2 ^ w : Nat) : Int) - word.toNat) 2
      rw [Int.neg_sub] at opposite
      have nonneg := Int.tmod_nonneg (a := ((2 ^ w : Nat) : Int) - word.toNat) 2 (by omega)
      omega

/-- Shifting a word that is not negative moves every bit down by one. -/
theorem getLsbD_sshiftRight_one {word : BitVec w} (sign : word.msb = false) (i : Nat) :
    (word.sshiftRight 1).getLsbD i = word.getLsbD (i + 1) := by
  rw [BitVec.sshiftRight_eq_of_msb_false sign, BitVec.getLsbD_ushiftRight, Nat.add_comm]

theorem msb_eq_false_of_getLsbD {word : BitVec w} (clear : word.getLsbD (w - 1) = false) :
    word.msb = false := by
  rw [BitVec.msb_eq_getLsbD_last, clear]

/-- A one-bit mask of `n` bits, widened to `w` bits.  The sign bit of the
narrow mask fills the whole upper part of the wide one. -/
theorem getLsbD_signExtend_one_shiftLeft {n k : Nat} (inside : k < n) (i : Nat) :
    ((1#n <<< k).signExtend w).getLsbD i =
      (decide (i < w) && decide (i = k ∨ (k = n - 1 ∧ n ≤ i))) := by
  have bit : forall j, (1#n <<< k).getLsbD j = decide (j < n ∧ j = k) := by
    intro j
    rw [BitVec.getLsbD_shiftLeft, BitVec.getLsbD_one]
    apply Bool.eq_iff_iff.mpr
    simp only [Bool.and_eq_true, decide_eq_true_eq, Bool.not_eq_true', decide_eq_false_iff_not]
    omega
  rw [BitVec.getLsbD_signExtend, BitVec.msb_eq_getLsbD_last, bit, bit]
  congr 1
  by_cases low : i < n
  · rw [if_pos low]
    apply decide_eq_decide.mpr
    omega
  · rw [if_neg low]
    apply decide_eq_decide.mpr
    omega

end Library
end Johnny
