import Mathlib.Data.Nat.ModEq
import Mathlib.Data.ZMod.Basic
import Mathlib.FieldTheory.Finite.Basic

namespace Johnny
namespace Library

/-!
# Strong probable primes

Modulo a prime the only square roots of one are one and its negative.  So in the
sequence of squares that leads from a power of a base to one, the first one comes
after a negative one, or the sequence begins with one.
-/

/-- In a domain the squares reach one over a negative one. -/
theorem one_or_neg_one {R : Type} [CommRing R] [IsDomain R] {x : R} {s : Nat}
    (one : x ^ 2 ^ s = 1) : x = 1 ∨ Exists fun i => i < s ∧ x ^ 2 ^ i = -1 := by
  induction s with
  | zero =>
      left
      simpa using one
  | succ s ih =>
      rw [Nat.pow_succ, pow_mul] at one
      rcases sq_eq_one_iff.mp one with earlier | negative
      · rcases ih earlier with start | ⟨i, less, reached⟩
        · exact Or.inl start
        · exact Or.inr ⟨i, Nat.lt_succ_of_lt less, reached⟩
      · exact Or.inr ⟨s, Nat.lt_succ_self s, negative⟩

/-- Modulo `n` the powers of a base to `d`, `2 * d`, `4 * d` and so on behave as
modulo a prime, where `n - 1` is `2 ^ s * d`. -/
def Behaves (n base s d : Nat) : Prop :=
  base ^ d % n = 1 ∨ Exists fun i => i < s ∧ base ^ (d * 2 ^ i) % n = n - 1

/-- A strong probable prime to some base. -/
def StrongProbablePrime (n base : Nat) : Prop :=
  Exists fun s => Exists fun d => n - 1 = 2 ^ s * d ∧ d % 2 = 1 ∧ Behaves n base s d

/-- The odd part of a number and the power of two before it are known. -/
theorem oddPart_unique {s d t e : Nat} (same : 2 ^ s * d = 2 ^ t * e) (first : d % 2 = 1)
    (second : e % 2 = 1) : s = t ∧ d = e := by
  induction s generalizing t with
  | zero =>
      rcases t with - | t
      · rw [Nat.pow_zero, Nat.one_mul, Nat.one_mul] at same
        exact ⟨rfl, same⟩
      · rw [Nat.pow_zero, Nat.one_mul, Nat.pow_succ, Nat.mul_right_comm] at same
        omega
  | succ s ih =>
      rcases t with - | t
      · rw [Nat.pow_zero, Nat.one_mul, Nat.pow_succ, Nat.mul_right_comm] at same
        omega
      · rw [Nat.pow_succ, Nat.pow_succ, Nat.mul_right_comm, Nat.mul_right_comm (2 ^ t)] at same
        rcases ih (Nat.eq_of_mul_eq_mul_right (by decide) same) with ⟨rfl, rfl⟩
        exact ⟨rfl, rfl⟩

theorem strongProbablePrime_iff {n base s d : Nat} (parts : n - 1 = 2 ^ s * d) (odd : d % 2 = 1) :
    StrongProbablePrime n base <-> Behaves n base s d := by
  constructor
  · rintro ⟨t, e, other, oddOther, behaves⟩
    rcases oddPart_unique (other.symm.trans parts) oddOther odd with ⟨rfl, rfl⟩
    exact behaves
  · intro behaves
    exact ⟨s, d, parts, odd, behaves⟩

/-- A prime is a strong probable prime to every base that it does not divide. -/
theorem behaves_of_prime {n base s d : Nat} (prime : n.Prime) (apart : ¬ n ∣ base)
    (parts : n - 1 = 2 ^ s * d) : Behaves n base s d := by
  have field : Fact n.Prime := ⟨prime⟩
  have two := prime.two_le
  have nonzero : (base : ZMod n) ≠ 0 := by
    intro zero
    exact apart ((ZMod.natCast_eq_zero_iff base n).mp zero)
  have one : ((base : ZMod n) ^ d) ^ 2 ^ s = 1 := by
    rw [← pow_mul, Nat.mul_comm d, ← parts]
    exact ZMod.pow_card_sub_one_eq_one nonzero
  rcases one_or_neg_one one with start | ⟨i, less, negative⟩
  · left
    have same : ((base ^ d : Nat) : ZMod n) = ((1 : Nat) : ZMod n) := by
      push_cast
      exact start
    rw [ZMod.natCast_eq_natCast_iff'] at same
    rwa [Nat.mod_eq_of_lt (by omega : 1 < n)] at same
  · right
    refine ⟨i, less, ?_⟩
    have same : ((base ^ (d * 2 ^ i) : Nat) : ZMod n) = ((n - 1 : Nat) : ZMod n) := by
      rw [Nat.cast_sub (by omega)]
      push_cast
      rw [ZMod.natCast_self, zero_sub, pow_mul]
      exact negative
    rw [ZMod.natCast_eq_natCast_iff'] at same
    rwa [Nat.mod_eq_of_lt (by omega : n - 1 < n)] at same

end Library
end Johnny
