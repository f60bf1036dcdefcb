import Johnny.Library.Loop
import Johnny.Library.ProbablePrimes
import Mathlib.NumberTheory.Bertrand

namespace Johnny
namespace Hash

open Library

/-!
# The primality test

`chd_ph_new` wants a prime number of bins.  It tries the odd numbers from twice
the number of keys on with `check_primality`, which tests for four small factors
and then for strong probable primes to the bases 2, 7 and 61.  Products are
computed in 64 bits; for numbers of 32 bits they fit.

The test turns down five primes: the four small factors, and 61, which divides
one of the bases.
-/

/-- The variables of `int_pow`. -/
structure Power where
  aPow : Nat
  res : Nat
  d : Nat

def intPowRound (n : Nat) (power : Power) : Option (Pass Power Nat) :=
  if power.d = 0 then some (.leave power.res)
  else some (.again ⟨power.aPow * power.aPow % 2 ^ 64 % n,
    if power.d % 2 = 1 then power.res * power.aPow % 2 ^ 64 % n else power.res, power.d / 2⟩)

/-- The exponent has at most 64 bits. -/
def intPow (a d n : Nat) : Option Nat := runLoop (intPowRound n) 65 ⟨a, 1, d⟩

/-- The state is `i` and `a_exp`. -/
def witnessRound (n s : Nat) (state : Nat × Nat) : Option (Pass (Nat × Nat) Bool) :=
  if state.1 < s then
    let aExp := state.2 * state.2 % 2 ^ 64 % n
    if aExp = n - 1 then some (.leave true) else some (.again (state.1 + 1, aExp))
  else some (.leave false)

def checkWitness (aExpD n s : Nat) : Option Bool :=
  if aExpD = 1 ∨ aExpD = n - 1 then some true else runLoop (witnessRound n s) (s + 1) (1, aExpD)

/-- The loop that takes the factors of two from `n - 1`; the state is `s` and
`d`.  It does not end for zero. -/
def splitRound (state : Nat × Nat) : Option (Pass (Nat × Nat) (Nat × Nat)) :=
  if state.2 / 2 % 2 = 0 then some (.again (state.1 + 1, state.2 / 2))
  else some (.leave (state.1 + 1, state.2 / 2))

def checkBase (n s d a : Nat) : Option Bool := do
  let aExpD <- intPow a d n
  checkWitness aExpD n s

def checkPrimality (n : Nat) : Option Bool :=
  if n % 2 = 0 then some false
  else if n % 3 = 0 then some false
  else if n % 5 = 0 then some false
  else if n % 7 = 0 then some false
  else do
    let split <- runLoop splitRound 64 (0, n - 1)
    let two <- checkBase n split.1 split.2 2
    if two = false then some false
    else
      let seven <- checkBase n split.1 split.2 7
      if seven = false then some false
      else checkBase n split.1 split.2 61

/-- The loop of `chd_ph_new` that looks for a prime. -/
def binsRound (n : Nat) : Option (Pass Nat Nat) := do
  let accepted <- checkPrimality n
  if accepted then some (.leave n) else some (.again (n + 2))

/-- The number of bins of `chd_ph_new` for a load factor of one half and one key
in a bin; there are enough rounds for all words. -/
def chdPhBins (m : Nat) : Option Nat :=
  let n := 2 * m + 1
  runLoop binsRound (2 ^ 31) (if n % 2 = 0 then n + 1 else n)

theorem product_eq {n x y : Nat} (first : x < 2 ^ 32) (second : y < 2 ^ 32) :
    x * y % 2 ^ 64 % n = x * y % n := by
  have fits : x * y < 2 ^ 64 := by
    calc x * y ≤ (2 ^ 32 - 1) * (2 ^ 32 - 1) := Nat.mul_le_mul (by omega) (by omega)
      _ < 2 ^ 64 := by decide
  rw [Nat.mod_eq_of_lt fits]

/-- The loop multiplies the result by the power that is left. -/
theorem intPowLoop_eq {n : Nat} (one : 1 < n) (word : n < 2 ^ 32) (bits : Nat) {aPow res d : Nat}
    (fits : d < 2 ^ bits) (base : aPow < 2 ^ 32) (reduced : res < n) :
    runLoop (intPowRound n) (bits + 1) ⟨aPow, res, d⟩ = some (res * aPow ^ d % n) := by
  induction bits generalizing aPow res d with
  | zero =>
      have zero : d = 0 := by omega
      subst zero
      simp [runLoop, intPowRound, Nat.mod_eq_of_lt reduced]
  | succ bits ih =>
      rw [runLoop, intPowRound]
      by_cases zero : d = 0
      · subst zero
        simp [Nat.mod_eq_of_lt reduced]
      · have positive : 0 < n := by omega
        have half : d / 2 < 2 ^ bits := by
          rw [Nat.pow_succ] at fits
          omega
        have square : aPow * aPow % n < 2 ^ 32 := Nat.lt_trans (Nat.mod_lt _ positive) word
        have split := Nat.div_add_mod d 2
        simp only [zero, if_false, product_eq base base,
          product_eq (Nat.lt_trans reduced word) base]
        rcases Nat.mod_two_eq_zero_or_one d with even | odd
        · rw [if_neg (by omega), ih half square reduced]
          congr 1
          rw [Nat.mul_mod, ← Nat.pow_mod, ← Nat.mul_mod, ← pow_two, ← pow_mul]
          congr 3
          omega
        · rw [if_pos odd, ih half square (Nat.mod_lt _ positive)]
          congr 1
          rw [Nat.mul_mod, ← Nat.pow_mod, Nat.mod_mod, ← Nat.mul_mod, Nat.mul_assoc, ← pow_two,
            ← pow_mul, ← pow_succ']
          congr 3
          omega

theorem intPow_eq {n a d : Nat} (one : 1 < n) (word : n < 2 ^ 32) (base : a < 2 ^ 32)
    (exponent : d < 2 ^ 64) : intPow a d n = some (a ^ d % n) := by
  rw [intPow, intPowLoop_eq one word 64 exponent base one, Nat.one_mul]

theorem square_pow_mod (x n i : Nat) :
    (x ^ 2 ^ i % n) * (x ^ 2 ^ i % n) % n = x ^ 2 ^ (i + 1) % n := by
  rw [← Nat.mul_mod, ← pow_add, ← Nat.two_mul, ← Nat.pow_succ']

/-- The rounds look at one square after the other. -/
theorem witnessLoop_eq {n s x : Nat} (positive : 0 < n) (word : n < 2 ^ 32) (left i : Nat)
    (toGo : i + left = s) (before : forall j, 1 ≤ j -> j < i -> x ^ 2 ^ j % n ≠ n - 1)
    (above : 1 ≤ i) :
    Exists fun result => runLoop (witnessRound n s) (left + 1) (i, x ^ 2 ^ (i - 1) % n) =
      some result ∧
      (result = true <-> Exists fun j => 1 ≤ j ∧ j < s ∧ x ^ 2 ^ j % n = n - 1) := by
  induction left generalizing i with
  | zero =>
      refine ⟨false, by simp [runLoop, witnessRound, ← toGo], ?_⟩
      rw [Bool.false_eq_true, false_iff]
      rintro ⟨j, positiveIndex, less, reached⟩
      exact before j positiveIndex (by omega) reached
  | succ left ih =>
      have less : i < s := by omega
      have next : i - 1 + 1 = i := Nat.sub_add_cancel above
      have small : x ^ 2 ^ (i - 1) % n < 2 ^ 32 := Nat.lt_trans (Nat.mod_lt _ positive) word
      rw [runLoop]
      simp only [witnessRound, less, if_true, product_eq small small, square_pow_mod, next]
      by_cases reached : x ^ 2 ^ i % n = n - 1
      · rw [if_pos reached]
        exact ⟨true, rfl, fun _ => ⟨i, above, less, reached⟩, fun _ => rfl⟩
      · rw [if_neg reached]
        have later := ih (i + 1) (by omega) (by
          intro j positiveIndex upTo
          rcases Nat.lt_succ_iff_lt_or_eq.mp upTo with earlier | rfl
          · exact before j positiveIndex earlier
          · exact reached) (by omega)
        rwa [Nat.add_sub_cancel] at later

theorem checkWitness_eq {n s x : Nat} (positive : 0 < n) (word : n < 2 ^ 32) (above : 1 ≤ s) :
    Exists fun result => checkWitness (x % n) n s = some result ∧
      (result = true <-> x % n = 1 ∨ Exists fun i => i < s ∧ x ^ 2 ^ i % n = n - 1) := by
  unfold checkWitness
  by_cases start : x % n = 1 ∨ x % n = n - 1
  · rw [if_pos start]
    refine ⟨true, rfl, fun _ => ?_, fun _ => rfl⟩
    rcases start with one | negative
    · exact Or.inl one
    · exact Or.inr ⟨0, above, by rw [pow_zero, pow_one]; exact negative⟩
  · rw [if_neg start]
    rcases @witnessLoop_eq n s x positive word (s - 1) 1 (by omega)
        (fun j first less => absurd less (Nat.not_lt.mpr first)) (Nat.le_refl 1)
          with ⟨result, run, iff⟩
    rw [Nat.sub_self, pow_zero, pow_one] at run
    have rounds : s - 1 + 1 = s := Nat.sub_add_cancel above
    rw [rounds] at run
    have more := runLoop_mono (fun _ _ pass => pass) (Nat.le_succ s) run
    refine ⟨result, more, iff.trans ⟨?_, ?_⟩⟩
    · rintro ⟨j, -, less, reached⟩
      exact Or.inr ⟨j, less, reached⟩
    · rintro (one | ⟨i, less, reached⟩)
      · exact absurd (Or.inl one) start
      · rcases i with - | i
        · rw [pow_zero, pow_one] at reached
          exact absurd (Or.inr reached) start
        · exact ⟨i + 1, Nat.succ_pos i, less, reached⟩

theorem checkBase_eq {n s d a : Nat} (one : 1 < n) (word : n < 2 ^ 32) (base : a < 2 ^ 32)
    (exponent : d < 2 ^ 64) (above : 1 ≤ s) :
    Exists fun result => checkBase n s d a = some result ∧ (result = true <-> Behaves n a s d) := by
  rcases @checkWitness_eq n s (a ^ d) (by omega) word above with ⟨result, run, iff⟩
  refine ⟨result, ?_, ?_⟩
  · simp only [checkBase, intPow_eq one word base exponent, Option.bind_eq_bind, Option.bind_some,
      run]
  · simpa only [Behaves, ← pow_mul] using iff

/-- The factors of two are split off. -/
theorem splitLoop_eq (bits : Nat) {x s : Nat} (even : x % 2 = 0) (nonzero : x ≠ 0)
    (fits : x < 2 ^ (bits + 1)) :
    Exists fun t => Exists fun d => runLoop splitRound bits (s, x) = some (s + t, d) ∧
      x = 2 ^ t * d ∧ d % 2 = 1 ∧ 1 ≤ t := by
  induction bits generalizing x s with
  | zero => omega
  | succ bits ih =>
      rw [runLoop]
      by_cases again : x / 2 % 2 = 0
      · rcases @ih (x / 2) (s + 1) again (by omega) (by rw [Nat.pow_succ] at fits; omega) with
          ⟨t, d, run, parts, odd, -⟩
        refine ⟨t + 1, d, ?_, ?_, odd, Nat.succ_pos t⟩
        · simp only [splitRound, again, if_true, run]
          congr 2
          omega
        · rw [Nat.pow_succ, Nat.mul_right_comm, ← parts]
          omega
      · refine ⟨1, x / 2, ?_, by omega, by omega, Nat.le_refl 1⟩
        simp only [splitRound, again, if_false]

/-- No number above one of 32 bits keeps the test from ending, and it accepts
those that have no small factor and are strong probable primes to the three
bases. -/
theorem checkPrimality_eq {n : Nat} (one : 1 < n) (word : n < 2 ^ 32) :
    Exists fun result => checkPrimality n = some result ∧
      (result = true <-> (n % 2 ≠ 0 ∧ n % 3 ≠ 0 ∧ n % 5 ≠ 0 ∧ n % 7 ≠ 0) ∧
        StrongProbablePrime n 2 ∧ StrongProbablePrime n 7 ∧ StrongProbablePrime n 61) := by
  unfold checkPrimality
  by_cases factors : n % 2 ≠ 0 ∧ n % 3 ≠ 0 ∧ n % 5 ≠ 0 ∧ n % 7 ≠ 0
  · rcases factors with ⟨two, three, five, seven⟩
    rcases @splitLoop_eq 64 (n - 1) 0 (by omega) (by omega) (by omega)
      with ⟨s, d, split, parts, odd, above⟩
    rw [Nat.zero_add] at split
    have exponent : d < 2 ^ 64 := by
      have le : d ≤ n - 1 := by
        rw [parts]
        exact Nat.le_mul_of_pos_left d (Nat.two_pow_pos s)
      omega
    rcases checkBase_eq one word (by decide : 2 < 2 ^ 32) exponent above
      with ⟨first, runFirst, iffFirst⟩
    rcases checkBase_eq one word (by decide : 7 < 2 ^ 32) exponent above
      with ⟨second, runSecond, iffSecond⟩
    rcases checkBase_eq one word (by decide : 61 < 2 ^ 32) exponent above
      with ⟨third, runThird, iffThird⟩
    simp only [two, three, five, seven, if_false, split, runFirst, runSecond, runThird,
      Option.bind_eq_bind, Option.bind_some, strongProbablePrime_iff parts odd, ← iffFirst,
      ← iffSecond, ← iffThird]
    refine ⟨first && (second && third), ?_, ?_⟩
    · cases first <;> cases second <;> rfl
    · rw [Bool.and_eq_true, Bool.and_eq_true]
      exact ⟨fun accepts => ⟨⟨two, three, five, seven⟩, accepts⟩, fun accepts => accepts.2⟩
  · refine ⟨false, ?_, ?_⟩
    · split_ifs with two three five seven
      · rfl
      · rfl
      · rfl
      · rfl
      · exact absurd ⟨two, three, five, seven⟩ factors
    · rw [Bool.false_eq_true, false_iff]
      exact fun all => factors all.1

theorem strongProbablePrime_of_prime {n base : Nat} (prime : n.Prime) (apart : ¬ n ∣ base) :
    StrongProbablePrime n base := by
  have nonzero : n - 1 ≠ 0 := by
    have two := prime.two_le
    omega
  rcases Nat.exists_eq_two_pow_mul_odd nonzero with ⟨s, d, odd, parts⟩
  exact ⟨s, d, parts, Nat.odd_iff.mp odd, behaves_of_prime prime apart parts⟩

theorem accepts_of_prime {n : Nat} (prime : n.Prime) (word : n < 2 ^ 32)
    (other : n ≠ 2 ∧ n ≠ 3 ∧ n ≠ 5 ∧ n ≠ 7 ∧ n ≠ 61) : checkPrimality n = some true := by
  have apart : forall factor : Nat, factor.Prime -> n ≠ factor -> n % factor ≠ 0 := by
    intro factor factorPrime different zero
    exact different ((Nat.prime_dvd_prime_iff_eq factorPrime prime).mp
      (Nat.dvd_of_mod_eq_zero zero)).symm
  have base : forall factor : Nat, factor.Prime -> n ≠ factor -> StrongProbablePrime n factor := by
    intro factor factorPrime different
    exact strongProbablePrime_of_prime prime (fun divides =>
      different ((Nat.prime_dvd_prime_iff_eq prime factorPrime).mp divides))
  rcases other with ⟨two, three, five, seven, sixtyOne⟩
  rcases checkPrimality_eq prime.one_lt word with ⟨result, run, iff⟩
  rw [run, iff.mpr ⟨⟨apart 2 (by norm_num) two, apart 3 (by norm_num) three,
    apart 5 (by norm_num) five, apart 7 (by norm_num) seven⟩, base 2 (by norm_num) two,
    base 7 (by norm_num) seven, base 61 (by norm_num) sixtyOne⟩]

/-- The test ends for every number above one.  As if its products had no bound, it
accepts those that have none of the four factors and are strong probable primes
to the three bases; among the primes it turns down exactly these five. -/
theorem checkPrimality_prime (n : Nat) (one : 1 < n) (word : n < 2 ^ 32) :
    Exists fun accepted => checkPrimality n = some accepted ∧
      (accepted = true <-> (n % 2 ≠ 0 ∧ n % 3 ≠ 0 ∧ n % 5 ≠ 0 ∧ n % 7 ≠ 0) ∧
        StrongProbablePrime n 2 ∧ StrongProbablePrime n 7 ∧ StrongProbablePrime n 61) ∧
      (n.Prime -> (accepted = true <-> n ≠ 2 ∧ n ≠ 3 ∧ n ≠ 5 ∧ n ≠ 7 ∧ n ≠ 61)) := by
  rcases checkPrimality_eq one word with ⟨accepted, run, exactly⟩
  refine ⟨accepted, run, exactly, fun prime => ⟨?_, fun other => ?_⟩⟩
  · rintro rfl
    refine ⟨?_, ?_, ?_, ?_, ?_⟩ <;>
      (rintro rfl
       exact absurd run (by decide))
  · have accepts := accepts_of_prime prime word other
    rw [run] at accepts
    exact Option.some.inj accepts

theorem checkPrimality_prime_nine :
    Exists fun accepted => checkPrimality 9 = some accepted ∧
      (accepted = true <-> (9 % 2 ≠ 0 ∧ 9 % 3 ≠ 0 ∧ 9 % 5 ≠ 0 ∧ 9 % 7 ≠ 0) ∧
        StrongProbablePrime 9 2 ∧ StrongProbablePrime 9 7 ∧ StrongProbablePrime 9 61) ∧
      (Nat.Prime 9 -> (accepted = true <-> 9 ≠ 2 ∧ 9 ≠ 3 ∧ 9 ≠ 5 ∧ 9 ≠ 7 ∧ 9 ≠ 61)) :=
  checkPrimality_prime 9 (by decide) (by decide)

/-! ## The number of bins -/

/-- Not far above a number there is a prime that the test accepts. -/
theorem exists_accepted (m : Nat) (small : m < 2 ^ 30) :
    Exists fun p => checkPrimality p = some true ∧ p % 2 = 1 ∧ 2 * m < p ∧
      p ≤ max 67 (4 * m + 2) := by
  by_cases few : 2 * m < 67
  · refine ⟨67, accepts_of_prime (by norm_num) (by decide) (by decide), by decide, few,
      Nat.le_max_left _ _⟩
  · rcases Nat.exists_prime_lt_and_le_two_mul (2 * m + 1) (Nat.succ_ne_zero _)
      with ⟨p, prime, above, below⟩
    refine ⟨p, accepts_of_prime prime (by omega) (by omega), ?_, by omega, by omega⟩
    rcases prime.eq_two_or_odd with two | odd
    · omega
    · exact odd

/-- The loop ends with the first odd number that the test accepts. -/
theorem binsLoop_eq_some {start p : Nat} (one : 1 < start) (odd : start % 2 = 1)
    (oddEnd : p % 2 = 1) (accepts : checkPrimality p = some true) (word : p < 2 ^ 32)
    (le : start ≤ p) :
    Exists fun n => runLoop binsRound (2 ^ 31) start = some n ∧ checkPrimality n = some true ∧
      n % 2 = 1 ∧
      start ≤ n ∧ n ≤ p ∧ forall k, start ≤ k -> k < n -> k % 2 = 1 ->
        checkPrimality k = some false := by
  refine runLoop_of_measure
    (fun n => n % 2 = 1 ∧ start ≤ n ∧ n ≤ p ∧
      forall k, start ≤ k -> k < n -> k % 2 = 1 -> checkPrimality k = some false)
    (fun n => (p - n) / 2) ?_ ⟨odd, Nat.le_refl start, le, fun k more less => by omega⟩ (by omega)
  rintro n ⟨oddNumber, more, most, rejected⟩
  rcases checkPrimality_eq (by omega : 1 < n) (by omega) with ⟨result, run, -⟩
  cases result with
  | true => exact Or.inl ⟨n, by simp [binsRound, run], run, oddNumber, more, most, rejected⟩
  | false =>
      have different : n ≠ p := by
        rintro rfl
        rw [run] at accepts
        cases accepts
      refine Or.inr ⟨n + 2, by simp [binsRound, run], ⟨by omega, by omega, by omega, ?_⟩, by omega⟩
      intro k moreThan less oddOther
      by_cases same : k = n
      · rw [same]
        exact run
      · exact rejected k moreThan (by omega) oddOther

theorem chdPhBins_eq (m : Nat) : chdPhBins m = runLoop binsRound (2 ^ 31) (2 * m + 1) := by
  unfold chdPhBins
  dsimp only
  rw [if_neg (by omega)]

theorem chdPhBins_lt {m n : Nat} (bins : chdPhBins m = some n) : 2 * m < n := by
  rw [chdPhBins_eq] at bins
  refine runLoop_of_invariant (fun n => 2 * m < n) ?_ ?_ (Nat.lt_succ_self (2 * m)) bins
  · intro k next above goes
    simp only [binsRound, Option.bind_eq_bind, Option.bind_eq_some_iff] at goes
    rcases goes with ⟨accepted, -, goes⟩
    split_ifs at goes
    · cases goes
    · cases goes
      exact Nat.lt_add_right 2 above
  · intro k result above leaves
    simp only [binsRound, Option.bind_eq_bind, Option.bind_eq_some_iff] at leaves
    rcases leaves with ⟨accepted, -, leaves⟩
    split_ifs at leaves
    · cases leaves
      exact above
    · cases leaves

theorem chdPhBins_le {m : Nat} (nonempty : 0 < m) (small : m < 2 ^ 30) :
    Exists fun n => chdPhBins m = some n ∧ n ≤ max 67 (4 * m + 2) := by
  rcases exists_accepted m small with ⟨p, accepts, odd, above, below⟩
  rcases binsLoop_eq_some (by omega : 1 < 2 * m + 1) (by omega) odd accepts (by omega) above with
    ⟨n, run, -, -, -, most, -⟩
  exact ⟨n, by rw [chdPhBins_eq, run], Nat.le_trans most below⟩

/-- For every number of keys the loop ends, with the first odd number above
twice the number of keys that the test accepts, and this number is a word. -/
theorem chdPhBins_eq_some (m : Nat) (nonempty : 0 < m) (small : m < 2 ^ 30) :
    Exists fun n => chdPhBins m = some n ∧ checkPrimality n = some true ∧ n % 2 = 1 ∧ 2 * m < n ∧
      n ≤ max 67 (4 * m + 2) ∧ forall k, 2 * m < k -> k < n -> k % 2 = 1 ->
        checkPrimality k = some false := by
  rcases exists_accepted m small with ⟨p, accepts, odd, above, below⟩
  rcases binsLoop_eq_some (by omega : 1 < 2 * m + 1) (by omega) odd accepts (by omega) above with
    ⟨n, run, accepted, oddNumber, more, most, rejected⟩
  exact ⟨n, by rw [chdPhBins_eq, run], accepted, oddNumber, more, Nat.le_trans most below, rejected⟩

theorem chdPhBins_eq_some_thirty :
    Exists fun n => chdPhBins 30 = some n ∧ checkPrimality n = some true ∧ n % 2 = 1 ∧ 2 * 30 < n ∧
      n ≤ max 67 (4 * 30 + 2) ∧ forall k, 2 * 30 < k -> k < n -> k % 2 = 1 ->
        checkPrimality k = some false :=
  chdPhBins_eq_some 30 (by decide) (by decide)

end Hash
end Johnny
