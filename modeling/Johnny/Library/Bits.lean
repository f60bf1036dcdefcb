import Mathlib.Data.BitVec
import Mathlib.Data.Nat.Count

namespace Johnny
namespace Library

/-!
# The bits of a table of words

A table of machine words is a sequence of bits, the lowest bit of every word
first, and a sequence of bytes, the lowest byte of every word first.  Behind the
table all bits are clear and there are no bytes.
-/

variable {w : Nat}

def bitOf (words : List (BitVec w)) (i : Nat) : Bool :=
  (words.getD (i / w) 0#w).getLsbD (i % w)

def byteOf (words : List (BitVec w)) (k : Nat) : Option (BitVec 8) :=
  words[k / (w / 8)]?.map (fun word => word.extractLsb' (8 * (k % (w / 8))) 8)

theorem bitOf_of_getElem? {words : List (BitVec w)} {k i : Nat} {word : BitVec w}
    (entry : words[k]? = some word)
    (inside : i / w = k) : bitOf words i = word.getLsbD (i % w) := by
  unfold bitOf
  rw [inside, List.getD_eq_getElem?_getD, entry, Option.getD_some]

theorem bitOf_set {words : List (BitVec w)} {k : Nat} (bound : k < words.length) (word : BitVec w)
    (i : Nat) :
    bitOf (words.set k word) i = if i / w = k then word.getLsbD (i % w) else bitOf words i := by
  unfold bitOf
  simp only [List.getD_eq_getElem?_getD, List.getElem?_set]
  split_ifs with same same'
  · rfl
  · rw [← same] at same'
    omega
  · omega
  · rfl

@[simp] theorem bitOf_replicate (count i : Nat) : bitOf (List.replicate count (0#w)) i = false := by
  unfold bitOf
  simp only [List.getD_eq_getElem?_getD, List.getElem?_replicate]
  split_ifs <;> simp

/-- `(1 << count) - 1`. -/
def lowMask (w count : Nat) : BitVec w :=
  1#w <<< count - 1#w

theorem getLsbD_lowMask (count j : Nat) :
    (lowMask w count).getLsbD j = (decide (j < w) && decide (j < count)) := by
  unfold lowMask
  rcases Nat.lt_or_ge count w with less | ge
  · have value : (1#w <<< count - 1#w).toNat = 2 ^ count - 1 := by
      have small : 2 ^ count < 2 ^ w := Nat.pow_lt_pow_right (by decide) less
      have positive := Nat.two_pow_pos count
      rw [BitVec.toNat_sub_of_le]
      · simp [BitVec.toNat_shiftLeft, Nat.mod_eq_of_lt small, Nat.shiftLeft_eq,
          Nat.mod_eq_of_lt (by omega : 1 < 2 ^ w)]
      · rw [BitVec.le_def]
        simp [BitVec.toNat_shiftLeft, Nat.mod_eq_of_lt small, Nat.shiftLeft_eq,
          Nat.mod_eq_of_lt (by omega : 1 < 2 ^ w)]
        omega
    rw [BitVec.getLsbD, value, Nat.testBit_two_pow_sub_one]
    by_cases inside : j < count
    · simp [inside, Nat.lt_trans inside less]
    · simp [inside]
  · rw [BitVec.shiftLeft_eq_zero ge, BitVec.zero_sub, BitVec.neg_one_eq_allOnes,
      BitVec.getLsbD_allOnes]
    by_cases inside : j < w
    · simp [inside, Nat.lt_of_lt_of_le inside ge]
    · simp [inside]

theorem byteOf_getLsbD (whole : 8 ∣ w) (positive : 0 < w) {words : List (BitVec w)} {k : Nat}
    {byte : BitVec 8} (found : byteOf words k = some byte) {j : Nat} (inside : j < 8) :
      byte.getLsbD j = bitOf words (8 * k + j) := by
  rcases whole with ⟨bytes, rfl⟩
  unfold byteOf at found
  rw [Nat.mul_div_cancel_left bytes (by decide)] at found
  rcases Option.map_eq_some_iff.mp found with ⟨word, entry, rfl⟩
  have high : (8 * k + j) / (8 * bytes) = k / bytes := by
    rw [← Nat.div_div_eq_div_mul, Nat.mul_add_div (by decide), Nat.div_eq_of_lt inside,
      Nat.add_zero]
  have low : (8 * k + j) % (8 * bytes) = 8 * (k % bytes) + j := by
    rw [Nat.mod_mul, Nat.mul_add_mod, Nat.mod_eq_of_lt inside, Nat.mul_add_div (by decide),
      Nat.div_eq_of_lt inside, Nat.add_zero, Nat.add_comm]
  rw [bitOf_of_getElem? entry high, low, BitVec.getLsbD_extractLsb']
  simp [inside]

theorem byteOf_eq_some {words : List (BitVec w)} (bytes : 0 < w / 8) {k : Nat}
    (inside : k < w / 8 * words.length) : Exists fun byte => byteOf words k = some byte := by
  have bound : k / (w / 8) < words.length :=
    (Nat.div_lt_iff_lt_mul bytes).mpr (by rwa [Nat.mul_comm])
  unfold byteOf
  rw [List.getElem?_eq_getElem bound]
  exact ⟨_, rfl⟩

theorem byteOf_append {words rest : List (BitVec w)} {k : Nat} {byte : BitVec 8}
    (found : byteOf words k = some byte) : byteOf (words ++ rest) k = some byte := by
  unfold byteOf at found ⊢
  rcases Option.map_eq_some_iff.mp found with ⟨word, entry, rfl⟩
  have bound := (List.getElem?_eq_some_iff.mp entry).1
  rw [List.getElem?_append_left bound, entry]
  rfl

/-! ## Numbers of set bits -/

/-- The number of set bits before a position. -/
def rankOf (words : List (BitVec w)) (i : Nat) : Nat :=
  Nat.count (fun j => bitOf words j = true) i

/-- The number of set bits in the lower part of a byte. -/
def byteRank (byte : BitVec 8) (i : Nat) : Nat :=
  Nat.count (fun j => byte.getLsbD j = true) i

/-- Within a byte the set bits before a position are those before the byte and
those in the lower part of the byte. -/
theorem rankOf_in_byte (whole : 8 ∣ w) (positive : 0 < w) {words : List (BitVec w)} {k : Nat}
    {byte : BitVec 8} (found : byteOf words k = some byte) {j : Nat} (inside : j ≤ 8) :
    rankOf words (8 * k + j) = rankOf words (8 * k) + byteRank byte j := by
  unfold rankOf byteRank
  rw [Nat.count_add]
  congr 1
  induction j with
  | zero => simp
  | succ j ih =>
      rw [Nat.count_succ, Nat.count_succ, ih (by omega),
        byteOf_getLsbD whole positive found (by omega : j < 8)]

theorem rankOf_lt {words : List (BitVec w)} {first second : Nat}
    (firstSet : bitOf words first = true)
    (less : first < second) : rankOf words first < rankOf words second :=
  Nat.count_strict_mono firstSet less

theorem rankOf_le (words : List (BitVec w)) {first second : Nat} (le : first ≤ second) :
    rankOf words first ≤ rankOf words second :=
  Nat.count_monotone _ le

end Library
end Johnny
