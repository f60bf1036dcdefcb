import Johnny.Library.Bits

namespace Johnny
namespace Hash

open Library

/-!
# Bit fields

The inline functions of `bitbool.h` keep short bit strings in a table of 32-bit
words.  A string may begin in one word and end in the next.  An access outside
the table gives `none`.
-/

abbrev BitsTable := List (BitVec 32)

def bitmask32 (i : Nat) : BitVec 32 := 1#32 <<< i

/-- `GETBIT32`: the masked word, which is zero for a clear bit. -/
def getBit32 (array : BitsTable) (i : Nat) : Option (BitVec 32) :=
  array[i / 32]?.map (fun word => word &&& bitmask32 (i % 32))

/-- `SETBIT32`. -/
def setBit32 (array : BitsTable) (i : Nat) : Option BitsTable :=
  array[i / 32]?.map (fun word => array.set (i / 32) (word ||| bitmask32 (i % 32)))

/-- `UNSETBIT32`, which flips the bit. -/
def unsetBit32 (array : BitsTable) (i : Nat) : Option BitsTable :=
  array[i / 32]?.map (fun word => array.set (i / 32) (word ^^^ bitmask32 (i % 32)))

/-- `BITS_TABLE_SIZE`. -/
def bitsTableSize (n bitsLength : Nat) : Nat :=
  (n * bitsLength + 31) % 2 ^ 32 / 32

/-- The part that `set_bits_value` and `set_bits_at_pos` share. -/
def setBits (bitsTable : BitsTable) (bitIdx : Nat) (bitsString : BitVec 32) (stringLength : Nat)
    (stringMask : BitVec 32) : Option BitsTable := do
  let wordIdx := bitIdx / 32
  let shift1 := bitIdx % 32
  let shift2 := 32 - shift1
  let word <- bitsTable[wordIdx]?
  let bitsTable := bitsTable.set wordIdx
    (word &&& ~~~(stringMask <<< shift1) ||| bitsString <<< shift1)
  if shift2 < stringLength then
    let next <- bitsTable[wordIdx + 1]?
    some (bitsTable.set (wordIdx + 1)
      (next &&& ~~~(stringMask >>> shift2) ||| bitsString >>> shift2))
  else
    some bitsTable

/-- The part that `get_bits_value` and `get_bits_at_pos` share. -/
def getBits (bitsTable : BitsTable) (bitIdx stringLength : Nat) (stringMask : BitVec 32) :
    Option (BitVec 32) := do
  let wordIdx := bitIdx / 32
  let shift1 := bitIdx % 32
  let shift2 := 32 - shift1
  let word <- bitsTable[wordIdx]?
  let bitsString := word >>> shift1 &&& stringMask
  if shift2 < stringLength then
    let next <- bitsTable[wordIdx + 1]?
    some (bitsString ||| next <<< shift2 &&& stringMask)
  else
    some bitsString

def setBitsValue (bitsTable : BitsTable) (index : Nat) (bitsString : BitVec 32) (stringLength : Nat)
    (stringMask : BitVec 32) : Option BitsTable :=
  setBits bitsTable (index * stringLength % 2 ^ 32) bitsString stringLength stringMask

def getBitsValue (bitsTable : BitsTable) (index stringLength : Nat) (stringMask : BitVec 32) :
    Option (BitVec 32) :=
  getBits bitsTable (index * stringLength % 2 ^ 32) stringLength stringMask

def setBitsAtPos (bitsTable : BitsTable) (pos : Nat) (bitsString : BitVec 32) (stringLength : Nat) :
    Option BitsTable :=
  setBits bitsTable pos bitsString stringLength (lowMask 32 stringLength)

def getBitsAtPos (bitsTable : BitsTable) (pos stringLength : Nat) : Option (BitVec 32) :=
  getBits bitsTable pos stringLength (lowMask 32 stringLength)

theorem bitmask32_eq_twoPow (i : Nat) : bitmask32 i = BitVec.twoPow 32 i :=
  (BitVec.twoPow_eq 32 i).symm

theorem word_inside {array : BitsTable} {i : Nat} (inside : i < 32 * array.length) :
    i / 32 < array.length := by
  omega

theorem getBit32_eq_some {array : BitsTable} {i : Nat} (inside : i < 32 * array.length) :
    Exists fun word => getBit32 array i = some word ∧ (word = 0#32 <-> bitOf array i = false) := by
  have word := word_inside inside
  have entry := List.getElem?_eq_getElem word
  refine ⟨array[i / 32] &&& bitmask32 (i % 32), by rw [getBit32, entry]; rfl, ?_⟩
  have low : i % 32 < 32 := Nat.mod_lt _ (by decide)
  rw [bitOf_of_getElem? entry rfl, bitmask32_eq_twoPow, BitVec.and_twoPow]
  cases array[i / 32].getLsbD (i % 32) with
  | false => simp
  | true =>
      have set : BitVec.twoPow 32 (i % 32) ≠ 0#32 := by
        intro clear
        have bit := congrArg (fun word => word.getLsbD (i % 32)) clear
        simp [low] at bit
      simp [set]

/-- A word combined with the mask of one bit: the bitwise operation applies to that
bit, and leaves the others if it does not see a clear bit. -/
theorem combineBit_eq_some {combine : BitVec 32 -> BitVec 32 -> BitVec 32}
    {op : Bool -> Bool -> Bool} (bitwise : forall first second j,
      (combine first second).getLsbD j = op (first.getLsbD j) (second.getLsbD j))
    (unseen : forall bit, op bit false = bit) {array : BitsTable} {i : Nat}
    (inside : i < 32 * array.length) :
    Exists fun after =>
      array[i / 32]?.map (fun word => array.set (i / 32) (combine word (bitmask32 (i % 32)))) =
        some after ∧
      after.length = array.length ∧ forall j, bitOf after j =
        op (bitOf array j) (decide (j = i)) := by
  have entry := List.getElem?_eq_getElem (word_inside inside)
  refine ⟨_, by rw [entry]; rfl, List.length_set, ?_⟩
  intro j
  rw [bitOf_set (word_inside inside)]
  by_cases same : j / 32 = i / 32
  · have place : j = i <-> i % 32 = j % 32 := by omega
    have low : i % 32 < 32 := Nat.mod_lt _ (by decide)
    rw [if_pos same, bitOf_of_getElem? entry same, bitwise, bitmask32_eq_twoPow,
      BitVec.getLsbD_twoPow]
    simp [place, low]
  · have other : j ≠ i := by
      rintro rfl
      exact same rfl
    rw [if_neg same, decide_eq_false other, unseen]

theorem setBit32_eq_some {array : BitsTable} {i : Nat} (inside : i < 32 * array.length) :
    Exists fun after => setBit32 array i = some after ∧ after.length = array.length ∧
      forall j, bitOf after j = (bitOf array j || decide (j = i)) :=
  combineBit_eq_some (fun _ _ _ => BitVec.getLsbD_or) Bool.or_false inside

theorem unsetBit32_eq_some {array : BitsTable} {i : Nat} (inside : i < 32 * array.length) :
    Exists fun after => unsetBit32 array i = some after ∧ after.length = array.length ∧
      forall j, bitOf after j = (bitOf array j != decide (j = i)) :=
  combineBit_eq_some (fun _ _ _ => BitVec.getLsbD_xor) Bool.xor_false inside

theorem getLsbD_of_toNat_lt {bitsString : BitVec 32} {length : Nat}
    (short : bitsString.toNat < 2 ^ length) :
    forall i, length ≤ i -> bitsString.getLsbD i = false :=
  fun i beyond => Nat.testBit_lt_two_pow
    (Nat.lt_of_lt_of_le short (Nat.pow_le_pow_right (by decide) beyond))

/-- The bits of the word in which a string begins. -/
theorem getLsbD_lower (word bitsString : BitVec 32) {shift length j : Nat} (inWord : j < 32)
    (short : forall i, length ≤ i -> bitsString.getLsbD i = false) :
    (word &&& ~~~(lowMask 32 length <<< shift) ||| bitsString <<< shift).getLsbD j =
      if shift ≤ j ∧ j < shift + length then bitsString.getLsbD (j - shift)
      else word.getLsbD j := by
  simp only [BitVec.getLsbD_or, BitVec.getLsbD_and, BitVec.getLsbD_not, BitVec.getLsbD_shiftLeft,
    getLsbD_lowMask, inWord, decide_true, Bool.true_and]
  by_cases before : j < shift
  · have outside : ¬ (shift ≤ j ∧ j < shift + length) := by omega
    simp [before, outside]
  · by_cases within : j - shift < length
    · have inside : shift ≤ j ∧ j < shift + length := by omega
      simp [before, inside, within, (by omega : j - shift < 32)]
    · have outside : ¬ (shift ≤ j ∧ j < shift + length) := by omega
      simp [before, outside, within, short (j - shift) (by omega)]

/-- The bits of the word in which a string ends. -/
theorem getLsbD_upper (word bitsString : BitVec 32) {shift length j : Nat} (inWord : j < 32)
    (short : forall i, length ≤ i -> bitsString.getLsbD i = false) (most : length ≤ 32) :
    (word &&& ~~~(lowMask 32 length >>> shift) ||| bitsString >>> shift).getLsbD j =
      if shift + j < length then bitsString.getLsbD (shift + j) else word.getLsbD j := by
  simp only [BitVec.getLsbD_or, BitVec.getLsbD_and, BitVec.getLsbD_not, BitVec.getLsbD_ushiftRight,
    getLsbD_lowMask, inWord, decide_true, Bool.true_and]
  by_cases within : shift + j < length
  · simp [within, (by omega : shift + j < 32)]
  · simp [within, short (shift + j) (by omega)]

/-- A string that fits into the table is stored at its bits, and no other bit
changes. -/
theorem setBits_eq_some {bitsTable : BitsTable} {bitIdx stringLength : Nat} {bitsString : BitVec 32}
    (fits : bitIdx + stringLength ≤ 32 * bitsTable.length) (positive : 0 < stringLength)
    (most : stringLength ≤ 32) (short : bitsString.toNat < 2 ^ stringLength) :
    Exists fun after => setBits bitsTable bitIdx bitsString stringLength (lowMask 32 stringLength) =
      some after ∧
      after.length = bitsTable.length ∧
      forall i, bitOf after i =
        if bitIdx ≤ i ∧ i < bitIdx + stringLength then bitsString.getLsbD (i - bitIdx)
        else bitOf bitsTable i := by
  have first : bitIdx / 32 < bitsTable.length := by omega
  have entry := List.getElem?_eq_getElem first
  have short := getLsbD_of_toNat_lt short
  by_cases straddles : 32 - bitIdx % 32 < stringLength
  · have second : bitIdx / 32 + 1 < bitsTable.length := by omega
    have next : (bitsTable.set (bitIdx / 32) (bitsTable[bitIdx / 32] &&&
        ~~~(lowMask 32 stringLength <<< (bitIdx % 32)) ||| bitsString <<<
          (bitIdx % 32)))[bitIdx / 32 + 1]? =
          some bitsTable[bitIdx / 32 + 1] := by
      rw [List.getElem?_set_ne (by omega), List.getElem?_eq_getElem second]
    refine ⟨_, by simp only [setBits, entry, straddles, if_true, Option.bind_eq_bind,
      Option.bind_some, next]; rfl,
      by rw [List.length_set, List.length_set], ?_⟩
    intro i
    have low : i % 32 < 32 := Nat.mod_lt _ (by decide)
    rw [bitOf_set (by rwa [List.length_set]), bitOf_set first, getLsbD_lower _ _ low short,
      getLsbD_upper _ _ low short most]
    by_cases inSecond : i / 32 = bitIdx / 32 + 1
    · rw [if_pos inSecond, bitOf_of_getElem? (List.getElem?_eq_getElem second) inSecond]
      have place : 32 - bitIdx % 32 + i % 32 = i - bitIdx := by omega
      rw [place]
      by_cases within : i - bitIdx < stringLength
      · rw [if_pos within, if_pos (by omega)]
      · rw [if_neg within, if_neg (by omega)]
    · rw [if_neg inSecond]
      by_cases inFirst : i / 32 = bitIdx / 32
      · rw [if_pos inFirst, bitOf_of_getElem? entry inFirst]
        have place : i % 32 - bitIdx % 32 = i - bitIdx := by omega
        rw [place]
        by_cases within : bitIdx ≤ i
        · rw [if_pos (by omega), if_pos (by omega)]
        · rw [if_neg (by omega), if_neg (by omega)]
      · rw [if_neg inFirst, if_neg (by omega)]
  · refine ⟨_, by simp only [setBits, entry, straddles, if_false, Option.bind_eq_bind,
      Option.bind_some]; rfl,
      List.length_set, ?_⟩
    intro i
    have low : i % 32 < 32 := Nat.mod_lt _ (by decide)
    rw [bitOf_set first, getLsbD_lower _ _ low short]
    by_cases inFirst : i / 32 = bitIdx / 32
    · rw [if_pos inFirst, bitOf_of_getElem? entry inFirst]
      have place : i % 32 - bitIdx % 32 = i - bitIdx := by omega
      rw [place]
      by_cases within : bitIdx ≤ i ∧ i < bitIdx + stringLength
      · rw [if_pos within, if_pos (by omega)]
      · rw [if_neg within, if_neg (by omega)]
    · rw [if_neg inFirst, if_neg (by omega)]

/-- A string within the table is read bit by bit. -/
theorem getBits_eq_some {bitsTable : BitsTable} {bitIdx stringLength : Nat}
    (fits : bitIdx + stringLength ≤ 32 * bitsTable.length) (positive : 0 < stringLength)
    (most : stringLength ≤ 32) :
    Exists fun bitsString => getBits bitsTable bitIdx stringLength (lowMask 32 stringLength) =
      some bitsString ∧
      forall j, bitsString.getLsbD j =
        (decide (j < stringLength) && bitOf bitsTable (bitIdx + j)) := by
  have first : bitIdx / 32 < bitsTable.length := by omega
  have entry := List.getElem?_eq_getElem first
  have inFirst : forall j, bitIdx % 32 + j < 32 ->
      bitsTable[bitIdx / 32].getLsbD (bitIdx % 32 + j) = bitOf bitsTable (bitIdx + j) := by
    intro j inWord
    rw [bitOf_of_getElem? entry (by omega), (by omega : (bitIdx + j) % 32 = bitIdx % 32 + j)]
  by_cases straddles : 32 - bitIdx % 32 < stringLength
  · have second : bitIdx / 32 + 1 < bitsTable.length := by omega
    have next := List.getElem?_eq_getElem second
    refine ⟨_, by simp only [getBits, entry, next, straddles, if_true, Option.bind_eq_bind,
      Option.bind_some]; rfl, ?_⟩
    intro j
    simp only [BitVec.getLsbD_or, BitVec.getLsbD_and, BitVec.getLsbD_ushiftRight,
      BitVec.getLsbD_shiftLeft, getLsbD_lowMask]
    by_cases within : j < stringLength
    · have inWord : j < 32 := by omega
      by_cases lower : bitIdx % 32 + j < 32
      · simp [within, inWord, inFirst j lower, (by omega : j < 32 - bitIdx % 32)]
      · have bit : bitsTable[bitIdx / 32 + 1].getLsbD (j - (32 - bitIdx % 32)) =
            bitOf bitsTable (bitIdx + j) := by
          rw [bitOf_of_getElem? next (by omega),
            (by omega : (bitIdx + j) % 32 = j - (32 - bitIdx % 32))]
        have beyond := BitVec.getLsbD_of_ge bitsTable[bitIdx / 32] (bitIdx % 32 + j) (by omega)
        have upper : decide (j < 32 - bitIdx % 32) = false := decide_eq_false (by omega)
        rw [beyond, bit, upper]
        simp [within, inWord]
    · simp [within]
  · refine ⟨_, by simp only [getBits, entry, straddles, if_false, Option.bind_eq_bind,
      Option.bind_some]; rfl, ?_⟩
    intro j
    simp only [BitVec.getLsbD_and, BitVec.getLsbD_ushiftRight, getLsbD_lowMask]
    by_cases within : j < stringLength
    · simp [within, inFirst j (by omega), (by omega : j < 32)]
    · simp [within]

/-- The loop of `compressed_rank_i_log2` and `compressed_seq_i_log2`. -/
def iLog2 (x : Nat) : Nat :=
  if 1 < x then iLog2 (x / 2) + 1 else 0

/-- Both generators set a length of zero to one. -/
def oneIfZero (remR : Nat) : Nat :=
  if remR = 0 then 1 else remR

theorem iLog2_spec {x : Nat} (positive : 0 < x) : 2 ^ iLog2 x ≤ x ∧ x < 2 ^ (iLog2 x + 1) := by
  induction x using Nat.strongRecOn with
  | _ x ih =>
      rw [iLog2]
      by_cases more : 1 < x
      · rw [if_pos more]
        have half := ih (x / 2) (by omega) (by omega)
        rw [Nat.pow_succ, Nat.pow_succ]
        rw [Nat.pow_succ] at half
        omega
      · rw [if_neg more]
        omega

/-- A length that comes from the average of `n` strings leaves room for `n`
strings of this length. -/
theorem oneIfZero_bounds {total n remR : Nat} (positive : 0 < n) (small : n + total + 128 ≤ 2 ^ 32)
    (length : oneIfZero (iLog2 (total / n)) = remR) :
      0 < remR ∧ remR < 32 ∧ n * remR + 31 < 2 ^ 32 := by
  unfold oneIfZero at length
  by_cases short : iLog2 (total / n) = 0
  · rw [if_pos short] at length
    subst length
    omega
  · rw [if_neg short] at length
    have quotient : 0 < total / n := by
      by_contra none
      rw [Nat.le_zero.mp (Nat.not_lt.mp none), iLog2, if_neg (by decide)] at short
      exact short rfl
    have lower := (iLog2_spec quotient).1
    rw [length] at lower
    have least : 2 ^ remR ≤ total := Nat.le_trans lower (Nat.div_le_self _ _)
    have below : remR < 32 := (Nat.pow_lt_pow_iff_right (by decide : 1 < 2)).mp (by omega)
    have all : n * 2 ^ remR ≤ total := by
      calc n * 2 ^ remR ≤ n * (total / n) := Nat.mul_le_mul_left n lower
        _ ≤ total := Nat.mul_div_le _ _
    have product : n * remR ≤ n * 2 ^ remR :=
      Nat.mul_le_mul_left n (Nat.le_of_lt Nat.lt_two_pow_self)
    exact ⟨by omega, below, by omega⟩

theorem oneIfZero_quotient {total n remR : Nat} (two : 2 ≤ total)
    (length : oneIfZero (iLog2 (total / n)) = remR) : 0 < total / 2 ^ remR := by
  apply Nat.div_pos _ (Nat.two_pow_pos remR)
  unfold oneIfZero at length
  by_cases short : iLog2 (total / n) = 0
  · rw [if_pos short] at length
    rwa [← length]
  · rw [if_neg short] at length
    have quotient : 0 < total / n := by
      by_contra none
      rw [Nat.le_zero.mp (Nat.not_lt.mp none), iLog2, if_neg (by decide)] at short
      exact short rfl
    rw [← length]
    exact Nat.le_trans (iLog2_spec quotient).1 (Nat.div_le_self _ _)

@[simp] theorem toNat_lowMask {count : Nat} (less : count < 32) :
    (lowMask 32 count).toNat = 2 ^ count - 1 := by
  apply Nat.eq_of_testBit_eq
  intro j
  have bit := getLsbD_lowMask (w := 32) count j
  rw [BitVec.getLsbD] at bit
  rw [bit, Nat.testBit_two_pow_sub_one]
  by_cases inside : j < count
  · simp [inside, Nat.lt_trans inside less]
  · simp [inside]

/-- A mask leaves the remainder. -/
theorem toNat_and_lowMask {count : Nat} (less : count < 32) (word : BitVec 32) :
    (word &&& lowMask 32 count).toNat = word.toNat % 2 ^ count := by
  rw [BitVec.toNat_and, toNat_lowMask less, Nat.and_two_pow_sub_one_eq_mod]

/-! ## Tables of strings of one length -/

section

variable {n stringLength : Nat} {bitsTable : BitsTable}

/-- The strings of a table with `n` of them are inside. -/
theorem string_inside (room : n * stringLength ≤ 32 * bitsTable.length)
    (small : n * stringLength < 2 ^ 32) {index : Nat} (inside : index < n) :
    index * stringLength % 2 ^ 32 = index * stringLength ∧
      index * stringLength + stringLength ≤ 32 * bitsTable.length := by
  have next : index * stringLength + stringLength ≤ n * stringLength := by
    rw [← Nat.succ_mul]
    exact Nat.mul_le_mul_right _ inside
  exact ⟨Nat.mod_eq_of_lt (by omega), by omega⟩

theorem getBitsValue_eq_some (room : n * stringLength ≤ 32 * bitsTable.length)
    (small : n * stringLength < 2 ^ 32) (positive : 0 < stringLength) (most : stringLength ≤ 32)
    {index : Nat} (inside : index < n) :
    Exists fun bitsString => getBitsValue bitsTable index stringLength (lowMask 32 stringLength) =
      some bitsString ∧
      forall j, bitsString.getLsbD j =
        (decide (j < stringLength) && bitOf bitsTable (index * stringLength + j)) := by
  rcases string_inside room small inside with ⟨exact, fits⟩
  unfold getBitsValue
  rw [exact]
  exact getBits_eq_some fits positive most

theorem setBitsValue_eq_some (room : n * stringLength ≤ 32 * bitsTable.length)
    (small : n * stringLength < 2 ^ 32) (positive : 0 < stringLength) (most : stringLength ≤ 32)
    {index : Nat} (inside : index < n) {bitsString : BitVec 32}
    (short : bitsString.toNat < 2 ^ stringLength) :
    Exists fun after =>
      setBitsValue bitsTable index bitsString stringLength (lowMask 32 stringLength) = some after ∧
      after.length = bitsTable.length ∧
      forall i, bitOf after i =
        if index * stringLength ≤ i ∧ i < index * stringLength + stringLength then
          bitsString.getLsbD (i - index * stringLength)
        else bitOf bitsTable i := by
  rcases string_inside room small inside with ⟨exact, fits⟩
  unfold setBitsValue
  rw [exact]
  exact setBits_eq_some fits positive most short

/-- A write changes the string at its index and no other one. -/
theorem getBitsValue_setBitsValue (room : n * stringLength ≤ 32 * bitsTable.length)
    (small : n * stringLength < 2 ^ 32) (positive : 0 < stringLength) (most : stringLength ≤ 32)
    {index : Nat} (inside : index < n) {bitsString : BitVec 32}
    (short : bitsString.toNat < 2 ^ stringLength) :
    Exists fun after =>
      setBitsValue bitsTable index bitsString stringLength (lowMask 32 stringLength) = some after ∧
      after.length = bitsTable.length ∧
      forall other, other < n ->
        getBitsValue after other stringLength (lowMask 32 stringLength) =
          if other = index then some bitsString
          else getBitsValue bitsTable other stringLength (lowMask 32 stringLength) := by
  rcases setBitsValue_eq_some room small positive most inside short
    with ⟨after, written, length, bits⟩
  refine ⟨after, written, length, fun other otherInside => ?_⟩
  rcases getBitsValue_eq_some room small positive most otherInside
    with ⟨before, readBefore, bitsBefore⟩
  rw [← length] at room
  rcases getBitsValue_eq_some room small positive most otherInside with ⟨read, readAfter, bitsAfter⟩
  rw [readAfter, readBefore]
  by_cases same : other = index
  · subst same
    rw [if_pos rfl]
    congr 1
    apply BitVec.eq_of_getLsbD_eq
    intro j _
    rw [bitsAfter, bits]
    by_cases within : j < stringLength
    · rw [if_pos (by omega), Nat.add_sub_cancel_left, decide_eq_true within, Bool.true_and]
    · rw [getLsbD_of_toNat_lt short j (by omega), decide_eq_false within, Bool.false_and]
  · rw [if_neg same]
    congr 1
    apply BitVec.eq_of_getLsbD_eq
    intro j _
    rw [bitsAfter, bitsBefore, bits]
    by_cases within : j < stringLength
    · have apart : ¬ (index * stringLength ≤ other * stringLength + j ∧
          other * stringLength + j < index * stringLength + stringLength) := by
        rcases Nat.lt_or_gt_of_ne same with less | more
        · have le := Nat.mul_le_mul_right stringLength (Nat.succ_le_of_lt less)
          rw [Nat.succ_mul] at le
          omega
        · have le := Nat.mul_le_mul_right stringLength (Nat.succ_le_of_lt more)
          rw [Nat.succ_mul] at le
          omega
      rw [if_neg apart]
    · rw [decide_eq_false within, Bool.false_and, Bool.false_and]

/-- The strings before an index are stored. -/
structure StoresStrings (n stringLength : Nat) (strings : Nat -> BitVec 32) (index : Nat)
    (bitsTable : BitsTable) : Prop where
  room : n * stringLength ≤ 32 * bitsTable.length
  stored : forall k, k < index -> getBitsValue bitsTable k stringLength (lowMask 32 stringLength) =
    some (strings k)

theorem StoresStrings.start {strings : Nat -> BitVec 32} (small : n * stringLength + 31 < 2 ^ 32) :
    StoresStrings n stringLength strings 0
      (List.replicate (bitsTableSize n stringLength) 0#32) where
  room := by
    rw [List.length_replicate]
    unfold bitsTableSize
    omega
  stored := fun k less => absurd less (Nat.not_lt_zero k)

theorem StoresStrings.next {strings : Nat -> BitVec 32} {index : Nat}
    (stores : StoresStrings n stringLength strings index bitsTable)
    (small : n * stringLength + 31 < 2 ^ 32) (positive : 0 < stringLength)
    (most : stringLength ≤ 32) (inside : index < n)
    (short : (strings index).toNat < 2 ^ stringLength) :
    Exists fun after =>
      setBitsValue bitsTable index (strings index) stringLength (lowMask 32 stringLength) =
        some after ∧
      after.length = bitsTable.length ∧ StoresStrings n stringLength strings (index + 1) after := by
  rcases getBitsValue_setBitsValue stores.room (by omega) positive most inside short with
    ⟨after, written, length, reads⟩
  refine ⟨after, written, length, by rw [length]; exact stores.room, ?_⟩
  intro k less
  rw [reads k (by omega)]
  split_ifs with own
  · rw [own]
  · exact stores.stored k (by omega)

/-- After any writes a string is the one that was written last at its index, or
what it was before the writes. -/
theorem getBitsValue_writes (room : n * stringLength ≤ 32 * bitsTable.length)
    (small : n * stringLength < 2 ^ 32) (positive : 0 < stringLength) (most : stringLength < 32)
    (writes : List (Nat × BitVec 32))
    (proper : forall write, write ∈ writes ->
      write.1 < n ∧ write.2.toNat < 2 ^ stringLength) :
    Exists fun after =>
      writes.foldlM (fun table write =>
        setBitsValue table write.1 write.2 stringLength (lowMask 32 stringLength)) bitsTable =
          some after ∧
      forall index, index < n ->
        getBitsValue after index stringLength (lowMask 32 stringLength) =
          (writes.reverse.lookup index).or
            (getBitsValue bitsTable index stringLength (lowMask 32 stringLength)) := by
  induction writes generalizing bitsTable with
  | nil => exact ⟨bitsTable, rfl, fun index _ => rfl⟩
  | cons write rest ih =>
      rcases write with ⟨place, string⟩
      rcases proper _ List.mem_cons_self with ⟨inside, short⟩
      rcases getBitsValue_setBitsValue room small positive (Nat.le_of_lt most) inside short with
        ⟨middle, written, length, reads⟩
      rw [← length] at room
      rcases ih room (fun later member => proper later (List.mem_cons_of_mem _ member))
        with ⟨after, run, found⟩
      refine ⟨after, ?_, ?_⟩
      · rw [List.foldlM_cons, written]
        exact run
      · intro index indexInside
        rw [found index indexInside, reads index indexInside, List.reverse_cons, List.lookup_append,
          Option.or_assoc]
        congr 1
        by_cases same : index = place
        · simp [same]
        · have other : (index == place) = false := beq_eq_false_iff_ne.mpr same
          simp [List.lookup_cons, other, same]

end

/-- Nine strings of seven bits; the string at index 4 crosses the border of the
words and is written twice. -/
theorem getBitsValue_writes_straddling :
    Exists fun after =>
      [(4, 0x55#32), (1, 0x7f#32), (4, 0x2a#32)].foldlM (fun table write =>
        setBitsValue table write.1 write.2 7 (lowMask 32 7)) [0#32, 0#32] = some after ∧
      forall index, index < 9 ->
        getBitsValue after index 7 (lowMask 32 7) =
          ([(4, 0x55#32), (1, 0x7f#32), (4, 0x2a#32)].reverse.lookup index).or
            (getBitsValue [0#32, 0#32] index 7 (lowMask 32 7)) := by
  refine getBitsValue_writes (by decide) (by decide) (by decide) (by decide) _ ?_
  intro write member
  simp only [List.mem_cons, List.not_mem_nil, or_false] at member
  rcases member with rfl | rfl | rfl <;> exact ⟨by decide, by decide⟩

end Hash
end Johnny
