import Johnny.Hash.Mapping
import Mathlib.Algebra.Group.Int.Defs
import Mathlib.Logic.Function.Basic

namespace Johnny
namespace Hash

/-!
# The hash of a key

`jenkins_hash.c` computes three words from a key and a seed.  It takes the key in
blocks of twelve bytes, adds each of them to the words and mixes these; the rest
of the key and its length come last.  A byte of the key is a plain `char`, which
is signed, except where the code converts it to an unsigned byte first.
-/

/-- The words `hashes[0]`, `hashes[1]` and `hashes[2]`. -/
structure Hashes where
  a : BitVec 32
  b : BitVec 32
  c : BitVec 32
  deriving DecidableEq

/-- Three of the nine lines of `mix`, which differ in their shifts only. -/
def mixLines (first second third : Nat) (hashes : Hashes) : Hashes :=
  let a := hashes.a - hashes.b - hashes.c ^^^ hashes.c >>> first
  let b := hashes.b - hashes.c - a ^^^ a <<< second
  let c := hashes.c - a - b ^^^ b >>> third
  ⟨a, b, c⟩

def mix (hashes : Hashes) : Hashes :=
  mixLines 3 10 15 (mixLines 12 16 5 (mixLines 13 8 13 hashes))

/-- `(cmph_uint32) k[i]`. -/
def charWord (k : Bytes) (i : Nat) : BitVec 32 :=
  (k.getD i 0).toBitVec.signExtend 32

/-- `(cmph_uint8) k[i]`. -/
def unsignedWord (k : Bytes) (i : Nat) : BitVec 32 :=
  (k.getD i 0).toBitVec.setWidth 32

def Hashes.addBlock (hashes : Hashes) (k : Bytes) : Hashes where
  a := hashes.a + (charWord k 0 + charWord k 1 <<< 8 + charWord k 2 <<< 16 + charWord k 3 <<< 24)
  b := hashes.b + (charWord k 4 + charWord k 5 <<< 8 + charWord k 6 <<< 16 + charWord k 7 <<< 24)
  c := hashes.c + (charWord k 8 + charWord k 9 <<< 8 + charWord k 10 <<< 16 + charWord k 11 <<< 24)

/-- A case of the `switch`, reached when the rest has more than `i` bytes. -/
def tailWord (k : Bytes) (i : Nat) (word : BitVec 32) : BitVec 32 :=
  if i < k.length then word else 0#32

/-- The rest of the key; the lowest byte of `hashes[2]` is left to the length. -/
def Hashes.addTail (hashes : Hashes) (k : Bytes) (length : Nat) : Hashes where
  a := hashes.a + tailWord k 3 (charWord k 3 <<< 24) + tailWord k 2 (charWord k 2 <<< 16) +
    tailWord k 1 (charWord k 1 <<< 8) + tailWord k 0 (unsignedWord k 0)
  b := hashes.b + tailWord k 7 (charWord k 7 <<< 24) + tailWord k 6 (charWord k 6 <<< 16) +
    tailWord k 5 (charWord k 5 <<< 8) + tailWord k 4 (unsignedWord k 4)
  c := hashes.c + BitVec.ofNat 32 length + tailWord k 10 (charWord k 10 <<< 24) +
    tailWord k 9 (charWord k 9 <<< 16) + tailWord k 8 (charWord k 8 <<< 8)

/-- The loop over the blocks; what it leaves of the key comes first. -/
def hashBlocks (k : Bytes) (hashes : Hashes) : Bytes × Hashes :=
  if 12 ≤ k.length then hashBlocks (k.drop 12) (mix (hashes.addBlock k)) else (k, hashes)
  termination_by k.length
  decreasing_by
    rw [List.length_drop]
    omega

/-- `__jenkins_hash_vector`. -/
def jenkinsHashVector (seed : BitVec 32) (k : Bytes) : Hashes :=
  let blocks := hashBlocks k ⟨0x9e3779b9#32, 0x9e3779b9#32, seed⟩
  mix (blocks.2.addTail blocks.1 k.length)

/-- `hash_vector` with the state that holds a seed. -/
def hashVector (seed : BitVec 32) : HashState :=
  fun key =>
    let hashes := jenkinsHashVector seed key
    (hashes.a.toNat, hashes.b.toNat, hashes.c.toNat)

def unmixLines (first second third : Nat) (hashes : Hashes) : Hashes :=
  let c := (hashes.c ^^^ hashes.b >>> third) + hashes.b + hashes.a
  let b := (hashes.b ^^^ hashes.a <<< second) + hashes.a + c
  let a := (hashes.a ^^^ c >>> first) + c + b
  ⟨a, b, c⟩

theorem restore_line (x y z w : BitVec 32) : (x - y - z ^^^ w ^^^ w) + z + y = x := by
  rw [BitVec.xor_assoc, BitVec.xor_self, BitVec.xor_zero, BitVec.sub_add_cancel,
    BitVec.sub_add_cancel]

theorem repeat_line (x y z w : BitVec 32) : ((x ^^^ w) + z + y) - y - z ^^^ w = x := by
  rw [BitVec.add_sub_cancel, BitVec.add_sub_cancel, BitVec.xor_assoc, BitVec.xor_self,
    BitVec.xor_zero]

theorem unmixLines_mixLines (first second third : Nat) :
    Function.LeftInverse (unmixLines first second third) (mixLines first second third) := by
  rintro ⟨a, b, c⟩
  simp only [mixLines, unmixLines, restore_line]

theorem mixLines_unmixLines (first second third : Nat) :
    Function.RightInverse (unmixLines first second third) (mixLines first second third) := by
  rintro ⟨a, b, c⟩
  simp only [mixLines, unmixLines, repeat_line]

theorem mixLines_bijective (first second third : Nat) :
    Function.Bijective (mixLines first second third) :=
  ⟨(unmixLines_mixLines first second third).injective,
    (mixLines_unmixLines first second third).surjective⟩

/-- `mix` loses nothing, as its comment promises. -/
theorem mix_bijective : Function.Bijective mix :=
  (mixLines_bijective 3 10 15).comp ((mixLines_bijective 12 16 5).comp (mixLines_bijective 13 8 13))

/-- The value of a byte as a plain `char`. -/
def charValue (k : Bytes) (i : Nat) : Int :=
  (k.getD i 0).toBitVec.toInt

theorem charValue_bounds (k : Bytes) (i : Nat) : -128 ≤ charValue k i ∧ charValue k i ≤ 127 := by
  have lower := BitVec.le_toInt (k.getD i 0).toBitVec
  have upper := BitVec.toInt_lt (x := (k.getD i 0).toBitVec)
  unfold charValue
  omega

theorem getD_eq_of_charValue {k other : Bytes} {i : Nat}
    (same : charValue k i = charValue other i) : k.getD i 0 = other.getD i 0 :=
  UInt8.toBitVec_inj.mp (BitVec.eq_of_toInt_eq same)

theorem charWord_eq (k : Bytes) (i : Nat) : charWord k i = BitVec.ofInt 32 (charValue k i) := rfl

theorem unsignedWord_eq (k : Bytes) (i : Nat) :
    unsignedWord k i = BitVec.ofInt 32 ((k.getD i 0).toBitVec.toNat : Int) := by
  rw [BitVec.ofInt_natCast]
  exact (BitVec.ofNat_toNat 32 _).symm

theorem ofInt_shiftLeft (value : Int) (shift : Nat) :
    BitVec.ofInt 32 value <<< shift = BitVec.ofInt 32 (value * 2 ^ shift) := by
  have power : BitVec.twoPow 32 shift = BitVec.ofInt 32 (2 ^ shift) := by
    have cast : (2 ^ shift : Int) = ((2 ^ shift : Nat) : Int) := by simp
    rw [cast, BitVec.ofInt_natCast]
    apply BitVec.eq_of_toNat_eq
    rw [BitVec.toNat_twoPow, BitVec.toNat_ofNat]
  rw [BitVec.shiftLeft_eq_mul_twoPow, BitVec.ofInt_mul, power]

theorem dvd_of_ofInt_eq {x y : Int} (same : BitVec.ofInt 32 x = BitVec.ofInt 32 y) :
    (2 ^ 32 : Int) ∣ x - y := by
  have values := congrArg BitVec.toInt same
  rw [BitVec.toInt_ofInt, BitVec.toInt_ofInt, Int.bmod_eq_bmod_iff_bmod_sub_eq_zero] at values
  exact Int.dvd_iff_bmod_eq_zero.mpr values

/-- Four digits that are less than a byte apart are determined by the word they
are joined to. -/
theorem digits_eq {x0 x1 x2 x3 y0 y1 y2 y3 : Int} (apart0 : -256 < x0 - y0 ∧ x0 - y0 < 256)
    (apart1 : -256 < x1 - y1 ∧ x1 - y1 < 256) (apart2 : -256 < x2 - y2 ∧ x2 - y2 < 256)
    (apart3 : -256 < x3 - y3 ∧ x3 - y3 < 256)
    (same : BitVec.ofInt 32 (x0 + x1 * 2 ^ 8 + x2 * 2 ^ 16 + x3 * 2 ^ 24) =
      BitVec.ofInt 32 (y0 + y1 * 2 ^ 8 + y2 * 2 ^ 16 + y3 * 2 ^ 24)) :
    x0 = y0 ∧ x1 = y1 ∧ x2 = y2 ∧ x3 = y3 := by
  rcases dvd_of_ofInt_eq same with ⟨q, difference⟩
  omega

theorem charValue_apart (k other : Bytes) (i j : Nat) :
    -256 < charValue k i - charValue other j ∧ charValue k i - charValue other j < 256 := by
  have own := charValue_bounds k i
  have others := charValue_bounds other j
  omega

theorem blockWord_eq (k : Bytes) (i : Nat) :
    charWord k i + charWord k (i + 1) <<< 8 + charWord k (i + 2) <<< 16 +
        charWord k (i + 3) <<< 24 =
      BitVec.ofInt 32 (charValue k i + charValue k (i + 1) * 2 ^ 8 + charValue k (i + 2) * 2 ^ 16 +
        charValue k (i + 3) * 2 ^ 24) := by
  simp only [charWord_eq, ofInt_shiftLeft, ← BitVec.ofInt_add]

/-- Four bytes of a block are determined by their word. -/
theorem blockWord_inj {k other : Bytes} {i : Nat}
    (same : charWord k i + charWord k (i + 1) <<< 8 + charWord k (i + 2) <<< 16 +
        charWord k (i + 3) <<< 24 =
      charWord other i + charWord other (i + 1) <<< 8 + charWord other (i + 2) <<< 16 +
        charWord other (i + 3) <<< 24) :
    forall j, i ≤ j -> j < i + 4 -> k.getD j 0 = other.getD j 0 := by
  rw [blockWord_eq, blockWord_eq] at same
  rcases digits_eq (charValue_apart _ _ _ _) (charValue_apart _ _ _ _) (charValue_apart _ _ _ _)
    (charValue_apart _ _ _ _) same with ⟨first, second, third, fourth⟩
  intro j least most
  apply getD_eq_of_charValue
  have cases' : j = i ∨ j = i + 1 ∨ j = i + 2 ∨ j = i + 3 := by omega
  rcases cases' with rfl | rfl | rfl | rfl
  · exact first
  · exact second
  · exact third
  · exact fourth

/-- Different blocks change the words differently. -/
theorem addBlock_inj {k other : Bytes} {hashes : Hashes}
    (same : hashes.addBlock k = hashes.addBlock other) :
    forall j, j < 12 -> k.getD j 0 = other.getD j 0 := by
  have words := Hashes.mk.inj same
  have first := blockWord_inj (i := 0) ((BitVec.add_right_inj _).mp words.1)
  have second := blockWord_inj (i := 4) ((BitVec.add_right_inj _).mp words.2.1)
  have third := blockWord_inj (i := 8) ((BitVec.add_right_inj _).mp words.2.2)
  intro j less
  rcases Nat.lt_or_ge j 4 with low | high
  · exact first j (Nat.zero_le j) low
  · rcases Nat.lt_or_ge j 8 with middle | last
    · exact second j high middle
    · exact third j last less

/-- The value of a byte of the rest, zero behind its end. -/
def tailValue (k : Bytes) (i : Nat) : Int :=
  if i < k.length then charValue k i else 0

def tailUnsigned (k : Bytes) (i : Nat) : Int :=
  if i < k.length then ((k.getD i 0).toBitVec.toNat : Int) else 0

theorem tailWord_eq (k : Bytes) (i shift : Nat) :
    tailWord k i (charWord k i <<< shift) = BitVec.ofInt 32 (tailValue k i * 2 ^ shift) := by
  unfold tailWord tailValue
  split_ifs
  · rw [charWord_eq, ofInt_shiftLeft]
  · rw [Int.zero_mul]
    rfl

theorem tailUnsigned_eq (k : Bytes) (i : Nat) :
    tailWord k i (unsignedWord k i) = BitVec.ofInt 32 (tailUnsigned k i) := by
  unfold tailWord tailUnsigned
  split_ifs
  · rw [unsignedWord_eq]
  · rfl

theorem tailValue_bounds (k : Bytes) (i : Nat) : -128 ≤ tailValue k i ∧ tailValue k i ≤ 127 := by
  unfold tailValue
  split_ifs
  · exact charValue_bounds k i
  · omega

theorem tailUnsigned_bounds (k : Bytes) (i : Nat) :
    0 ≤ tailUnsigned k i ∧ tailUnsigned k i ≤ 255 := by
  have bound := (k.getD i 0).toBitVec.isLt
  unfold tailUnsigned
  split_ifs <;> omega

theorem tailValue_apart (k other : Bytes) (i : Nat) :
    -256 < tailValue k i - tailValue other i ∧ tailValue k i - tailValue other i < 256 := by
  have own := tailValue_bounds k i
  have others := tailValue_bounds other i
  omega

theorem tailUnsigned_apart (k other : Bytes) (i : Nat) :
    -256 < tailUnsigned k i - tailUnsigned other i ∧
      tailUnsigned k i - tailUnsigned other i < 256 := by
  have own := tailUnsigned_bounds k i
  have others := tailUnsigned_bounds other i
  omega

theorem getD_eq_of_tailValue {k other : Bytes} {i : Nat} (length : k.length = other.length)
    (inside : i < k.length)
    (same : tailValue k i = tailValue other i) : k.getD i 0 = other.getD i 0 := by
  unfold tailValue at same
  rw [if_pos inside, if_pos (by omega)] at same
  exact getD_eq_of_charValue same

theorem getD_eq_of_tailUnsigned {k other : Bytes} {i : Nat} (length : k.length = other.length)
    (inside : i < k.length) (same : tailUnsigned k i = tailUnsigned other i) :
      k.getD i 0 = other.getD i 0 := by
  unfold tailUnsigned at same
  rw [if_pos inside, if_pos (by omega), Int.natCast_inj] at same
  exact UInt8.toBitVec_inj.mp (BitVec.eq_of_toNat_eq same)

/-- The part of a word that comes from the rest, whose lowest digit is unsigned. -/
theorem tailWords_inj {k other : Bytes} {i : Nat} (length : k.length = other.length)
    {word : BitVec 32}
    (same : word + tailWord k (i + 3) (charWord k (i + 3) <<< 24) + tailWord k (i + 2)
      (charWord k (i + 2) <<< 16) +
        tailWord k (i + 1) (charWord k (i + 1) <<< 8) + tailWord k i (unsignedWord k i) =
      word + tailWord other (i + 3) (charWord other (i + 3) <<< 24) +
        tailWord other (i + 2) (charWord other (i + 2) <<< 16) +
        tailWord other (i + 1) (charWord other (i + 1) <<< 8) + tailWord other i
          (unsignedWord other i)) :
    forall j, i ≤ j -> j < i + 4 -> j < k.length -> k.getD j 0 = other.getD j 0 := by
  simp only [tailWord_eq, tailUnsigned_eq, BitVec.add_assoc, BitVec.add_right_inj,
    ← BitVec.ofInt_add] at same
  have order : forall x0 x1 x2 x3 : Int, x3 * 2 ^ 24 + x2 * 2 ^ 16 + x1 * 2 ^ 8 + x0 =
      x0 + x1 * 2 ^ 8 + x2 * 2 ^ 16 + x3 * 2 ^ 24 := by
    intro x0 x1 x2 x3
    omega
  rw [order, order] at same
  rcases digits_eq (tailUnsigned_apart _ _ _) (tailValue_apart _ _ _) (tailValue_apart _ _ _)
    (tailValue_apart _ _ _) same with ⟨first, second, third, fourth⟩
  intro j least most inside
  have places : j = i ∨ j = i + 1 ∨ j = i + 2 ∨ j = i + 3 := by omega
  rcases places with rfl | rfl | rfl | rfl
  · exact getD_eq_of_tailUnsigned length inside first
  · exact getD_eq_of_tailValue length inside second
  · exact getD_eq_of_tailValue length inside third
  · exact getD_eq_of_tailValue length inside fourth

/-- Different rests of the same length change the words differently. -/
theorem addTail_inj {k other : Bytes} {hashes : Hashes} {total : Nat}
    (length : k.length = other.length) (short : k.length < 12)
    (same : hashes.addTail k total = hashes.addTail other total) :
      k = other := by
  have words := Hashes.mk.inj same
  have first := tailWords_inj (i := 0) length words.1
  have second := tailWords_inj (i := 4) length words.2.1
  have third : forall j, 8 ≤ j -> j < k.length -> k.getD j 0 = other.getD j 0 := by
    have last := words.2.2
    simp only [tailWord_eq, BitVec.add_assoc, BitVec.add_right_inj, ← BitVec.ofInt_add] at last
    have order : forall x1 x2 x3 : Int, x3 * 2 ^ 24 + x2 * 2 ^ 16 + x1 * 2 ^ 8 =
        0 + x1 * 2 ^ 8 + x2 * 2 ^ 16 + x3 * 2 ^ 24 := by
      intro x1 x2 x3
      omega
    rw [order, order] at last
    rcases digits_eq (by omega) (tailValue_apart _ _ _) (tailValue_apart _ _ _)
      (tailValue_apart _ _ _) last with
      ⟨-, eighth, ninth, tenth⟩
    intro j least inside
    have places : j = 8 ∨ j = 9 ∨ j = 10 ∨ j = 11 := by omega
    rcases places with rfl | rfl | rfl | rfl
    · exact getD_eq_of_tailValue length inside eighth
    · exact getD_eq_of_tailValue length inside ninth
    · exact getD_eq_of_tailValue length inside tenth
    · omega
  apply List.ext_getElem length
  intro j inside otherInside
  have entry : k.getD j 0 = other.getD j 0 := by
    rcases Nat.lt_or_ge j 4 with low | high
    · exact first j (Nat.zero_le j) low inside
    · rcases Nat.lt_or_ge j 8 with middle | last
      · exact second j high middle inside
      · exact third j last inside
  rwa [List.getD_eq_getElem?_getD, List.getD_eq_getElem?_getD, List.getElem?_eq_getElem inside,
    List.getElem?_eq_getElem otherInside, Option.getD_some, Option.getD_some] at entry

/-! ## Seeds and blocks -/

theorem addBlock_right_inj (k : Bytes) :
    Function.Injective (fun hashes : Hashes => hashes.addBlock k) := by
  rintro ⟨a, b, c⟩ ⟨a', b', c'⟩ same
  have words := Hashes.mk.inj same
  simp only [BitVec.add_left_inj] at words
  rw [words.1, words.2.1, words.2.2]

theorem addTail_right_inj (k : Bytes) (total : Nat) :
    Function.Injective (fun hashes : Hashes => hashes.addTail k total) := by
  rintro ⟨a, b, c⟩ ⟨a', b', c'⟩ same
  have words := Hashes.mk.inj same
  simp only [BitVec.add_left_inj] at words
  rw [words.1, words.2.1, words.2.2]

theorem hashBlocks_short {k : Bytes} (short : k.length < 12) (hashes : Hashes) :
    hashBlocks k hashes = (k, hashes) := by
  rw [hashBlocks, if_neg (Nat.not_le.mpr short)]

theorem hashBlocks_long {k : Bytes} (long : 12 ≤ k.length) (hashes : Hashes) :
    hashBlocks k hashes = hashBlocks (k.drop 12) (mix (hashes.addBlock k)) := by
  rw [hashBlocks, if_pos long]

/-- The loop takes as much from a key whatever the words are, and keeps
different words different. -/
theorem hashBlocks_inj (k : Bytes) (first second : Hashes) :
    (hashBlocks k first).1 = (hashBlocks k second).1 ∧
      ((hashBlocks k first).2 = (hashBlocks k second).2 -> first = second) := by
  by_cases long : 12 ≤ k.length
  · rw [hashBlocks_long long, hashBlocks_long long]
    have rest := hashBlocks_inj (k.drop 12) (mix (first.addBlock k)) (mix (second.addBlock k))
    exact ⟨rest.1, fun same => addBlock_right_inj k (mix_bijective.injective (rest.2 same))⟩
  · rw [hashBlocks_short (Nat.not_le.mp long), hashBlocks_short (Nat.not_le.mp long)]
    exact ⟨rfl, fun same => same⟩
  termination_by k.length
  decreasing_by
    rw [List.length_drop]
    omega

/-- Words that differ after some blocks of a key differ in the end. -/
theorem finish_inj (k : Bytes) (total : Nat) {first second : Hashes}
    (same : mix ((hashBlocks k first).2.addTail (hashBlocks k first).1 total) =
      mix ((hashBlocks k second).2.addTail (hashBlocks k second).1 total)) : first = second := by
  rcases hashBlocks_inj k first second with ⟨rests, inj⟩
  rw [rests] at same
  exact inj (addTail_right_inj _ total (mix_bijective.injective same))

/-- A new seed changes the words of every key. -/
theorem jenkinsHashVector_seed_inj (k : Bytes) :
    Function.Injective (fun seed => jenkinsHashVector seed k) := by
  intro first second same
  exact (Hashes.mk.inj (finish_inj k k.length same)).2.2

/-- One whole block. -/
theorem hashBlocks_block {k : Bytes} (full : k.length = 12) (hashes : Hashes) :
    (hashBlocks k hashes).2 = mix (hashes.addBlock k) := by
  rw [hashBlocks_long (Nat.le_of_eq full.symm), hashBlocks_short (by rw [List.length_drop]; omega)]

theorem hashBlocks_append (before : Bytes) (whole : 12 ∣ before.length) (k : Bytes)
    (hashes : Hashes) :
    hashBlocks (before ++ k) hashes = hashBlocks k (hashBlocks before hashes).2 := by
  rcases whole with ⟨blocks, length⟩
  induction blocks generalizing before hashes with
  | zero =>
      rw [List.eq_nil_of_length_eq_zero length, hashBlocks_short (k := []) (Nat.zero_lt_succ 11),
        List.nil_append]
  | succ blocks ih =>
      have long : 12 ≤ before.length := by omega
      have block : hashes.addBlock (before ++ k) = hashes.addBlock before := by
        have entry : forall i, i < 12 -> (before ++ k).getD i 0 = before.getD i 0 := by
          intro i inside
          rw [List.getD_eq_getElem?_getD, List.getD_eq_getElem?_getD,
            List.getElem?_append_left (by omega)]
        simp only [Hashes.addBlock, charWord, entry, Nat.reduceLT]
      rw [hashBlocks_long (by rw [List.length_append]; omega), hashBlocks_long long, block,
        List.drop_append_of_le_length long]
      exact ih _ _ (by rw [List.length_drop]; omega)

/-- Keys of the same length that differ within one of their blocks only, the
rest of a key being the last block, differ in their words for every seed. -/
theorem jenkinsHashVector_block_ne (seed : BitVec 32) (before block other after : Bytes)
    (whole : 12 ∣ before.length) (length : block.length = other.length)
    (aligned : block.length = 12 ∨ (block.length < 12 ∧ after = [])) (different : block ≠ other) :
    jenkinsHashVector seed (before ++ block ++ after) ≠
      jenkinsHashVector seed (before ++ other ++ after) := by
  intro same
  apply different
  unfold jenkinsHashVector at same
  have total : (before ++ other ++ after).length = (before ++ block ++ after).length := by
    simp only [List.length_append, length]
  rw [total, List.append_assoc, List.append_assoc, hashBlocks_append _ whole,
    hashBlocks_append _ whole] at same
  generalize (hashBlocks before ⟨0x9e3779b9#32, 0x9e3779b9#32, seed⟩).2 = hashes at same
  rcases aligned with full | ⟨short, rfl⟩
  · rw [hashBlocks_append block (by omega), hashBlocks_append other (by omega)] at same
    have blocks := finish_inj after _ same
    rw [hashBlocks_block full, hashBlocks_block (by omega)] at blocks
    have entries := addBlock_inj (mix_bijective.injective blocks)
    apply List.ext_getElem length
    intro j inside otherInside
    have entry := entries j (by omega)
    rwa [List.getD_eq_getElem?_getD, List.getD_eq_getElem?_getD, List.getElem?_eq_getElem inside,
      List.getElem?_eq_getElem otherInside, Option.getD_some, Option.getD_some] at entry
  · rw [List.append_nil, List.append_nil, hashBlocks_short short,
      hashBlocks_short (by omega)] at same
    exact addTail_inj length short (mix_bijective.injective same)

/-- Two names of thirteen bytes that differ in the last one. -/
theorem jenkinsHashVector_block_ne_page :
    jenkinsHashVector 7#32 (ascii "index-page-1" ++ ascii "." ++ []) ≠
      jenkinsHashVector 7#32 (ascii "index-page-1" ++ ascii "," ++ []) :=
  jenkinsHashVector_block_ne 7#32 (ascii "index-page-1") (ascii ".") (ascii ",") [] (by decide)
    (by decide) (by decide) (by decide)

end Hash
end Johnny
