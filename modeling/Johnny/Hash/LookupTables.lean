import Johnny.Library.Bits

namespace Johnny
namespace Hash

open Library

/-!
# Lookup tables of the select structure

`select_lookup_tables.h`: for every byte the number of its set bits and the
positions of its set bits, padded with 255.
-/

def rankLookupTable : List Nat := [
  0, 1, 1, 2, 1, 2, 2, 3, 1, 2, 2, 3, 2, 3, 3, 4, 1, 2, 2, 3, 2, 3, 3, 4, 2, 3, 3, 4, 3, 4, 4, 5,
  1, 2, 2, 3, 2, 3, 3, 4, 2, 3, 3, 4, 3, 4, 4, 5, 2, 3, 3, 4, 3, 4, 4, 5, 3, 4, 4, 5, 4, 5, 5, 6,
  1, 2, 2, 3, 2, 3, 3, 4, 2, 3, 3, 4, 3, 4, 4, 5, 2, 3, 3, 4, 3, 4, 4, 5, 3, 4, 4, 5, 4, 5, 5, 6,
  2, 3, 3, 4, 3, 4, 4, 5, 3, 4, 4, 5, 4, 5, 5, 6, 3, 4, 4, 5, 4, 5, 5, 6, 4, 5, 5, 6, 5, 6, 6, 7,
  1, 2, 2, 3, 2, 3, 3, 4, 2, 3, 3, 4, 3, 4, 4, 5, 2, 3, 3, 4, 3, 4, 4, 5, 3, 4, 4, 5, 4, 5, 5, 6,
  2, 3, 3, 4, 3, 4, 4, 5, 3, 4, 4, 5, 4, 5, 5, 6, 3, 4, 4, 5, 4, 5, 5, 6, 4, 5, 5, 6, 5, 6, 6, 7,
  2, 3, 3, 4, 3, 4, 4, 5, 3, 4, 4, 5, 4, 5, 5, 6, 3, 4, 4, 5, 4, 5, 5, 6, 4, 5, 5, 6, 5, 6, 6, 7,
  3, 4, 4, 5, 4, 5, 5, 6, 4, 5, 5, 6, 5, 6, 6, 7, 4, 5, 5, 6, 5, 6, 6, 7, 5, 6, 6, 7, 6, 7, 7, 8]

def selectLookupTable : List (List Nat) := [
  [255, 255, 255, 255, 255, 255, 255, 255], [0, 255, 255, 255, 255, 255, 255, 255],
  [1, 255, 255, 255, 255, 255, 255, 255], [0, 1, 255, 255, 255, 255, 255, 255],
  [2, 255, 255, 255, 255, 255, 255, 255], [0, 2, 255, 255, 255, 255, 255, 255],
  [1, 2, 255, 255, 255, 255, 255, 255], [0, 1, 2, 255, 255, 255, 255, 255],
  [3, 255, 255, 255, 255, 255, 255, 255], [0, 3, 255, 255, 255, 255, 255, 255],
  [1, 3, 255, 255, 255, 255, 255, 255], [0, 1, 3, 255, 255, 255, 255, 255],
  [2, 3, 255, 255, 255, 255, 255, 255], [0, 2, 3, 255, 255, 255, 255, 255],
  [1, 2, 3, 255, 255, 255, 255, 255], [0, 1, 2, 3, 255, 255, 255, 255],
  [4, 255, 255, 255, 255, 255, 255, 255], [0, 4, 255, 255, 255, 255, 255, 255],
  [1, 4, 255, 255, 255, 255, 255, 255], [0, 1, 4, 255, 255, 255, 255, 255],
  [2, 4, 255, 255, 255, 255, 255, 255], [0, 2, 4, 255, 255, 255, 255, 255],
  [1, 2, 4, 255, 255, 255, 255, 255], [0, 1, 2, 4, 255, 255, 255, 255],
  [3, 4, 255, 255, 255, 255, 255, 255], [0, 3, 4, 255, 255, 255, 255, 255],
  [1, 3, 4, 255, 255, 255, 255, 255], [0, 1, 3, 4, 255, 255, 255, 255],
  [2, 3, 4, 255, 255, 255, 255, 255], [0, 2, 3, 4, 255, 255, 255, 255],
  [1, 2, 3, 4, 255, 255, 255, 255], [0, 1, 2, 3, 4, 255, 255, 255],
  [5, 255, 255, 255, 255, 255, 255, 255], [0, 5, 255, 255, 255, 255, 255, 255],
  [1, 5, 255, 255, 255, 255, 255, 255], [0, 1, 5, 255, 255, 255, 255, 255],
  [2, 5, 255, 255, 255, 255, 255, 255], [0, 2, 5, 255, 255, 255, 255, 255],
  [1, 2, 5, 255, 255, 255, 255, 255], [0, 1, 2, 5, 255, 255, 255, 255],
  [3, 5, 255, 255, 255, 255, 255, 255], [0, 3, 5, 255, 255, 255, 255, 255],
  [1, 3, 5, 255, 255, 255, 255, 255], [0, 1, 3, 5, 255, 255, 255, 255],
  [2, 3, 5, 255, 255, 255, 255, 255], [0, 2, 3, 5, 255, 255, 255, 255],
  [1, 2, 3, 5, 255, 255, 255, 255], [0, 1, 2, 3, 5, 255, 255, 255],
  [4, 5, 255, 255, 255, 255, 255, 255], [0, 4, 5, 255, 255, 255, 255, 255],
  [1, 4, 5, 255, 255, 255, 255, 255], [0, 1, 4, 5, 255, 255, 255, 255],
  [2, 4, 5, 255, 255, 255, 255, 255], [0, 2, 4, 5, 255, 255, 255, 255],
  [1, 2, 4, 5, 255, 255, 255, 255], [0, 1, 2, 4, 5, 255, 255, 255],
  [3, 4, 5, 255, 255, 255, 255, 255], [0, 3, 4, 5, 255, 255, 255, 255],
  [1, 3, 4, 5, 255, 255, 255, 255], [0, 1, 3, 4, 5, 255, 255, 255],
  [2, 3, 4, 5, 255, 255, 255, 255], [0, 2, 3, 4, 5, 255, 255, 255],
  [1, 2, 3, 4, 5, 255, 255, 255], [0, 1, 2, 3, 4, 5, 255, 255],
  [6, 255, 255, 255, 255, 255, 255, 255], [0, 6, 255, 255, 255, 255, 255, 255],
  [1, 6, 255, 255, 255, 255, 255, 255], [0, 1, 6, 255, 255, 255, 255, 255],
  [2, 6, 255, 255, 255, 255, 255, 255], [0, 2, 6, 255, 255, 255, 255, 255],
  [1, 2, 6, 255, 255, 255, 255, 255], [0, 1, 2, 6, 255, 255, 255, 255],
  [3, 6, 255, 255, 255, 255, 255, 255], [0, 3, 6, 255, 255, 255, 255, 255],
  [1, 3, 6, 255, 255, 255, 255, 255], [0, 1, 3, 6, 255, 255, 255, 255],
  [2, 3, 6, 255, 255, 255, 255, 255], [0, 2, 3, 6, 255, 255, 255, 255],
  [1, 2, 3, 6, 255, 255, 255, 255], [0, 1, 2, 3, 6, 255, 255, 255],
  [4, 6, 255, 255, 255, 255, 255, 255], [0, 4, 6, 255, 255, 255, 255, 255],
  [1, 4, 6, 255, 255, 255, 255, 255], [0, 1, 4, 6, 255, 255, 255, 255],
  [2, 4, 6, 255, 255, 255, 255, 255], [0, 2, 4, 6, 255, 255, 255, 255],
  [1, 2, 4, 6, 255, 255, 255, 255], [0, 1, 2, 4, 6, 255, 255, 255],
  [3, 4, 6, 255, 255, 255, 255, 255], [0, 3, 4, 6, 255, 255, 255, 255],
  [1, 3, 4, 6, 255, 255, 255, 255], [0, 1, 3, 4, 6, 255, 255, 255],
  [2, 3, 4, 6, 255, 255, 255, 255], [0, 2, 3, 4, 6, 255, 255, 255],
  [1, 2, 3, 4, 6, 255, 255, 255], [0, 1, 2, 3, 4, 6, 255, 255],
  [5, 6, 255, 255, 255, 255, 255, 255], [0, 5, 6, 255, 255, 255, 255, 255],
  [1, 5, 6, 255, 255, 255, 255, 255], [0, 1, 5, 6, 255, 255, 255, 255],
  [2, 5, 6, 255, 255, 255, 255, 255], [0, 2, 5, 6, 255, 255, 255, 255],
  [1, 2, 5, 6, 255, 255, 255, 255], [0, 1, 2, 5, 6, 255, 255, 255],
  [3, 5, 6, 255, 255, 255, 255, 255], [0, 3, 5, 6, 255, 255, 255, 255],
  [1, 3, 5, 6, 255, 255, 255, 255], [0, 1, 3, 5, 6, 255, 255, 255],
  [2, 3, 5, 6, 255, 255, 255, 255], [0, 2, 3, 5, 6, 255, 255, 255],
  [1, 2, 3, 5, 6, 255, 255, 255], [0, 1, 2, 3, 5, 6, 255, 255],
  [4, 5, 6, 255, 255, 255, 255, 255], [0, 4, 5, 6, 255, 255, 255, 255],
  [1, 4, 5, 6, 255, 255, 255, 255], [0, 1, 4, 5, 6, 255, 255, 255],
  [2, 4, 5, 6, 255, 255, 255, 255], [0, 2, 4, 5, 6, 255, 255, 255],
  [1, 2, 4, 5, 6, 255, 255, 255], [0, 1, 2, 4, 5, 6, 255, 255],
  [3, 4, 5, 6, 255, 255, 255, 255], [0, 3, 4, 5, 6, 255, 255, 255],
  [1, 3, 4, 5, 6, 255, 255, 255], [0, 1, 3, 4, 5, 6, 255, 255],
  [2, 3, 4, 5, 6, 255, 255, 255], [0, 2, 3, 4, 5, 6, 255, 255],
  [1, 2, 3, 4, 5, 6, 255, 255], [0, 1, 2, 3, 4, 5, 6, 255],
  [7, 255, 255, 255, 255, 255, 255, 255], [0, 7, 255, 255, 255, 255, 255, 255],
  [1, 7, 255, 255, 255, 255, 255, 255], [0, 1, 7, 255, 255, 255, 255, 255],
  [2, 7, 255, 255, 255, 255, 255, 255], [0, 2, 7, 255, 255, 255, 255, 255],
  [1, 2, 7, 255, 255, 255, 255, 255], [0, 1, 2, 7, 255, 255, 255, 255],
  [3, 7, 255, 255, 255, 255, 255, 255], [0, 3, 7, 255, 255, 255, 255, 255],
  [1, 3, 7, 255, 255, 255, 255, 255], [0, 1, 3, 7, 255, 255, 255, 255],
  [2, 3, 7, 255, 255, 255, 255, 255], [0, 2, 3, 7, 255, 255, 255, 255],
  [1, 2, 3, 7, 255, 255, 255, 255], [0, 1, 2, 3, 7, 255, 255, 255],
  [4, 7, 255, 255, 255, 255, 255, 255], [0, 4, 7, 255, 255, 255, 255, 255],
  [1, 4, 7, 255, 255, 255, 255, 255], [0, 1, 4, 7, 255, 255, 255, 255],
  [2, 4, 7, 255, 255, 255, 255, 255], [0, 2, 4, 7, 255, 255, 255, 255],
  [1, 2, 4, 7, 255, 255, 255, 255], [0, 1, 2, 4, 7, 255, 255, 255],
  [3, 4, 7, 255, 255, 255, 255, 255], [0, 3, 4, 7, 255, 255, 255, 255],
  [1, 3, 4, 7, 255, 255, 255, 255], [0, 1, 3, 4, 7, 255, 255, 255],
  [2, 3, 4, 7, 255, 255, 255, 255], [0, 2, 3, 4, 7, 255, 255, 255],
  [1, 2, 3, 4, 7, 255, 255, 255], [0, 1, 2, 3, 4, 7, 255, 255],
  [5, 7, 255, 255, 255, 255, 255, 255], [0, 5, 7, 255, 255, 255, 255, 255],
  [1, 5, 7, 255, 255, 255, 255, 255], [0, 1, 5, 7, 255, 255, 255, 255],
  [2, 5, 7, 255, 255, 255, 255, 255], [0, 2, 5, 7, 255, 255, 255, 255],
  [1, 2, 5, 7, 255, 255, 255, 255], [0, 1, 2, 5, 7, 255, 255, 255],
  [3, 5, 7, 255, 255, 255, 255, 255], [0, 3, 5, 7, 255, 255, 255, 255],
  [1, 3, 5, 7, 255, 255, 255, 255], [0, 1, 3, 5, 7, 255, 255, 255],
  [2, 3, 5, 7, 255, 255, 255, 255], [0, 2, 3, 5, 7, 255, 255, 255],
  [1, 2, 3, 5, 7, 255, 255, 255], [0, 1, 2, 3, 5, 7, 255, 255],
  [4, 5, 7, 255, 255, 255, 255, 255], [0, 4, 5, 7, 255, 255, 255, 255],
  [1, 4, 5, 7, 255, 255, 255, 255], [0, 1, 4, 5, 7, 255, 255, 255],
  [2, 4, 5, 7, 255, 255, 255, 255], [0, 2, 4, 5, 7, 255, 255, 255],
  [1, 2, 4, 5, 7, 255, 255, 255], [0, 1, 2, 4, 5, 7, 255, 255],
  [3, 4, 5, 7, 255, 255, 255, 255], [0, 3, 4, 5, 7, 255, 255, 255],
  [1, 3, 4, 5, 7, 255, 255, 255], [0, 1, 3, 4, 5, 7, 255, 255],
  [2, 3, 4, 5, 7, 255, 255, 255], [0, 2, 3, 4, 5, 7, 255, 255],
  [1, 2, 3, 4, 5, 7, 255, 255], [0, 1, 2, 3, 4, 5, 7, 255],
  [6, 7, 255, 255, 255, 255, 255, 255], [0, 6, 7, 255, 255, 255, 255, 255],
  [1, 6, 7, 255, 255, 255, 255, 255], [0, 1, 6, 7, 255, 255, 255, 255],
  [2, 6, 7, 255, 255, 255, 255, 255], [0, 2, 6, 7, 255, 255, 255, 255],
  [1, 2, 6, 7, 255, 255, 255, 255], [0, 1, 2, 6, 7, 255, 255, 255],
  [3, 6, 7, 255, 255, 255, 255, 255], [0, 3, 6, 7, 255, 255, 255, 255],
  [1, 3, 6, 7, 255, 255, 255, 255], [0, 1, 3, 6, 7, 255, 255, 255],
  [2, 3, 6, 7, 255, 255, 255, 255], [0, 2, 3, 6, 7, 255, 255, 255],
  [1, 2, 3, 6, 7, 255, 255, 255], [0, 1, 2, 3, 6, 7, 255, 255],
  [4, 6, 7, 255, 255, 255, 255, 255], [0, 4, 6, 7, 255, 255, 255, 255],
  [1, 4, 6, 7, 255, 255, 255, 255], [0, 1, 4, 6, 7, 255, 255, 255],
  [2, 4, 6, 7, 255, 255, 255, 255], [0, 2, 4, 6, 7, 255, 255, 255],
  [1, 2, 4, 6, 7, 255, 255, 255], [0, 1, 2, 4, 6, 7, 255, 255],
  [3, 4, 6, 7, 255, 255, 255, 255], [0, 3, 4, 6, 7, 255, 255, 255],
  [1, 3, 4, 6, 7, 255, 255, 255], [0, 1, 3, 4, 6, 7, 255, 255],
  [2, 3, 4, 6, 7, 255, 255, 255], [0, 2, 3, 4, 6, 7, 255, 255],
  [1, 2, 3, 4, 6, 7, 255, 255], [0, 1, 2, 3, 4, 6, 7, 255],
  [5, 6, 7, 255, 255, 255, 255, 255], [0, 5, 6, 7, 255, 255, 255, 255],
  [1, 5, 6, 7, 255, 255, 255, 255], [0, 1, 5, 6, 7, 255, 255, 255],
  [2, 5, 6, 7, 255, 255, 255, 255], [0, 2, 5, 6, 7, 255, 255, 255],
  [1, 2, 5, 6, 7, 255, 255, 255], [0, 1, 2, 5, 6, 7, 255, 255],
  [3, 5, 6, 7, 255, 255, 255, 255], [0, 3, 5, 6, 7, 255, 255, 255],
  [1, 3, 5, 6, 7, 255, 255, 255], [0, 1, 3, 5, 6, 7, 255, 255],
  [2, 3, 5, 6, 7, 255, 255, 255], [0, 2, 3, 5, 6, 7, 255, 255],
  [1, 2, 3, 5, 6, 7, 255, 255], [0, 1, 2, 3, 5, 6, 7, 255],
  [4, 5, 6, 7, 255, 255, 255, 255], [0, 4, 5, 6, 7, 255, 255, 255],
  [1, 4, 5, 6, 7, 255, 255, 255], [0, 1, 4, 5, 6, 7, 255, 255],
  [2, 4, 5, 6, 7, 255, 255, 255], [0, 2, 4, 5, 6, 7, 255, 255],
  [1, 2, 4, 5, 6, 7, 255, 255], [0, 1, 2, 4, 5, 6, 7, 255],
  [3, 4, 5, 6, 7, 255, 255, 255], [0, 3, 4, 5, 6, 7, 255, 255],
  [1, 3, 4, 5, 6, 7, 255, 255], [0, 1, 3, 4, 5, 6, 7, 255],
  [2, 3, 4, 5, 6, 7, 255, 255], [0, 2, 3, 4, 5, 6, 7, 255],
  [1, 2, 3, 4, 5, 6, 7, 255], [0, 1, 2, 3, 4, 5, 6, 7]]

/-- `rank_lookup_table[byte]`. -/
def rankLookup (byte : BitVec 8) : Nat :=
  rankLookupTable.getD byte.toNat 0

/-- `select_lookup_table[byte][j]`. -/
def selectLookup (byte : BitVec 8) (j : Nat) : Option Nat :=
  (selectLookupTable.getD byte.toNat [])[j]?

theorem rankLookup_eq : forall byte, rankLookup byte = byteRank byte 8 := by
  decide +kernel

/-- Masked to its lower bits, a byte gives the number of those that are set. -/
theorem rankLookup_lowMask {k : Nat} (inside : k < 8) (byte : BitVec 8) :
    rankLookup (byte &&& lowMask 8 k) = byteRank byte k := by
  have table : forall k : Fin 8, forall byte : BitVec 8,
      rankLookup (byte &&& lowMask 8 k.val) = byteRank byte k.val := by
    decide +kernel
  exact table ⟨k, inside⟩ byte

/-- The set bits of a byte are found by their number. -/
theorem selectLookup_eq : forall byte j, j < byteRank byte 8 ->
    Exists fun place => selectLookup byte j = some place ∧ place < 8 ∧ byte.getLsbD place = true ∧
      byteRank byte place = j := by
  have table : forall byte : BitVec 8, forall j : Fin 8, j.val < byteRank byte 8 ->
      (selectLookup byte j.val).any (fun place =>
        decide (place < 8) && byte.getLsbD place && decide (byteRank byte place = j.val)) =
          true := by
    decide +kernel
  intro byte j less
  have most : byteRank byte 8 ≤ 8 := Nat.count_le _
  have found := table byte ⟨j, by omega⟩ less
  rcases (Option.any_eq_true ..).mp found with ⟨place, entry, holds⟩
  simp only [Bool.and_eq_true, decide_eq_true_eq] at holds
  exact ⟨place, entry, holds.1.1, holds.1.2, holds.2⟩

end Hash
end Johnny
