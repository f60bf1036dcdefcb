import Johnny.Library.Bits
import Mathlib.Data.List.Sort
import Mathlib.Data.Finset.Card

namespace Johnny
namespace Library

/-!
# Rank and select

A table of words whose set bits are at known increasing positions answers two
questions: how many set bits lie before a position, and where the set bit of a
given number is.  A nondecreasing list of numbers is written in unary by setting
one bit for each of them, the `j`-th number `key` at position `key + j`.
-/

variable {w : Nat}

/-- The positions of the set bits of a table in increasing order. -/
structure Enumerates (words : List (BitVec w)) (positions : List Nat) : Prop where
  increasing : positions.Pairwise (fun first second => first < second)
  exactly : forall i, bitOf words i = true <-> i ∈ positions

namespace Enumerates

variable {words : List (BitVec w)} {positions : List Nat}

theorem set (enumerates : Enumerates words positions) {j : Nat} (inside : j < positions.length) :
    bitOf words positions[j] = true :=
  (enumerates.exactly _).mpr (List.getElem_mem inside)

/-- The entries below the `j`-th position are the `j` first ones. -/
theorem mem_take_iff (enumerates : Enumerates words positions) {j : Nat}
    (inside : j < positions.length) (i : Nat) :
    i ∈ positions.take j <-> i ∈ positions ∧ i < positions[j] := by
  have ordered := List.pairwise_iff_getElem.mp enumerates.increasing
  constructor
  · intro member
    rcases List.mem_take_iff_getElem.mp member with ⟨k, bound, rfl⟩
    exact ⟨List.getElem_mem _, ordered k j _ inside (by omega)⟩
  · rintro ⟨member, less⟩
    rcases List.mem_iff_getElem.mp member with ⟨k, bound, rfl⟩
    apply List.mem_take_iff_getElem.mpr
    refine ⟨k, ?_, rfl⟩
    by_contra far
    rcases Nat.lt_or_eq_of_le (by omega : j ≤ k) with later | same
    · have above := ordered j k inside bound later
      omega
    · subst same
      exact Nat.lt_irrefl _ less

/-- Before the `j`-th set bit there are `j` set bits. -/
theorem rankOf_getElem (enumerates : Enumerates words positions) {j : Nat}
    (inside : j < positions.length) : rankOf words positions[j] = j := by
  have same : (Finset.range positions[j]).filter (fun i => bitOf words i = true) =
      (positions.take j).toFinset := by
    ext i
    rw [Finset.mem_filter, Finset.mem_range, List.mem_toFinset, enumerates.mem_take_iff inside,
      enumerates.exactly]
    exact And.comm
  have distinct : (positions.take j).Nodup :=
    (enumerates.increasing.imp (fun less => Nat.ne_of_lt less)).sublist
      (List.take_sublist j positions)
  unfold rankOf
  rw [Nat.count_eq_card_filter_range, same, List.toFinset_card_of_nodup distinct, List.length_take,
    Nat.min_eq_left (Nat.le_of_lt inside)]

end Enumerates

def unaryPositions (keys : List Nat) : List Nat :=
  keys.mapIdx (fun j key => key + j)

@[simp] theorem unaryPositions_length (keys : List Nat) :
    (unaryPositions keys).length = keys.length :=
  List.length_mapIdx

@[simp] theorem unaryPositions_getElem {keys : List Nat} {j : Nat}
    (inside : j < (unaryPositions keys).length) :
    (unaryPositions keys)[j] = keys.get ⟨j, by simpa using inside⟩ + j :=
  List.getElem_mapIdx

theorem mem_unaryPositions {keys : List Nat} {i : Nat} :
    i ∈ unaryPositions keys <-> Exists fun j => Exists fun inside : j < keys.length =>
      keys[j] + j = i := by
  rw [List.mem_iff_getElem]
  simp

theorem unaryPositions_increasing {keys : List Nat}
    (sorted : keys.Pairwise (fun first second => first ≤ second)) :
    (unaryPositions keys).Pairwise (fun first second => first < second) := by
  apply List.pairwise_iff_getElem.mpr
  intro i j inFirst inSecond less
  have le := List.pairwise_iff_getElem.mp sorted i j (by simpa using inFirst)
    (by simpa using inSecond) less
  simp only [unaryPositions_getElem, List.get_eq_getElem]
  omega

/-! ## Ranks in a sorted list -/

/-- In a sorted list the entries below a bound come first, and the rank of the
bound is their number. -/
theorem lt_countP_iff {vals : List Nat}
    (sorted : vals.Pairwise (fun first second => first ≤ second)) {k : Nat}
    (inside : k < vals.length) (bound : Nat) :
    k < vals.countP (fun val => decide (val < bound)) <-> vals[k] < bound := by
  induction vals generalizing k with
  | nil => exact absurd inside (Nat.not_lt_zero k)
  | cons first rest ih =>
      rcases List.pairwise_cons.mp sorted with ⟨least, restSorted⟩
      rw [List.countP_cons]
      by_cases below : first < bound
      · rw [if_pos (decide_eq_true below)]
        rcases k with - | k
        · simp [below]
        · rw [List.length_cons] at inside
          rw [Nat.add_lt_add_iff_right, ih restSorted (by omega), List.getElem_cons_succ]
      · have none : rest.countP (fun val => decide (val < bound)) = 0 := by
          apply List.countP_eq_zero.mpr
          intro val member
          have above := least val member
          simp only [decide_eq_true_eq]
          omega
        have own : first ≤ (first :: rest)[k] := by
          rcases k with - | k
          · exact Nat.le_refl _
          · exact least _ (List.getElem_mem _)
        rw [none]
        simp only [below, decide_false, Bool.false_eq_true, if_false]
        omega

/-- The rank of a bound is where the entries stop being below it. -/
theorem countP_eq_iff {vals : List Nat}
    (sorted : vals.Pairwise (fun first second => first ≤ second)) {k : Nat}
    (inside : k ≤ vals.length) (bound : Nat) :
    vals.countP (fun val => decide (val < bound)) = k <->
      (forall j, (less : j < k) -> vals[j] < bound) ∧ forall less :
        k < vals.length, bound ≤ vals[k] := by
  have most := List.countP_le_length (p := fun val => decide (val < bound)) (l := vals)
  constructor
  · rintro rfl
    refine ⟨fun j less => (lt_countP_iff sorted (by omega) bound).mp less, fun less => ?_⟩
    by_contra below
    have more := (lt_countP_iff sorted less bound).mpr (Nat.not_le.mp below)
    exact Nat.lt_irrefl _ more
  · rintro ⟨below, above⟩
    apply Nat.le_antisymm
    · by_contra far
      have less : k < vals.length := by omega
      have more := (lt_countP_iff sorted less bound).mp (Nat.not_le.mp far)
      have least := above less
      omega
    · by_contra near
      have less := Nat.not_le.mp near
      have more := (lt_countP_iff sorted (by omega) bound).mpr (below _ less)
      exact Nat.lt_irrefl _ more

end Library
end Johnny
