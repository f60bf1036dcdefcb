import Johnny.Library.Loop
import Mathlib.Algebra.BigOperators.Intervals
import Mathlib.Algebra.Order.BigOperators.Group.Finset

namespace Johnny
namespace Library

/-!
# Tables in parts

A counting sort keeps several lists in one table.  It counts how long each list
will be, lets every list start where the one before it ends, and then fills the
lists in any order.  An entry that is written at the end of one list does not
touch the others.
-/

universe u

variable {A : Type u}

/-- `table[k] = entry`. -/
def writeAt (table : List A) (k : Nat) (entry : A) : Option (List A) :=
  if k < table.length then some (table.set k entry) else none

theorem writeAt_eq_some {table : List A} {k : Nat} (inside : k < table.length) (entry : A) :
    writeAt table k entry = some (table.set k entry) :=
  if_pos inside

/-- A list stands in a table from a place on. -/
def Segment (table : List A) (start : Nat) (content : List A) : Prop :=
  forall k, (inside : k < content.length) -> table[start + k]? = some content[k]

namespace Segment

variable {table : List A} {start : Nat} {content : List A}

theorem nil (table : List A) (start : Nat) : Segment table start [] :=
  fun _ inside => absurd inside (Nat.not_lt_zero _)

theorem set_outside (segment : Segment table start content) {place : Nat}
    (outside : place < start ∨ start + content.length ≤ place) (entry : A) :
    Segment (table.set place entry) start content := by
  intro k inside
  rw [List.getElem?_set_ne (by omega)]
  exact segment k inside

theorem concat (segment : Segment table start content)
    (room : start + content.length < table.length) (entry : A) :
    Segment (table.set (start + content.length) entry) start (content ++ [entry]) := by
  intro k inside
  rw [List.length_append, List.length_singleton] at inside
  by_cases last : k = content.length
  · subst last
    rw [List.getElem?_set_self room, List.getElem_concat_length rfl]
  · have earlier : k < content.length := by omega
    rw [List.getElem?_set_ne (by omega), segment k earlier, List.getElem_append_left earlier]

theorem append {more : List A} (segment : Segment table start content)
    (behind : Segment table (start + content.length) more) :
      Segment table start (content ++ more) := by
  intro k inside
  by_cases earlier : k < content.length
  · rw [segment k earlier, List.getElem_append_left earlier]
  · rw [List.length_append] at inside
    have entry := behind (k - content.length) (by omega)
    rw [show start + content.length + (k - content.length) = start + k by omega] at entry
    rw [entry, List.getElem_append_right (Nat.not_lt.mp earlier)]

theorem append_table (segment : Segment table start content) (behind : List A) :
    Segment (table ++ behind) start content := by
  intro k inside
  have entry := segment k inside
  rw [List.getElem?_append_left (List.getElem?_eq_some_iff.mp entry).1, entry]

theorem at_end (before content : List A) : Segment (before ++ content) before.length content := by
  intro k inside
  rw [List.getElem?_append_right (Nat.le_add_right _ _), Nat.add_sub_cancel_left,
    List.getElem?_eq_getElem inside]

/-- A part of a list stands where the list stands. -/
theorem part {before middle behind : List A}
    (segment : Segment table start (before ++ middle ++ behind)) :
    Segment table (start + before.length) middle := by
  intro k inside
  have entry := segment (before.length + k) (by simp only [List.length_append]; omega)
  rw [← Nat.add_assoc] at entry
  rw [entry, List.getElem_append_left (by rw [List.length_append]; omega),
    List.getElem_append_right (by omega)]
  simp

end Segment

/-- Where a list starts and how long it is by now. -/
structure Extent where
  start : Nat
  size : Nat
  deriving DecidableEq

/-- One more entry is in a list. -/
def grow (table : List Extent) (k : Nat) : Option (List Extent) := do
  let extent <- table[k]?
  writeAt table k { extent with size := extent.size + 1 }

/-- A list starts where the one before it ends; then the size of that one is set
to zero. -/
def setsOffset (first i : Nat) (table : List Extent) : Option (List Extent) := do
  let previous <- table[first + i]?
  let extent <- table[first + i + 1]?
  let table <- writeAt table (first + i + 1) { extent with start := previous.start + previous.size }
  writeAt table (first + i) { previous with size := 0 }

/-- The lists from `first` to `last` start one behind the other, and their sizes
are set to zero. -/
def setsOffsets (first last : Nat) (table : List Extent) : Option (List Extent) := do
  let extent <- table[first]?
  let table <- writeAt table first { extent with start := 0 }
  let table <- forLoop (setsOffset first) (last - first) table
  let extent <- table[first + (last - first)]?
  writeAt table (first + (last - first)) { extent with size := 0 }

/-- The sum of the sizes of the lists before one. -/
def startOf (first : Nat) (counts : Nat -> Nat) (k : Nat) : Nat :=
  (Finset.Ico first k).sum counts

section

variable {first last : Nat} {counts : Nat -> Nat}

theorem startOf_first (first : Nat) (counts : Nat -> Nat) : startOf first counts first = 0 := by
  simp [startOf]

theorem startOf_succ {k : Nat} (le : first ≤ k) :
    startOf first counts (k + 1) = startOf first counts k + counts k :=
  Finset.sum_Ico_succ_top le counts

theorem startOf_mono (first : Nat) (counts : Nat -> Nat) : Monotone (startOf first counts) := by
  intro lower upper le
  exact Finset.sum_le_sum_of_subset (Finset.Ico_subset_Ico_right le)

/-- A list ends before a later one starts. -/
theorem startOf_add_le {j k : Nat} (le : first ≤ j) (less : j < k) :
    startOf first counts j + counts j ≤ startOf first counts k := by
  rw [← startOf_succ le]
  exact startOf_mono first counts less

/-- The lists one after the other. -/
theorem length_flatMap_range {content : Nat -> List A}
    (lengths : forall k, (content k).length = counts k) (n : Nat) :
    ((List.range n).flatMap (fun k => content (k + first))).length = startOf first counts
    (n + first) := by
  induction n with
  | zero => rw [Nat.zero_add, startOf_first, List.range_zero, List.flatMap_nil, List.length_nil]
  | succ n ih =>
      rw [List.range_succ, List.flatMap_append, List.length_append, ih, List.flatMap_singleton,
        lengths, Nat.add_right_comm, startOf_succ (Nat.le_add_left first n)]

theorem segment_flatMap_range {content : Nat -> List A}
    (lengths : forall k, (content k).length = counts k) {n k : Nat} (less : k < n) :
    Segment ((List.range n).flatMap (fun k => content (k + first)))
      (startOf first counts (k + first))
      (content (k + first)) := by
  induction n with
  | zero => exact absurd less (Nat.not_lt_zero k)
  | succ n ih =>
      rw [List.range_succ, List.flatMap_append, List.flatMap_singleton]
      rcases Nat.lt_succ_iff_lt_or_eq.mp less with earlier | rfl
      · exact (ih earlier).append_table _
      · rw [← length_flatMap_range lengths]
        exact Segment.at_end _ _

theorem grow_eq_some {table : List Extent} {k : Nat} {extent : Extent}
    (entry : table[k]? = some extent) :
    grow table k = some (table.set k ⟨extent.start, extent.size + 1⟩) := by
  have inside := (List.getElem?_eq_some_iff.mp entry).1
  simp only [grow, entry, writeAt_eq_some inside, Option.bind_eq_bind, Option.bind_some]

/-- After the loop, the lists before one have got their starts, and the sizes of
those before the last of these are zero. -/
structure OffsetsSet (first : Nat) (counts : Nat -> Nat) (before : List Extent) (i : Nat)
    (table : List Extent) : Prop where
  length : table.length = before.length
  done : forall k, first ≤ k -> k < first + i -> table[k]? = some ⟨startOf first counts k, 0⟩
  current : table[first + i]? = some ⟨startOf first counts (first + i), counts (first + i)⟩
  rest : forall k, k < first ∨ first + i < k -> table[k]? = before[k]?

theorem OffsetsSet.next {before table : List Extent} {i : Nat}
    (offsets : OffsetsSet first counts before i table)
    {extent : Extent} (entry : before[first + i + 1]? = some extent)
    (size : extent.size = counts (first + i + 1)) :
    Exists fun next => setsOffset first i table = some next ∧
      OffsetsSet first counts before (i + 1) next := by
  rw [← offsets.rest (first + i + 1) (Or.inr (Nat.lt_succ_self _))] at entry
  have inside := (List.getElem?_eq_some_iff.mp entry).1
  have start : startOf first counts (first + i) + counts (first + i) =
      startOf first counts (first + i + 1) :=
    (startOf_succ (Nat.le_add_right first i)).symm
  refine ⟨(table.set (first + i + 1) ⟨startOf first counts (first + i + 1),
    counts (first + i + 1)⟩).set (first + i)
    ⟨startOf first counts (first + i), 0⟩, ?_, ?_, ?_, ?_, ?_⟩
  · simp only [setsOffset, offsets.current, entry, writeAt_eq_some inside, Option.bind_eq_bind,
      Option.bind_some, start, size]
    exact writeAt_eq_some (by rw [List.length_set]; omega) _
  · rw [List.length_set, List.length_set, offsets.length]
  · intro k le less
    by_cases last : k = first + i
    · subst last
      rw [List.getElem?_set_self (by rw [List.length_set]; omega)]
    · rw [List.getElem?_set_ne (by omega), List.getElem?_set_ne (by omega)]
      exact offsets.done k le (by omega)
  · rw [List.getElem?_set_ne (by omega)]
    exact List.getElem?_set_self inside
  · intro k outside
    rw [List.getElem?_set_ne (by omega), List.getElem?_set_ne (by omega)]
    exact offsets.rest k (by omega)

/-- The lists start one behind the other and are empty. -/
theorem setsOffsets_eq_some {table : List Extent} (le : first ≤ last)
    (sizes : forall k, first ≤ k -> k ≤ last -> Exists fun extent => table[k]? = some extent ∧
      extent.size = counts k) :
    Exists fun after => setsOffsets first last table = some after ∧ after.length = table.length ∧
      forall k, first ≤ k -> k ≤ last -> after[k]? = some ⟨startOf first counts k, 0⟩ := by
  rcases sizes first (Nat.le_refl first) le with ⟨extent, entry, size⟩
  have inside := (List.getElem?_eq_some_iff.mp entry).1
  have start : OffsetsSet first counts table 0 (table.set first ⟨0, extent.size⟩) := by
    refine ⟨List.length_set, fun k above below => absurd below (Nat.not_lt.mpr above), ?_,
      fun k outside => ?_⟩
    · rw [Nat.add_zero, List.getElem?_set_self inside, startOf_first, size]
    · rw [List.getElem?_set_ne (by omega)]
  rcases forLoop_of_step (setsOffset first) (last - first) _ (OffsetsSet first counts table) (by
      intro i state less offsets
      rcases sizes (first + i + 1) (by omega) (by omega) with ⟨next, nextEntry, nextSize⟩
      exact offsets.next nextEntry nextSize) start with ⟨middle, run, offsets⟩
  have top : first + (last - first) = last := Nat.add_sub_cancel' le
  have current := offsets.current
  have lastInside := (List.getElem?_eq_some_iff.mp current).1
  refine ⟨middle.set (first + (last - first)) ⟨startOf first counts (first + (last - first)), 0⟩,
    ?_, ?_, ?_⟩
  · simp only [setsOffsets, entry, writeAt_eq_some inside, run, current, Option.bind_eq_bind,
      Option.bind_some]
    exact writeAt_eq_some lastInside _
  · rw [List.length_set, offsets.length]
  · intro k above below
    rw [top] at lastInside ⊢
    by_cases same : k = last
    · subst same
      rw [List.getElem?_set_self lastInside]
    · rw [List.getElem?_set_ne (Ne.symm same)]
      exact offsets.done k above (by omega)

end

/-! ## Filling the lists -/

/-- The lists from `first` to `last` have got some entries, and none has more
than was counted. -/
structure PartlyFilled (first last : Nat) (counts : Nat -> Nat) (extents : List Extent)
    (table : List A) (content : Nat -> List A) : Prop where
  extents : forall k, first ≤ k -> k ≤ last -> extents[k]? =
    some ⟨startOf first counts k, (content k).length⟩
  bounded : forall k, first ≤ k -> k ≤ last -> (content k).length ≤ counts k
  room : startOf first counts (last + 1) ≤ table.length
  segments : forall k, first ≤ k -> k ≤ last -> Segment table (startOf first counts k) (content k)

namespace PartlyFilled

variable {first last : Nat} {counts : Nat -> Nat} {extents : List Extent} {table : List A}
    {content : Nat -> List A}

theorem empty {table : List A}
    (offsets : forall k, first ≤ k -> k ≤ last -> extents[k]? = some ⟨startOf first counts k, 0⟩)
    (room : startOf first counts (last + 1) ≤ table.length) :
    PartlyFilled first last counts extents table (fun _ => []) where
  extents := offsets
  bounded := fun _ _ _ => Nat.zero_le _
  room := room
  segments := fun _ _ _ => Segment.nil _ _

theorem congr (filling : PartlyFilled first last counts extents table content)
    {other : Nat -> List A} (same : forall k, first ≤ k -> k ≤ last -> other k = content k) :
    PartlyFilled first last counts extents table other where
  extents := fun k above below => by rw [same k above below]; exact filling.extents k above below
  bounded := fun k above below => by rw [same k above below]; exact filling.bounded k above below
  room := filling.room
  segments := fun k above below => by rw [same k above below]; exact filling.segments k above below

/-- Full lists make up one list from the beginning of the table. -/
theorem whole (filling : PartlyFilled first last counts extents table content)
    (lengths : forall k, (content k).length = counts k) {n : Nat} (inside : n + first ≤ last + 1) :
    Segment table 0 ((List.range n).flatMap (fun k => content (k + first))) := by
  induction n with
  | zero => exact Segment.nil _ _
  | succ n ih =>
      rw [List.range_succ, List.flatMap_append, List.flatMap_singleton]
      refine (ih (by omega)).append ?_
      rw [length_flatMap_range lengths, Nat.zero_add]
      exact filling.segments (n + first) (Nat.le_add_left first n) (by omega)

/-- There is room for what was counted. -/
theorem place_inside (filling : PartlyFilled first last counts extents table content) {k : Nat}
    (above : first ≤ k) (below : k ≤ last) (space : (content k).length < counts k) :
    startOf first counts k + (content k).length < table.length := by
  have ends : startOf first counts k + counts k ≤ startOf first counts (last + 1) :=
    startOf_add_le above (Nat.lt_succ_of_le below)
  have room := filling.room
  omega

/-- An entry is added to one list. -/
theorem insert (filling : PartlyFilled first last counts extents table content) {k : Nat}
    (above : first ≤ k) (below : k ≤ last) (space : (content k).length < counts k) (entry : A) :
    PartlyFilled first last counts (extents.set k ⟨startOf first counts k, (content k).length + 1⟩)
      (table.set (startOf first counts k + (content k).length) entry)
      (Function.update content k (content k ++ [entry])) := by
  have inside := filling.place_inside above below space
  have here := (List.getElem?_eq_some_iff.mp (filling.extents k above below)).1
  refine ⟨fun j first_le le_last => ?_, fun j first_le le_last => ?_, ?_, fun j first_le le_last =>
    ?_⟩
  · by_cases same : j = k
    · subst same
      rw [List.getElem?_set_self here, Function.update_self, List.length_append,
        List.length_singleton]
    · rw [List.getElem?_set_ne (Ne.symm same), Function.update_of_ne same]
      exact filling.extents j first_le le_last
  · by_cases same : j = k
    · subst same
      rw [Function.update_self, List.length_append, List.length_singleton]
      exact space
    · rw [Function.update_of_ne same]
      exact filling.bounded j first_le le_last
  · rw [List.length_set]
    exact filling.room
  · by_cases same : j = k
    · subst same
      rw [Function.update_self]
      exact (filling.segments j above below).concat inside entry
    · rw [Function.update_of_ne same]
      refine (filling.segments j first_le le_last).set_outside ?_ entry
      have bound := filling.bounded j first_le le_last
      rcases Nat.lt_or_gt_of_ne same with before | behind
      · have ends : startOf first counts j + counts j ≤ startOf first counts k :=
          startOf_add_le first_le before
        omega
      · have ends : startOf first counts k + counts k ≤ startOf first counts j :=
          startOf_add_le above behind
        omega

end PartlyFilled

end Library
end Johnny
