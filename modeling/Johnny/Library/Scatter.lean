import Mathlib.Data.List.Forall2

namespace Johnny
namespace Library

/-!
# Scattering a list into a table

Each item is written at the index computed from it.  The table starts with
unwritten entries; an item without an index or with an index outside the table
makes the whole operation fail.  When the indices are distinct, every item ends
up at its own index.
-/

universe u v

variable {A : Type u}

/-- Every item of one list has its partner in the other. -/
theorem exists_partner {B : Type v} {R : A -> B -> Prop} {left : List A} {right : List B}
    (pairs : List.Forall₂ R left right) {item : A} (member : item ∈ left) :
    Exists fun partner => partner ∈ right ∧ R item partner := by
  induction pairs with
  | nil => cases member
  | cons pair _ ih =>
      rcases List.mem_cons.mp member with rfl | later
      · exact ⟨_, List.mem_cons_self, pair⟩
      · rcases ih later with ⟨partner, inRest, own⟩
        exact ⟨partner, List.mem_cons_of_mem _ inRest, own⟩

/-- Write the items one after another. -/
def scatter (index : A -> Option Nat) : List A -> List (Option A) -> Option (List (Option A))
  | [], table => some table
  | item :: rest, table =>
      (index item).bind (fun place =>
        if place < table.length then scatter index rest (table.set place (some item)) else none)

theorem scatter_cons_eq_some {index : A -> Option Nat} {item : A} {rest : List A}
    {table after : List (Option A)} (scattered : scatter index (item :: rest) table = some after) :
    Exists fun place => index item = some place ∧ place < table.length ∧
      scatter index rest (table.set place (some item)) = some after := by
  rcases Option.bind_eq_some_iff.mp scattered with ⟨place, found, later⟩
  split_ifs at later with inside
  exact ⟨place, found, inside, later⟩

theorem scatter_length {index : A -> Option Nat} {items : List A} {table after : List (Option A)}
    (scattered : scatter index items table = some after) : after.length = table.length := by
  induction items generalizing table with
  | nil =>
      cases scattered
      rfl
  | cons item rest ih =>
      rcases scatter_cons_eq_some scattered with ⟨place, -, -, later⟩
      rw [ih later, List.length_set]

/-- An entry was there before or is an item at its own index. -/
theorem scatter_entry {index : A -> Option Nat} {items : List A} {table after : List (Option A)}
    (scattered : scatter index items table = some after) {place : Nat} {item : A}
    (entry : after[place]? = some (some item)) :
    (item ∈ items ∧ index item = some place) ∨ table[place]? = some (some item) := by
  induction items generalizing table with
  | nil =>
      cases scattered
      exact Or.inr entry
  | cons first rest ih =>
      rcases scatter_cons_eq_some scattered with ⟨spot, found, inside, later⟩
      rcases ih later with ⟨member, own⟩ | earlier
      · exact Or.inl ⟨List.mem_cons_of_mem _ member, own⟩
      · by_cases same : spot = place
        · subst same
          rw [List.getElem?_set_self inside] at earlier
          have equal : first = item := Option.some.inj (Option.some.inj earlier)
          subst equal
          exact Or.inl ⟨List.mem_cons_self, found⟩
        · rw [List.getElem?_set_ne same] at earlier
          exact Or.inr earlier

/-- An index that no item has keeps its entry. -/
theorem scatter_untouched {index : A -> Option Nat} {items : List A} {table after : List (Option A)}
    (scattered : scatter index items table = some after) {place : Nat}
    (absent : forall item, item ∈ items -> index item ≠ some place) :
      after[place]? = table[place]? := by
  induction items generalizing table with
  | nil =>
      cases scattered
      rfl
  | cons first rest ih =>
      rcases scatter_cons_eq_some scattered with ⟨spot, found, -, later⟩
      rw [ih later (fun item member => absent item (List.mem_cons_of_mem _ member))]
      apply List.getElem?_set_ne
      intro same
      exact absent first List.mem_cons_self (same ▸ found)

/-- Items with distinct indices inside the table all arrive. -/
theorem scatter_arrives {index : A -> Option Nat} {items : List A} {table : List (Option A)}
    (inside : forall item, item ∈ items -> Exists fun place => index item = some place ∧
      place < table.length)
    (distinct : items.Pairwise (fun first second => index first ≠ index second)) :
    Exists fun after => scatter index items table = some after ∧
      forall item place, item ∈ items -> index item = some place ->
        after[place]? = some (some item) := by
  induction items generalizing table with
  | nil => exact ⟨table, rfl, fun _ _ member => by cases member⟩
  | cons first rest ih =>
      rcases List.pairwise_cons.mp distinct with ⟨apart, restDistinct⟩
      rcases inside first List.mem_cons_self with ⟨place, found, bound⟩
      have restInside : forall item, item ∈ rest -> Exists fun spot =>
          index item = some spot ∧ spot < (table.set place (some first)).length := by
        intro item member
        rw [List.length_set]
        exact inside item (List.mem_cons_of_mem _ member)
      rcases ih restInside restDistinct with ⟨after, scattered, arrive⟩
      refine ⟨after, ?_, ?_⟩
      · rw [scatter, found]
        exact (if_pos bound).trans scattered
      · intro item spot member own
        rcases List.mem_cons.mp member with equal | later
        · subst equal
          have same : place = spot := Option.some.inj (found.symm.trans own)
          subst same
          rw [scatter_untouched scattered (fun other otherMember equal =>
            apart other otherMember (found.trans equal.symm))]
          exact List.getElem?_set_self bound
        · exact arrive item spot later own

end Library
end Johnny
