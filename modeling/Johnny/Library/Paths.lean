import Mathlib.Data.List.Basic

namespace Johnny
namespace Library

/-!
# Paths and their components

A path is a sequence of symbols in which a separator stands between and behind
names.  Empty names do not count, so separators may be doubled.  Directories
are joined with a separator behind each name.
-/

universe u

variable {A : Type u} (separator : A)

/-- The names one after another, each with a separator behind it. -/
def joinNames (names : List (List A)) : List A :=
  names.flatMap (fun name => name ++ [separator])

@[simp] theorem joinNames_nil : joinNames separator [] = [] := rfl

theorem joinNames_append (first second : List (List A)) :
    joinNames separator (first ++ second) = joinNames separator first ++
      joinNames separator second :=
  List.flatMap_append

@[simp] theorem joinNames_singleton (name : List A) :
    joinNames separator [name] = name ++ [separator] := by
  simp [joinNames]

variable [DecidableEq A]

/-- The components of a path, with the beginning of the first one given. -/
def componentsFrom (current : List A) : List A -> List (List A)
  | [] => if current = [] then [] else [current]
  | symbol :: rest =>
      if symbol = separator then
        if current = [] then componentsFrom [] rest else current :: componentsFrom [] rest
      else componentsFrom (current ++ [symbol]) rest

def components (path : List A) : List (List A) :=
  componentsFrom separator [] path

variable {separator}

@[simp] theorem components_nil : components separator [] = [] := rfl

/-- A separator cuts a path in two. -/
theorem componentsFrom_append (current directory rest : List A) :
    componentsFrom separator current (directory ++ separator :: rest) =
      componentsFrom separator current directory ++ components separator rest := by
  induction directory generalizing current with
  | nil =>
      by_cases empty : current = []
      · simp [componentsFrom, components, empty]
      · simp [componentsFrom, components, empty]
  | cons symbol later ih =>
      rw [List.cons_append, componentsFrom, componentsFrom]
      by_cases cut : symbol = separator
      · rw [if_pos cut, if_pos cut]
        by_cases empty : current = []
        · rw [if_pos empty, if_pos empty, ih]
        · rw [if_neg empty, if_neg empty, ih, List.cons_append]
      · rw [if_neg cut, if_neg cut, ih]

theorem components_append (directory rest : List A) :
    components separator (directory ++ separator :: rest) =
      components separator directory ++ components separator rest :=
  componentsFrom_append [] directory rest

theorem componentsFrom_name (current name : List A) (plain : separator ∉ name)
    (nonempty : current ++ name ≠ []) :
      componentsFrom separator current name = [current ++ name] := by
  induction name generalizing current with
  | nil =>
      rw [List.append_nil] at nonempty ⊢
      rw [componentsFrom, if_neg nonempty]
  | cons symbol rest ih =>
      have parts := not_or.mp (mt List.mem_cons.mpr plain)
      rw [componentsFrom, if_neg (Ne.symm parts.1), ih _ parts.2, List.append_assoc]
      · rfl
      · rw [List.append_assoc]
        exact nonempty

/-- A name without a separator is its own only component. -/
theorem components_name {name : List A} (plain : separator ∉ name) (nonempty : name ≠ []) :
    components separator name = [name] :=
  componentsFrom_name [] name plain nonempty

/-- The names come back from the joined path. -/
theorem components_joinNames {names : List (List A)}
    (plain : forall name, name ∈ names -> separator ∉ name ∧ name ≠ []) (rest : List A) :
    components separator (joinNames separator names ++ rest) =
      names ++ components separator rest := by
  induction names with
  | nil => rfl
  | cons name later ih =>
      have own := plain name List.mem_cons_self
      have split : joinNames separator (name :: later) ++ rest =
          name ++ separator :: (joinNames separator later ++ rest) := by
        simp [joinNames]
      rw [split, components_append, components_name own.1 own.2,
        ih (fun other member => plain other (List.mem_cons_of_mem _ member))]
      rfl

end Library
end Johnny
