import Mathlib.Data.List.Infix
import Mathlib.Data.List.Induction

namespace Johnny
namespace Library

/-!
# Matching with one counter

A matcher with one counter compares each symbol with the symbol of the pattern
that the counter points to.  It counts on, or it starts again at zero without
looking at the symbol a second time.

What it finds is there: the symbols counted last are the beginning of the
pattern.  What is there it finds exactly if its counter is zero where the
pattern begins, since no symbol counted before can belong to it.
-/

universe u

variable {A : Type u} (pattern : List A)

section

variable [DecidableEq A]

/-- The counter after one more symbol. -/
def advance (counter : Nat) (symbol : A) : Nat :=
  if pattern[counter]? = some symbol then counter + 1 else 0

/-- The counter after a text, from zero. -/
def counterAfter (text : List A) : Nat :=
  text.foldl (advance pattern) 0

@[simp] theorem counterAfter_nil : counterAfter pattern [] = 0 := rfl

@[simp] theorem counterAfter_append_singleton (text : List A) (symbol : A) :
    counterAfter pattern (text ++ [symbol]) =
      advance pattern (counterAfter pattern text) symbol := by
  unfold counterAfter
  rw [List.foldl_append]
  rfl

theorem advance_of_match {counter : Nat} {symbol : A} (here : pattern[counter]? = some symbol) :
    advance pattern counter symbol = counter + 1 :=
  if_pos here

theorem advance_of_mismatch {counter : Nat} {symbol : A} (other : pattern[counter]? ≠ some symbol) :
    advance pattern counter symbol = 0 :=
  if_neg other

/-- The symbols counted last are the beginning of the pattern. -/
theorem take_counterAfter_suffix (text : List A) :
    pattern.take (counterAfter pattern text) <:+ text := by
  induction text using List.reverseRecOn with
  | nil => simp
  | append_singleton text symbol ih =>
      rw [counterAfter_append_singleton]
      by_cases here : pattern[counterAfter pattern text]? = some symbol
      · rcases ih with ⟨before, whole⟩
        refine ⟨before, ?_⟩
        rw [advance_of_match pattern here, List.take_add_one, here, ← List.append_assoc, whole]
        rfl
      · rw [advance_of_mismatch pattern here, List.take_zero]
        exact List.nil_suffix

theorem counterAfter_le (text : List A) : counterAfter pattern text ≤ pattern.length := by
  induction text using List.reverseRecOn with
  | nil => exact Nat.zero_le _
  | append_singleton text symbol ih =>
      rw [counterAfter_append_singleton]
      by_cases here : pattern[counterAfter pattern text]? = some symbol
      · rw [advance_of_match pattern here]
        exact (List.getElem?_eq_some_iff.mp here).1
      · rw [advance_of_mismatch pattern here]
        exact Nat.zero_le _

/-- A full counter has found the pattern. -/
theorem suffix_of_counterAfter_eq {text : List A}
    (full : counterAfter pattern text = pattern.length) : pattern <:+ text := by
  have found := take_counterAfter_suffix pattern text
  rwa [full, List.take_length] at found

/-- Reading the rest of the pattern fills the counter. -/
theorem foldl_advance_drop (counter : Nat) (bound : counter ≤ pattern.length) :
    (pattern.drop counter).foldl (advance pattern) counter = pattern.length := by
  induction left : pattern.length - counter generalizing counter with
  | zero =>
      have whole : counter = pattern.length := by omega
      rw [whole, List.drop_length]
      rfl
  | succ left ih =>
      have inside : counter < pattern.length := by omega
      rw [List.drop_eq_getElem_cons inside, List.foldl_cons,
        advance_of_match pattern (List.getElem?_eq_getElem inside)]
      exact ih (counter + 1) inside (by omega)

/-- Either all symbols were counted, or fewer of them than were read. -/
theorem foldl_advance_eq_or_lt (text : List A) (counter : Nat) :
    text.foldl (advance pattern) counter = counter + text.length ∨
      text.foldl (advance pattern) counter < text.length := by
  induction text generalizing counter with
  | nil => exact Or.inl rfl
  | cons symbol rest ih =>
      rw [List.foldl_cons, List.length_cons]
      by_cases here : pattern[counter]? = some symbol
      · rw [advance_of_match pattern here]
        rcases ih (counter + 1) with all | fewer
        · exact Or.inl (by omega)
        · exact Or.inr (by omega)
      · rw [advance_of_mismatch pattern here]
        rcases ih 0 with all | fewer
        · exact Or.inr (by omega)
        · exact Or.inr (by omega)

/-- The matcher finds the pattern behind a text exactly if it was not counting
when the pattern began. -/
theorem counterAfter_append_pattern_iff (before : List A) :
    counterAfter pattern (before ++ pattern) = pattern.length <->
      counterAfter pattern before = 0 := by
  have split : counterAfter pattern (before ++ pattern) =
      pattern.foldl (advance pattern) (counterAfter pattern before) := List.foldl_append
  rw [split]
  constructor
  · intro full
    rcases foldl_advance_eq_or_lt pattern pattern (counterAfter pattern before) with all | fewer
    · omega
    · omega
  · intro zero
    rw [zero]
    exact foldl_advance_drop pattern 0 (Nat.zero_le _)

end

/-! ## The first occurrence -/

/-- The pattern stands between two parts of a text, and begins nowhere before. -/
structure FirstOccurrence (text before after : List A) : Prop where
  whole : text = before ++ (pattern ++ after)
  first : forall position, position < before.length -> ¬ pattern <+: text.drop position

instance [DecidableEq A] (text before after : List A) :
    Decidable (FirstOccurrence pattern text before after) :=
  decidable_of_iff (text = before ++ (pattern ++ after) ∧
    forall position, position < before.length -> ¬ pattern <+: text.drop position)
    ⟨fun both => ⟨both.1, both.2⟩, fun occurrence => ⟨occurrence.whole, occurrence.first⟩⟩

variable {pattern}

theorem FirstOccurrence.take_end {text before after : List A}
    (occurrence : FirstOccurrence pattern text before after) :
    text.take (before.length + pattern.length) = before ++ pattern := by
  rw [occurrence.whole, ← List.append_assoc]
  apply List.take_left'
  exact List.length_append

/-- The pattern ends nowhere before the end of its first occurrence. -/
theorem FirstOccurrence.not_suffix {text before after : List A}
    (occurrence : FirstOccurrence pattern text before after) {count : Nat}
    (earlier : count < before.length + pattern.length) : ¬ pattern <:+ text.take count := by
  rintro ⟨start, ends⟩
  have lengths := congrArg List.length ends
  have taken := List.length_take_le count text
  rw [List.length_append] at lengths
  apply occurrence.first start.length (by omega)
  refine ⟨text.drop count, ?_⟩
  have whole : text = start ++ (pattern ++ text.drop count) := by
    rw [← List.append_assoc, ends, List.take_append_drop]
  conv => rhs; rw [whole]
  rw [List.drop_left]

end Library
end Johnny
