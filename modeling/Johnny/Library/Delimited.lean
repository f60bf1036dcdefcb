import Mathlib.Data.List.Basic
import Mathlib.Data.List.Infix

namespace Johnny
namespace Library

/-!
# Delimited records

A record ends at the first occurrence of a delimiter.  A delimiter of two
different symbols ends a line, and a doubled one ends a head of non-empty lines:
if its first symbol does not occur in the lines, no earlier place looks like the
end.

A reader that gets one record back from the front of a stream, whatever follows,
gets a whole stream of records back when it is applied again and again.
-/

universe u v w

section

variable {A : Type u} [DecidableEq A]

/-- What stands before and behind the first occurrence of a pattern. -/
def splitAtFirst (pattern : List A) : List A -> Option (List A × List A)
  | [] => if pattern = [] then some ([], []) else none
  | symbol :: rest =>
      if pattern <+: symbol :: rest then some ([], (symbol :: rest).drop pattern.length)
      else (splitAtFirst pattern rest).map (fun parts => (symbol :: parts.1, parts.2))

theorem splitAtFirst_prefix (pattern rest : List A) (nonempty : pattern ≠ []) :
    splitAtFirst pattern (pattern ++ rest) = some ([], rest) := by
  cases pattern with
  | nil => exact absurd rfl nonempty
  | cons symbol tail =>
      have here : symbol :: tail <+: symbol :: (tail ++ rest) :=
        List.prefix_append (symbol :: tail) rest
      rw [List.cons_append, splitAtFirst, if_pos here, ← List.cons_append, List.drop_left]

/-- A place that does not look like the pattern is passed over. -/
theorem splitAtFirst_cons {pattern : List A} {symbol : A} {rest : List A}
    (other : ¬ pattern <+: symbol :: rest) : splitAtFirst pattern (symbol :: rest) =
      (splitAtFirst pattern rest).map (fun parts => (symbol :: parts.1, parts.2)) := by
  rw [splitAtFirst, if_neg other]

/-- Symbols that the pattern does not start with are passed over. -/
theorem splitAtFirst_append {first : A} {tail text : List A} (absent : first ∉ text)
    (rest : List A) : splitAtFirst (first :: tail) (text ++ rest) =
      (splitAtFirst (first :: tail) rest).map (fun parts => (text ++ parts.1, parts.2)) := by
  induction text with
  | nil => exact Option.map_id'.symm
  | cons symbol later ih =>
      rw [List.mem_cons, not_or] at absent
      have other : ¬ first :: tail <+: symbol :: (later ++ rest) :=
        fun start => absent.1 (List.cons_prefix_cons.mp start).1
      rw [List.cons_append, splitAtFirst_cons other, ih absent.2, Option.map_map]
      rfl

variable (cr lf : A)

def endLines (lines : List (List A)) : List A :=
  lines.flatMap (fun line => line ++ [cr, lf])

variable {cr lf}

theorem splitAtFirst_line {line : List A} (absent : cr ∉ line) (rest : List A) :
    splitAtFirst [cr, lf] ((line ++ [cr, lf]) ++ rest) = some (line, rest) := by
  rw [List.append_assoc, splitAtFirst_append absent, splitAtFirst_prefix _ _ (by simp)]
  simp

/-- An empty line ends a head of lines. -/
theorem splitAtFirst_head (different : cr ≠ lf) {lines : List (List A)} (some : lines ≠ [])
    (proper : forall line, line ∈ lines -> line ≠ [] ∧ cr ∉ line) (rest : List A) :
    Exists fun head => head ++ [cr, lf] = endLines cr lf lines ∧
      splitAtFirst [cr, lf, cr, lf] (endLines cr lf lines ++ [cr, lf] ++ rest) =
        .some (head, rest) := by
  induction lines with
  | nil => exact absurd rfl some
  | cons line later ih =>
      rcases proper line List.mem_cons_self with ⟨nonempty, absent⟩
      have shape : endLines cr lf (line :: later) ++ [cr, lf] ++ rest =
          line ++ (cr :: lf :: (endLines cr lf later ++ [cr, lf] ++ rest)) := by
        simp [endLines]
      rw [shape, splitAtFirst_append absent]
      cases later with
      | nil =>
          refine ⟨line, by simp [endLines], ?_⟩
          have done := splitAtFirst_prefix [cr, lf, cr, lf] rest (by simp)
          simp only [endLines, List.flatMap_nil, List.nil_append]
          rw [show cr :: lf :: ([cr, lf] ++ rest) = [cr, lf, cr, lf] ++ rest from rfl, done]
          simp
      | cons next others =>
          rcases ih (by simp) (fun other member =>
            proper other (List.mem_cons_of_mem _ member)) with
            ⟨head, headEq, splits⟩
          rcases proper next (by simp) with ⟨nextNonempty, nextAbsent⟩
          -- The next line starts with another symbol than the delimiter.
          have notHere : ¬ [cr, lf, cr, lf] <+:
              cr :: lf :: (endLines cr lf (next :: others) ++ [cr, lf] ++ rest) := by
            cases next with
            | nil => exact absurd rfl nextNonempty
            | cons symbol tail =>
                intro start
                simp only [endLines, List.flatMap_cons, List.cons_append,
                  List.cons_prefix_cons] at start
                exact nextAbsent (by rw [start.2.2.1]; exact List.mem_cons_self)
          have notNext : ¬ [cr, lf, cr, lf] <+: lf ::
              (endLines cr lf (next :: others) ++ [cr, lf] ++ rest) :=
            fun start => different (List.cons_prefix_cons.mp start).1
          rw [splitAtFirst_cons notHere, splitAtFirst_cons notNext, splits]
          refine ⟨line ++ cr :: lf :: head, ?_, rfl⟩
          rw [List.append_assoc, List.cons_append, List.cons_append, headEq]
          simp [endLines]

end

/-! ## Streams of records -/

section

variable {A : Type u} {B : Type v} {C : Type w}

/-- Read records until nothing is left. -/
def readAllFrom (read : List A -> Option (B × List A)) : Nat -> List A -> Option (List B)
  | _, [] => some []
  | 0, _ :: _ => none
  | fuel + 1, symbol :: rest =>
      (read (symbol :: rest)).bind (fun found => (readAllFrom read fuel found.2).map (found.1 :: ·))

/-- Each record takes at least one symbol. -/
def readAll (read : List A -> Option (B × List A)) (stream : List A) : Option (List B) :=
  readAllFrom read stream.length stream

theorem readAllFrom_flatMap {read : List A -> Option (B × List A)} {write : C -> List A}
    {value : C -> B} {records : List C}
    (nonempty : forall record, record ∈ records -> write record ≠ [])
    (reads : forall record, record ∈ records -> forall rest,
      read (write record ++ rest) = some (value record, rest)) {fuel : Nat}
    (enough : records.length ≤ fuel) :
    readAllFrom read fuel (records.flatMap write) = some (records.map value) := by
  induction records generalizing fuel with
  | nil => cases fuel <;> rfl
  | cons record later ih =>
      rcases fuel with - | fuel
      · exact absurd enough (Nat.not_succ_le_zero _)
      · have front := reads record List.mem_cons_self (later.flatMap write)
        have follows := ih (fun other member => nonempty other (List.mem_cons_of_mem _ member))
          (fun other member => reads other (List.mem_cons_of_mem _ member))
            (Nat.le_of_succ_le_succ enough)
        rw [List.flatMap_cons]
        cases written : write record with
        | nil => exact absurd written (nonempty record List.mem_cons_self)
        | cons symbol rest =>
            rw [written] at front
            rw [List.cons_append, readAllFrom, ← List.cons_append, front, Option.bind_some]
            dsimp only
            rw [follows]
            rfl

theorem length_le_flatMap {write : C -> List A} {records : List C}
    (nonempty : forall record, record ∈ records -> write record ≠ []) :
    records.length ≤ (records.flatMap write).length := by
  induction records with
  | nil => exact Nat.le_refl 0
  | cons record later ih =>
      have one := List.length_pos_of_ne_nil (nonempty record List.mem_cons_self)
      have more := ih (fun other member => nonempty other (List.mem_cons_of_mem _ member))
      rw [List.flatMap_cons, List.length_append, List.length_cons]
      omega

/-- If the reader gets one record back whatever follows it, it gets all of them
back. -/
theorem readAll_flatMap {read : List A -> Option (B × List A)} {write : C -> List A}
    {value : C -> B} {records : List C}
    (nonempty : forall record, record ∈ records -> write record ≠ [])
    (reads : forall record, record ∈ records -> forall rest,
      read (write record ++ rest) = some (value record, rest)) :
    readAll read (records.flatMap write) = some (records.map value) :=
  readAllFrom_flatMap nonempty reads (length_le_flatMap nonempty)

end

end Library
end Johnny
