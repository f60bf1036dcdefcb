import Johnny.Library.Interleaving

namespace Johnny
namespace Library

/-!
# Refinement between machines

A machine refines a more abstract one if each of its states stands for a state of
the other, and each of its steps does a run there: a single step, several, or
none where the abstract machine sees nothing.  Then every run does a run of the
abstract machine.

A refinement carries over to copies that take turns, as long as what the abstract
steps take from the common supply is there.
-/

universe u v w x y

namespace Machine

variable {State : Type u} {Label : Type v} {Abstract : Type w} {Move : Type x}

/-- What each state of the first machine stands for, and what each of its steps
does in the second one. -/
structure Refinement (M : Machine State Label) (N : Machine Abstract Move) where
  Inv : State -> Prop
  abstract : State -> Abstract
  moves : State -> Label -> List Move
  keeps : forall state label, Inv state -> M.enabled state label -> Inv (M.step state label)
  runs : forall state label, Inv state -> M.enabled state label ->
    N.Run (abstract state) (moves state label)
  reaches : forall state label, Inv state -> M.enabled state label ->
    N.after (abstract state) (moves state label) = abstract (M.step state label)

namespace Refinement

variable {M : Machine State Label} {N : Machine Abstract Move} (R : M.Refinement N)

/-- The abstract steps of a run. -/
def movesOf (state : State) (labels : List Label) : List Move :=
  M.log R.moves state labels

/-- Every run does a run of the abstract machine. -/
theorem run {state : State} {labels : List Label} (holds : R.Inv state) (run : M.Run state labels) :
    R.Inv (M.after state labels) ∧ N.Run (R.abstract state) (R.movesOf state labels) ∧
      N.after (R.abstract state) (R.movesOf state labels) = R.abstract (M.after state labels) := by
  induction labels generalizing state with
  | nil => exact ⟨holds, trivial, rfl⟩
  | cons label rest ih =>
      rcases ih (R.keeps state label holds run.1) run.2 with ⟨kept, later, last⟩
      rw [← R.reaches state label holds run.1] at later last
      refine ⟨kept, ?_, ?_⟩
      · exact (N.throughout_append _ _ _ _).mpr ⟨R.runs state label holds run.1, later⟩
      · exact (N.after_append _ _ _).trans last

/-- A property of the abstract steps holds of those of a run if it holds of those
of each step. -/
theorem throughout_movesOf {P : Abstract -> Move -> Prop} {Q : State -> Label -> Prop}
    (gives : forall state label, R.Inv state -> M.enabled state label -> Q state label ->
      N.Throughout P (R.abstract state) (R.moves state label))
    {state : State} {labels : List Label} (holds : R.Inv state) (run : M.Run state labels)
    (throughout : M.Throughout Q state labels) :
      N.Throughout P (R.abstract state) (R.movesOf state labels) := by
  induction labels generalizing state with
  | nil => exact trivial
  | cons label rest ih =>
      have later := ih (R.keeps state label holds run.1) run.2 throughout.2
      rw [← R.reaches state label holds run.1] at later
      exact (N.throughout_append _ _ _ _).mpr ⟨gives state label holds run.1 throughout.1, later⟩

/-! ## Copies that take turns -/

variable {Copy : Type y} [DecidableEq Copy] (small : (Copy -> State) -> Copy -> Label -> Prop)
  (large : (Copy -> Abstract) -> Copy -> Move -> Prop)

theorem abstract_update (states : Copy -> State) (copy : Copy) (next : State) :
    (fun other => R.abstract (Function.update states copy next other)) =
      Function.update (fun other => R.abstract (states other)) copy (R.abstract next) := by
  funext other
  exact Function.apply_update (fun _ => R.abstract) states copy next other

/-- The copies refine the copies. -/
def interleaved (Whole : (Copy -> State) -> Prop)
    (keeps : forall states step, (forall copy, R.Inv (states copy)) -> Whole states ->
      (M.interleaved small).enabled states step -> Whole ((M.interleaved small).step states step))
    (supplies : forall states copy label, (forall copy, R.Inv (states copy)) -> Whole states ->
      (M.interleaved small).enabled states (copy, label) ->
        (N.interleaved large).Throughout (fun abstracts step => large abstracts step.1 step.2)
          (fun other => R.abstract (states other))
          ((R.moves (states copy) label).map (Prod.mk copy))) :
    (M.interleaved small).Refinement (N.interleaved large) where
  Inv := fun states => (forall copy, R.Inv (states copy)) ∧ Whole states
  abstract := fun states copy => R.abstract (states copy)
  moves := fun states step => (R.moves (states step.1) step.2).map (Prod.mk step.1)
  keeps := by
    rintro states ⟨copy, label⟩ ⟨each, whole⟩ enabled
    refine ⟨fun other => ?_, keeps states _ each whole enabled⟩
    rw [interleaved_step]
    by_cases same : other = copy
    · subst same
      rw [Function.update_self]
      exact R.keeps (states other) label (each other) enabled.1
    · rw [Function.update_of_ne same]
      exact each other
  runs := by
    rintro states ⟨copy, label⟩ ⟨each, whole⟩ enabled
    exact N.run_interleaved_map large (R.runs (states copy) label (each copy) enabled.1)
      (supplies states copy label each whole enabled)
  reaches := by
    rintro states ⟨copy, label⟩ ⟨each, whole⟩ enabled
    rw [after_interleaved_map, R.reaches (states copy) label (each copy) enabled.1,
      interleaved_step, R.abstract_update]

end Refinement

end Machine

end Library
end Johnny
