import Johnny.Library.Leases
import Johnny.Library.Machine
import Mathlib.Logic.Function.Basic

namespace Johnny
namespace Library

/-!
# Copies of a machine that take turns

Several copies of one machine take their steps in any order.  A step changes the
state of its own copy only, but whether it is enabled may depend on all of them:
the copies get their resources from one supply.

Seen from one copy, a run of all is a run of the machine.  A resource that is
handed out only while no copy holds it is never held by two.  Then the leases
hold across the copies too: what one copy gives back, or takes for itself,
another one uses only after taking it again.
-/

universe u v w x

namespace Machine

variable {State : Type u} {Label : Type v} (M : Machine State Label) {Copy : Type w}
    [DecidableEq Copy]
  (supplied : (Copy -> State) -> Copy -> Label -> Prop)

/-- The copies together; a step carries the name of its copy. -/
def interleaved : Machine (Copy -> State) (Copy × Label) where
  enabled := fun states step => M.enabled (states step.1) step.2 ∧ supplied states step.1 step.2
  step := fun states step => Function.update states step.1 (M.step (states step.1) step.2)

/-- The labels of one copy, in their order. -/
def stepsOf (copy : Copy) (steps : List (Copy × Label)) : List Label :=
  steps.filterMap (fun step => if step.1 = copy then some step.2 else none)

@[simp] theorem interleaved_step (states : Copy -> State) (step : Copy × Label) :
    (M.interleaved supplied).step states step = Function.update states step.1
    (M.step (states step.1) step.2) := rfl

@[simp] theorem stepsOf_nil (copy : Copy) : stepsOf copy ([] : List (Copy × Label)) = [] := rfl

theorem stepsOf_cons_self (copy : Copy) (label : Label) (rest : List (Copy × Label)) :
    stepsOf copy ((copy, label) :: rest) = label :: stepsOf copy rest :=
  List.filterMap_cons_some (if_pos rfl)

theorem stepsOf_cons_of_ne {copy other : Copy} (different : other ≠ copy) (label : Label)
    (rest : List (Copy × Label)) : stepsOf copy ((other, label) :: rest) = stepsOf copy rest :=
  List.filterMap_cons_none (if_neg different)

/-- A copy ends where its own labels lead. -/
theorem after_interleaved (states : Copy -> State) (steps : List (Copy × Label)) (copy : Copy) :
    (M.interleaved supplied).after states steps copy = M.after (states copy)
    (stepsOf copy steps) := by
  induction steps generalizing states with
  | nil => rfl
  | cons step rest ih =>
      rcases step with ⟨other, label⟩
      rw [after_cons, ih, interleaved_step]
      by_cases same : other = copy
      · subst same
        rw [stepsOf_cons_self, after_cons, Function.update_self]
      · rw [stepsOf_cons_of_ne same, Function.update_of_ne (Ne.symm same)]

/-- What holds of all steps holds of the steps of each copy, and the other way
round. -/
theorem throughout_interleaved_iff {P : State -> Label -> Prop} (states : Copy -> State)
    (steps : List (Copy × Label)) :
    (M.interleaved supplied).Throughout
    (fun states step => P (states step.1) step.2) states steps <->
      forall copy, M.Throughout P (states copy) (stepsOf copy steps) := by
  induction steps generalizing states with
  | nil => exact iff_of_true trivial (fun _ => trivial)
  | cons step rest ih =>
      rcases step with ⟨other, label⟩
      rw [throughout_cons, ih, interleaved_step]
      constructor
      · rintro ⟨now, later⟩ copy
        have own := later copy
        by_cases same : other = copy
        · subst same
          rw [Function.update_self] at own
          rw [stepsOf_cons_self]
          exact ⟨now, own⟩
        · rw [Function.update_of_ne (Ne.symm same)] at own
          rw [stepsOf_cons_of_ne same]
          exact own
      · intro all
        have own := all other
        rw [stepsOf_cons_self] at own
        refine ⟨own.1, fun copy => ?_⟩
        by_cases same : other = copy
        · subst same
          rw [Function.update_self]
          exact own.2
        · rw [Function.update_of_ne (Ne.symm same), ← stepsOf_cons_of_ne same label rest]
          exact all copy

/-- Seen from one copy, a run of all is a run of the machine. -/
theorem run_stepsOf {states : Copy -> State} {steps : List (Copy × Label)}
    (run : (M.interleaved supplied).Run states steps) (copy : Copy) :
    M.Run (states copy) (stepsOf copy steps) :=
  (M.throughout_interleaved_iff supplied states steps).mp
    ((M.interleaved supplied).throughout_imp (fun _ _ enabled => enabled.1) run) copy

variable {M} in
theorem after_of_step_eq {N : Machine State Label} (same : M.step = N.step) (state : State)
    (labels : List Label) : M.after state labels = N.after state labels := by
  unfold after
  rw [same]

variable {M} in
theorem log_of_step_eq {Entry : Type x} {N : Machine State Label} (same : M.step = N.step)
    (writes : State -> Label -> List Entry) (state : State) (labels : List Label) :
    M.log writes state labels = N.log writes state labels := by
  induction labels generalizing state with
  | nil => rfl
  | cons label rest ih => rw [log, log, ih, same]

theorem stepsOf_map_self (copy : Copy) (labels : List Label) :
    stepsOf copy (labels.map (Prod.mk copy)) = labels := by
  induction labels with
  | nil => rfl
  | cons label rest ih => rw [List.map_cons, stepsOf_cons_self, ih]

theorem stepsOf_map_of_ne {copy other : Copy} (different : other ≠ copy) (labels : List Label) :
    stepsOf copy (labels.map (Prod.mk other)) = [] := by
  induction labels with
  | nil => rfl
  | cons label rest ih => rw [List.map_cons, stepsOf_cons_of_ne different, ih]

theorem after_interleaved_map (states : Copy -> State) (copy : Copy) (labels : List Label) :
    (M.interleaved supplied).after states (labels.map (Prod.mk copy)) =
      Function.update states copy (M.after (states copy) labels) := by
  funext other
  rw [after_interleaved]
  by_cases same : other = copy
  · subst same
    rw [stepsOf_map_self, Function.update_self]
  · rw [stepsOf_map_of_ne (Ne.symm same), Function.update_of_ne same]
    rfl

theorem run_interleaved_map {states : Copy -> State} {copy : Copy} {labels : List Label}
    (run : M.Run (states copy) labels)
    (supplies : (M.interleaved supplied).Throughout (fun states step =>
      supplied states step.1 step.2) states
      (labels.map (Prod.mk copy))) :
    (M.interleaved supplied).Run states (labels.map (Prod.mk copy)) := by
  refine (M.interleaved supplied).throughout_and.mpr ⟨?_, supplies⟩
  refine (M.throughout_interleaved_iff supplied states _).mpr (fun other => ?_)
  by_cases same : other = copy
  · subst same
    rw [stepsOf_map_self]
    exact run
  · rw [stepsOf_map_of_ne (Ne.symm same)]
    trivial

/-- A condition on the machine is a condition on its copies. -/
theorem run_interleaved_restrict {condition : State -> Label -> Prop} {states : Copy -> State}
    {steps : List (Copy × Label)} (run : (M.interleaved supplied).Run states steps)
    (throughout : (M.interleaved supplied).Throughout (fun states step =>
      condition (states step.1) step.2) states
      steps) :
    ((M.restrict condition).interleaved supplied).Run states steps := by
  induction steps generalizing states with
  | nil => trivial
  | cons step rest ih => exact ⟨⟨⟨run.1.1, throughout.1⟩, run.1.2⟩, ih run.2 throughout.2⟩

end Machine

section

variable {State : Type u} {Copy : Type w} {Resource : Type x} (holds : State -> Resource -> Prop)

/-- No resource is held by two copies. -/
def Exclusive (states : Copy -> State) : Prop :=
  forall first second resource, first ≠ second -> holds (states first) resource ->
    ¬ holds (states second) resource

variable [DecidableEq Copy] {holds} {states : Copy -> State} {copy : Copy} {next : State}

/-- One copy comes to hold only what no other one holds. -/
theorem Exclusive.update (exclusive : Exclusive holds states)
    (gains : forall resource, holds next resource -> holds (states copy) resource ∨
      forall other, other ≠ copy -> ¬ holds (states other) resource) :
    Exclusive holds (Function.update states copy next) := by
  have apart : forall other resource, other ≠ copy -> holds next resource ->
      ¬ holds (states other) resource := by
    intro other resource different held
    rcases gains resource held with before | unheld
    · exact exclusive copy other resource (Ne.symm different) before
    · exact unheld other different
  intro first second resource different firstHolds secondHolds
  by_cases isFirst : first = copy
  · subst isFirst
    rw [Function.update_self] at firstHolds
    rw [Function.update_of_ne (Ne.symm different)] at secondHolds
    exact apart second resource (Ne.symm different) firstHolds secondHolds
  · rw [Function.update_of_ne isFirst] at firstHolds
    by_cases isSecond : second = copy
    · subst isSecond
      rw [Function.update_self] at secondHolds
      exact apart first resource isFirst secondHolds firstHolds
    · rw [Function.update_of_ne isSecond] at secondHolds
      exact exclusive first second resource different firstHolds secondHolds

end

/-! ## Leases across the copies -/

namespace Leasing

variable {Event : Type u} {Resource : Type x}

/-- The leases of several copies.  A copy loses a resource also when another
one gives it back or takes it. -/
def shared (L : Leasing Event Resource) (Copy : Type w) :
    Leasing (Copy × Event) (Copy × Resource) where
  takes := fun event lease => event.1 = lease.1 ∧ L.takes event.2 lease.2
  uses := fun event lease => event.1 = lease.1 ∧ L.uses event.2 lease.2
  givesBack := fun event lease => L.givesBack event.2 lease.2 ∨
    (event.1 ≠ lease.1 ∧ L.takes event.2 lease.2)

/-- An event that keeps to the leases: it uses what is held, and the held
resources change only by what it takes and gives back. -/
structure Keeps (L : Leasing Event Resource) (held : Resource -> Prop) (event : Event)
    (next : Resource -> Prop) : Prop where
  uses : forall resource, L.uses event resource -> held resource
  keeps : forall resource, next resource -> held resource ∨ L.takes event resource
  givesBack : forall resource, L.givesBack event resource -> ¬ next resource

variable {L : Leasing Event Resource}

theorem Keeps.current {held next : Resource -> Prop} {event : Event}
    (event_keeps : L.Keeps held event next)
    {log : List Event} (current : L.Current held log) : L.Current next (log ++ [event]) :=
  current.append_singleton event_keeps.uses event_keeps.keeps event_keeps.givesBack

variable {State : Type v} {Copy : Type w} [DecidableEq Copy] {holds : State -> Resource -> Prop}
  {states : Copy -> State} {copy : Copy} {next : State} {event : Event}

/-- An event of one copy that keeps to the leases of this copy keeps to those of
all, as long as nothing is held by two copies. -/
theorem Keeps.shared (keeps : L.Keeps (holds (states copy)) event (holds next))
    (before : Exclusive holds states) (after : Exclusive holds (Function.update states copy next))
    (returned : forall resource, L.givesBack event resource -> L.uses event resource)
    (taken : forall resource, L.takes event resource -> holds next resource) :
    (L.shared Copy).Keeps (fun lease => holds (states lease.1) lease.2) (copy, event)
      (fun lease => holds (Function.update states copy next lease.1) lease.2) where
  uses := by
    rintro ⟨own, resource⟩ ⟨same, uses⟩
    cases same
    exact keeps.uses resource uses
  keeps := by
    rintro ⟨own, resource⟩ held
    by_cases same : own = copy
    · subst same
      dsimp only at held
      rw [Function.update_self] at held
      exact (keeps.keeps resource held).imp_right (fun takes => ⟨rfl, takes⟩)
    · dsimp only at held
      rw [Function.update_of_ne same] at held
      exact Or.inl held
  givesBack := by
    rintro ⟨own, resource⟩ lost held
    dsimp only at lost held
    by_cases same : own = copy
    · subst same
      rw [Function.update_self] at held
      rcases lost with givesBack | ⟨different, -⟩
      · exact keeps.givesBack resource givesBack held
      · exact different rfl
    · have unchanged := held
      rw [Function.update_of_ne same] at unchanged
      rcases lost with givesBack | ⟨-, takes⟩
      · exact before copy own resource (Ne.symm same)
          (keeps.uses resource (returned resource givesBack)) unchanged
      · have nowHeld : holds (Function.update states copy next copy) resource := by
          rw [Function.update_self]
          exact taken resource takes
        exact after copy own resource (Ne.symm same) nowHeld held

end Leasing

end Library
end Johnny
