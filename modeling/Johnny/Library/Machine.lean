import Mathlib.Logic.Basic
import Mathlib.Data.List.Basic

namespace Johnny
namespace Library

/-!
# Labelled machines and their runs

A machine takes labelled steps.  Some labels are not enabled in some states:
they describe calls that no caller makes or results that the environment does
not give.  A run is a list of labels, each enabled where it is taken.

Two rules are stated once here.  An invariant of the enabled steps holds after
every run.  A guarded invariant is kept only by the steps that meet a
condition; if in every state of the invariant a step is good exactly when it
meets the condition, then a whole run is good exactly when all its steps meet
the condition.
-/

universe u v w

/-- A machine over states and labels. -/
structure Machine (State : Type u) (Label : Type v) where
  enabled : State -> Label -> Prop
  step : State -> Label -> State

namespace Machine

variable {State : Type u} {Label : Type v} (M : Machine State Label)

/-- The state after a list of labels. -/
def after (state : State) (labels : List Label) : State :=
  labels.foldl M.step state

/-- A property of every step taken along a list of labels. -/
def Throughout (P : State -> Label -> Prop) : State -> List Label -> Prop
  | _, [] => True
  | state, label :: rest => P state label ∧ Throughout P (M.step state label) rest

/-- A run takes only enabled steps. -/
def Run (state : State) (labels : List Label) : Prop :=
  M.Throughout M.enabled state labels

instance throughoutDecidable (P : State -> Label -> Prop)
    [decide : forall state label, Decidable (P state label)] (state : State) :
    (labels : List Label) -> Decidable (M.Throughout P state labels)
  | [] => .isTrue trivial
  | label :: rest =>
      match decide state label, throughoutDecidable P (M.step state label) rest with
      | .isTrue now, .isTrue later => .isTrue ⟨now, later⟩
      | .isFalse never, _ => .isFalse (fun both => never both.1)
      | _, .isFalse never => .isFalse (fun both => never both.2)

instance runDecidable [forall state label, Decidable (M.enabled state label)]
    (state : State) (labels : List Label) : Decidable (M.Run state labels) :=
  M.throughoutDecidable M.enabled state labels

@[simp] theorem after_nil (state : State) : M.after state [] = state := rfl

@[simp] theorem after_cons (state : State) (label : Label) (rest : List Label) :
    M.after state (label :: rest) = M.after (M.step state label) rest := rfl

@[simp] theorem throughout_nil (P : State -> Label -> Prop) (state : State) :
    M.Throughout P state [] := trivial

@[simp] theorem throughout_cons (P : State -> Label -> Prop) (state : State) (label : Label)
    (rest : List Label) :
    M.Throughout P state (label :: rest) <-> P state label ∧
      M.Throughout P (M.step state label) rest :=
  Iff.rfl

theorem throughout_of_forall {P : State -> Label -> Prop}
    (always : forall state label, P state label)
    (state : State) (labels : List Label) : M.Throughout P state labels := by
  induction labels generalizing state with
  | nil => exact trivial
  | cons label rest ih => exact ⟨always state label, ih _⟩

theorem throughout_imp {P Q : State -> Label -> Prop}
    (implies : forall state label, P state label -> Q state label)
    {state : State} {labels : List Label} (throughout : M.Throughout P state labels) :
    M.Throughout Q state labels := by
  induction labels generalizing state with
  | nil => exact trivial
  | cons label rest ih => exact ⟨implies _ _ throughout.1, ih throughout.2⟩

theorem throughout_and {P Q : State -> Label -> Prop} {state : State} {labels : List Label} :
    M.Throughout (fun state label => P state label ∧ Q state label) state labels <->
      M.Throughout P state labels ∧ M.Throughout Q state labels := by
  induction labels generalizing state with
  | nil => simp
  | cons label rest ih =>
      simp only [throughout_cons, ih]
      exact and_and_and_comm

theorem throughout_append (P : State -> Label -> Prop) (state : State) (first second : List Label) :
    M.Throughout P state (first ++ second) <->
      M.Throughout P state first ∧ M.Throughout P (M.after state first) second := by
  induction first generalizing state with
  | nil => simp
  | cons label rest ih =>
      simp only [List.cons_append, throughout_cons, after_cons, ih, and_assoc]

theorem after_append (state : State) (first second : List Label) :
    M.after state (first ++ second) = M.after (M.after state first) second :=
  List.foldl_append

/-- A state that some run from `initial` ends in. -/
def Reachable (initial state : State) : Prop :=
  Exists fun labels : List Label => M.Run initial labels ∧ M.after initial labels = state

theorem refl_reachable (state : State) : M.Reachable state state :=
  ⟨[], trivial, rfl⟩

theorem Reachable.step {M : Machine State Label} {initial state : State} {label : Label}
    (reachable : M.Reachable initial state) (enabled : M.enabled state label) :
    M.Reachable initial (M.step state label) := by
  rcases reachable with ⟨labels, run, rfl⟩
  refine ⟨labels ++ [label], (M.throughout_append _ _ _ _).mpr ⟨run, enabled, trivial⟩, ?_⟩
  rw [after_append]
  rfl

/-- What is written down along a list of labels. -/
def log {Entry : Type w} (writes : State -> Label -> List Entry) : State -> List Label -> List Entry
  | _, [] => []
  | state, label :: rest => writes state label ++ log writes (M.step state label) rest

/-- The same machine with a further condition on its steps. -/
def restrict (P : State -> Label -> Prop) : Machine State Label where
  enabled := fun state label => M.enabled state label ∧ P state label
  step := M.step

@[simp] theorem restrict_throughout (condition P : State -> Label -> Prop) (state : State)
    (labels : List Label) :
    (M.restrict condition).Throughout P state labels <-> M.Throughout P state labels := by
  induction labels generalizing state with
  | nil => rfl
  | cons label rest ih => exact and_congr_right (fun _ => ih (M.step state label))

theorem restrict_run (condition : State -> Label -> Prop) (state : State) (labels : List Label) :
    (M.restrict condition).Run state labels <-> M.Run state labels ∧
      M.Throughout condition state labels := by
  unfold Run
  rw [restrict_throughout]
  exact M.throughout_and

/-- What the steps of a kind keep holds after steps of that kind. -/
theorem after_of_throughout {Inv : State -> Prop} {P : State -> Label -> Prop}
    (keeps : forall state label, Inv state -> P state label -> Inv (M.step state label))
    {state : State} {labels : List Label} (holds : Inv state)
    (throughout : M.Throughout P state labels) : Inv (M.after state labels) := by
  induction labels generalizing state with
  | nil => exact holds
  | cons label rest ih => exact ih (keeps state label holds throughout.1) throughout.2

/-- The same for a property of the states and the log. -/
theorem log_of_throughout {Entry : Type w} {writes : State -> Label -> List Entry}
    {Inv : List Entry -> State -> Prop} {P : State -> Label -> Prop}
    (keeps : forall entries state label, Inv entries state -> P state label ->
      Inv (entries ++ writes state label) (M.step state label))
    {entries : List Entry} {state : State} {labels : List Label} (holds : Inv entries state)
    (throughout : M.Throughout P state labels) :
    Inv (entries ++ M.log writes state labels) (M.after state labels) := by
  induction labels generalizing entries state with
  | nil =>
      rw [log, List.append_nil]
      exact holds
  | cons label rest ih =>
      rw [log, ← List.append_assoc]
      exact ih (keeps entries state label holds throughout.1) throughout.2

/-- What every enabled step keeps holds after every run. -/
theorem invariant_after {Inv : State -> Prop}
    (keeps : forall state label, Inv state -> M.enabled state label -> Inv (M.step state label))
    {state : State} {labels : List Label} (holds : Inv state) (run : M.Run state labels) :
    Inv (M.after state labels) :=
  M.after_of_throughout keeps holds run

theorem invariant_reachable {Inv : State -> Prop}
    (keeps : forall state label, Inv state -> M.enabled state label -> Inv (M.step state label))
    {initial state : State} (holds : Inv initial) (reachable : M.Reachable initial state) :
    Inv state := by
  rcases reachable with ⟨labels, run, rfl⟩
  exact M.invariant_after keeps holds run

/-- An invariant holds at every step of a run. -/
theorem invariant_throughout {Inv : State -> Prop}
    (keeps : forall state label, Inv state -> M.enabled state label -> Inv (M.step state label))
    {state : State} {labels : List Label} (holds : Inv state) (run : M.Run state labels) :
    M.Throughout (fun state _ => Inv state) state labels := by
  induction labels generalizing state with
  | nil => exact trivial
  | cons label rest ih => exact ⟨holds, ih (keeps state label holds run.1) run.2⟩

/-! ## Guarded invariants -/

/-- An invariant that enabled steps keep under a condition, together with a
reading of good steps that the condition decides. -/
structure Guarded (Inv : State -> Prop) (Cond Good : State -> Label -> Prop) : Prop where
  keeps : forall state label, Inv state -> M.enabled state label -> Cond state label ->
    Inv (M.step state label)
  exact : forall state label, Inv state -> M.enabled state label ->
    (Good state label <-> Cond state label)

/-- Along a run the steps are all good exactly when they all meet the
condition. -/
theorem Guarded.throughout_iff {M : Machine State Label} {Inv : State -> Prop}
    {Cond Good : State -> Label -> Prop} (guarded : M.Guarded Inv Cond Good)
    {state : State} {labels : List Label} (holds : Inv state) (run : M.Run state labels) :
    M.Throughout Good state labels <-> M.Throughout Cond state labels := by
  induction labels generalizing state with
  | nil => rfl
  | cons label rest ih =>
      rw [throughout_cons, throughout_cons, guarded.exact state label holds run.1]
      refine and_congr_right (fun cond => ?_)
      exact ih (guarded.keeps state label holds run.1 cond) run.2

end Machine

end Library
end Johnny
