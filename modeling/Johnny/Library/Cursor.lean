import Mathlib.Data.List.Infix
import Mathlib.Data.List.Induction

namespace Johnny
namespace Library

/-!
# One cursor over a sequence of messages

A sender keeps a single cursor: the part of one message that is still to be
sent.  Loading the next message replaces whatever the cursor held; advancing
sends the next few symbols.

What is sent ought to be the messages one after another.  That holds, and no
message is ever replaced before its end, exactly when each message is loaded
while the cursor holds nothing.
-/

universe u

/-- What can happen to the cursor.  An idle step does not concern it. -/
inductive Transfer (A : Type u)
  | load (message : List A)
  | advance (count : Nat)
  | idle

namespace Transfer

variable {A : Type u}

/-- The cursor after one step. -/
def apply (pending : List A) : Transfer A -> List A
  | .load message => message
  | .advance count => pending.drop count
  | .idle => pending

/-- What one step sends. -/
def output (pending : List A) : Transfer A -> List A
  | .advance count => pending.take count
  | _ => []

def message : Transfer A -> List A
  | .load message => message
  | _ => []

/-- The cursor after a sequence of steps, starting with nothing to send. -/
def pending (steps : List (Transfer A)) : List A :=
  steps.foldl apply []

/-- Everything that is sent from a cursor on. -/
def sentFrom : List A -> List (Transfer A) -> List A
  | _, [] => []
  | pending, step :: rest => step.output pending ++ sentFrom (step.apply pending) rest

def sent (steps : List (Transfer A)) : List A :=
  sentFrom [] steps

/-- The loaded messages one after another. -/
def messages (steps : List (Transfer A)) : List A :=
  steps.flatMap message

@[simp] theorem pending_append_singleton (steps : List (Transfer A)) (step : Transfer A) :
    pending (steps ++ [step]) = step.apply (pending steps) := by
  unfold pending
  rw [List.foldl_append]
  rfl

theorem sentFrom_append (cursor : List A) (first second : List (Transfer A)) :
    sentFrom cursor (first ++ second) =
      sentFrom cursor first ++ sentFrom (first.foldl apply cursor) second := by
  induction first generalizing cursor with
  | nil => rfl
  | cons step rest ih =>
      rw [List.cons_append, sentFrom, ih, sentFrom, List.append_assoc, List.foldl_cons]

@[simp] theorem sent_append_singleton (steps : List (Transfer A)) (step : Transfer A) :
    sent (steps ++ [step]) = sent steps ++ step.output (pending steps) := by
  unfold sent pending
  rw [sentFrom_append]
  simp only [sentFrom, List.append_nil]

@[simp] theorem messages_append_singleton (steps : List (Transfer A)) (step : Transfer A) :
    messages (steps ++ [step]) = messages steps ++ step.message := by
  unfold messages
  rw [List.flatMap_append, List.flatMap_cons, List.flatMap_nil, List.append_nil]

/-! ## Intact streams -/

/-- At all times the messages are sent in order without a gap, and a message is
loaded only when all earlier ones have been sent. -/
structure Intact (steps : List (Transfer A)) : Prop where
  inOrder : forall before, before <+: steps -> sent before <+: messages before
  finished : forall before next, before ++ [.load next] <+: steps -> sent before = messages before

/-- Each message is loaded while the cursor holds nothing. -/
def LoadsWhenDone (steps : List (Transfer A)) : Prop :=
  forall before next, before ++ [.load next] <+: steps -> pending before = []

theorem Intact.of_prefix {first second : List (Transfer A)} (intact : Intact second)
    (start : first <+: second) : Intact first where
  inOrder := fun before inside => intact.inOrder before (inside.trans start)
  finished := fun before next inside => intact.finished before next (inside.trans start)

theorem LoadsWhenDone.of_prefix {first second : List (Transfer A)} (done : LoadsWhenDone second)
    (start : first <+: second) : LoadsWhenDone first :=
  fun before next inside => done before next (inside.trans start)

/-- What was sent and what the cursor holds make up all messages. -/
theorem LoadsWhenDone.sent_append_pending {steps : List (Transfer A)} (done : LoadsWhenDone steps) :
    sent steps ++ pending steps = messages steps := by
  induction steps using List.reverseRecOn with
  | nil => rfl
  | append_singleton steps step ih =>
      have earlier := ih (done.of_prefix (List.prefix_append steps [step]))
      rw [sent_append_singleton, pending_append_singleton, messages_append_singleton, ← earlier]
      cases step with
      | load next =>
          have empty := done steps next (List.prefix_refl _)
          rw [empty]
          simp only [output, apply, message, List.append_nil]
      | advance count =>
          simp only [output, apply, message, List.append_nil, List.append_assoc]
          rw [List.take_append_drop]
      | idle => simp only [output, apply, message, List.append_nil]

/-- A message that is loaded too early costs what it replaces. -/
theorem sent_length_add_pending_le (steps : List (Transfer A)) :
    (sent steps).length + (pending steps).length ≤ (messages steps).length := by
  induction steps using List.reverseRecOn with
  | nil => exact Nat.le_refl 0
  | append_singleton steps step ih =>
      rw [sent_append_singleton, pending_append_singleton, messages_append_singleton]
      cases step with
      | load next =>
          simp only [output, apply, message, List.append_nil, List.length_append]
          omega
      | advance count =>
          simp only [output, apply, message, List.append_nil, List.length_append, List.length_take,
            List.length_drop]
          omega
      | idle =>
          simp only [output, apply, message, List.append_nil]
          exact ih

theorem loadsWhenDone_of_length {steps : List (Transfer A)}
    (whole : (messages steps).length ≤ (sent steps).length + (pending steps).length) :
      LoadsWhenDone steps := by
  induction steps using List.reverseRecOn with
  | nil =>
      intro before next inside
      have empty := List.prefix_nil.mp inside
      exact absurd empty (by simp)
  | append_singleton steps step ih =>
      have bound := sent_length_add_pending_le steps
      rw [sent_append_singleton, pending_append_singleton, messages_append_singleton] at whole
      intro before next inside
      rcases List.prefix_concat_iff.mp inside with last | inEarlier
      · rcases List.append_inj' last rfl with ⟨same, sameStep⟩
        have loaded := (List.cons.inj sameStep).1
        subst same loaded
        simp only [output, apply, message, List.append_nil, List.length_append] at whole
        exact List.eq_nil_of_length_eq_zero (by omega)
      · refine ih ?_ before next inEarlier
        cases step with
        | load next =>
            simp only [output, apply, message, List.append_nil, List.length_append] at whole
            omega
        | advance count =>
            simp only [output, apply, message, List.append_nil, List.length_append,
              List.length_take, List.length_drop] at whole
            omega
        | idle =>
            simp only [output, apply, message, List.append_nil] at whole
            exact whole

/-- All messages have been sent exactly when none was loaded too early and
nothing is left of the last one. -/
theorem sent_eq_messages_iff (steps : List (Transfer A)) :
    sent steps = messages steps <-> LoadsWhenDone steps ∧ pending steps = [] := by
  constructor
  · intro equal
    have bound := sent_length_add_pending_le steps
    rw [equal] at bound
    refine ⟨loadsWhenDone_of_length ?_, List.eq_nil_of_length_eq_zero (by omega)⟩
    rw [equal]
    omega
  · rintro ⟨done, empty⟩
    have whole := done.sent_append_pending
    rwa [empty, List.append_nil] at whole

theorem LoadsWhenDone.intact {steps : List (Transfer A)} (done : LoadsWhenDone steps) :
    Intact steps where
  inOrder := by
    intro before inside
    have whole := (done.of_prefix inside).sent_append_pending
    exact ⟨pending before, whole⟩
  finished := by
    intro before next inside
    have start := (List.prefix_append before [.load next]).trans inside
    have whole := (done.of_prefix start).sent_append_pending
    rw [done before next inside, List.append_nil] at whole
    exact whole

/-- The induction is over the steps taken: before the first message that is
loaded too early, everything sent and pending makes up all messages. -/
theorem Intact.loadsWhenDone {steps : List (Transfer A)} (intact : Intact steps) :
    LoadsWhenDone steps := by
  induction steps using List.reverseRecOn with
  | nil =>
      intro before next inside
      have empty := List.prefix_nil.mp inside
      exact absurd empty (by simp)
  | append_singleton steps step ih =>
      have earlier := ih (intact.of_prefix (List.prefix_append steps [step]))
      intro before next inside
      rcases List.prefix_concat_iff.mp inside with last | inEarlier
      · have same := (List.append_inj' last rfl).1
        subst same
        have whole := earlier.sent_append_pending
        rw [← intact.finished before next inside] at whole
        exact List.append_right_eq_self.mp whole
      · exact earlier before next inEarlier

/-- A single cursor delivers all messages intact exactly when none is loaded
too early. -/
theorem intact_iff (steps : List (Transfer A)) : Intact steps <-> LoadsWhenDone steps :=
  ⟨Intact.loadsWhenDone, LoadsWhenDone.intact⟩

end Transfer

end Library
end Johnny
