import Mathlib.Logic.Basic

namespace Johnny
namespace Library

/-!
# Loops without a bound

A loop repeats its body until a round leaves it.  A program has no fuel, so
`Leaves` counts the rounds that are made and gives no bound on them; a loop
that never ends has no derivation.  The rule for ending is the usual one: the
rounds keep an invariant, and under it each of them lowers a measure.

`runLoop` evaluates a loop whose rounds may fail.  It is given more rounds than
the loop can need, so that a result is the result of the loop.
-/

universe u v

/-- How one round of a loop ends. -/
inductive Pass (State : Type u) (Result : Type v)
  | again (state : State)
  | leave (result : Result)

variable {State : Type u} {Result : Type v}

/-- The loop is left with a result after a number of rounds that went on. -/
inductive Leaves (body : State -> Pass State Result) : State -> Nat -> Result -> Prop
  | now {state : State} {result : Result} (leaves : body state = .leave result) :
      Leaves body state 0 result
  | later {state next : State} {rounds : Nat} {result : Result} (goes : body state = .again next)
      (rest : Leaves body next rounds result) : Leaves body state (rounds + 1) result

/-- A loop whose rounds lower a measure makes no more rounds than it allows. -/
theorem leaves_of_measure {body : State -> Pass State Result} {Inv : State -> Prop}
    {measure : State -> Nat} (lowers : forall state next, Inv state -> body state = .again next ->
      Inv next ∧ measure next < measure state)
    {state : State} (holds : Inv state) :
    Exists fun rounds => Exists fun result => rounds ≤ measure state ∧
      Leaves body state rounds result := by
  cases pass : body state with
  | leave result => exact ⟨0, result, Nat.zero_le _, .now pass⟩
  | again next =>
      have lower := lowers state next holds pass
      rcases leaves_of_measure lowers lower.1 with ⟨rounds, result, bound, rest⟩
      exact ⟨rounds + 1, result, Nat.lt_of_le_of_lt bound lower.2, .later pass rest⟩
  termination_by measure state
  decreasing_by exact lower.2

/-- The loop with a number of rounds to go.  There is no result when a round
fails or when the rounds do not suffice. -/
def runLoop (body : State -> Option (Pass State Result)) : Nat -> State -> Option Result
  | 0, _ => none
  | rounds + 1, state =>
      match body state with
      | none => none
      | some (.leave result) => some result
      | some (.again next) => runLoop body rounds next

/-- No round fails under the invariant, and the measure bounds the rounds. -/
theorem runLoop_of_measure {body : State -> Option (Pass State Result)} (Inv : State -> Prop)
    (measure : State -> Nat) {Post : Result -> Prop}
    (round : forall state, Inv state ->
      (Exists fun result => body state = some (.leave result) ∧ Post result) ∨
      (Exists fun next => body state = some (.again next) ∧ Inv next ∧
        measure next < measure state)) {rounds : Nat} {state : State} (holds : Inv state)
    (enough : measure state < rounds) :
    Exists fun result => runLoop body rounds state = some result ∧ Post result := by
  induction rounds generalizing state with
  | zero => exact absurd enough (Nat.not_lt_zero _)
  | succ rounds ih =>
      rcases round state holds with ⟨result, leaves, post⟩ | ⟨next, goes, kept, lower⟩
      · exact ⟨result, by simp only [runLoop, leaves], post⟩
      · rcases ih kept (by omega) with ⟨result, rest, post⟩
        exact ⟨result, by simp only [runLoop, goes, rest], post⟩

/-- What holds before every round holds of the result. -/
theorem runLoop_of_invariant {body : State -> Option (Pass State Result)} (Inv : State -> Prop)
    {Post : Result -> Prop}
    (again : forall state next, Inv state -> body state = some (.again next) -> Inv next)
    (leave : forall state result, Inv state -> body state = some (.leave result) -> Post result)
    {rounds : Nat} {state : State} {result : Result} (holds : Inv state)
    (run : runLoop body rounds state = some result) : Post result := by
  induction rounds generalizing state with
  | zero => cases run
  | succ rounds ih =>
      rw [runLoop] at run
      cases pass : body state with
      | none =>
          rw [pass] at run
          cases run
      | some pass' =>
          rw [pass] at run
          cases pass' with
          | leave last =>
              cases run
              exact leave state result holds pass
          | again next => exact ih (again state next holds pass) run

/-- A body that does more, given more rounds, leaves the loop with the same
result. -/
theorem runLoop_mono {body wider : State -> Option (Pass State Result)}
    (wide : forall state pass, body state = some pass -> wider state = some pass)
    {rounds more : Nat} (le : rounds ≤ more) {state : State} {result : Result}
    (run : runLoop body rounds state = some result) : runLoop wider more state = some result := by
  induction rounds generalizing state more with
  | zero => cases run
  | succ rounds ih =>
      rcases more with - | more
      · exact absurd le (Nat.not_succ_le_zero rounds)
      · rw [runLoop] at run ⊢
        cases pass : body state with
        | none =>
            rw [pass] at run
            cases run
        | some pass' =>
            rw [pass] at run
            rw [wide state pass' pass]
            cases pass' with
            | leave last => exact run
            | again next => exact ih (Nat.le_of_succ_le_succ le) run

/-- A loop over the numbers below a bound. -/
def forLoop (body : Nat -> State -> Option State) : Nat -> State -> Option State
  | 0, state => some state
  | i + 1, state => (forLoop body i state).bind (body i)

theorem forLoop_of_step (body : Nat -> State -> Option State) (bound : Nat) (state : State)
    (Inv : Nat -> State -> Prop)
    (step : forall i state, i < bound -> Inv i state -> Exists fun next =>
      body i state = some next ∧ Inv (i + 1) next)
    (holds : Inv 0 state) :
    Exists fun last => forLoop body bound state = some last ∧ Inv bound last := by
  induction bound with
  | zero => exact ⟨state, rfl, holds⟩
  | succ bound ih =>
      rcases ih (fun i state inside => step i state (by omega)) with ⟨middle, run, kept⟩
      rcases step bound middle (Nat.lt_succ_self bound) kept with ⟨last, own, final⟩
      exact ⟨last, by rw [forLoop, run]; exact own, final⟩

end Library
end Johnny
