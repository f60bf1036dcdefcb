import Johnny.Worker.Events
import Mathlib.Data.List.Count

namespace Johnny
namespace Worker

open Library

/-!
# Batches of events

`johnny_works` waits for a batch of events and then processes it, while clients
go on connecting.  The listening socket is registered edge-triggered: clients
that arrive between two calls of `epoll_wait` are announced once, together, and
never again.  `accept4` is called once for the announcement.

So no client is left in the accept queue without an announcement to come
exactly as long as each announcement is for one client that is then accepted,
or is followed by another arrival before its batch has been processed.
-/

def johnnyEventsBuffer : Nat := 1024

/-- An element of `ev_buf`, by what its `data.ptr` points to: the listening
socket, or the context that was registered for a descriptor. -/
inductive Event
  | server
  | connection (fd : Int) (ctx : ContextPointer) (events : BitVec 32)
  deriving DecidableEq

def Event.isServer : Event -> Bool
  | .server => true
  | .connection _ _ _ => false

def Event.fd : Event -> Option Int
  | .server => none
  | .connection fd _ _ => some fd

/-- A worker with the events of the batch that are still to be processed, the
number of clients in the accept queue, and whether they have been announced
since the last `epoll_wait`. -/
structure BatchState extends WorkerState where
  evBuf : List Event
  acceptQueue : Nat
  notified : Bool

def BatchState.zero : BatchState where
  toWorkerState := WorkerState.zero
  evBuf := []
  acceptQueue := 0
  notified := false

/-- A client connects, `epoll_wait` returns, or the next event of the batch is
processed, with the results of the calls made for it. -/
inductive BatchStep
  | arrives
  | waits (evBuf : List Event)
  | accept (fd : Int) (malloced : Malloced) (added : Bool)
  | turn (recvs : List RecvResult) (sends : List SendResult)

namespace BatchStep

def isArrival : BatchStep -> Bool
  | .arrives => true
  | _ => false

def isWait : BatchStep -> Bool
  | .waits _ => true
  | _ => false

/-- `accept4` returned a descriptor. -/
def isAccepted : BatchStep -> Bool
  | .accept fd _ _ => decide (fd ≠ -1)
  | _ => false

end BatchStep

/-- What `epoll_wait` may report: an announced arrival, or an event on a
registered descriptor. -/
def BatchState.Reports (state : BatchState) : Event -> Prop
  | .server => state.notified = true
  | .connection fd ctx _ => (fd, ctx) ∈ state.interest

instance (state : BatchState) : (event : Event) -> Decidable (state.Reports event)
  | .server => inferInstanceAs (Decidable (state.notified = true))
  | .connection fd ctx _ => inferInstanceAs (Decidable ((fd, ctx) ∈ state.interest))

/-- The next batch: at most one event for a descriptor. -/
structure BatchState.Delivers (state : BatchState) (evBuf : List Event) : Prop where
  processed : state.evBuf = []
  fits : evBuf.length ≤ johnnyEventsBuffer
  reports : forall event, event ∈ evBuf -> state.Reports event
  once : evBuf.countP Event.isServer ≤ 1
  distinct : (evBuf.filterMap Event.fd).Nodup

instance (state : BatchState) (evBuf : List Event) : Decidable (state.Delivers evBuf) :=
  decidable_of_iff
    (state.evBuf = [] ∧ evBuf.length ≤ johnnyEventsBuffer ∧
      (forall event, event ∈ evBuf -> state.Reports event) ∧
      evBuf.countP Event.isServer ≤ 1 ∧ (evBuf.filterMap Event.fd).Nodup)
    ⟨fun ⟨processed, fits, reports, once, distinct⟩ => ⟨processed, fits, reports, once, distinct⟩,
      fun delivers => ⟨delivers.processed, delivers.fits, delivers.reports, delivers.once,
        delivers.distinct⟩⟩

def BatchStep.Enabled (state : BatchState) : BatchStep -> Prop
  | .arrives => True
  | .waits evBuf => state.Delivers evBuf
  | .accept fd malloced added =>
      state.evBuf.head? = some .server ∧
        WorkerStep.Enabled state.toWorkerState (.accept fd malloced added) ∧
        (fd ≠ -1 -> 0 < state.acceptQueue)
  | .turn _ _ => Exists fun fd => Exists fun ctx => Exists fun events =>
      state.evBuf.head? = some (.connection fd ctx events)

instance (state : BatchState) : (step : BatchStep) -> Decidable (step.Enabled state)
  | .arrives => .isTrue trivial
  | .waits evBuf => inferInstanceAs (Decidable (state.Delivers evBuf))
  | .accept fd malloced added => inferInstanceAs (Decidable
      (state.evBuf.head? = some .server ∧
        WorkerStep.Enabled state.toWorkerState (.accept fd malloced added) ∧
        (fd ≠ -1 -> 0 < state.acceptQueue)))
  | .turn _ _ =>
      match next : state.evBuf.head? with
      | some (.connection fd ctx events) => .isTrue ⟨fd, ctx, events, next⟩
      | some .server => .isFalse (fun ⟨_, _, _, equal⟩ => by rw [next] at equal; cases equal)
      | none => .isFalse (fun ⟨_, _, _, equal⟩ => by rw [next] at equal; cases equal)

namespace BatchState

/-- One client more, and an announcement for it. -/
def arrives (state : BatchState) : BatchState :=
  { state with acceptQueue := state.acceptQueue + 1, notified := true }

/-- `epoll_wait`; a reported announcement is used up. -/
def waits (state : BatchState) (evBuf : List Event) : BatchState :=
  { state with evBuf := evBuf, notified := state.notified && !evBuf.any Event.isServer }

/-- The branch for the listening socket. -/
def accepts (state : BatchState) (fd : Int) (malloced : Malloced) (added : Bool) : BatchState :=
  { state with
    toWorkerState := state.toWorkerState.accepts fd malloced added
    evBuf := state.evBuf.tail
    acceptQueue := if fd ≠ -1 then state.acceptQueue - 1 else state.acceptQueue }

/-- The branch for a connection; the context comes from the event. -/
def takesTurn (globals : Globals) (state : BatchState) (recvs : List RecvResult)
    (sends : List SendResult) : BatchState :=
  match state.evBuf with
  | .connection _ ctx events :: rest =>
      { state with
        toWorkerState := state.toWorkerState.takesTurn globals ctx ⟨events, recvs, sends⟩
        evBuf := rest }
  | _ => state

end BatchState

/-- A worker and the clients that connect to it. -/
def batches (globals : Globals) : Machine BatchState BatchStep where
  enabled := fun state step => step.Enabled state
  step := fun state step =>
    match step with
    | .arrives => state.arrives
    | .waits evBuf => state.waits evBuf
    | .accept fd malloced added => state.accepts fd malloced added
    | .turn recvs sends => state.takesTurn globals recvs sends

instance (globals : Globals) (state : BatchState) (step : BatchStep) :
    Decidable ((batches globals).enabled state step) :=
  inferInstanceAs (Decidable (step.Enabled state))

/-- A call of `johnny_works`: the clients that arrive before `epoll_wait`
returns, the batch, and what happens until it has been processed. -/
structure Iteration where
  arrivals : Nat
  evBuf : List Event
  during : List BatchStep

def Iteration.steps (iteration : Iteration) : List BatchStep :=
  List.replicate iteration.arrivals .arrives ++ .waits iteration.evBuf :: iteration.during

/-- The loop of `johnny_worker`. -/
def iterations (globals : Globals) : Machine BatchState Iteration where
  enabled := fun state iteration =>
    (batches globals).Run state iteration.steps ∧ iteration.during.any BatchStep.isWait = false ∧
      ((batches globals).after state iteration.steps).evBuf = []
  step := fun state iteration => (batches globals).after state iteration.steps

instance (globals : Globals) (state : BatchState) (iteration : Iteration) :
    Decidable ((iterations globals).enabled state iteration) :=
  inferInstanceAs (Decidable (_ ∧ _ ∧ _))

/-- Clients in the queue have an announcement to come. -/
def NotStranded (state : BatchState) : Prop :=
  0 < state.acceptQueue -> state.notified = true

/-- If the batch has the announcement, then another client arrives before the
batch has been processed, or there is one client only and it is accepted. -/
def AcceptsAll (state : BatchState) (iteration : Iteration) : Prop :=
  iteration.evBuf.any Event.isServer = true -> iteration.during.any BatchStep.isArrival = true ∨
    (state.acceptQueue + iteration.arrivals = 1 ∧ iteration.during.any BatchStep.isAccepted = true)

instance (state : BatchState) (iteration : Iteration) : Decidable (AcceptsAll state iteration) :=
  inferInstanceAs (Decidable (_ -> _))

/-- What the steps that process a batch do to the queue, the announcement and
the events on the listening socket. -/
structure QueueChange (before : BatchState) (steps : List BatchStep) (after : BatchState) :
    Prop where
  queue : after.acceptQueue + steps.countP BatchStep.isAccepted =
    before.acceptQueue + steps.countP BatchStep.isArrival
  notified : after.notified = (before.notified || steps.any BatchStep.isArrival)
  servers : steps.countP BatchStep.isAccepted + after.evBuf.countP Event.isServer ≤
    before.evBuf.countP Event.isServer

theorem QueueChange.nil (state : BatchState) : QueueChange state [] state where
  queue := rfl
  notified := (Bool.or_false _).symm
  servers := by
    rw [List.countP_nil]
    omega

theorem QueueChange.cons {before next after : BatchState} {step : BatchStep} {rest : List BatchStep}
    (first : QueueChange before [step] next) (later : QueueChange next rest after) :
    QueueChange before (step :: rest) after where
  queue := by
    have one := first.queue
    have more := later.queue
    rw [← List.singleton_append, List.countP_append, List.countP_append]
    omega
  notified := by
    rw [later.notified, first.notified, List.any_cons, List.any_cons, List.any_nil, Bool.or_false,
      Bool.or_assoc]
  servers := by
    have one := first.servers
    have more := later.servers
    rw [← List.singleton_append, List.countP_append]
    omega

theorem queueChange_step (globals : Globals) {state : BatchState} {step : BatchStep}
    (enabled : step.Enabled state) (processing : step.isWait = false) :
    QueueChange state [step] ((batches globals).step state step) := by
  cases step with
  | waits evBuf => cases processing
  | arrives => exact ⟨rfl, (Bool.or_true _).symm, Nat.le_of_eq (Nat.zero_add _)⟩
  | turn recvs sends =>
      rcases enabled with ⟨fd, ctx, events, next⟩
      rcases List.head?_eq_some_iff.mp next with ⟨rest, evBuf⟩
      have taken : (batches globals).step state (.turn recvs sends) = { state with
          toWorkerState := state.toWorkerState.takesTurn globals ctx ⟨events, recvs, sends⟩
          evBuf := rest } := by
        change state.takesTurn globals recvs sends = _
        unfold BatchState.takesTurn
        rw [evBuf]
      rw [taken]
      refine ⟨rfl, (Bool.or_false _).symm, ?_⟩
      dsimp only
      rw [evBuf]
      exact Nat.le_of_eq (Nat.zero_add _)
  | accept fd malloced added =>
      rcases enabled with ⟨next, -, waiting⟩
      rcases List.head?_eq_some_iff.mp next with ⟨rest, evBuf⟩
      have servers : state.evBuf.countP Event.isServer =
          state.evBuf.tail.countP Event.isServer + 1 := by
        rw [evBuf, List.countP_cons_of_pos rfl, List.tail_cons]
      by_cases made : fd ≠ -1
      · have accepted : [BatchStep.accept fd malloced added].countP BatchStep.isAccepted = 1 := by
          exact List.countP_cons_of_pos (show BatchStep.isAccepted _ = true
            from decide_eq_true made)
        refine ⟨?_, (Bool.or_false _).symm, ?_⟩
        · have one := waiting made
          change (if fd ≠ -1 then state.acceptQueue - 1 else state.acceptQueue) + _ =
            state.acceptQueue + 0
          rw [if_pos made, accepted]
          omega
        · change _ + state.evBuf.tail.countP Event.isServer ≤ _
          rw [accepted, servers]
          omega
      · have refused : [BatchStep.accept fd malloced added].countP BatchStep.isAccepted = 0 :=
          List.countP_cons_of_neg (fun accepted : decide (fd ≠ -1) = true =>
            made (of_decide_eq_true accepted))
        refine ⟨?_, (Bool.or_false _).symm, ?_⟩
        · change (if fd ≠ -1 then state.acceptQueue - 1 else state.acceptQueue) + _ =
            state.acceptQueue + 0
          rw [if_neg made, refused]
        · change _ + state.evBuf.tail.countP Event.isServer ≤ _
          rw [refused, servers]
          omega

theorem queueChange_run (globals : Globals) {state : BatchState} {steps : List BatchStep}
    (run : (batches globals).Run state steps) (processing : steps.any BatchStep.isWait = false) :
    QueueChange state steps ((batches globals).after state steps) := by
  induction steps generalizing state with
  | nil => exact QueueChange.nil state
  | cons step rest ih =>
      rw [List.any_cons, Bool.or_eq_false_iff] at processing
      exact (queueChange_step globals run.1 processing.1).cons (ih run.2 processing.2)

theorem after_arrivals (globals : Globals) (state : BatchState) (count : Nat) :
    ((batches globals).after state (List.replicate count .arrives)).acceptQueue =
      state.acceptQueue + count ∧
      ((batches globals).after state (List.replicate count .arrives)).notified =
        (state.notified || decide (0 < count)) := by
  induction count generalizing state with
  | zero => exact ⟨rfl, (Bool.or_false _).symm⟩
  | succ count ih =>
      rcases ih state.arrives with ⟨queue, notified⟩
      have step : (batches globals).step state .arrives = state.arrives := rfl
      rw [List.replicate_succ, Machine.after_cons, step, queue, notified]
      refine ⟨?_, ?_⟩
      · change state.acceptQueue + 1 + count = _
        omega
      · change (true || _) = _
        rw [Bool.true_or, decide_eq_true (Nat.succ_pos count), Bool.or_true]

/-! ## Over whole runs -/

/-- Between two iterations there is an announcement exactly when the queue is
not empty. -/
def Announced (state : BatchState) : Prop :=
  0 < state.acceptQueue <-> state.notified = true

theorem any_iff_countP_pos {A : Type} (test : A -> Bool) (list : List A) :
    list.any test = true <-> 0 < list.countP test := by
  rw [List.any_eq_true, List.countP_pos_iff]

/-- What an iteration does to the queue and the announcement. -/
structure Turnover (before : BatchState) (iteration : Iteration) (after : BatchState) : Prop where
  queue : after.acceptQueue + iteration.during.countP BatchStep.isAccepted =
    before.acceptQueue + iteration.arrivals + iteration.during.countP BatchStep.isArrival
  accepted : iteration.during.countP BatchStep.isAccepted ≤ iteration.evBuf.countP Event.isServer
  once : iteration.evBuf.countP Event.isServer ≤ 1
  reported : 0 < iteration.evBuf.countP Event.isServer ->
    0 < before.acceptQueue + iteration.arrivals
  notified : after.notified = true <->
    (0 < before.acceptQueue + iteration.arrivals ∧ iteration.evBuf.countP Event.isServer = 0) ∨
      0 < iteration.during.countP BatchStep.isArrival

/-- The clients that arrive before `epoll_wait` returns are announced, and an
announcement that is in the batch is used up. -/
theorem Announced.turnover {globals : Globals} {state : BatchState} (announced : Announced state)
    {iteration : Iteration} (enabled : (iterations globals).enabled state iteration) :
    Turnover state iteration ((iterations globals).step state iteration) := by
  rcases enabled with ⟨run, processing, ended⟩
  rcases after_arrivals globals state iteration.arrivals with ⟨queue, arrived⟩
  unfold Machine.Run Iteration.steps at run
  rw [Machine.throughout_append, Machine.throughout_cons] at run
  change Turnover state iteration ((batches globals).after state iteration.steps)
  unfold Iteration.steps at ended ⊢
  rw [Machine.after_append, Machine.after_cons] at ended ⊢
  generalize (batches globals).after state (List.replicate iteration.arrivals .arrives) = waiting
    at *
  rcases run with ⟨-, delivers, later⟩
  have change := queueChange_run globals later processing
  have step : (batches globals).step waiting (.waits iteration.evBuf) =
    waiting.waits iteration.evBuf := rfl
  rw [step] at change ended ⊢
  generalize (batches globals).after (waiting.waits iteration.evBuf) iteration.during = after at *
  have waited : waiting.notified = true <-> 0 < state.acceptQueue + iteration.arrivals := by
    have before : 0 < state.acceptQueue <-> state.notified = true := announced
    rw [arrived, Bool.or_eq_true, decide_eq_true_iff, ← before]
    omega
  have servers := any_iff_countP_pos Event.isServer iteration.evBuf
  refine ⟨?_, ?_, delivers.once, ?_, ?_⟩
  · rw [← queue]
    exact change.queue
  · have processed := change.servers
    rw [ended, List.countP_nil] at processed
    exact processed
  · intro some
    rcases List.any_eq_true.mp (servers.mpr some) with ⟨event, member, server⟩
    have reports := delivers.reports event member
    cases event with
    | server => exact waited.mp reports
    | connection fd ctx events => cases server
  · have notified : after.notified = ((waiting.notified && !iteration.evBuf.any Event.isServer) ||
        iteration.during.any BatchStep.isArrival) := change.notified
    have unreported : (!iteration.evBuf.any Event.isServer) = true <->
        iteration.evBuf.countP Event.isServer = 0 := by
      rw [Bool.not_eq_true', ← Bool.not_eq_true, servers]
      omega
    rw [notified, Bool.or_eq_true, Bool.and_eq_true, waited, unreported,
      any_iff_countP_pos BatchStep.isArrival iteration.during]

/-- An announcement is left only for a queue that is not empty. -/
theorem Turnover.queue_pos {before after : BatchState} {iteration : Iteration}
    (turnover : Turnover before iteration after) (notified : after.notified = true) :
      0 < after.acceptQueue := by
  have queue := turnover.queue
  have accepted := turnover.accepted
  have once := turnover.once
  have reported := turnover.reported
  rcases turnover.notified.mp notified with ⟨waiting, none⟩ | later
  · omega
  · omega

/-- An iteration strands nobody exactly when it accepts all. -/
theorem Turnover.notStranded_iff {before after : BatchState} {iteration : Iteration}
    (turnover : Turnover before iteration after) : NotStranded after <->
      AcceptsAll before iteration := by
  have queue := turnover.queue
  have accepted := turnover.accepted
  have once := turnover.once
  have reported := turnover.reported
  unfold NotStranded AcceptsAll
  rw [turnover.notified, any_iff_countP_pos Event.isServer, any_iff_countP_pos BatchStep.isArrival,
    any_iff_countP_pos BatchStep.isAccepted]
  constructor
  · intro stays some
    by_cases later : 0 < iteration.during.countP BatchStep.isArrival
    · exact Or.inl later
    · have empty : ¬ 0 < after.acceptQueue := by
        intro waits
        rcases stays waits with ⟨-, none⟩ | later
        · omega
        · omega
      exact Or.inr ⟨by omega, by omega⟩
  · intro all waits
    by_cases some : 0 < iteration.evBuf.countP Event.isServer
    · rcases all some with later | ⟨one, taken⟩
      · exact Or.inr later
      · omega
    · by_cases later : 0 < iteration.during.countP BatchStep.isArrival
      · exact Or.inr later
      · exact Or.inl ⟨by omega, by omega⟩

theorem announced_guarded (globals : Globals) :
    (iterations globals).Guarded Announced AcceptsAll
      (fun state iteration => NotStranded ((iterations globals).step state iteration)) where
  keeps := by
    intro state iteration announced enabled all
    have turnover := announced.turnover enabled
    exact ⟨turnover.notStranded_iff.mpr all, turnover.queue_pos⟩
  exact := fun _state _iteration announced enabled => (announced.turnover enabled).notStranded_iff

theorem announced_zero : Announced BatchState.zero :=
  iff_of_false (Nat.lt_irrefl 0) Bool.false_ne_true

/-- Over every run of `johnny_works` no client is stranded in the accept queue
exactly as long as every announcement is followed by another arrival before its
batch has been processed, or is for one client, which is accepted. -/
theorem notStranded_iff_acceptsAll (globals : Globals) (runs : List Iteration)
    (run : (iterations globals).Run BatchState.zero runs) :
    (iterations globals).Throughout
        (fun state iteration => NotStranded
          ((iterations globals).step state iteration)) BatchState.zero runs <->
      (iterations globals).Throughout AcceptsAll BatchState.zero runs :=
  (announced_guarded globals).throughout_iff announced_zero run

/-- A table without files; nothing is requested below. -/
def noFiles : Globals where
  johnnyFiles := fun _ => ⟨⟨0, 0⟩, [], 0⟩
  johnnyFileCount := 0
  cmphSearch := fun _ => 0
  heap := Heap.empty

/-- One client, and another one while the first is accepted. -/
def steadyIterations : List Iteration :=
  [⟨1, [.server], [.arrives, .accept 5 unusedMalloced true]⟩,
    ⟨0, [.server, .connection 5 (.stack 0) epollin],
      [.accept 6 unusedMalloced true, .turn [.received []] []]⟩]

theorem notStranded_steadyIterations :
    (iterations noFiles).Throughout
      (fun state iteration => NotStranded
        ((iterations noFiles).step state iteration)) BatchState.zero
      steadyIterations :=
  (notStranded_iff_acceptsAll noFiles steadyIterations (by decide)).mpr (by decide)

/-- Two clients connect before `epoll_wait` returns. -/
def burst : Iteration :=
  ⟨2, [.server], [.accept 5 unusedMalloced true]⟩

theorem not_notStranded_burst :
    ¬ forall runs, (iterations noFiles).Run BatchState.zero runs ->
      (iterations noFiles).Throughout
        (fun state iteration => NotStranded
          ((iterations noFiles).step state iteration)) BatchState.zero runs := by
  intro never
  have stranded := (never [burst] (by decide)).1 (by decide)
  exact absurd stranded (by decide)

end Worker
end Johnny
