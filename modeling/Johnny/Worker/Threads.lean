import Johnny.Library.Refinement
import Johnny.Worker.LifeCycle

namespace Johnny
namespace Worker

open Library

/-!
# A worker, call after call

The workers are threads of one process, so between any two calls of one another
one may do something.  Here a worker takes the processing of an event apart: for
a new client `accept4`, then the allocation and the registration; for a
connection one operation after the other, and if it is to be closed `close`, then
the release of its context.

What an event does on its connection depends on the results of its `recv` and
`send` calls only.  They are given when it begins, and the operations that follow
from them are then performed one by one.

A worker that is half-way through an event stands for one that has not begun
it, or, once the descriptor is closed, for one that is done with it.  So whole
events, as in `Batches`, lose nothing.
-/

inductive Stage
  | ready
  | accepted (fd : Int)
  | handling (ctx : ContextPointer) (turn : Turn) (c : Connection) (left : List Operation)
  | closing (ctx : ContextPointer)

namespace Stage

def isReady : Stage -> Bool
  | .ready => true
  | _ => false

/-- `accept4` has returned the descriptor, and no context belongs to it yet. -/
def acceptedFd : Stage -> Option Int
  | .accepted fd => some fd
  | _ => none

def hasOperation : Stage -> Bool
  | .handling _ _ _ (_ :: _) => true
  | _ => false

def isHandled : Stage -> Bool
  | .handling _ _ _ [] => true
  | _ => false

def isClosing : Stage -> Bool
  | .closing _ => true
  | _ => false

end Stage

/-- A worker thread; the event in hand is the first of the batch. -/
structure Thread extends BatchState where
  stage : Stage

def Thread.zero : Thread where
  toBatchState := BatchState.zero
  stage := .ready

inductive ThreadStep
  | arrives
  | waits (evBuf : List Event)
  | accept4 (fd : Int)
  | allocates (malloced : Malloced) (added : Bool)
  | begins (recvs : List RecvResult) (sends : List SendResult)
  | operates
  | ends
  | frees

/-- `close(ctx->fd)`. -/
def WorkerState.closesDescriptor (state : WorkerState) (ctx : ContextPointer) : WorkerState :=
  let fd := (state.memory.contexts ctx).fd
  { state with
    openFds := state.openFds.erase fd
    interest := state.interest.filter (fun entry => decide (entry.1 ≠ fd)) }

def WorkerState.deallocates (state : WorkerState) (ctx : ContextPointer) : WorkerState :=
  { state with
    memory := johnnyDeallocatesConnection state.memory ctx
    live := state.live.erase ctx }

namespace Thread

/-- A result other than -1 takes a client from the queue at once. -/
def accepts4 (thread : Thread) (fd : Int) : Thread :=
  if fd ≠ -1 then { thread with acceptQueue := thread.acceptQueue - 1, stage := .accepted fd }
  else { thread with evBuf := thread.evBuf.tail }

def allocates (thread : Thread) (malloced : Malloced) (added : Bool) : Thread :=
  match thread.stage with
  | .accepted fd =>
      { thread with
        toWorkerState := thread.toWorkerState.accepts fd malloced added
        evBuf := thread.evBuf.tail
        stage := .ready }
  | _ => thread

def begins (globals : Globals) (thread : Thread) (recvs : List RecvResult)
    (sends : List SendResult) : Thread :=
  match thread.evBuf with
  | .connection _ ctx events :: _ =>
      let turn := ⟨events, recvs, sends⟩
      let c := thread.connection ctx turn
      { thread with stage := .handling ctx turn c (handlesEventOperations globals events recvs c) }
  | _ => thread

def operates (globals : Globals) (thread : Thread) : Thread :=
  match thread.stage with
  | .handling ctx turn c (operation :: left) =>
      { thread with stage := .handling ctx turn (operation.perform globals c) left }
  | _ => thread

/-- After the last operation the connection is kept, or its descriptor is
closed. -/
def ends (globals : Globals) (thread : Thread) : Thread :=
  match thread.stage with
  | .handling ctx turn c [] =>
      match (thread.processes globals ctx turn).1 with
      | .kept =>
          { thread with
            toWorkerState := thread.store ctx turn c
            evBuf := thread.evBuf.tail
            stage := .ready }
      | .closed =>
          { thread with
            toWorkerState := (thread.store ctx turn c).closesDescriptor ctx
            evBuf := thread.evBuf.tail
            stage := .closing ctx }
  | _ => thread

def frees (thread : Thread) : Thread :=
  match thread.stage with
  | .closing ctx => { thread with toWorkerState := thread.deallocates ctx, stage := .ready }
  | _ => thread

def step (globals : Globals) (thread : Thread) : ThreadStep -> Thread
  | .arrives => { thread with toBatchState := thread.arrives }
  | .waits evBuf => { thread with toBatchState := thread.toBatchState.waits evBuf }
  | .accept4 fd => thread.accepts4 fd
  | .allocates malloced added => thread.allocates malloced added
  | .begins recvs sends => thread.begins globals recvs sends
  | .operates => thread.operates globals
  | .ends => thread.ends globals
  | .frees => thread.frees

end Thread

/-- The calls in their order; `accept4` and `malloc` return what the worker does
not have. -/
def ThreadStep.Enabled (thread : Thread) : ThreadStep -> Prop
  | .arrives => True
  | .waits evBuf => thread.stage.isReady = true ∧ thread.Delivers evBuf
  | .accept4 fd => thread.stage.isReady = true ∧ thread.evBuf.head? = some .server ∧
      (fd = -1 ∨ (0 ≤ fd ∧ fd ∉ thread.openFds)) ∧ (fd ≠ -1 -> 0 < thread.acceptQueue)
  | .allocates malloced _ => thread.stage.acceptedFd.isSome = true ∧
      malloced.address ∉ thread.memory.heapContexts
  | .begins _ _ => thread.stage.isReady = true ∧ BatchStep.Enabled thread.toBatchState (.turn [] [])
  | .operates => thread.stage.hasOperation = true
  | .ends => thread.stage.isHandled = true
  | .frees => thread.stage.isClosing = true

instance (thread : Thread) : (step : ThreadStep) -> Decidable (step.Enabled thread)
  | .arrives => .isTrue trivial
  | .waits evBuf => inferInstanceAs (Decidable (_ ∧ thread.Delivers evBuf))
  | .accept4 fd => inferInstanceAs
      (Decidable (thread.stage.isReady = true ∧ thread.evBuf.head? = some .server ∧
      (fd = -1 ∨ (0 ≤ fd ∧ fd ∉ thread.openFds)) ∧ (fd ≠ -1 -> 0 < thread.acceptQueue)))
  | .allocates malloced _ =>
      inferInstanceAs (Decidable (_ ∧ malloced.address ∉ thread.memory.heapContexts))
  | .begins _ _ => inferInstanceAs
      (Decidable (_ ∧ BatchStep.Enabled thread.toBatchState (.turn [] [])))
  | .operates => inferInstanceAs (Decidable (thread.stage.hasOperation = true))
  | .ends => inferInstanceAs (Decidable (thread.stage.isHandled = true))
  | .frees => inferInstanceAs (Decidable (thread.stage.isClosing = true))

/-- A worker thread with the calls of its loop. -/
def threads (globals : Globals) : Machine Thread ThreadStep where
  enabled := fun thread step => step.Enabled thread
  step := Thread.step globals

/-! ## Whole events -/

/-- A client that was taken from the queue is still in it until it has a context,
and a closed connection has none left. -/
def Thread.whole (thread : Thread) : BatchState :=
  match thread.stage with
  | .accepted _ => { thread.toBatchState with acceptQueue := thread.acceptQueue + 1 }
  | .closing ctx => { thread.toBatchState with toWorkerState := thread.deallocates ctx }
  | _ => thread.toBatchState

/-- The event, if the step is the decisive one of it. -/
def Thread.event (thread : Thread) : ThreadStep -> List BatchStep
  | .arrives => [.arrives]
  | .waits evBuf => [.waits evBuf]
  | .accept4 fd => if fd ≠ -1 then [] else [.accept fd unusedMalloced false]
  | .allocates malloced added =>
      (thread.stage.acceptedFd.map (fun fd => .accept fd malloced added)).toList
  | .ends =>
      match thread.stage with
      | .handling _ turn _ [] => [.turn turn.recvs turn.sends]
      | _ => []
  | _ => []

/-- The stage belongs to the first event of the batch, and the operations that
are left lead where the event leads. -/
def Thread.Sound (globals : Globals) (thread : Thread) : Prop :=
  match thread.stage with
  | .ready => True
  | .accepted fd => fd ≠ -1 ∧ 0 ≤ fd ∧ fd ∉ thread.openFds ∧ thread.evBuf.head? = some .server
  | .handling ctx turn c left =>
      (Exists fun fd => thread.evBuf.head? = some (.connection fd ctx turn.events)) ∧
        (operating globals).after c left = (thread.processes globals ctx turn).2
  | .closing _ => True

theorem Stage.eq_ready {stage : Stage} (isReady : stage.isReady = true) : stage = .ready := by
  cases stage <;> first | rfl | cases isReady

theorem Stage.eq_accepted {stage : Stage} {fd : Int} (acceptedFd : stage.acceptedFd = some fd) :
    stage = .accepted fd := by
  cases stage with
  | accepted own => exact congrArg Stage.accepted (Option.some.inj acceptedFd)
  | ready => cases acceptedFd
  | handling ctx turn c left => cases acceptedFd
  | closing ctx => cases acceptedFd

theorem Stage.eq_handling {stage : Stage} (hasOperation : stage.hasOperation = true) :
    Exists fun ctx => Exists fun turn => Exists fun c => Exists fun operation => Exists fun left =>
      stage = .handling ctx turn c (operation :: left) := by
  cases stage with
  | handling ctx turn c left =>
      cases left with
      | nil => cases hasOperation
      | cons operation left => exact ⟨ctx, turn, c, operation, left, rfl⟩
  | ready => cases hasOperation
  | accepted fd => cases hasOperation
  | closing ctx => cases hasOperation

theorem Stage.eq_handled {stage : Stage} (isHandled : stage.isHandled = true) :
    Exists fun ctx => Exists fun turn => Exists fun c => stage = .handling ctx turn c [] := by
  cases stage with
  | handling ctx turn c left =>
      cases left with
      | nil => exact ⟨ctx, turn, c, rfl⟩
      | cons operation left => cases isHandled
  | ready => cases isHandled
  | accepted fd => cases isHandled
  | closing ctx => cases isHandled

theorem Stage.eq_closing {stage : Stage} (isClosing : stage.isClosing = true) :
    Exists fun ctx => stage = .closing ctx := by
  cases stage with
  | closing ctx => exact ⟨ctx, rfl⟩
  | ready => cases isClosing
  | accepted fd => cases isClosing
  | handling ctx turn c left => cases isClosing

section

variable {globals : Globals} {thread : Thread}

theorem Thread.begins_eq (globals : Globals) {fd : Int} {ctx : ContextPointer} {events : BitVec 32}
    {rest : List Event} (evBuf : thread.evBuf = .connection fd ctx events :: rest)
    (recvs : List RecvResult) (sends : List SendResult) :
    thread.begins globals recvs sends = { thread with
      stage := .handling ctx ⟨events, recvs, sends⟩ (thread.connection ctx ⟨events, recvs, sends⟩)
        (handlesEventOperations globals events recvs
          (thread.connection ctx ⟨events, recvs, sends⟩)) } := by
  unfold Thread.begins
  rw [evBuf]

theorem Thread.ends_kept {ctx : ContextPointer} {turn : Turn} {c : Connection}
    (stage : thread.stage = .handling ctx turn c [])
    (kept : (thread.processes globals ctx turn).1 = .kept) : thread.ends globals = { thread with
      toWorkerState := thread.store ctx turn c
      evBuf := thread.evBuf.tail
      stage := .ready } := by
  unfold Thread.ends
  rw [stage]
  dsimp only
  rw [kept]

theorem Thread.ends_closed {ctx : ContextPointer} {turn : Turn} {c : Connection}
    (stage : thread.stage = .handling ctx turn c [])
    (closed : (thread.processes globals ctx turn).1 = .closed) : thread.ends globals = { thread with
      toWorkerState := (thread.store ctx turn c).closesDescriptor ctx
      evBuf := thread.evBuf.tail
      stage := .closing ctx } := by
  unfold Thread.ends
  rw [stage]
  dsimp only
  rw [closed]

theorem Thread.sound_step {step : ThreadStep} (sound : thread.Sound globals)
    (enabled : step.Enabled thread) : (thread.step globals step).Sound globals := by
  rcases thread with ⟨batch, stage⟩
  cases step with
  | arrives => exact sound
  | waits evBuf =>
      cases Stage.eq_ready enabled.1
      exact trivial
  | accept4 fd =>
      rcases enabled with ⟨isReady, server, fresh, -⟩
      cases Stage.eq_ready isReady
      by_cases made : fd ≠ -1
      · have accepted : Thread.step globals ⟨batch, .ready⟩ (.accept4 fd) =
            ⟨{ batch with acceptQueue := batch.acceptQueue - 1 }, .accepted fd⟩ := if_pos made
        rw [accepted]
        exact ⟨made, (fresh.resolve_left made).1, (fresh.resolve_left made).2, server⟩
      · have refused : Thread.step globals ⟨batch, .ready⟩ (.accept4 fd) =
            ⟨{ batch with evBuf := batch.evBuf.tail }, .ready⟩ := if_neg made
        rw [refused]
        exact trivial
  | allocates malloced added =>
      rcases Option.isSome_iff_exists.mp enabled.1 with ⟨fd, acceptedFd⟩
      cases Stage.eq_accepted acceptedFd
      exact trivial
  | begins recvs sends =>
      rcases enabled with ⟨isReady, fd, ctx, events, head⟩
      cases Stage.eq_ready isReady
      rcases List.head?_eq_some_iff.mp head with ⟨rest, evBuf⟩
      rw [Thread.step, Thread.begins_eq globals evBuf]
      exact ⟨⟨fd, head⟩, after_handlesEvent globals events recvs _⟩
  | operates =>
      rcases Stage.eq_handling enabled with ⟨ctx, turn, c, operation, left, rfl⟩
      exact sound
  | ends =>
      rcases Stage.eq_handled enabled with ⟨ctx, turn, c, handled⟩
      rw [Thread.step]
      cases verdict : ((⟨batch, stage⟩ : Thread).processes globals ctx turn).1 with
      | kept =>
          rw [@Thread.ends_kept globals ⟨batch, stage⟩ ctx turn c handled verdict]
          exact trivial
      | closed =>
          rw [@Thread.ends_closed globals ⟨batch, stage⟩ ctx turn c handled verdict]
          exact trivial
  | frees =>
      rcases Stage.eq_closing enabled with ⟨ctx, rfl⟩
      exact trivial

/-- A step does its event, if it is the decisive one of it, and is not seen
otherwise. -/
theorem Thread.event_step {step : ThreadStep} (sound : thread.Sound globals)
    (enabled : step.Enabled thread) : (batches globals).Run thread.whole (thread.event step) ∧
      (batches globals).after thread.whole (thread.event step) =
      (thread.step globals step).whole := by
  rcases thread with ⟨batch, stage⟩
  cases step with
  | arrives => cases stage <;> exact ⟨⟨trivial, trivial⟩, rfl⟩
  | waits evBuf =>
      cases Stage.eq_ready enabled.1
      exact ⟨⟨enabled.2, trivial⟩, rfl⟩
  | accept4 fd =>
      rcases enabled with ⟨isReady, server, -, waiting⟩
      cases Stage.eq_ready isReady
      by_cases accepted : fd ≠ -1
      · have taken : Thread.step globals ⟨batch, .ready⟩ (.accept4 fd) =
            ⟨{ batch with acceptQueue := batch.acceptQueue - 1 }, .accepted fd⟩ := if_pos accepted
        rw [Thread.event, if_pos accepted, taken]
        refine ⟨trivial, ?_⟩
        change batch = { batch with acceptQueue := batch.acceptQueue - 1 + 1 }
        have client : 0 < batch.acceptQueue := waiting accepted
        rw [Nat.sub_add_cancel client]
      · have refused : Thread.step globals ⟨batch, .ready⟩ (.accept4 fd) =
            ⟨{ batch with evBuf := batch.evBuf.tail }, .ready⟩ := if_neg accepted
        rw [Thread.event, if_neg accepted, refused]
        refine ⟨⟨⟨server, Or.inl (not_not.mp accepted), fun impossible =>
          absurd impossible accepted⟩, trivial⟩, ?_⟩
        change batch.accepts fd unusedMalloced false = { batch with evBuf := batch.evBuf.tail }
        unfold BatchState.accepts WorkerState.accepts
        rw [if_neg accepted, if_neg accepted]
  | allocates malloced added =>
      rcases Option.isSome_iff_exists.mp enabled.1 with ⟨fd, acceptedFd⟩
      cases Stage.eq_accepted acceptedFd
      rcases sound with ⟨accepted, positive, fresh, server⟩
      refine ⟨⟨⟨server, Or.inr ⟨positive, fresh, enabled.2⟩, fun _ => Nat.succ_pos _⟩, trivial⟩, ?_⟩
      change BatchState.accepts { batch with acceptQueue := batch.acceptQueue + 1 } fd malloced
          added =
        { batch with
          toWorkerState := batch.toWorkerState.accepts fd malloced added
          evBuf := batch.evBuf.tail }
      unfold BatchState.accepts
      rw [if_pos accepted]
      rfl
  | begins recvs sends =>
      rcases enabled with ⟨isReady, fd, ctx, events, head⟩
      cases Stage.eq_ready isReady
      rcases List.head?_eq_some_iff.mp head with ⟨rest, evBuf⟩
      rw [Thread.step, Thread.begins_eq globals evBuf]
      exact ⟨trivial, rfl⟩
  | operates =>
      rcases Stage.eq_handling enabled with ⟨ctx, turn, c, operation, left, rfl⟩
      exact ⟨trivial, rfl⟩
  | ends =>
      rcases Stage.eq_handled enabled with ⟨ctx, turn, c, rfl⟩
      rcases sound with ⟨⟨fd, head⟩, done⟩
      rcases List.head?_eq_some_iff.mp head with ⟨rest, evBuf⟩
      refine ⟨⟨⟨fd, ctx, turn.events, head⟩, trivial⟩, ?_⟩
      have processed : c = (batch.processes globals ctx turn).2 := done
      have tail : batch.evBuf.tail = rest := congrArg List.tail evBuf
      change (batches globals).step batch (.turn turn.recvs turn.sends) =
        (Thread.ends globals ⟨batch, .handling ctx turn c []⟩).whole
      rw [@BatchState.takesTurn_eq globals batch fd ctx turn.events rest evBuf]
      change ({ batch with
        toWorkerState := batch.toWorkerState.takesTurn globals ctx turn
        evBuf := rest } : BatchState) = _
      cases verdict : (batch.processes globals ctx turn).1 with
      | kept =>
          rw [@Thread.ends_kept globals ⟨batch, .handling ctx turn c []⟩ ctx turn c rfl verdict,
            WorkerState.takesTurn_kept verdict, ← processed, ← tail]
          rfl
      | closed =>
          rw [@Thread.ends_closed globals ⟨batch, .handling ctx turn c []⟩ ctx turn c rfl verdict,
            WorkerState.takesTurn_closed verdict, ← processed, ← tail]
          rfl
  | frees =>
      rcases Stage.eq_closing enabled with ⟨ctx, rfl⟩
      exact ⟨trivial, rfl⟩

end

theorem johnnyDeallocatesConnection_heapContexts_subset (memory : Memory) (ctx : ContextPointer) :
    (johnnyDeallocatesConnection memory ctx).heapContexts ⊆ memory.heapContexts := by
  unfold johnnyDeallocatesConnection
  dsimp only
  split_ifs
  · cases ctx with
    | heap freed => exact List.erase_subset
    | stack slot => exact List.Subset.refl _
  · exact List.Subset.refl _

@[simp] theorem Thread.whole_openFds (thread : Thread) : thread.whole.openFds = thread.openFds := by
  rcases thread with ⟨batch, stage⟩
  cases stage <;> rfl

theorem Thread.whole_heapContexts_subset (thread : Thread) :
    thread.whole.memory.heapContexts ⊆ thread.memory.heapContexts := by
  rcases thread with ⟨batch, stage⟩
  cases stage with
  | closing ctx => exact johnnyDeallocatesConnection_heapContexts_subset batch.memory ctx
  | ready => exact List.Subset.refl _
  | accepted fd => exact List.Subset.refl _
  | handling ctx turn c left => exact List.Subset.refl _

/-- Call after call a worker does whole events. -/
def threadRefinement (globals : Globals) : (threads globals).Refinement (batches globals) where
  Inv := Thread.Sound globals
  abstract := Thread.whole
  moves := Thread.event
  keeps := fun _ _ sound enabled => Thread.sound_step sound enabled
  runs := fun _ _ sound enabled => (Thread.event_step sound enabled).1
  reaches := fun _ _ sound enabled => (Thread.event_step sound enabled).2

end Worker
end Johnny
