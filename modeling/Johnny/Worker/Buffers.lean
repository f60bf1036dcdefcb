import Johnny.Worker.Confinement

namespace Johnny
namespace Worker

open Library

/-!
# Buffers over whole runs

Every live connection is idle between two events, and an event touches no
buffer but that of its own connection.  This holds along a run exactly as long
as no context is released with unparsed bytes while another connection still
uses it.
-/

/-- A context knows where it is: its slot, or outside the array. -/
def Locates (ctx : ContextPointer) (context : ConnectionContext) : Prop :=
  match ctx with
  | .stack slot => context.index = slot ∧ slot < johnnyStackConnections
  | .heap _ => context.index = johnnyStackConnections

/-- A connection for which no event is being processed. -/
structure IdleContext (ctx : ContextPointer) (context : ConnectionContext) : Prop where
  bufferOffset : context.bufferOffset = 0
  bufferSize : context.bufferSize = 0
  prefixCounter : 0 ≤ context.prefixCounter ∧ context.prefixCounter ≤ 9
  fits : ConnectionContext.TailFits context
  locates : Locates ctx context

/-- The memory behind `get_buffer(ctx)`. -/
def WorkerState.getBuffer (state : WorkerState) (ctx : ContextPointer) : Int -> UInt8 :=
  Connection.getBuffer ⟨state.memory.contexts ctx, state.memory.stackDataBuffer, [], []⟩

/-- What an event does to buffers: all its accesses are confined, it does not
find unparsed bytes, and the buffers of other connections stay as they are. -/
structure ConfinedTurn (globals : Globals) (state : WorkerState) (ctx : ContextPointer)
    (turn : Turn) : Prop where
  operations : (operating globals).Throughout ConfinedOperation (state.connection ctx turn)
    (handlesEventOperations globals turn.events turn.recvs (state.connection ctx turn))
  resumes : forall after,
    resumesSending turn.events ((state.connection ctx turn).reports turn.events) =
      (.success, after) ->
      after.ctx.bufferSize = 0
  others : forall other, other ∈ state.live -> other ≠ ctx -> forall position : Int, 0 ≤ position ->
    position < johnnyBufferSize ->
      (state.takesTurn globals ctx turn).getBuffer other position = state.getBuffer other position

/-- After a step every live connection is idle, and the step was confined. -/
structure ConfinedStep (globals : Globals) (state : WorkerState) (step : WorkerStep) : Prop where
  idle : forall ctx, ctx ∈ ((worker globals).step state step).live ->
    IdleContext ctx (((worker globals).step state step).memory.contexts ctx)
  turn : forall ctx turn, step = .turn ctx turn -> ConfinedTurn globals state ctx turn

/-- A response was chosen for a file name. -/
def Requested (calls : List Call) : Prop :=
  Exists fun fileName => Exists fun unsent => .request fileName unsent ∈ calls

/-- No `send` of a newly chosen response fails for good on a context that
another live connection has too. -/
def UnsharedFailure (globals : Globals) (state : WorkerState) : WorkerStep -> Prop
  | .accept _ _ _ => True
  | .turn ctx turn =>
      Requested (state.processes globals ctx turn).2.calls ->
        sendFailed (state.processes globals ctx turn).2.calls = true -> ctx ∉ state.live.erase ctx

def Call.isRequest : Call -> Bool
  | .request _ _ => true
  | _ => false

theorem requested_iff (calls : List Call) : Requested calls <->
    calls.any Call.isRequest = true := by
  rw [List.any_eq_true]
  constructor
  · rintro ⟨fileName, unsent, member⟩
    exact ⟨_, member, rfl⟩
  · rintro ⟨call, member, request⟩
    cases call with
    | request fileName unsent => exact ⟨fileName, unsent, member⟩
    | recv space result => cases request
    | send offered result => cases request

instance (calls : List Call) : Decidable (Requested calls) :=
  decidable_of_iff _ (requested_iff calls).symm

instance (globals : Globals) (state : WorkerState) (step : WorkerStep) :
    Decidable (UnsharedFailure globals state step) :=
  match step with
  | .accept _ _ _ => .isTrue trivial
  | .turn ctx turn =>
      inferInstanceAs (Decidable (Requested (state.processes globals ctx turn).2.calls ->
        sendFailed (state.processes globals ctx turn).2.calls = true -> ctx ∉ state.live.erase ctx))

theorem ParserIdle.congr {before after : Connection} (idle : ParserIdle before)
    (same : SameParser before after) : ParserIdle after := by
  rcases idle with ⟨control, ready⟩
  exact ⟨control, ready.congr same⟩

theorem requested_johnnySendsBytes (c : Connection) :
    Requested (johnnySendsBytes c).2.calls <-> Requested c.calls := by
  have appended : Exists fun offered => Exists fun result =>
      (johnnySendsBytes c).2.calls = c.calls ++ [.send offered result] := by
    unfold johnnySendsBytes
    cases c.sends.headD (.failed eagain) with
    | failed errno => exact ⟨_, _, rfl⟩
    | accepted count => exact ⟨_, _, rfl⟩
  rcases appended with ⟨offered, result, calls⟩
  unfold Requested
  rw [calls]
  simp

/-- The phases of an event, with whether a `send` has failed for good. -/
structure StartConfined (c : Connection) : Prop where
  idle : ParserIdle c
  calls : c.calls = []

structure IdleConfined (c : Connection) : Prop where
  idle : ParserIdle c
  unfailed : sendFailed c.calls = false

structure BusyConfined (bytes : Nat) (c : Connection) : Prop where
  busy : ParserBusy bytes c
  unfailed : sendFailed c.calls = false

/-- An event that ends early leaves unparsed bytes exactly when a `send` of a
new response has failed. -/
def EndedConfined (c : Connection) : Prop :=
  (ParserIdle c ∧ ¬ (Requested c.calls ∧ sendFailed c.calls = true)) ∨
    (c.ctx.bufferSize ≠ 0 ∧ Requested c.calls ∧ sendFailed c.calls = true)

def confinement : Conditions where
  start := StartConfined
  idle := fun _ => IdleConfined
  busy := fun _ => BusyConfined
  ended := EndedConfined

theorem confined_of_silent {c : Connection} {operation : Operation}
    (silent : operation.accesses c = [])
    (other : forall result, operation ≠ .receives result) : ConfinedOperation c operation where
  accesses := by
    intro access member
    rw [silent] at member
    cases member
  recvs := fun result equal => absurd equal (other result)

/-- A busy connection that finds a file name requests it, and has fewer bytes
left. -/
theorem BusyConfined.responds {globals : Globals} {bytes : Nat} {position : Int}
    {c after : Connection} (busy : BusyConfined bytes c)
    (found : johnnyFindsFilename c = (some position, after))
    {exit : Exit} {sent : Connection}
    (sends : johnnySendsResponse globals after (after.fileNameAt position) =
      (exit, sent)) :
    Exists fun offset => Exists fun size => 0 < size ∧ size - offset < bytes ∧
      ParserReady sent 0 offset size ∧
      Requested sent.calls ∧ (sendFailed sent.calls = true <-> exit = .failure) := by
  rcases busy.busy.responds found sends with ⟨offset, size, nonempty, fewer, ready⟩
  have attempt := johnnySendsResponse_attempt globals after (after.fileNameAt position)
  have requested := requested_johnnySendsBytes
    (after.selectsResponse globals (after.fileNameAt position))
  unfold johnnySendsResponse at sends attempt
  rw [sends] at attempt requested
  refine ⟨offset, size, nonempty, fewer, ready, ?_, ?_⟩
  · exact requested.mpr ⟨_, _, List.mem_append_right _ (List.mem_singleton_self _)⟩
  · apply attempt.failure
    rw [johnnyFindsFilename_calls found]
    exact busy.unfailed

theorem confinement_phases (globals : Globals) :
    Phases globals confinement ConfinedOperation where
  reports := fun c events start =>
    ⟨confined_of_silent rfl (fun _ equal => by cases equal),
      ⟨start.idle.congr (reports_sameParser c events), start.calls⟩⟩
  starts := fun c start => ⟨start.idle, by rw [start.calls]; rfl⟩
  resumes := fun c _ => confined_of_silent rfl (fun _ equal => by cases equal)
  resumed := by
    intro c after start sent
    have same := johnnySendsBytes_sameParser c
    have attempt := johnnySendsBytes_attempt c
    rw [sent] at same attempt
    refine ⟨start.idle.congr same, ?_⟩
    apply Bool.eq_false_iff.mpr
    intro failed
    have failure := (attempt.failure (by rw [start.calls]; rfl)).mp failed
    cases failure
  unresumed := by
    intro c after start sent
    have same := johnnySendsBytes_sameParser c
    have requested := requested_johnnySendsBytes c
    rw [sent] at same requested
    refine Or.inl ⟨start.idle.congr same, ?_⟩
    rw [requested, start.calls]
    rintro ⟨⟨fileName, unsent, member⟩, -⟩
    cases member
  leftover := by
    intro c idle left
    rcases idle.idle with ⟨control, ready⟩
    exact absurd ready.bufferSize left
  receives := by
    intro c result idle _
    rcases idle.idle with ⟨control, ready⟩
    have offset : c.ctx.bufferOffset = 0 := ready.bufferOffset
    refine ⟨?_, fun _ _ => offset⟩
    intro access member
    rw [List.mem_singleton.mp member, offset]
    exact ⟨Int.le_refl 0, by decide⟩
  closes := by
    intro c result idle _ none
    refine Or.inl ⟨idle.idle.closes result none, ?_⟩
    rintro ⟨-, failed⟩
    rw [receives_sendFailed, idle.unfailed] at failed
    cases failed
  received := by
    intro c result idle _ some
    rcases idle.idle.busy result some with ⟨bytes, small, busy⟩
    exact ⟨bytes, small, busy, (receives_sendFailed c result).trans idle.unfailed⟩
  finds := fun c _ bytes busy => findsFilename_confined busy.busy
  ends := by
    intro c more bytes after busy ends
    refine ⟨busy.busy.ends ends, ?_⟩
    rw [johnnyFindsFilename_calls ends]
    exact busy.unfailed
  selects := fun c _ bytes position after busy found => selectsResponse_confined busy.busy found
  sends := fun c _ bytes position after _ _ =>
    confined_of_silent rfl (fun _ equal => by cases equal)
  sent := by
    intro c more bytes position after sent busy found success
    rcases busy.responds found success with ⟨offset, size, nonempty, fewer, ready, -, failed⟩
    refine ⟨size - offset, fewer, .received ready nonempty, ?_⟩
    apply Bool.eq_false_iff.mpr
    intro failure
    cases failed.mp failure
  unsent := by
    intro c more bytes position after sent busy found failure
    rcases busy.responds found failure with ⟨offset, size, nonempty, -, ready, requested, failed⟩
    refine Or.inr ⟨?_, requested, failed.mpr rfl⟩
    rw [ready.bufferSize]
    omega

/-- Confined operations write inside the slice of their connection. -/
theorem ConfinedOperation.stackDataBuffer (globals : Globals) {c : Connection}
    {operation : Operation} (confined : ConfinedOperation c operation) {address : Int}
    (outside : ¬ InBufferSlice c.ctx address) :
    (operation.perform globals c).stackDataBuffer address = c.stackDataBuffer address := by
  apply Operation.perform_stackDataBuffer
  intro access member writes
  have inside := confined.accesses access member
  cases access with
  | read position count => exact writes
  | pattern index => exact writes
  | write position count =>
      rcases writes with ⟨onStack, lower, upper⟩
      rcases inside with ⟨nonneg, fits⟩
      apply outside
      unfold Connection.bufferBase at lower upper
      refine ⟨onStack, by omega, ?_⟩
      rw [Int.add_mul, Int.one_mul]
      omega

/-- Every operation leaves the index of its context. -/
theorem Operation.perform_index (globals : Globals) (c : Connection) (operation : Operation) :
    (operation.perform globals c).ctx.index = c.ctx.index := by
  have same := (sameConnection_preserved globals c.ctx).perform c operation ⟨rfl, rfl, rfl⟩
  exact same.index

/-- The operations of an event change the array only inside the slice of the
event's connection. -/
theorem stackDataBuffer_of_confined (globals : Globals) {c : Connection}
    {operations : List Operation}
    (confined : (operating globals).Throughout ConfinedOperation c operations) {address : Int}
    (outside : ¬ InBufferSlice c.ctx address) :
    ((operating globals).after c operations).stackDataBuffer address =
      c.stackDataBuffer address := by
  have kept := @Machine.after_of_throughout _ _ (operating globals)
    (fun after => after.ctx.index = c.ctx.index ∧
      after.stackDataBuffer address = c.stackDataBuffer address)
    ConfinedOperation ?_ c operations ⟨rfl, rfl⟩ confined
  · exact kept.2
  · rintro after operation ⟨index, same⟩ confinedNow
    refine ⟨(operation.perform_index globals after).trans index, ?_⟩
    refine (confinedNow.stackDataBuffer globals ?_).trans same
    unfold InBufferSlice at outside ⊢
    rw [index]
    exact outside

/-- No live connection has anything left in its buffer. -/
def IdleWorker (state : WorkerState) : Prop :=
  ForLive (fun ctx context _ => IdleContext ctx context) state

theorem IdleContext.parserIdle {ctx : ContextPointer} {c : Connection}
    (idle : IdleContext ctx c.ctx) : ParserIdle c := by
  rcases idle.prefixCounter with ⟨lower, upper⟩
  refine ⟨c.ctx.prefixCounter.toNat, by omega, idle.bufferOffset, idle.bufferSize, by omega,
    Nat.le_refl 0,
    Nat.zero_le _, idle.fits⟩

theorem ParserIdle.idleContext {ctx : ContextPointer} {c : Connection} (idle : ParserIdle c)
    (locates : Locates ctx c.ctx) : IdleContext ctx c.ctx := by
  rcases idle with ⟨control, ready⟩
  have upper := ready.control_le
  refine ⟨ready.bufferOffset, ready.bufferSize, ?_, ready.fits, locates⟩
  rw [ready.prefixCounter]
  omega

theorem Locates.congr {ctx : ContextPointer} {before after : ConnectionContext}
    (locates : Locates ctx before) (index : after.index = before.index) : Locates ctx after := by
  unfold Locates at locates ⊢
  rw [index]
  exact locates

theorem johnnyAllocatesConnection_locates (memory : Memory) (fd : Int) (malloced : Malloced) :
    Locates (johnnyAllocatesConnection memory fd malloced).1
      ((johnnyAllocatesConnection memory fd malloced).2.contexts
        (johnnyAllocatesConnection memory fd malloced).1) := by
  have bound := johnnyTriesToAllocateConnectionOnStack_le memory.conBitmap
  unfold johnnyAllocatesConnection
  dsimp only
  split_ifs with onHeap
  · dsimp only
    rw [Function.update_self]
    exact onHeap
  · dsimp only
    rw [Function.update_self]
    exact ⟨rfl, Nat.lt_of_le_of_ne bound onHeap⟩

theorem johnnyAllocatesConnection_idle (memory : Memory) (fd : Int) (malloced : Malloced) :
    IdleContext (johnnyAllocatesConnection memory fd malloced).1
      ((johnnyAllocatesConnection memory fd malloced).2.contexts
        (johnnyAllocatesConnection memory fd malloced).1) := by
  have new := johnnyAllocatesConnection_new memory fd malloced
  refine ⟨new.bufferOffset, new.bufferSize, ?_, new.fits,
    johnnyAllocatesConnection_locates memory fd malloced⟩
  rw [new.prefixCounter]
  decide

section

variable (globals : Globals) {state : WorkerState} (idle : IdleWorker state) {ctx : ContextPointer}
  (live : ctx ∈ state.live) (turn : Turn)

include idle live

/-- Every operation of a turn is confined, and the turn ends idle or early. -/
theorem IdleWorker.phases :
    (operating globals).Throughout ConfinedOperation (state.connection ctx turn)
        (handlesEventOperations globals turn.events turn.recvs (state.connection ctx turn)) ∧
      (IdleConfined (state.processes globals ctx turn).2 ∨
        (state.processes globals ctx turn).1 = .closed ∧ EndedConfined
        (state.processes globals ctx turn).2) := by
  have start : StartConfined (state.connection ctx turn) :=
    ⟨@IdleContext.parserIdle ctx (state.connection ctx turn) (idle ctx live), rfl⟩
  rcases (confinement_phases globals).handlesEvent turn.events turn.recvs start
    with ⟨throughout, finished⟩
  refine ⟨throughout, ?_⟩
  unfold WorkerState.processes
  generalize handlesEvent globals turn.events turn.recvs (state.connection ctx turn) = processed
    at finished ⊢
  rcases processed with ⟨verdict, after⟩
  cases verdict with
  | kept => exact Or.inl finished.choose_spec
  | closed =>
      rcases finished with stays | ended
      · exact Or.inl stays
      · exact Or.inr ⟨rfl, ended⟩

theorem IdleWorker.locates_processes :
    Locates ctx (state.processes globals ctx turn).2.ctx :=
  (idle ctx live).locates.congr (state.processes_same globals ctx turn).index

theorem IdleWorker.stackDataBuffer {address : Int}
    (outside : ¬ InBufferSlice (state.memory.contexts ctx) address) :
    (state.takesTurn globals ctx turn).memory.stackDataBuffer address =
      state.memory.stackDataBuffer address := by
  have kept := stackDataBuffer_of_confined globals (idle.phases globals live turn).1 outside
  rw [after_handlesEvent] at kept
  rw [WorkerState.takesTurn_stackDataBuffer]
  exact kept

/-- The buffer of a connection with another context keeps its bytes. -/
theorem IdleWorker.getBuffer_other {other : ContextPointer} (otherLive : other ∈ state.live)
    (different : other ≠ ctx) {position : Int} (nonneg : 0 ≤ position)
    (small : position < johnnyBufferSize) :
    (state.takesTurn globals ctx turn).getBuffer other position =
      state.getBuffer other position := by
  have own := (idle ctx live).locates
  have others := (idle other otherLive).locates
  have context : (state.takesTurn globals ctx turn).memory.contexts other =
      state.memory.contexts other := by
    rw [WorkerState.takesTurn_contexts, Function.update_of_ne different]
  unfold WorkerState.getBuffer
  rw [context]
  by_cases onHeap : (state.memory.contexts other).index = johnnyStackConnections
  · unfold Connection.getBuffer
    rw [if_pos onHeap, if_pos onHeap]
  · rw [Connection.getBuffer_stack onHeap, Connection.getBuffer_stack onHeap]
    apply idle.stackDataBuffer globals live turn
    -- Two slots have disjoint slices.
    rintro ⟨onStack, lower, upper⟩
    cases other with
    | heap address => exact onHeap others
    | stack slot =>
        cases ctx with
        | heap address => exact onStack own
        | stack ownSlot =>
            apply different
            unfold Connection.bufferBase at lower upper
            dsimp only at lower upper
            rw [own.1, others.1] at lower upper
            simp only [johnnyBufferSize_eq] at lower upper small
            have same : slot = ownSlot := by omega
            rw [same]

theorem IdleWorker.confinedTurn : ConfinedTurn globals state ctx turn where
  operations := (idle.phases globals live turn).1
  resumes := by
    intro after resumed
    have same := (reports_sameParser (state.connection ctx turn) turn.events).trans
      (resumesSending_sameParser turn.events ((state.connection ctx turn).reports turn.events))
    rw [resumed] at same
    exact same.bufferSize.trans (idle ctx live).bufferSize
  others := fun _other otherLive different _position nonneg small =>
    idle.getBuffer_other globals live turn otherLive different nonneg small

/-- A turn leaves all live connections idle unless it releases a context with
unparsed bytes that another live connection has too. -/
theorem IdleWorker.takesTurn_iff :
    IdleWorker (state.takesTurn globals ctx turn) <->
      UnsharedFailure globals state (.turn ctx turn) := by
  have locates := idle.locates_processes globals live turn
  unfold IdleWorker
  rw [ForLive.takesTurn_iff globals idle]
  rcases (idle.phases globals live turn).2 with ends |
    ⟨closed, ⟨parserIdle, unfailed⟩ | ⟨left, requested, failed⟩⟩
  · refine iff_of_true (fun _ => ends.idle.idleContext locates) ?_
    intro _ failed
    rw [ends.unfailed] at failed
    cases failed
  · exact iff_of_true (fun _ => parserIdle.idleContext locates)
      (fun requested failed => absurd ⟨requested, failed⟩ unfailed)
  · have gone : (state.takesTurn globals ctx turn).live = state.live.erase ctx := by
      unfold WorkerState.takesTurn
      dsimp only
      rw [closed]
      rfl
    rw [gone]
    constructor
    · intro own _ _ member
      exact left (own member).bufferSize
    · intro unshared member
      exact absurd member (unshared requested failed)

end

/-! ## Over whole runs -/

theorem IdleWorker.confinedStep_iff {globals : Globals} {state : WorkerState}
    (idle : IdleWorker state) (step : WorkerStep) (enabled : step.Enabled state) :
    ConfinedStep globals state step <-> UnsharedFailure globals state step := by
  cases step with
  | accept fd malloced added =>
      refine iff_of_true ⟨ForLive.accepts idle added (johnnyAllocatesConnection_idle _ _ _),
        ?_⟩ trivial
      intro ctx turn equal
      cases equal
  | turn ctx turn =>
      have after := idle.takesTurn_iff globals enabled turn
      constructor
      · intro confined
        exact after.mp confined.idle
      · intro unshared
        refine ⟨after.mpr unshared, ?_⟩
        intro other otherTurn equal
        cases equal
        exact idle.confinedTurn globals enabled turn

theorem idleWorker_guarded (globals : Globals) :
    (worker globals).Guarded IdleWorker (UnsharedFailure globals) (ConfinedStep globals) where
  keeps := fun _state step idle enabled unshared =>
    ((idle.confinedStep_iff step enabled).mpr unshared).idle
  exact := fun _state step idle enabled => idle.confinedStep_iff step enabled

/-- Over every run of a worker, all events are confined to the buffers of their
connections and leave the live connections idle, exactly as long as no `send`
of a new response fails for good on a context that two live connections share. -/
theorem confined_iff_unsharedFailure (globals : Globals) (steps : List WorkerStep)
    (run : (worker globals).Run WorkerState.zero steps) :
    (worker globals).Throughout (ConfinedStep globals) WorkerState.zero steps <->
      (worker globals).Throughout (UnsharedFailure globals) WorkerState.zero steps :=
  (idleWorker_guarded globals).throughout_iff ForLive.zero run

theorem confined_resumedSteps :
    (worker indexOnly).Throughout (ConfinedStep indexOnly) WorkerState.zero resumedSteps :=
  (confined_iff_unsharedFailure indexOnly resumedSteps (by decide)).mpr (by decide)

/-- Thirty-two connections, of which the sixth is closed, and one more, which
gets the context of the first.  Then a `send` to one of the two fails. -/
def sharedFailureSteps : List WorkerStep :=
  (List.range 32).map (fun i => .accept (5 + i) unusedMalloced true) ++
    [.turn (.stack 5) ⟨epollin, [.received []], []⟩,
      .accept 40 unusedMalloced true,
      .turn (.stack 0) ⟨epollin, [.received (ascii "GET /a HTTP/1.1\r\n\r\n")], [.failed 32]⟩]

/-- The connection that is left finds the unparsed bytes of the other one. -/
theorem not_confined_sharedFailureSteps :
    ¬ forall steps, (worker indexOnly).Run WorkerState.zero steps ->
      (worker indexOnly).Throughout (ConfinedStep indexOnly) WorkerState.zero steps := by
  intro confined
  have run : (worker indexOnly).Run WorkerState.zero sharedFailureSteps := by decide +kernel
  have unshared := ((idleWorker_guarded indexOnly).throughout_iff ForLive.zero run).mp
    (confined sharedFailureSteps run)
  exact absurd unshared (by decide +kernel)

end Worker
end Johnny
