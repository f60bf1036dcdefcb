import Johnny.Worker.Parsing
import Johnny.Worker.Slots

namespace Johnny
namespace Worker

open Library

/-!
# Events on connections

The body of `johnny_works` for one element of the event buffer, and the worker
as a machine that takes such events one after another.  The batches in which
`epoll_wait` delivers them play no part here.

A turn is an event on a connection together with the results of the `recv` and
`send` calls made while it is processed.  A call without a result of its own
would block.
-/

def epollin : BitVec 32 := 0x001

def epollout : BitVec 32 := 0x004

def epollrdhup : BitVec 32 := 0x2000

structure Turn where
  events : BitVec 32
  recvs : List RecvResult
  sends : List SendResult

/-- Whether `johnny_closes_connection` was called on the connection. -/
inductive Verdict
  | kept
  | closed
  deriving DecidableEq

/-- How one round of the receiving loop ended. -/
inductive Round
  | closed
  | drained
  | more
  deriving DecidableEq

def Round.verdict : Round -> Verdict
  | .closed => .closed
  | _ => .kept

/-- `ctx->flags |= ev.events & EPOLLRDHUP`; the field has 16 bits. -/
def Connection.reports (c : Connection) (events : BitVec 32) : Connection :=
  { c with ctx := { c.ctx with flags := c.ctx.flags ||| (events &&& epollrdhup).setWidth 16 } }

/-- The body of the receiving loop. -/
def receivesOnce (globals : Globals) (c : Connection) (result : RecvResult) : Round × Connection :=
  let bufferSpace := (johnnyBufferSize : Int) - c.ctx.bufferOffset
  let received := receives c result
  if received.ctx.bufferSize = 0 then (.closed, received)
  else
    let recvMore := decide (received.ctx.bufferSize = bufferSpace)
    match johnnyHandlesRequests globals received with
    | (.failure, handled) => (.closed, handled)
    | (.success, handled) =>
        if recvMore = false ∧ handled.ctx.flags &&& johnnyCtxRdhup ≠ 0 ∧
            getResponseLength handled.ctx = 0 then (.closed, handled)
        else if recvMore = true then (.more, handled)
        else (.drained, handled)

def receiveLoop (globals : Globals) : List RecvResult -> Connection -> Verdict × Connection
  | [], c =>
      let last := receivesOnce globals c (.failed eagain)
      (last.1.verdict, last.2)
  | result :: rest, c =>
      match receivesOnce globals c result with
      | (.more, c) => receiveLoop globals rest c
      | (round, c) => (round.verdict, c)

/-- Resume sending if the response had not been fully sent. -/
def resumesSending (events : BitVec 32) (c : Connection) : Exit × Connection :=
  if events &&& epollout ≠ 0 ∧ 0 < getResponseLength c.ctx then johnnySendsBytes c
  else (.success, c)

/-- Receive requests, or resume handling those in the buffer. -/
def handlesInput (globals : Globals) (events : BitVec 32) (recvs : List RecvResult)
    (c : Connection) : Verdict × Connection :=
  if events &&& epollin ≠ 0 ∧ c.ctx.bufferSize = 0 then receiveLoop globals recvs c
  else if c.ctx.bufferSize ≠ 0 then
    match johnnyHandlesRequests globals c with
    | (.failure, c) => (.closed, c)
    | (.success, c) => (.kept, c)
  else (.kept, c)

/-- The branch of `johnny_works` for an event on a connection. -/
def handlesEvent (globals : Globals) (events : BitVec 32) (recvs : List RecvResult)
    (c : Connection) : Verdict × Connection :=
  match resumesSending events (c.reports events) with
  | (.failure, c) => (.closed, c)
  | (.success, c) => handlesInput globals events recvs c

/-- A worker between two events.  Beside its memory and live connections there
are the descriptors that `accept4` returned and that are not closed, and the
epoll interest list.  The last two fields record the past of each live
connection: whether an event reported EPOLLRDHUP, and all calls made on it. -/
structure WorkerState extends Connections where
  openFds : List Int
  interest : List (Int × ContextPointer)
  rdhupSeen : ContextPointer -> Bool
  history : ContextPointer -> List Call

def WorkerState.zero : WorkerState where
  toConnections := Connections.zero
  openFds := []
  interest := []
  rdhupSeen := fun _ => false
  history := fun _ => []

namespace WorkerState

/-- A context at the start of an event. -/
def connection (state : WorkerState) (ctx : ContextPointer) (turn : Turn) : Connection where
  ctx := state.memory.contexts ctx
  stackDataBuffer := state.memory.stackDataBuffer
  sends := turn.sends
  calls := []

/-- The calls made and the data changed by an event. -/
def store (state : WorkerState) (ctx : ContextPointer) (turn : Turn) (c : Connection) :
    WorkerState :=
  { state with
    memory := { state.memory with
      contexts := Function.update state.memory.contexts ctx c.ctx
      stackDataBuffer := c.stackDataBuffer }
    rdhupSeen := Function.update state.rdhupSeen ctx
      (state.rdhupSeen ctx || decide (turn.events &&& epollrdhup ≠ 0))
    history := Function.update state.history ctx (state.history ctx ++ c.calls) }

/-- `close` also takes the descriptor off the interest list. -/
def johnnyClosesConnection (state : WorkerState) (ctx : ContextPointer) : WorkerState :=
  let fd := (state.memory.contexts ctx).fd
  { state with
    openFds := state.openFds.erase fd
    interest := state.interest.filter (fun entry => decide (entry.1 ≠ fd))
    memory := johnnyDeallocatesConnection state.memory ctx
    live := state.live.erase ctx }

/-- The branch of `johnny_works` for an event on the listening socket, with the
results of `accept4`, `malloc` and `epoll_ctl`. -/
def accepts (state : WorkerState) (fd : Int) (malloced : Malloced) (added : Bool) : WorkerState :=
  if fd ≠ -1 then
    let allocated := johnnyAllocatesConnection state.memory fd malloced
    { memory := allocated.2
      live := allocated.1 :: state.live
      openFds := fd :: state.openFds
      interest := if added then (fd, allocated.1) :: state.interest else state.interest
      rdhupSeen := Function.update state.rdhupSeen allocated.1 false
      history := Function.update state.history allocated.1 [] }
  else state

/-- An event on a connection, processed to its end. -/
def processes (globals : Globals) (state : WorkerState) (ctx : ContextPointer) (turn : Turn) :
    Verdict × Connection :=
  handlesEvent globals turn.events turn.recvs (state.connection ctx turn)

def takesTurn (globals : Globals) (state : WorkerState) (ctx : ContextPointer) (turn : Turn) :
    WorkerState :=
  let processed := state.processes globals ctx turn
  let stored := state.store ctx turn processed.2
  match processed.1 with
  | .closed => stored.johnnyClosesConnection ctx
  | .kept => stored

end WorkerState

inductive WorkerStep
  | accept (fd : Int) (malloced : Malloced) (added : Bool)
  | turn (ctx : ContextPointer) (turn : Turn)

/-- `accept4` returns a descriptor that is not in use, `malloc` a block that is
not in use, and events concern live connections. -/
def WorkerStep.Enabled (state : WorkerState) : WorkerStep -> Prop
  | .accept fd malloced _ =>
      fd = -1 ∨ (0 ≤ fd ∧ fd ∉ state.openFds ∧ malloced.address ∉ state.memory.heapContexts)
  | .turn ctx _ => ctx ∈ state.live

instance (state : WorkerState) (step : WorkerStep) : Decidable (step.Enabled state) :=
  match step with
  | .accept fd malloced _ => inferInstanceAs (Decidable
      (fd = -1 ∨ (0 ≤ fd ∧ fd ∉ state.openFds ∧ malloced.address ∉ state.memory.heapContexts)))
  | .turn ctx _ => inferInstanceAs (Decidable (ctx ∈ state.live))

/-- The worker thread that serves a file table. -/
def worker (globals : Globals) : Machine WorkerState WorkerStep where
  enabled := fun state step => step.Enabled state
  step := fun state step =>
    match step with
    | .accept fd malloced added => state.accepts fd malloced added
    | .turn ctx turn => state.takesTurn globals ctx turn

instance (globals : Globals) (state : WorkerState) (step : WorkerStep) :
    Decidable ((worker globals).enabled state step) :=
  inferInstanceAs (Decidable (step.Enabled state))

theorem getResponseLength_set {ctx : ConnectionContext} (fits : ConnectionContext.TailFits ctx)
    (length : Nat) : getResponseLength (setResponseLength ctx length) = length := by
  unfold ConnectionContext.TailFits at fits
  unfold setResponseLength getResponseLength
  cases tail : ctx.tail with
  | extension extension =>
      rw [tail] at fits
      rw [if_pos fits]
      dsimp only
      rw [if_pos fits]
  | responseLength old =>
      rw [tail] at fits
      rw [if_neg fits, if_neg fits]

@[simp] theorem setResponseLength_response (ctx : ConnectionContext) (length : Nat) :
    (setResponseLength ctx length).response = ctx.response := by
  unfold setResponseLength
  split_ifs
  · cases ctx.tail <;> rfl
  · rfl

@[simp] theorem setResponseLength_flags (ctx : ConnectionContext) (length : Nat) :
    (setResponseLength ctx length).flags = ctx.flags := by
  unfold setResponseLength
  split_ifs
  · cases ctx.tail <;> rfl
  · rfl

theorem setResponseLength_fits {ctx : ConnectionContext} (fits : ConnectionContext.TailFits ctx)
    (length : Nat) : ConnectionContext.TailFits (setResponseLength ctx length) := by
  unfold ConnectionContext.TailFits at fits
  unfold setResponseLength
  cases tail : ctx.tail with
  | extension extension =>
      rw [tail] at fits
      rw [if_pos fits]
      exact fits
  | responseLength old =>
      rw [tail] at fits
      rw [if_neg fits]
      exact fits

/-! ## What one event preserves -/

/-- The parser changes no more than its own fields and the buffer. -/
theorem startsFileName_same (c : Connection) (bytesParsed : Int) :
    SameCursor c (startsFileName c bytesParsed).2 ∧
      (startsFileName c bytesParsed).2.calls = c.calls := by
  unfold startsFileName
  dsimp only
  split_ifs with short
  · exact ⟨⟨rfl, rfl, rfl, rfl, rfl, Iff.rfl, rfl⟩, rfl⟩
  · cases memchr c.getBuffer 32 bytesParsed (c.ctx.bufferSize - bytesParsed).toNat with
    | none =>
        dsimp only
        have cleared : SameCursor c { c with
            ctx := { c.ctx with bufferOffset := 0, bufferSize := 0, prefixCounter := 9 } } :=
          ⟨rfl, rfl, rfl, rfl, rfl, Iff.rfl, rfl⟩
        exact ⟨cleared.trans (Connection.writeBuffer_sameCursor _ _ _),
          Connection.writeBuffer_calls _ _ _⟩
    | some endOfFilename =>
        dsimp only
        have written := Connection.writeBuffer_sameCursor c endOfFilename [0]
        exact ⟨written.trans ⟨rfl, rfl, rfl, rfl, rfl, Iff.rfl, rfl⟩,
          Connection.writeBuffer_calls _ _ _⟩

theorem filenameLoop_same (c : Connection) (count : Nat) (bytesParsed prefixCounter : Int) :
    SameCursor c (filenameLoop c count bytesParsed prefixCounter).2 ∧
      (filenameLoop c count bytesParsed prefixCounter).2.calls = c.calls := by
  induction count generalizing bytesParsed prefixCounter with
  | zero => exact ⟨⟨rfl, rfl, rfl, rfl, rfl, Iff.rfl, rfl⟩, rfl⟩
  | succ count ih =>
      rw [filenameLoop]
      split_ifs
      · exact startsFileName_same c _
      · exact ih _ _
      · exact ih _ _

theorem johnnyFindsFilename_same (c : Connection) :
    SameCursor c (johnnyFindsFilename c).2 ∧ (johnnyFindsFilename c).2.calls = c.calls :=
  filenameLoop_same c _ _ _

theorem johnnyFindsFilename_calls {c after : Connection} {position : Option Int}
    (finds : johnnyFindsFilename c = (position, after)) : after.calls = c.calls := by
  have calls := (johnnyFindsFilename_same c).2
  rwa [finds] at calls

theorem receives_same (c : Connection) (result : RecvResult) :
    SameCursor c (receives c result) := by
  cases result with
  | failed errno => exact ⟨rfl, rfl, rfl, rfl, rfl, Iff.rfl, rfl⟩
  | received bytes =>
      have written := Connection.writeBuffer_sameCursor c c.ctx.bufferOffset
        (bytes.take ((johnnyBufferSize : Int) - c.ctx.bufferOffset).toNat)
      exact written.trans ⟨rfl, rfl, rfl, rfl, rfl, Iff.rfl, rfl⟩

theorem receives_calls (c : Connection) (result : RecvResult) :
    Exists fun received => (receives c result).calls =
      c.calls ++ [.recv ((johnnyBufferSize : Int) - c.ctx.bufferOffset) received] := by
  cases result with
  | failed errno => exact ⟨_, rfl⟩
  | received bytes => exact ⟨_, rfl⟩

/-- A property of a connection that every function called on it preserves. -/
structure Preserved (globals : Globals) (P : Connection -> Prop) : Prop where
  reports : forall c events, P c -> P (c.reports events)
  sendsBytes : forall c, P c -> P (johnnySendsBytes c).2
  selectsResponse : forall c fileName, P c -> P (c.selectsResponse globals fileName)
  findsFilename : forall c, P c -> P (johnnyFindsFilename c).2
  receives : forall c result, P c -> P (receives c result)

end Worker
end Johnny
