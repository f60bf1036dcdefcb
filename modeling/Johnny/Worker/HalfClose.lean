import Johnny.Worker.ResponseStream
import Mathlib.Tactic.IntervalCases

namespace Johnny
namespace Worker

open Library

/-!
# Half-closed connections

The saved event bit is `EPOLLRDHUP`, which is `0x2000`, and the bit tested
before a half-closed connection is closed is `JOHNNY_CTX_RDHUP`, which is `4`.
So the test never succeeds, and a turn closes its connection in two cases only:
`recv` reports the end of the stream, or `send` fails for good.
-/

/-- `send` failed with an error other than `EAGAIN` and `EWOULDBLOCK`. -/
def Call.failedForGood : Call -> Bool
  | .send _ (.failed errno) => !decide (errno = eagain ∨ errno = ewouldblock)
  | _ => false

def sendFailed (calls : List Call) : Bool :=
  calls.any Call.failedForGood

/-- The number that `recv` returned. -/
def RecvResult.length : RecvResult -> Int
  | .received bytes => bytes.length
  | .failed _ => -1

def Call.received : Call -> Option (Int × RecvResult)
  | .recv space result => some (space, result)
  | _ => none

def lastRecv (calls : List Call) : Option (Int × RecvResult) :=
  (calls.filterMap Call.received).getLast?

/-- The last `recv` returned `0`. -/
def ReadsEnd (calls : List Call) : Prop :=
  Exists fun space => lastRecv calls = some (space, .received [])

/-- The verdict that the calls of a turn call for. -/
def CallsForClosing (calls : List Call) : Prop :=
  ReadsEnd calls ∨ sendFailed calls = true

@[simp] theorem sendFailed_append (first second : List Call) :
    sendFailed (first ++ second) = (sendFailed first || sendFailed second) :=
  List.any_append

@[simp] theorem lastRecv_append_recv (calls : List Call) (space : Int) (result : RecvResult) :
    lastRecv (calls ++ [.recv space result]) = some (space, result) := by
  unfold lastRecv
  rw [List.filterMap_append]
  exact List.getLast?_concat

/-- What an attempt to send responses does to the flags and the calls: it
receives nothing, and it fails exactly when a `send` fails for good. -/
structure Attempt (c : Connection) (result : Exit × Connection) : Prop where
  flags : result.2.ctx.flags = c.ctx.flags
  recvs : lastRecv result.2.calls = lastRecv c.calls
  failure : sendFailed c.calls = false -> (sendFailed result.2.calls = true <-> result.1 = .failure)

theorem Attempt.trans {c next : Connection} {exit : Exit} {result : Exit × Connection}
    (first : Attempt c (exit, next)) (success : exit = .success) (second : Attempt next result) :
    Attempt c result where
  flags := second.flags.trans first.flags
  recvs := second.recvs.trans first.recvs
  failure := by
    intro clean
    apply second.failure
    apply Bool.eq_false_iff.mpr
    intro failed
    have failure : exit = .failure := (first.failure clean).mp failed
    rw [success] at failure
    cases failure

theorem Attempt.of_same {c next : Connection} (flags : next.ctx.flags = c.ctx.flags)
    (recvs : lastRecv next.calls = lastRecv c.calls)
    (sends : sendFailed next.calls = sendFailed c.calls) : Attempt c (.success, next) where
  flags := flags
  recvs := recvs
  failure := by
    intro clean
    dsimp only
    rw [sends, clean]
    exact iff_of_false Bool.false_ne_true (fun failure => by cases failure)

theorem lastRecv_append_of_none {calls : List Call} {call : Call} (silent : call.received = none) :
    lastRecv (calls ++ [call]) = lastRecv calls := by
  unfold lastRecv
  rw [List.filterMap_append, List.filterMap_cons_none silent, List.filterMap_nil, List.append_nil]

theorem johnnySendsBytes_attempt (c : Connection) : Attempt c (johnnySendsBytes c) := by
  unfold johnnySendsBytes
  cases c.sends.headD (.failed eagain) with
  | accepted count =>
      dsimp only
      apply Attempt.of_same
      · exact setResponseLength_flags _ _
      · exact lastRecv_append_of_none rfl
      · rw [sendFailed_append]
        exact Bool.or_false _
  | failed errno =>
      refine ⟨rfl, lastRecv_append_of_none rfl, ?_⟩
      intro clean
      dsimp only
      rw [sendFailed_append, clean, Bool.false_or]
      by_cases again : errno = eagain ∨ errno = ewouldblock
      · rw [if_pos again]
        refine iff_of_false ?_ (by decide)
        simp [sendFailed, Call.failedForGood, again]
      · rw [if_neg again]
        refine iff_of_true ?_ rfl
        simp [sendFailed, Call.failedForGood, again]

theorem johnnySendsResponse_attempt (globals : Globals) (c : Connection) (fileName : Bytes) :
    Attempt c (johnnySendsResponse globals c fileName) := by
  have selected : Attempt c (.success, c.selectsResponse globals fileName) := by
    apply Attempt.of_same
    · exact setResponseLength_flags _ _
    · exact lastRecv_append_of_none rfl
    · unfold Connection.selectsResponse
      dsimp only
      rw [sendFailed_append]
      exact Bool.or_false _
  exact selected.trans rfl (johnnySendsBytes_attempt _)

theorem johnnyFindsFilename_attempt (c : Connection) :
    Attempt c (.success, (johnnyFindsFilename c).2) := by
  rcases johnnyFindsFilename_same c with ⟨same, calls⟩
  apply Attempt.of_same
  · exact same.flags
  · rw [calls]
  · rw [calls]

theorem handlesRequestsLoop_attempt (globals : Globals) (fuel : Nat) (c : Connection) :
    Attempt c (handlesRequestsLoop globals fuel c) := by
  induction fuel generalizing c with
  | zero => exact Attempt.of_same rfl rfl rfl
  | succ fuel ih =>
      have finding := johnnyFindsFilename_attempt c
      rw [handlesRequestsLoop]
      generalize johnnyFindsFilename c = found at finding ⊢
      rcases found with ⟨position, next⟩
      cases position with
      | none => exact finding
      | some position =>
          have sending := johnnySendsResponse_attempt globals next (next.fileNameAt position)
          dsimp only
          generalize johnnySendsResponse globals next (next.fileNameAt position) = sent at sending ⊢
          rcases sent with ⟨exit, after⟩
          cases exit with
          | failure => exact finding.trans rfl sending
          | success => exact finding.trans rfl (sending.trans rfl (ih after))

theorem johnnyHandlesRequests_attempt (globals : Globals) (c : Connection) :
    Attempt c (johnnyHandlesRequests globals c) :=
  handlesRequestsLoop_attempt globals _ c

/-- What the receiving loop and the turn around it decide, when the tested bit
is not set and no `send` has failed yet. -/
structure Decides (c : Connection) (closed : Prop) (after : Connection) : Prop where
  flags : after.ctx.flags = c.ctx.flags
  verdict : c.ctx.flags &&& johnnyCtxRdhup = 0 -> sendFailed c.calls = false ->
    (closed <-> CallsForClosing after.calls)

theorem Decides.congr {c after : Connection} {closed closes : Prop}
    (decides : Decides c closed after) (same : closes <-> closed) : Decides c closes after where
  flags := decides.flags
  verdict := fun clear unfailed => same.trans (decides.verdict clear unfailed)

theorem Round.verdict_eq_closed_iff (round : Round) : round.verdict = .closed <->
    round = .closed := by
  cases round <;> decide

theorem receives_sendFailed (c : Connection) (result : RecvResult) :
    sendFailed (receives c result).calls = sendFailed c.calls := by
  rcases receives_calls c result with ⟨received, calls⟩
  rw [calls, sendFailed_append]
  exact Bool.or_false _

/-- `buffer_size` is zero after `recv` exactly when it returned `0`. -/
theorem receives_readsEnd_iff (c : Connection) (result : RecvResult) :
    ReadsEnd (receives c result).calls <-> (receives c result).ctx.bufferSize = 0 := by
  unfold ReadsEnd
  cases result with
  | failed errno =>
      unfold receives
      dsimp only
      rw [lastRecv_append_recv]
      refine iff_of_false ?_ (by decide)
      rintro ⟨space, equal⟩
      cases equal
  | received bytes =>
      unfold receives
      dsimp only
      rw [lastRecv_append_recv]
      constructor
      · rintro ⟨space, equal⟩
        have empty := RecvResult.received.inj (Prod.mk.inj (Option.some.inj equal)).2
        rw [empty]
        rfl
      · intro zero
        have empty := List.eq_nil_of_length_eq_zero (Int.natCast_eq_zero.mp zero)
        exact ⟨_, by rw [empty]⟩

theorem receivesOnce_decides (globals : Globals) (c : Connection) (result : RecvResult) :
    Decides c ((receivesOnce globals c result).1 = .closed) (receivesOnce globals c result).2 := by
  have receivedFlags := (receives_same c result).flags
  have endRead := receives_readsEnd_iff c result
  have clean := receives_sendFailed c result
  have handling := johnnyHandlesRequests_attempt globals (receives c result)
  unfold receivesOnce
  dsimp only
  by_cases none : (receives c result).ctx.bufferSize = 0
  · rw [if_pos none]
    exact ⟨receivedFlags, fun _ _ => iff_of_true rfl (Or.inl (endRead.mpr none))⟩
  · rw [if_neg none]
    have more := mt endRead.mp none
    generalize johnnyHandlesRequests globals (receives c result) = handled at handling ⊢
    rcases handled with ⟨exit, after⟩
    have flags : after.ctx.flags = c.ctx.flags := handling.flags.trans receivedFlags
    have noEnd : ¬ ReadsEnd after.calls := by
      rintro ⟨space, last⟩
      exact more ⟨space, handling.recvs ▸ last⟩
    cases exit with
    | failure =>
        refine ⟨flags, fun _ unfailed => iff_of_true rfl (Or.inr ?_)⟩
        exact (handling.failure (clean.trans unfailed)).mpr rfl
    | success =>
        dsimp only
        have stays : c.ctx.flags &&& johnnyCtxRdhup = 0 -> sendFailed c.calls = false ->
            ¬ CallsForClosing after.calls := by
          rintro _ unfailed (ends | failed)
          · exact noEnd ends
          · have failure := (handling.failure (clean.trans unfailed)).mp failed
            cases failure
        by_cases tested : decide ((receives c result).ctx.bufferSize =
            (johnnyBufferSize : Int) - c.ctx.bufferOffset) = false ∧
            after.ctx.flags &&& johnnyCtxRdhup ≠ 0 ∧ getResponseLength after.ctx = 0
        · rw [if_pos tested]
          refine ⟨flags, fun clear _ => ?_⟩
          rw [← flags] at clear
          exact absurd clear tested.2.1
        · rw [if_neg tested]
          split_ifs
          · exact ⟨flags, fun clear unfailed => iff_of_false (by decide) (stays clear unfailed)⟩
          · exact ⟨flags, fun clear unfailed => iff_of_false (by decide) (stays clear unfailed)⟩

/-- The loop goes on only while nothing calls for closing. -/
theorem receiveLoop_decides (globals : Globals) (recvs : List RecvResult) (c : Connection) :
    Decides c ((receiveLoop globals recvs c).1 = .closed) (receiveLoop globals recvs c).2 := by
  induction recvs generalizing c with
  | nil =>
      have once := receivesOnce_decides globals c (.failed eagain)
      rw [receiveLoop]
      exact once.congr (Round.verdict_eq_closed_iff _)
  | cons result rest ih =>
      have once := receivesOnce_decides globals c result
      rw [receiveLoop]
      generalize receivesOnce globals c result = round at once ⊢
      rcases round with ⟨round, after⟩
      cases round with
      | closed => exact once.congr (Round.verdict_eq_closed_iff .closed)
      | drained => exact once.congr (Round.verdict_eq_closed_iff .drained)
      | more =>
          have later := ih after
          refine ⟨later.flags.trans once.flags, fun clear unfailed => ?_⟩
          apply later.verdict
          · rw [once.flags]
            exact clear
          · apply Bool.eq_false_iff.mpr
            intro failed
            have closed : Round.more = .closed := (once.verdict clear unfailed).mpr (Or.inr failed)
            cases closed

/-- Without a `recv` only a failed `send` closes the connection. -/
theorem Attempt.decides {c next : Connection} {exit : Exit} (attempt : Attempt c (exit, next))
    (silent : lastRecv c.calls = none) : Decides c (exit = .failure) next where
  flags := attempt.flags
  verdict := by
    intro _ unfailed
    rw [← attempt.failure unfailed]
    refine ⟨Or.inr, ?_⟩
    rintro (⟨space, last⟩ | failed)
    · rw [attempt.recvs, silent] at last
      cases last
    · exact failed

theorem handlesInput_decides (globals : Globals) (events : BitVec 32) (recvs : List RecvResult)
    (c : Connection) (silent : lastRecv c.calls = none) :
    Decides c ((handlesInput globals events recvs c).1 = .closed)
      (handlesInput globals events recvs c).2 := by
  have handling := johnnyHandlesRequests_attempt globals c
  unfold handlesInput
  split_ifs
  · exact receiveLoop_decides globals recvs c
  · generalize johnnyHandlesRequests globals c = handled at handling ⊢
    rcases handled with ⟨exit, after⟩
    cases exit with
    | failure => exact (handling.decides silent).congr (iff_of_true rfl rfl)
    | success =>
        apply (handling.decides silent).congr
        exact iff_of_false (fun closed => by cases closed) (fun failure => by cases failure)
  · have nothing : Attempt c (.success, c) := Attempt.of_same rfl rfl rfl
    exact (nothing.decides silent).congr (iff_of_false (by decide) (by decide))

theorem resumesSending_attempt (events : BitVec 32) (c : Connection) :
    Attempt c (resumesSending events c) := by
  unfold resumesSending
  split_ifs
  · exact johnnySendsBytes_attempt c
  · exact Attempt.of_same rfl rfl rfl

/-- `EPOLLRDHUP` never sets the bit that is tested. -/
theorem reports_rdhup (c : Connection) (events : BitVec 32) :
    (c.reports events).ctx.flags &&& johnnyCtxRdhup = c.ctx.flags &&& johnnyCtxRdhup := by
  have apart : (events &&& epollrdhup).setWidth 16 &&& johnnyCtxRdhup = 0 := by
    apply BitVec.eq_of_getLsbD_eq
    intro i bound
    have one : johnnyCtxRdhup.getLsbD i = decide (i = 2) := by
      interval_cases i <;> rfl
    rw [BitVec.getLsbD_and, one, BitVec.getLsbD_setWidth, BitVec.getLsbD_and]
    by_cases second : i = 2
    · subst second
      have clear : epollrdhup.getLsbD 2 = false := by decide
      rw [clear]
      simp
    · simp [second]
  change (c.ctx.flags ||| (events &&& epollrdhup).setWidth 16) &&& johnnyCtxRdhup = _
  rw [BitVec.and_or_distrib_right, apart]
  exact BitVec.or_zero

/-- A turn closes its connection exactly when its calls call for it. -/
theorem handlesEvent_closed_iff (globals : Globals) (events : BitVec 32) (recvs : List RecvResult)
    {c : Connection} (clear : c.ctx.flags &&& johnnyCtxRdhup = 0) (fresh : c.calls = []) :
    (handlesEvent globals events recvs c).1 = .closed <->
      CallsForClosing (handlesEvent globals events recvs c).2.calls := by
  have resuming := resumesSending_attempt events (c.reports events)
  have silent : lastRecv (c.reports events).calls = none := by
    change lastRecv c.calls = none
    rw [fresh]
    rfl
  have unfailed : sendFailed (c.reports events).calls = false := by
    change sendFailed c.calls = false
    rw [fresh]
    rfl
  have stillClear := (reports_rdhup c events).trans clear
  unfold handlesEvent
  generalize resumesSending events (c.reports events) = resumed at resuming ⊢
  rcases resumed with ⟨exit, after⟩
  cases exit with
  | failure =>
      have closes := ((resuming.decides silent).verdict stillClear unfailed).mp rfl
      exact iff_of_true rfl closes
  | success =>
      have decides := handlesInput_decides globals events recvs after (resuming.recvs.trans silent)
      apply decides.verdict
      · rw [resuming.flags]
        exact stillClear
      · apply Bool.eq_false_iff.mpr
        intro failed
        have failure := (resuming.failure unfailed).mp failed
        cases failure

/-! ## Reachable workers -/

/-- What every turn keeps of the context of its connection. -/
structure SameConnection (before after : ConnectionContext) : Prop where
  index : after.index = before.index
  fd : after.fd = before.fd
  rdhup : after.flags &&& johnnyCtxRdhup = before.flags &&& johnnyCtxRdhup

theorem setResponseLength_same (ctx : ConnectionContext) (response : ResponsePointer)
    (length : Nat) :
    SameConnection ctx (setResponseLength { ctx with response := response } length) := by
  refine ⟨?_, ?_, by rw [setResponseLength_flags]⟩
  · unfold setResponseLength
    split_ifs
    · cases ctx.tail <;> rfl
    · rfl
  · unfold setResponseLength
    split_ifs
    · cases ctx.tail <;> rfl
    · rfl

theorem SameConnection.trans {first second third : ConnectionContext}
    (left : SameConnection first second) (right : SameConnection second third) :
    SameConnection first third :=
  ⟨right.index.trans left.index, right.fd.trans left.fd, right.rdhup.trans left.rdhup⟩

theorem SameCursor.sameConnection {before after : Connection} (same : SameCursor before after) :
    SameConnection before.ctx after.ctx :=
  ⟨same.index, same.fd, by rw [same.flags]⟩

theorem sameConnection_preserved (globals : Globals) (ctx : ConnectionContext) :
    Preserved globals (fun c => SameConnection ctx c.ctx) where
  reports := fun c events same => same.trans ⟨rfl, rfl, reports_rdhup c events⟩
  sendsBytes := by
    intro c same
    unfold johnnySendsBytes
    cases c.sends.headD (.failed eagain) with
    | failed errno => exact same
    | accepted count => exact same.trans (setResponseLength_same _ _ _)
  selectsResponse := fun c fileName same => same.trans (setResponseLength_same _ _ _)
  findsFilename := fun c same => same.trans (johnnyFindsFilename_same c).1.sameConnection
  receives := fun c result same => same.trans (receives_same c result).sameConnection

theorem WorkerState.processes_same (globals : Globals) (state : WorkerState) (ctx : ContextPointer)
    (turn : Turn) :
    SameConnection (state.memory.contexts ctx) (state.processes globals ctx turn).2.ctx := by
  apply (sameConnection_preserved globals (state.memory.contexts ctx)).handlesEvent
  exact ⟨rfl, rfl, rfl⟩

/-- No live context has the tested bit set. -/
def RdhupClear (state : WorkerState) : Prop :=
  forall ctx, ctx ∈ state.live -> (state.memory.contexts ctx).flags &&& johnnyCtxRdhup = 0

theorem rdhupClear_reachable {globals : Globals} {state : WorkerState}
    (reachable : (worker globals).Reachable WorkerState.zero state) : RdhupClear state := by
  change ForLive (fun _ context _ => context.flags &&& johnnyCtxRdhup = 0) state
  refine ForLive.reachable ?_ ?_ reachable
  · intro memory fd malloced
    rw [(johnnyAllocatesConnection_new memory fd malloced).flags]
    rfl
  · intro before ctx turn clear
    rw [(before.processes_same globals ctx turn).rdhup]
    exact clear

/-- The connection is closed and its context released. -/
structure Reclaimed (before : WorkerState) (ctx : ContextPointer) (after : WorkerState) : Prop where
  fd : after.openFds = before.openFds.erase (before.memory.contexts ctx).fd
  live : after.live = before.live.erase ctx
  conBitmap : after.memory.conBitmap = (johnnyDeallocatesConnection before.memory ctx).conBitmap
  heapContexts : after.memory.heapContexts =
    (johnnyDeallocatesConnection before.memory ctx).heapContexts

/-- A turn on a half-closed connection that receives data, ends with a short
`recv` and leaves nothing to send. -/
structure LastRequests (globals : Globals) (state : WorkerState) (ctx : ContextPointer)
    (turn : Turn) : Prop where
  live : ctx ∈ state.live
  reported : turn.events &&& epollrdhup ≠ 0 ∨ state.rdhupSeen ctx = true
  data : Exists fun space => Exists fun bytes =>
    .recv space (.received bytes) ∈ (state.processes globals ctx turn).2.calls ∧ bytes ≠ []
  short : Exists fun space => Exists fun result =>
    lastRecv (state.processes globals ctx turn).2.calls = some (space, result) ∧
      result.length < space
  sent : getResponseLength (state.processes globals ctx turn).2.ctx = 0

/-- Deallocation looks at the index of a context only. -/
theorem johnnyDeallocatesConnection_store (state : WorkerState) (ctx : ContextPointer) (turn : Turn)
    {c : Connection} (index : c.ctx.index = (state.memory.contexts ctx).index) :
    (johnnyDeallocatesConnection (state.store ctx turn c).memory ctx).conBitmap =
        (johnnyDeallocatesConnection state.memory ctx).conBitmap ∧
      (johnnyDeallocatesConnection (state.store ctx turn c).memory ctx).heapContexts =
        (johnnyDeallocatesConnection state.memory ctx).heapContexts := by
  unfold johnnyDeallocatesConnection WorkerState.store
  dsimp only
  rw [Function.update_self, index]
  split_ifs
  · cases ctx <;> exact ⟨rfl, rfl⟩
  · exact ⟨rfl, rfl⟩

theorem WorkerState.takesTurn_reclaimed_iff {globals : Globals} {state : WorkerState}
    {ctx : ContextPointer} (live : ctx ∈ state.live) (turn : Turn) :
    Reclaimed state ctx (state.takesTurn globals ctx turn) <->
      (state.processes globals ctx turn).1 = .closed := by
  have same := state.processes_same globals ctx turn
  unfold takesTurn
  dsimp only
  cases verdict : (state.processes globals ctx turn).1 with
  | closed =>
      refine iff_of_true ?_ rfl
      rcases johnnyDeallocatesConnection_store state ctx turn same.index with ⟨bitmap, heap⟩
      refine ⟨?_, rfl, bitmap, heap⟩
      unfold johnnyClosesConnection store
      dsimp only
      rw [Function.update_self, same.fd]
  | kept =>
      refine iff_of_false ?_ (by decide)
      intro reclaimed
      have lengths := congrArg List.length reclaimed.live
      have erased := List.length_erase_of_mem live
      have positive := List.length_pos_of_mem live
      have kept : (state.store ctx turn (state.processes globals ctx turn).2).live = state.live :=
        rfl
      rw [kept] at lengths
      omega

def oneConnection : WorkerState :=
  WorkerState.zero.accepts 5 unusedMalloced true

/-- The last request and the half-close arrive together, and the whole response
is sent. -/
def lastRequestTurn : Turn :=
  ⟨epollin ||| epollrdhup, [.received (ascii "GET /index.html HTTP/1.1\r\n\r\n")], [.accepted 38]⟩

theorem lastRequests_lastRequestTurn :
    LastRequests indexOnly oneConnection (.stack 0) lastRequestTurn where
  live := by decide
  reported := by decide
  data := ⟨1024, ascii "GET /index.html HTTP/1.1\r\n\r\n", by decide, by decide⟩
  short := ⟨1024, .received (ascii "GET /index.html HTTP/1.1\r\n\r\n"), by decide, by decide⟩
  sent := by decide

theorem oneConnection_reachable : (worker indexOnly).Reachable WorkerState.zero oneConnection :=
  ⟨[.accept 5 unusedMalloced true], by decide, rfl⟩

/-- In every reachable worker, a half-closed connection whose last requests are
answered is reclaimed exactly when the turn also reads the end of the stream or
a `send` fails for good. -/
theorem lastRequests_reclaimed_iff (globals : Globals) (state : WorkerState)
    (reachable : (worker globals).Reachable WorkerState.zero state) (ctx : ContextPointer)
    (turn : Turn) (last : LastRequests globals state ctx turn) :
    Reclaimed state ctx (state.takesTurn globals ctx turn) <->
      CallsForClosing (state.processes globals ctx turn).2.calls := by
  rw [WorkerState.takesTurn_reclaimed_iff last.live]
  exact handlesEvent_closed_iff globals turn.events turn.recvs
    (rdhupClear_reachable reachable ctx last.live) rfl

/-- In the turn above the only `recv` returned data. -/
theorem not_reclaimed_lastRequestTurn :
    ¬ Reclaimed oneConnection (.stack 0)
      (oneConnection.takesTurn indexOnly (.stack 0) lastRequestTurn) := by
  rw [lastRequests_reclaimed_iff indexOnly oneConnection oneConnection_reachable (.stack 0)
    lastRequestTurn lastRequests_lastRequestTurn]
  rintro (⟨space, last⟩ | failed)
  · have received : lastRecv
        (oneConnection.processes indexOnly (.stack 0) lastRequestTurn).2.calls =
        some (1024, .received (ascii "GET /index.html HTTP/1.1\r\n\r\n")) := by
      decide
    rw [received] at last
    have empty := RecvResult.received.inj (Prod.mk.inj (Option.some.inj last)).2
    exact absurd empty (by decide)
  · exact absurd failed (by decide)

theorem not_reclaimed_halfClosed :
    ¬ forall state ctx turn, (worker indexOnly).Reachable WorkerState.zero state ->
      LastRequests indexOnly state ctx turn ->
      Reclaimed state ctx (state.takesTurn indexOnly ctx turn) := by
  intro reclaimed
  have now := reclaimed oneConnection (.stack 0) lastRequestTurn oneConnection_reachable
    lastRequests_lastRequestTurn
  have gone := now.live
  exact absurd gone (by decide)

end Worker
end Johnny
