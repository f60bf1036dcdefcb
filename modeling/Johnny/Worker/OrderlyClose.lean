import Johnny.Worker.LastCalls
import Johnny.Worker.ResponseCursor

namespace Johnny
namespace Worker

open Library

/-!
# Responses at the close of a connection

A connection is closed in order when `recv` reports the end of the stream.  The
event loop closes it at once, whatever is still to be sent.  So the responses
are delivered in full exactly as long as every connection whose peer ends the
stream has by then been sent all of them.
-/

/-- The response length that the calls so far account for. -/
def Call.pendingAfter (globals : Globals) (pending : Nat) : Call -> Nat
  | .recv _ _ => pending
  | .send _ (.accepted count) => pending - count
  | .send _ (.failed _) => pending
  | .request fileName _ => (johnnySelectsResponse globals fileName).2

def pendingLength (globals : Globals) (calls : List Call) : Nat :=
  calls.foldl (Call.pendingAfter globals) 0

/-- What the calls on a connection and its context say when it is closed: no
response is left, unless a `send` failed for good, and then all of them have
been delivered. -/
structure Delivered (globals : Globals) (calls : List Call) (ctx : ConnectionContext) : Prop where
  sent : 0 < getResponseLength ctx -> sendFailed calls = true
  whole : sendFailed calls = false -> sentBytes calls = requestedResponses globals calls

/-- If a step closes a connection, it does not cut off a response. -/
def NotCutOff (globals : Globals) (state : WorkerState) : WorkerStep -> Prop
  | .accept _ _ _ => True
  | .turn ctx turn =>
      (state.processes globals ctx turn).1 = .closed ->
        Delivered globals (state.callsThrough globals ctx turn)
          (state.processes globals ctx turn).2.ctx

/-- Nothing is left to send, and nothing has been replaced before it was sent,
unless a `send` failed for good. -/
def Settled (globals : Globals) (calls : List Call) : Prop :=
  sendFailed calls = true ∨ (pendingLength globals calls = 0 ∧ RequestsWhenSent calls)

instance (globals : Globals) (calls : List Call) : Decidable (Settled globals calls) :=
  inferInstanceAs (Decidable (_ ∨ _))

def Call.endsStream : Call -> Bool
  | .recv _ (.received []) => true
  | _ => false

/-- A `recv` reports the end of the stream only when the connection is
settled. -/
def EndsWhenSettled (globals : Globals) (state : WorkerState) : WorkerStep -> Prop
  | .accept _ _ _ => True
  | .turn ctx turn =>
      forall i, (inside : i < (state.processes globals ctx turn).2.calls.length) ->
        ((state.processes globals ctx turn).2.calls[i]).endsStream = true ->
          Settled globals (state.history ctx ++ (state.processes globals ctx turn).2.calls.take i)

instance (globals : Globals) (state : WorkerState) (step : WorkerStep) :
    Decidable (EndsWhenSettled globals state step) :=
  match step with
  | .accept _ _ _ => .isTrue trivial
  | .turn _ _ => Nat.decidableBallLT _ _

@[simp] theorem pendingLength_append_singleton (globals : Globals) (calls : List Call)
    (call : Call) : pendingLength globals (calls ++ [call]) =
      call.pendingAfter globals (pendingLength globals calls) := by
  unfold pendingLength
  rw [List.foldl_append]
  rfl

/-- The context of a connection is accounted for by the calls made on it. -/
structure Accounted (globals : Globals) (calls : List Call) (ctx : ConnectionContext) : Prop where
  follows : Follows globals calls ctx
  length : getResponseLength ctx = pendingLength globals calls

theorem accounted_preserved (globals : Globals) (earlier : List Call) :
    Preserved globals (fun c => Accounted globals (earlier ++ c.calls) c.ctx) where
  reports := fun c events accounted =>
    ⟨(follows_preserved globals earlier).reports c events accounted.follows, accounted.length⟩
  sendsBytes := by
    intro c accounted
    refine ⟨(follows_preserved globals earlier).sendsBytes c accounted.follows, ?_⟩
    rcases johnnySendsBytes_advances accounted.follows.fits with ⟨-, result, calls, advances⟩
    rw [calls, ← List.append_assoc, pendingLength_append_singleton, ← accounted.length]
    cases result with
    | failed errno =>
        rw [show (johnnySendsBytes c).2.ctx = c.ctx from advances]
        rfl
    | accepted count => exact Nat.eq_sub_of_add_eq advances.1
  selectsResponse := by
    intro c fileName accounted
    refine ⟨(follows_preserved globals earlier).selectsResponse c fileName accounted.follows, ?_⟩
    have fits : ConnectionContext.TailFits { c.ctx with
        response := (johnnySelectsResponse globals fileName).1 } := accounted.follows.fits
    unfold Connection.selectsResponse
    dsimp only
    rw [← List.append_assoc, pendingLength_append_singleton, getResponseLength_set fits]
    rfl
  findsFilename := by
    intro c accounted
    refine ⟨(follows_preserved globals earlier).findsFilename c accounted.follows, ?_⟩
    rcases johnnyFindsFilename_same c with ⟨same, calls⟩
    rw [calls, same.responseLength]
    exact accounted.length
  receives := by
    intro c result accounted
    refine ⟨(follows_preserved globals earlier).receives c result accounted.follows, ?_⟩
    rcases receives_calls c result with ⟨received, calls⟩
    rw [calls, (receives_same c result).responseLength, ← List.append_assoc,
      pendingLength_append_singleton]
    exact accounted.length

theorem accounted_processes {globals : Globals} {state : WorkerState} {ctx : ContextPointer}
    (accounted : Accounted globals (state.history ctx) (state.memory.contexts ctx)) (turn : Turn) :
    Accounted globals (state.callsThrough globals ctx turn)
      (state.processes globals ctx turn).2.ctx := by
  apply (accounted_preserved globals (state.history ctx)).handlesEvent
  change Accounted globals (state.history ctx ++ []) (state.memory.contexts ctx)
  rw [List.append_nil]
  exact accounted

theorem accounted_reachable {globals : Globals} {state : WorkerState}
    (reachable : (worker globals).Reachable WorkerState.zero state) {ctx : ContextPointer}
    (live : ctx ∈ state.live) :
      Accounted globals (state.history ctx) (state.memory.contexts ctx) := by
  have all : ForLive (fun _ context calls => Accounted globals calls context) state := by
    refine ForLive.reachable ?_ ?_ reachable
    · intro memory fd malloced
      refine ⟨johnnyAllocatesConnection_follows globals memory fd malloced, ?_⟩
      exact (johnnyAllocatesConnection_new memory fd malloced).responseLength
    · intro before ctx turn accounted
      exact accounted_processes accounted turn
  exact all ctx live

/-- All responses have been sent exactly when none was replaced and nothing is
left of the last one. -/
theorem Told.sentBytes_eq_iff {globals : Globals} {calls : List Call} (told : Told globals calls) :
    sentBytes calls = requestedResponses globals calls <->
      RequestsWhenSent calls ∧ cursorAfter globals calls = [] := by
  rw [told.sentBytes_eq, requestedResponses_eq, Transfer.sent_eq_messages_iff,
    ← Transfer.intact_iff, ← told.integrity_iff_intact, told.integrity_iff]
  rfl

theorem Call.endsStream_iff (call : Call) :
    call.endsStream = true <-> Exists fun space => call = .recv space (.received []) := by
  cases call with
  | request fileName unsent =>
      exact iff_of_false Bool.false_ne_true (fun ⟨_, equal⟩ => by cases equal)
  | send offered result => exact iff_of_false Bool.false_ne_true (fun ⟨_, equal⟩ => by cases equal)
  | recv space result =>
      cases result with
      | failed errno => exact iff_of_false Bool.false_ne_true (fun ⟨_, equal⟩ => by cases equal)
      | received bytes =>
          cases bytes with
          | nil => exact iff_of_true rfl ⟨space, rfl⟩
          | cons byte rest =>
              exact iff_of_false Bool.false_ne_true (fun ⟨_, equal⟩ => by cases equal)

/-- The end of the stream is read by the last call. -/
theorem StopsLast.endsStream {calls : List Call} (stops : StopsLast calls) {i : Nat}
    (inside : i < calls.length) (ends : calls[i].endsStream = true) :
    Exists fun space => calls = calls.take i ++ [.recv space (.received [])] := by
  rcases (Call.endsStream_iff _).mp ends with ⟨space, call⟩
  have stopped : calls[i].stops = true := by
    rw [call]
    rfl
  rcases stops with ordinary | ⟨before, last, rfl, ordinary⟩
  · rw [ordinary _ (List.getElem_mem inside)] at stopped
    cases stopped
  · have atEnd : i = before.length := by
      by_contra different
      have earlier : i < before.length := by
        rw [List.length_append, List.length_singleton] at inside
        omega
      rw [List.getElem_append_left earlier, ordinary _ (List.getElem_mem earlier)] at stopped
      cases stopped
    subst atEnd
    refine ⟨space, ?_⟩
    rw [List.getElem_concat_length rfl] at call
    rw [call, List.take_left' rfl]

theorem ReadsEnd.exists_index {calls : List Call} (ends : ReadsEnd calls) :
    Exists fun i => Exists fun inside : i < calls.length => calls[i].endsStream = true := by
  rcases ends with ⟨space, last⟩
  have member : (space, RecvResult.received []) ∈ calls.filterMap Call.received :=
    List.mem_of_getLast? last
  rcases List.mem_filterMap.mp member with ⟨call, inCalls, received⟩
  rcases List.getElem_of_mem inCalls with ⟨i, inside, same⟩
  refine ⟨i, inside, ?_⟩
  rw [same]
  cases call with
  | recv space result =>
      cases received
      rfl
  | send offered result => cases received
  | request fileName unsent => cases received

theorem readsEnd_concat (calls : List Call) (space : Int) :
    ReadsEnd (calls ++ [.recv space (.received [])]) :=
  ⟨space, lastRecv_append_recv calls space _⟩

/-! ## Over whole runs -/

section

variable {globals : Globals} {calls : List Call} {ctx : ConnectionContext} {space : Int}
  (accounted : Accounted globals (calls ++ [.recv space (.received [])]) ctx)

include accounted

/-- At the end of the stream the connection is settled exactly when its
responses have been delivered. -/
theorem Accounted.delivered_iff :
    Delivered globals (calls ++ [.recv space (.received [])]) ctx <-> Settled globals calls := by
  have failed : sendFailed (calls ++ [.recv space (.received [])]) = sendFailed calls := by
    rw [sendFailed_append]
    exact Bool.or_false _
  have length : getResponseLength ctx = pendingLength globals calls := by
    rw [accounted.length, pendingLength_append_singleton]
    rfl
  have sent := accounted.follows.told.sentBytes_eq_iff
  constructor
  · intro delivered
    cases unfailed : sendFailed calls with
    | true => exact Or.inl unfailed
    | false =>
        rw [← failed] at unfailed
        refine Or.inr ⟨?_, ?_⟩
        · by_contra pending
          have broken := delivered.sent (by omega)
          rw [unfailed] at broken
          cases broken
        · intro call member
          exact (sent.mp (delivered.whole unfailed)).1 call (List.mem_append_left _ member)
  · rintro (broken | ⟨nothing, requests⟩)
    · rw [← failed] at broken
      refine ⟨fun _ => broken, ?_⟩
      intro unfailed
      rw [broken] at unfailed
      cases unfailed
    · refine ⟨fun pending => by omega, fun _ => sent.mpr ⟨?_, ?_⟩⟩
      · intro call member
        rcases List.mem_append.mp member with earlier | last
        · exact requests call earlier
        · rw [List.mem_singleton.mp last]
          trivial
      · rw [← accounted.follows.unsent, length, nothing]
        rfl

end

theorem Accounted.endsStream {globals : Globals} {history calls : List Call}
    {ctx : ConnectionContext} (accounted : Accounted globals (history ++ calls) ctx)
    (stops : StopsLast calls) {i : Nat} (inside : i < calls.length)
    (ends : calls[i].endsStream = true) :
    ReadsEnd calls ∧
      (Delivered globals (history ++ calls) ctx <-> Settled globals (history ++ calls.take i)) := by
  rcases stops.endsStream inside ends with ⟨space, whole⟩
  generalize calls.take i = before at whole ⊢
  subst whole
  rw [← List.append_assoc] at accounted ⊢
  exact ⟨readsEnd_concat before space, accounted.delivered_iff⟩

theorem notCutOff_iff {globals : Globals} {state : WorkerState}
    (reachable : (worker globals).Reachable WorkerState.zero state) (step : WorkerStep)
    (enabled : step.Enabled state) : NotCutOff globals state step <->
      EndsWhenSettled globals state step := by
  cases step with
  | accept fd malloced added => rfl
  | turn ctx turn =>
      have accounted := accounted_processes (accounted_reachable reachable enabled) turn
      have stops := (lastCalls_processes reachable enabled turn).2
      have closes : (state.processes globals ctx turn).1 = .closed <->
          CallsForClosing (state.processes globals ctx turn).2.calls :=
        handlesEvent_closed_iff globals turn.events turn.recvs
          (rdhupClear_reachable reachable ctx enabled) rfl
      constructor
      · intro notCut i inside ends
        rcases accounted.endsStream stops inside ends with ⟨readsEnd, same⟩
        exact same.mp (notCut (closes.mpr (Or.inl readsEnd)))
      · intro always closed
        rcases closes.mp closed with readsEnd | failed
        · rcases readsEnd.exists_index with ⟨i, inside, ends⟩
          exact (accounted.endsStream stops inside ends).2.mpr (always i inside ends)
        · have broken : sendFailed (state.callsThrough globals ctx turn) = true := by
            unfold WorkerState.callsThrough
            rw [sendFailed_append, failed, Bool.or_true]
          refine ⟨fun _ => broken, ?_⟩
          intro unfailed
          rw [broken] at unfailed
          cases unfailed

theorem reachable_guarded (globals : Globals) :
    (worker globals).Guarded ((worker globals).Reachable WorkerState.zero) (EndsWhenSettled globals)
      (NotCutOff globals) where
  keeps := fun _state _step reachable enabled _ => reachable.step enabled
  exact := fun _state step reachable enabled => notCutOff_iff reachable step enabled

/-- Over every run of a worker, no response is cut off by a close exactly as
long as every peer ends its stream only when its connection is settled. -/
theorem notCutOff_iff_endsWhenSettled (globals : Globals) (steps : List WorkerStep)
    (run : (worker globals).Run WorkerState.zero steps) :
    (worker globals).Throughout (NotCutOff globals) WorkerState.zero steps <->
      (worker globals).Throughout (EndsWhenSettled globals) WorkerState.zero steps :=
  (reachable_guarded globals).throughout_iff ((worker globals).refl_reachable _) run

theorem notCutOff_resumedSteps :
    (worker indexOnly).Throughout (NotCutOff indexOnly) WorkerState.zero
      (resumedSteps ++ [.turn (.stack 0) ⟨epollin, [.received []], []⟩]) :=
  (notCutOff_iff_endsWhenSettled indexOnly _ (by decide)).mpr (by decide)

/-- The peer ends its stream behind the last request, and the socket takes only
a part of the response. -/
def halfClosedSteps : List WorkerStep :=
  [.accept 5 unusedMalloced true,
    .turn (.stack 0) ⟨epollin, [.received (ascii "GET /index.html HTTP/1.1\r\n\r\n")],
      [.accepted 20]⟩,
    .turn (.stack 0) ⟨epollin ||| epollrdhup, [.received []], []⟩]

theorem not_notCutOff_halfClosed :
    ¬ forall steps, (worker indexOnly).Run WorkerState.zero steps ->
      (worker indexOnly).Throughout (NotCutOff indexOnly) WorkerState.zero steps := by
  intro notCut
  have whole := notCut halfClosedSteps (by decide)
  have delivered := whole.2.2.1 (by decide)
  exact absurd (delivered.sent (by decide)) (by decide)

end Worker
end Johnny
