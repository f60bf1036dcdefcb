import Johnny.Worker.Buffers
import Johnny.Worker.OrderlyClose

namespace Johnny
namespace Worker

open Library

/-!
# Events that will follow

Connections are registered edge-triggered: the kernel reports bytes to read, or
room to write, only when there were none before.  So an event that leaves a
connection open must have read until `recv` fell short of the space it was
offered, and while a response is unfinished the last `send` must have fallen
short of it.  Otherwise nothing would wake the connection again.

The second half looks back over all earlier events.  Responses are sent on two
paths, and what an event leaves unsent may have been left by an event long ago.
-/

/-- `recv` filled less than the space it was offered. -/
def RecvResult.FallsShort (space : Int) : RecvResult -> Prop
  | .received bytes => (bytes.length : Int) < space
  | .failed _ => True

/-- `send` took less than it was offered. -/
def SendResult.FallsShort (offered : Nat) : SendResult -> Prop
  | .accepted count => count < offered
  | .failed errno => errno = eagain

def Call.isSend : Call -> Bool
  | .send _ _ => true
  | _ => false

/-- The last `recv` of an event found no more bytes than it could store. -/
def ReadsAll (calls : List Call) : Prop :=
  Exists fun space => Exists fun result => lastRecv calls = some (space, result) ∧
    result.FallsShort space

/-- The last `send` on a connection found no room for all it was offered, which
is the response length that was left before it. -/
def SendsUntilFull (globals : Globals) (calls : List Call) : Prop :=
  Exists fun before => Exists fun offered => Exists fun result => Exists fun later =>
    calls = before ++ .send offered result :: later ∧
      (forall call, call ∈ later -> call.isSend = false) ∧
      result.FallsShort (pendingLength globals before)

/-- What an event leaves behind on an open connection. -/
structure WakesAgain (globals : Globals) (state : WorkerState) (ctx : ContextPointer)
    (turn : Turn) : Prop where
  reads : turn.events &&& epollin ≠ 0 -> ReadsAll (state.processes globals ctx turn).2.calls
  writes : 0 < getResponseLength ((state.takesTurn globals ctx turn).memory.contexts ctx) ->
    SendsUntilFull globals (state.callsThrough globals ctx turn)

/-- What `recv` stored is the number of bytes it is recorded with, and lies
below the space unless it is the space. -/
theorem receives_fallsShort {c : Connection} {result : RecvResult}
    (some : (receives c result).ctx.bufferSize ≠ 0)
    (partly : recvMore c result = false) : ReadsAll (receives c result).calls := by
  have different := of_decide_eq_false partly
  cases result with
  | failed errno => exact ⟨_, .failed errno, lastRecv_append_recv _ _ _, trivial⟩
  | received bytes =>
      refine ⟨_, _, lastRecv_append_recv _ _ _, ?_⟩
      have taken := List.length_take_le ((johnnyBufferSize : Int) - c.ctx.bufferOffset).toNat bytes
      unfold receives at some different
      dsimp only at some different
      unfold RecvResult.FallsShort
      dsimp only
      omega

/-- A round that does not close the connection goes on exactly when the space
was filled, and makes no second `recv`. -/
theorem receivesOnce_kept {globals : Globals} {c after : Connection} {result : RecvResult}
    {round : Round} (once : receivesOnce globals c result = (round, after))
    (kept : round ≠ .closed) :
    (receives c result).ctx.bufferSize ≠ 0 ∧ lastRecv after.calls = lastRecv
    (receives c result).calls ∧
      (round = .more <-> recvMore c result = true) := by
  have handling := johnnyHandlesRequests_attempt globals (receives c result)
  unfold receivesOnce at once
  dsimp only at once
  by_cases none : (receives c result).ctx.bufferSize = 0
  · rw [if_pos none] at once
    exact absurd (Prod.mk.inj once).1.symm kept
  · rw [if_neg none] at once
    generalize johnnyHandlesRequests globals (receives c result) = handled at handling once
    rcases handled with ⟨exit, next⟩
    cases exit with
    | failure => exact absurd (Prod.mk.inj once).1.symm kept
    | success =>
        change (if recvMore c result = false ∧ next.ctx.flags &&& johnnyCtxRdhup ≠ 0 ∧
            getResponseLength next.ctx = 0 then (Round.closed, next)
          else if recvMore c result = true then (.more, next)
          else (.drained, next)) = (round, after) at once
        split_ifs at once with closes more
        · exact absurd (Prod.mk.inj once).1.symm kept
        · rcases Prod.mk.inj once with ⟨rfl, rfl⟩
          exact ⟨none, handling.recvs, iff_of_true rfl more⟩
        · rcases Prod.mk.inj once with ⟨rfl, rfl⟩
          exact ⟨none, handling.recvs, iff_of_false (by decide) more⟩

theorem receivesOnce_drained {globals : Globals} {c after : Connection} {result : RecvResult}
    (once : receivesOnce globals c result = (.drained, after)) : ReadsAll after.calls := by
  rcases receivesOnce_kept once (by decide) with ⟨some, recvs, more⟩
  have partly : recvMore c result = false := by
    apply Bool.eq_false_iff.mpr
    intro full
    cases more.mpr full
  rcases receives_fallsShort some partly with ⟨space, last, reads, short⟩
  exact ⟨space, last, recvs.trans reads, short⟩

/-- While a response is unfinished, the last `send` fell short of it. -/
def Unfinished (globals : Globals) (calls : List Call) : Prop :=
  0 < pendingLength globals calls -> SendsUntilFull globals calls

theorem Unfinished.recv {globals : Globals} {calls : List Call}
    (unfinished : Unfinished globals calls)
    (space : Int) (result : RecvResult) : Unfinished globals (calls ++ [.recv space result]) := by
  intro pending
  rw [pendingLength_append_singleton] at pending
  rcases unfinished pending with ⟨before, offered, sent, later, rfl, silent, short⟩
  refine ⟨before, offered, sent, later ++ [.recv space result], ?_, ?_, short⟩
  · rw [List.append_assoc, List.cons_append]
  · intro call member
    rcases List.mem_append.mp member with earlier | last
    · exact silent call earlier
    · rw [List.mem_singleton.mp last]
      rfl

/-- A `send` that did not fail for good settles the matter, whatever was sent
before. -/
theorem johnnySendsBytes_unfinished (globals : Globals) (earlier : List Call) {c after : Connection}
    (sent : johnnySendsBytes c = (.success, after)) :
      Unfinished globals (earlier ++ after.calls) := by
  intro pending
  unfold johnnySendsBytes at sent
  generalize c.sends.headD (.failed eagain) = result at sent
  cases result with
  | failed errno =>
      rcases Prod.mk.inj sent with ⟨exit, rfl⟩
      refine ⟨earlier ++ c.calls, _, .failed errno, [], (List.append_assoc _ _ _).symm, ?_, ?_⟩
      · intro call member
        cases member
      · by_contra other
        have failure : ¬ (errno = eagain ∨ errno = ewouldblock) := not_or.mpr ⟨other, other⟩
        rw [if_neg failure] at exit
        cases exit
  | accepted count =>
      rcases Prod.mk.inj sent with ⟨-, rfl⟩
      dsimp only at pending
      rw [← List.append_assoc, pendingLength_append_singleton] at pending
      refine ⟨earlier ++ c.calls, _, .accepted _, [], (List.append_assoc _ _ _).symm, ?_, ?_⟩
      · intro call member
        cases member
      · exact Nat.lt_of_sub_pos pending

/-- What holds in each phase of an event on a connection with earlier calls. -/
def outgoing (globals : Globals) (earlier : List Call) : Conditions where
  start := fun c => ParserIdle c ∧ Unfinished globals (earlier ++ c.calls)
  idle := fun _ c => ParserIdle c ∧ Unfinished globals (earlier ++ c.calls)
  busy := fun _ bytes c => ParserBusy bytes c ∧ Unfinished globals (earlier ++ c.calls)
  ended := fun _ => True

theorem receives_unfinished {globals : Globals} {earlier : List Call} {c : Connection}
    (unfinished : Unfinished globals (earlier ++ c.calls)) (result : RecvResult) :
    Unfinished globals (earlier ++ (receives c result).calls) := by
  rcases receives_calls c result with ⟨received, calls⟩
  rw [calls, ← List.append_assoc]
  exact unfinished.recv _ _

theorem outgoing_phases (globals : Globals) (earlier : List Call) :
    Phases globals (outgoing globals earlier) (fun _ _ => True) where
  reports := fun c events start => ⟨trivial, start.1.congr (reports_sameParser c events), start.2⟩
  starts := fun _ start => start
  resumes := fun _ _ => trivial
  resumed := by
    intro c after start sent
    have same := johnnySendsBytes_sameParser c
    rw [sent] at same
    exact ⟨start.1.congr same, johnnySendsBytes_unfinished globals earlier sent⟩
  unresumed := fun _ _ _ _ => trivial
  leftover := by
    rintro c ⟨⟨control, ready⟩, -⟩ left
    exact absurd ready.bufferSize left
  receives := fun _ _ _ _ => trivial
  closes := fun _ _ _ _ _ => trivial
  received := by
    intro c result idle _ some
    rcases idle.1.busy result some with ⟨bytes, small, busy⟩
    exact ⟨bytes, small, busy, receives_unfinished idle.2 result⟩
  finds := fun _ _ _ _ => trivial
  ends := by
    intro c more bytes after busy ends
    refine ⟨busy.1.ends ends, ?_⟩
    rw [johnnyFindsFilename_calls ends]
    exact busy.2
  selects := fun _ _ _ _ _ _ _ => trivial
  sends := fun _ _ _ _ _ _ _ => trivial
  sent := by
    intro c more bytes position after sent busy found success
    rcases busy.1.responds found success with ⟨offset, size, nonempty, fewer, ready⟩
    exact ⟨size - offset, fewer, .received ready nonempty,
      johnnySendsBytes_unfinished globals earlier success⟩
  unsent := fun _ _ _ _ _ _ _ _ _ => trivial

/-- A receiving loop that leaves the connection open has read all there was.
The induction is on the results of `recv`; behind them the socket blocks. -/
theorem receiveLoop_readsAll {globals : Globals} {earlier : List Call} (recvs : List RecvResult)
    {c : Connection} (idle : (outgoing globals earlier).idle true c)
    (kept : (receiveLoop globals recvs c).1 = .kept) :
    ReadsAll (receiveLoop globals recvs c).2.calls := by
  induction recvs generalizing c with
  | nil =>
      rw [receiveLoop] at kept ⊢
      rcases once : receivesOnce globals c (.failed eagain) with ⟨round, after⟩
      rw [once] at kept
      cases round with
      | closed => cases kept
      | drained => exact receivesOnce_drained once
      | more =>
          have full := (receivesOnce_kept once (by decide)).2.2.mp rfl
          rw [idle.1.recvMore_failed] at full
          cases full
  | cons result rest ih =>
      have rounded := ((outgoing_phases globals earlier).receivesOnce result idle idle.1.empty).2
      rw [receiveLoop] at kept ⊢
      rcases once : receivesOnce globals c result with ⟨round, after⟩
      rw [once] at kept rounded
      cases round with
      | closed => cases kept
      | drained => exact receivesOnce_drained once
      | more => exact ih rounded.1 kept

/-- What an event that leaves its connection open does. -/
theorem handlesEvent_wakes {globals : Globals} {earlier : List Call} {c : Connection}
    (start : (outgoing globals earlier).start c) {events : BitVec 32} {recvs : List RecvResult}
    (kept : (handlesEvent globals events recvs c).1 = .kept) :
    (events &&& epollin ≠ 0 -> ReadsAll (handlesEvent globals events recvs c).2.calls) ∧
      Unfinished globals (earlier ++ (handlesEvent globals events recvs c).2.calls) := by
  constructor
  · intro input
    have phases := outgoing_phases globals earlier
    have reported : (outgoing globals earlier).start (c.reports events) :=
      (phases.reports c events start).2
    unfold handlesEvent at kept ⊢
    rcases resumed : resumesSending events (c.reports events) with ⟨exit, next⟩
    rw [resumed] at kept
    cases exit with
    | failure => cases kept
    | success =>
        have idle : (outgoing globals earlier).idle true next := by
          unfold resumesSending at resumed
          split_ifs at resumed
          · exact phases.resumed _ next reported resumed
          · cases resumed
            exact reported
        dsimp only at kept ⊢
        unfold handlesInput at kept ⊢
        rw [if_pos ⟨input, idle.1.empty⟩] at kept ⊢
        exact receiveLoop_readsAll recvs idle kept
  · have finished := ((outgoing_phases globals earlier).handlesEvent events recvs start).2
    generalize handlesEvent globals events recvs c = processed at kept finished ⊢
    rcases processed with ⟨verdict, after⟩
    rw [show verdict = .kept from kept] at finished
    rcases finished with ⟨-, -, unfinished⟩
    exact unfinished

/-! ## Over whole runs -/

/-- What holds of a worker whose allocations hand out contexts not in use. -/
structure Wakeable (globals : Globals) (state : WorkerState) : Prop where
  once : state.live.Nodup
  idle : IdleWorker state
  unfinished : ForLive (fun _ _ calls => Unfinished globals calls) state

section

variable {globals : Globals} {state : WorkerState} (wakeable : Wakeable globals state)
  {ctx : ContextPointer}
  (live : ctx ∈ state.live) (turn : Turn)

include wakeable

/-- A connection is open after a turn only if the turn did not close it. -/
theorem Wakeable.kept_of_live (stays : ctx ∈ (state.takesTurn globals ctx turn).live) :
    (state.processes globals ctx turn).1 = .kept := by
  cases verdict : (state.processes globals ctx turn).1 with
  | kept => rfl
  | closed =>
      unfold WorkerState.takesTurn at stays
      dsimp only at stays
      rw [verdict] at stays
      exact absurd stays wakeable.once.not_mem_erase

include live

theorem Wakeable.processes (kept : (state.processes globals ctx turn).1 = .kept) :
    (turn.events &&& epollin ≠ 0 -> ReadsAll (state.processes globals ctx turn).2.calls) ∧
      Unfinished globals (state.callsThrough globals ctx turn) := by
  apply handlesEvent_wakes _ kept
  refine ⟨(wakeable.idle ctx live).parserIdle, ?_⟩
  change Unfinished globals (state.history ctx ++ [])
  rw [List.append_nil]
  exact wakeable.unfinished ctx live

theorem Wakeable.takesTurn : Wakeable globals (state.takesTurn globals ctx turn) where
  once := by
    unfold WorkerState.takesTurn
    dsimp only
    cases (state.processes globals ctx turn).1 with
    | closed => exact wakeable.once.erase ctx
    | kept => exact wakeable.once
  idle := by
    apply (wakeable.idle.takesTurn_iff globals live turn).mpr
    intro _ _
    exact wakeable.once.not_mem_erase
  unfinished := by
    apply (ForLive.takesTurn_iff globals wakeable.unfinished ctx turn).mpr
    intro stays
    exact (wakeable.processes live turn (wakeable.kept_of_live turn stays)).2

end

theorem Wakeable.accepts {globals : Globals} {state : WorkerState}
    (wakeable : Wakeable globals state) (fd : Int) (malloced : Malloced) (added : Bool)
    (unused : AllocatesUnused state (.accept fd malloced added)) :
    Wakeable globals (state.accepts fd malloced added) where
  once := by
    unfold WorkerState.accepts
    by_cases made : fd ≠ -1
    · rw [if_pos made]
      exact wakeable.once.cons (unused made)
    · rw [if_neg made]
      exact wakeable.once
  idle := ForLive.accepts wakeable.idle added (johnnyAllocatesConnection_idle _ _ _)
  unfinished := ForLive.accepts wakeable.unfinished added (fun pending =>
    absurd pending (Nat.lt_irrefl 0))

theorem wakeable_reachable {globals : Globals} {state : WorkerState}
    (reachable : ((worker globals).restrict AllocatesUnused).Reachable WorkerState.zero state) :
    Wakeable globals state := by
  refine Machine.invariant_reachable _ ?_ ⟨List.nodup_nil, ForLive.zero, ForLive.zero⟩ reachable
  rintro before step wakeable ⟨enabled, unused⟩
  cases step with
  | accept fd malloced added => exact wakeable.accepts fd malloced added unused
  | turn ctx turn => exact wakeable.takesTurn enabled turn

/-- Provided that allocations hand out contexts not in use, in every reachable
worker an event that leaves its connection open has read all there was if it
reported EPOLLIN, and if a response is unfinished then the last `send` on the
connection found no room for the rest of it. -/
theorem open_connection_wakesAgain (globals : Globals) (state : WorkerState)
    (reachable : ((worker globals).restrict AllocatesUnused).Reachable WorkerState.zero state)
    (ctx : ContextPointer) (turn : Turn) (stays : ctx ∈ (state.takesTurn globals ctx turn).live) :
    WakesAgain globals state ctx turn := by
  have wakeable := wakeable_reachable reachable
  have live := state.takesTurn_live_subset globals ctx turn stays
  rcases wakeable.processes live turn (wakeable.kept_of_live turn stays) with ⟨reads, unfinished⟩
  refine ⟨reads, ?_⟩
  rw [WorkerState.takesTurn_contexts, Function.update_self]
  intro pending
  rcases reachable with ⟨steps, run, rfl⟩
  have plain : (worker globals).Reachable WorkerState.zero
    (((worker globals).restrict AllocatesUnused).after
      WorkerState.zero steps) :=
    ⟨steps, (((worker globals).restrict_run AllocatesUnused _ _).mp run).1, rfl⟩
  apply unfinished
  rw [← (accounted_processes (accounted_reachable plain live) turn).length]
  exact pending

/-- A response that was left unfinished, and an event that sends some more of
it and finds nothing to read. -/
theorem open_connection_wakesAgain_partlySent :
    WakesAgain indexOnly partlySent (.stack 0) ⟨epollin ||| epollout, [], [.accepted 5]⟩ :=
  open_connection_wakesAgain indexOnly partlySent
    ⟨resumedSteps.take 2, ((worker indexOnly).restrict_run AllocatesUnused _ _).mpr ⟨by decide,
      by decide⟩, rfl⟩
    (.stack 0) _ (by decide)

end Worker
end Johnny
