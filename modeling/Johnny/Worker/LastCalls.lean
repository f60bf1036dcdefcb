import Johnny.Worker.HalfClose
import Johnny.Worker.Phases

namespace Johnny
namespace Worker

open Library

/-!
# The last call of an event

Three results of a call end an event: `recv` reports the end of the stream,
`recv` fails, or `send` fails for good.  After the first and the last the
connection is closed.  A failed `recv` stores `-1` as the number of bytes
received; the parser finds nothing in them, and the event ends without a look
at `errno`.
-/

/-- An error after which the call may be made again. -/
def Transient (errno : Nat) : Prop :=
  errno = eagain ∨ errno = ewouldblock

instance (errno : Nat) : Decidable (Transient errno) :=
  inferInstanceAs (Decidable (errno = eagain ∨ errno = ewouldblock))

/-- The results that end an event. -/
def Call.stops : Call -> Bool
  | .recv _ (.received bytes) => decide (bytes = [])
  | .recv _ (.failed _) => true
  | .send _ (.failed errno) => !decide (Transient errno)
  | _ => false

def Ordinary (calls : List Call) : Prop :=
  forall call, call ∈ calls -> call.stops = false

/-- Only the last call stopped the event, if any did. -/
def StopsLast (calls : List Call) : Prop :=
  Ordinary calls ∨ Exists fun before => Exists fun last => calls = before ++ [last] ∧
    Ordinary before

/-- The parser's fields are in range, whatever is left in the buffer. -/
def ParserSound (c : Connection) : Prop :=
  Exists fun control => Exists fun offset => Exists fun size => ParserReady c control offset size

/-- The fields that a call that may be made again leaves alone. -/
structure SameFields (before after : ConnectionContext) : Prop where
  prefixCounter : after.prefixCounter = before.prefixCounter
  response : after.response = before.response
  responseLength : getResponseLength after = getResponseLength before

/-- A call that fails with a transient error leaves the fields as they were, and
so does the parser, which is called after a `recv`. -/
def KeepsFields (globals : Globals) (c : Connection) (operation : Operation) : Prop :=
  match operation with
  | .sendsBytes => forall errno, c.sends.headD (.failed eagain) = .failed errno ->
      Transient errno ->
      SameFields c.ctx (johnnySendsBytes c).2.ctx
  | .receives (.failed errno) => Transient errno ->
      SameFields c.ctx (receives c (.failed errno)).ctx ∧
        SameFields c.ctx (johnnyFindsFilename (receives c (.failed errno))).2.ctx ∧
        (johnnyHandlesRequests globals (receives c (.failed errno))).2 =
          (johnnyFindsFilename (receives c (.failed errno))).2
  | _ => True

theorem Ordinary.nil : Ordinary [] := by
  intro call member
  cases member

theorem Ordinary.concat {calls : List Call} (ordinary : Ordinary calls) {call : Call}
    (going : call.stops = false) : Ordinary (calls ++ [call]) := by
  intro other member
  rcases List.mem_append.mp member with earlier | last
  · exact ordinary other earlier
  · rw [List.mem_singleton.mp last]
    exact going

theorem johnnySendsBytes_stops (c : Connection) :
    Exists fun call => (johnnySendsBytes c).2.calls = c.calls ++ [call] ∧
      ((johnnySendsBytes c).1 = .success -> call.stops = false) := by
  unfold johnnySendsBytes
  cases c.sends.headD (.failed eagain) with
  | accepted count => exact ⟨_, rfl, fun _ => rfl⟩
  | failed errno =>
      refine ⟨_, rfl, ?_⟩
      dsimp only
      by_cases again : errno = eagain ∨ errno = ewouldblock
      · intro _
        exact congrArg not (decide_eq_true again)
      · rw [if_neg again]
        intro success
        cases success

theorem selectsResponse_ordinary (globals : Globals) {c : Connection} (ordinary : Ordinary c.calls)
    (fileName : Bytes) : Ordinary (c.selectsResponse globals fileName).calls :=
  ordinary.concat rfl

theorem keepsFields_sendsBytes (globals : Globals) (c : Connection) :
    KeepsFields globals c .sendsBytes := by
  intro errno fails _
  unfold johnnySendsBytes
  rw [fails]
  exact ⟨rfl, rfl, rfl⟩

theorem keepsFields_receives (globals : Globals) {c : Connection} (idle : ParserIdle c)
    (result : RecvResult) : KeepsFields globals c (.receives result) := by
  rcases idle with ⟨control, ready⟩
  cases result with
  | received bytes => trivial
  | failed errno =>
      intro _
      have nothing := @johnnyFindsFilename_failed c (receives c (.failed errno)) control ready rfl
      refine ⟨⟨rfl, rfl, rfl⟩, ?_, ?_⟩
      · rw [nothing]
        exact ⟨rfl, rfl, rfl⟩
      · unfold johnnyHandlesRequests
        rw [handlesRequestsLoop, nothing]

/-- Sound and with an empty buffer is idle. -/
theorem ParserSound.idle {c : Connection} (sound : ParserSound c) (empty : c.ctx.bufferSize = 0) :
    ParserIdle c := by
  rcases sound with ⟨control, offset, size, ready⟩
  have none : size = 0 := by
    rw [ready.bufferSize] at empty
    omega
  have start : offset = 0 := by
    have inside := ready.offset_le
    omega
  subst none start
  exact ⟨control, ready⟩

theorem ParserIdle.sound {c : Connection} (idle : ParserIdle c) : ParserSound c := by
  rcases idle with ⟨control, ready⟩
  exact ⟨control, 0, 0, ready⟩

theorem ParserSound.congr {before after : Connection} (sound : ParserSound before)
    (same : SameParser before after) : ParserSound after := by
  rcases sound with ⟨control, offset, size, ready⟩
  exact ⟨control, offset, size, ready.congr same⟩

/-- What a busy connection has received: bytes, or the `-1`. -/
inductive BusyCalls : Bool -> Nat -> Connection -> Prop
  | ordinary {c : Connection} (more : Bool) (bytes : Nat) (busy : ParserBusy bytes c)
      (ordinary : Ordinary c.calls) :
      BusyCalls more bytes c
  | failed {c next : Connection} {control : Nat} (ready : ParserReady c control 0 0)
      (same : next.ctx = { c.ctx with bufferSize := -1 }) (stops : StopsLast next.calls) :
        BusyCalls false 0 next

def lastCalls : Conditions where
  start := fun c => ParserSound c ∧ c.calls = []
  idle := fun more c => ParserSound c ∧ if more then Ordinary c.calls else StopsLast c.calls
  busy := BusyCalls
  ended := fun c => ParserSound c ∧ StopsLast c.calls

/-- Resuming makes one call, which stops the event only if sending fails. -/
theorem resumes_lastCalls {c : Connection} (sound : ParserSound c) (calls : c.calls = []) :
    ParserSound (johnnySendsBytes c).2 ∧ StopsLast (johnnySendsBytes c).2.calls ∧
      ((johnnySendsBytes c).1 = .success -> Ordinary (johnnySendsBytes c).2.calls) := by
  rcases johnnySendsBytes_stops c with ⟨call, appended, going⟩
  rw [calls] at appended
  refine ⟨sound.congr (johnnySendsBytes_sameParser c), Or.inr ⟨[], call, appended, Ordinary.nil⟩,
    ?_⟩
  intro success
  rw [appended]
  exact Ordinary.nil.concat (going success)

/-- A busy connection that finds a file name makes one call more, which stops
the event only if sending fails, and has fewer bytes left. -/
theorem BusyCalls.responds {globals : Globals} {more : Bool} {bytes : Nat} {position : Int}
    {c after : Connection} (busy : BusyCalls more bytes c)
    (found : johnnyFindsFilename c = (some position, after))
    {exit : Exit} {sent : Connection}
    (sends : johnnySendsResponse globals after (after.fileNameAt position) =
      (exit, sent)) :
    Exists fun offset => Exists fun size => 0 < size ∧ size - offset < bytes ∧
      ParserReady sent 0 offset size ∧
      StopsLast sent.calls ∧ (exit = .success -> Ordinary sent.calls) := by
  cases busy with
  | failed ready same =>
      rw [johnnyFindsFilename_failed ready same] at found
      cases found
  | ordinary _ _ parser ordinary =>
      rcases parser.responds found sends with ⟨offset, size, nonempty, fewer, ready⟩
      rcases johnnySendsBytes_stops (after.selectsResponse globals (after.fileNameAt position)) with
        ⟨call, appended, going⟩
      have unsent : Ordinary after.calls := by
        rw [johnnyFindsFilename_calls found]
        exact ordinary
      have requested := selectsResponse_ordinary globals unsent (after.fileNameAt position)
      unfold johnnySendsResponse at sends
      rw [sends] at appended going
      refine ⟨offset, size, nonempty, fewer, ready, Or.inr ⟨_, call, appended, requested⟩, ?_⟩
      intro success
      rw [show sent.calls = _ from appended]
      exact requested.concat (going success)

theorem lastCalls_phases (globals : Globals) : Phases globals lastCalls (KeepsFields globals) where
  reports := fun c events start => ⟨trivial, start.1.congr (reports_sameParser c events), start.2⟩
  starts := by
    rintro c ⟨sound, calls⟩
    refine ⟨sound, ?_⟩
    rw [if_pos rfl, calls]
    exact Ordinary.nil
  resumes := fun c _ => keepsFields_sendsBytes globals c
  resumed := by
    rintro c after ⟨sound, calls⟩ sent
    have resumes := resumes_lastCalls sound calls
    rw [sent] at resumes
    refine ⟨resumes.1, ?_⟩
    rw [if_pos rfl]
    exact resumes.2.2 rfl
  unresumed := by
    rintro c after ⟨sound, calls⟩ sent
    have resumes := resumes_lastCalls sound calls
    rw [sent] at resumes
    exact ⟨resumes.1, resumes.2.1⟩
  leftover := by
    rintro c ⟨⟨control, offset, size, ready⟩, ordinary⟩ left
    have whole := ready.size_le
    rw [ready.bufferSize] at left
    exact ⟨size - offset, by omega, .ordinary _ _ (.received ready (by omega)) ordinary⟩
  receives := fun c result idle empty => keepsFields_receives globals (idle.1.idle empty) result
  closes := by
    rintro c result ⟨sound, ordinary⟩ empty none
    rcases receives_calls c result with ⟨received, calls⟩
    exact ⟨((sound.idle empty).closes result none).sound, Or.inr ⟨_, _, calls, ordinary⟩⟩
  received := by
    rintro c result ⟨sound, ordinary⟩ empty some
    have idle := sound.idle empty
    cases result with
    | failed errno =>
        rw [idle.recvMore_failed]
        rcases idle with ⟨control, ready⟩
        exact ⟨0, Nat.zero_le _, .failed ready rfl (Or.inr ⟨_, _, rfl, ordinary⟩)⟩
    | received bytes =>
        rcases idle.busy _ some with ⟨left, small, busy⟩
        refine ⟨left, small, .ordinary _ _ busy (ordinary.concat ?_)⟩
        have nonempty : bytes.take ((johnnyBufferSize : Int) - c.ctx.bufferOffset).toNat ≠ [] := by
          intro nil
          apply some
          unfold receives
          dsimp only
          rw [nil]
          rfl
        exact decide_eq_false nonempty
  finds := fun c _ _ _ => trivial
  ends := by
    intro c more bytes after busy ends
    have calls := johnnyFindsFilename_calls ends
    cases busy with
    | ordinary _ _ parser ordinary =>
        refine ⟨(parser.ends ends).sound, ?_⟩
        rw [calls]
        cases more with
        | true => exact ordinary
        | false => exact Or.inl ordinary
    | failed ready same stops =>
        refine ⟨((ParserBusy.failed ready same).ends ends).sound, ?_⟩
        rw [calls]
        exact stops
  selects := fun c _ _ _ after _ _ => trivial
  sends := fun c _ _ _ after _ _ => keepsFields_sendsBytes globals _
  sent := by
    intro c more bytes position after sent busy found success
    rcases busy.responds found success with ⟨offset, size, nonempty, fewer, ready, -, ordinary⟩
    exact ⟨size - offset, fewer, .ordinary _ _ (.received ready nonempty) (ordinary rfl)⟩
  unsent := by
    intro c more bytes position after sent busy found failure
    rcases busy.responds found failure with ⟨offset, size, -, -, ready, stops, -⟩
    exact ⟨⟨0, offset, size, ready⟩, stops⟩

/-! ## Hard failures -/

/-- A call that failed with an error that is not transient. -/
def Call.failedHard : Call -> Bool
  | .recv _ (.failed errno) => !decide (Transient errno)
  | .send _ (.failed errno) => !decide (Transient errno)
  | _ => false

/-- No `recv` failed with an error that is not transient. -/
def RecvsTransient (calls : List Call) : Prop :=
  forall space errno, .recv space (.failed errno) ∈ calls -> Transient errno

def Call.recvTransient : Call -> Bool
  | .recv _ (.failed errno) => decide (Transient errno)
  | _ => true

theorem recvsTransient_iff (calls : List Call) :
    RecvsTransient calls <-> calls.all Call.recvTransient = true := by
  rw [List.all_eq_true]
  constructor
  · intro transient call member
    cases call with
    | request fileName unsent => rfl
    | send offered result => rfl
    | recv space result =>
        cases result with
        | received bytes => rfl
        | failed errno => exact decide_eq_true (transient space errno member)
  · intro transient space errno member
    exact of_decide_eq_true (transient _ member)

instance (calls : List Call) : Decidable (RecvsTransient calls) :=
  decidable_of_iff _ (recvsTransient_iff calls).symm

theorem Call.failedHard_recv {space : Int} {errno : Nat} :
    Call.failedHard (.recv space (.failed errno)) = true <-> ¬ Transient errno := by
  change (!decide (Transient errno)) = true <-> _
  rw [Bool.not_eq_true', decide_eq_false_iff_not]

/-- A transient error changes nothing, and after any other the connection is
closed and its context released when the event has been processed. -/
structure ErrorsToldApart (globals : Globals) (state : WorkerState) (ctx : ContextPointer)
    (turn : Turn) : Prop where
  transient : (operating globals).Throughout (KeepsFields globals) (state.connection ctx turn)
    (handlesEventOperations globals turn.events turn.recvs (state.connection ctx turn))
  hard : forall call, call ∈ (state.processes globals ctx turn).2.calls -> call.failedHard = true ->
    Reclaimed state ctx (state.takesTurn globals ctx turn)

/-- A `recv` that failed was the last call, so nothing calls for closing. -/
theorem StopsLast.not_callsForClosing {calls : List Call} (stops : StopsLast calls) {space : Int}
    {errno : Nat} (member : .recv space (.failed errno) ∈ calls) : ¬ CallsForClosing calls := by
  rcases stops with ordinary | ⟨before, last, rfl, ordinary⟩
  · exact absurd (ordinary _ member) (by decide : ¬ true = false)
  · rcases List.mem_append.mp member with earlier | atEnd
    · exact absurd (ordinary _ earlier) (by decide : ¬ true = false)
    · rw [← List.mem_singleton.mp atEnd]
      rintro (⟨otherSpace, ends⟩ | failed)
      · rw [lastRecv_append_recv] at ends
        cases ends
      · rw [sendFailed_append, Bool.or_eq_true] at failed
        rcases failed with earlier | atEnd
        · rcases List.any_eq_true.mp earlier with ⟨call, member, failed⟩
          have going := ordinary call member
          cases call with
          | send offered result =>
              cases result with
              | accepted count => cases failed
              | failed errno =>
                  have stopped : Call.stops (.send offered (.failed errno)) = true := failed
                  rw [stopped] at going
                  cases going
          | recv space result => cases failed
          | request fileName unsent => cases failed
        · cases atEnd

/-- The parser of every live connection is in range between two events. -/
theorem parserSound_reachable {globals : Globals} {state : WorkerState}
    (reachable : (worker globals).Reachable WorkerState.zero state) {ctx : ContextPointer}
    (live : ctx ∈ state.live) (turn : Turn) : ParserSound (state.connection ctx turn) := by
  have sound : ForLive (fun _ context _ => forall c : Connection, c.ctx = context ->
      ParserSound c) state := by
    refine ForLive.reachable ?_ ?_ reachable
    · intro memory fd malloced c same
      have new := johnnyAllocatesConnection_new memory fd malloced
      rw [← same] at new
      exact ⟨4, 0, 0, new.prefixCounter, new.bufferOffset, new.bufferSize, by decide, Nat.le_refl 0,
        Nat.zero_le _, new.fits⟩
    · intro before ctx turn sound c same
      have start : lastCalls.start (before.connection ctx turn) := ⟨sound _ rfl, rfl⟩
      have finished := ((lastCalls_phases globals).handlesEvent turn.events turn.recvs start).2
      have after : ParserSound (before.processes globals ctx turn).2 := by
        unfold WorkerState.processes
        generalize handlesEvent globals turn.events turn.recvs (before.connection ctx turn) =
          processed at finished ⊢
        rcases processed with ⟨verdict, after⟩
        cases verdict with
        | kept => exact finished.choose_spec.1
        | closed => exact finished.elim (fun stays => stays.1) (fun ended => ended.1)
      have fields : SameParser (before.processes globals ctx turn).2 c := by
        refine ⟨?_, ?_, ?_, ?_, ?_⟩
        all_goals rw [same]
        exact id
      exact after.congr fields
  exact sound ctx live (state.connection ctx turn) rfl

theorem lastCalls_processes {globals : Globals} {state : WorkerState}
    (reachable : (worker globals).Reachable WorkerState.zero state) {ctx : ContextPointer}
    (live : ctx ∈ state.live) (turn : Turn) :
    (operating globals).Throughout (KeepsFields globals) (state.connection ctx turn)
        (handlesEventOperations globals turn.events turn.recvs (state.connection ctx turn)) ∧
      StopsLast (state.processes globals ctx turn).2.calls := by
  have start : lastCalls.start (state.connection ctx turn) :=
    ⟨parserSound_reachable reachable live turn, rfl⟩
  rcases (lastCalls_phases globals).handlesEvent turn.events turn.recvs start
    with ⟨throughout, finished⟩
  refine ⟨throughout, ?_⟩
  unfold WorkerState.processes
  generalize handlesEvent globals turn.events turn.recvs (state.connection ctx turn) = processed
    at finished ⊢
  rcases processed with ⟨verdict, after⟩
  cases verdict with
  | kept =>
      rcases finished with ⟨more, sound, calls⟩
      cases more with
      | true => exact Or.inl calls
      | false => exact calls
  | closed => exact finished.elim (fun stays => stays.2) (fun ended => ended.2)

/-- In every reachable worker an event tells transient and hard errors apart
exactly when no `recv` fails with a hard error. -/
theorem errorsToldApart_iff (globals : Globals) (state : WorkerState)
    (reachable : (worker globals).Reachable WorkerState.zero state) (ctx : ContextPointer)
    (live : ctx ∈ state.live) (turn : Turn) :
    ErrorsToldApart globals state ctx turn <->
      RecvsTransient (state.processes globals ctx turn).2.calls := by
  rcases lastCalls_processes reachable live turn with ⟨keeps, stops⟩
  have closes : (state.processes globals ctx turn).1 = .closed <->
      CallsForClosing (state.processes globals ctx turn).2.calls :=
    handlesEvent_closed_iff globals turn.events turn.recvs
      (rdhupClear_reachable reachable ctx live) rfl
  have reclaims : Reclaimed state ctx (state.takesTurn globals ctx turn) <->
      (state.processes globals ctx turn).1 = .closed :=
    WorkerState.takesTurn_reclaimed_iff live turn
  constructor
  · intro apart space errno member
    by_contra hard
    have closed := reclaims.mp (apart.hard _ member (Call.failedHard_recv.mpr hard))
    exact stops.not_callsForClosing member (closes.mp closed)
  · intro transient
    refine ⟨keeps, ?_⟩
    intro call member failed
    apply reclaims.mpr
    apply closes.mpr
    cases call with
    | request fileName unsent => cases failed
    | recv space result =>
        cases result with
        | received bytes => cases failed
        | failed errno =>
            exact absurd (transient space errno member) (Call.failedHard_recv.mp failed)
    | send offered result =>
        cases result with
        | accepted count => cases failed
        | failed errno => exact Or.inr (List.any_eq_true.mpr ⟨_, member, failed⟩)

/-- The peer stops reading, and the first `send` fails for good. -/
theorem errorsToldApart_brokenPipe :
    ErrorsToldApart indexOnly oneConnection (.stack 0)
      ⟨epollin, [.received (ascii "GET /index.html HTTP/1.1\r\n\r\n")], [.failed 32]⟩ := by
  rw [errorsToldApart_iff indexOnly oneConnection oneConnection_reachable (.stack 0) (by decide)]
  decide

/-- The peer resets the connection, and `recv` fails with `ECONNRESET`. -/
theorem not_errorsToldApart_connectionReset :
    ¬ forall state ctx turn, (worker indexOnly).Reachable WorkerState.zero state ->
      ctx ∈ state.live ->
      ErrorsToldApart indexOnly state ctx turn := by
  intro always
  have apart := always oneConnection (.stack 0) ⟨epollin, [.failed 104], []⟩ oneConnection_reachable
    (by decide)
  have reclaimed := apart.hard (.recv 1024 (.failed 104)) (by decide) rfl
  exact absurd reclaimed.live (by decide)

end Worker
end Johnny
