import Johnny.Worker.Layouts
import Johnny.Worker.RequestStream
import Johnny.Worker.Wakeups

namespace Johnny
namespace Worker

open Library

/-!
# What a connection receives and asks for

Here the parser meets the calls of a worker.  The chunks are those that `recv`
returned on a connection, in however many events, with other connections served
in between and responses sent while a chunk is only partly parsed.  Whatever the
order of the events, the names that responses are chosen for are the names that
the tokenizer finds in the chunks; a `send` that fails for good leaves the rest
of the last chunk unread.
-/

def Call.chunk : Call -> Option Bytes
  | .recv _ (.received bytes) => some bytes
  | _ => none

def Call.name : Call -> Option Bytes
  | .request fileName _ => some fileName
  | _ => none

/-- What the calls of `recv` returned. -/
def receivedChunks (calls : List Call) : List Bytes :=
  calls.filterMap Call.chunk

/-- The file names that responses were chosen for. -/
def requestedNames (calls : List Call) : List Bytes :=
  calls.filterMap Call.name

/-- The tokenizer's reading of all chunks. -/
def heard (calls : List Call) : Scan Nat UInt8 :=
  requestTokenizer.runChunks (Scan.start 4) (receivedChunks calls)

/-- The file names in the chunks. -/
def heardNames (calls : List Call) : List Bytes :=
  (heard calls).tokens.map cName

/-- All chunks have been read, but for the end of the last one, which is to be
read from a control state. -/
structure Heard (calls : List Call) (control : Nat) (rest : Bytes) : Prop where
  state : (heard calls).control = (requestTokenizer.run (Scan.start control) rest).control
  names : heardNames calls =
    requestedNames calls ++ (requestTokenizer.run (Scan.start control) rest).tokens.map cName

@[simp] theorem receivedChunks_concat (calls : List Call) (call : Call) :
    receivedChunks (calls ++ [call]) = receivedChunks calls ++ call.chunk.toList := by
  unfold receivedChunks
  rw [List.filterMap_append]
  cases chunk : call.chunk <;> simp [chunk]

@[simp] theorem requestedNames_concat (calls : List Call) (call : Call) :
    requestedNames (calls ++ [call]) = requestedNames calls ++ call.name.toList := by
  unfold requestedNames
  rw [List.filterMap_append]
  cases name : call.name <;> simp [name]

namespace Heard

variable {calls : List Call} {control : Nat}

theorem nil : Heard [] 4 [] :=
  ⟨rfl, rfl⟩

theorem names_prefix {rest : Bytes} (all : Heard calls control rest) :
    requestedNames calls <+: heardNames calls := by
  rw [all.names]
  exact List.prefix_append _ _

theorem names_eq (all : Heard calls control []) : requestedNames calls = heardNames calls := by
  rw [all.names]
  exact (List.append_nil _).symm

/-- A call that neither receives bytes nor chooses a response. -/
theorem other {rest : Bytes} (all : Heard calls control rest) {call : Call}
    (noChunk : call.chunk = none)
    (noName : call.name = none) : Heard (calls ++ [call]) control rest := by
  have chunks : receivedChunks (calls ++ [call]) = receivedChunks calls := by
    rw [receivedChunks_concat, noChunk]
    exact List.append_nil _
  have names : requestedNames (calls ++ [call]) = requestedNames calls := by
    rw [requestedNames_concat, noName]
    exact List.append_nil _
  have same : heard (calls ++ [call]) = heard calls :=
    congrArg (requestTokenizer.runChunks (Scan.start 4)) chunks
  refine ⟨?_, ?_⟩
  · rw [same]
    exact all.state
  · rw [heardNames, same, names]
    exact all.names

/-- A chunk is received when all others have been read. -/
theorem receives (all : Heard calls control []) (space : Int) (bytes : Bytes) :
    Heard (calls ++ [.recv space (.received bytes)]) control bytes := by
  have chunks : receivedChunks (calls ++ [.recv space (.received bytes)]) = receivedChunks calls ++
      [bytes] :=
    receivedChunks_concat _ _
  have names : requestedNames (calls ++ [.recv space (.received bytes)]) =
      requestedNames calls := by
    rw [requestedNames_concat]
    exact List.append_nil _
  have next : heard (calls ++ [.recv space (.received bytes)]) =
      { (requestTokenizer.run (Scan.start control) bytes).forget with
        tokens := (heard calls).tokens ++
          (requestTokenizer.run (Scan.start control) bytes).tokens } := by
    have whole := requestTokenizer.runChunks_concat 4 (receivedChunks calls) bytes
    rw [← chunks] at whole
    have state : (requestTokenizer.runChunks (Scan.start 4) (receivedChunks calls)).control =
      control := all.state
    rw [state] at whole
    exact whole
  refine ⟨?_, ?_⟩
  · rw [next]
    rfl
  · rw [heardNames, next, List.map_append, names, all.names_eq]
    rfl

/-- A file name is found at the start of the bytes that are left. -/
theorem requests {first later token : Bytes} (all : Heard calls control (first ++ later))
    (finds : requestTokenizer.run (Scan.start control) first = ⟨0, [], [token]⟩) (unsent : Bytes) :
    Heard (calls ++ [.request (cName token) unsent]) 0 later := by
  have chunks : receivedChunks (calls ++ [.request (cName token) unsent]) =
      receivedChunks calls := by
    rw [receivedChunks_concat]
    exact List.append_nil _
  have names : requestedNames (calls ++ [.request (cName token) unsent]) = requestedNames calls ++
      [cName token] :=
    requestedNames_concat _ _
  have same : heard (calls ++ [.request (cName token) unsent]) = heard calls :=
    congrArg (requestTokenizer.runChunks (Scan.start 4)) chunks
  have reading : requestTokenizer.run (Scan.start control) (first ++ later) =
      { requestTokenizer.run (Scan.start 0) later with
        tokens := token :: (requestTokenizer.run (Scan.start 0) later).tokens } := by
    rw [Tokenizer.run_append, finds, Tokenizer.run_prepend]
    rfl
  rcases all with ⟨state, found⟩
  rw [reading] at state found
  refine ⟨?_, ?_⟩
  · rw [same]
    exact state
  · rw [heardNames, same, names, List.append_assoc]
    exact found

/-- There is no file name in the bytes that are left. -/
theorem ends {rest : Bytes} (all : Heard calls control rest)
    (none : (requestTokenizer.run (Scan.start control) rest).tokens = []) :
    Heard calls (requestTokenizer.run (Scan.start control) rest).control [] := by
  refine ⟨all.state, ?_⟩
  rw [all.names, none]
  rfl

end Heard

/-- All that was received has been read. -/
def ListensIdle (earlier : List Call) (c : Connection) : Prop :=
  Exists fun control => ParserReady c control 0 0 ∧ Heard (earlier ++ c.calls) control []

/-- What is still to be read is in the buffer. -/
inductive ListensBusy (earlier : List Call) : Nat -> Connection -> Prop
  | received {c : Connection} {control offset size : Nat}
      (ready : ParserReady c control offset size)
      (nonempty : 0 < size)
      (all : Heard (earlier ++ c.calls) control (readBytes c.getBuffer offset (size - offset))) :
      ListensBusy earlier (size - offset) c
  | failed {c next : Connection} {control : Nat} (ready : ParserReady c control 0 0)
      (same : next.ctx = { c.ctx with bufferSize := -1 })
      (all : Heard (earlier ++ next.calls) control []) :
      ListensBusy earlier 0 next

/-- Responses were chosen for the names in the chunks, for all of them unless a
`send` failed for good. -/
structure Listened (earlier : List Call) (c : Connection) : Prop where
  names : requestedNames (earlier ++ c.calls) <+: heardNames (earlier ++ c.calls)
  all : sendFailed c.calls = false -> requestedNames (earlier ++ c.calls) =
    heardNames (earlier ++ c.calls)

def listening (earlier : List Call) : Conditions where
  start := ListensIdle earlier
  idle := fun _ => ListensIdle earlier
  busy := fun _ => ListensBusy earlier
  ended := Listened earlier

section

variable {earlier : List Call}

theorem ListensIdle.listened {c : Connection} (idle : ListensIdle earlier c) :
    Listened earlier c := by
  rcases idle with ⟨control, -, all⟩
  exact ⟨all.names_prefix, fun _ => all.names_eq⟩

theorem ListensIdle.sends {c after : Connection} {exit : Exit} (idle : ListensIdle earlier c)
    (sent : johnnySendsBytes c = (exit, after)) : ListensIdle earlier after := by
  rcases idle with ⟨control, ready, all⟩
  have same := johnnySendsBytes_sameParser c
  rcases johnnySendsBytes_advances ready.fits with ⟨-, result, calls, -⟩
  rw [sent] at same calls
  refine ⟨control, ready.congr same, ?_⟩
  rw [calls, ← List.append_assoc]
  exact all.other rfl rfl

/-- Bytes for which there is no room are not received. -/
theorem receives_take {c : Connection} (offset : c.ctx.bufferOffset = 0) (bytes : Bytes) :
    receives c (.received bytes) = receives c (.received (bytes.take johnnyBufferSize)) := by
  have space : ((johnnyBufferSize : Int) - 0).toNat = johnnyBufferSize := rfl
  unfold receives
  dsimp only
  rw [offset, space, List.take_take, Nat.min_self]

theorem receives_chunk_calls {c : Connection} (offset : c.ctx.bufferOffset = 0) {chunk : Bytes}
    (fits : chunk.length ≤ johnnyBufferSize) :
    (receives c (.received chunk)).calls = c.calls ++
    [.recv johnnyBufferSize (.received chunk)] := by
  have whole : chunk.take ((johnnyBufferSize : Int) - 0).toNat = chunk :=
    List.take_of_length_le fits
  unfold receives
  dsimp only
  rw [offset, whole, Int.sub_zero]

/-- A `recv` leaves a chunk to be read, or the number of a failure; at the end
of the stream there is nothing to read. -/
theorem ListensIdle.receives {c : Connection} (idle : ListensIdle earlier c) (result : RecvResult) :
    ((receives c result).ctx.bufferSize ≠ 0 ->
      Exists fun bytes => bytes ≤ johnnyBufferSize ∧
        ListensBusy earlier bytes (Worker.receives c result)) ∧
    ((Worker.receives c result).ctx.bufferSize = 0 ->
      ListensIdle earlier (Worker.receives c result)) := by
  rcases idle with ⟨control, ready, all⟩
  cases result with
  | failed errno =>
      have still : Heard (earlier ++ (Worker.receives c (.failed errno)).calls) control [] := by
        unfold Worker.receives
        dsimp only
        rw [← List.append_assoc]
        exact all.other rfl rfl
      have negative : (Worker.receives c (.failed errno)).ctx.bufferSize = -1 := rfl
      exact ⟨fun _ => ⟨0, Nat.zero_le _, .failed ready rfl still⟩, fun none => by omega⟩
  | received bytes =>
      have small : (bytes.take johnnyBufferSize).length ≤ johnnyBufferSize :=
        List.length_take_le _ _
      rw [receives_take ready.bufferOffset]
      generalize bytes.take johnnyBufferSize = chunk at small
      rcases receives_ready ready small with ⟨received, buffer⟩
      have calls := receives_chunk_calls ready.bufferOffset small
      have left : Heard (earlier ++ (Worker.receives c (.received chunk)).calls) control chunk := by
        rw [calls, ← List.append_assoc]
        exact all.receives _ _
      constructor
      · intro some
        rw [received.bufferSize] at some
        refine ⟨_, small, .received received (by omega) ?_⟩
        rw [buffer]
        exact left
      · intro none
        rw [received.bufferSize] at none
        have empty : chunk = [] := List.eq_nil_of_length_eq_zero (by omega)
        subst empty
        exact ⟨control, received, left⟩

theorem ListensBusy.ends {bytes : Nat} {c after : Connection} (busy : ListensBusy earlier bytes c)
    (ends : johnnyFindsFilename c = (none, after)) : ListensIdle earlier after := by
  have calls := johnnyFindsFilename_calls ends
  cases busy with
  | @received _ control offset size ready nonempty all =>
      have parses := johnnyFindsFilename_parses ready
      rw [ends] at parses
      rcases parses with ⟨-, tokens, ended⟩ | ⟨position, used, name, some, -⟩
      · refine ⟨_, ready.ended (requestTokenizer.run_control_le ready.control_le _) ended, ?_⟩
        rw [calls]
        exact all.ends tokens
      · cases some
  | @failed before _ control ready same all =>
      rw [johnnyFindsFilename_failed ready same] at ends
      cases ends
      exact ⟨control, ⟨ready.prefixCounter, ready.bufferOffset, ready.bufferSize, ready.control_le,
        Nat.le_refl 0, Nat.zero_le _, ready.fits⟩, all⟩

/-- The name that is found is the next one. -/
theorem ListensBusy.found {bytes : Nat} {c after : Connection} {position : Int}
    (busy : ListensBusy earlier bytes c) (found : johnnyFindsFilename c = (some position, after)) :
    Exists fun offset => Exists fun size => 0 < size ∧ size - offset < bytes ∧
      ParserReady after 0 offset size ∧
      forall unsent, Heard (earlier ++ c.calls ++ [.request (after.fileNameAt position) unsent]) 0
        (readBytes after.getBuffer offset (size - offset)) := by
  cases busy with
  | @received _ control offset size ready nonempty all =>
      have parses := johnnyFindsFilename_parses ready
      rw [found] at parses
      rcases parses with ⟨none, -⟩ | ⟨other, used, token, some, positive, bound, run, stands⟩
      · cases none
      · cases some
        refine ⟨offset + used, size, nonempty, by omega, ready.found bound stands, fun unsent => ?_⟩
        have split : size - offset = used + (size - (offset + used)) := by omega
        have name : after.fileNameAt position = cName token := stands.fileName
        rw [split, readBytes_add] at all
        rw [name, Int.natCast_add, stands.readBytes_left]
        exact all.requests run unsent
  | @failed before _ control ready same all =>
      rw [johnnyFindsFilename_failed ready same] at found
      cases found

/-- Sending the response leaves the buffer as it is. -/
theorem johnnySendsResponse_getBuffer (globals : Globals) (c : Connection) (fileName : Bytes) :
    (johnnySendsResponse globals c fileName).2.getBuffer = c.getBuffer := by
  have selected : (c.selectsResponse globals fileName).getBuffer = c.getBuffer :=
    getBuffer_setResponseLength c _ _ _ _
  unfold johnnySendsResponse johnnySendsBytes
  dsimp only
  cases (c.selectsResponse globals fileName).sends.headD (.failed eagain) with
  | failed errno => exact selected
  | accepted count => exact
      (getBuffer_setResponseLength (c.selectsResponse globals fileName) _ _ _ _).trans selected

/-- A response is not sent because of a failure for good. -/
theorem johnnySendsResponse_failed {globals : Globals} {c sent : Connection} {fileName : Bytes}
    (failure : johnnySendsResponse globals c fileName = (.failure, sent)) :
      sendFailed sent.calls = true := by
  unfold johnnySendsResponse johnnySendsBytes at failure
  dsimp only at failure
  generalize (c.selectsResponse globals fileName).sends.headD (.failed eagain) = result at failure
  cases result with
  | accepted count => cases failure
  | failed errno =>
      dsimp only at failure
      split_ifs at failure with again
      · cases failure
      · cases failure
        rw [sendFailed_append]
        simp [sendFailed, Call.failedForGood, again]

theorem ListensBusy.responds {globals : Globals} {bytes : Nat} {c after sent : Connection}
    {position : Int} {exit : Exit} (busy : ListensBusy earlier bytes c)
    (found : johnnyFindsFilename c = (some position, after))
    (sends : johnnySendsResponse globals after (after.fileNameAt position) = (exit, sent)) :
    Exists fun fewer => fewer < bytes ∧ ListensBusy earlier fewer sent := by
  rcases busy.found found with ⟨offset, size, nonempty, fewer, ready, all⟩
  have same := johnnySendsResponse_sameParser globals after (after.fileNameAt position)
  have buffer := johnnySendsResponse_getBuffer globals after (after.fileNameAt position)
  have fits := (selectsResponse_sameParser globals after
    (after.fileNameAt position)).fits ready.fits
  rcases johnnySendsBytes_advances fits with ⟨-, result, calls, -⟩
  unfold johnnySendsResponse at sends same buffer
  rw [sends] at same buffer calls
  refine ⟨size - offset, fewer, .received (ready.congr same) nonempty ?_⟩
  have requested : (after.selectsResponse globals (after.fileNameAt position)).calls =
      c.calls ++ [.request (after.fileNameAt position) after.unsent] :=
    congrArg (fun calls => calls ++ _) (johnnyFindsFilename_calls found)
  rw [calls, requested, buffer, ← List.append_assoc, ← List.append_assoc]
  exact (all after.unsent).other rfl rfl

end

theorem listening_phases (globals : Globals) (earlier : List Call) :
    Phases globals (listening earlier) (fun _ _ => True) where
  reports := by
    rintro c events ⟨control, ready, all⟩
    exact ⟨trivial, control, ready.congr (reports_sameParser c events), all⟩
  starts := fun _ start => start
  resumes := fun _ _ => trivial
  resumed := fun _ _ start sent => start.sends sent
  unresumed := fun _ _ start sent => (start.sends sent).listened
  leftover := by
    rintro c ⟨control, ready, -⟩ left
    exact absurd ready.bufferSize left
  receives := fun _ _ _ _ => trivial
  closes := fun c result idle _ none => ((idle.receives result).2 none).listened
  received := fun c result idle _ some => (idle.receives result).1 some
  finds := fun _ _ _ _ => trivial
  ends := fun _ _ _ _ busy ends => busy.ends ends
  selects := fun _ _ _ _ _ _ _ => trivial
  sends := fun _ _ _ _ _ _ _ => trivial
  sent := fun _ _ _ _ _ _ busy found success => busy.responds found success
  unsent := by
    intro c more bytes position after sent busy found failure
    have failed := johnnySendsResponse_failed failure
    rcases busy.responds found failure with ⟨fewer, -, still⟩
    refine ⟨?_, fun unfailed => ?_⟩
    · cases still with
      | received _ _ all => exact all.names_prefix
      | failed _ _ all => exact all.names_prefix
    · rw [failed] at unfailed
      cases unfailed

/-! ## Over whole runs -/

/-- A live connection has read all it received. -/
def HearsAll (state : WorkerState) : Prop :=
  ForLive (fun _ context calls => Heard calls context.prefixCounter.toNat []) state

theorem ParserReady.control_eq {c : Connection} {control offset size : Nat}
    (ready : ParserReady c control offset size) : c.ctx.prefixCounter.toNat = control := by
  rw [ready.prefixCounter]
  exact Int.toNat_natCast control

section

variable {globals : Globals} {state : WorkerState} (wakeable : Wakeable globals state)
  (hears : HearsAll state)
  {ctx : ContextPointer} (live : ctx ∈ state.live) (turn : Turn)

include wakeable hears live

theorem HearsAll.finished :
    (listening (state.history ctx)).Finished (state.processes globals ctx turn) := by
  have start : ListensIdle (state.history ctx) (state.connection ctx turn) := by
    have idle : ParserIdle (state.connection ctx turn) :=
      @IdleContext.parserIdle ctx (state.connection ctx turn) (wakeable.idle ctx live)
    rcases idle with ⟨control, ready⟩
    refine ⟨control, ready, ?_⟩
    have all : Heard (state.history ctx) (state.connection ctx turn).ctx.prefixCounter.toNat [] :=
      hears ctx live
    rw [ready.control_eq] at all
    change Heard (state.history ctx ++ []) control []
    rw [List.append_nil]
    exact all
  exact ((listening_phases globals (state.history ctx)).handlesEvent turn.events turn.recvs start).2

theorem HearsAll.listened : Listened (state.history ctx) (state.processes globals ctx turn).2 := by
  have finished := hears.finished wakeable live turn
  generalize state.processes globals ctx turn = processed at finished ⊢
  rcases processed with ⟨verdict, after⟩
  cases verdict with
  | kept =>
      rcases finished with ⟨more, idle⟩
      exact ListensIdle.listened idle
  | closed =>
      rcases finished with idle | ended
      · exact ListensIdle.listened idle
      · exact ended

theorem HearsAll.takesTurn : HearsAll (state.takesTurn globals ctx turn) := by
  apply (ForLive.takesTurn_iff globals hears ctx turn).mpr
  intro stays
  have kept := wakeable.kept_of_live turn stays
  have finished := hears.finished wakeable live turn
  unfold WorkerState.callsThrough
  generalize state.processes globals ctx turn = processed at kept finished ⊢
  rcases processed with ⟨verdict, after⟩
  rw [show verdict = .kept from kept] at finished
  rcases finished with ⟨more, control, ready, all⟩
  rw [← ready.control_eq] at all
  exact all

end

theorem hearsAll_reachable {globals : Globals} {state : WorkerState}
    (reachable : ((worker globals).restrict AllocatesUnused).Reachable WorkerState.zero state) :
    Wakeable globals state ∧ HearsAll state := by
  have start : Wakeable globals WorkerState.zero ∧ HearsAll WorkerState.zero :=
    ⟨⟨List.nodup_nil, ForLive.zero, ForLive.zero⟩, ForLive.zero⟩
  refine @Machine.invariant_reachable _ _ _ (fun state => Wakeable globals state ∧
    HearsAll state) ?_ _ _ start
    reachable
  rintro before step ⟨wakeable, hears⟩ ⟨enabled, unused⟩
  cases step with
  | accept fd malloced added =>
      refine ⟨wakeable.accepts fd malloced added unused, ForLive.accepts hears added ?_⟩
      have new := johnnyAllocatesConnection_new before.memory fd malloced
      rw [new.prefixCounter]
      exact Heard.nil
  | turn ctx turn => exact ⟨wakeable.takesTurn enabled turn, hears.takesTurn wakeable enabled turn⟩

/-- Provided that allocations hand out contexts not in use, in every reachable
worker the file names that responses are chosen for on a connection, up to the
end of any event, are the names that the tokenizer finds in the chunks that were
received on it, in this order; names at the end are left out only after a `send`
that failed for good. -/
theorem requestedNames_heard (globals : Globals) (state : WorkerState)
    (reachable : ((worker globals).restrict AllocatesUnused).Reachable WorkerState.zero state)
    (ctx : ContextPointer) (live : ctx ∈ state.live) (turn : Turn) :
    requestedNames (state.callsThrough globals ctx turn) <+:
      heardNames (state.callsThrough globals ctx turn) ∧
      (sendFailed (state.processes globals ctx turn).2.calls = false ->
        requestedNames (state.callsThrough globals ctx turn) =
          heardNames (state.callsThrough globals ctx turn)) := by
  rcases hearsAll_reachable reachable with ⟨wakeable, hears⟩
  have listened := hears.listened wakeable live turn
  exact ⟨listened.names, listened.all⟩

/-- A connection that has received the beginning of a request. -/
def begunSteps : List WorkerStep :=
  [.accept 5 unusedMalloced true,
    .turn (.stack 0) ⟨epollin, [.received (ascii "GET /a HTTP/1.1\r\n")], [.accepted 45]⟩]

/-- The rest arrives together with the next request. -/
def nextTurn : Turn :=
  ⟨epollin, [.received (ascii "\r\nGET /b HTTP/1.1\r\n\r\n")], [.accepted 45]⟩

theorem requestedNames_heard_next :
    requestedNames (((worker indexOnly).after WorkerState.zero begunSteps).callsThrough indexOnly
      (.stack 0) nextTurn) =
      heardNames (((worker indexOnly).after WorkerState.zero begunSteps).callsThrough indexOnly
        (.stack 0) nextTurn) :=
  (requestedNames_heard indexOnly _
    ⟨begunSteps, ((worker indexOnly).restrict_run AllocatesUnused _ _).mpr ⟨by decide, by decide⟩,
      rfl⟩
    (.stack 0) (by decide) nextTurn).2 (by decide)

end Worker
end Johnny
