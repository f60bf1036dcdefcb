import Johnny.Library.Cursor
import Johnny.Worker.LiveContexts

namespace Johnny
namespace Worker

open Library

/-!
# The stream of responses

A connection has one response pointer and one remaining length.  Seen from the
calls made on it, they are a cursor over the responses to the parsed file
names: a parsed name loads its response, whatever was left of the one before,
and `send` advances.  So the bytes handed to the socket are the responses in
request order exactly as long as no file name is parsed while bytes of an
earlier response are unsent.
-/

/-- The complete response to a file name. -/
def responseTo (globals : Globals) (fileName : Bytes) : Bytes :=
  (johnnySelectsResponse globals fileName).1.read (johnnySelectsResponse globals fileName).2

/-- The bytes handed to the socket. -/
def sentBytes (calls : List Call) : Bytes :=
  calls.flatMap (fun call =>
    match call with
    | .send offered (.accepted count) => offered.take count
    | _ => [])

/-- The complete responses of the parsed names, in request order. -/
def requestedResponses (globals : Globals) (calls : List Call) : Bytes :=
  calls.flatMap (fun call =>
    match call with
    | .request fileName _ => responseTo globals fileName
    | _ => [])

/-- At all times the bytes sent so far are a prefix of the requested responses,
and a response is finished before the next one takes its place. -/
structure StreamIntegrity (globals : Globals) (calls : List Call) : Prop where
  inOrder : forall before, before <+: calls -> sentBytes before <+:
    requestedResponses globals before
  finished : forall before fileName unsent, before ++ [.request fileName unsent] <+: calls ->
    sentBytes before = requestedResponses globals before

/-- A file name was parsed while no byte of a response was unsent. -/
def Call.FoundWhenSent : Call -> Prop
  | .request _ unsent => unsent = []
  | _ => True

instance : (call : Call) -> Decidable call.FoundWhenSent
  | .request _ unsent => inferInstanceAs (Decidable (unsent = []))
  | .recv _ _ => .isTrue trivial
  | .send _ _ => .isTrue trivial

def RequestsWhenSent (calls : List Call) : Prop :=
  forall call, call ∈ calls -> call.FoundWhenSent

instance (calls : List Call) : Decidable (RequestsWhenSent calls) :=
  inferInstanceAs (Decidable (forall call, call ∈ calls -> call.FoundWhenSent))

def Call.transfer (globals : Globals) : Call -> Transfer UInt8
  | .recv _ _ => .idle
  | .send _ (.accepted count) => .advance count
  | .send _ (.failed _) => .idle
  | .request fileName _ => .load (responseTo globals fileName)

/-- The unsent bytes that the calls so far account for. -/
def cursorAfter (globals : Globals) (calls : List Call) : Bytes :=
  Transfer.pending (calls.map (Call.transfer globals))

/-- A call speaks of the unsent bytes as they were before it. -/
def Call.Tells (unsent : Bytes) : Call -> Prop
  | .recv _ _ => True
  | .send offered _ => offered = unsent
  | .request _ replaced => replaced = unsent

def Told (globals : Globals) (calls : List Call) : Prop :=
  forall before call, before ++ [call] <+: calls -> call.Tells (cursorAfter globals before)

@[simp] theorem cursorAfter_append_singleton (globals : Globals) (calls : List Call) (call : Call) :
    cursorAfter globals (calls ++ [call]) = (call.transfer globals).apply
      (cursorAfter globals calls) := by
  unfold cursorAfter
  rw [List.map_append, List.map_cons, List.map_nil, Transfer.pending_append_singleton]

theorem Told.nil (globals : Globals) : Told globals [] := by
  intro before call inside
  have empty := List.prefix_nil.mp inside
  exact absurd empty (by simp)

theorem Told.of_prefix {globals : Globals} {first second : List Call} (told : Told globals second)
    (start : first <+: second) : Told globals first :=
  fun before call inside => told before call (inside.trans start)

theorem Told.append_singleton {globals : Globals} {calls : List Call} (told : Told globals calls)
    {call : Call} (tells : call.Tells (cursorAfter globals calls)) :
      Told globals (calls ++ [call]) := by
  intro before other inside
  rcases List.prefix_concat_iff.mp inside with last | earlier
  · rcases List.append_inj' last rfl with ⟨sameCalls, sameCall⟩
    rw [sameCalls, (List.cons.inj sameCall).1]
    exact tells
  · exact told before other earlier

theorem requestedResponses_eq (globals : Globals) (calls : List Call) :
    requestedResponses globals calls = Transfer.messages (calls.map (Call.transfer globals)) := by
  unfold requestedResponses Transfer.messages
  rw [List.flatMap_map]
  apply List.flatMap_congr
  intro call _
  cases call with
  | recv space result => rfl
  | send offered result => cases result <;> rfl
  | request fileName unsent => rfl

theorem Told.sentBytes_eq {globals : Globals} {calls : List Call} (told : Told globals calls) :
    sentBytes calls = Transfer.sent (calls.map (Call.transfer globals)) := by
  induction calls using List.reverseRecOn with
  | nil => rfl
  | append_singleton calls call ih =>
      have earlier := ih (told.of_prefix (List.prefix_append calls [call]))
      have tells := told calls call (List.prefix_refl _)
      have split : sentBytes (calls ++ [call]) = sentBytes calls ++ sentBytes [call] := by
        unfold sentBytes
        rw [List.flatMap_append]
      rw [split, earlier, List.map_append, List.map_cons, List.map_nil,
        Transfer.sent_append_singleton]
      congr 1
      cases call with
      | recv space result => rfl
      | request fileName unsent => rfl
      | send offered result =>
          cases result with
          | failed errno => rfl
          | accepted count =>
              have same : offered = cursorAfter globals calls := tells
              unfold sentBytes
              rw [List.flatMap_cons, List.flatMap_nil, List.append_nil, same]
              rfl

/-- The loads of the cursor are the parsed file names. -/
theorem forall_load_iff (globals : Globals) (calls : List Call)
    (P : List (Transfer UInt8) -> Prop) :
    (forall before next, before ++ [.load next] <+: calls.map (Call.transfer globals) ->
      P before) <->
      forall before fileName unsent, before ++ [.request fileName unsent] <+: calls ->
        P (before.map (Call.transfer globals)) := by
  constructor
  · intro loads before fileName unsent inside
    apply loads _ (responseTo globals fileName)
    have mapped := inside.map (Call.transfer globals)
    rw [List.map_append] at mapped
    exact mapped
  · intro requests before next inside
    rcases List.prefix_map_iff.mp inside with ⟨whole, start, equal⟩
    rcases List.append_eq_map_iff.mp equal with ⟨first, last, rfl, rfl, lastLoad⟩
    rcases List.map_eq_singleton_iff.mp lastLoad with ⟨call, rfl, load⟩
    cases call with
    | recv space result => cases load
    | send offered result => cases result <;> cases load
    | request fileName unsent => exact requests first fileName unsent start

/-- The stream of responses is intact as a transfer of messages. -/
theorem Told.integrity_iff_intact {globals : Globals} {calls : List Call}
    (told : Told globals calls) :
    StreamIntegrity globals calls <-> Transfer.Intact (calls.map (Call.transfer globals)) := by
  constructor
  · intro integrity
    refine ⟨?_, ?_⟩
    · intro before inside
      rcases List.prefix_map_iff.mp inside with ⟨first, start, rfl⟩
      rw [← (told.of_prefix start).sentBytes_eq, ← requestedResponses_eq]
      exact integrity.inOrder first start
    · apply (forall_load_iff globals calls (fun before =>
        Transfer.sent before = Transfer.messages before)).mpr
      intro before fileName unsent inside
      have start := (List.prefix_append before _).trans inside
      rw [← (told.of_prefix start).sentBytes_eq, ← requestedResponses_eq]
      exact integrity.finished before fileName unsent inside
  · intro whole
    refine ⟨?_, ?_⟩
    · intro before start
      rw [(told.of_prefix start).sentBytes_eq, requestedResponses_eq]
      exact whole.inOrder _ (start.map _)
    · intro before fileName unsent inside
      have start := (List.prefix_append before _).trans inside
      rw [(told.of_prefix start).sentBytes_eq, requestedResponses_eq]
      exact (forall_load_iff globals calls _).mp whole.finished before fileName unsent inside

theorem Told.integrity_iff {globals : Globals} {calls : List Call} (told : Told globals calls) :
    StreamIntegrity globals calls <-> RequestsWhenSent calls := by
  rw [told.integrity_iff_intact, Transfer.intact_iff]
  unfold Transfer.LoadsWhenDone
  rw [forall_load_iff]
  constructor
  · intro empty call member
    cases call with
    | recv space result => trivial
    | send offered result => trivial
    | request fileName unsent =>
        rcases List.append_of_mem member with ⟨before, after, rfl⟩
        have inside : before ++ [.request fileName unsent] <+:
            before ++ .request fileName unsent :: after :=
          ⟨after, by rw [List.append_assoc]; rfl⟩
        have same : unsent = cursorAfter globals before := told before _ inside
        change unsent = []
        rw [same]
        exact empty before fileName unsent inside
  · intro requests before fileName unsent inside
    have same : unsent = cursorAfter globals before := told before _ inside
    have member : .request fileName unsent ∈ calls := inside.subset (by simp)
    change cursorAfter globals before = []
    rw [← same]
    exact requests _ member

/-- The pointer and length of a context are the cursor after the calls made on
it. -/
structure Follows (globals : Globals) (calls : List Call) (ctx : ConnectionContext) : Prop where
  fits : ConnectionContext.TailFits ctx
  unsent : ctx.response.read (getResponseLength ctx) = cursorAfter globals calls
  told : Told globals calls

theorem Follows.congr {globals : Globals} {calls : List Call} {before after : ConnectionContext}
    (follows : Follows globals calls before) (fits : ConnectionContext.TailFits after)
    (response : after.response = before.response)
    (length : getResponseLength after = getResponseLength before) :
      Follows globals calls after where
  fits := fits
  unsent := by
    rw [response, length]
    exact follows.unsent
  told := follows.told

theorem Follows.call {globals : Globals} {calls : List Call} {before after : ConnectionContext}
    (follows : Follows globals calls before) (call : Call) (fits : ConnectionContext.TailFits after)
    (tells : call.Tells (before.response.read (getResponseLength before)))
    (moves : after.response.read (getResponseLength after) =
      (call.transfer globals).apply (before.response.read (getResponseLength before))) :
    Follows globals (calls ++ [call]) after where
  fits := fits
  unsent := by rw [cursorAfter_append_singleton, moves, follows.unsent]
  told := follows.told.append_singleton (by rw [← follows.unsent]; exact tells)

/-- Whatever calls were made before an event, the event keeps the context in
step with them. -/
theorem follows_preserved (globals : Globals) (earlier : List Call) :
    Preserved globals (fun c => Follows globals (earlier ++ c.calls) c.ctx) where
  reports := fun c events follows => follows.congr follows.fits rfl rfl
  sendsBytes := by
    intro c follows
    unfold johnnySendsBytes
    cases c.sends.headD (.failed eagain) with
    | failed errno =>
        dsimp only
        rw [← List.append_assoc]
        exact follows.call _ follows.fits rfl rfl
    | accepted count =>
        dsimp only
        rw [← List.append_assoc]
        have fits : ConnectionContext.TailFits { c.ctx with
            response := { c.ctx.response with
              offset := c.ctx.response.offset + min count (getResponseLength c.ctx) } } :=
                follows.fits
        refine follows.call _ (setResponseLength_fits fits _) rfl ?_
        rw [setResponseLength_response, getResponseLength_set fits]
        exact ResponsePointer.read_advance _ _ _
  selectsResponse := by
    intro c fileName follows
    unfold Connection.selectsResponse
    dsimp only
    rw [← List.append_assoc]
    have fits : ConnectionContext.TailFits { c.ctx with
        response := (johnnySelectsResponse globals fileName).1 } := follows.fits
    refine follows.call _ (setResponseLength_fits fits _) rfl ?_
    rw [setResponseLength_response, getResponseLength_set fits]
    rfl
  findsFilename := by
    intro c follows
    rcases johnnyFindsFilename_same c with ⟨same, calls⟩
    rw [calls]
    exact follows.congr (same.tailFits.mpr follows.fits) same.response same.responseLength
  receives := by
    intro c result follows
    have same := receives_same c result
    rcases receives_calls c result with ⟨received, calls⟩
    rw [calls, ← List.append_assoc]
    refine follows.call _ (same.tailFits.mpr follows.fits) trivial ?_
    rw [same.response, same.responseLength]
    rfl

/-! ## Over whole runs -/

/-- After a turn, and at all times during it, the connection has been sent the
responses it asked for. -/
def StreamIntact (globals : Globals) (state : WorkerState) : WorkerStep -> Prop
  | .accept _ _ _ => True
  | .turn ctx turn => StreamIntegrity globals (state.callsThrough globals ctx turn)

/-- No file name is found during a turn while bytes of an earlier response are
unsent. -/
def FindsWhenSent (globals : Globals) (state : WorkerState) : WorkerStep -> Prop
  | .accept _ _ _ => True
  | .turn ctx turn => RequestsWhenSent (state.processes globals ctx turn).2.calls

instance (globals : Globals) (state : WorkerState) (step : WorkerStep) :
    Decidable (FindsWhenSent globals state step) :=
  match step with
  | .accept _ _ _ => .isTrue trivial
  | .turn ctx turn =>
      inferInstanceAs (Decidable (RequestsWhenSent (state.processes globals ctx turn).2.calls))

/-- Every live context is in step with its calls, and none of them replaced
unsent bytes. -/
def CursorsFollow (globals : Globals) (state : WorkerState) : Prop :=
  forall ctx, ctx ∈ state.live ->
    Follows globals (state.history ctx) (state.memory.contexts ctx) ∧
      RequestsWhenSent (state.history ctx)

theorem cursorsFollow_zero (globals : Globals) : CursorsFollow globals WorkerState.zero := by
  intro ctx member
  cases member

/-- A new context has nothing to send. -/
theorem johnnyAllocatesConnection_follows (globals : Globals) (memory : Memory) (fd : Int)
    (malloced : Malloced) :
    Follows globals [] ((johnnyAllocatesConnection memory fd malloced).2.contexts
      (johnnyAllocatesConnection memory fd malloced).1) := by
  have new := johnnyAllocatesConnection_new memory fd malloced
  refine ⟨new.fits, ?_, Told.nil globals⟩
  rw [new.responseLength]
  rfl

theorem CursorsFollow.accepts {globals : Globals} {state : WorkerState}
    (follow : CursorsFollow globals state) (fd : Int) (malloced : Malloced) (added : Bool) :
    CursorsFollow globals (state.accepts fd malloced added) := by
  refine @ForLive.accepts (fun _ context calls => Follows globals calls context ∧
    RequestsWhenSent calls)
    state follow fd malloced added ?_
  refine ⟨johnnyAllocatesConnection_follows globals state.memory fd malloced, ?_⟩
  intro call inside
  cases inside

/-- A turn keeps the context of its connection in step. -/
theorem CursorsFollow.processes {globals : Globals} {state : WorkerState}
    (follow : CursorsFollow globals state) {ctx : ContextPointer} (live : ctx ∈ state.live)
    (turn : Turn) : Follows globals (state.callsThrough globals ctx turn)
      (state.processes globals ctx turn).2.ctx := by
  apply (follows_preserved globals (state.history ctx)).handlesEvent
  change Follows globals (state.history ctx ++ []) (state.memory.contexts ctx)
  rw [List.append_nil]
  exact (follow ctx live).1

theorem CursorsFollow.takesTurn {globals : Globals} {state : WorkerState}
    (follow : CursorsFollow globals state) {ctx : ContextPointer} (live : ctx ∈ state.live)
    (turn : Turn) (finds : RequestsWhenSent (state.processes globals ctx turn).2.calls) :
    CursorsFollow globals (state.takesTurn globals ctx turn) := by
  refine (@ForLive.takesTurn_iff (fun _ context calls => Follows globals calls context ∧
    RequestsWhenSent calls)
    state globals follow ctx turn).mpr (fun _ => ⟨follow.processes live turn, ?_⟩)
  intro call inside
  rcases List.mem_append.mp inside with earlier | now
  · exact (follow ctx live).2 call earlier
  · exact finds call now

theorem CursorsFollow.streamIntact_iff {globals : Globals} {state : WorkerState}
    (follow : CursorsFollow globals state) (step : WorkerStep) (enabled : step.Enabled state) :
    StreamIntact globals state step <-> FindsWhenSent globals state step := by
  cases step with
  | accept fd malloced added => rfl
  | turn ctx turn =>
      change StreamIntegrity globals (state.callsThrough globals ctx turn) <->
        RequestsWhenSent (state.processes globals ctx turn).2.calls
      rw [(follow.processes enabled turn).told.integrity_iff]
      constructor
      · intro requests call inside
        exact requests call (List.mem_append_right _ inside)
      · intro requests call inside
        rcases List.mem_append.mp inside with earlier | now
        · exact (follow ctx enabled).2 call earlier
        · exact requests call now

theorem cursorsFollow_guarded (globals : Globals) :
    (worker globals).Guarded (CursorsFollow globals) (FindsWhenSent globals)
    (StreamIntact globals) where
  keeps := by
    intro state step follow enabled finds
    cases step with
    | accept fd malloced added => exact follow.accepts fd malloced added
    | turn ctx turn => exact follow.takesTurn enabled turn finds
  exact := fun _state step follow enabled => follow.streamIntact_iff step enabled

/-- Over every run of a worker, all response streams are intact exactly as long
as no file name is found on a connection while bytes of an earlier response to
it are unsent. -/
theorem streamIntact_iff_findsWhenSent (globals : Globals) (steps : List WorkerStep)
    (run : (worker globals).Run WorkerState.zero steps) :
    (worker globals).Throughout (StreamIntact globals) WorkerState.zero steps <->
      (worker globals).Throughout (FindsWhenSent globals) WorkerState.zero steps :=
  (cursorsFollow_guarded globals).throughout_iff (cursorsFollow_zero globals) run

/-- A table whose only file is `index.html`. -/
def indexOnly : Globals where
  johnnyFiles := fun _ => ⟨⟨0, 0⟩, ascii "HTTP/1.1 200 OK\r\nContent-Length: 0\r\n\r\n", 38⟩
  johnnyFileCount := 1
  cmphSearch := fun _ => 0
  heap := (Heap.empty.allocate (stringCells (ascii "index.html"))).2

/-- One request, whose response is sent in two turns. -/
def resumedSteps : List WorkerStep :=
  [.accept 5 unusedMalloced true,
    .turn (.stack 0) ⟨epollin, [.received (ascii "GET /index.html HTTP/1.1\r\n\r\n")],
      [.accepted 20]⟩,
    .turn (.stack 0) ⟨epollout, [], [.accepted 18]⟩]

/-- After the first of the two turns. -/
def partlySent : WorkerState :=
  (worker indexOnly).after WorkerState.zero (resumedSteps.take 2)

theorem streamIntact_resumedSteps :
    (worker indexOnly).Throughout (StreamIntact indexOnly) WorkerState.zero resumedSteps :=
  (streamIntact_iff_findsWhenSent indexOnly resumedSteps (by decide)).mpr (by decide)

/-- Two requests in one chunk, and a socket that accepts one byte. -/
def pipelinedTurn : Turn :=
  ⟨epollin, [.received (ascii "GET /a HTTP/1.1\r\n\r\nGET /b HTTP/1.1\r\n\r\n")], [.accepted 1]⟩

/-- The second response replaces what is left of the first one. -/
theorem not_streamIntact_pipelined :
    ¬ forall steps, (worker indexOnly).Run WorkerState.zero steps ->
      (worker indexOnly).Throughout (StreamIntact indexOnly) WorkerState.zero steps := by
  intro intact
  have whole := intact [.accept 5 unusedMalloced true, .turn (.stack 0) pipelinedTurn] (by decide)
  have integrity := whole.2.1
  have unfinished := integrity.finished
    ((WorkerState.callsThrough indexOnly (WorkerState.zero.accepts 5 unusedMalloced true) (.stack 0)
      pipelinedTurn).take 3) (ascii "b") (http404.drop 1) (by decide)
  exact absurd unfinished (by decide)

end Worker
end Johnny
