import Johnny.Hash.Chd
import Johnny.Worker.ResponseStream

namespace Johnny
namespace Worker

open Library
open Hash

/-!
# The response cursor

A context keeps a pointer into a response in one place and the number of bytes
to send in another.  While there are any, the two should meet at the end of a
complete response: `http_404`, or the response of an entry of `JOHNNY_FILES`
that was found under its key.  Then whatever a `send` is offered is the rest of
one response, and all of it is there.

The index of a requested name is not tested.  A name above all keys leads behind
the table, and if memory there looks like an entry with that name, the pointer
and the length are whatever that entry says.
-/

/-- A complete response that the workers may send. -/
inductive CompleteResponse (globals : Globals) : Bytes -> Prop
  | notFound : CompleteResponse globals http404
  | file (fileName : Bytes) (inside : johnnyFileIndex globals fileName < globals.johnnyFileCount)
      (key : globals.heap.cString
          (globals.johnnyFiles (johnnyFileIndex globals fileName)).urlEncodedFileName =
        some fileName)
      (size : (globals.johnnyFiles (johnnyFileIndex globals fileName)).responseLength =
        (globals.johnnyFiles (johnnyFileIndex globals fileName)).response.length) :
      CompleteResponse globals (globals.johnnyFiles (johnnyFileIndex globals fileName)).response

/-- The pointer and the remaining length meet at the end of a response. -/
structure PointsAtRest (globals : Globals) (context : ConnectionContext) (response : Bytes) :
    Prop where
  complete : CompleteResponse globals response
  object : context.response.object = response
  ends : context.response.offset + getResponseLength context = response.length

/-- While bytes are left to send, they are the end of a complete response. -/
def CursorInPlace (globals : Globals) (context : ConnectionContext) : Prop :=
  0 < getResponseLength context ->
    Exists fun response => PointsAtRest globals context response

/-- What a `send` accepted is taken from the length, and the pointer is moved
over it. -/
def Advances (before after : ConnectionContext) : SendResult -> Prop
  | .failed _ => after = before
  | .accepted count =>
      getResponseLength after + count = getResponseLength before ∧
        after.response = { before.response with offset := before.response.offset + count }

/-- What a `send` is offered, that it is all there, and what it takes away. -/
structure SendsRest (globals : Globals) (c : Connection) : Prop where
  offered : Exists fun response => CompleteResponse globals response ∧ c.unsent <:+ response
  length : c.unsent.length = getResponseLength c.ctx
  call : Exists fun result => (johnnySendsBytes c).2.calls = c.calls ++ [.send c.unsent result] ∧
    Advances c.ctx (johnnySendsBytes c).2.ctx result

/-- An operation that is a `send` sends the rest of a response. -/
def SendsOnlyRest (globals : Globals) (c : Connection) (operation : Operation) : Prop :=
  operation = .sendsBytes -> SendsRest globals c

/-- Before a step the cursors of all live contexts are in place, and every `send`
of the step sends the rest of a response. -/
def KeepsCursors (globals : Globals) (state : WorkerState) (step : WorkerStep) : Prop :=
  (forall ctx, ctx ∈ state.live -> CursorInPlace globals (state.memory.contexts ctx)) ∧
    forall ctx turn, step = .turn ctx turn ->
      (operating globals).Throughout (SendsOnlyRest globals) (state.connection ctx turn)
        (handlesEventOperations globals turn.events turn.recvs (state.connection ctx turn))

section

variable {keys : List Bytes} (ph : ChdPh keys)

/-- When a response is chosen for a name, some key lies in the bin of the name or
above. -/
def SelectsBelowKey (c : Connection) : Operation -> Prop
  | .selectsResponse position =>
      Exists fun key => key ∈ keys ∧ ph.bin (c.fileNameAt position) ≤ ph.bin key
  | _ => True

instance (c : Connection) : (operation : Operation) -> Decidable (SelectsBelowKey ph c operation)
  | .selectsResponse position => inferInstanceAs
      (Decidable (Exists fun key => key ∈ keys ∧ ph.bin (c.fileNameAt position) ≤ ph.bin key))
  | .reports _ => .isTrue trivial
  | .receives _ => .isTrue trivial
  | .findsFilename => .isTrue trivial
  | .sendsBytes => .isTrue trivial

/-- So it is for all names for which responses are chosen in a step. -/
def RequestsBelowKey (globals : Globals) (state : WorkerState) : WorkerStep -> Prop
  | .accept _ _ _ => True
  | .turn ctx turn =>
      (operating globals).Throughout (SelectsBelowKey ph) (state.connection ctx turn)
        (handlesEventOperations globals turn.events turn.recvs (state.connection ctx turn))

instance (globals : Globals) (state : WorkerState) :
    (step : WorkerStep) -> Decidable (RequestsBelowKey ph globals state step)
  | .accept _ _ _ => .isTrue trivial
  | .turn ctx turn => inferInstanceAs (Decidable
      ((operating globals).Throughout (SelectsBelowKey ph) (state.connection ctx turn)
        (handlesEventOperations globals turn.events turn.recvs (state.connection ctx turn))))

end

/-- What holds of every live context. -/
structure CursorFits (globals : Globals) (context : ConnectionContext) : Prop where
  fits : ConnectionContext.TailFits context
  inPlace : CursorInPlace globals context

/-- For a name that leads into the table, a complete response is chosen from its
beginning to its end. -/
theorem johnnySelectsResponse_complete {globals : Globals} (sized : globals.Sized)
    {fileName : Bytes} (inside : johnnyFileIndex globals fileName < globals.johnnyFileCount) :
    Exists fun response => CompleteResponse globals response ∧
      johnnySelectsResponse globals fileName = (⟨response, 0⟩, response.length) := by
  have size := sized _ inside
  unfold johnnySelectsResponse
  dsimp only
  split_ifs with key
  · exact ⟨_, .file fileName inside key size, by rw [size]⟩
  · exact ⟨_, .notFound, rfl⟩

theorem CursorFits.congr {globals : Globals} {before after : ConnectionContext}
    (cursor : CursorFits globals before) (fits : ConnectionContext.TailFits after)
    (response : after.response = before.response)
    (length : getResponseLength after = getResponseLength before) : CursorFits globals after where
  fits := fits
  inPlace := by
    intro pending
    rw [length] at pending
    rcases cursor.inPlace pending with ⟨whole, points⟩
    refine ⟨whole, points.complete, ?_, ?_⟩
    · rw [response]
      exact points.object
    · rw [response, length]
      exact points.ends

theorem johnnySendsBytes_advances {c : Connection} (fits : ConnectionContext.TailFits c.ctx) :
    ConnectionContext.TailFits (johnnySendsBytes c).2.ctx ∧
      Exists fun result => (johnnySendsBytes c).2.calls = c.calls ++ [.send c.unsent result] ∧
        Advances c.ctx (johnnySendsBytes c).2.ctx result := by
  unfold johnnySendsBytes
  cases c.sends.headD (.failed eagain) with
  | failed errno => exact ⟨fits, .failed errno, rfl, rfl⟩
  | accepted count =>
      have moved : ConnectionContext.TailFits { c.ctx with
          response := { c.ctx.response with
            offset := c.ctx.response.offset + min count (getResponseLength c.ctx) } } := fits
      refine ⟨setResponseLength_fits moved _, .accepted _, rfl, ?_, ?_⟩
      · dsimp only
        rw [getResponseLength_set moved]
        exact Nat.sub_add_cancel (Nat.min_le_right _ _)
      · rw [setResponseLength_response]

theorem CursorFits.sendsBytes {globals : Globals} {c : Connection}
    (cursor : CursorFits globals c.ctx) : CursorFits globals (johnnySendsBytes c).2.ctx := by
  rcases johnnySendsBytes_advances cursor.fits with ⟨fits, result, -, advances⟩
  cases result with
  | failed errno =>
      rw [show (johnnySendsBytes c).2.ctx = c.ctx from advances]
      exact cursor
  | accepted count =>
      rcases advances with ⟨taken, moved⟩
      refine ⟨fits, ?_⟩
      intro pending
      rcases cursor.inPlace (by omega) with ⟨response, points⟩
      have ends := points.ends
      refine ⟨response, points.complete, ?_, ?_⟩
      · rw [moved]
        exact points.object
      · rw [moved]
        dsimp only
        omega

theorem CursorFits.selectsResponse {globals : Globals} (sized : globals.Sized) {c : Connection}
    (cursor : CursorFits globals c.ctx) {fileName : Bytes}
    (inside : johnnyFileIndex globals fileName < globals.johnnyFileCount) :
    CursorFits globals (c.selectsResponse globals fileName).ctx := by
  rcases johnnySelectsResponse_complete sized inside with ⟨response, complete, selects⟩
  have fits : ConnectionContext.TailFits { c.ctx with response := ⟨response, 0⟩ } := cursor.fits
  unfold Connection.selectsResponse
  rw [selects]
  dsimp only
  refine ⟨setResponseLength_fits fits _, fun _ => ⟨response, complete, ?_, ?_⟩⟩
  · rw [setResponseLength_response]
  · rw [setResponseLength_response, getResponseLength_set fits]
    exact Nat.zero_add _

/-- Every operation keeps the cursor in place, as long as the names lead into
the table. -/
theorem CursorFits.perform {globals : Globals} {keys : List Bytes} {ph : ChdPh keys}
    (hashed : Hashed globals ph) {c : Connection} (cursor : CursorFits globals c.ctx)
    {operation : Operation} (below : SelectsBelowKey ph c operation) :
    CursorFits globals (operation.perform globals c).ctx := by
  cases operation with
  | reports events => exact cursor.congr cursor.fits rfl rfl
  | receives result =>
      have same := receives_same c result
      exact cursor.congr (same.tailFits.mpr cursor.fits) same.response same.responseLength
  | findsFilename =>
      have same := (johnnyFindsFilename_same c).1
      exact cursor.congr (same.tailFits.mpr cursor.fits) same.response same.responseLength
  | selectsResponse position => exact cursor.selectsResponse hashed.sized (hashed.inside below)
  | sendsBytes => exact cursor.sendsBytes

/-- The rest of a response is offered as a suffix of it, and completely. -/
theorem PointsAtRest.unsent {globals : Globals} {c : Connection} {response : Bytes}
    (points : PointsAtRest globals c.ctx response) :
    c.unsent = response.drop c.ctx.response.offset := by
  have place := points.ends
  unfold Connection.unsent ResponsePointer.read
  rw [points.object]
  apply List.take_of_length_le
  rw [List.length_drop]
  omega

theorem CursorFits.sendsRest {globals : Globals} {c : Connection}
    (cursor : CursorFits globals c.ctx) : SendsRest globals c := by
  have call := (johnnySendsBytes_advances cursor.fits).2
  by_cases pending : 0 < getResponseLength c.ctx
  · rcases cursor.inPlace pending with ⟨response, points⟩
    have place := points.ends
    refine ⟨⟨response, points.complete, ?_⟩, ?_, call⟩
    · rw [points.unsent]
      exact List.drop_suffix _ _
    · rw [points.unsent, List.length_drop]
      omega
  · have none : getResponseLength c.ctx = 0 := by omega
    have nothing : c.unsent = [] := by
      unfold Connection.unsent ResponsePointer.read
      rw [none, List.take_zero]
    refine ⟨⟨http404, .notFound, ?_⟩, ?_, call⟩
    · rw [nothing]
      exact List.nil_suffix
    · rw [nothing, none]
      rfl

/-! ## Over whole runs -/

section

variable {globals : Globals} {keys : List Bytes} {ph : ChdPh keys} (hashed : Hashed globals ph)

include hashed

/-- An event whose names lead into the table leaves the cursor in place. -/
theorem CursorFits.processes {state : WorkerState} {ctx : ContextPointer}
    (cursor : CursorFits globals (state.memory.contexts ctx)) {turn : Turn}
    (below : RequestsBelowKey ph globals state (.turn ctx turn)) :
    CursorFits globals (state.processes globals ctx turn).2.ctx := by
  have start : CursorFits globals (state.connection ctx turn).ctx := cursor
  unfold WorkerState.processes
  rw [← after_handlesEvent]
  exact @Machine.after_of_throughout _ _ (operating globals) (fun c => CursorFits globals c.ctx)
    (SelectsBelowKey ph) (fun _ _ holds now => CursorFits.perform hashed holds now) _ _ start below

/-- Every `send` of such an event sends the rest of a response. -/
theorem CursorFits.sendsOnlyRest {state : WorkerState} {ctx : ContextPointer}
    (cursor : CursorFits globals (state.memory.contexts ctx)) {turn : Turn}
    (below : RequestsBelowKey ph globals state (.turn ctx turn)) :
    (operating globals).Throughout (SendsOnlyRest globals) (state.connection ctx turn)
      (handlesEventOperations globals turn.events turn.recvs (state.connection ctx turn)) := by
  have start : CursorFits globals (state.connection ctx turn).ctx := cursor
  have run := ((operating globals).restrict_run (SelectsBelowKey ph) _ _).mpr
    ⟨operating_run globals _ _, below⟩
  have fits := @Machine.invariant_throughout _ _
    ((operating globals).restrict (SelectsBelowKey ph)) (fun c => CursorFits globals c.ctx)
    (fun _ _ holds enabled => CursorFits.perform hashed holds enabled.2) _ _ start run
  rw [Machine.restrict_throughout] at fits
  exact (operating globals).throughout_imp (fun _ _ holds _ => holds.sendsRest) fits

theorem cursorFits_step {state : WorkerState} {step : WorkerStep}
    (cursors : ForLive (fun _ context _ => CursorFits globals context) state)
    (enabled : step.Enabled state) (below : RequestsBelowKey ph globals state step) :
    ForLive (fun _ context _ => CursorFits globals context)
      ((worker globals).step state step) := by
  cases step with
  | accept fd malloced added =>
      refine cursors.accepts added ?_
      have new := johnnyAllocatesConnection_new state.memory fd malloced
      refine ⟨new.fits, fun pending => ?_⟩
      rw [new.responseLength] at pending
      exact absurd pending (Nat.lt_irrefl 0)
  | turn ctx turn =>
      refine (cursors.takesTurn_iff globals ctx turn).mpr (fun _ => ?_)
      exact CursorFits.processes hashed (cursors ctx enabled) below

end

/-- In every run of a worker in which for every requested name some key lies in
its bin or above, whatever the results of the calls: at every step and in the
end, the pointer and the length of every live context meet at the end of a
complete response, and every `send` is offered the rest of one, and has it all. -/
theorem response_cursor (globals : Globals) (keys : List Bytes) (ph : ChdPh keys)
    (hashed : Hashed globals ph) (steps : List WorkerStep)
    (run : (worker globals).Run WorkerState.zero steps)
    (below : (worker globals).Throughout (RequestsBelowKey ph globals) WorkerState.zero steps) :
    (worker globals).Throughout (KeepsCursors globals) WorkerState.zero steps ∧
      forall ctx, ctx ∈ ((worker globals).after WorkerState.zero steps).live ->
        CursorInPlace globals
          (((worker globals).after WorkerState.zero steps).memory.contexts ctx) := by
  let belowKeys := (worker globals).restrict (RequestsBelowKey ph globals)
  have both : belowKeys.Run WorkerState.zero steps :=
    ((worker globals).restrict_run (RequestsBelowKey ph globals) _ _).mpr ⟨run, below⟩
  have keeps : forall state step,
      ForLive (fun _ context _ => CursorFits globals context) state ->
      belowKeys.enabled state step ->
      ForLive (fun _ context _ => CursorFits globals context) (belowKeys.step state step) :=
    fun state step cursors enabled => cursorFits_step hashed cursors enabled.1 enabled.2
  constructor
  · have always := belowKeys.invariant_throughout keeps ForLive.zero both
    rw [Machine.restrict_throughout] at always
    have enabledToo := (worker globals).throughout_and.mpr
      ⟨always, (worker globals).throughout_and.mpr ⟨run, below⟩⟩
    refine (worker globals).throughout_imp ?_ enabledToo
    rintro state step ⟨cursors, enabled, belowNow⟩
    refine ⟨fun ctx live => (cursors ctx live).inPlace, ?_⟩
    rintro ctx turn rfl
    exact CursorFits.sendsOnlyRest hashed (cursors ctx enabled) belowNow
  · have last := belowKeys.invariant_after keeps ForLive.zero both
    exact fun ctx live => (last ctx live).inPlace

/-- The names of two files, and one of a file that is not in the table. -/
def strayNames : Heap :=
  (twoNames.allocate (stringCells (ascii "c"))).2

/-- A table of two files, with what may be left of a third one behind it. -/
def strayGlobals : Globals :=
  Globals.ofTable (twoFiles.map some) (fun _ => ⟨⟨1, 0⟩, ascii "stray", 5⟩) (chdSearch twoBins)
    strayNames

theorem strayGlobals_hashed : Hashed strayGlobals twoBins where
  search := rfl
  count := rfl
  distinct := by decide
  sized := by
    have sizes : forall index : Fin 2,
        (strayGlobals.johnnyFiles index).responseLength =
          (strayGlobals.johnnyFiles index).response.length := by
      decide
    exact fun index inside => sizes ⟨index, inside⟩

/-- A request for a file, whose response is sent in two turns. -/
def secondFileSteps : List WorkerStep :=
  [.accept 5 unusedMalloced true,
    .turn (.stack 0)
      ⟨epollin, [.received (ascii "GET /b HTTP/1.1\r\n\r\n")], [.accepted 10]⟩,
    .turn (.stack 0) ⟨epollout, [], [.accepted 5]⟩]

theorem response_cursor_secondFileSteps :
    (worker strayGlobals).Throughout (KeepsCursors strayGlobals) WorkerState.zero
      secondFileSteps :=
  (response_cursor strayGlobals _ twoBins strayGlobals_hashed secondFileSteps (by decide)
    (by decide)).1

/-- A request for the third file, and a socket that does not take the response. -/
def straySteps : List WorkerStep :=
  [.accept 5 unusedMalloced true,
    .turn (.stack 0) ⟨epollin, [.received (ascii "GET /c HTTP/1.1\r\n\r\n")], []⟩]

/-- What is left to send is no part of a response of the table. -/
theorem not_response_cursor_stray :
    ¬ forall steps, (worker strayGlobals).Run WorkerState.zero steps ->
      forall ctx, ctx ∈ ((worker strayGlobals).after WorkerState.zero steps).live ->
        CursorInPlace strayGlobals
          (((worker strayGlobals).after WorkerState.zero steps).memory.contexts ctx) := by
  intro always
  rcases always straySteps (by decide) (.stack 0) (by decide) (by decide) with
    ⟨response, complete, object, -⟩
  have stray : response = ascii "stray" := object.symm.trans (by decide)
  rw [stray] at complete
  generalize same : ascii "stray" = sent at complete
  cases complete with
  | notFound => exact absurd same (by decide)
  | file fileName inside key size =>
      have small : johnnyFileIndex strayGlobals fileName < 2 := inside
      have first : (strayGlobals.johnnyFiles 0).response ≠ ascii "stray" := by decide
      have second : (strayGlobals.johnnyFiles 1).response ≠ ascii "stray" := by decide
      generalize johnnyFileIndex strayGlobals fileName = index at small same
      have either : index = 0 ∨ index = 1 := by omega
      rcases either with rfl | rfl
      · exact first same.symm
      · exact second same.symm

end Worker
end Johnny
