import Johnny.Worker.Framing
import Johnny.Worker.Operations

namespace Johnny
namespace Worker

open Library

/-!
# The phases of an event

Between two operations a connection is at the start of the event, or idle, with
nothing received that is still to be parsed, or busy with the bytes of its
buffer, or the event has ended: `recv` reported the end of the stream, or a
`send` failed for good.  The rule of this module goes through the
control flow of an event once: from what the operations do in each phase it
concludes what holds at every operation of the event and at its end.

The number of a busy phase bounds the file names that are still to be found.
It is what makes the loop of `johnny_handles_requests` end before its fuel.
-/

/-- At the end of the buffer the parser gives the buffer up. -/
theorem startsFileName_none {c after : Connection} {bytesParsed : Int}
    (ends : startsFileName c bytesParsed = (none, after)) :
    after.ctx.bufferOffset = 0 ∧ after.ctx.bufferSize = 0 := by
  unfold startsFileName at ends
  dsimp only at ends
  split_ifs at ends with short
  · cases ends
    exact ⟨rfl, rfl⟩
  · cases search : memchr c.getBuffer 32 bytesParsed (c.ctx.bufferSize - bytesParsed).toNat with
    | none =>
        rw [search] at ends
        cases ends
        exact ⟨Connection.writeBuffer_bufferOffset _ _ _, Connection.writeBuffer_bufferSize _ _ _⟩
    | some endOfFilename =>
        rw [search] at ends
        cases ends

theorem filenameLoop_none {c after : Connection} {count : Nat} {bytesParsed prefixCounter : Int}
    (ends : filenameLoop c count bytesParsed prefixCounter = (none, after)) :
    after.ctx.bufferOffset = 0 ∧ after.ctx.bufferSize = 0 := by
  induction count generalizing bytesParsed prefixCounter with
  | zero =>
      cases ends
      exact ⟨rfl, rfl⟩
  | succ count ih =>
      rw [filenameLoop] at ends
      split_ifs at ends
      · exact startsFileName_none ends
      · exact ih ends
      · exact ih ends

theorem johnnyFindsFilename_none {c after : Connection}
    (ends : johnnyFindsFilename c = (none, after)) :
    after.ctx.bufferOffset = 0 ∧ after.ctx.bufferSize = 0 :=
  filenameLoop_none ends

/-- What is true of a connection in each phase.  The flag of an idle or busy
phase says whether another `recv` may follow. -/
structure Conditions where
  start : Connection -> Prop
  idle : Bool -> Connection -> Prop
  busy : Bool -> Nat -> Connection -> Prop
  ended : Connection -> Prop

/-- `recv_more`: the `recv` filled the space that it was offered. -/
def recvMore (c : Connection) (result : RecvResult) : Bool :=
  decide ((receives c result).ctx.bufferSize = (johnnyBufferSize : Int) - c.ctx.bufferOffset)

/-- What the operations do in each phase, and what holds at each of them. -/
structure Phases (globals : Globals) (phase : Conditions) (Good : Connection -> Operation -> Prop) :
    Prop where
  reports : forall c events, phase.start c -> Good c (.reports events) ∧
    phase.start (c.reports events)
  starts : forall c, phase.start c -> phase.idle true c
  resumes : forall c, phase.start c -> Good c .sendsBytes
  resumed : forall c after, phase.start c -> johnnySendsBytes c = (.success, after) ->
    phase.idle true after
  unresumed : forall c after, phase.start c -> johnnySendsBytes c = (.failure, after) ->
    phase.ended after
  leftover : forall c, phase.idle true c -> c.ctx.bufferSize ≠ 0 ->
    Exists fun bytes => bytes ≤ johnnyBufferSize ∧ phase.busy false bytes c
  receives : forall c result, phase.idle true c -> c.ctx.bufferSize = 0 -> Good c (.receives result)
  closes : forall c result, phase.idle true c -> c.ctx.bufferSize = 0 ->
    (Worker.receives c result).ctx.bufferSize = 0 -> phase.ended (Worker.receives c result)
  received : forall c result, phase.idle true c -> c.ctx.bufferSize = 0 ->
    (Worker.receives c result).ctx.bufferSize ≠ 0 -> Exists fun bytes => bytes ≤ johnnyBufferSize ∧
      phase.busy (recvMore c result) bytes (Worker.receives c result)
  finds : forall c more bytes, phase.busy more bytes c -> Good c .findsFilename
  ends : forall c more bytes after, phase.busy more bytes c ->
    johnnyFindsFilename c = (none, after) ->
    phase.idle more after
  selects : forall c more bytes position after, phase.busy more bytes c ->
    johnnyFindsFilename c = (some position, after) -> Good after (.selectsResponse position)
  sends : forall c more bytes position after, phase.busy more bytes c ->
    johnnyFindsFilename c = (some position, after) ->
      Good (after.selectsResponse globals (after.fileNameAt position)) .sendsBytes
  sent : forall c more bytes position after sent, phase.busy more bytes c ->
    johnnyFindsFilename c = (some position, after) ->
      johnnySendsResponse globals after (after.fileNameAt position) = (.success, sent) ->
        Exists fun fewer => fewer < bytes ∧ phase.busy more fewer sent
  unsent : forall c more bytes position after sent, phase.busy more bytes c ->
    johnnyFindsFilename c = (some position, after) ->
      johnnySendsResponse globals after (after.fileNameAt position) = (.failure, sent) ->
        phase.ended sent

/-- How handling the requests of a buffer may end. -/
def Conditions.Handled (phase : Conditions) (more : Bool) (result : Exit × Connection) : Prop :=
  match result with
  | (.success, after) => phase.idle more after ∧ after.ctx.bufferSize = 0
  | (.failure, after) => phase.ended after

/-- How a round of the receiving loop may end. -/
def Conditions.Rounded (phase : Conditions) (result : Round × Connection) : Prop :=
  match result with
  | (.more, after) => phase.idle true after ∧ after.ctx.bufferSize = 0
  | (.drained, after) => phase.idle false after
  | (.closed, after) => phase.idle false after ∨ phase.ended after

/-- How an event may end. -/
def Conditions.Finished (phase : Conditions) (result : Verdict × Connection) : Prop :=
  match result with
  | (.kept, after) => Exists fun more => phase.idle more after
  | (.closed, after) => phase.idle false after ∨ phase.ended after

namespace Phases

variable {globals : Globals} {phase : Conditions} {Good : Connection -> Operation -> Prop}
  (phases : Phases globals phase Good)

include phases

theorem handlesRequestsLoop (fuel : Nat) {more : Bool} {bytes : Nat} {c : Connection}
    (busy : phase.busy more bytes c) (enough : bytes < fuel) :
    (operating globals).Throughout Good c (handlesRequestsLoopOperations globals fuel c) ∧
      phase.Handled more (handlesRequestsLoop globals fuel c) := by
  induction fuel generalizing bytes c with
  | zero => exact absurd enough (Nat.not_lt_zero _)
  | succ fuel ih =>
      have finds := phases.finds c more bytes busy
      have step : (operating globals).step c .findsFilename = (johnnyFindsFilename c).2 := rfl
      rw [handlesRequestsLoopOperations, Worker.handlesRequestsLoop]
      cases found : johnnyFindsFilename c with
      | mk position after =>
        rw [found] at step
        cases position with
        | none =>
            have ends := phases.ends c more bytes after busy found
            exact ⟨⟨finds, trivial⟩, ends, (johnnyFindsFilename_none found).2⟩
        | some position =>
            have selects := phases.selects c more bytes position after busy found
            have sends := phases.sends c more bytes position after busy found
            dsimp only
            rw [Machine.throughout_cons, Machine.throughout_cons, Machine.throughout_cons, step]
            have sending : (operating globals).step
              ((operating globals).step after (.selectsResponse position))
                .sendsBytes = (johnnySendsResponse globals after (after.fileNameAt position)).2 :=
                  rfl
            rw [sending]
            cases sent : johnnySendsResponse globals after (after.fileNameAt position) with
            | mk exit sentAfter =>
              cases exit with
              | failure =>
                  have ended := phases.unsent c more bytes position after sentAfter busy found sent
                  exact ⟨⟨finds, selects, sends, trivial⟩, ended⟩
              | success =>
                  rcases phases.sent c more bytes position after sentAfter busy found sent with
                    ⟨fewer, less, stillBusy⟩
                  rcases ih stillBusy (by omega) with ⟨throughout, ends⟩
                  exact ⟨⟨finds, selects, sends, throughout⟩, ends⟩

theorem johnnyHandlesRequests {more : Bool} {bytes : Nat} {c : Connection}
    (busy : phase.busy more bytes c) (small : bytes ≤ johnnyBufferSize) :
    (operating globals).Throughout Good c (johnnyHandlesRequestsOperations globals c) ∧
      phase.Handled more (johnnyHandlesRequests globals c) :=
  phases.handlesRequestsLoop _ busy (Nat.lt_succ_of_le small)

theorem receivesOnce (result : RecvResult) {c : Connection} (idle : phase.idle true c)
    (empty : c.ctx.bufferSize = 0) :
    (operating globals).Throughout Good c (receivesOnceOperations globals c result) ∧
      phase.Rounded (receivesOnce globals c result) := by
  have receives := phases.receives c result idle empty
  unfold receivesOnceOperations Worker.receivesOnce
  dsimp only
  rw [Machine.throughout_cons]
  have step : (operating globals).step c (.receives result) = Worker.receives c result := rfl
  rw [step]
  by_cases none : (Worker.receives c result).ctx.bufferSize = 0
  · rw [if_pos none, if_pos none]
    exact ⟨⟨receives, trivial⟩, Or.inr (phases.closes c result idle empty none)⟩
  · rcases phases.received c result idle empty none with ⟨bytes, small, busy⟩
    have handled := phases.johnnyHandlesRequests busy small
    rw [if_neg none, if_neg none]
    refine ⟨⟨receives, handled.1⟩, ?_⟩
    have ends := handled.2
    generalize Worker.johnnyHandlesRequests globals (Worker.receives c result) = handling at ends ⊢
    rcases handling with ⟨exit, after⟩
    cases exit with
    | failure => exact Or.inr ends
    | success =>
        unfold Conditions.Handled recvMore at ends
        dsimp only at ends ⊢
        split_ifs with tested full
        · rw [tested.1] at ends
          exact Or.inl ends.1
        · rw [full] at ends
          exact ends
        · rw [Bool.eq_false_of_not_eq_true full] at ends
          exact ends.1

theorem receiveLoop (recvs : List RecvResult) {c : Connection} (idle : phase.idle true c)
    (empty : c.ctx.bufferSize = 0) :
    (operating globals).Throughout Good c (receiveLoopOperations globals recvs c) ∧
      phase.Finished (receiveLoop globals recvs c) := by
  induction recvs generalizing c with
  | nil =>
      have once := phases.receivesOnce (.failed eagain) idle empty
      rw [receiveLoopOperations, Worker.receiveLoop]
      refine ⟨once.1, ?_⟩
      have rounded := once.2
      generalize Worker.receivesOnce globals c (.failed eagain) = receiving at rounded ⊢
      rcases receiving with ⟨round, after⟩
      cases round with
      | more => exact ⟨true, rounded.1⟩
      | drained => exact ⟨false, rounded⟩
      | closed => exact rounded
  | cons result rest ih =>
      have once := phases.receivesOnce result idle empty
      have final := after_receivesOnce globals c result
      rw [receiveLoopOperations, Worker.receiveLoop, Machine.throughout_append, final]
      have rounded := once.2
      refine ⟨⟨once.1, ?_⟩, ?_⟩
      · generalize Worker.receivesOnce globals c result = receiving at rounded ⊢
        rcases receiving with ⟨round, after⟩
        cases round with
        | more => exact (ih rounded.1 rounded.2).1
        | drained => exact trivial
        | closed => exact trivial
      · generalize Worker.receivesOnce globals c result = receiving at rounded ⊢
        rcases receiving with ⟨round, after⟩
        cases round with
        | more => exact (ih rounded.1 rounded.2).2
        | drained => exact ⟨false, rounded⟩
        | closed => exact rounded

theorem handlesInput (events : BitVec 32) (recvs : List RecvResult) {c : Connection}
    (idle : phase.idle true c) :
    (operating globals).Throughout Good c (handlesInputOperations globals events recvs c) ∧
      phase.Finished (handlesInput globals events recvs c) := by
  unfold handlesInputOperations Worker.handlesInput
  split_ifs with input left
  · exact phases.receiveLoop recvs idle input.2
  · rcases phases.leftover c idle left with ⟨bytes, small, busy⟩
    have handled := phases.johnnyHandlesRequests busy small
    refine ⟨handled.1, ?_⟩
    have ends := handled.2
    generalize Worker.johnnyHandlesRequests globals c = handling at ends ⊢
    rcases handling with ⟨exit, after⟩
    cases exit with
    | failure => exact Or.inr ends
    | success => exact ⟨false, ends.1⟩
  · exact ⟨trivial, true, idle⟩

/-- What holds at every operation of an event, and how the event ends. -/
theorem handlesEvent (events : BitVec 32) (recvs : List RecvResult) {c : Connection}
    (start : phase.start c) :
    (operating globals).Throughout Good c (handlesEventOperations globals events recvs c) ∧
      phase.Finished (handlesEvent globals events recvs c) := by
  rcases phases.reports c events start with ⟨reports, reported⟩
  have final := after_resumesSending globals events (c.reports events)
  unfold handlesEventOperations Worker.handlesEvent
  rw [List.cons_append, Machine.throughout_cons, Machine.throughout_append]
  have step : (operating globals).step c (.reports events) = c.reports events := rfl
  rw [step, final]
  have resumes : (operating globals).Throughout Good (c.reports events)
      (resumesSendingOperations events (c.reports events)) := by
    unfold resumesSendingOperations
    split_ifs
    · exact ⟨phases.resumes _ reported, trivial⟩
    · exact trivial
  have ends : match resumesSending events (c.reports events) with
      | (.success, after) => phase.idle true after
      | (.failure, after) => phase.ended after := by
    unfold resumesSending
    split_ifs
    · cases sent : johnnySendsBytes (c.reports events) with
      | mk exit after =>
        cases exit with
        | success => exact phases.resumed _ after reported sent
        | failure => exact phases.unresumed _ after reported sent
    · exact phases.starts _ reported
  generalize resumesSending events (c.reports events) = resuming at ends ⊢
  rcases resuming with ⟨exit, after⟩
  cases exit with
  | failure => exact ⟨⟨reports, resumes, trivial⟩, Or.inr ends⟩
  | success =>
      have input := phases.handlesInput events recvs ends
      exact ⟨⟨reports, resumes, input.1⟩, input.2⟩

end Phases

/-! ## The parser in each phase -/

/-- Nothing is left in the buffer. -/
def ParserIdle (c : Connection) : Prop :=
  Exists fun control => ParserReady c control 0 0

/-- Up to `bytes` bytes of the buffer are still to be parsed.  After a failed
`recv` there are none, and `buffer_size` is `-1`. -/
inductive ParserBusy : Nat -> Connection -> Prop
  | received {c : Connection} {control offset size : Nat}
      (ready : ParserReady c control offset size)
      (nonempty : 0 < size) : ParserBusy (size - offset) c
  | failed {c next : Connection} {control : Nat} (ready : ParserReady c control 0 0)
      (same : next.ctx = { c.ctx with bufferSize := -1 }) : ParserBusy 0 next

/-- What sending leaves of the parser's data. -/
structure SameParser (before after : Connection) : Prop where
  prefixCounter : after.ctx.prefixCounter = before.ctx.prefixCounter
  bufferOffset : after.ctx.bufferOffset = before.ctx.bufferOffset
  bufferSize : after.ctx.bufferSize = before.ctx.bufferSize
  index : after.ctx.index = before.ctx.index
  fits : ConnectionContext.TailFits before.ctx -> ConnectionContext.TailFits after.ctx

theorem setResponseLength_sameParser {c : Connection} (response : ResponsePointer) (length : Nat)
    {sends : List SendResult} {calls : List Call} :
    SameParser c { c with
      ctx := setResponseLength { c.ctx with response := response } length
      sends := sends
      calls := calls } := by
  refine ⟨?_, ?_, ?_, ?_, fun fits =>
    @setResponseLength_fits { c.ctx with response := response } fits length⟩
  all_goals
    unfold setResponseLength
    dsimp only
    split_ifs
    · cases c.ctx.tail <;> rfl
    · rfl

theorem selectsResponse_sameParser (globals : Globals) (c : Connection) (fileName : Bytes) :
    SameParser c (c.selectsResponse globals fileName) :=
  setResponseLength_sameParser _ _

theorem johnnySendsBytes_sameParser (c : Connection) : SameParser c (johnnySendsBytes c).2 := by
  unfold johnnySendsBytes
  cases c.sends.headD (.failed eagain) with
  | failed errno => exact ⟨rfl, rfl, rfl, rfl, id⟩
  | accepted count => exact setResponseLength_sameParser _ _

theorem SameParser.trans {first second third : Connection} (left : SameParser first second)
    (right : SameParser second third) : SameParser first third where
  prefixCounter := right.prefixCounter.trans left.prefixCounter
  bufferOffset := right.bufferOffset.trans left.bufferOffset
  bufferSize := right.bufferSize.trans left.bufferSize
  index := right.index.trans left.index
  fits := fun fits => right.fits (left.fits fits)

theorem johnnySendsResponse_sameParser (globals : Globals) (c : Connection) (fileName : Bytes) :
    SameParser c (johnnySendsResponse globals c fileName).2 :=
  (selectsResponse_sameParser globals c fileName).trans (johnnySendsBytes_sameParser _)

theorem ParserReady.congr {before after : Connection} {control offset size : Nat}
    (ready : ParserReady before control offset size) (same : SameParser before after) :
    ParserReady after control offset size where
  prefixCounter := same.prefixCounter.trans ready.prefixCounter
  bufferOffset := same.bufferOffset.trans ready.bufferOffset
  bufferSize := same.bufferSize.trans ready.bufferSize
  control_le := ready.control_le
  offset_le := ready.offset_le
  size_le := ready.size_le
  fits := same.fits ready.fits

theorem reports_sameParser (c : Connection) (events : BitVec 32) :
    SameParser c (c.reports events) :=
  ⟨rfl, rfl, rfl, rfl, id⟩

theorem resumesSending_sameParser (events : BitVec 32) (c : Connection) :
    SameParser c (resumesSending events c).2 := by
  unfold resumesSending
  split_ifs
  · exact johnnySendsBytes_sameParser c
  · exact ⟨rfl, rfl, rfl, rfl, id⟩

/-- A `recv` into an empty buffer leaves what it received, or the `-1`. -/
theorem ParserIdle.busy {c : Connection} (idle : ParserIdle c) (result : RecvResult)
    (some : (receives c result).ctx.bufferSize ≠ 0) :
    Exists fun bytes => bytes ≤ johnnyBufferSize ∧ ParserBusy bytes (receives c result) := by
  rcases idle with ⟨control, ready⟩
  cases result with
  | failed errno => exact ⟨0, Nat.zero_le _, .failed ready rfl⟩
  | received bytes =>
      have cut : receives c (.received bytes) =
          receives c (.received (bytes.take johnnyBufferSize)) := by
        have space : ((johnnyBufferSize : Int) - (0 : Nat)).toNat = johnnyBufferSize := rfl
        unfold receives
        dsimp only
        rw [ready.bufferOffset, space, List.take_take, Nat.min_self]
      have small : (bytes.take johnnyBufferSize).length ≤ johnnyBufferSize :=
        List.length_take_le _ _
      have received := (receives_ready ready small).1
      rw [cut] at some ⊢
      refine ⟨_, ?_, .received received ?_⟩
      · exact small
      · rw [received.bufferSize] at some
        omega

theorem ParserIdle.closes {c : Connection} (idle : ParserIdle c) (result : RecvResult)
    (none : (receives c result).ctx.bufferSize = 0) : ParserIdle (receives c result) := by
  rcases idle with ⟨control, ready⟩
  cases result with
  | failed errno =>
      have failed : (-1 : Int) = 0 := none
      exact absurd failed (by decide)
  | received bytes =>
      have written := Connection.writeBuffer_sameCursor c c.ctx.bufferOffset
        (bytes.take ((johnnyBufferSize : Int) - c.ctx.bufferOffset).toNat)
      refine ⟨control, ?_, ?_, none, ready.control_le, Nat.le_refl 0, Nat.zero_le _, ?_⟩
      · exact (Connection.writeBuffer_prefixCounter _ _ _).trans ready.prefixCounter
      · exact (Connection.writeBuffer_bufferOffset _ _ _).trans ready.bufferOffset
      · exact written.tailFits.mpr ready.fits

theorem ParserIdle.empty {c : Connection} (idle : ParserIdle c) : c.ctx.bufferSize = 0 := by
  rcases idle with ⟨control, ready⟩
  exact ready.bufferSize

/-- A failed `recv` does not fill the space. -/
theorem ParserIdle.recvMore_failed {c : Connection} (idle : ParserIdle c) (errno : Nat) :
    recvMore c (.failed errno) = false := by
  rcases idle with ⟨control, ready⟩
  have offset : c.ctx.bufferOffset = 0 := ready.bufferOffset
  unfold recvMore
  rw [offset]
  rfl

/-- After a failed `recv` the parser finds nothing. -/
theorem johnnyFindsFilename_failed {c next : Connection} {control : Nat}
    (ready : ParserReady c control 0 0) (same : next.ctx = { c.ctx with bufferSize := -1 }) :
    johnnyFindsFilename next = (none, { next with ctx := c.ctx }) := by
  have nothing : (next.ctx.bufferSize - next.ctx.bufferOffset).toNat = 0 := by
    rw [same]
    dsimp only
    rw [ready.bufferOffset]
    rfl
  have offset : c.ctx.bufferOffset = 0 := ready.bufferOffset
  have size : c.ctx.bufferSize = 0 := ready.bufferSize
  have restored : { next.ctx with bufferOffset := 0, bufferSize := 0 } = c.ctx := by
    rw [same]
    cases ctx : c.ctx
    rw [ctx] at offset size
    dsimp only at offset size ⊢
    rw [offset, size]
  unfold johnnyFindsFilename
  rw [nothing, filenameLoop]
  exact congrArg (fun ctx => (none, { next with ctx := ctx })) restored

theorem ParserBusy.ends {bytes : Nat} {c after : Connection} (busy : ParserBusy bytes c)
    (ends : johnnyFindsFilename c = (none, after)) : ParserIdle after := by
  cases busy with
  | @received _ control offset size ready nonempty =>
      have parses := johnnyFindsFilename_parses ready
      rw [ends] at parses
      rcases parses with ⟨-, -, ended⟩ | ⟨position, used, name, some, -⟩
      · exact ⟨_, ready.ended (requestTokenizer.run_control_le ready.control_le _) ended⟩
      · cases some
  | @failed before _ control ready same =>
      rw [johnnyFindsFilename_failed ready same] at ends
      cases ends
      exact ⟨control, ready.prefixCounter, ready.bufferOffset, ready.bufferSize, ready.control_le,
        Nat.le_refl 0, Nat.zero_le _, ready.fits⟩

/-- A file name takes at least one of the bytes that are left. -/
theorem ParserBusy.found {bytes : Nat} {c after : Connection} {position : Int}
    (busy : ParserBusy bytes c) (found : johnnyFindsFilename c = (some position, after)) :
    Exists fun offset => Exists fun size => 0 < size ∧ size - offset < bytes ∧
      ParserReady after 0 offset size := by
  cases busy with
  | @received _ control offset size ready nonempty =>
      have parses := johnnyFindsFilename_parses ready
      rw [found] at parses
      rcases parses with ⟨none, -⟩ | ⟨other, used, name, -, positive, bound, -, stands⟩
      · cases none
      · exact ⟨offset + used, size, nonempty, by omega, ready.found bound stands⟩
  | @failed before _ control ready same =>
      rw [johnnyFindsFilename_failed ready same] at found
      cases found

/-- Sending its response leaves the parser where the name ended. -/
theorem ParserBusy.responds {globals : Globals} {bytes : Nat} {c after sent : Connection}
    {position : Int} {exit : Exit} (busy : ParserBusy bytes c)
    (found : johnnyFindsFilename c = (some position, after))
    (sends : johnnySendsResponse globals after (after.fileNameAt position) = (exit, sent)) :
    Exists fun offset => Exists fun size => 0 < size ∧ size - offset < bytes ∧
      ParserReady sent 0 offset size := by
  have same := johnnySendsResponse_sameParser globals after (after.fileNameAt position)
  rw [sends] at same
  rcases busy.found found with ⟨offset, size, nonempty, fewer, ready⟩
  exact ⟨offset, size, nonempty, fewer, ready.congr same⟩

end Worker
end Johnny
