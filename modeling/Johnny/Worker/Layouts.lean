import Johnny.Worker.Buffers
import Johnny.Worker.Progress

namespace Johnny
namespace Worker

open Library

/-!
# The two layouts of a context

A connection keeps its buffer and its response length in a slot of the worker,
or, when it found none, in an extension from `malloc` whose pointer shares a
union with the response length.  Seen from outside the two are alike: the same
events and the same results of the calls lead to the same calls.

Two connections are alike when they have the same fields and the same bytes in
the part of their buffers that was received and is still to be parsed.  What
lies elsewhere in the buffers, uninitialised or used by others, is never
looked at.
-/

/-- The parser finds the same fields and the same bytes. -/
structure AlikeParsers (left right : Connection) : Prop where
  prefixCounter : left.ctx.prefixCounter = right.ctx.prefixCounter
  bufferOffset : left.ctx.bufferOffset = right.ctx.bufferOffset
  bufferSize : left.ctx.bufferSize = right.ctx.bufferSize
  bytes : forall position, 0 ≤ position -> position < right.ctx.bufferSize ->
    left.getBuffer position = right.getBuffer position

/-- Two connections that differ at most in where they keep their data.  A new
context has no response yet, and its pointer is not set. -/
structure Alike (left right : Connection) : Prop where
  parsers : AlikeParsers left right
  inRange : ParserInRange left
  flags : left.ctx.flags = right.ctx.flags
  response : 0 < getResponseLength right.ctx -> left.ctx.response = right.ctx.response
  responseLength : getResponseLength left.ctx = getResponseLength right.ctx
  leftFits : ConnectionContext.TailFits left.ctx
  rightFits : ConnectionContext.TailFits right.ctx
  sends : left.sends = right.sends
  calls : left.calls = right.calls

/-- A function gives the same answer on both connections and leaves them
alike. -/
def AlikeResults {Answer : Type} (R : Connection -> Connection -> Prop)
    (left right : Answer × Connection) : Prop :=
  left.1 = right.1 ∧ R left.2 right.2

/-- The bytes of the buffer are found through `index` and the union alone. -/
theorem getBuffer_congr {before after : Connection} (index : after.ctx.index = before.ctx.index)
    (tail : after.ctx.tail = before.ctx.tail)
    (array : after.stackDataBuffer = before.stackDataBuffer) :
    after.getBuffer = before.getBuffer := by
  unfold Connection.getBuffer Connection.bufferBase
  rw [index, tail, array]

theorem startsFileName_alike {left right : Connection} (alike : AlikeParsers left right)
    (leftFits : ConnectionContext.TailFits left.ctx)
    (rightFits : ConnectionContext.TailFits right.ctx)
    {bytesParsed : Int} (nonneg : 0 ≤ bytesParsed) :
    AlikeResults AlikeParsers (startsFileName left bytesParsed)
      (startsFileName right bytesParsed) := by
  have search : memchr left.getBuffer 32 bytesParsed (right.ctx.bufferSize - bytesParsed).toNat =
      memchr right.getBuffer 32 bytesParsed (right.ctx.bufferSize - bytesParsed).toNat := by
    apply memchr_congr
    intro address lower upper
    exact alike.bytes address (by omega) (by omega)
  unfold startsFileName
  dsimp only
  rw [alike.bufferSize, search]
  by_cases short : right.ctx.bufferSize ≤ bytesParsed
  · rw [if_pos short, if_pos short]
    refine ⟨rfl, rfl, rfl, rfl, ?_⟩
    intro position lower upper
    exact absurd upper (Int.not_lt_of_ge lower)
  · rw [if_neg short, if_neg short]
    cases memchr right.getBuffer 32 bytesParsed (right.ctx.bufferSize - bytesParsed).toNat with
    | none =>
        refine ⟨rfl, ?_, ?_, ?_, ?_⟩
        · rw [Connection.writeBuffer_prefixCounter, Connection.writeBuffer_prefixCounter]
        · rw [Connection.writeBuffer_bufferOffset, Connection.writeBuffer_bufferOffset]
        · rw [Connection.writeBuffer_bufferSize, Connection.writeBuffer_bufferSize]
        · intro position lower upper
          rw [Connection.writeBuffer_bufferSize] at upper
          exact absurd upper (Int.not_lt_of_ge lower)
    | some endOfFilename =>
        have sizes := Connection.writeBuffer_bufferSize right endOfFilename [0]
        refine ⟨rfl, rfl, rfl, ?_, ?_⟩
        · exact (Connection.writeBuffer_bufferSize left _ _).trans
            (alike.bufferSize.trans sizes.symm)
        · intro position lower upper
          have inside : position < right.ctx.bufferSize := sizes ▸ upper
          change (left.writeBuffer endOfFilename [0]).getBuffer position =
            (right.writeBuffer endOfFilename [0]).getBuffer position
          rw [Connection.getBuffer_writeBuffer leftFits, Connection.getBuffer_writeBuffer rightFits]
          exact writeBytes_congr (alike.bytes position lower inside) _ _

/-- The induction is on the bytes that are left. -/
theorem filenameLoop_alike {left right : Connection} (alike : AlikeParsers left right)
    (leftFits : ConnectionContext.TailFits left.ctx)
    (rightFits : ConnectionContext.TailFits right.ctx)
    (count : Nat) {start prefixCounter : Int} (size : count = (right.ctx.bufferSize - start).toNat)
    (nonneg : 0 ≤ start) (upper : prefixCounter ≤ 9) :
    AlikeResults AlikeParsers (filenameLoop left count start prefixCounter)
      (filenameLoop right count start prefixCounter) := by
  induction count generalizing start prefixCounter with
  | zero =>
      refine ⟨rfl, rfl, rfl, rfl, ?_⟩
      intro position lower upper
      exact absurd upper (Int.not_lt_of_ge lower)
  | succ count ih =>
      have here := alike.bytes start nonneg (by omega)
      rw [filenameLoop, filenameLoop, here]
      split_ifs
      · exact startsFileName_alike alike leftFits rightFits (by omega)
      · exact ih (by omega) (by omega) (by omega)
      · exact ih (by omega) (by omega) (by omega)

/-- What the parser and `recv` leave alone stays alike. -/
theorem Alike.of_sameCursor {left right leftAfter rightAfter : Connection}
    (alike : Alike left right) (leftSame : SameCursor left leftAfter)
    (rightSame : SameCursor right rightAfter) (parsers : AlikeParsers leftAfter rightAfter)
    (inRange : ParserInRange leftAfter)
    (calls : leftAfter.calls = rightAfter.calls) : Alike leftAfter rightAfter where
  parsers := parsers
  inRange := inRange
  flags := leftSame.flags.trans (alike.flags.trans rightSame.flags.symm)
  response := by
    intro pending
    rw [rightSame.responseLength] at pending
    exact leftSame.response.trans ((alike.response pending).trans rightSame.response.symm)
  responseLength := leftSame.responseLength.trans
    (alike.responseLength.trans rightSame.responseLength.symm)
  leftFits := leftSame.tailFits.mpr alike.leftFits
  rightFits := rightSame.tailFits.mpr alike.rightFits
  sends := leftSame.sends.trans (alike.sends.trans rightSame.sends.symm)
  calls := calls

theorem Alike.johnnyFindsFilename {left right : Connection} (alike : Alike left right) :
    AlikeResults Alike (johnnyFindsFilename left) (johnnyFindsFilename right) := by
  have parsers : AlikeResults AlikeParsers (Worker.johnnyFindsFilename left)
      (Worker.johnnyFindsFilename right) := by
    unfold Worker.johnnyFindsFilename
    rw [alike.parsers.bufferSize, alike.parsers.bufferOffset, alike.parsers.prefixCounter]
    apply filenameLoop_alike alike.parsers alike.leftFits alike.rightFits _ rfl
    · rw [← alike.parsers.bufferOffset]
      exact alike.inRange.offset_nonneg
    · rw [← alike.parsers.prefixCounter]
      exact alike.inRange.counter_le
  rcases johnnyFindsFilename_same left with ⟨leftSame, leftCalls⟩
  rcases johnnyFindsFilename_same right with ⟨rightSame, rightCalls⟩
  exact ⟨parsers.1, alike.of_sameCursor leftSame rightSame parsers.2 alike.inRange.finds
    (leftCalls.trans (alike.calls.trans rightCalls.symm))⟩

/-- The file name that was found is the same string: it ends inside the bytes
that are the same. -/
theorem Alike.fileNameAt {left right c : Connection} {start position : Int}
    (alike : Alike left right) (returns : ReturnsName c left start position) (nonneg : 0 ≤ start) :
    left.fileNameAt position = right.fileNameAt position := by
  have starts := returns.starts
  have inside := returns.inside
  have bounded := returns.bounded
  have small := alike.inRange.size_le
  have sizes := alike.parsers.bufferSize
  have agree : forall address, position ≤ address -> address < left.ctx.bufferOffset ->
      left.getBuffer address = right.getBuffer address := by
    intro address lower upper
    exact alike.parsers.bytes address (by omega) (by omega)
  have last : position + ((left.ctx.bufferOffset - 1 - position).toNat : Int) =
      left.ctx.bufferOffset - 1 := by
    omega
  have enough : (left.ctx.bufferOffset - 1 - position).toNat < johnnyBufferSize := by omega
  have leftEnds : left.getBuffer (position + ((left.ctx.bufferOffset - 1 - position).toNat : Int)) =
      0 := by
    rw [last]
    exact returns.terminated
  have rightEnds : right.getBuffer
      (position + ((left.ctx.bufferOffset - 1 - position).toNat : Int)) = 0 := by
    rw [← leftEnds, last]
    exact (agree _ (by omega) (by omega)).symm
  unfold Connection.fileNameAt
  rw [bytesUntil_eq _ 0 position _ _ enough leftEnds,
    bytesUntil_eq _ 0 position _ _ enough rightEnds]
  congr 1
  apply readBytes_congr
  intro address lower upper
  exact agree address lower (by omega)

/-- Storing a response length does not touch the buffer next to it. -/
theorem getBuffer_setResponseLength (c : Connection) (response : ResponsePointer) (length : Nat)
    (sends : List SendResult) (calls : List Call) :
    Connection.getBuffer { c with
      ctx := setResponseLength { c.ctx with response := response } length
      sends := sends
      calls := calls } = c.getBuffer := by
  by_cases onHeap : c.ctx.index = johnnyStackConnections
  · cases tail : c.ctx.tail with
    | extension extension =>
        unfold setResponseLength Connection.getBuffer
        dsimp only
        rw [if_pos onHeap, tail]
        dsimp only
        rw [if_pos onHeap, if_pos onHeap]
    | responseLength old =>
        unfold setResponseLength
        dsimp only
        rw [if_pos onHeap, tail]
        exact getBuffer_congr rfl tail.symm rfl
  · have stored : setResponseLength { c.ctx with response := response } length =
        { c.ctx with response := response, tail := .responseLength length } := if_neg onHeap
    rw [stored, Connection.getBuffer_stack onHeap]
    exact Connection.getBuffer_stack onHeap

theorem Alike.setsResponse {left right : Connection} (alike : Alike left right)
    {leftResponse rightResponse : ResponsePointer} {length : Nat}
    (same : 0 < length -> leftResponse = rightResponse)
    {leftSends rightSends : List SendResult} (sends : leftSends = rightSends)
    {leftCalls rightCalls : List Call} (calls : leftCalls = rightCalls) :
    Alike
      { left with
        ctx := setResponseLength { left.ctx with response := leftResponse } length
        sends := leftSends
        calls := leftCalls }
      { right with
        ctx := setResponseLength { right.ctx with response := rightResponse } length
        sends := rightSends
        calls := rightCalls } := by
  have leftSame := @setResponseLength_sameParser left leftResponse length leftSends leftCalls
  have rightSame := @setResponseLength_sameParser right rightResponse length rightSends rightCalls
  have leftFits : ConnectionContext.TailFits { left.ctx with response := leftResponse } :=
    alike.leftFits
  have rightFits : ConnectionContext.TailFits { right.ctx with response := rightResponse } :=
    alike.rightFits
  have parsers := alike.parsers
  refine ⟨⟨?_, ?_, ?_, ?_⟩, alike.inRange.congr leftSame, ?_, ?_, ?_, leftSame.fits alike.leftFits,
    rightSame.fits alike.rightFits, sends, calls⟩
  · exact leftSame.prefixCounter.trans (parsers.prefixCounter.trans rightSame.prefixCounter.symm)
  · exact leftSame.bufferOffset.trans (parsers.bufferOffset.trans rightSame.bufferOffset.symm)
  · exact leftSame.bufferSize.trans (parsers.bufferSize.trans rightSame.bufferSize.symm)
  · intro position lower upper
    rw [rightSame.bufferSize] at upper
    rw [getBuffer_setResponseLength, getBuffer_setResponseLength]
    exact parsers.bytes position lower upper
  · rw [setResponseLength_flags, setResponseLength_flags]
    exact alike.flags
  · rw [setResponseLength_response, setResponseLength_response, getResponseLength_set rightFits]
    exact same
  · rw [getResponseLength_set leftFits, getResponseLength_set rightFits]

/-- The calls to come and the calls made are no part of the layouts. -/
theorem Alike.setsCalls {left right : Connection} (alike : Alike left right)
    {leftSends rightSends : List SendResult} (sends : leftSends = rightSends)
    {leftCalls rightCalls : List Call} (calls : leftCalls = rightCalls) :
    Alike { left with sends := leftSends, calls := leftCalls }
      { right with sends := rightSends, calls := rightCalls } where
  parsers := ⟨alike.parsers.prefixCounter, alike.parsers.bufferOffset, alike.parsers.bufferSize,
    alike.parsers.bytes⟩
  inRange := ⟨alike.inRange.offset_nonneg, alike.inRange.size_le, alike.inRange.counter_nonneg,
    alike.inRange.counter_le⟩
  flags := alike.flags
  response := alike.response
  responseLength := alike.responseLength
  leftFits := alike.leftFits
  rightFits := alike.rightFits
  sends := sends
  calls := calls

/-- With nothing to send, the pointer is not looked at. -/
theorem Alike.unsent {left right : Connection} (alike : Alike left right) :
    left.unsent = right.unsent := by
  unfold Connection.unsent
  rw [alike.responseLength]
  rcases Nat.eq_zero_or_pos (getResponseLength right.ctx) with none | pending
  · unfold ResponsePointer.read
    rw [none, List.take_zero, List.take_zero]
  · rw [alike.response pending]

theorem Alike.selectsResponse {left right : Connection} (alike : Alike left right)
    (globals : Globals) (fileName : Bytes) : Alike (left.selectsResponse globals fileName)
    (right.selectsResponse globals fileName) := by
  unfold Connection.selectsResponse
  exact alike.setsResponse (fun _ => rfl) alike.sends (by rw [alike.calls, alike.unsent])

theorem Alike.johnnySendsBytes {left right : Connection} (alike : Alike left right) :
    AlikeResults Alike (johnnySendsBytes left) (johnnySendsBytes right) := by
  have offered : left.ctx.response.read (getResponseLength left.ctx) =
      right.ctx.response.read (getResponseLength right.ctx) := alike.unsent
  unfold Worker.johnnySendsBytes
  dsimp only
  rw [offered, alike.sends, alike.responseLength, alike.calls]
  cases right.sends.headD (.failed eagain) with
  | failed errno => exact ⟨rfl, alike.setsCalls rfl rfl⟩
  | accepted count =>
      refine ⟨rfl, alike.setsResponse ?_ rfl rfl⟩
      intro pending
      rw [alike.response (Nat.lt_of_lt_of_le pending (Nat.sub_le _ _))]

theorem Alike.johnnySendsResponse {left right : Connection} (alike : Alike left right)
    (globals : Globals) (fileName : Bytes) :
    AlikeResults Alike (johnnySendsResponse globals left fileName)
      (johnnySendsResponse globals right fileName) :=
  (alike.selectsResponse globals fileName).johnnySendsBytes

theorem Alike.handlesRequestsLoop (globals : Globals) (fuel : Nat) {left right : Connection}
    (alike : Alike left right) :
    AlikeResults Alike (Worker.handlesRequestsLoop globals fuel left)
      (Worker.handlesRequestsLoop globals fuel right) := by
  induction fuel generalizing left right with
  | zero => exact ⟨rfl, alike⟩
  | succ fuel ih =>
      have progresses := johnnyFindsFilename_progresses alike.inRange
      have nonneg := alike.inRange.offset_nonneg
      have finds := alike.johnnyFindsFilename
      rw [Worker.handlesRequestsLoop, Worker.handlesRequestsLoop]
      generalize Worker.johnnyFindsFilename left = leftFinding at progresses finds ⊢
      generalize Worker.johnnyFindsFilename right = rightFinding at finds ⊢
      rcases leftFinding with ⟨position, leftFound⟩
      rcases rightFinding with ⟨other, rightFound⟩
      rcases finds with ⟨rfl, found⟩
      cases position with
      | none => exact ⟨rfl, found⟩
      | some position =>
          have sends := found.johnnySendsResponse globals (leftFound.fileNameAt position)
          dsimp only at found sends ⊢
          rw [← found.fileNameAt progresses nonneg]
          generalize Worker.johnnySendsResponse globals leftFound _ = leftSending at sends ⊢
          generalize Worker.johnnySendsResponse globals rightFound _ = rightSending at sends ⊢
          rcases leftSending with ⟨exit, leftSent⟩
          rcases rightSending with ⟨otherExit, rightSent⟩
          rcases sends with ⟨rfl, sent⟩
          cases exit with
          | failure => exact ⟨rfl, sent⟩
          | success => exact ih sent

theorem Alike.johnnyHandlesRequests {left right : Connection} (alike : Alike left right)
    (globals : Globals) : AlikeResults Alike (Worker.johnnyHandlesRequests globals left)
      (Worker.johnnyHandlesRequests globals right) :=
  alike.handlesRequestsLoop globals _

/-- What a connection finds at the beginning of its buffer after a `recv`. -/
structure Stores (before after : Connection) (chunk : Bytes) : Prop where
  prefixCounter : after.ctx.prefixCounter = before.ctx.prefixCounter
  bufferOffset : after.ctx.bufferOffset = 0
  bufferSize : after.ctx.bufferSize = chunk.length
  buffer : after.getBuffer = writeBytes before.getBuffer 0 chunk
  calls : after.calls = before.calls ++ [.recv johnnyBufferSize (.received chunk)]

theorem receives_stores {c : Connection} (fits : ConnectionContext.TailFits c.ctx)
    (start : c.ctx.bufferOffset = 0)
    (bytes : Bytes) : Stores c (receives c (.received bytes)) (bytes.take johnnyBufferSize) := by
  have space : ((johnnyBufferSize : Int) - 0).toNat = johnnyBufferSize := rfl
  unfold receives
  dsimp only
  rw [start, space]
  refine ⟨Connection.writeBuffer_prefixCounter _ _ _,
    (Connection.writeBuffer_bufferOffset _ _ _).trans start, rfl, ?_,
    rfl⟩
  exact (getBuffer_congr rfl rfl rfl).trans (Connection.getBuffer_writeBuffer fits _ _)

/-- What is stored at the beginning of both buffers is all that they are then
said to hold. -/
theorem Alike.receives {left right : Connection} (alike : Alike left right)
    (start : right.ctx.bufferOffset = 0)
    (result : RecvResult) : Alike (receives left result) (receives right result) := by
  have offset := alike.parsers.bufferOffset
  have ranges := alike.inRange
  cases result with
  | failed errno =>
      have size : (Worker.receives right (.failed errno)).ctx.bufferSize = -1 := rfl
      apply alike.of_sameCursor (receives_same left _) (receives_same right _)
      · refine ⟨alike.parsers.prefixCounter, offset, rfl, ?_⟩
        intro position lower upper
        omega
      · refine ⟨ranges.offset_nonneg, ?_, ranges.counter_nonneg, ranges.counter_le⟩
        exact Int.le_of_lt (size ▸ (by decide : (-1 : Int) < johnnyBufferSize))
      · unfold Worker.receives
        dsimp only
        rw [alike.calls, offset]
  | received bytes =>
      have small : (bytes.take johnnyBufferSize).length ≤ johnnyBufferSize :=
        List.length_take_le _ _
      have stores := receives_stores alike.rightFits start bytes
      have leftStores := receives_stores alike.leftFits (offset.trans start) bytes
      have counter := leftStores.prefixCounter
      apply alike.of_sameCursor (receives_same left _) (receives_same right _)
      · refine ⟨?_, ?_, ?_, ?_⟩
        · exact counter.trans (alike.parsers.prefixCounter.trans stores.prefixCounter.symm)
        · exact leftStores.bufferOffset.trans stores.bufferOffset.symm
        · exact leftStores.bufferSize.trans stores.bufferSize.symm
        · intro position lower upper
          rw [stores.bufferSize] at upper
          have place : position = 0 + (position.toNat : Int) := by omega
          rw [leftStores.buffer, stores.buffer, place, writeBytes_inside _ _ _ _ (by omega),
            writeBytes_inside _ _ _ _ (by omega)]
      · refine ⟨?_, ?_, ?_, ?_⟩
        · rw [leftStores.bufferOffset]
        · rw [leftStores.bufferSize]
          exact Int.ofNat_le.mpr small
        · rw [counter]
          exact ranges.counter_nonneg
        · rw [counter]
          exact ranges.counter_le
      · rw [leftStores.calls, stores.calls, alike.calls]

/-- One round of the receiving loop.  Unless the connection is closed, the
buffer has been given up. -/
theorem Alike.receivesOnce {left right : Connection} (alike : Alike left right)
    (empty : ReturnsNull left) (globals : Globals) (result : RecvResult) :
    AlikeResults Alike (receivesOnce globals left result) (receivesOnce globals right result) ∧
      ((Worker.receivesOnce globals left result).1 ≠ .closed ->
        ReturnsNull (Worker.receivesOnce globals left result).2) := by
  have start : right.ctx.bufferOffset = 0 :=
    alike.parsers.bufferOffset.symm.trans empty.bufferOffset
  have received := alike.receives start result
  have handled := received.johnnyHandlesRequests globals
  have gives : forall after, Worker.johnnyHandlesRequests globals (Worker.receives left result) =
    (.success, after) ->
      ReturnsNull after := fun after success =>
        johnnyHandlesRequests_success received.inRange success
  unfold Worker.receivesOnce
  dsimp only
  rw [received.parsers.bufferSize, alike.parsers.bufferOffset]
  by_cases none : (Worker.receives right result).ctx.bufferSize = 0
  · rw [if_pos none, if_pos none]
    exact ⟨⟨rfl, received⟩, fun kept => absurd rfl kept⟩
  · rw [if_neg none, if_neg none]
    generalize Worker.johnnyHandlesRequests globals (Worker.receives left result) = leftHandling
      at handled gives ⊢
    generalize Worker.johnnyHandlesRequests globals (Worker.receives right result) = rightHandling
      at handled ⊢
    rcases leftHandling with ⟨exit, leftAfter⟩
    rcases rightHandling with ⟨otherExit, rightAfter⟩
    rcases handled with ⟨rfl, after⟩
    cases exit with
    | failure => exact ⟨⟨rfl, after⟩, fun kept => absurd rfl kept⟩
    | success =>
        have rest := gives leftAfter rfl
        dsimp only at after ⊢
        rw [after.flags, after.responseLength]
        split_ifs
        · exact ⟨⟨rfl, after⟩, fun _ => rest⟩
        · exact ⟨⟨rfl, after⟩, fun _ => rest⟩
        · exact ⟨⟨rfl, after⟩, fun _ => rest⟩

/-- Both connections decide alike, and are left alike and with nothing to
parse if they are kept. -/
def AlikeVerdicts (left right : Verdict × Connection) : Prop :=
  AlikeResults Alike left right ∧ (left.1 = .kept -> ReturnsNull left.2)

theorem Alike.receiveLoop (globals : Globals) (recvs : List RecvResult) {left right : Connection}
    (alike : Alike left right) (empty : ReturnsNull left) :
    AlikeVerdicts (receiveLoop globals recvs left) (receiveLoop globals recvs right) := by
  induction recvs generalizing left right with
  | nil =>
      rcases alike.receivesOnce empty globals (.failed eagain) with ⟨⟨rounds, after⟩, rest⟩
      rw [Worker.receiveLoop, Worker.receiveLoop]
      refine ⟨⟨congrArg Round.verdict rounds, after⟩, ?_⟩
      intro kept
      apply rest
      intro closed
      rw [closed] at kept
      cases kept
  | cons result later ih =>
      have once := alike.receivesOnce empty globals result
      rw [Worker.receiveLoop, Worker.receiveLoop]
      generalize Worker.receivesOnce globals left result = leftRound at once ⊢
      generalize Worker.receivesOnce globals right result = rightRound at once ⊢
      rcases leftRound with ⟨round, leftAfter⟩
      rcases rightRound with ⟨otherRound, rightAfter⟩
      rcases once with ⟨⟨rfl, after⟩, rest⟩
      cases round with
      | closed => exact ⟨⟨rfl, after⟩, fun kept => by cases kept⟩
      | drained => exact ⟨⟨rfl, after⟩, fun _ => rest (fun closed => by cases closed)⟩
      | more => exact ih after (rest (fun closed => by cases closed))

theorem Alike.reports {left right : Connection} (alike : Alike left right) (events : BitVec 32) :
    Alike (left.reports events) (right.reports events) where
  parsers := ⟨alike.parsers.prefixCounter, alike.parsers.bufferOffset, alike.parsers.bufferSize,
    alike.parsers.bytes⟩
  inRange := alike.inRange.congr (reports_sameParser left events)
  flags := congrArg (fun flags => flags ||| (events &&& epollrdhup).setWidth 16) alike.flags
  response := alike.response
  responseLength := alike.responseLength
  leftFits := alike.leftFits
  rightFits := alike.rightFits
  sends := alike.sends
  calls := alike.calls

theorem ReturnsNull.congr {before after : Connection} (empty : ReturnsNull before)
    (same : SameParser before after) : ReturnsNull after where
  bufferOffset := same.bufferOffset.trans empty.bufferOffset
  bufferSize := same.bufferSize.trans empty.bufferSize
  counter_nonneg := same.prefixCounter ▸ empty.counter_nonneg
  counter_le := same.prefixCounter ▸ empty.counter_le

theorem Alike.resumesSending {left right : Connection} (alike : Alike left right)
    (events : BitVec 32) :
    AlikeResults Alike (resumesSending events left) (resumesSending events right) := by
  unfold Worker.resumesSending
  rw [alike.responseLength]
  split_ifs
  · exact alike.johnnySendsBytes
  · exact ⟨rfl, alike⟩

theorem Alike.handlesInput {left right : Connection} (alike : Alike left right)
    (empty : ReturnsNull left) (globals : Globals) (events : BitVec 32) (recvs : List RecvResult) :
    AlikeVerdicts (handlesInput globals events recvs left)
      (handlesInput globals events recvs right) := by
  have nothing : right.ctx.bufferSize = 0 := alike.parsers.bufferSize.symm.trans empty.bufferSize
  unfold Worker.handlesInput
  rw [empty.bufferSize, nothing]
  by_cases input : events &&& epollin ≠ 0 ∧ (0 : Int) = 0
  · rw [if_pos input, if_pos input]
    exact alike.receiveLoop globals recvs empty
  · rw [if_neg input, if_neg input, if_neg (not_not.mpr rfl), if_neg (not_not.mpr rfl)]
    exact ⟨⟨rfl, alike⟩, fun _ => empty⟩

/-- A whole event on two connections for which no other is being processed. -/
theorem Alike.handlesEvent {left right : Connection} (alike : Alike left right)
    (empty : ReturnsNull left) (globals : Globals) (events : BitVec 32) (recvs : List RecvResult) :
    AlikeVerdicts (handlesEvent globals events recvs left)
      (handlesEvent globals events recvs right) := by
  have resumed := (alike.reports events).resumesSending events
  have same := (reports_sameParser left events).trans
    (resumesSending_sameParser events (left.reports events))
  unfold Worker.handlesEvent
  generalize Worker.resumesSending events (left.reports events) = leftResuming at resumed same ⊢
  generalize Worker.resumesSending events (right.reports events) = rightResuming at resumed ⊢
  rcases leftResuming with ⟨exit, leftNext⟩
  rcases rightResuming with ⟨otherExit, rightNext⟩
  rcases resumed with ⟨rfl, next⟩
  cases exit with
  | failure => exact ⟨⟨rfl, next⟩, fun kept => by cases kept⟩
  | success => exact next.handlesInput (empty.congr same) globals events recvs

/-! ## Whole connections -/

/-- An event on a connection, with what `stack_data_buffer` holds when it is
processed: other connections may have been served since the one before. -/
structure Visit where
  stackDataBuffer : Int -> UInt8
  turn : Turn

/-- The verdicts and the calls of the events on one connection, up to the one
that closes it. -/
def serves (globals : Globals) : ConnectionContext -> List Visit -> List (Verdict × List Call)
  | _, [] => []
  | ctx, visit :: rest =>
      let processed := handlesEvent globals visit.turn.events visit.turn.recvs
        { ctx := ctx, stackDataBuffer := visit.stackDataBuffer, sends := visit.turn.sends,
          calls := [] }
      (processed.1, processed.2.calls) ::
        match processed.1 with
        | .kept => serves globals processed.2.ctx rest
        | .closed => []

/-- Two contexts for which no event is being processed. -/
structure AlikeContexts (left right : ConnectionContext) : Prop where
  prefixCounter : left.prefixCounter = right.prefixCounter
  counter_nonneg : 0 ≤ left.prefixCounter
  counter_le : left.prefixCounter ≤ 9
  leftEmpty : left.bufferOffset = 0 ∧ left.bufferSize = 0
  rightEmpty : right.bufferOffset = 0 ∧ right.bufferSize = 0
  flags : left.flags = right.flags
  response : 0 < getResponseLength right -> left.response = right.response
  responseLength : getResponseLength left = getResponseLength right
  leftFits : ConnectionContext.TailFits left
  rightFits : ConnectionContext.TailFits right

/-- Whatever the buffers hold, an event finds the connections alike. -/
theorem AlikeContexts.connections {left right : ConnectionContext}
    (alike : AlikeContexts left right) (leftArray rightArray : Int -> UInt8)
    (sends : List SendResult) :
    Alike ⟨left, leftArray, sends, []⟩ ⟨right, rightArray, sends, []⟩ ∧
      ReturnsNull ⟨left, leftArray, sends, []⟩ := by
  rcases alike.leftEmpty with ⟨leftOffset, leftSize⟩
  rcases alike.rightEmpty with ⟨rightOffset, rightSize⟩
  refine ⟨⟨⟨alike.prefixCounter, leftOffset.trans rightOffset.symm, leftSize.trans rightSize.symm,
    ?_⟩,
    ⟨Int.le_of_eq leftOffset.symm, ?_, alike.counter_nonneg, alike.counter_le⟩, alike.flags,
      alike.response,
    alike.responseLength, alike.leftFits, alike.rightFits, rfl, rfl⟩,
    ⟨leftOffset, leftSize, alike.counter_nonneg, alike.counter_le⟩⟩
  · intro position lower upper
    rw [show (Connection.ctx ⟨right, rightArray, sends, []⟩).bufferSize = 0 from rightSize] at upper
    exact absurd upper (Int.not_lt_of_ge lower)
  · rw [show (Connection.ctx ⟨left, leftArray, sends, []⟩).bufferSize = 0 from leftSize]
    decide

theorem Alike.contexts {left right : Connection} (alike : Alike left right)
    (empty : ReturnsNull left) : AlikeContexts left.ctx right.ctx where
  prefixCounter := alike.parsers.prefixCounter
  counter_nonneg := empty.counter_nonneg
  counter_le := empty.counter_le
  leftEmpty := ⟨empty.bufferOffset, empty.bufferSize⟩
  rightEmpty := ⟨alike.parsers.bufferOffset.symm.trans empty.bufferOffset,
    alike.parsers.bufferSize.symm.trans empty.bufferSize⟩
  flags := alike.flags
  response := alike.response
  responseLength := alike.responseLength
  leftFits := alike.leftFits
  rightFits := alike.rightFits

theorem NewContext.alike {left right : ConnectionContext} {leftFd rightFd : Int}
    (leftNew : NewContext left leftFd)
    (rightNew : NewContext right rightFd) : AlikeContexts left right where
  prefixCounter := leftNew.prefixCounter.trans rightNew.prefixCounter.symm
  counter_nonneg := by
    rw [leftNew.prefixCounter]
    decide
  counter_le := by
    rw [leftNew.prefixCounter]
    decide
  leftEmpty := ⟨leftNew.bufferOffset, leftNew.bufferSize⟩
  rightEmpty := ⟨rightNew.bufferOffset, rightNew.bufferSize⟩
  flags := leftNew.flags.trans rightNew.flags.symm
  response := by
    intro pending
    rw [rightNew.responseLength] at pending
    exact absurd pending (Nat.lt_irrefl 0)
  responseLength := leftNew.responseLength.trans rightNew.responseLength.symm
  leftFits := leftNew.fits
  rightFits := rightNew.fits

/-- The induction is on the events of the two connections, which are the same
turns. -/
theorem AlikeContexts.serves (globals : Globals) {left right : ConnectionContext}
    (alike : AlikeContexts left right) {leftVisits rightVisits : List Visit}
    (sameTurns : leftVisits.map Visit.turn = rightVisits.map Visit.turn) :
    serves globals left leftVisits = serves globals right rightVisits := by
  induction leftVisits generalizing left right rightVisits with
  | nil =>
      cases rightVisits with
      | nil => rfl
      | cons visit rest => cases sameTurns
  | cons leftVisit leftRest ih =>
      cases rightVisits with
      | nil => cases sameTurns
      | cons rightVisit rightRest =>
          rcases List.cons.inj sameTurns with ⟨turn, turns⟩
          rcases alike.connections leftVisit.stackDataBuffer rightVisit.stackDataBuffer
            rightVisit.turn.sends with ⟨connections, empty⟩
          have verdicts := connections.handlesEvent empty globals rightVisit.turn.events
            rightVisit.turn.recvs
          rw [Worker.serves, Worker.serves, turn]
          generalize handlesEvent globals _ _ ⟨left, _, _, _⟩ = leftProcessed at verdicts ⊢
          generalize handlesEvent globals _ _ ⟨right, _, _, _⟩ = rightProcessed at verdicts ⊢
          rcases leftProcessed with ⟨verdict, leftAfter⟩
          rcases rightProcessed with ⟨otherVerdict, rightAfter⟩
          rcases verdicts with ⟨⟨rfl, after⟩, rest⟩
          have calls := after.calls
          dsimp only at calls rest ⊢
          rw [calls]
          cases verdict with
          | closed => rfl
          | kept => rw [ih (after.contexts (rest rfl)) turns]

/-- A connection that got its context from `malloc` and one that got it in a
slot make the same calls with the same results and are closed by the same event,
whatever memory they found, if their events and the results of their calls are
the same. -/
theorem heap_stack_alike (globals : Globals) (heapMemory stackMemory : Memory)
    (heapFd stackFd : Int) (heapMalloced stackMalloced : Malloced)
    (onHeap : (johnnyTriesToAllocateConnectionOnStack heapMemory.conBitmap).1 =
      johnnyStackConnections)
    (onStack : (johnnyTriesToAllocateConnectionOnStack stackMemory.conBitmap).1 ≠
      johnnyStackConnections)
    (heapVisits stackVisits : List Visit)
    (sameTurns : heapVisits.map Visit.turn = stackVisits.map Visit.turn) :
    (johnnyAllocatesConnection heapMemory heapFd heapMalloced).1 = .heap heapMalloced.address ∧
      (johnnyAllocatesConnection stackMemory stackFd stackMalloced).1 =
        .stack (johnnyTriesToAllocateConnectionOnStack stackMemory.conBitmap).1 ∧
      serves globals (allocatedConnection heapMemory heapFd heapMalloced).ctx heapVisits =
        serves globals (allocatedConnection stackMemory stackFd stackMalloced).ctx stackVisits := by
  refine ⟨?_, ?_, ?_⟩
  · unfold johnnyAllocatesConnection
    dsimp only
    rw [if_pos onHeap]
  · unfold johnnyAllocatesConnection
    dsimp only
    rw [if_neg onStack]
  · have heapNew := johnnyAllocatesConnection_new heapMemory heapFd heapMalloced
    have stackNew := johnnyAllocatesConnection_new stackMemory stackFd stackMalloced
    exact (heapNew.alike stackNew).serves globals sameTurns

/-- A worker all of whose slots are in use. -/
def fullMemory : Memory :=
  { Memory.zero with conBitmap := fun _ => -1 }

def resumedVisits : List Visit :=
  [⟨fun _ => 0, ⟨epollin, [.received (ascii "GET /index.html HTTP/1.1\r\n\r\n")], [.accepted 20]⟩⟩,
    ⟨fun _ => 65, ⟨epollout, [], [.accepted 18]⟩⟩]

theorem heap_stack_alike_resumed :
    (johnnyAllocatesConnection fullMemory 5 ⟨7, ConnectionContext.zero, fun _ => 66⟩).1 = .heap 7 ∧
      (johnnyAllocatesConnection Memory.zero 6 unusedMalloced).1 = .stack 0 ∧
      serves indexOnly (allocatedConnection fullMemory 5 ⟨7, ConnectionContext.zero, fun _ =>
        66⟩).ctx resumedVisits =
        serves indexOnly (allocatedConnection Memory.zero 6 unusedMalloced).ctx resumedVisits :=
  heap_stack_alike indexOnly fullMemory Memory.zero 5 6 ⟨7, ConnectionContext.zero, fun _ =>
    66⟩ unusedMalloced
    (by decide) (by decide) resumedVisits resumedVisits rfl

/-- The events of a run on one context, with what was done in each, up to the
one that closes its connection. -/
def connectionLife (globals : Globals) (ctx : ContextPointer) :
    WorkerState -> List WorkerStep -> List (Visit × (Verdict × List Call))
  | _, [] => []
  | state, .accept fd malloced added :: rest =>
      connectionLife globals ctx (state.accepts fd malloced added) rest
  | state, .turn other turn :: rest =>
      if other = ctx then
        let processed := state.processes globals ctx turn
        (⟨state.memory.stackDataBuffer, turn⟩, processed.1, processed.2.calls) ::
          match processed.1 with
          | .kept => connectionLife globals ctx (state.takesTurn globals ctx turn) rest
          | .closed => []
      else connectionLife globals ctx (state.takesTurn globals other turn) rest

/-- Whatever else the worker does in between, it serves a connection as if it
were alone, as long as no other connection gets its context. -/
theorem connectionLife_serves (globals : Globals) (ctx : ContextPointer) (steps : List WorkerStep)
    {state : WorkerState} (live : ctx ∈ state.live)
    (unused : (worker globals).Throughout AllocatesUnused state steps) :
    (connectionLife globals ctx state steps).map Prod.snd =
      serves globals (state.memory.contexts ctx)
        ((connectionLife globals ctx state steps).map Prod.fst) := by
  induction steps generalizing state with
  | nil => rfl
  | cons step rest ih =>
      cases step with
      | accept fd malloced added =>
          rcases state.accepts_live live added unused.1 with ⟨stays, context⟩
          rw [connectionLife, ih stays unused.2, context]
      | turn other turn =>
          rw [connectionLife]
          by_cases same : other = ctx
          · subst same
            have later := unused.2
            rw [if_pos rfl]
            dsimp only
            rw [List.map_cons, List.map_cons, serves]
            dsimp only
            change _ = ((state.processes globals other turn).1,
              (state.processes globals other turn).2.calls) ::
              match (state.processes globals other turn).1 with
              | .kept => serves globals (state.processes globals other turn).2.ctx _
              | .closed => []
            cases verdict : (state.processes globals other turn).1 with
            | closed => rfl
            | kept =>
                have stays : other ∈ (state.takesTurn globals other turn).live := by
                  rw [WorkerState.takesTurn_live_of_kept verdict]
                  exact live
                have rest := ih stays later
                rw [WorkerState.takesTurn_contexts, Function.update_self] at rest
                exact congrArg (List.cons _) rest
          · rw [if_neg same]
            have rest := ih (WorkerState.mem_takesTurn_live_of_ne globals live
              (Ne.symm same) turn) unused.2
            rw [WorkerState.takesTurn_contexts, Function.update_of_ne (Ne.symm same)] at rest
            exact rest

end Worker
end Johnny
