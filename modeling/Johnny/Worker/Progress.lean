import Johnny.Library.Loop
import Johnny.Worker.Phases
import Johnny.Worker.ResponseStream

namespace Johnny
namespace Worker

open Library

/-!
# Parsing progresses and ends

Here the parser is followed from every buffer and every context whose fields
are in range, not only from those that a worker reaches.  A call that finds a
file name moves on by at least one byte, and one that finds none gives the
buffer up.  So the loop of `johnny_handles_requests`, which has no counter of
its own, ends whatever the calls of `send` return.
-/

/-- The ranges of the parser's fields.  After a failed `recv` the size is `-1`
and lies below the offset. -/
structure ParserInRange (c : Connection) : Prop where
  offset_nonneg : 0 ≤ c.ctx.bufferOffset
  size_le : c.ctx.bufferSize ≤ johnnyBufferSize
  counter_nonneg : 0 ≤ c.ctx.prefixCounter
  counter_le : c.ctx.prefixCounter ≤ 9

/-- A file name that starts no earlier than `start` was returned.  It ends, as
a C string, at or before the byte in front of the new offset. -/
structure ReturnsName (before after : Connection) (start position : Int) : Prop where
  bufferSize : after.ctx.bufferSize = before.ctx.bufferSize
  prefixCounter : after.ctx.prefixCounter = 0
  starts : start ≤ position
  inside : position < after.ctx.bufferOffset
  bounded : after.ctx.bufferOffset ≤ after.ctx.bufferSize
  terminated : after.getBuffer (after.ctx.bufferOffset - 1) = 0

/-- `NULL` was returned. -/
structure ReturnsNull (after : Connection) : Prop where
  bufferOffset : after.ctx.bufferOffset = 0
  bufferSize : after.ctx.bufferSize = 0
  counter_nonneg : 0 ≤ after.ctx.prefixCounter
  counter_le : after.ctx.prefixCounter ≤ 9

/-- What a call of the parser from `start` on may have done. -/
def Progresses (c : Connection) (start : Int) : Option Int × Connection -> Prop
  | (some position, after) => ReturnsName c after start position
  | (none, after) => ReturnsNull after

/-- Whatever the union holds, the byte that was written is read back as zero:
a context without the buffer that `index` promises reads as zeros. -/
theorem getBuffer_terminator (c : Connection) (position : Int) :
    (c.writeBuffer position [0]).getBuffer position = 0 := by
  have written : forall memory : Int -> UInt8, writeBytes memory position [0] position = 0 := by
    intro memory
    have inside := writeBytes_inside memory position [0] 0 (by simp)
    rwa [Int.natCast_zero, Int.add_zero] at inside
  by_cases fits : ConnectionContext.TailFits c.ctx
  · rw [Connection.getBuffer_writeBuffer fits, written]
  · unfold ConnectionContext.TailFits at fits
    unfold Connection.writeBuffer Connection.getBuffer
    cases tail : c.ctx.tail with
    | extension extension =>
        rw [tail] at fits
        rw [if_neg fits, if_neg fits]
        dsimp only
        unfold Connection.bufferBase
        rw [writeBytes_shift, written]
    | responseLength length =>
        rw [tail] at fits
        rw [if_pos (not_not.mp fits)]
        dsimp only
        rw [if_pos (not_not.mp fits), tail]

/-- The jump to the start of the file name may lead behind the buffer, and then
by at most as many bytes as are left of `GET /`. -/
theorem startsFileName_progresses {c : Connection} {start prefixCounter : Int}
    (inside : start < c.ctx.bufferSize) (lower : 4 ≤ prefixCounter) (upper : prefixCounter ≤ 9) :
    Progresses c start (startsFileName c (start + (9 - prefixCounter))) := by
  unfold startsFileName
  dsimp only
  split_ifs with short
  · refine ⟨rfl, rfl, ?_, ?_⟩
    · dsimp only
      omega
    · dsimp only
      omega
  · cases search : memchr c.getBuffer 32 (start + (9 - prefixCounter))
        (c.ctx.bufferSize - (start + (9 - prefixCounter))).toNat with
    | none =>
        refine ⟨?_, ?_, ?_, ?_⟩
        · rw [Connection.writeBuffer_bufferOffset]
        · rw [Connection.writeBuffer_bufferSize]
        · rw [Connection.writeBuffer_prefixCounter]
          dsimp only
          omega
        · rw [Connection.writeBuffer_prefixCounter]
    | some endOfFilename =>
        rcases memchr_eq_some search with ⟨before, place, bound, -⟩
        have size := Connection.writeBuffer_bufferSize c endOfFilename [0]
        refine ⟨size, rfl, ?_, ?_, ?_, ?_⟩
        · omega
        · dsimp only
          omega
        · dsimp only
          omega
        · have behind : endOfFilename + 1 - 1 = endOfFilename := by omega
          dsimp only
          rw [behind]
          exact getBuffer_terminator c endOfFilename

theorem Progresses.of_later {c : Connection} {start later : Int} {result : Option Int × Connection}
    (order : start ≤ later) (progresses : Progresses c later result) :
      Progresses c start result := by
  rcases result with ⟨position, after⟩
  cases position with
  | none => exact progresses
  | some position => exact { progresses with starts := Int.le_trans order progresses.starts }

/-- The induction is on the bytes that are left.  Behind a byte that is compared
with the pattern the counter is at most 4. -/
theorem filenameLoop_progresses (c : Connection) (count : Nat) {start prefixCounter : Int}
    (left : count = (c.ctx.bufferSize - start).toNat) (lower : 0 ≤ prefixCounter)
    (upper : prefixCounter ≤ 9) :
    Progresses c start (filenameLoop c count start prefixCounter) := by
  induction count generalizing start prefixCounter with
  | zero => exact ⟨rfl, rfl, lower, upper⟩
  | succ count ih =>
      have order : start ≤ start + 1 := by omega
      rw [filenameLoop]
      split_ifs with name equal
      · exact startsFileName_progresses (by omega) name upper
      · exact (ih (by omega) (by omega) (by omega)).of_later order
      · exact (ih (by omega) (Int.le_refl 0) (by omega)).of_later order

theorem johnnyFindsFilename_progresses {c : Connection} (inRange : ParserInRange c) :
    Progresses c c.ctx.bufferOffset (johnnyFindsFilename c) :=
  filenameLoop_progresses c _ rfl inRange.counter_nonneg inRange.counter_le

/-- The next call finds the fields in range again. -/
theorem ParserInRange.finds {c : Connection} (inRange : ParserInRange c) :
    ParserInRange (johnnyFindsFilename c).2 := by
  have progresses := johnnyFindsFilename_progresses inRange
  generalize johnnyFindsFilename c = finding at progresses ⊢
  rcases finding with ⟨position, after⟩
  cases position with
  | none =>
      refine ⟨?_, ?_, progresses.counter_nonneg, progresses.counter_le⟩
      · exact Int.le_of_eq progresses.bufferOffset.symm
      · rw [show after.ctx.bufferSize = 0 from progresses.bufferSize]
        decide
  | some position =>
      have counter : after.ctx.prefixCounter = 0 := progresses.prefixCounter
      have moved := Int.lt_of_le_of_lt progresses.starts progresses.inside
      refine ⟨?_, ?_, ?_, ?_⟩
      · exact Int.le_of_lt (Int.lt_of_le_of_lt inRange.offset_nonneg moved)
      · rw [show after.ctx.bufferSize = c.ctx.bufferSize from progresses.bufferSize]
        exact inRange.size_le
      · exact Int.le_of_eq counter.symm
      · rw [counter]
        decide

theorem ParserInRange.congr {before after : Connection} (inRange : ParserInRange before)
    (same : SameParser before after) : ParserInRange after where
  offset_nonneg := same.bufferOffset ▸ inRange.offset_nonneg
  size_le := same.bufferSize ▸ inRange.size_le
  counter_nonneg := same.prefixCounter ▸ inRange.counter_nonneg
  counter_le := same.prefixCounter ▸ inRange.counter_le

/-! ## The loop -/

/-- The loop of `johnny_handles_requests`: it is left when the parser returns
`NULL` or a response cannot be sent. -/
def requestPass (globals : Globals) (c : Connection) : Pass Connection (Exit × Connection) :=
  match johnnyFindsFilename c with
  | (none, c) => .leave (.success, c)
  | (some position, c) =>
      match johnnySendsResponse globals c (c.fileNameAt position) with
      | (.failure, c) => .leave (.failure, c)
      | (.success, c) => .again c

/-- With a unit of fuel, the model's loop makes one round of the source's. -/
theorem handlesRequestsLoop_succ (globals : Globals) (fuel : Nat) (c : Connection) :
    handlesRequestsLoop globals (fuel + 1) c =
      match requestPass globals c with
      | .leave result => result
      | .again next => handlesRequestsLoop globals fuel next := by
  rw [handlesRequestsLoop]
  unfold requestPass
  generalize johnnyFindsFilename c = finding
  rcases finding with ⟨position, found⟩
  cases position with
  | none => rfl
  | some position =>
      dsimp only
      generalize johnnySendsResponse globals found (found.fileNameAt position) = sending
      rcases sending with ⟨exit, sent⟩
      cases exit with
      | failure => rfl
      | success => rfl

/-- With fuel for the rounds that are made, it is the loop of the source. -/
theorem handlesRequestsLoop_of_leaves {globals : Globals} {c : Connection} {rounds : Nat}
    {result : Exit × Connection} (leaves : Leaves (requestPass globals) c rounds result)
    {fuel : Nat} (enough : rounds < fuel) : handlesRequestsLoop globals fuel c = result := by
  induction leaves generalizing fuel with
  | now leaves =>
      cases fuel with
      | zero => exact absurd enough (Nat.not_lt_zero _)
      | succ fuel => rw [handlesRequestsLoop_succ, leaves]
  | later goes _ ih =>
      cases fuel with
      | zero => exact absurd enough (Nat.not_lt_zero _)
      | succ fuel =>
          rw [handlesRequestsLoop_succ, goes]
          exact ih (Nat.lt_of_succ_lt_succ enough)

/-- The bytes of the buffer that are not yet parsed. -/
def unparsed (c : Connection) : Nat :=
  (c.ctx.bufferSize - c.ctx.bufferOffset).toNat

/-- A round that goes on has found a name, so fewer bytes are left. -/
theorem requestPass_again {globals : Globals} {c next : Connection} (inRange : ParserInRange c)
    (goes : requestPass globals c = .again next) :
      ParserInRange next ∧ unparsed next < unparsed c := by
  have progresses := johnnyFindsFilename_progresses inRange
  have ranges := inRange.finds
  unfold requestPass at goes
  generalize johnnyFindsFilename c = finding at progresses ranges goes
  rcases finding with ⟨position, found⟩
  cases position with
  | none => cases goes
  | some position =>
      have same := johnnySendsResponse_sameParser globals found (found.fileNameAt position)
      dsimp only at goes
      generalize johnnySendsResponse globals found (found.fileNameAt position) = sending
        at same goes
      rcases sending with ⟨exit, sent⟩
      cases exit with
      | failure => cases goes
      | success =>
          cases goes
          refine ⟨ranges.congr same, ?_⟩
          have size : next.ctx.bufferSize = c.ctx.bufferSize :=
            same.bufferSize.trans progresses.bufferSize
          have offset : next.ctx.bufferOffset = found.ctx.bufferOffset := same.bufferOffset
          have moved : c.ctx.bufferOffset < found.ctx.bufferOffset :=
            Int.lt_of_le_of_lt progresses.starts progresses.inside
          have bounded := progresses.bounded
          have sizes := progresses.bufferSize
          unfold unparsed
          omega

/-- The loop ends within as many rounds as there are bytes left, and the model's
loop has fuel for them. -/
theorem requestPass_leaves (globals : Globals) {c : Connection} (inRange : ParserInRange c) :
    Exists fun rounds => rounds ≤ unparsed c ∧
      Leaves (requestPass globals) c rounds (johnnyHandlesRequests globals c) := by
  rcases leaves_of_measure (fun _ _ => requestPass_again) inRange
    with ⟨rounds, result, bound, leaves⟩
  have few : rounds < johnnyBufferSize + 1 := by
    have nonneg := inRange.offset_nonneg
    have small := inRange.size_le
    unfold unparsed at bound
    omega
  refine ⟨rounds, bound, ?_⟩
  unfold johnnyHandlesRequests
  rw [handlesRequestsLoop_of_leaves leaves few]
  exact leaves

/-- When the requests of a buffer were handled, the parser has given it up. -/
theorem johnnyHandlesRequests_success {globals : Globals} {c after : Connection}
    (inRange : ParserInRange c)
    (handled : johnnyHandlesRequests globals c = (.success, after)) : ReturnsNull after := by
  rcases requestPass_leaves globals inRange with ⟨rounds, -, leaves⟩
  rw [handled] at leaves
  clear handled
  generalize result : (Exit.success, after) = outcome at leaves
  induction leaves with
  | @now c outcome leaves =>
      subst result
      have progresses := johnnyFindsFilename_progresses inRange
      unfold requestPass at leaves
      generalize johnnyFindsFilename c = finding at progresses leaves
      rcases finding with ⟨position, found⟩
      cases position with
      | none =>
          cases leaves
          exact progresses
      | some position =>
          dsimp only at leaves
          generalize johnnySendsResponse globals found (found.fileNameAt position) = sending
            at leaves
          rcases sending with ⟨exit, sent⟩
          cases exit with
          | failure => cases leaves
          | success => cases leaves
  | later goes _ ih => exact ih (requestPass_again inRange goes).1 result

/-- A call that returns a name moves the offset on and leaves the size, a call
that returns `NULL` gives the buffer up, and the loop around these calls ends
within as many rounds as there are bytes left, whatever `send` returns. -/
theorem johnnyHandlesRequests_ends (globals : Globals) (c : Connection)
    (inRange : ParserInRange c) :
    (forall position after, johnnyFindsFilename c = (some position, after) ->
      c.ctx.bufferOffset < after.ctx.bufferOffset ∧
        ReturnsName c after c.ctx.bufferOffset position) ∧
    (forall after, johnnyFindsFilename c = (none, after) -> ReturnsNull after) ∧
    Exists fun rounds => rounds ≤ unparsed c ∧
      Leaves (requestPass globals) c rounds (johnnyHandlesRequests globals c) := by
  have progresses := johnnyFindsFilename_progresses inRange
  refine ⟨?_, ?_, requestPass_leaves globals inRange⟩
  · intro position after found
    rw [found] at progresses
    exact ⟨Int.lt_of_le_of_lt progresses.starts progresses.inside, progresses⟩
  · intro after ends
    rw [ends] at progresses
    exact progresses

/-- A connection that has just received one request. -/
def oneRequest : Connection :=
  receives (allocatedConnection Memory.zero 5 unusedMalloced)
    (.received (ascii "GET /a HTTP/1.1\r\n\r\n"))

theorem oneRequest_ends :
    ReturnsName oneRequest (johnnyFindsFilename oneRequest).2 0 5 ∧
    Exists fun rounds => rounds ≤ 19 ∧
      Leaves (requestPass indexOnly) oneRequest rounds
        (johnnyHandlesRequests indexOnly oneRequest) := by
  have progress := johnnyHandlesRequests_ends indexOnly oneRequest ⟨by decide, by decide, by decide,
    by decide⟩
  exact ⟨(progress.1 5 _ rfl).2, progress.2.2⟩

end Worker
end Johnny
