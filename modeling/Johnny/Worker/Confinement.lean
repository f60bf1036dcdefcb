import Johnny.Worker.HalfClose
import Johnny.Worker.Phases

namespace Johnny
namespace Worker

open Library

/-!
# Accesses to the buffers

The buffers of all contexts on the stack are slices of one array.  This module
lists the accesses that each operation makes to the buffer of its connection
and to the string the parser compares with, and shows that they stay inside.

Between two events every live connection is idle.  The one exception needs a
context that two live connections share: when a `send` to one of them fails for
good while requests are handled, the context is released with its unparsed
bytes, and the other connection goes on with them.
-/

/-- Bytes of the buffer, by distance from `get_buffer(ctx)`, or a byte of the
string literal. -/
inductive Access
  | read (position : Int) (count : Nat)
  | write (position : Int) (count : Nat)
  | pattern (index : Int)

/-- The accesses of `startsFileName`: `memchr`, then `memmove` of a partial name
or the terminator behind a whole one. -/
def startsFileNameAccesses (c : Connection) (bytesParsed : Int) : List Access :=
  if c.ctx.bufferSize ≤ bytesParsed then []
  else
    let rest := (c.ctx.bufferSize - bytesParsed).toNat
    .read bytesParsed rest ::
      match memchr c.getBuffer 32 bytesParsed rest with
      | none => [.read bytesParsed rest, .write 0 rest]
      | some endOfFilename => [.write endOfFilename 1]

def filenameLoopAccesses (c : Connection) : Nat -> Int -> Int -> List Access
  | 0, _, _ => []
  | rest + 1, bytesParsed, prefixCounter =>
      if 4 ≤ prefixCounter then startsFileNameAccesses c (bytesParsed + (9 - prefixCounter))
      else
        .read bytesParsed 1 :: .pattern prefixCounter ::
          if c.getBuffer bytesParsed = crlfcrlf.getD prefixCounter.toNat 0 then
            filenameLoopAccesses c rest (bytesParsed + 1) (prefixCounter + 1)
          else filenameLoopAccesses c rest (bytesParsed + 1) 0

/-- `recv` may write to all of the space it is offered.  Choosing a response
reads the file name with its terminator. -/
def Operation.accesses (c : Connection) : Operation -> List Access
  | .receives _ => [.write c.ctx.bufferOffset ((johnnyBufferSize : Int) - c.ctx.bufferOffset).toNat]
  | .findsFilename =>
      filenameLoopAccesses c (c.ctx.bufferSize - c.ctx.bufferOffset).toNat c.ctx.bufferOffset
        c.ctx.prefixCounter
  | .selectsResponse position => [.read position ((c.fileNameAt position).length + 1)]
  | _ => []

/-- Writes stay inside the buffer, reads inside the bytes that were received,
and the index inside CRLFCRLF. -/
def Access.Confined (c : Connection) : Access -> Prop
  | .read position count => 0 ≤ position ∧ position + count ≤ c.ctx.bufferSize
  | .write position count => 0 ≤ position ∧ position + count ≤ johnnyBufferSize
  | .pattern index => 0 ≤ index ∧ index < 4

/-- An operation with confined accesses; `recv` starts at the buffer's start. -/
structure ConfinedOperation (c : Connection) (operation : Operation) : Prop where
  accesses : forall access, access ∈ operation.accesses c -> access.Confined c
  recvs : forall result, operation = .receives result -> c.ctx.bufferOffset = 0

theorem startsFileNameAccesses_confined {c : Connection} {bytesParsed : Int}
    (nonneg : 0 ≤ bytesParsed) (small : c.ctx.bufferSize ≤ johnnyBufferSize) {access : Access}
    (member : access ∈ startsFileNameAccesses c bytesParsed) : access.Confined c := by
  unfold startsFileNameAccesses at member
  split_ifs at member with short
  · cases member
  · have count : ((c.ctx.bufferSize - bytesParsed).toNat : Int) =
      c.ctx.bufferSize - bytesParsed := by omega
    have reads : (Access.read bytesParsed (c.ctx.bufferSize - bytesParsed).toNat).Confined c := by
      refine ⟨nonneg, ?_⟩
      rw [count]
      omega
    rcases List.mem_cons.mp member with rfl | rest
    · exact reads
    · cases search : memchr c.getBuffer 32 bytesParsed (c.ctx.bufferSize - bytesParsed).toNat with
      | none =>
          rw [search] at rest
          rcases List.mem_cons.mp rest with rfl | moved
          · exact reads
          · rw [List.mem_singleton.mp moved]
            refine ⟨Int.le_refl 0, ?_⟩
            rw [count]
            omega
      | some endOfFilename =>
          rw [search] at rest
          rcases memchr_eq_some search with ⟨before, place, bound, -⟩
          rw [List.mem_singleton.mp rest]
          constructor
          · omega
          · rw [Nat.cast_one]
            omega

/-- The induction is on the bytes that are left. -/
theorem filenameLoopAccesses_confined {c : Connection} (count : Nat) {start prefixCounter : Int}
    (nonneg : 0 ≤ start) (size : c.ctx.bufferSize = start + count)
    (small : c.ctx.bufferSize ≤ johnnyBufferSize)
    (lower : 0 ≤ prefixCounter) (upper : prefixCounter ≤ 9) {access : Access}
    (member : access ∈ filenameLoopAccesses c count start prefixCounter) : access.Confined c := by
  induction count generalizing start prefixCounter with
  | zero => cases member
  | succ count ih =>
      rw [filenameLoopAccesses] at member
      split_ifs at member with name equal
      · exact startsFileNameAccesses_confined (by omega) small member
      all_goals
        rcases List.mem_cons.mp member with rfl | more
        · refine ⟨nonneg, ?_⟩
          rw [size, Nat.cast_one]
          omega
        · rcases List.mem_cons.mp more with rfl | rest
          · exact ⟨lower, by omega⟩
          · exact ih (by omega) (by omega) (by omega) (by omega) rest

theorem findsFilename_confined {bytes : Nat} {c : Connection} (busy : ParserBusy bytes c) :
    ConfinedOperation c .findsFilename := by
  refine ⟨?_, fun result other => by cases other⟩
  intro access member
  unfold Operation.accesses at member
  cases busy with
  | @received _ control offset size ready nonempty =>
      have inside := ready.offset_le
      have whole := ready.size_le
      have upper := ready.control_le
      rw [ready.bufferSize, ready.bufferOffset, ready.prefixCounter] at member
      apply filenameLoopAccesses_confined _ _ _ _ _ _ member
      · omega
      · rw [ready.bufferSize]
        omega
      · rw [ready.bufferSize]
        omega
      · omega
      · omega
  | @failed before _ control ready same =>
      have nothing : (c.ctx.bufferSize - c.ctx.bufferOffset).toNat = 0 := by
        rw [same]
        dsimp only
        rw [ready.bufferOffset]
        rfl
      rw [nothing] at member
      cases member

theorem startsFileName_some {c after : Connection} {bytesParsed position : Int}
    (found : startsFileName c bytesParsed = (some position, after)) :
    position = bytesParsed ∧ position < after.ctx.bufferOffset := by
  unfold startsFileName at found
  dsimp only at found
  split_ifs at found with short
  · cases found
  · cases search : memchr c.getBuffer 32 bytesParsed (c.ctx.bufferSize - bytesParsed).toNat with
    | none =>
        rw [search] at found
        cases found
    | some endOfFilename =>
        rw [search] at found
        rcases memchr_eq_some search with ⟨before, place, -⟩
        cases found
        refine ⟨rfl, ?_⟩
        dsimp only
        omega

theorem filenameLoop_some {c after : Connection} {count : Nat} {start prefixCounter position : Int}
    (upper : prefixCounter ≤ 9)
    (found : filenameLoop c count start prefixCounter = (some position, after)) :
    start ≤ position ∧ position < after.ctx.bufferOffset := by
  induction count generalizing start prefixCounter with
  | zero => cases found
  | succ count ih =>
      rw [filenameLoop] at found
      split_ifs at found
      · rcases startsFileName_some found with ⟨rfl, before⟩
        exact ⟨by omega, before⟩
      · have later := ih (by omega) found
        exact ⟨by omega, later.2⟩
      · have later := ih (by omega) found
        exact ⟨by omega, later.2⟩

/-- The name that was found ends at a terminator in the parsed bytes. -/
theorem selectsResponse_confined {bytes : Nat} {c after : Connection} {position : Int}
    (busy : ParserBusy bytes c) (found : johnnyFindsFilename c = (some position, after)) :
    ConfinedOperation after (.selectsResponse position) := by
  refine ⟨?_, fun result other => by cases other⟩
  intro access member
  rw [List.mem_singleton.mp member]
  cases busy with
  | @failed before _ control ready same =>
      rw [johnnyFindsFilename_failed ready same] at found
      cases found
  | @received _ control offset size ready nonempty =>
      have place : (offset : Int) ≤ position ∧ position < after.ctx.bufferOffset := by
        unfold johnnyFindsFilename at found
        rw [ready.bufferOffset, ready.prefixCounter] at found
        have upper := ready.control_le
        exact filenameLoop_some (by omega) found
      have parses := johnnyFindsFilename_parses ready
      rw [found] at parses
      rcases parses with ⟨none, -⟩ | ⟨other, used, name, some, positive, bound, -, stands⟩
      · cases none
      · have next : after.ctx.bufferOffset = offset + used := stands.bufferOffset
        have inside := ready.offset_le
        have whole := ready.size_le
        -- The terminator stands just before the bytes that are left.
        have before : position + ((after.ctx.bufferOffset - 1 - position).toNat : Int) =
            after.ctx.bufferOffset - 1 := by
          omega
        have terminator : after.getBuffer
            (position + ((after.ctx.bufferOffset - 1 - position).toNat : Int)) = 0 := by
          have written := writeBytes_inside c.getBuffer (after.ctx.bufferOffset - 1) [0] 0
            (by decide)
          rw [Int.natCast_zero, Int.add_zero] at written
          have buffer : after.getBuffer =
              writeBytes c.getBuffer (after.ctx.bufferOffset - 1) [0] := by
            rw [next]
            exact stands.buffer
          rw [before, buffer, written]
          rfl
        have short : (after.fileNameAt position).length ≤
            (after.ctx.bufferOffset - 1 - position).toNat := by
          have enough : (after.ctx.bufferOffset - 1 - position).toNat < johnnyBufferSize := by
            simp only [johnnyBufferSize_eq] at whole ⊢
            omega
          unfold Connection.fileNameAt
          rw [bytesUntil_eq _ 0 _ _ johnnyBufferSize enough terminator]
          exact (List.takeWhile_prefix _).length_le.trans (Nat.le_of_eq (readBytes_length _ _ _))
        have whole' : after.ctx.bufferSize = size := stands.bufferSize.trans ready.bufferSize
        refine ⟨by omega, ?_⟩
        rw [whole']
        omega

/-! ## Writes reach only the slice of the connection -/

/-- The addresses of `stack_data_buffer` that an access writes. -/
def Access.Writes (c : Connection) (address : Int) : Access -> Prop
  | .write position count =>
      c.ctx.index ≠ johnnyStackConnections ∧ c.bufferBase + position ≤ address ∧
        address < c.bufferBase + position + count
  | _ => False

theorem writeBuffer_stackDataBuffer {c : Connection} {position : Int} {bytes : Bytes}
    {address : Int}
    (outside : ¬ (c.ctx.index ≠ johnnyStackConnections ∧ c.bufferBase + position ≤ address ∧
      address < c.bufferBase + position + bytes.length)) :
    (c.writeBuffer position bytes).stackDataBuffer address = c.stackDataBuffer address := by
  by_cases onHeap : c.ctx.index = johnnyStackConnections
  · unfold Connection.writeBuffer
    rw [if_pos onHeap]
    cases c.ctx.tail <;> rfl
  · rw [Connection.writeBuffer_stack onHeap]
    dsimp only
    by_cases below : address < c.bufferBase + position
    · exact writeBytes_below _ _ below
    · apply writeBytes_above
      by_contra inside
      exact outside ⟨onHeap, by omega, by omega⟩

theorem startsFileName_stackDataBuffer {c : Connection} {bytesParsed address : Int}
    (outside : forall access, access ∈ startsFileNameAccesses c bytesParsed ->
      ¬ access.Writes c address) :
    (startsFileName c bytesParsed).2.stackDataBuffer address = c.stackDataBuffer address := by
  unfold startsFileName
  unfold startsFileNameAccesses at outside
  dsimp only at outside ⊢
  by_cases short : c.ctx.bufferSize ≤ bytesParsed
  · rw [if_pos short]
  · rw [if_neg short] at outside ⊢
    cases search : memchr c.getBuffer 32 bytesParsed (c.ctx.bufferSize - bytesParsed).toNat with
    | none =>
        rw [search] at outside
        have moved := outside (.write 0 (c.ctx.bufferSize - bytesParsed).toNat) (by simp)
        dsimp only
        rw [writeBuffer_stackDataBuffer]
        rw [readBytes_length]
        exact moved
    | some endOfFilename =>
        rw [search] at outside
        have terminated := outside (.write endOfFilename 1) (by simp)
        exact writeBuffer_stackDataBuffer terminated

theorem filenameLoop_stackDataBuffer {c : Connection} (count : Nat)
    {start prefixCounter address : Int}
    (outside : forall access, access ∈ filenameLoopAccesses c count start prefixCounter ->
      ¬ access.Writes c address) :
    (filenameLoop c count start prefixCounter).2.stackDataBuffer address =
      c.stackDataBuffer address := by
  induction count generalizing start prefixCounter with
  | zero => rfl
  | succ count ih =>
      rw [filenameLoopAccesses] at outside
      rw [filenameLoop]
      split_ifs at outside ⊢
      · exact startsFileName_stackDataBuffer outside
      · exact ih (fun access member => outside access (by simp [member]))
      · exact ih (fun access member => outside access (by simp [member]))

/-- An operation changes the array only where it writes. -/
theorem Operation.perform_stackDataBuffer (globals : Globals) {c : Connection}
    {operation : Operation} {address : Int}
    (outside : forall access, access ∈ operation.accesses c ->
      ¬ access.Writes c address) :
    (operation.perform globals c).stackDataBuffer address = c.stackDataBuffer address := by
  cases operation with
  | reports events => rfl
  | selectsResponse position => rfl
  | sendsBytes =>
      unfold perform johnnySendsBytes
      cases c.sends.headD (.failed eagain) <;> rfl
  | findsFilename => exact filenameLoop_stackDataBuffer _ outside
  | receives result =>
      cases result with
      | failed errno => rfl
      | received bytes =>
          have space := outside (.write c.ctx.bufferOffset _) (List.mem_singleton_self _)
          apply writeBuffer_stackDataBuffer
          rintro ⟨onStack, lower, upper⟩
          have cut := List.length_take_le
            ((johnnyBufferSize : Int) - c.ctx.bufferOffset).toNat bytes
          exact space ⟨onStack, lower, by omega⟩

end Worker
end Johnny
