import Johnny.Library.Tokenizer
import Johnny.Worker.Requests

namespace Johnny
namespace Worker

open Library

/-!
# The parser as a tokenizer

`prefix_counter` is a control state: below 4 it counts the matched bytes of
CRLFCRLF, from 4 to 8 the skipped bytes of `GET /`, and at 9 a file name is
being read.  One call of `johnny_finds_filename` runs the tokenizer with these
states up to the next finished file name or to the end of the buffer.  At the
end of the buffer the context keeps the control state but no held bytes.
-/

/-- The parser's reading of one byte. -/
def requestTokenizer : Tokenizer Nat UInt8 where
  next := fun prefixCounter byte =>
    if prefixCounter < 4 then
      if byte = crlfcrlf.getD prefixCounter 0 then prefixCounter + 1 else 0
    else if prefixCounter < 9 then prefixCounter + 1
    else if byte = 32 then 0 else 9
  action := fun prefixCounter byte =>
    if prefixCounter < 9 then .skip else if byte = 32 then .emit else .keep

namespace requestTokenizer

theorem step_match {scan : Scan Nat UInt8} {byte : UInt8} (small : scan.control < 4)
    (equal : byte = crlfcrlf.getD scan.control 0) :
    requestTokenizer.step scan byte = { scan with control := scan.control + 1 } := by
  have skip : requestTokenizer.action scan.control byte = .skip := if_pos (by omega)
  have next : requestTokenizer.next scan.control byte = scan.control + 1 := by
    unfold requestTokenizer
    dsimp only
    rw [if_pos small, if_pos equal]
  rw [Tokenizer.step_of_skip _ scan byte skip, next]

theorem step_mismatch {scan : Scan Nat UInt8} {byte : UInt8} (small : scan.control < 4)
    (different : byte ≠ crlfcrlf.getD scan.control 0) :
    requestTokenizer.step scan byte = { scan with control := 0 } := by
  have skip : requestTokenizer.action scan.control byte = .skip := if_pos (by omega)
  have next : requestTokenizer.next scan.control byte = 0 := by
    unfold requestTokenizer
    dsimp only
    rw [if_pos small, if_neg different]
  rw [Tokenizer.step_of_skip _ scan byte skip, next]

theorem step_request_line {scan : Scan Nat UInt8} (byte : UInt8) (lower : 4 ≤ scan.control)
    (upper : scan.control < 9) :
    requestTokenizer.step scan byte = { scan with control := scan.control + 1 } := by
  have skip : requestTokenizer.action scan.control byte = .skip := if_pos upper
  have next : requestTokenizer.next scan.control byte = scan.control + 1 := by
    unfold requestTokenizer
    dsimp only
    rw [if_neg (by omega), if_pos upper]
  rw [Tokenizer.step_of_skip _ scan byte skip, next]

theorem step_space (held : Bytes) (tokens : List Bytes) :
    requestTokenizer.step ⟨9, held, tokens⟩ 32 = ⟨0, [], tokens ++ [held]⟩ :=
  Tokenizer.step_of_emit _ _ _ rfl

/-- The five bytes of `GET /` are skipped whatever they are. -/
theorem run_request_line (control : Nat) (held : Bytes) (tokens : List Bytes) (input : Bytes)
    (lower : 4 ≤ control) (upper : control + input.length ≤ 9) :
    requestTokenizer.run ⟨control, held, tokens⟩ input =
      ⟨control + input.length, held, tokens⟩ := by
  induction input generalizing control with
  | nil => rfl
  | cons byte rest ih =>
      rw [List.length_cons] at upper
      have small : control < 9 := by omega
      have step : requestTokenizer.step ⟨control, held, tokens⟩ byte =
          ⟨control + 1, held, tokens⟩ :=
        step_request_line byte lower small
      have count : control + (rest.length + 1) = control + 1 + rest.length := by omega
      rw [Tokenizer.run_cons, step, ih (control + 1) (by omega) (by omega), List.length_cons, count]

/-- Bytes of a file name are held. -/
theorem run_name (held : Bytes) (tokens : List Bytes) (input : Bytes) (noSpace : 32 ∉ input) :
    requestTokenizer.run ⟨9, held, tokens⟩ input = ⟨9, held ++ input, tokens⟩ := by
  have different : forall byte, byte ∈ input -> byte ≠ 32 := by
    intro byte member equal
    exact noSpace (equal ▸ member)
  apply Tokenizer.run_of_keep
  · intro byte member
    unfold requestTokenizer
    dsimp only
    rw [if_neg (by omega), if_neg (by omega), if_neg (different byte member)]
  · intro byte member
    unfold requestTokenizer
    dsimp only
    rw [if_neg (by omega), if_neg (different byte member)]

theorem next_le {prefixCounter : Nat} (bound : prefixCounter ≤ 9) (byte : UInt8) :
    requestTokenizer.next prefixCounter byte ≤ 9 := by
  unfold requestTokenizer
  dsimp only
  split_ifs <;> omega

theorem run_control_le {scan : Scan Nat UInt8} (bound : scan.control ≤ 9) (input : Bytes) :
    (requestTokenizer.run scan input).control ≤ 9 := by
  induction input generalizing scan with
  | nil => exact bound
  | cons byte rest ih =>
      apply ih
      rw [Tokenizer.step_control]
      exact next_le bound byte

end requestTokenizer

/-- The union holds what `index` says it holds. -/
def ConnectionContext.TailFits (ctx : ConnectionContext) : Prop :=
  match ctx.tail with
  | .extension _ => ctx.index = johnnyStackConnections
  | .responseLength _ => ctx.index ≠ johnnyStackConnections

/-- What a connection finds in its context when it gets one. -/
structure NewContext (ctx : ConnectionContext) (fd : Int) : Prop where
  flags : ctx.flags = 0
  prefixCounter : ctx.prefixCounter = 4
  bufferOffset : ctx.bufferOffset = 0
  bufferSize : ctx.bufferSize = 0
  descriptor : ctx.fd = fd
  responseLength : getResponseLength ctx = 0
  fits : ConnectionContext.TailFits ctx

theorem initialContext_extension (context : ConnectionContext) {index : Nat}
    (onHeap : index = johnnyStackConnections) (buffer : Int -> UInt8) (fd : Int) :
    NewContext (initialContext context
      (.extension { responseLength := 0, buffer := buffer }) index fd)
      fd :=
  ⟨rfl, rfl, rfl, rfl, rfl, if_pos onHeap, onHeap⟩

theorem initialContext_responseLength (context : ConnectionContext) {index : Nat}
    (onStack : index ≠ johnnyStackConnections) (fd : Int) :
    NewContext (initialContext context (.responseLength 0) index fd) fd :=
  ⟨rfl, rfl, rfl, rfl, rfl, if_neg onStack, onStack⟩

/-- Every field that the worker reads is set, wherever the context comes from. -/
theorem johnnyAllocatesConnection_new (memory : Memory) (fd : Int) (malloced : Malloced) :
    NewContext ((johnnyAllocatesConnection memory fd malloced).2.contexts
      (johnnyAllocatesConnection memory fd malloced).1) fd := by
  unfold johnnyAllocatesConnection
  dsimp only
  by_cases onHeap : (johnnyTriesToAllocateConnectionOnStack memory.conBitmap).1 =
    johnnyStackConnections
  · rw [if_pos onHeap]
    dsimp only
    rw [Function.update_self]
    exact initialContext_extension malloced.context onHeap malloced.buffer fd
  · rw [if_neg onHeap]
    dsimp only
    rw [Function.update_self]
    exact initialContext_responseLength _ onHeap fd

/-- Two connections differ only in what the parser and `recv` may change: the
three parser fields and the bytes of the buffer. -/
structure SameCursor (before after : Connection) : Prop where
  flags : after.ctx.flags = before.ctx.flags
  index : after.ctx.index = before.ctx.index
  fd : after.ctx.fd = before.ctx.fd
  response : after.ctx.response = before.ctx.response
  responseLength : getResponseLength after.ctx = getResponseLength before.ctx
  tailFits : ConnectionContext.TailFits after.ctx <-> ConnectionContext.TailFits before.ctx
  sends : after.sends = before.sends

theorem SameCursor.refl (c : Connection) : SameCursor c c :=
  ⟨rfl, rfl, rfl, rfl, rfl, Iff.rfl, rfl⟩

theorem SameCursor.trans {first second third : Connection} (left : SameCursor first second)
    (right : SameCursor second third) : SameCursor first third where
  flags := right.flags.trans left.flags
  index := right.index.trans left.index
  fd := right.fd.trans left.fd
  response := right.response.trans left.response
  responseLength := right.responseLength.trans left.responseLength
  tailFits := right.tailFits.trans left.tailFits
  sends := right.sends.trans left.sends

theorem SameCursor.unsent {before after : Connection} (same : SameCursor before after) :
    after.unsent = before.unsent := by
  unfold Connection.unsent
  rw [same.response, same.responseLength]

namespace Connection

theorem writeBuffer_sameCursor (c : Connection) (position : Int) (bytes : Bytes) :
    SameCursor c (c.writeBuffer position bytes) := by
  unfold writeBuffer
  by_cases onHeap : c.ctx.index = johnnyStackConnections
  · rw [if_pos onHeap]
    cases tail : c.ctx.tail with
    | responseLength length => exact SameCursor.refl c
    | extension extension =>
        refine ⟨rfl, rfl, rfl, rfl, ?_, ?_, rfl⟩
        · simp only [getResponseLength, tail]
        · simp only [ConnectionContext.TailFits, tail]
  · rw [if_neg onHeap]
    exact ⟨rfl, rfl, rfl, rfl, rfl, Iff.rfl, rfl⟩

@[simp] theorem writeBuffer_calls (c : Connection) (position : Int) (bytes : Bytes) :
    (c.writeBuffer position bytes).calls = c.calls := by
  unfold writeBuffer
  split_ifs
  · cases c.ctx.tail <;> rfl
  · rfl

@[simp] theorem writeBuffer_prefixCounter (c : Connection) (position : Int) (bytes : Bytes) :
    (c.writeBuffer position bytes).ctx.prefixCounter = c.ctx.prefixCounter := by
  unfold writeBuffer
  split_ifs
  · cases c.ctx.tail <;> rfl
  · rfl

@[simp] theorem writeBuffer_bufferOffset (c : Connection) (position : Int) (bytes : Bytes) :
    (c.writeBuffer position bytes).ctx.bufferOffset = c.ctx.bufferOffset := by
  unfold writeBuffer
  split_ifs
  · cases c.ctx.tail <;> rfl
  · rfl

@[simp] theorem writeBuffer_bufferSize (c : Connection) (position : Int) (bytes : Bytes) :
    (c.writeBuffer position bytes).ctx.bufferSize = c.ctx.bufferSize := by
  unfold writeBuffer
  split_ifs
  · cases c.ctx.tail <;> rfl
  · rfl

theorem getBuffer_stack {c : Connection} (onStack : c.ctx.index ≠ johnnyStackConnections) :
    c.getBuffer = fun position => c.stackDataBuffer (c.bufferBase + position) := by
  unfold getBuffer
  rw [if_neg onStack]

theorem getBuffer_heap {c : Connection} {extension : HeapConnectionContextExtension}
    (onHeap : c.ctx.index = johnnyStackConnections) (tail : c.ctx.tail = .extension extension) :
    c.getBuffer = extension.buffer := by
  unfold getBuffer
  rw [if_pos onHeap, tail]

theorem writeBuffer_stack {c : Connection} (onStack : c.ctx.index ≠ johnnyStackConnections)
    (position : Int) (bytes : Bytes) :
    c.writeBuffer position bytes =
      { c with
        stackDataBuffer := writeBytes c.stackDataBuffer (c.bufferBase + position) bytes } := by
  unfold writeBuffer
  rw [if_neg onStack]

theorem writeBuffer_heap {c : Connection} {extension : HeapConnectionContextExtension}
    (onHeap : c.ctx.index = johnnyStackConnections) (tail : c.ctx.tail = .extension extension)
    (position : Int) (bytes : Bytes) :
    c.writeBuffer position bytes =
      { c with
        ctx := { c.ctx with
          tail := .extension { extension with
            buffer := writeBytes extension.buffer position bytes } } } := by
  unfold writeBuffer
  rw [if_pos onHeap, tail]

/-- A write through the buffer pointer is seen through the buffer pointer,
wherever the buffer is. -/
theorem getBuffer_writeBuffer {c : Connection} (fits : ConnectionContext.TailFits c.ctx)
    (position : Int) (bytes : Bytes) :
    (c.writeBuffer position bytes).getBuffer = writeBytes c.getBuffer position bytes := by
  cases tail : c.ctx.tail with
  | extension extension =>
      have onHeap : c.ctx.index = johnnyStackConnections := by
        simpa only [ConnectionContext.TailFits, tail] using fits
      rw [writeBuffer_heap onHeap tail, getBuffer_heap onHeap tail]
      exact @getBuffer_heap _ { extension
        with buffer := writeBytes extension.buffer position bytes } onHeap rfl
  | responseLength length =>
      have onStack : c.ctx.index ≠ johnnyStackConnections := by
        simpa only [ConnectionContext.TailFits, tail] using fits
      rw [writeBuffer_stack onStack, getBuffer_stack onStack]
      apply (getBuffer_stack _).trans
      · funext address
        exact writeBytes_shift c.stackDataBuffer c.bufferBase position bytes address
      · exact onStack

end Connection

/-! ## One call of the parser -/

/-- A call that returned `NULL`: the control state is kept and the buffer is
given up. -/
structure EndedAt (before after : Connection) (control : Nat) : Prop where
  prefixCounter : after.ctx.prefixCounter = control
  bufferOffset : after.ctx.bufferOffset = 0
  bufferSize : after.ctx.bufferSize = 0
  same : SameCursor before after
  calls : after.calls = before.calls

/-- A call that returned a file name: the bytes from `next` on are left, and
the space before them has become the terminator of the name. -/
structure FoundAt (before after : Connection) (position next : Int) (name : Bytes) : Prop where
  prefixCounter : after.ctx.prefixCounter = 0
  bufferOffset : after.ctx.bufferOffset = next
  bufferSize : after.ctx.bufferSize = before.ctx.bufferSize
  buffer : after.getBuffer = writeBytes before.getBuffer (next - 1) [0]
  fileName : after.fileNameAt position = name.takeWhile (fun byte => decide (byte ≠ 0))
  same : SameCursor before after
  calls : after.calls = before.calls

/-- The outcome of parsing `count` bytes from `start` on in a control state:
either the tokenizer finds no token in them, or its first token ends after
`used` of them. -/
def Parses (c : Connection) (start : Int) (count control : Nat)
    (result : Option Int × Connection) : Prop :=
  let scan := Scan.start control
  (result.1 = none ∧
    (requestTokenizer.run scan (readBytes c.getBuffer start count)).tokens = [] ∧
    EndedAt c result.2 (requestTokenizer.run scan (readBytes c.getBuffer start count)).control) ∨
  Exists fun position => Exists fun used : Nat => Exists fun name =>
    result.1 = some position ∧ 0 < used ∧ used ≤ count ∧
    requestTokenizer.run scan (readBytes c.getBuffer start used) = ⟨0, [], [name]⟩ ∧
    FoundAt c result.2 position (start + used) name

/-- Behind the rest of the request line the tokenizer is at the start of the
name. -/
theorem run_to_name (buffer : Int -> UInt8) (start : Int) (count : Nat) {control : Nat}
    (lower : 4 ≤ control) (upper : control ≤ 9) :
    requestTokenizer.run (Scan.start control) (readBytes buffer start ((9 - control) + count)) =
      requestTokenizer.run (Scan.start 9)
        (readBytes buffer (start + ((9 - control : Nat) : Int)) count) := by
  have line := requestTokenizer.run_request_line control [] []
    (readBytes buffer start (9 - control)) lower
    (by rw [readBytes_length]; omega)
  rw [readBytes_length, Nat.add_sub_cancel' upper] at line
  rw [readBytes_add, Tokenizer.run_append]
  exact congrArg (fun scan => requestTokenizer.run scan _) line

/-- The buffer ends in the request line. -/
theorem startsFileName_short {c : Connection} {start : Int} {count control : Nat}
    (lower : 4 ≤ control) (size : c.ctx.bufferSize = start + count)
    (short : c.ctx.bufferSize ≤ start + (9 - (control : Int))) :
    Parses c start count control (startsFileName c (start + (9 - (control : Int)))) := by
  have run := requestTokenizer.run_request_line control [] [] (readBytes c.getBuffer start count)
    lower (by rw [readBytes_length]; omega)
  unfold Parses startsFileName
  dsimp only
  rw [if_pos short]
  refine Or.inl ⟨rfl, ?_, ?_⟩
  · rw [Scan.start, run]
  · rw [Scan.start, run, readBytes_length]
    refine ⟨?_, rfl, rfl, ⟨rfl, rfl, rfl, rfl, rfl, Iff.rfl, rfl⟩, rfl⟩
    dsimp only
    omega

/-- The buffer ends in the name. -/
theorem startsFileName_cut {c : Connection} {start : Int} {count control : Nat}
    (lower : 4 ≤ control) (upper : control ≤ 9)
    (size : c.ctx.bufferSize = start + ((9 - control) + count : Nat))
    (nonempty : 0 < count)
    (search : memchr c.getBuffer 32 (start + ((9 - control : Nat) : Int)) count = none) :
    Parses c start ((9 - control) + count) control
      (startsFileName c (start + ((9 - control : Nat) : Int))) := by
  have rest : (c.ctx.bufferSize - (start + ((9 - control : Nat) : Int))).toNat = count := by omega
  have name := requestTokenizer.run_name [] [] _ (memchr_eq_none search)
  have run : requestTokenizer.run (Scan.start control)
      (readBytes c.getBuffer start ((9 - control) + count)) =
      ⟨9, readBytes c.getBuffer (start + ((9 - control : Nat) : Int)) count, []⟩ :=
    (run_to_name c.getBuffer start count lower upper).trans name
  unfold Parses startsFileName
  dsimp only
  rw [if_neg (by omega), rest, search, run]
  refine Or.inl ⟨rfl, rfl, ?_, ?_, ?_, ?_, ?_⟩
  · rw [Connection.writeBuffer_prefixCounter]
    rfl
  · rw [Connection.writeBuffer_bufferOffset]
  · rw [Connection.writeBuffer_bufferSize]
  · have cleared : SameCursor c { c with
        ctx := { c.ctx with bufferOffset := 0, bufferSize := 0, prefixCounter := 9 } } :=
      ⟨rfl, rfl, rfl, rfl, rfl, Iff.rfl, rfl⟩
    exact cleared.trans (Connection.writeBuffer_sameCursor _ _ _)
  · rw [Connection.writeBuffer_calls]

/-- Behind the terminator that replaced the space, the name is read as a C
string. -/
theorem fileNameAt_terminated {c : Connection} (fits : ConnectionContext.TailFits c.ctx)
    {start found : Int} {before : Nat} (place : start + before = found)
    (enough : before < johnnyBufferSize) :
    (c.writeBuffer found [0]).fileNameAt start =
      (readBytes c.getBuffer start before).takeWhile (fun byte => decide (byte ≠ 0)) := by
  have terminator : writeBytes c.getBuffer found [0] (start + before) = 0 := by
    have inside := writeBytes_inside c.getBuffer found [0] 0 (by simp)
    rw [Int.natCast_zero, Int.add_zero] at inside
    rw [place, inside]
    rfl
  have unchanged : readBytes (writeBytes c.getBuffer found [0]) start before =
      readBytes c.getBuffer start before := by
    apply readBytes_congr
    intro address _ below
    exact writeBytes_below _ _ (by omega)
  unfold Connection.fileNameAt
  rw [Connection.getBuffer_writeBuffer fits found [0],
    bytesUntil_eq _ 0 _ before johnnyBufferSize enough terminator, unchanged]

/-- The buffer has the whole name. -/
theorem startsFileName_found {c : Connection} (fits : ConnectionContext.TailFits c.ctx)
    {start found : Int} {count control : Nat} (lower : 4 ≤ control) (upper : control ≤ 9)
    (nonneg : 0 ≤ start) (size : c.ctx.bufferSize = start + ((9 - control) + count : Nat))
    (small : c.ctx.bufferSize ≤ johnnyBufferSize) (nonempty : 0 < count)
    (search : memchr c.getBuffer 32 (start + ((9 - control : Nat) : Int)) count = some found) :
    Parses c start ((9 - control) + count) control
      (startsFileName c (start + ((9 - control : Nat) : Int))) := by
  have rest : (c.ctx.bufferSize - (start + ((9 - control : Nat) : Int))).toNat = count := by omega
  rcases memchr_eq_some search with ⟨before, place, bound, space, absent⟩
  have name := requestTokenizer.run_name [] [] _ absent
  have run : requestTokenizer.run (Scan.start control)
      (readBytes c.getBuffer start ((9 - control) + (before + 1))) =
      ⟨0, [], [readBytes c.getBuffer (start + ((9 - control : Nat) : Int)) before]⟩ := by
    rw [run_to_name c.getBuffer start (before + 1) lower upper, readBytes_add, Tokenizer.run_append,
      Scan.start, name, ← place, readBytes_succ, space, readBytes_zero]
    exact requestTokenizer.step_space _ _
  have next : start + (((9 - control) + (before + 1) : Nat) : Int) - 1 = found := by omega
  unfold Parses startsFileName
  dsimp only
  rw [if_neg (by omega), rest, search]
  refine Or.inr ⟨_, (9 - control) + (before + 1), _, rfl, by omega, by omega, run, ?_⟩
  have written := Connection.writeBuffer_sameCursor c found [0]
  refine ⟨rfl, ?_, ?_, ?_, ?_, ?_, ?_⟩
  · dsimp only
    omega
  · exact Connection.writeBuffer_bufferSize c found [0]
  · rw [next]
    exact Connection.getBuffer_writeBuffer fits found [0]
  · have enough : before < johnnyBufferSize := by
      simp only [johnnyBufferSize_eq] at small ⊢
      omega
    exact fileNameAt_terminated fits place.symm enough
  · exact written.trans ⟨rfl, rfl, rfl, rfl, rfl, Iff.rfl, rfl⟩
  · exact Connection.writeBuffer_calls c found [0]

/-- From a control state of the request line on, the rest of the buffer either
ends in the request line, ends in the name, or contains the whole name. -/
theorem startsFileName_parses {c : Connection} (fits : ConnectionContext.TailFits c.ctx)
    (start : Int) (count control : Nat) (lower : 4 ≤ control) (upper : control ≤ 9)
    (nonneg : 0 ≤ start) (size : c.ctx.bufferSize = start + count)
    (small : c.ctx.bufferSize ≤ johnnyBufferSize) :
    Parses c start count control (startsFileName c (start + (9 - (control : Int)))) := by
  by_cases short : c.ctx.bufferSize ≤ start + (9 - (control : Int))
  · exact startsFileName_short lower size short
  · -- The request line takes `9 - control` bytes; the name starts behind it.
    have nameStart : start + (9 - (control : Int)) = start + ((9 - control : Nat) : Int) := by omega
    have nonempty : 0 < count - (9 - control) := by omega
    have split : count = (9 - control) + (count - (9 - control)) := by omega
    rw [split] at size
    rw [nameStart, split]
    cases search : memchr c.getBuffer 32 (start + ((9 - control : Nat) : Int))
      (count - (9 - control)) with
    | none => exact startsFileName_cut lower upper size nonempty search
    | some found => exact startsFileName_found fits lower upper nonneg size small nonempty search

/-- The loop agrees with the tokenizer from every position and control state.
The induction is on the bytes that are left. -/
theorem filenameLoop_parses {c : Connection} (fits : ConnectionContext.TailFits c.ctx)
    (start : Int) (count control : Nat) (upper : control ≤ 9) (nonneg : 0 ≤ start)
    (size : c.ctx.bufferSize = start + count) (small : c.ctx.bufferSize ≤ johnnyBufferSize) :
    Parses c start count control (filenameLoop c count start control) := by
  induction count generalizing start control with
  | zero =>
      refine Or.inl ⟨rfl, rfl, ?_⟩
      exact ⟨rfl, rfl, rfl, ⟨rfl, rfl, rfl, rfl, rfl, Iff.rfl, rfl⟩, rfl⟩
  | succ count ih =>
      rw [filenameLoop]
      by_cases name : 4 ≤ control
      · rw [if_pos (by omega)]
        exact startsFileName_parses fits start (count + 1) control name upper nonneg size small
      · rw [if_neg (by omega), Int.toNat_natCast]
        -- One header byte moves the tokenizer to `next` and finds no token.
        have later : forall next : Nat, next ≤ 9 ->
            requestTokenizer.step (Scan.start control) (c.getBuffer start) = Scan.start next ->
            Parses c start (count + 1) control (filenameLoop c count (start + 1) next) := by
          intro next bound step
          have rest := ih (start + 1) next bound (by omega) (by omega)
          rcases rest with ⟨none, tokens, ended⟩ |
            ⟨position, used, token, found, some, fits', run, stands⟩
          · refine Or.inl ⟨none, ?_, ?_⟩
            · rw [readBytes_succ, Tokenizer.run_cons, step]
              exact tokens
            · rw [readBytes_succ, Tokenizer.run_cons, step]
              exact ended
          · refine Or.inr ⟨position, used + 1, token, found, by omega, by omega, ?_, ?_⟩
            · rw [readBytes_succ, Tokenizer.run_cons, step]
              exact run
            · have shifted : start + ((used + 1 : Nat) : Int) = start + 1 + used := by omega
              rw [shifted]
              exact stands
        by_cases equal : c.getBuffer start = crlfcrlf.getD control 0
        · rw [if_pos equal]
          exact later (control + 1) (by omega)
            (requestTokenizer.step_match (by simp [Scan.start]; omega) equal)
        · rw [if_neg equal]
          exact later 0 (by omega)
            (requestTokenizer.step_mismatch (by simp [Scan.start]; omega) equal)

/-- The parser's fields are in range and the union matches `index`. -/
structure ParserReady (c : Connection) (control offset size : Nat) : Prop where
  prefixCounter : c.ctx.prefixCounter = control
  bufferOffset : c.ctx.bufferOffset = offset
  bufferSize : c.ctx.bufferSize = size
  control_le : control ≤ 9
  offset_le : offset ≤ size
  size_le : size ≤ johnnyBufferSize
  fits : ConnectionContext.TailFits c.ctx

theorem johnnyFindsFilename_parses {c : Connection} {control offset size : Nat}
    (ready : ParserReady c control offset size) :
    Parses c offset (size - offset) control (johnnyFindsFilename c) := by
  have bound := ready.offset_le
  have small : c.ctx.bufferSize ≤ johnnyBufferSize := by
    rw [ready.bufferSize]
    exact Int.ofNat_le.mpr ready.size_le
  have count : ((size : Int) - offset).toNat = size - offset := by omega
  unfold johnnyFindsFilename
  rw [ready.bufferSize, ready.bufferOffset, ready.prefixCounter, count]
  apply filenameLoop_parses ready.fits offset (size - offset) control ready.control_le (by omega)
  · rw [ready.bufferSize]
    omega
  · exact small

/-- After a file name the parser is ready for the rest of the buffer. -/
theorem ParserReady.found {c after : Connection} {control offset size : Nat}
    (ready : ParserReady c control offset size) {position : Int} {used : Nat} {name : Bytes}
    (bound : used ≤ size - offset) (found : FoundAt c after position (offset + used) name) :
    ParserReady after 0 (offset + used) size where
  prefixCounter := found.prefixCounter
  bufferOffset := by
    rw [found.bufferOffset]
    omega
  bufferSize := by rw [found.bufferSize, ready.bufferSize]
  control_le := by omega
  offset_le := by
    have inside := ready.offset_le
    omega
  size_le := ready.size_le
  fits := found.same.tailFits.mpr ready.fits

/-- The terminator is written in front of the bytes that are left. -/
theorem FoundAt.readBytes_left {c after : Connection} {position next : Int} {name : Bytes}
    (found : FoundAt c after position next name) (count : Nat) :
    readBytes after.getBuffer next count = readBytes c.getBuffer next count := by
  rw [found.buffer]
  apply readBytes_congr
  intro address lower _
  apply writeBytes_above
  simp only [List.length_cons, List.length_nil]
  omega

/-- At the end of a buffer the parser is ready for the next one. -/
theorem ParserReady.ended {c after : Connection} {control offset size next : Nat}
    (ready : ParserReady c control offset size) (bound : next ≤ 9) (ended : EndedAt c after next) :
    ParserReady after next 0 0 where
  prefixCounter := ended.prefixCounter
  bufferOffset := ended.bufferOffset
  bufferSize := ended.bufferSize
  control_le := bound
  offset_le := Nat.le_refl 0
  size_le := Nat.zero_le _
  fits := ended.same.tailFits.mpr ready.fits

end Worker
end Johnny
