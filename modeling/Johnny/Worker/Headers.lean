import Johnny.Library.Matching
import Johnny.Worker.Events
import Johnny.Worker.RequestStream

namespace Johnny
namespace Worker

open Library

/-!
# The end of the headers

Behind a file name the parser looks for CRLFCRLF with `prefix_counter` below 4,
which is a matcher with one counter.  The byte that breaks a match is not
looked at again, so of two carriage returns in a row the second one is lost: it
breaks the match that the first one began, and begins none itself.

The bytes that follow a file name are partly in the buffer and partly to be
received.  Stopping them after any number of bytes and looking at the counter
that is kept shows where the parser takes the headers to end.
-/

/-- Parse what is in the buffer, then receive and parse the chunks.  The names
that are found are listed, and the prefix counter at the end is kept. -/
def parsesInput (c : Connection) (chunks : List Bytes) : Option (List Bytes × Int) :=
  match johnnyFindsFilenames (johnnyBufferSize + 1) c with
  | none => none
  | some (names, c) =>
      (feedChunks chunks c).map (fun later => (names ++ later.1, later.2.ctx.prefixCounter))

/-- What follows a file name: the rest of the buffer behind its space, and the
chunks that will be received. -/
structure HeaderInput where
  c : Connection
  offset : Nat
  size : Nat
  ready : ParserReady c 0 offset size
  chunks : List Bytes
  sizes : forall chunk, chunk ∈ chunks -> 1 ≤ chunk.length ∧ chunk.length ≤ johnnyBufferSize

namespace HeaderInput

variable (input : HeaderInput)

def pieces : List Bytes :=
  readBytes input.c.getBuffer input.offset (input.size - input.offset) :: input.chunks

def text : Bytes :=
  input.pieces.flatten

def outcome : Option (List Bytes × Int) :=
  parsesInput input.c input.chunks

/-- The same input when the peer has sent only so many bytes of it. -/
def stopped (count : Nat) : HeaderInput where
  c := { input.c with
    ctx := { input.c.ctx with bufferSize := ((min input.size (input.offset + count) : Nat) :
      Int) } }
  offset := input.offset
  size := min input.size (input.offset + count)
  ready :=
    { prefixCounter := input.ready.prefixCounter
      bufferOffset := input.ready.bufferOffset
      bufferSize := rfl
      control_le := input.ready.control_le
      offset_le := Nat.le_min.mpr ⟨input.ready.offset_le, Nat.le_add_right _ _⟩
      size_le := (Nat.min_le_left _ _).trans input.ready.size_le
      fits := input.ready.fits }
  chunks := Tokenizer.takeSymbols (count - (input.size - input.offset)) input.chunks
  sizes := by
    intro piece member
    rcases Tokenizer.mem_takeSymbols member with ⟨chunk, inside, shorter, nonempty⟩
    have bounds := input.sizes chunk inside
    exact ⟨nonempty bounds.1, shorter.trans bounds.2⟩

end HeaderInput

/-- The parser takes the headers to end where CRLFCRLF first occurs.  As long as
it has not occurred, no name is found and the counter stays below 4; right
behind it the counter is 4, and from there on the input is parsed as the input
of any connection that waits for a request. -/
structure RecognizesEnd (input : HeaderInput) : Prop where
  stays : forall count, ¬ endOfHeaders <:+: input.text.take count ->
    Exists fun counter : Nat => counter < 4 ∧ (input.stopped count).outcome =
      some ([], (counter : Int))
  ends : forall before after, FirstOccurrence endOfHeaders input.text before after ->
    (input.stopped (before.length + 4)).outcome = some ([], 4) ∧
      forall next, ParserReady next 4 0 0 ->
        input.outcome = parsesInput next (Tokenizer.dropSymbols (before.length + 4) input.pieces)

/-- The number of carriage returns at the end of a text. -/
def carriageReturnsAtEnd (text : Bytes) : Nat :=
  (text.reverse.takeWhile (fun byte => decide (byte = 13))).length

theorem endOfHeaders_getElem? {counter : Nat} (small : counter < 4) (byte : UInt8) :
    endOfHeaders[counter]? = some byte <-> byte = crlfcrlf.getD counter 0 := by
  have same : endOfHeaders[counter]? = some (crlfcrlf.getD counter 0) := by
    interval_cases counter <;> rfl
  rw [same, Option.some.injEq, eq_comm]

/-- Nothing in front of the last byte has filled the counter. -/
def NotEndedBefore (text : Bytes) : Prop :=
  forall count, count < text.length -> counterAfter endOfHeaders (text.take count) ≠ 4

theorem NotEndedBefore.take {text : Bytes} (unended : NotEndedBefore text) (length : Nat) :
    NotEndedBefore (text.take length) := by
  intro count inside
  rw [List.length_take] at inside
  rw [List.take_take, Nat.min_eq_left (by omega)]
  exact unended count (by omega)

theorem NotEndedBefore.append_singleton {text : Bytes} {byte : UInt8}
    (unended : NotEndedBefore (text ++ [byte])) :
    NotEndedBefore text ∧ counterAfter endOfHeaders text < 4 := by
  have start : (text ++ [byte]).take text.length = text := List.take_left' rfl
  have earlier := unended.take text.length
  have here := unended text.length (by simp)
  rw [start] at earlier here
  exact ⟨earlier, Nat.lt_of_le_of_ne (counterAfter_le endOfHeaders text) here⟩

/-- Below 4, the control state of the tokenizer is the counter of the matcher. -/
theorem run_headers {text : Bytes} (unended : NotEndedBefore text) :
    requestTokenizer.run (Scan.start 0) text = ⟨counterAfter endOfHeaders text, [], []⟩ := by
  induction text using List.reverseRecOn with
  | nil => rfl
  | append_singleton text byte ih =>
      rcases unended.append_singleton with ⟨earlier, small⟩
      rw [Tokenizer.run_append, ih earlier, Tokenizer.run_cons, Tokenizer.run_nil,
        counterAfter_append_singleton]
      by_cases equal : byte = crlfcrlf.getD (counterAfter endOfHeaders text) 0
      · rw [advance_of_match _ ((endOfHeaders_getElem? small byte).mpr equal)]
        exact requestTokenizer.step_match small equal
      · rw [advance_of_mismatch _ (mt (endOfHeaders_getElem? small byte).mp equal)]
        exact requestTokenizer.step_mismatch small equal

theorem carriageReturnsAtEnd_append_singleton (text : Bytes) (byte : UInt8) :
    carriageReturnsAtEnd (text ++ [byte]) =
      if byte = 13 then carriageReturnsAtEnd text + 1 else 0 := by
  unfold carriageReturnsAtEnd
  rw [List.reverse_append, List.reverse_singleton, List.singleton_append, List.takeWhile_cons]
  by_cases cr : byte = 13
  · rw [if_pos (decide_eq_true cr), if_pos cr, List.length_cons]
  · rw [if_neg (fun yes => cr (of_decide_eq_true yes)), if_neg cr, List.length_nil]

/-- A carriage return moves the counter from even to odd or back; every other
byte leaves it even. -/
theorem advance_endOfHeaders_mod_two {counter : Nat} (small : counter < 4) (byte : UInt8) :
    advance endOfHeaders counter byte % 2 = if byte = 13 then (counter + 1) % 2 else 0 := by
  have matches? := endOfHeaders_getElem? small byte
  unfold advance
  rw [if_congr matches? rfl rfl]
  interval_cases counter
  all_goals
    by_cases cr : byte = 13
    · subst cr
      rfl
    · by_cases lf : byte = 10
      · subst lf
        rfl
      · have other : forall i, i < 4 -> byte ≠ crlfcrlf.getD i 0 := by
          intro i inside
          interval_cases i
          · exact cr
          · exact lf
          · exact cr
          · exact lf
        rw [if_neg cr, if_neg (other _ (by decide))]

theorem counterAfter_mod_two {text : Bytes} (unended : NotEndedBefore text) :
    counterAfter endOfHeaders text % 2 = carriageReturnsAtEnd text % 2 := by
  induction text using List.reverseRecOn with
  | nil => rfl
  | append_singleton text byte ih =>
      rcases unended.append_singleton with ⟨earlier, small⟩
      have parity := ih earlier
      rw [counterAfter_append_singleton, advance_endOfHeaders_mod_two small,
        carriageReturnsAtEnd_append_singleton]
      split_ifs
      · omega
      · rfl

section

variable {text before after : Bytes} (occurrence : FirstOccurrence endOfHeaders text before after)

include occurrence

theorem notEndedBefore_end : NotEndedBefore (before ++ endOfHeaders) := by
  intro count inside full
  have length : (before ++ endOfHeaders).length = before.length + endOfHeaders.length :=
    List.length_append
  apply occurrence.not_suffix (length ▸ inside)
  have taken : text.take count = (before ++ endOfHeaders).take count := by
    rw [← occurrence.take_end, List.take_take, Nat.min_eq_left (by omega)]
  rw [taken]
  exact suffix_of_counterAfter_eq endOfHeaders full

/-- In front of the first CRLFCRLF the counter is not 2, since the CRLF that it
would have counted would begin an earlier one. -/
theorem counterAfter_before_eq_zero_iff :
    counterAfter endOfHeaders before = 0 <-> carriageReturnsAtEnd before % 2 = 0 := by
  have start : (before ++ endOfHeaders).take before.length = before := List.take_left' rfl
  have unended := (notEndedBefore_end occurrence).take before.length
  have here := notEndedBefore_end occurrence before.length
    (by rw [List.length_append, endOfHeaders_eq]; simp)
  rw [start] at unended here
  have bound := counterAfter_le endOfHeaders before
  have parity := counterAfter_mod_two unended
  have notTwo : counterAfter endOfHeaders before ≠ 2 := by
    intro two
    have counted := take_counterAfter_suffix endOfHeaders before
    rw [two] at counted
    rcases counted with ⟨start, ends⟩
    have place : start.length < before.length := by
      rw [← ends, List.length_append]
      simp [endOfHeaders_eq]
    apply occurrence.first start.length place
    rw [occurrence.whole, ← ends, List.append_assoc, List.drop_left]
    exact ⟨13 :: 10 :: after, rfl⟩
  rw [endOfHeaders_eq, List.length_cons, List.length_cons, List.length_cons, List.length_cons,
    List.length_nil, ← endOfHeaders_eq] at bound
  omega

theorem counterAfter_end_eq_iff :
    counterAfter endOfHeaders (before ++ endOfHeaders) = 4 <->
      carriageReturnsAtEnd before % 2 = 0 := by
  rw [← counterAfter_before_eq_zero_iff occurrence]
  exact counterAfter_append_pattern_iff endOfHeaders before

end

/-! ## The input -/

/-- What is found in an input is found by the tokenizer that reads its pieces. -/
theorem parsesInput_eq {c : Connection} {control offset size : Nat}
    (ready : ParserReady c control offset size) {chunks : List Bytes}
    (fit : forall chunk, chunk ∈ chunks -> chunk.length ≤ johnnyBufferSize) :
    let scan := requestTokenizer.runChunks (Scan.start control)
      (readBytes c.getBuffer offset (size - offset) :: chunks)
    parsesInput c chunks = some (scan.tokens.map cName, (scan.control : Int)) := by
  have small := ready.size_le
  rcases johnnyFindsFilenames_eq (johnnyBufferSize + 1) ready (by omega)
    with ⟨after, names, afterReady⟩
  rcases feedChunks_eq afterReady chunks fit with ⟨last, later, lastReady⟩
  dsimp only at names later ⊢
  have whole := Tokenizer.runChunks_prepend requestTokenizer
    (requestTokenizer.run (Scan.start control)
      (readBytes c.getBuffer offset (size - offset))).control
        (requestTokenizer.run (Scan.start control)
          (readBytes c.getBuffer offset (size - offset))).tokens chunks
  unfold parsesInput
  rw [names]
  dsimp only
  rw [later, Option.map_some, Tokenizer.runChunks_cons]
  unfold Scan.forget
  rw [whole, List.map_append, lastReady.prefixCounter]
  rfl

namespace HeaderInput

variable (input : HeaderInput)

theorem outcome_eq :
    let scan := requestTokenizer.runChunks (Scan.start 0) input.pieces
    input.outcome = some (scan.tokens.map cName, (scan.control : Int)) :=
  parsesInput_eq input.ready (fun chunk member => (input.sizes chunk member).2)

/-- In the headers no name is found, and the counter is the matcher's. -/
theorem outcome_of_notEndedBefore (unended : NotEndedBefore input.text) :
    input.outcome = some ([], (counterAfter endOfHeaders input.text : Int)) := by
  have run : requestTokenizer.run (Scan.start 0) input.pieces.flatten =
      ⟨counterAfter endOfHeaders input.text, [], []⟩ := run_headers unended
  have control := requestTokenizer.runChunks_control (Scan.start 0) input.pieces
  have tokens := (requestTokenizer.runChunks_trails
    (Scan.Trails.refl (Scan.start 0)) input.pieces).tokens
  rw [run] at control tokens
  rw [input.outcome_eq, control, List.forall₂_nil_right_iff.mp tokens]
  rfl

theorem length_le_of_mem_pieces {piece : Bytes} (member : piece ∈ input.pieces) :
    piece.length ≤ johnnyBufferSize := by
  have small := input.ready.size_le
  rcases List.mem_cons.mp member with rfl | later
  · rw [readBytes_length]
    omega
  · exact (input.sizes piece later).2

/-- Behind a part of the input that is all headers and fills the counter, the
rest is parsed as by a connection that waits for a request. -/
theorem outcome_resumed {count : Nat} (bound : count ≤ input.text.length)
    (unended : NotEndedBefore (input.text.take count))
    (full : counterAfter endOfHeaders (input.text.take count) = 4) {next : Connection}
    (ready : ParserReady next 4 0 0) :
    input.outcome = parsesInput next (Tokenizer.dropSymbols count input.pieces) := by
  have headers : forall i, i ≤ count ->
      requestTokenizer.run (Scan.start 0) (input.pieces.flatten.take i) =
        ⟨counterAfter endOfHeaders (input.text.take i), [], []⟩ := by
    intro i before
    have early := unended.take i
    rw [List.take_take, Nat.min_eq_left before] at early
    exact run_headers early
  have skipped := requestTokenizer.runChunks_dropSymbols (Scan.start 0) input.pieces count bound
    (fun i before => by rw [headers i before])
  have fit : forall piece, piece ∈ Tokenizer.dropSymbols count input.pieces ->
      piece.length ≤ johnnyBufferSize := by
    intro piece member
    rcases Tokenizer.mem_dropSymbols member with ⟨chunk, inside, shorter⟩
    exact shorter.trans (input.length_le_of_mem_pieces inside)
  rw [headers count (Nat.le_refl _), full] at skipped
  rw [input.outcome_eq, skipped, parsesInput_eq ready fit]
  rfl

theorem text_stopped (count : Nat) : (input.stopped count).text = input.text.take count := by
  have buffer : (input.stopped count).c.getBuffer = input.c.getBuffer := rfl
  have left : min input.size (input.offset + count) - input.offset =
      min count (input.size - input.offset) := by omega
  unfold text pieces
  rw [buffer]
  unfold stopped
  dsimp only
  rw [List.flatten_cons, List.flatten_cons, left, Tokenizer.flatten_takeSymbols, List.take_append,
    take_readBytes, readBytes_length]

end HeaderInput

theorem notEndedBefore_of_absent {text : Bytes} (absent : ¬ endOfHeaders <:+: text) :
    NotEndedBefore text := by
  intro count _ full
  apply absent
  have found := suffix_of_counterAfter_eq endOfHeaders full
  exact found.isInfix.trans (List.take_prefix count text).isInfix

namespace HeaderInput

variable (input : HeaderInput)

/-- As long as CRLFCRLF has not occurred, the parser is in the headers. -/
theorem outcome_of_absent {count : Nat} (absent : ¬ endOfHeaders <:+: input.text.take count) :
    Exists fun counter : Nat => counter < 4 ∧ (input.stopped count).outcome =
      some ([], (counter : Int)) := by
  rw [← input.text_stopped] at absent
  have unended := notEndedBefore_of_absent absent
  have bound := counterAfter_le endOfHeaders (input.stopped count).text
  refine ⟨_, Nat.lt_of_le_of_ne bound ?_, (input.stopped count).outcome_of_notEndedBefore unended⟩
  intro full
  exact absent (suffix_of_counterAfter_eq endOfHeaders full).isInfix

section

variable {before after : Bytes} (occurrence : FirstOccurrence endOfHeaders input.text before after)

include occurrence

/-- Right behind the first CRLFCRLF the counter is the matcher's, full or not. -/
theorem outcome_at_end :
    (input.stopped (before.length + 4)).outcome =
      some ([], (counterAfter endOfHeaders (before ++ endOfHeaders) : Int)) := by
  have text : (input.stopped (before.length + 4)).text = before ++ endOfHeaders :=
    (input.text_stopped _).trans occurrence.take_end
  have outcome := (input.stopped (before.length + 4)).outcome_of_notEndedBefore
  rw [text] at outcome
  exact outcome (notEndedBefore_end occurrence)

theorem outcome_behind_end (full : counterAfter endOfHeaders (before ++ endOfHeaders) = 4)
    {next : Connection} (ready : ParserReady next 4 0 0) :
    input.outcome = parsesInput next (Tokenizer.dropSymbols (before.length + 4) input.pieces) := by
  have ends : input.text.take (before.length + 4) = before ++ endOfHeaders := occurrence.take_end
  have bound : before.length + 4 ≤ input.text.length := by
    rw [occurrence.whole, List.length_append, List.length_append, endOfHeaders_eq]
    simp only [List.length_cons, List.length_nil]
    omega
  apply input.outcome_resumed bound _ _ ready
  · rw [ends]
    exact notEndedBefore_end occurrence
  · rw [ends]
    exact full

end

end HeaderInput

/-- The end of the headers is recognized exactly if CRLFCRLF does not occur, or
an even number of carriage returns stands directly before its first
occurrence. -/
theorem recognizesEnd_iff (input : HeaderInput) :
    RecognizesEnd input <->
      forall before after, FirstOccurrence endOfHeaders input.text before after ->
        carriageReturnsAtEnd before % 2 = 0 := by
  constructor
  · intro recognizes before after occurrence
    have found := (recognizes.ends before after occurrence).1
    rw [input.outcome_at_end occurrence] at found
    apply (counterAfter_end_eq_iff occurrence).mp
    have counter := (Prod.mk.inj (Option.some.inj found)).2
    omega
  · intro even
    refine ⟨fun count absent => input.outcome_of_absent absent, ?_⟩
    intro before after occurrence
    have full := (counterAfter_end_eq_iff occurrence).mpr (even before after occurrence)
    refine ⟨?_, fun next ready => input.outcome_behind_end occurrence full ready⟩
    rw [input.outcome_at_end occurrence, full]
    rfl

/-- The rest of a request for `a` with one carriage return too many in front of
its empty line, and a request for `b` behind it. -/
def doubledReturn : HeaderInput where
  c := (johnnyFindsFilename (receives (allocatedConnection Memory.zero 5 unusedMalloced)
    (.received (ascii "GET /a HTTP/1.1\r\r\n\r\nGET /b HTTP/1.1\r\n\r\n")))).2
  offset := 7
  size := 39
  ready := ⟨by decide, by decide, by decide, by decide, by decide, by decide,
    (johnnyFindsFilename_same _).1.tailFits.mpr
      ((receives_same _ _).tailFits.mpr
        (allocatedConnection_ready Memory.zero 5 unusedMalloced).fits)⟩
  chunks := []
  sizes := by
    intro chunk member
    cases member

/-- The empty line is missed, and with it the request for `b`. -/
theorem not_recognizesEnd_doubledReturn : ¬ forall input, RecognizesEnd input := by
  intro recognizes
  have ends := ((recognizes doubledReturn).ends (ascii "HTTP/1.1\r")
    (ascii "GET /b HTTP/1.1\r\n\r\n") (by decide)).1
  exact absurd ends (by decide)

end Worker
end Johnny
