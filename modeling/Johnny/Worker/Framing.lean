import Johnny.Worker.Parsing

namespace Johnny
namespace Worker

open Library

/-!
# File names over chunks of input

The bytes of a connection arrive in chunks, one for each successful `recv`.
Each chunk is parsed to its end before the next one is received.  A chunk that
ends inside a file name makes the parser forget the part of the name it has
seen; every other division of the input into chunks is harmless.
-/

/-- Call `johnny_finds_filename` until it returns `NULL`, and list the names.
There is no result if that takes more than the given number of calls. -/
def johnnyFindsFilenames : Nat -> Connection -> Option (List Bytes × Connection)
  | 0, _ => none
  | calls + 1, c =>
      match johnnyFindsFilename c with
      | (none, c) => some ([], c)
      | (some position, c) =>
          (johnnyFindsFilenames calls c).map (fun rest => (c.fileNameAt position :: rest.1, rest.2))

/-- Receive the chunks one after another and list the names found in each. -/
def feedChunks : List Bytes -> Connection -> Option (List Bytes × Connection)
  | [], c => some ([], c)
  | chunk :: rest, c =>
      match johnnyFindsFilenames (johnnyBufferSize + 1) (receives c (.received chunk)) with
      | none => none
      | some (names, c) => (feedChunks rest c).map (fun later => (names ++ later.1, later.2))

/-- A connection right after its allocation, in any memory. -/
def allocatedConnection (memory : Memory) (fd : Int) (malloced : Malloced) : Connection where
  ctx := (johnnyAllocatesConnection memory fd malloced).2.contexts
    (johnnyAllocatesConnection memory fd malloced).1
  stackDataBuffer := (johnnyAllocatesConnection memory fd malloced).2.stackDataBuffer
  sends := []
  calls := []

/-- The C string that a token is for its reader. -/
def cName (token : Bytes) : Bytes :=
  token.takeWhile (fun byte => decide (byte ≠ 0))

theorem cName_of_nonzero {token : Bytes} (nonzero : 0 ∉ token) : cName token = token := by
  apply List.takeWhile_eq_self_iff.mpr
  intro byte member
  apply decide_eq_true
  intro zero
  exact nonzero (zero ▸ member)

/-- Calling the parser until it returns `NULL` yields the tokens of the rest of
the buffer and leaves the parser ready for the next one.  Each name takes at
least one byte, so the calls are bounded by the bytes that are left. -/
theorem johnnyFindsFilenames_eq (calls : Nat) {c : Connection} {control offset size : Nat}
    (ready : ParserReady c control offset size) (enough : size - offset < calls) :
    let scan := requestTokenizer.run (Scan.start control)
      (readBytes c.getBuffer offset (size - offset))
    Exists fun after => johnnyFindsFilenames calls c = some (scan.tokens.map cName, after) ∧
      ParserReady after scan.control 0 0 := by
  induction calls generalizing c control offset with
  | zero => omega
  | succ calls ih =>
      dsimp only
      have parses := johnnyFindsFilename_parses ready
      unfold Parses at parses
      rw [johnnyFindsFilenames]
      rcases result : johnnyFindsFilename c with ⟨answer, after⟩
      rw [result] at parses
      rcases parses with ⟨none, tokens, ended⟩ | ⟨position, used, name, some, positive, bound, run,
        found⟩
      · dsimp only at none tokens ended
        subst none
        refine ⟨after, ?_, ?_⟩
        · rw [tokens]
          rfl
        · exact ready.ended (requestTokenizer.run_control_le ready.control_le _) ended
      · dsimp only at some found
        subst some
        have next := ready.found bound found
        rcases ih next (by omega) with ⟨last, rest, lastReady⟩
        have split : size - offset = used + (size - (offset + used)) := by omega
        rw [Int.natCast_add, found.readBytes_left] at rest lastReady
        have whole : requestTokenizer.run (Scan.start control)
            (readBytes c.getBuffer offset (size - offset)) =
            { requestTokenizer.run (Scan.start 0)
                (readBytes c.getBuffer (offset + (used : Int)) (size - (offset + used))) with
              tokens := name :: (requestTokenizer.run (Scan.start 0)
                (readBytes c.getBuffer (offset + (used : Int))
                  (size - (offset + used)))).tokens } := by
          rw [split, readBytes_add, Tokenizer.run_append, run, Tokenizer.run_prepend]
          rfl
        rw [whole]
        refine ⟨last, ?_, lastReady⟩
        dsimp only
        rw [rest, found.fileName]
        rfl

/-- After a successful `recv` the parser sees the chunk. -/
theorem receives_ready {c : Connection} {control : Nat} (ready : ParserReady c control 0 0)
    {chunk : Bytes} (fitsBuffer : chunk.length ≤ johnnyBufferSize) :
    ParserReady (receives c (.received chunk)) control 0 chunk.length ∧
      readBytes (receives c (.received chunk)).getBuffer (0 : Nat) (chunk.length - 0) = chunk := by
  have offset := ready.bufferOffset
  have whole : chunk.take ((johnnyBufferSize : Int) - c.ctx.bufferOffset).toNat = chunk := by
    apply List.take_of_length_le
    rw [offset]
    simpa using fitsBuffer
  have written := Connection.writeBuffer_sameCursor c c.ctx.bufferOffset chunk
  unfold receives
  dsimp only
  rw [whole]
  constructor
  · refine ⟨?_, ?_, rfl, ready.control_le, Nat.zero_le _, fitsBuffer, ?_⟩
    · exact (Connection.writeBuffer_prefixCounter _ _ _).trans ready.prefixCounter
    · exact (Connection.writeBuffer_bufferOffset _ _ _).trans offset
    · exact written.tailFits.mpr ready.fits
  · have buffer : (c.writeBuffer c.ctx.bufferOffset chunk).getBuffer =
        writeBytes c.getBuffer 0 chunk := by
      rw [Connection.getBuffer_writeBuffer ready.fits, offset]
      rfl
    change readBytes (c.writeBuffer c.ctx.bufferOffset chunk).getBuffer 0 chunk.length = chunk
    rw [buffer]
    exact readBytes_writeBytes _ _ _

/-- The names found in a sequence of chunks are those of the tokenizer that
forgets its held bytes at the end of each chunk. -/
theorem feedChunks_eq {c : Connection} {control : Nat} (ready : ParserReady c control 0 0)
    (chunks : List Bytes) (fitBuffer : forall chunk, chunk ∈ chunks ->
      chunk.length ≤ johnnyBufferSize) :
    let scan := requestTokenizer.runChunks (Scan.start control) chunks
    Exists fun after => feedChunks chunks c = some (scan.tokens.map cName, after) ∧
      ParserReady after scan.control 0 0 := by
  induction chunks generalizing c control with
  | nil => exact ⟨c, rfl, ready⟩
  | cons chunk rest ih =>
      dsimp only
      have small := fitBuffer chunk List.mem_cons_self
      rcases receives_ready ready small with ⟨received, content⟩
      have enough : chunk.length - 0 < johnnyBufferSize + 1 := by omega
      rcases johnnyFindsFilenames_eq (johnnyBufferSize + 1) received enough
        with ⟨after, names, afterReady⟩
      rw [content] at names afterReady
      rcases ih afterReady (fun later member =>
        fitBuffer later (List.mem_cons_of_mem _ member)) with
        ⟨last, later, lastReady⟩
      have whole : requestTokenizer.runChunks (Scan.start control) (chunk :: rest) =
          { requestTokenizer.runChunks
              (Scan.start (requestTokenizer.run (Scan.start control) chunk).control) rest with
            tokens := (requestTokenizer.run (Scan.start control) chunk).tokens ++
              (requestTokenizer.runChunks
                (Scan.start (requestTokenizer.run
                  (Scan.start control) chunk).control) rest).tokens } := by
        rw [Tokenizer.runChunks_cons]
        exact Tokenizer.runChunks_prepend _ _ _ _
      rw [whole]
      refine ⟨last, ?_, lastReady⟩
      rw [feedChunks, names]
      dsimp only
      rw [later, List.map_append]
      rfl

/-- A freshly allocated connection waits for the start of a request. -/
theorem allocatedConnection_ready (memory : Memory) (fd : Int) (malloced : Malloced) :
    ParserReady (allocatedConnection memory fd malloced) 4 0 0 := by
  have new := johnnyAllocatesConnection_new memory fd malloced
  exact
    { prefixCounter := new.prefixCounter
      bufferOffset := new.bufferOffset
      bufferSize := new.bufferSize
      control_le := by decide
      offset_le := by decide
      size_le := by decide
      fits := new.fits }

end Worker
end Johnny
