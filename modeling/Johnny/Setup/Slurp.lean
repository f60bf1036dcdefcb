import Johnny.Setup.Encoding
import Johnny.Setup.Packing

namespace Johnny
namespace Setup

open Library

/-!
# Slurping one file

`slurp` reads a file into a buffer and returns its size, or `-1` as a `size_t`
when anything fails.  `johnny_slurps_file` does not test for that value.  It
prints the size into a header, copies header and contents into the response,
frees the buffer, and encodes the name.

With the size `-1` the sum of the lengths wraps around.  The response is then
one byte shorter than the header that is copied into it.
-/

/-- What happens to the calls that `slurp` makes for a file: `fopen`, `fseek`
and `ftell` to its end, `fread`, and `fclose`. -/
structure FileAccess where
  opens : Bool
  offEnd : Option Nat
  contents : Bytes
  closes : Bool

/-- `-1L` as a `size_t`. -/
def failedSize : Nat := 2 ^ 64 - 1

/-- What `slurp` leaves in `*buf`. -/
inductive Buffer
  | untouched
  | null
  | allocated (pointer : Pointer)

structure SlurpResult where
  size : Nat
  buf : Buffer
  heap : Heap

def slurp (file : FileAccess) (heap : Heap) : Option SlurpResult :=
  if file.opens = false then some ⟨failedSize, .untouched, heap⟩
  else
    match file.offEnd with
    | none => some ⟨failedSize, .untouched, heap⟩
    | some fsz =>
        match heap.malloc fsz with
        | none => some ⟨failedSize, .null, heap⟩
        | some (buf, allocated) =>
            let slurped := file.contents.take fsz
            (allocated.write buf (slurped.map some)).bind (fun filled =>
              if fsz ≠ slurped.length ∨ file.closes = false then
                (filled.free buf).map (fun freed => ⟨failedSize, .allocated buf, freed⟩)
              else some ⟨fsz, .allocated buf, filled⟩)

/-- The file can be read to its end, and its contents fit in memory. -/
structure Readable (file : FileAccess) (contents : Bytes) : Prop where
  opens : file.opens = true
  offEnd : file.offEnd = some contents.length
  reads : contents <+: file.contents
  closes : file.closes = true
  size : contents.length < Heap.mallocLimit

theorem slurp_of_readable {file : FileAccess} {contents : Bytes} (readable : Readable file contents)
    (heap : Heap) :
    Exists fun filled => slurp file heap = some ⟨contents.length, .allocated ⟨heap.next, 0⟩,
      filled⟩ ∧
      filled.blocks = Function.update heap.blocks heap.next (some (contents.map some)) ∧
      filled.next = heap.next + 1 := by
  have whole : file.contents.take contents.length = contents := by
    rcases readable.reads with ⟨rest, split⟩
    rw [← split, List.take_left]
  have live : (heap.allocate (List.replicate contents.length none)).2.blocks heap.next =
      some ([] ++ List.replicate contents.length none) :=
    heap.allocate_blocks_self _
  rcases @Heap.write_behind _ _ _ _ (contents.map some) live (by simp)
    with ⟨filled, written, blocks⟩
  refine ⟨filled, ?_, ?_, Heap.write_next written⟩
  · unfold slurp Heap.malloc
    rw [if_neg (by rw [readable.opens]; decide), readable.offEnd]
    dsimp only
    rw [if_pos readable.size]
    dsimp only
    rw [whole]
    have start : ((heap.allocate (List.replicate contents.length none)).2.write ⟨heap.next, 0⟩
        (contents.map some)) = some filled := written
    rw [Heap.allocate_fst, start, Option.bind_some, if_neg]
    rw [readable.closes]
    simp
  · rw [blocks, Heap.allocate_blocks, Function.update_idem, List.length_map, List.drop_replicate,
      Nat.sub_self]
    simp

/-- Whatever fails, `slurp` returns `-1`. -/
theorem slurp_of_unreadable {file : FileAccess}
    (unreadable : forall contents, ¬ Readable file contents)
    {heap : Heap} {result : SlurpResult} (slurped : slurp file heap = some result) :
    result.size = failedSize := by
  unfold slurp at slurped
  split_ifs at slurped with closed
  · cases slurped
    rfl
  · cases ends : file.offEnd with
    | none =>
        rw [ends] at slurped
        cases slurped
        rfl
    | some fsz =>
        rw [ends] at slurped
        dsimp only at slurped
        unfold Heap.malloc at slurped
        by_cases limit : fsz < Heap.mallocLimit
        · rw [if_pos limit] at slurped
          rcases Option.bind_eq_some_iff.mp slurped with ⟨filled, -, rest⟩
          by_cases fails : fsz ≠ (file.contents.take fsz).length ∨ file.closes = false
          · rw [if_pos fails] at rest
            rcases Option.map_eq_some_iff.mp rest with ⟨freed, -, rfl⟩
            rfl
          · rw [not_or, Decidable.not_not] at fails
            refine absurd ?_ (unreadable (file.contents.take fsz))
            refine ⟨?_, ?_, List.take_prefix _ _, ?_, ?_⟩
            · exact Bool.eq_true_of_not_eq_false closed
            · rw [ends, ← fails.1]
            · exact Bool.eq_true_of_not_eq_false fails.2
            · rw [← fails.1]
              exact limit
        · rw [if_neg limit] at slurped
          cases slurped
          rfl

/-- `%zu`. -/
def decimal (number : Nat) : Bytes :=
  (Nat.toDigits 10 number).map (fun digit => UInt8.ofNat digit.toNat)

def tempHeaderBufferSize : Nat := 1024

/-- The text that the three calls of `sprintf` leave in `temp_header_buffer`. -/
def printsHeader (mimeType : Bytes) (contentEncoding : Option Bytes) (fileSize : Nat) : Bytes :=
  ascii "HTTP/1.1 200 OK\r\nContent-Type: " ++ mimeType ++ ascii "\r\n" ++
    (match contentEncoding with
    | some contentEncoding => ascii "Content-Encoding: " ++ contentEncoding ++ ascii "\r\n"
    | none => []) ++
    ascii "Content-Length: " ++ decimal fileSize ++ ascii "\r\n\r\n"

/-- The header for a file name and the size that `slurp` returned. -/
def responseHeader (fileName : Bytes) (fileSize : Nat) : Bytes :=
  printsHeader (getMimeType (classifies fileName).fileExt)
    (classifies fileName).contentEncoding fileSize

theorem decimal_length_le {number : Nat} (small : number < 2 ^ 64) :
    (decimal number).length ≤ 20 := by
  unfold decimal
  rw [List.length_map]
  exact (Nat.length_toDigits_le_iff (by decide) (by decide)).mpr (by omega)

theorem getMimeType_length_le (fileExt : Bytes) : (getMimeType fileExt).length ≤ 24 := by
  have all : forall entry, entry ∈ mimeTypes -> entry.2.length ≤ 24 := by decide
  unfold getMimeType
  split
  · next entry found => exact all entry (List.mem_of_find?_eq_some found)
  · decide

theorem getContentEncoding_length_le {fileExt contentEncoding : Bytes}
    (found : getContentEncoding fileExt = some contentEncoding) : contentEncoding.length ≤ 4 := by
  have all : forall entry, entry ∈ contentEncodings -> entry.2.length ≤ 4 := by decide
  rcases Option.map_eq_some_iff.mp found with ⟨entry, inList, rfl⟩
  exact all entry (List.mem_of_find?_eq_some inList)

theorem classifies_contentEncoding {fileName contentEncoding : Bytes}
    (found : (classifies fileName).contentEncoding = some contentEncoding) :
    Exists fun fileExt => getContentEncoding fileExt = some contentEncoding := by
  unfold classifies at found
  dsimp only at found
  split_ifs at found
  split at found
  · next own inList =>
      cases found
      exact ⟨_, inList⟩
  · cases found

/-- The header always fits in its buffer. -/
theorem responseHeader_length_lt (fileName : Bytes) {fileSize : Nat} (small : fileSize < 2 ^ 64) :
    0 < (responseHeader fileName fileSize).length ∧
      (responseHeader fileName fileSize).length < 200 := by
  have digits := decimal_length_le small
  have mimeType := getMimeType_length_le (classifies fileName).fileExt
  have fixed : (ascii "HTTP/1.1 200 OK\r\nContent-Type: ").length = 31 ∧ (ascii "\r\n").length = 2 ∧
      (ascii "Content-Encoding: ").length = 18 ∧ (ascii "Content-Length: ").length = 16 ∧
      (ascii "\r\n\r\n").length = 4 := by
    decide
  unfold responseHeader printsHeader
  cases found : (classifies fileName).contentEncoding with
  | none =>
      simp only [List.length_append, List.length_nil]
      omega
  | some contentEncoding =>
      rcases classifies_contentEncoding found with ⟨fileExt, inList⟩
      have encoding := getContentEncoding_length_le inList
      simp only [List.length_append]
      omega

/-! ## Making the entry -/

/-- `memcpy` from `temp_header_buffer`. -/
def copiesHeader (heap : Heap) (response : Pointer) (header : Bytes) (count : Nat) : Option Heap :=
  let tempHeaderBuffer :=
    stringCells header ++ List.replicate (tempHeaderBufferSize - (header.length + 1)) none
  if count ≤ tempHeaderBuffer.length then heap.write response (tempHeaderBuffer.take count)
  else none

/-- `memcpy` from `buf`. -/
def Buffer.copies (buf : Buffer) (heap : Heap) (target : Pointer) (count : Nat) : Option Heap :=
  match buf with
  | .allocated pointer => heap.memcpy target pointer count
  | _ => none

/-- `free(buf)`. -/
def Buffer.frees (buf : Buffer) (heap : Heap) : Option Heap :=
  match buf with
  | .allocated pointer => heap.free pointer
  | .null => some heap
  | .untouched => none

/-- `url_encode`, with the buffer it allocates. -/
def encodesFileName (fileName : Bytes) (heap : Heap) : Option (Pointer × Heap) :=
  (heap.malloc (encodedCapacity fileName)).bind (fun encodedText =>
    (urlEncodes fileName).bind (fun encoded =>
      (encodedText.2.write encodedText.1 (stringCells encoded)).map (fun written =>
        (encodedText.1, written))))

def johnnySlurpsFile (file : FileAccess) (fileName : Bytes) (heap : Heap) :
    Option (JohnnyFile × Heap) :=
  (slurp file heap).bind (fun slurped =>
    let header := responseHeader fileName slurped.size
    if tempHeaderBufferSize < header.length + 1 then none
    else
      let responseLength := (header.length + slurped.size) % 2 ^ 64
      let headerLength := (responseLength + (2 ^ 64 - slurped.size)) % 2 ^ 64
      (slurped.heap.malloc responseLength).bind (fun response =>
        (copiesHeader response.2 response.1 header headerLength).bind (fun headed =>
          (slurped.buf.copies headed (response.1.add headerLength) slurped.size).bind (fun filled =>
            (slurped.buf.frees filled).bind (fun freed =>
              (encodesFileName (classifies fileName).fileName freed).bind (fun encoded =>
                (encoded.2.readBytes response.1 responseLength).map (fun bytes =>
                  (⟨encoded.1, bytes, responseLength⟩, encoded.2))))))))

/-- The file can be served as this one: under the key of its name, with a header
that tells its size and its contents behind it. -/
structure Loadable (file : FileAccess) (fileName : Bytes) (served : ServedFile) : Prop where
  response : Exists fun contents => Readable file contents ∧
    served.response = responseHeader fileName contents.length ++ contents
  key : fileKey fileName = some served.key
  responseLength : served.responseLength = served.response.length
  size : served.response.length < Heap.mallocLimit

theorem encodesFileName_eq {fileName key : Bytes} (encodes : urlEncode fileName = some key)
    (short : 3 * fileName.length ≤ intMax) (heap : Heap) :
    Exists fun after => encodesFileName fileName heap = some (⟨heap.next, 0⟩, after) ∧
      after.cString ⟨heap.next, 0⟩ = some key ∧ after.next = heap.next + 1 ∧
      forall block, block ≠ heap.next -> after.blocks block = heap.blocks block := by
  rcases urlEncode_size encodes with ⟨size, nonzero⟩
  have fits : encodedCapacity fileName < Heap.mallocLimit := by
    unfold intMax at short
    unfold encodedCapacity Heap.mallocLimit
    omega
  have live : (heap.allocate (List.replicate (encodedCapacity fileName) none)).2.blocks heap.next =
      some ([] ++ List.replicate (encodedCapacity fileName) none) :=
    heap.allocate_blocks_self _
  have room : (stringCells key).length ≤
      (List.replicate (encodedCapacity fileName) (none : Cell)).length := by
    rw [stringCells_length, List.length_replicate]
    unfold encodedCapacity
    omega
  rcases @Heap.write_behind _ _ _ _ (stringCells key) live room with ⟨after, written, blocks⟩
  refine ⟨after, ?_, ?_, Heap.write_next written, ?_⟩
  · unfold encodesFileName Heap.malloc
    rw [if_pos fits, Option.bind_some, urlEncodes_eq_urlEncode short, encodes, Option.bind_some,
      Heap.allocate_fst]
    exact congrArg (Option.map _) written
  · have content : after.blocks heap.next = some (stringCells key ++
        (List.replicate (encodedCapacity fileName) none).drop (stringCells key).length) := by
      rw [blocks, Function.update_self]
      rfl
    exact (Heap.cString_of_block content 0).trans (stringAt_stringCells key nonzero _)
  · intro block other
    rw [blocks, Function.update_of_ne other, Heap.allocate_blocks, Function.update_of_ne other]

/-- The two copies put header and contents into the new response block. -/
theorem copies_eq {heap : Heap} {header contents : Bytes} {source : Nat}
    (live : heap.blocks source = some (contents.map some)) :
    Exists fun headed => Exists fun filled =>
      copiesHeader (heap.allocate (List.replicate (header.length + contents.length) none)).2
        ⟨heap.next, 0⟩
        header header.length = some headed ∧
      Buffer.copies (.allocated ⟨source, 0⟩) headed ⟨heap.next, header.length⟩ contents.length =
        some filled ∧
      filled.next = heap.next + 1 ∧
      filled.blocks = Function.update heap.blocks heap.next
        (some ((header ++ contents).map some)) := by
  have other : source ≠ heap.next := Nat.ne_of_lt (heap.lt_next_of_live live)
  have newLive : (heap.allocate
      (List.replicate (header.length + contents.length) none)).2.blocks heap.next =
      some ([] ++ List.replicate (header.length + contents.length) none) :=
    heap.allocate_blocks_self _
  rcases @Heap.write_behind _ _ _ _ (header.map some) newLive (by simp)
    with ⟨headed, written, headedBlocks⟩
  have rest : [] ++ header.map some ++
      (List.replicate (header.length + contents.length) (none : Cell)).drop
        (header.map some).length =
        header.map some ++ List.replicate contents.length none := by
    rw [List.nil_append, List.drop_replicate, List.length_map, Nat.add_sub_cancel_left]
  rw [rest] at headedBlocks
  have headedLive : headed.blocks heap.next = some
      (header.map some ++ List.replicate contents.length none) := by
    rw [headedBlocks, Function.update_self]
  rcases @Heap.write_behind _ _ _ _ (contents.map some) headedLive (by simp)
    with ⟨filled, copied, filledBlocks⟩
  refine ⟨headed, filled, ?_, ?_, ?_, ?_⟩
  · have cells : (stringCells header ++ List.replicate
      (tempHeaderBufferSize - (header.length + 1)) none).take
        header.length = header.map some := by
      unfold stringCells
      rw [List.map_append, List.append_assoc, List.take_left' (List.length_map _)]
    unfold copiesHeader
    dsimp only
    rw [if_pos (by rw [List.length_append, stringCells_length]; omega), cells]
    exact written
  · have sourceLive : headed.blocks source = some (contents.map some ++ []) := by
      rw [headedBlocks, Function.update_of_ne other, Heap.allocate_blocks,
        Function.update_of_ne other, live, List.append_nil]
    have read := Heap.read_start sourceLive
    rw [List.length_map] at read copied
    unfold Buffer.copies Heap.memcpy
    dsimp only
    rw [read, Option.bind_some]
    exact copied
  · rw [Heap.write_next copied, Heap.write_next written, Heap.allocate_next]
  · have full : header.map some ++ contents.map some ++
        (List.replicate contents.length (none : Cell)).drop (contents.map some).length =
          (header ++ contents).map some := by
      rw [List.length_map, List.drop_replicate, Nat.sub_self, List.replicate_zero, List.append_nil,
        List.map_append]
    rw [filledBlocks, full, headedBlocks, Function.update_idem, Heap.allocate_blocks,
      Function.update_idem]

/-- `response_length`, and `response_length - file_size`, for a file that was
read. -/
theorem lengths_of_read {header size : Nat} (fits : header + size < 2 ^ 64) :
    (header + size) % 2 ^ 64 = header + size ∧
    (header + size + (2 ^ 64 - size)) % 2 ^ 64 = header := by
  refine ⟨Nat.mod_eq_of_lt fits, ?_⟩
  omega

/-- The same for the size `-1`: the sum has wrapped around. -/
theorem lengths_of_failed {header : Nat} (positive : 0 < header) (small : header < 200) :
    (header + failedSize) % 2 ^ 64 = header - 1 ∧
      (header - 1 + (2 ^ 64 - failedSize)) % 2 ^ 64 = header := by
  unfold failedSize
  omega

/-- What `johnny_slurps_file` has made before it encodes the name. -/
structure MadeResponse where
  response : Pointer
  responseLength : Nat
  heap : Heap

/-- The part of `johnny_slurps_file` between `slurp` and `url_encode`. -/
def makesResponse (slurped : SlurpResult) (fileName : Bytes) : Option MadeResponse :=
  let header := responseHeader fileName slurped.size
  if tempHeaderBufferSize < header.length + 1 then none
  else
    let responseLength := (header.length + slurped.size) % 2 ^ 64
    let headerLength := (responseLength + (2 ^ 64 - slurped.size)) % 2 ^ 64
    (slurped.heap.malloc responseLength).bind (fun response =>
      (copiesHeader response.2 response.1 header headerLength).bind (fun headed =>
        (slurped.buf.copies headed (response.1.add headerLength) slurped.size).bind (fun filled =>
          (slurped.buf.frees filled).map (fun freed => ⟨response.1, responseLength, freed⟩))))

theorem johnnySlurpsFile_eq (file : FileAccess) (fileName : Bytes) (heap : Heap) :
    johnnySlurpsFile file fileName heap =
      (slurp file heap).bind (fun slurped =>
        (makesResponse slurped fileName).bind (fun made =>
          (encodesFileName (classifies fileName).fileName made.heap).bind (fun encoded =>
            (encoded.2.readBytes made.response made.responseLength).map (fun bytes =>
              (⟨encoded.1, bytes, made.responseLength⟩, encoded.2))))) := by
  unfold johnnySlurpsFile makesResponse
  apply congrArg (Option.bind (slurp file heap))
  funext slurped
  dsimp only
  split_ifs
  · rfl
  · simp only [Option.bind_assoc, Option.bind_map, Function.comp_def]

/-- `slurp` hands over a buffer with the contents of the file. -/
structure HandsOver (slurped : SlurpResult) (contents : Bytes) : Prop where
  size : slurped.size = contents.length
  buf : Exists fun block => slurped.buf = .allocated ⟨block, 0⟩ ∧
    slurped.heap.blocks block = some (contents.map some)
  limit : contents.length < Heap.mallocLimit

theorem slurp_handsOver {file : FileAccess} {contents : Bytes} (readable : Readable file contents)
    (heap : Heap) :
    Exists fun slurped => slurp file heap = some slurped ∧ HandsOver slurped contents ∧
      slurped.heap.next = heap.next + 1 ∧
      forall block, block < heap.next ->
        slurped.heap.blocks block = heap.blocks block ∧ slurped.buf ≠ .allocated ⟨block, 0⟩ := by
  rcases slurp_of_readable readable heap with ⟨filled, slurps, blocks, next⟩
  refine ⟨_, slurps, ⟨rfl, ⟨heap.next, rfl, ?_⟩, readable.size⟩, next, ?_⟩
  · dsimp only
    rw [blocks, Function.update_self]
  · intro block old
    refine ⟨?_, ?_⟩
    · dsimp only
      rw [blocks, Function.update_of_ne (by omega)]
    · intro same
      have equal := congrArg Pointer.block (Buffer.allocated.inj same)
      dsimp only at equal
      omega

/-- The response for what was handed over: header and contents, in a new block. -/
structure MakesWhole (slurped : SlurpResult) (header contents : Bytes) (made : MadeResponse) :
    Prop where
  response : made.response = ⟨slurped.heap.next, 0⟩
  responseLength : made.responseLength = header.length + contents.length
  block : made.heap.blocks slurped.heap.next = some ((header ++ contents).map some)
  next : made.heap.next = slurped.heap.next + 1
  same : forall block, block < slurped.heap.next -> slurped.buf ≠ .allocated ⟨block, 0⟩ ->
    made.heap.blocks block = slurped.heap.blocks block

theorem makesResponse_of_handsOver {slurped : SlurpResult} {contents : Bytes}
    (hands : HandsOver slurped contents) {fileName : Bytes}
    (fits : (responseHeader fileName contents.length).length + contents.length <
      Heap.mallocLimit) :
    Exists fun made => makesResponse slurped fileName = some made ∧
      MakesWhole slurped (responseHeader fileName contents.length) contents made := by
  rcases hands.buf with ⟨source, buf, live⟩
  have limit : Heap.mallocLimit = 2 ^ 63 := rfl
  have header := responseHeader_length_lt fileName (Nat.lt_trans hands.limit (by decide))
  have lengths := @lengths_of_read (responseHeader fileName contents.length).length contents.length
    (by omega)
  have old := slurped.heap.lt_next_of_live live
  rcases @copies_eq slurped.heap (responseHeader fileName contents.length) contents source live with
    ⟨headed, filled, copies, copiesContents, filledNext, filledBlocks⟩
  have filledLive : filled.blocks source = some (contents.map some) := by
    rw [filledBlocks, Function.update_of_ne (by omega), live]
  rcases @Heap.free_eq filled ⟨source, 0⟩ _ rfl filledLive with ⟨freed, frees, freedBlocks⟩
  dsimp only at freedBlocks
  refine ⟨⟨⟨slurped.heap.next, 0⟩,
    (responseHeader fileName contents.length).length + contents.length, freed⟩,
    ?_, ⟨rfl, rfl, ?_, ?_, ?_⟩⟩
  · unfold makesResponse
    rw [hands.size, buf]
    dsimp only
    rw [if_neg (by unfold tempHeaderBufferSize; omega), lengths.1, lengths.2]
    unfold Heap.malloc
    rw [if_pos fits, Option.bind_some]
    have target : (slurped.heap.allocate
      (List.replicate ((responseHeader fileName contents.length).length +
        contents.length) none)).1.add (responseHeader fileName contents.length).length =
          ⟨slurped.heap.next, (responseHeader fileName contents.length).length⟩ := by
      unfold Pointer.add
      rw [Heap.allocate_fst, Int.zero_add]
    rw [target, Heap.allocate_fst, copies, Option.bind_some, copiesContents, Option.bind_some]
    have freeing : Buffer.frees (.allocated ⟨source, 0⟩) filled = some freed := frees
    rw [freeing]
    rfl
  · dsimp only
    rw [freedBlocks, Function.update_of_ne (by omega), filledBlocks, Function.update_self]
  · exact (Heap.free_next frees).trans filledNext
  · intro block before different
    have other : block ≠ source := fun same => different (by rw [buf, same])
    dsimp only
    rw [freedBlocks, Function.update_of_ne other, filledBlocks, Function.update_of_ne (by omega)]

/-- With the size `-1` the header is copied past the end of the response. -/
theorem makesResponse_of_failed {slurped : SlurpResult} (failed : slurped.size = failedSize)
    (fileName : Bytes) : makesResponse slurped fileName = none := by
  have header := responseHeader_length_lt fileName (show failedSize < 2 ^ 64 by decide)
  have lengths := lengths_of_failed header.1 header.2
  unfold makesResponse
  dsimp only
  rw [failed, if_neg (by unfold tempHeaderBufferSize; omega), lengths.1, lengths.2]
  unfold Heap.malloc
  rw [if_pos (by unfold Heap.mallocLimit; omega), Option.bind_some, Heap.allocate_fst]
  have overflows : copiesHeader (slurped.heap.allocate
      (List.replicate ((responseHeader fileName failedSize).length - 1) none)).2 ⟨slurped.heap.next,
        0⟩ (responseHeader fileName failedSize) (responseHeader fileName failedSize).length =
          none := by
    unfold copiesHeader
    dsimp only
    split_ifs with enough
    · apply Option.eq_none_iff_forall_ne_some.mpr
      intro after written
      rcases Heap.write_eq_some written with ⟨cells, -, live, -, inside, -⟩
      rw [Heap.allocate_blocks_self] at live
      have length := congrArg List.length (Option.some.inj live)
      rw [List.length_replicate] at length
      rw [List.length_take_of_le enough] at inside
      dsimp only at inside
      omega
    · rfl
  rw [overflows]
  rfl

/-- A response that is made at all fits in memory, unless its length wrapped
around. -/
theorem makesResponse_size {slurped : SlurpResult} {fileName : Bytes} {made : MadeResponse}
    (makes : makesResponse slurped fileName = some made) :
    ((responseHeader fileName slurped.size).length + slurped.size) % 2 ^ 64 < Heap.mallocLimit := by
  unfold makesResponse at makes
  dsimp only at makes
  split_ifs at makes
  rcases Option.bind_eq_some_iff.mp makes with ⟨response, malloc, -⟩
  unfold Heap.malloc at malloc
  split_ifs at malloc with size
  exact size

/-- What slurping a file does to memory: the entry stands for the served file,
its name has a block of its own, and older blocks are as they were. -/
structure Loads (heap : Heap) (entry : JohnnyFile) (after : Heap) (served : ServedFile) : Prop where
  holds : Holds after entry served
  start : entry.urlEncodedFileName.offset = 0
  new : heap.next ≤ entry.urlEncodedFileName.block
  same : forall block, block < heap.next -> after.blocks block = heap.blocks block
  next : heap.next ≤ after.next

theorem johnnySlurpsFile_of_loadable {file : FileAccess} {fileName : Bytes} {served : ServedFile}
    (loadable : Loadable file fileName served) (short : 3 * fileName.length ≤ intMax)
    (heap : Heap) :
    Exists fun entry => Exists fun after => johnnySlurpsFile file fileName heap =
      some (entry, after) ∧
      Loads heap entry after served := by
  rcases loadable.response with ⟨contents, readable, response⟩
  have size := loadable.size
  rw [response, List.length_append] at size
  rcases slurp_handsOver readable heap with ⟨slurped, slurps, hands, slurpedNext, slurpedSame⟩
  rcases makesResponse_of_handsOver hands size with ⟨made, makes, whole⟩
  have madeNext := whole.next
  have shorter := classifies_length_le fileName
  rcases encodesFileName_eq loadable.key (by omega) made.heap
    with ⟨after, encodes, key, afterNext, same⟩
  have final : after.blocks slurped.heap.next =
      some ((responseHeader fileName contents.length ++ contents).map some) := by
    rw [same _ (by omega), whole.block]
  have bytes := Heap.readBytes_block final
  rw [List.length_append, ← whole.response, ← whole.responseLength] at bytes
  refine ⟨⟨⟨made.heap.next, 0⟩, served.response, served.responseLength⟩, after, ?_,
    ⟨⟨key, rfl, rfl⟩, rfl, ?_, ?_, ?_⟩⟩
  · rw [johnnySlurpsFile_eq, slurps, Option.bind_some, makes, Option.bind_some, encodes,
      Option.bind_some]
    dsimp only
    rw [bytes, loadable.responseLength, response, List.length_append, whole.responseLength]
    rfl
  · dsimp only
    omega
  · intro block old
    rcases slurpedSame block old with ⟨slurpedBlock, other⟩
    rw [same _ (by omega), whole.same block (by omega) other, slurpedBlock]
  · omega

/-- With the size `-1` there is no entry. -/
theorem johnnySlurpsFile_of_unreadable {file : FileAccess}
    (unreadable : forall contents, ¬ Readable file contents) (fileName : Bytes) (heap : Heap) :
    johnnySlurpsFile file fileName heap = none := by
  rw [johnnySlurpsFile_eq]
  cases slurps : slurp file heap with
  | none => rfl
  | some slurped =>
      rw [Option.bind_some, makesResponse_of_failed (slurp_of_unreadable unreadable slurps)]
      rfl

/-- Slurping gets through only for a file that can be served. -/
theorem loadable_of_johnnySlurpsFile {file : FileAccess} {fileName : Bytes} {heap : Heap}
    {result : JohnnyFile × Heap} (slurps : johnnySlurpsFile file fileName heap = some result) :
    Exists fun served => Loadable file fileName served := by
  by_cases readable : Exists fun contents => Readable file contents
  · rcases readable with ⟨contents, readable⟩
    rcases slurp_handsOver readable heap with ⟨slurped, slurpsFile, hands, -⟩
    have header := responseHeader_length_lt fileName (Nat.lt_trans readable.size (by decide))
    have contentsSize := readable.size
    have limit : Heap.mallocLimit = 2 ^ 63 := rfl
    rw [johnnySlurpsFile_eq, slurpsFile, Option.bind_some] at slurps
    rcases Option.bind_eq_some_iff.mp slurps with ⟨made, makes, afterMade⟩
    rcases Option.bind_eq_some_iff.mp afterMade with ⟨encoded, encodes, -⟩
    rcases Option.bind_eq_some_iff.mp encodes with ⟨encodedText, -, afterText⟩
    rcases Option.bind_eq_some_iff.mp afterText with ⟨key, keyEncodes, -⟩
    have size := makesResponse_size makes
    rw [hands.size, Nat.mod_eq_of_lt (by omega)] at size
    refine ⟨⟨key, responseHeader fileName contents.length ++ contents, _⟩,
      ⟨contents, readable, rfl⟩,
      (urlEncodes_eq_some.mp keyEncodes).1, rfl, ?_⟩
    dsimp only
    rw [List.length_append]
    exact size
  · rw [johnnySlurpsFile_of_unreadable (fun contents held => readable ⟨contents, held⟩)] at slurps
    cases slurps

end Setup
end Johnny
