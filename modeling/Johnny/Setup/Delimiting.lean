import Johnny.Library.Delimited
import Johnny.Setup.Responses
import Johnny.Worker.Requests

namespace Johnny
namespace Setup

open Library

/-!
# Responses delimit themselves

Responses follow each other on a connection without anything in between.  A
client takes a head up to the first empty line, looks up the content length in
it, and takes as many bytes for the body.  Every response that the server makes
is a head of lines without a carriage return, and tells the length of its body,
so the client gets back the bodies whatever bytes they consist of.
-/

def isDigit (byte : UInt8) : Bool :=
  decide (48 ≤ byte ∧ byte ≤ 57)

/-- The value of a string of digits. -/
def decimalValue (digits : Bytes) : Option Nat :=
  if digits ≠ [] ∧ digits.all isDigit = true then
    some (digits.foldl (fun value digit => 10 * value + (digit.toNat - 48)) 0)
  else none

/-- The value of a header line with this name, compared without case. -/
def fieldValue (name line : Bytes) : Option Bytes :=
  (splitAtFirst [58] line).bind (fun field => if sameIgnoringCase field.1 name =
    true then some field.2 else none)

def contentLength (lines : List Bytes) : Option Nat :=
  (lines.findSome? (fieldValue (ascii "Content-Length"))).bind (fun value =>
    decimalValue (value.dropWhile (fun byte => decide (byte = 32))))

/-- One response from the front of a stream: its body, and what follows. -/
def readsResponse (stream : Bytes) : Option (Bytes × Bytes) :=
  (splitAtFirst [13, 10, 13, 10] stream).bind (fun parts =>
    (readAll (splitAtFirst [13, 10]) (parts.1 ++ [13, 10])).bind (fun lines =>
      (contentLength lines).bind (fun length =>
        if length ≤ parts.2.length then some (parts.2.take length, parts.2.drop length) else none)))

/-- The byte of a digit has its code. -/
theorem toNat_ofNat_digit {character : Char} (digit : character.isDigit = true) :
    (UInt8.ofNat character.toNat).toNat = character.toNat ∧ 48 ≤ character.toNat ∧
      character.toNat ≤ 57 := by
  have range : 48 ≤ character.toNat ∧ character.toNat ≤ 57 := Char.isDigit_iff_toNat.mp digit
  refine ⟨?_, range⟩
  rw [UInt8.toNat_ofNat']
  exact Nat.mod_eq_of_lt (by omega)

theorem decimal_digits {number : Nat} {digit : UInt8} (member : digit ∈ decimal number) :
    48 ≤ digit ∧ digit ≤ 57 := by
  rcases List.mem_map.mp member with ⟨character, inDigits, rfl⟩
  have code := toNat_ofNat_digit (Nat.isDigit_of_mem_toDigits (by decide) (by decide) inDigits)
  rw [UInt8.le_iff_toNat_le, UInt8.le_iff_toNat_le, code.1]
  exact code.2

theorem decimal_ne_nil (number : Nat) : decimal number ≠ [] := by
  intro empty
  exact Nat.toDigits_ne_nil (List.map_eq_nil_iff.mp empty)

theorem foldl_digits {digits : List Char}
    (allDigits : forall character, character ∈ digits -> character.isDigit = true) (value : Nat) :
    (digits.map (fun digit => UInt8.ofNat digit.toNat)).foldl
        (fun value digit => 10 * value + (digit.toNat - 48)) value =
          Nat.ofDigitChars 10 digits value := by
  induction digits generalizing value with
  | nil => rw [Nat.ofDigitChars_nil, List.map_nil, List.foldl_nil]
  | cons character later ih =>
      have code := (toNat_ofNat_digit (allDigits character List.mem_cons_self)).1
      rw [List.map_cons, List.foldl_cons, code, Nat.ofDigitChars_cons]
      exact ih (fun other member => allDigits other (List.mem_cons_of_mem _ member)) _

/-- A printed number is read back. -/
theorem decimalValue_decimal (number : Nat) : decimalValue (decimal number) = some number := by
  unfold decimalValue
  have printed : (decimal number).all isDigit = true :=
    List.all_eq_true.mpr (fun _ member => decide_eq_true (decimal_digits member))
  rw [if_pos ⟨decimal_ne_nil number, printed⟩]
  have allDigits : forall character, character ∈ Nat.toDigits 10 number ->
      character.isDigit = true :=
    fun _ inDigits => Nat.isDigit_of_mem_toDigits (by decide) (by decide) inDigits
  exact congrArg some ((foldl_digits allDigits 0).trans Nat.ofDigitChars_ten_toDigits)

theorem fieldValue_of_colon {lineName : Bytes} (absent : 58 ∉ lineName) (name value : Bytes) :
    fieldValue name (lineName ++ 58 :: value) =
      if sameIgnoringCase lineName name = true then some value else none := by
  unfold fieldValue
  rw [splitAtFirst_append absent, show (58 : UInt8) :: value = [58] ++ value from rfl,
    splitAtFirst_prefix _ _ (by simp)]
  simp

/-- A number is read back from behind a blank. -/
theorem decimalValue_behind_blank (number : Nat) :
    decimalValue ((32 :: decimal number).dropWhile (fun byte => decide (byte = 32))) =
      some number := by
  have start : (decimal number).dropWhile (fun byte => decide (byte = 32)) = decimal number := by
    cases digits : decimal number with
    | nil => exact absurd digits (decimal_ne_nil number)
    | cons digit later =>
        have code := (@decimal_digits number digit (by rw [digits]; exact List.mem_cons_self)).1
        apply List.dropWhile_cons_of_neg
        rw [decide_eq_true_iff]
        intro blank
        rw [blank] at code
        exact absurd code (by decide)
  rw [List.dropWhile_cons_of_pos (by decide), start]
  exact decimalValue_decimal number

/-- A client can take a head apart: its lines are not empty and have no carriage
return. -/
def ProperHead (lines : List Bytes) : Prop :=
  lines ≠ [] ∧ forall line, line ∈ lines -> line ≠ [] ∧ 13 ∉ line

instance (lines : List Bytes) : Decidable (ProperHead lines) :=
  inferInstanceAs (Decidable (_ ∧ _))

/-- A response with such a head gives back its body, whatever follows. -/
theorem readsResponse_of_head {lines : List Bytes} (proper : ProperHead lines) {body : Bytes}
    (told : contentLength lines = some body.length) (rest : Bytes) :
    readsResponse ((endLines 13 10 lines ++ [13, 10] ++ body) ++ rest) = some (body, rest) := by
  rcases splitAtFirst_head (show (13 : UInt8) ≠ 10 by decide) proper.1 proper.2 (body ++ rest) with
    ⟨head, headEq, splits⟩
  have read : readAll (splitAtFirst [13, 10]) (endLines (13 : UInt8) 10 lines) =
      some (lines.map id) := by
    apply readAll_flatMap
    · intro line _
      simp
    · intro line member following
      exact splitAtFirst_line (proper.2 line member).2 following
  unfold readsResponse
  rw [List.append_assoc _ body rest, splits, Option.bind_some]
  dsimp only
  rw [headEq, read, Option.bind_some, List.map_id, told, Option.bind_some,
    if_pos (by rw [List.length_append]; omega), List.take_left, List.drop_left]

/-! ## The responses of the server -/

/-- The lines of a header, without their ends. -/
def headerLines (mimeType : Bytes) (contentEncoding : Option Bytes) (fileSize : Nat) : List Bytes :=
  [ascii "HTTP/1.1 200 OK", ascii "Content-Type: " ++ mimeType] ++
    (match contentEncoding with
    | some contentEncoding => [ascii "Content-Encoding: " ++ contentEncoding]
    | none => []) ++
    [ascii "Content-Length: " ++ decimal fileSize]

theorem printsHeader_eq (mimeType : Bytes) (contentEncoding : Option Bytes) (fileSize : Nat) :
    printsHeader mimeType contentEncoding fileSize =
      endLines 13 10 (headerLines mimeType contentEncoding fileSize) ++ [13, 10] := by
  have status : ascii "HTTP/1.1 200 OK\r\nContent-Type: " =
      ascii "HTTP/1.1 200 OK" ++ [13, 10] ++ ascii "Content-Type: " := by
    decide
  have lineEnd : ascii "\r\n" = [13, 10] := by decide
  have headEnd : ascii "\r\n\r\n" = [13, 10] ++ [13, 10] := by decide
  unfold printsHeader headerLines endLines
  rw [status, lineEnd, headEnd]
  cases contentEncoding with
  | none => simp only [List.flatMap_cons, List.flatMap_nil, List.append_assoc, List.append_nil,
      List.nil_append, List.cons_append]
  | some contentEncoding =>
      simp only [List.flatMap_cons, List.flatMap_nil, List.append_assoc, List.append_nil,
      List.nil_append, List.cons_append]

theorem getMimeType_plain (fileExt : Bytes) : 13 ∉ getMimeType fileExt := by
  have all : forall entry, entry ∈ mimeTypes -> 13 ∉ entry.2 := by decide
  unfold getMimeType
  split
  · next entry found => exact all entry (List.mem_of_find?_eq_some found)
  · decide

theorem getContentEncoding_plain {fileExt contentEncoding : Bytes}
    (found : getContentEncoding fileExt = some contentEncoding) : 13 ∉ contentEncoding := by
  have all : forall entry, entry ∈ contentEncodings -> 13 ∉ entry.2 := by decide
  rcases Option.map_eq_some_iff.mp found with ⟨entry, inList, rfl⟩
  exact all entry (List.mem_of_find?_eq_some inList)

theorem headerLines_proper (mimeType : Bytes) (contentEncoding : Option Bytes) (fileSize : Nat)
    (plain : 13 ∉ mimeType) (plainEncoding : forall encoding, contentEncoding = some encoding ->
      13 ∉ encoding) :
    ProperHead (headerLines mimeType contentEncoding fileSize) := by
  have status : ascii "HTTP/1.1 200 OK" ≠ [] ∧ 13 ∉ ascii "HTTP/1.1 200 OK" := by decide
  have typeName : ascii "Content-Type: " ≠ [] ∧ 13 ∉ ascii "Content-Type: " := by decide
  have encodingName : ascii "Content-Encoding: " ≠ [] ∧ 13 ∉ ascii "Content-Encoding: " := by decide
  have lengthName : ascii "Content-Length: " ≠ [] ∧ 13 ∉ ascii "Content-Length: " := by decide
  have number : 13 ∉ decimal fileSize := fun member => absurd (decimal_digits member).1 (by decide)
  have field : forall name value : Bytes, name ≠ [] ∧ 13 ∉ name -> 13 ∉ value ->
      name ++ value ≠ [] ∧ 13 ∉ name ++ value := by
    intro name value proper plainValue
    refine ⟨List.append_ne_nil_of_left_ne_nil proper.1 _, ?_⟩
    rw [List.mem_append]
    exact not_or.mpr ⟨proper.2, plainValue⟩
  refine ⟨by simp [headerLines], ?_⟩
  intro line member
  unfold headerLines at member
  rw [List.mem_append, List.mem_append, List.mem_cons, List.mem_singleton,
    List.mem_singleton] at member
  rcases member with ((rfl | rfl) | encodes) | rfl
  · exact status
  · exact field _ _ typeName plain
  · cases contentEncoding with
    | none => cases encodes
    | some encoding =>
        rw [List.mem_singleton.mp encodes]
        exact field _ _ encodingName (plainEncoding encoding rfl)
  · exact field _ _ lengthName number

/-- The field behind a label that ends with a colon and a blank. -/
theorem fieldValue_of_label {label lineName : Bytes} (colon : label = lineName ++ [58, 32])
    (absent : 58 ∉ lineName) (name value : Bytes) : fieldValue name (label ++ value) =
      if sameIgnoringCase lineName name = true then some (32 :: value) else none := by
  rw [colon, List.append_assoc]
  exact fieldValue_of_colon absent name (32 :: value)

theorem contentLength_headerLines (mimeType : Bytes) (contentEncoding : Option Bytes)
    (fileSize : Nat) :
    contentLength (headerLines mimeType contentEncoding fileSize) = some fileSize := by
  have status : fieldValue (ascii "Content-Length") (ascii "HTTP/1.1 200 OK") = none := by
    decide +kernel
  have otherType : fieldValue (ascii "Content-Length") (ascii "Content-Type: " ++ mimeType) =
      none := by
    rw [@fieldValue_of_label _ (ascii "Content-Type") (by decide) (by decide)]
    exact if_neg (by decide)
  have otherEncoding : forall encoding,
      fieldValue (ascii "Content-Length") (ascii "Content-Encoding: " ++ encoding) = none := by
    intro encoding
    rw [@fieldValue_of_label _ (ascii "Content-Encoding") (by decide) (by decide)]
    exact if_neg (by decide)
  have found : fieldValue (ascii "Content-Length") (ascii "Content-Length: " ++ decimal fileSize) =
      some (32 :: decimal fileSize) := by
    rw [@fieldValue_of_label _ (ascii "Content-Length") (by decide) (by decide)]
    exact if_pos (by decide)
  have own := decimalValue_behind_blank fileSize
  unfold contentLength headerLines
  cases contentEncoding with
  | none =>
      simp only [List.append_nil, List.cons_append, List.nil_append, List.findSome?_cons, status,
        otherType, found]
      exact own
  | some encoding =>
      simp only [List.cons_append, List.nil_append, List.findSome?_cons, status, otherType,
        otherEncoding, found]
      exact own

/-- The response for a file gives back its contents. -/
theorem readsResponse_responseHeader (fileName contents rest : Bytes) :
    readsResponse ((responseHeader fileName contents.length ++ contents) ++ rest) =
      some (contents, rest) := by
  unfold responseHeader
  rw [printsHeader_eq]
  apply readsResponse_of_head
  · apply headerLines_proper
    · exact getMimeType_plain _
    · intro encoding found
      rcases classifies_contentEncoding found with ⟨fileExt, inList⟩
      exact getContentEncoding_plain inList
  · exact contentLength_headerLines _ _ _

theorem readsResponse_http404 (rest : Bytes) :
    readsResponse (Worker.http404 ++ rest) = some ([], rest) := by
  have head : Worker.http404 =
      endLines 13 10 [ascii "HTTP/1.1 404 Not Found", ascii "Content-length: 0"] ++ [13, 10] ++
        [] := by
    decide
  rw [head]
  exact readsResponse_of_head (by decide) (by decide +kernel) rest

/-- A response, its `response_length`, and the contents it is for. -/
structure ServedResponse where
  response : Bytes
  responseLength : Nat
  contents : Bytes

/-- The response of an entry that `johnny_slurps_file` returns for a file that was
read, or the one for all other requests. -/
inductive BuiltResponse : ServedResponse -> Prop
  | slurped {file : FileAccess} {fileName contents : Bytes} {heap after : Heap} {entry : JohnnyFile}
      (readable : Readable file contents)
      (slurps : johnnySlurpsFile file fileName heap = some (entry, after)) :
      BuiltResponse ⟨entry.response, entry.responseLength, contents⟩
  | notFound : BuiltResponse ⟨Worker.http404, Worker.http404.length, []⟩

theorem makesWhole_of_readable {file : FileAccess} {fileName contents : Bytes} {heap : Heap}
    {slurped : SlurpResult} {made : MadeResponse} (readable : Readable file contents)
    (slurps : slurp file heap = some slurped) (makes : makesResponse slurped fileName = some made) :
    MakesWhole slurped (responseHeader fileName contents.length) contents made := by
  rcases slurp_handsOver readable heap with ⟨other, otherSlurps, hands, -⟩
  rw [slurps] at otherSlurps
  cases otherSlurps
  have header := responseHeader_length_lt fileName (Nat.lt_trans readable.size (by decide))
  have contentsSize := readable.size
  have limit : Heap.mallocLimit = 2 ^ 63 := rfl
  have size := makesResponse_size makes
  rw [hands.size, Nat.mod_eq_of_lt (by omega)] at size
  rcases makesResponse_of_handsOver hands size with ⟨whole, wholeMakes, isWhole⟩
  rw [makes] at wholeMakes
  cases wholeMakes
  exact isWhole

/-- Encoding the name leaves older blocks as they are. -/
theorem encodesFileName_blocks {fileName : Bytes} {heap : Heap} {encoded : Pointer × Heap}
    (encodes : encodesFileName fileName heap = some encoded) {block : Nat}
    (old : block < heap.next) : encoded.2.blocks block = heap.blocks block := by
  unfold encodesFileName Heap.malloc at encodes
  by_cases limit : encodedCapacity fileName < Heap.mallocLimit
  case neg =>
    rw [if_neg limit] at encodes
    cases encodes
  rw [if_pos limit, Option.bind_some] at encodes
  rcases Option.bind_eq_some_iff.mp encodes with ⟨text, -, rest⟩
  rcases Option.map_eq_some_iff.mp rest with ⟨written, writes, rfl⟩
  rcases Heap.write_eq_some writes with ⟨cells, changed, -, -, -, blocks, -⟩
  have other : block ≠ heap.next := Nat.ne_of_lt old
  dsimp only
  rw [blocks, Heap.allocate_fst, Function.update_of_ne other, Heap.allocate_blocks,
    Function.update_of_ne other]

/-- The entry for a file that was read has header and contents as response. -/
theorem response_of_johnnySlurpsFile {file : FileAccess} {fileName contents : Bytes}
    {heap after : Heap} {entry : JohnnyFile} (readable : Readable file contents)
    (slurpsFile : johnnySlurpsFile file fileName heap = some (entry, after)) :
    entry.response = responseHeader fileName contents.length ++ contents ∧
      entry.responseLength = entry.response.length := by
  rw [johnnySlurpsFile_eq] at slurpsFile
  rcases Option.bind_eq_some_iff.mp slurpsFile with ⟨slurped, slurps, afterSlurp⟩
  rcases Option.bind_eq_some_iff.mp afterSlurp with ⟨made, makes, afterMade⟩
  rcases Option.bind_eq_some_iff.mp afterMade with ⟨encoded, encodes, afterName⟩
  rcases Option.map_eq_some_iff.mp afterName with ⟨bytes, reads, same⟩
  cases same
  have whole := makesWhole_of_readable readable slurps makes
  have next := whole.next
  have kept : encoded.2.blocks made.response.block = made.heap.blocks made.response.block := by
    rw [whole.response]
    exact encodesFileName_blocks encodes (by rw [next]; exact Nat.lt_succ_self _)
  have final := whole.readBytes
  unfold Heap.readBytes Heap.read at reads final
  rw [kept, final] at reads
  cases reads
  exact ⟨rfl, by rw [whole.responseLength, List.length_append]⟩

/-- For every list of responses, a client that reads them one after another
gets the contents in order and nothing is left over; and each response length is
the number of bytes. -/
theorem responses_delimit (responses : List ServedResponse)
    (built : forall response, response ∈ responses -> BuiltResponse response) :
    readAll readsResponse (responses.flatMap ServedResponse.response) =
      some (responses.map ServedResponse.contents) ∧
      forall response, response ∈ responses -> response.responseLength =
        response.response.length := by
  have each : forall response, response ∈ responses ->
    response.responseLength = response.response.length ∧
      forall rest, readsResponse (response.response ++ rest) = some (response.contents, rest) := by
    intro response member
    cases built response member with
    | notFound => exact ⟨rfl, readsResponse_http404⟩
    | slurped readable slurps =>
        rcases response_of_johnnySlurpsFile readable slurps with ⟨whole, length⟩
        refine ⟨length, fun rest => ?_⟩
        dsimp only
        rw [whole]
        exact readsResponse_responseHeader _ _ rest
  refine ⟨readAll_flatMap ?_ (fun response member => (each response member).2),
    fun response member =>
    (each response member).1⟩
  intro response member empty
  have reads := (each response member).2 []
  rw [empty] at reads
  have nothing : readsResponse ([] ++ []) = none := by decide
  rw [nothing] at reads
  cases reads

/-- A file whose contents look like a response, before the response for an
unknown name. -/
theorem responses_delimit_two : Exists fun response => Exists fun length =>
    readAll readsResponse (response ++ Worker.http404) = some [Worker.http404, []] ∧
      length = response.length := by
  have readable : Readable ⟨true, some 45, Worker.http404, true⟩ Worker.http404 :=
    ⟨rfl, rfl, ⟨[], rfl⟩, rfl, by decide⟩
  have loadable : Loadable ⟨true, some 45, Worker.http404, true⟩ (ascii "page.html.gz")
      ⟨ascii "page.html",
        responseHeader (ascii "page.html.gz") Worker.http404.length ++ Worker.http404, _⟩ :=
    ⟨⟨_, readable, rfl⟩, by decide, rfl, by decide⟩
  rcases johnnySlurpsFile_of_loadable loadable (by decide) Heap.empty with
    ⟨entry, after, slurps, -⟩
  have built := responses_delimit
    [⟨entry.response, entry.responseLength, Worker.http404⟩,
      ⟨Worker.http404, Worker.http404.length, []⟩] (by
      intro response member
      rcases List.mem_cons.mp member with rfl | last
      · exact .slurped readable slurps
      · rw [List.mem_singleton.mp last]
        exact .notFound)
  exact ⟨_, _, built.1, built.2 _ List.mem_cons_self⟩

end Setup
end Johnny
