import Johnny.Worker.Framing
import Mathlib.Tactic.IntervalCases

namespace Johnny
namespace Worker

open Library

/-!
# Streams of well-formed requests

A request is `GET /`, a file name, a space and a tail that ends with the first
CRLFCRLF in it.  Fed to the tokenizer from control state 4, it yields its file
name and ends in control state 4 again.  A division of the stream into chunks
is then judged by its boundaries alone: the names come out whole exactly when
no boundary lies behind the first byte of a name and before its space.
-/

/-- The four bytes at the end of a request. -/
def endOfHeaders : Bytes := ascii "\r\n\r\n"

theorem endOfHeaders_eq : endOfHeaders = [13, 10, 13, 10] := rfl

/-- A request as the parser expects it.  Every CR of the tail begins a CRLF. -/
structure Request where
  name : Bytes
  tail : Bytes
  noSpace : 32 ∉ name
  noNul : 0 ∉ name
  ends : Exists fun headers => tail = headers ++ endOfHeaders
  once : forall before after, tail = before ++ endOfHeaders ++ after -> after = []
  lines : forall before after, tail = before ++ 13 :: after -> Exists fun rest => after = 10 :: rest

/-- `GET /`, the name, a space and the tail. -/
def Request.bytes (request : Request) : Bytes :=
  ascii "GET /" ++ (request.name ++ 32 :: request.tail)

/-- A request whose tail is one line and the empty line behind it. -/
def Request.oneLine (name line : Bytes) (noSpace : 32 ∉ name) (noNul : 0 ∉ name)
    (noCr : 13 ∉ line) : Request where
  name := name
  tail := line ++ endOfHeaders
  noSpace := noSpace
  noNul := noNul
  ends := ⟨line, rfl⟩
  once := by
    intro before after equal
    rw [List.append_assoc] at equal
    rcases List.append_eq_append_iff.mp equal with ⟨more, -, split⟩ | ⟨more, split, behind⟩
    · have lengths := congrArg List.length split
      simp only [List.length_append] at lengths
      exact List.eq_nil_of_length_eq_zero (by omega)
    · cases more with
      | nil => exact List.append_right_eq_self.mp behind
      | cons byte more =>
          have cr : 13 = byte := (List.cons.inj behind).1
          exact False.elim (noCr (by rw [split, cr]; simp))
  lines := by
    intro before after equal
    rcases List.append_eq_append_iff.mp equal with ⟨more, -, split⟩ | ⟨more, split, behind⟩
    · rcases more with - | ⟨a, - | ⟨b, - | ⟨d, more⟩⟩⟩
      · exact ⟨_, (List.cons.inj split).2.symm⟩
      · exact absurd (List.cons.inj (List.cons.inj split).2).1 (by decide)
      · exact ⟨_, (List.cons.inj (List.cons.inj (List.cons.inj split).2).2).2.symm⟩
      · have last := (List.cons.inj (List.cons.inj (List.cons.inj split).2).2).2
        cases more with
        | nil => exact absurd (List.cons.inj last).1 (by decide)
        | cons e more =>
            have lengths := congrArg List.length (List.cons.inj last).2
            simp at lengths
    · cases more with
      | nil => exact ⟨_, (List.cons.inj behind).2⟩
      | cons byte more =>
          have cr : 13 = byte := (List.cons.inj behind).1
          exact False.elim (noCr (by rw [split, cr]; simp))

def requestBytes (requests : List Request) : Bytes :=
  requests.flatMap Request.bytes

/-- The position of the name of the request that follows `before`. -/
def nameStart (before : List Request) : Nat :=
  (requestBytes before).length + 5

/-- A position behind the first byte of a file name and not behind the space
that ends it. -/
def InsideName (requests : List Request) (position : Nat) : Prop :=
  Exists fun before => Exists fun request => Exists fun after =>
    requests = before ++ request :: after ∧
      nameStart before < position ∧ position ≤ nameStart before + request.name.length

/-- A division of the stream into received chunks. -/
structure Division (requests : List Request) (chunks : List Bytes) : Prop where
  whole : chunks.flatten = requestBytes requests
  sizes : forall chunk, chunk ∈ chunks -> 1 ≤ chunk.length ∧ chunk.length ≤ johnnyBufferSize

/-- Some chunk ends inside a file name. -/
def CutsName (requests : List Request) (chunks : List Bytes) : Prop :=
  Exists fun first => Exists fun rest =>
    chunks = first ++ rest ∧ InsideName requests first.flatten.length

/-- What is left of a tail after some of it was read and `matched` bytes of
CRLFCRLF were matched last. -/
structure HeaderRest (matched : Nat) (rest : Bytes) : Prop where
  ends : Exists fun headers => endOfHeaders.take matched ++ rest = headers ++ endOfHeaders
  once : forall before after, endOfHeaders.take matched ++ rest = before ++ endOfHeaders ++ after ->
    after = []
  lines : forall before after, endOfHeaders.take matched ++ rest = before ++ 13 :: after ->
    Exists fun later => after = 10 :: later

theorem HeaderRest.start (request : Request) : HeaderRest 0 request.tail :=
  ⟨request.ends, request.once, request.lines⟩

theorem HeaderRest.ne_nil {matched : Nat} (small : matched < 4) : ¬ HeaderRest matched [] := by
  intro rest
  rcases rest.ends with ⟨headers, equal⟩
  have lengths := congrArg List.length equal
  simp only [List.append_nil, List.length_take, List.length_append, endOfHeaders_eq,
    List.length_cons, List.length_nil] at lengths
  omega

/-- One more byte of CRLFCRLF was matched. -/
theorem HeaderRest.next {matched : Nat} {byte : UInt8} {later : Bytes} (small : matched < 4)
    (rest : HeaderRest matched (byte :: later)) (equal : byte = crlfcrlf.getD matched 0) :
    HeaderRest (matched + 1) later := by
  have shift : endOfHeaders.take (matched + 1) ++ later =
      endOfHeaders.take matched ++ byte :: later := by
    subst equal
    interval_cases matched <;> rfl
  exact ⟨by rw [shift]; exact rest.ends, by rw [shift]; exact rest.once,
    by rw [shift]; exact rest.lines⟩

/-- After the fourth byte nothing is left. -/
theorem HeaderRest.complete {later : Bytes} (rest : HeaderRest 4 later) : later = [] :=
  rest.once [] later rfl

/-- A byte that breaks a partial match belongs to no match: after a CR it
would have to be a LF, and after CRLF it is not a CR. -/
theorem HeaderRest.restart {matched : Nat} {byte : UInt8} {later : Bytes} (small : matched < 4)
    (rest : HeaderRest matched (byte :: later)) (different : byte ≠ crlfcrlf.getD matched 0) :
    HeaderRest 0 later := by
  have shift : forall before, endOfHeaders.take matched ++ byte :: (before : Bytes) =
      (endOfHeaders.take matched ++ [byte]) ++ before := by
    intro before
    rw [List.append_assoc]
    rfl
  refine ⟨?_, ?_, ?_⟩
  · rcases rest.ends with ⟨headers, equal⟩
    interval_cases matched
    · cases headers with
      | nil => exact False.elim (different (List.cons.inj equal).1)
      | cons head headers => exact ⟨headers, (List.cons.inj equal).2⟩
    · rcases rest.lines [] (byte :: later) rfl with ⟨_, afterCr⟩
      exact False.elim (different (List.cons.inj afterCr).1)
    · change 13 :: 10 :: byte :: later = headers ++ [13, 10, 13, 10] at equal
      rcases headers with - | ⟨a, - | ⟨b, - | ⟨d, headers⟩⟩⟩
      · have third := (List.cons.inj (List.cons.inj (List.cons.inj equal).2).2).1
        exact False.elim (different third)
      · have second := (List.cons.inj (List.cons.inj equal).2).1
        exact absurd second (by decide)
      · have third := (List.cons.inj (List.cons.inj (List.cons.inj equal).2).2).1
        exact False.elim (different third)
      · exact ⟨headers, (List.cons.inj (List.cons.inj (List.cons.inj equal).2).2).2⟩
    · rcases rest.lines [13, 10] (byte :: later) rfl with ⟨_, afterCr⟩
      exact False.elim (different (List.cons.inj afterCr).1)
  · intro before after equal
    apply rest.once (endOfHeaders.take matched ++ [byte] ++ before) after
    have plain : later = before ++ endOfHeaders ++ after := equal
    rw [shift, plain]
    simp only [List.append_assoc]
  · intro before after equal
    apply rest.lines (endOfHeaders.take matched ++ [byte] ++ before) after
    have plain : later = before ++ 13 :: after := equal
    rw [shift, plain]
    simp only [List.append_assoc]

/-- Reading some part of a tail finds and holds nothing; reading all of it
ends in control state 4. -/
theorem HeaderRest.run_take {matched : Nat} {rest : Bytes} (headers : HeaderRest matched rest)
    (small : matched < 4) (tokens : List Bytes) (count : Nat) :
    Exists fun control => control ≤ 4 ∧
      requestTokenizer.run ⟨matched, [], tokens⟩ (rest.take count) = ⟨control, [], tokens⟩ ∧
      (rest.length ≤ count -> control = 4) := by
  induction rest generalizing matched count with
  | nil => exact False.elim (HeaderRest.ne_nil small headers)
  | cons byte later ih =>
      cases count with
      | zero =>
          refine ⟨matched, by omega, rfl, ?_⟩
          intro impossible
          rw [List.length_cons] at impossible
          omega
      | succ count =>
          rw [List.take_succ_cons, Tokenizer.run_cons, List.length_cons, Nat.succ_le_succ_iff]
          by_cases equal : byte = crlfcrlf.getD matched 0
          · have step : requestTokenizer.step ⟨matched, [], tokens⟩ byte =
                ⟨matched + 1, [], tokens⟩ :=
              requestTokenizer.step_match small equal
            have next := headers.next small equal
            rw [step]
            by_cases last : matched = 3
            · subst last
              rw [next.complete]
              exact ⟨4, by omega, by rw [List.take_nil]; rfl, fun _ => rfl⟩
            · exact ih next (by omega) count
          · have step : requestTokenizer.step ⟨matched, [], tokens⟩ byte = ⟨0, [], tokens⟩ :=
              requestTokenizer.step_mismatch small equal
            rw [step]
            exact ih (headers.restart small equal) (by omega) count

@[simp] theorem Request.length_bytes (request : Request) :
    request.bytes.length = 6 + request.name.length + request.tail.length := by
  have line : (ascii "GET /").length = 5 := rfl
  unfold Request.bytes
  rw [List.length_append, List.length_append, List.length_cons, line]
  omega

/-- Reading part of a request holds something only inside its name. -/
theorem Request.held_take_iff (request : Request) (tokens : List Bytes) (count : Nat) :
    (requestTokenizer.run ⟨4, [], tokens⟩ (request.bytes.take count)).held = [] <->
      ¬ (5 < count ∧ count ≤ 5 + request.name.length) := by
  have line : (ascii "GET /").length = 5 := rfl
  have readLine := requestTokenizer.run_request_line 4 [] tokens (ascii "GET /") (by omega)
    (by rw [line])
  rw [line] at readLine
  unfold Request.bytes
  by_cases inLine : count ≤ 5
  · rw [List.take_append_of_le_length (by rw [line]; exact inLine)]
    have bound : ((ascii "GET /").take count).length ≤ 5 := by
      rw [List.length_take, line]
      omega
    rw [requestTokenizer.run_request_line 4 [] tokens _ (by omega) (by omega)]
    exact iff_of_true rfl (fun inside => by omega)
  · rw [List.take_append, List.take_of_length_le (by rw [line]; omega), Tokenizer.run_append,
      readLine, line]
    by_cases inName : count ≤ 5 + request.name.length
    · rw [List.take_append_of_le_length (by omega)]
      have noSpace : 32 ∉ request.name.take (count - 5) :=
        fun member => request.noSpace (List.mem_of_mem_take member)
      rw [requestTokenizer.run_name [] tokens _ noSpace]
      refine iff_of_false ?_ (fun outside => outside ⟨by omega, inName⟩)
      intro empty
      have lengths := congrArg List.length empty
      simp only [List.nil_append, List.length_take, List.length_nil] at lengths
      omega
    · have behind : count - 5 - request.name.length = (count - 6 - request.name.length) + 1 := by
        omega
      rw [List.take_append, List.take_of_length_le (by omega), Tokenizer.run_append,
        requestTokenizer.run_name [] tokens _ request.noSpace, behind, List.take_succ_cons,
        Tokenizer.run_cons]
      rw [List.nil_append, requestTokenizer.step_space]
      rcases (HeaderRest.start request).run_take (by omega) (tokens ++ [request.name])
        (count - 6 - request.name.length) with ⟨control, -, run, -⟩
      rw [run]
      exact iff_of_true rfl (fun inside => inName inside.2)

theorem Request.run_bytes (request : Request) (tokens : List Bytes) :
    requestTokenizer.run ⟨4, [], tokens⟩ request.bytes = ⟨4, [], tokens ++ [request.name]⟩ := by
  have line : (ascii "GET /").length = 5 := rfl
  have readLine := requestTokenizer.run_request_line 4 [] tokens (ascii "GET /") (by omega)
    (by rw [line])
  rw [line] at readLine
  rcases (HeaderRest.start request).run_take (by omega)
    (tokens ++ [request.name]) request.tail.length with
    ⟨control, -, run, complete⟩
  rw [List.take_length, complete (Nat.le_refl _)] at run
  unfold Request.bytes
  rw [Tokenizer.run_append, readLine, Tokenizer.run_append,
    requestTokenizer.run_name [] tokens _ request.noSpace, Tokenizer.run_cons, List.nil_append,
    requestTokenizer.step_space, run]

/-- A stream of requests yields its file names in order. -/
theorem run_requestBytes (requests : List Request) (tokens : List Bytes) :
    requestTokenizer.run ⟨4, [], tokens⟩ (requestBytes requests) =
      ⟨4, [], tokens ++ requests.map Request.name⟩ := by
  induction requests generalizing tokens with
  | nil => simp [requestBytes]
  | cons request rest ih =>
      have later := ih (tokens ++ [request.name])
      unfold requestBytes at later ⊢
      rw [List.flatMap_cons, Tokenizer.run_append, request.run_bytes, later, List.map_cons]
      simp only [List.append_assoc, List.cons_append, List.nil_append]

theorem run_stream (requests : List Request) :
    requestTokenizer.run (Scan.start 4) (requestBytes requests) =
      ⟨4, [], requests.map Request.name⟩ :=
  run_requestBytes requests []

/-- The first request of a stream and the later ones, seen from a position. -/
theorem insideName_cons_iff (request : Request) (rest : List Request) (position : Nat) :
    InsideName (request :: rest) position <->
      (5 < position ∧ position ≤ 5 + request.name.length) ∨
        (request.bytes.length ≤ position ∧ InsideName rest (position - request.bytes.length)) := by
  constructor
  · rintro ⟨before, inner, after, split, lower, upper⟩
    cases before with
    | nil =>
        have same := (List.cons.inj split).1
        subst same
        simp only [nameStart, requestBytes, List.flatMap_nil, List.length_nil] at lower upper
        exact Or.inl ⟨by omega, by omega⟩
    | cons head before =>
        rcases List.cons.inj split with ⟨rfl, restSplit⟩
        have start : nameStart (request :: before) = request.bytes.length + nameStart before := by
          simp only [nameStart, requestBytes, List.flatMap_cons, List.length_append]
          omega
        rw [start] at lower upper
        exact Or.inr ⟨by omega, before, inner, after, restSplit, by omega, by omega⟩
  · rintro (⟨lower, upper⟩ | ⟨long, before, inner, after, split, lower, upper⟩)
    · refine ⟨[], request, rest, rfl, ?_, ?_⟩ <;>
        simp only [nameStart, requestBytes, List.flatMap_nil, List.length_nil] <;> omega
    · have start : nameStart (request :: before) = request.bytes.length + nameStart before := by
        simp only [nameStart, requestBytes, List.flatMap_cons, List.length_append]
        omega
      refine ⟨request :: before, inner, after, by rw [split]; rfl, ?_, ?_⟩ <;> rw [start] <;> omega

theorem not_insideName_nil (position : Nat) : ¬ InsideName [] position := by
  rintro ⟨before, request, after, split, -⟩
  cases before <;> cases split

instance decidableInsideName : (requests : List Request) -> (position : Nat) ->
    Decidable (InsideName requests position)
  | [], position => isFalse (not_insideName_nil position)
  | request :: rest, position =>
      have := decidableInsideName rest (position - request.bytes.length)
      decidable_of_iff _ (insideName_cons_iff request rest position).symm

theorem cutsName_iff (requests : List Request) (chunks : List Bytes) :
    CutsName requests chunks <->
      Exists fun count => count < chunks.length + 1 ∧
        InsideName requests (chunks.take count).flatten.length := by
  constructor
  · rintro ⟨first, rest, rfl, inside⟩
    refine ⟨first.length, by rw [List.length_append]; omega, ?_⟩
    rwa [List.take_left]
  · rintro ⟨count, -, inside⟩
    exact ⟨chunks.take count, chunks.drop count, (List.take_append_drop count chunks).symm, inside⟩

instance (requests : List Request) (chunks : List Bytes) : Decidable (CutsName requests chunks) :=
  decidable_of_iff _ (cutsName_iff requests chunks).symm

/-- Something is held at a position of the stream exactly inside a name. -/
theorem held_take_requestBytes_iff (requests : List Request) (tokens : List Bytes)
    (position : Nat) :
    (requestTokenizer.run ⟨4, [], tokens⟩ ((requestBytes requests).take position)).held = [] <->
      ¬ InsideName requests position := by
  induction requests generalizing tokens position with
  | nil =>
      exact iff_of_true (by simp [requestBytes]) (not_insideName_nil position)
  | cons request rest ih =>
      have later := ih (tokens ++ [request.name]) (position - request.bytes.length)
      have length := request.length_bytes
      have first := request.held_take_iff tokens position
      rw [insideName_cons_iff, not_or]
      unfold requestBytes at later ⊢
      rw [List.flatMap_cons, List.take_append]
      by_cases long : request.bytes.length ≤ position
      · rw [List.take_of_length_le long, Tokenizer.run_append, request.run_bytes, later]
        have behind : ¬ (5 < position ∧ position ≤ 5 + request.name.length) := by omega
        constructor
        · intro outside
          exact ⟨behind, fun inside => outside inside.2⟩
        · rintro ⟨-, outside⟩ inside
          exact outside ⟨long, inside⟩
      · have none : position - request.bytes.length = 0 := by omega
        rw [none, List.take_zero, List.append_nil, first]
        constructor
        · intro outside
          exact ⟨outside, fun inside => long inside.1⟩
        · exact And.left

/-! ## Divisions -/

/-- Seen from the reader that never forgets, the chunks end with nothing held
exactly when they cut no name. -/
theorem chunks_held_iff {requests : List Request} {chunks : List Bytes}
    (whole : chunks.flatten = requestBytes requests) :
    (forall first rest, chunks = first ++ rest -> first ≠ [] ->
      (requestTokenizer.run (Scan.start 4) first.flatten).held = []) <->
        ¬ CutsName requests chunks := by
  have prefixTake : forall first rest, chunks = first ++ rest ->
      first.flatten = (requestBytes requests).take first.flatten.length := by
    intro first rest split
    rw [← whole, split, List.flatten_append, List.take_left']
    rfl
  constructor
  · rintro held ⟨first, rest, split, inside⟩
    by_cases empty : first = []
    · subst empty
      rcases inside with ⟨_, _, _, _, lower, _⟩
      simp at lower
    · have now := held first rest split empty
      rw [prefixTake first rest split] at now
      exact (held_take_requestBytes_iff requests [] _).mp now inside
  · intro uncut first rest split _
    rw [prefixTake first rest split]
    apply (held_take_requestBytes_iff requests [] _).mpr
    intro inside
    exact uncut ⟨first, rest, split, inside⟩

/-- Names that are found are C strings, even when their beginning was lost. -/
theorem tokens_map_cName {requests : List Request} {chunks : List Bytes}
    (whole : chunks.flatten = requestBytes requests) :
    (requestTokenizer.runChunks (Scan.start 4) chunks).tokens.map cName =
      (requestTokenizer.runChunks (Scan.start 4) chunks).tokens := by
  have trails := requestTokenizer.runChunks_trails (Scan.Trails.refl (Scan.start 4)) chunks
  rw [whole, run_stream] at trails
  refine (List.map_congr_left ?_).trans (List.map_id _)
  intro token member
  apply cName_of_nonzero
  rcases List.forall₂_iff_get.mp trails.tokens with ⟨sameLength, suffixAt⟩
  rcases List.mem_iff_getElem.mp member with ⟨i, bound, rfl⟩
  have inside : i < requests.length := by
    rw [sameLength, List.length_map] at bound
    exact bound
  have suffix := suffixAt i bound (sameLength ▸ bound)
  intro zero
  have inName := suffix.subset zero
  simp only [List.get_eq_getElem, List.getElem_map] at inName
  exact (requests.get ⟨i, inside⟩).noNul inName

/-- What a fresh connection finds in any division of a stream of requests. -/
theorem feedChunks_division {requests : List Request} {chunks : List Bytes}
    (division : Division requests chunks) {c : Connection} (ready : ParserReady c 4 0 0) :
    Exists fun after =>
      feedChunks chunks c =
        some ((requestTokenizer.runChunks (Scan.start 4) chunks).tokens, after) ∧
      after.ctx.prefixCounter = 4 := by
  rcases feedChunks_eq ready chunks (fun chunk member => (division.sizes chunk member).2) with
    ⟨after, found, afterReady⟩
  rw [tokens_map_cName division.whole] at found
  refine ⟨after, found, ?_⟩
  rw [afterReady.prefixCounter, Tokenizer.runChunks_control, division.whole, run_stream]
  rfl

theorem runChunks_names_iff {requests : List Request} {chunks : List Bytes}
    (division : Division requests chunks) :
    (requestTokenizer.runChunks (Scan.start 4) chunks).tokens = requests.map Request.name <->
      ¬ CutsName requests chunks := by
  have run := run_stream requests
  rw [← chunks_held_iff division.whole, ← Tokenizer.runChunks_tokens_eq_iff]
  · rw [division.whole, run]
  · rw [division.whole, run]

/-- Fed with any chunks that cut no name, a freshly allocated connection finds
exactly the names of the requests and waits for the next request. -/
theorem feedChunks_names (memory : Memory) (fd : Int) (malloced : Malloced)
    (requests : List Request) (chunks : List Bytes) (division : Division requests chunks)
    (uncut : ¬ CutsName requests chunks) :
    Exists fun after =>
      feedChunks chunks (allocatedConnection memory fd malloced) =
        some (requests.map Request.name, after) ∧
      after.ctx.prefixCounter = 4 := by
  have found := feedChunks_division division (allocatedConnection_ready memory fd malloced)
  rwa [(runChunks_names_iff division).mpr uncut] at found

/-- Two requests in chunks that end inside `GET /`, right behind it, and inside
CRLFCRLF. -/
theorem feedChunks_names_two :
    Exists fun after =>
      feedChunks
        [ascii "GE", ascii "T /", ascii "a HTTP/1.1\r", ascii "\n\r\nGET /b.css HTTP/1.1\r\n\r\n"]
        (allocatedConnection Memory.zero 5 unusedMalloced) =
        some ([ascii "a", ascii "b.css"], after) ∧
      after.ctx.prefixCounter = 4 :=
  feedChunks_names Memory.zero 5 unusedMalloced
    [Request.oneLine (ascii "a") (ascii "HTTP/1.1") (by decide) (by decide) (by decide),
      Request.oneLine (ascii "b.css") (ascii "HTTP/1.1") (by decide) (by decide) (by decide)]
    _ ⟨by decide, by decide⟩ (by decide)

/-- Fed with chunks that cut a name, it finds another list of names: at each cut
the part of the name that was already received is lost. -/
theorem feedChunks_ne_names (memory : Memory) (fd : Int) (malloced : Malloced)
    (requests : List Request) (chunks : List Bytes) (division : Division requests chunks)
    (cut : CutsName requests chunks) :
    Exists fun names => Exists fun after =>
      feedChunks chunks (allocatedConnection memory fd malloced) = some (names, after) ∧
      names ≠ requests.map Request.name := by
  rcases feedChunks_division division (allocatedConnection_ready memory fd malloced) with
    ⟨after, found, -⟩
  refine ⟨_, after, found, ?_⟩
  intro same
  exact (runChunks_names_iff division).mp same cut

/-- A request for `ab` that arrives in two chunks, cut behind the `a`. -/
def cutRequest : Request :=
  Request.oneLine (ascii "ab") (ascii "HTTP/1.1") (by decide) (by decide) (by decide)

def cutChunks : List Bytes := [ascii "GET /a", ascii "b HTTP/1.1\r\n\r\n"]

theorem feedChunks_ne_names_cutRequest :
    Exists fun names => Exists fun after =>
      feedChunks cutChunks (allocatedConnection Memory.zero 5 unusedMalloced) =
        some (names, after) ∧
      names ≠ [ascii "ab"] :=
  feedChunks_ne_names Memory.zero 5 unusedMalloced [cutRequest] cutChunks ⟨by decide, by decide⟩
    (by decide)

theorem not_reassembled_cutRequest :
    ¬ forall requests chunks, Division requests chunks -> CutsName requests chunks ->
      Exists fun after =>
        feedChunks chunks (allocatedConnection Memory.zero 5 unusedMalloced) =
          some (requests.map Request.name, after) := by
  intro reassembled
  rcases reassembled [cutRequest] cutChunks ⟨by decide, by decide⟩ (by decide) with ⟨after, whole⟩
  have names : (feedChunks cutChunks
      (allocatedConnection Memory.zero 5 unusedMalloced)).map Prod.fst =
      some [ascii "b"] := by
    decide
  rw [whole] at names
  have same : [ascii "ab"] = [ascii "b"] := Option.some.inj names
  exact absurd same (by decide)

end Worker
end Johnny
