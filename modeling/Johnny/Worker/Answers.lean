import Johnny.Worker.Conversations

namespace Johnny
namespace Worker

open Library

/-!
# What a client gets for its requests

The names that the parser finds and the bytes that `send` takes are brought
together.  A client whose requests arrive uncut, each after the response to the
one before has been sent, gets the responses to its names in the order of its
requests.
-/

/-- Up to the end of an event a connection has received whole requests, none of
them divided inside its name, and every name was found while nothing was left to
send.  No `send` of the event failed for good. -/
structure Orderly (globals : Globals) (state : WorkerState) (ctx : ContextPointer) (turn : Turn)
    (requests : List Request) : Prop where
  whole : (receivedChunks (state.callsThrough globals ctx turn)).flatten = requestBytes requests
  uncut : ¬ CutsName requests (receivedChunks (state.callsThrough globals ctx turn))
  whenSent : RequestsWhenSent (state.callsThrough globals ctx turn)
  unfailed : sendFailed (state.processes globals ctx turn).2.calls = false

/-- The responses to the names of some requests. -/
def answers (globals : Globals) (requests : List Request) : Bytes :=
  requests.flatMap (fun request => responseTo globals request.name)

theorem heardNames_requests {requests : List Request} {calls : List Call}
    (whole : (receivedChunks calls).flatten = requestBytes requests)
    (uncut : ¬ CutsName requests (receivedChunks calls)) :
      heardNames calls = requests.map Request.name := by
  have run := run_stream requests
  unfold heardNames heard
  rw [tokens_map_cName whole]
  have names : (requestTokenizer.run (Scan.start 4) (receivedChunks calls).flatten).tokens =
      requests.map Request.name := by
    rw [whole, run]
  rw [← names, Tokenizer.runChunks_tokens_eq_iff]
  · exact (chunks_held_iff whole).mpr uncut
  · rw [whole, run]

theorem requestedResponses_names (globals : Globals) (calls : List Call) :
    requestedResponses globals calls = (requestedNames calls).flatMap (responseTo globals) := by
  induction calls with
  | nil => rfl
  | cons call rest ih =>
      have split : requestedResponses globals (call :: rest) =
          requestedResponses globals [call] ++ requestedResponses globals rest := by
        unfold requestedResponses
        rw [← List.flatMap_append, List.singleton_append]
      rw [split, ih]
      cases call with
      | request fileName unsent => simp [requestedResponses, requestedNames, Call.name]
      | recv space result => rfl
      | send offered result => rfl

/-- As long as no response is replaced, what was sent and what the context holds
make up all responses. -/
theorem Follows.sentBytes_append {globals : Globals} {calls : List Call} {ctx : ConnectionContext}
    (follows : Follows globals calls ctx) (whenSent : RequestsWhenSent calls) :
    sentBytes calls ++ ctx.response.read (getResponseLength ctx) =
      requestedResponses globals calls := by
  have done : Transfer.LoadsWhenDone (calls.map (Call.transfer globals)) :=
    (Transfer.intact_iff _).mp
      (follows.told.integrity_iff_intact.mp (follows.told.integrity_iff.mpr whenSent))
  rw [follows.unsent, follows.told.sentBytes_eq, requestedResponses_eq]
  exact done.sent_append_pending

section

variable {globals : Globals} {state : WorkerState}
  (reachable : ((worker globals).restrict AllocatesUnused).Reachable WorkerState.zero state)
  {ctx : ContextPointer}
  (live : ctx ∈ state.live) {turn : Turn} {requests : List Request}
  (orderly : Orderly globals state ctx turn requests)

include reachable live orderly

/-- What was sent and what is left to send are the answers to the requests. -/
theorem Orderly.answered :
    sentBytes (state.callsThrough globals ctx turn) ++ (state.processes globals ctx turn).2.unsent =
      answers globals requests := by
  rcases hearsAll_reachable reachable with ⟨wakeable, hears⟩
  have plain : (worker globals).Reachable WorkerState.zero state := by
    rcases reachable with ⟨steps, run, after⟩
    exact ⟨steps, (((worker globals).restrict_run AllocatesUnused _ _).mp run).1, after⟩
  have accounted := accounted_processes (accounted_reachable plain live) turn
  have names := (hears.listened wakeable live turn).all orderly.unfailed
  have heard := heardNames_requests orderly.whole orderly.uncut
  unfold Connection.unsent answers
  rw [accounted.follows.sentBytes_append orderly.whenSent, requestedResponses_names]
  change (requestedNames (state.history ctx ++
    (state.processes globals ctx turn).2.calls)).flatMap _ = _
  rw [names]
  change (heardNames (state.callsThrough globals ctx turn)).flatMap _ = _
  rw [heard, List.flatMap_map]

end

/-- Provided that allocations hand out contexts not in use: whatever other
connections do, a client whose events are orderly has been sent a prefix of the
answers to its requests, and all of them when its response length is zero. -/
theorem sentBytes_answers (globals : Globals) (state : WorkerState)
    (reachable : ((worker globals).restrict AllocatesUnused).Reachable WorkerState.zero state)
    (ctx : ContextPointer) (live : ctx ∈ state.live) (turn : Turn) (requests : List Request)
    (orderly : Orderly globals state ctx turn requests) :
    sentBytes (state.callsThrough globals ctx turn) <+: answers globals requests ∧
      (getResponseLength (state.processes globals ctx turn).2.ctx = 0 ->
        sentBytes (state.callsThrough globals ctx turn) = answers globals requests) := by
  have all := orderly.answered reachable live
  refine ⟨⟨_, all⟩, fun none => ?_⟩
  rw [← all]
  unfold Connection.unsent ResponsePointer.read
  rw [none, List.take_zero, List.append_nil]

/-- The page is asked for in one event and sent to its end in the next. -/
theorem sentBytes_answers_resumed :
    sentBytes (partlySent.callsThrough indexOnly (.stack 0) ⟨epollout, [], [.accepted 18]⟩) =
      answers indexOnly [Request.oneLine (ascii "index.html") (ascii "HTTP/1.1") (by decide)
        (by decide) (by decide)] :=
  (sentBytes_answers indexOnly partlySent
    ⟨resumedSteps.take 2, ((worker indexOnly).restrict_run AllocatesUnused _ _).mpr ⟨by decide,
      by decide⟩, rfl⟩
    (.stack 0) (by decide) ⟨epollout, [], [.accepted 18]⟩ _ ⟨by decide, by decide, by decide,
      by decide⟩).2
      (by decide)

end Worker
end Johnny
