import Johnny.Worker.Events

namespace Johnny
namespace Worker

open Library

/-!
# The operations of an event

Whatever an event does on its connection is done by five operations: saving
the event bits, `recv`, a call of the parser, choosing a response, and `send`.
For each function called in an event this module lists the operations it makes.
What is left of the connection is what the operations make of it one after
another, so a statement about every `recv` or `send` of an event is a statement
about the operations in the list, each on the connection it finds.
-/

inductive Operation
  | reports (events : BitVec 32)
  | receives (result : RecvResult)
  | findsFilename
  | selectsResponse (position : Int)
  | sendsBytes

/-- The effect of one operation. -/
def Operation.perform (globals : Globals) (c : Connection) : Operation -> Connection
  | .reports events => c.reports events
  | .receives result => Worker.receives c result
  | .findsFilename => (johnnyFindsFilename c).2
  | .selectsResponse position => c.selectsResponse globals (c.fileNameAt position)
  | .sendsBytes => (johnnySendsBytes c).2

/-- A connection under the operations made on it. -/
def operating (globals : Globals) : Machine Connection Operation where
  enabled := fun _ _ => True
  step := Operation.perform globals

section

variable (globals : Globals)

def handlesRequestsLoopOperations : Nat -> Connection -> List Operation
  | 0, _ => []
  | fuel + 1, c =>
      match johnnyFindsFilename c with
      | (none, _) => [.findsFilename]
      | (some position, found) =>
          .findsFilename :: .selectsResponse position :: .sendsBytes ::
            match johnnySendsResponse globals found (found.fileNameAt position) with
            | (.failure, _) => []
            | (.success, sent) => handlesRequestsLoopOperations fuel sent

def johnnyHandlesRequestsOperations (c : Connection) : List Operation :=
  handlesRequestsLoopOperations globals (johnnyBufferSize + 1) c

def receivesOnceOperations (c : Connection) (result : RecvResult) : List Operation :=
  let received := receives c result
  .receives result ::
    if received.ctx.bufferSize = 0 then [] else johnnyHandlesRequestsOperations globals received

def receiveLoopOperations : List RecvResult -> Connection -> List Operation
  | [], c => receivesOnceOperations globals c (.failed eagain)
  | result :: rest, c =>
      receivesOnceOperations globals c result ++
        match receivesOnce globals c result with
        | (.more, c) => receiveLoopOperations rest c
        | _ => []

def resumesSendingOperations (events : BitVec 32) (c : Connection) : List Operation :=
  if events &&& epollout ≠ 0 ∧ 0 < getResponseLength c.ctx then [.sendsBytes] else []

def handlesInputOperations (events : BitVec 32) (recvs : List RecvResult) (c : Connection) :
    List Operation :=
  if events &&& epollin ≠ 0 ∧ c.ctx.bufferSize = 0 then receiveLoopOperations globals recvs c
  else if c.ctx.bufferSize ≠ 0 then johnnyHandlesRequestsOperations globals c
  else []

def handlesEventOperations (events : BitVec 32) (recvs : List RecvResult) (c : Connection) :
    List Operation :=
  .reports events :: resumesSendingOperations events (c.reports events) ++
    match resumesSending events (c.reports events) with
    | (.failure, _) => []
    | (.success, c) => handlesInputOperations globals events recvs c

end

section

variable (globals : Globals)

theorem after_handlesRequestsLoop (fuel : Nat) (c : Connection) :
    (operating globals).after c (handlesRequestsLoopOperations globals fuel c) =
      (handlesRequestsLoop globals fuel c).2 := by
  induction fuel generalizing c with
  | zero => rfl
  | succ fuel ih =>
      have finds : (Operation.findsFilename).perform globals c = (johnnyFindsFilename c).2 := rfl
      rw [handlesRequestsLoopOperations, handlesRequestsLoop]
      generalize johnnyFindsFilename c = found at finds ⊢
      rcases found with ⟨position, found⟩
      cases position with
      | none => exact finds
      | some position =>
          have sends : (Operation.sendsBytes).perform globals
              (found.selectsResponse globals (found.fileNameAt position)) =
                (johnnySendsResponse globals found (found.fileNameAt position)).2 := rfl
          dsimp only at finds ⊢
          rw [Machine.after_cons, Machine.after_cons, Machine.after_cons]
          dsimp only [operating] at ih ⊢
          rw [finds, Operation.perform, sends]
          generalize johnnySendsResponse globals found (found.fileNameAt position) = sent
          rcases sent with ⟨exit, sent⟩
          cases exit with
          | failure => rfl
          | success => exact ih sent

theorem after_johnnyHandlesRequests (c : Connection) :
    (operating globals).after c (johnnyHandlesRequestsOperations globals c) =
      (johnnyHandlesRequests globals c).2 :=
  after_handlesRequestsLoop globals _ c

theorem after_receivesOnce (c : Connection) (result : RecvResult) :
    (operating globals).after c (receivesOnceOperations globals c result) =
      (receivesOnce globals c result).2 := by
  have handled := after_johnnyHandlesRequests globals (receives c result)
  unfold receivesOnceOperations receivesOnce
  dsimp only
  rw [Machine.after_cons]
  change (operating globals).after (receives c result) _ = _
  by_cases none : (receives c result).ctx.bufferSize = 0
  · rw [if_pos none, if_pos none]
    rfl
  · rw [if_neg none, if_neg none, handled]
    generalize johnnyHandlesRequests globals (receives c result) = handling
    rcases handling with ⟨exit, after⟩
    cases exit with
    | failure => rfl
    | success =>
        dsimp only
        split_ifs
        · rfl
        · rfl
        · rfl

theorem after_receiveLoop (recvs : List RecvResult) (c : Connection) :
    (operating globals).after c (receiveLoopOperations globals recvs c) =
      (receiveLoop globals recvs c).2 := by
  induction recvs generalizing c with
  | nil => exact after_receivesOnce globals c _
  | cons result rest ih =>
      rw [receiveLoopOperations, receiveLoop, Machine.after_append, after_receivesOnce]
      generalize receivesOnce globals c result = receiving
      rcases receiving with ⟨round, after⟩
      cases round with
      | more => exact ih after
      | drained => rfl
      | closed => rfl

theorem after_resumesSending (events : BitVec 32) (c : Connection) :
    (operating globals).after c (resumesSendingOperations events c) =
    (resumesSending events c).2 := by
  unfold resumesSendingOperations resumesSending
  split_ifs
  · rfl
  · rfl

theorem after_handlesInput (events : BitVec 32) (recvs : List RecvResult) (c : Connection) :
    (operating globals).after c (handlesInputOperations globals events recvs c) =
      (handlesInput globals events recvs c).2 := by
  have handled := after_johnnyHandlesRequests globals c
  unfold handlesInputOperations handlesInput
  split_ifs
  · exact after_receiveLoop globals recvs c
  · rw [handled]
    generalize johnnyHandlesRequests globals c = handling
    rcases handling with ⟨exit, after⟩
    cases exit with
    | failure => rfl
    | success => rfl
  · rfl

/-- What an event leaves of a connection is what its operations make of it. -/
theorem after_handlesEvent (events : BitVec 32) (recvs : List RecvResult) (c : Connection) :
    (operating globals).after c (handlesEventOperations globals events recvs c) =
      (handlesEvent globals events recvs c).2 := by
  have resumed := after_resumesSending globals events (c.reports events)
  unfold handlesEventOperations handlesEvent
  rw [List.cons_append, Machine.after_cons, Machine.after_append]
  change (operating globals).after
    ((operating globals).after (c.reports events)
      (resumesSendingOperations events (c.reports events))) _ = _
  rw [resumed]
  generalize resumesSending events (c.reports events) = resuming
  rcases resuming with ⟨exit, after⟩
  cases exit with
  | failure => rfl
  | success => exact after_handlesInput globals events recvs after

end

/-! ## What one event preserves -/

theorem operating_run (globals : Globals) (c : Connection) (operations : List Operation) :
    (operating globals).Run c operations :=
  (operating globals).throughout_of_forall (fun _ _ => trivial) c operations

namespace Preserved

variable {globals : Globals} {P : Connection -> Prop} (preserved : Preserved globals P)

include preserved

theorem perform (c : Connection) (operation : Operation) (holds : P c) :
    P (operation.perform globals c) := by
  cases operation with
  | reports events => exact preserved.reports c events holds
  | receives result => exact preserved.receives c result holds
  | findsFilename => exact preserved.findsFilename c holds
  | selectsResponse position => exact preserved.selectsResponse c _ holds
  | sendsBytes => exact preserved.sendsBytes c holds

/-- What every operation preserves holds at each operation of an event. -/
theorem throughout (operations : List Operation) {c : Connection} (holds : P c) :
    (operating globals).Throughout (fun c _ => P c) c operations :=
  (operating globals).invariant_throughout (fun c operation holds _ =>
    preserved.perform c operation holds)
    holds (operating_run globals c operations)

/-- An event preserves what each operation preserves. -/
theorem handlesEvent (events : BitVec 32) (recvs : List RecvResult) {c : Connection} (holds : P c) :
    P (handlesEvent globals events recvs c).2 := by
  rw [← after_handlesEvent]
  exact (operating globals).invariant_after
    (fun c operation holds _ => preserved.perform c operation holds) holds
      (operating_run globals c _)

end Preserved

end Worker
end Johnny
