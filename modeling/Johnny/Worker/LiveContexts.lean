import Johnny.Worker.Operations

namespace Johnny
namespace Worker

open Library

/-!
# What holds of every live context

A step of a worker changes one context: the one it allocates, or the one its
event is about.  So a property of contexts and the calls made on them holds of
all live ones in every reachable worker if new contexts have it and no event
on a context takes it away.  Nothing here needs the contexts of two connections
to be different.
-/

def ForLive (P : ContextPointer -> ConnectionContext -> List Call -> Prop) (state : WorkerState) :
    Prop :=
  forall ctx, ctx ∈ state.live -> P ctx (state.memory.contexts ctx) (state.history ctx)

/-- The calls on a connection since it was accepted, up to the end of a turn. -/
def WorkerState.callsThrough (globals : Globals) (state : WorkerState) (ctx : ContextPointer)
    (turn : Turn) : List Call :=
  state.history ctx ++ (state.processes globals ctx turn).2.calls

/-- An allocation hands out a context that is not in use. -/
def AllocatesUnused (state : WorkerState) : WorkerStep -> Prop
  | .accept fd malloced _ =>
      fd ≠ -1 -> (johnnyAllocatesConnection state.memory fd malloced).1 ∉ state.live
  | .turn _ _ => True

instance (state : WorkerState) : (step : WorkerStep) -> Decidable (AllocatesUnused state step)
  | .accept fd malloced _ => inferInstanceAs (Decidable
      (fd ≠ -1 -> (johnnyAllocatesConnection state.memory fd malloced).1 ∉ state.live))
  | .turn _ _ => .isTrue trivial

theorem johnnyAllocatesConnection_contexts_of_ne {memory : Memory} {fd : Int} {malloced : Malloced}
    {ctx : ContextPointer} (different : ctx ≠ (johnnyAllocatesConnection memory fd malloced).1) :
    (johnnyAllocatesConnection memory fd malloced).2.contexts ctx = memory.contexts ctx := by
  unfold johnnyAllocatesConnection at different ⊢
  dsimp only at different ⊢
  split_ifs at different ⊢ with onHeap
  · exact Function.update_of_ne different _ _
  · exact Function.update_of_ne different _ _

/-- Accepting a connection leaves the live contexts as they are. -/
theorem WorkerState.accepts_live {state : WorkerState} {ctx : ContextPointer}
    (live : ctx ∈ state.live) {fd : Int} {malloced : Malloced} (added : Bool)
    (unused : AllocatesUnused state (.accept fd malloced added)) :
    ctx ∈ (state.accepts fd malloced added).live ∧
      (state.accepts fd malloced added).memory.contexts ctx = state.memory.contexts ctx := by
  by_cases made : fd ≠ -1
  · have different : ctx ≠ (johnnyAllocatesConnection state.memory fd malloced).1 :=
      fun same => unused made (same ▸ live)
    have accepted : state.accepts fd malloced added = _ := if_pos made
    rw [accepted]
    exact ⟨List.mem_cons_of_mem _ live, johnnyAllocatesConnection_contexts_of_ne different⟩
  · have accepted : state.accepts fd malloced added = state := if_neg made
    rw [accepted]
    exact ⟨live, rfl⟩

@[simp] theorem johnnyDeallocatesConnection_contexts (memory : Memory) (ctx : ContextPointer) :
    (johnnyDeallocatesConnection memory ctx).contexts = memory.contexts := by
  unfold johnnyDeallocatesConnection
  dsimp only
  split_ifs
  · cases ctx <;> rfl
  · rfl

@[simp] theorem johnnyDeallocatesConnection_stackDataBuffer (memory : Memory)
    (ctx : ContextPointer) :
    (johnnyDeallocatesConnection memory ctx).stackDataBuffer = memory.stackDataBuffer := by
  unfold johnnyDeallocatesConnection
  dsimp only
  split_ifs
  · cases ctx <;> rfl
  · rfl

theorem WorkerState.takesTurn_live_subset (globals : Globals) (state : WorkerState)
    (ctx : ContextPointer) (turn : Turn) :
      (state.takesTurn globals ctx turn).live ⊆ state.live := by
  unfold takesTurn
  dsimp only
  cases (state.processes globals ctx turn).1 with
  | closed => exact List.erase_subset
  | kept => exact fun _ member => member

theorem WorkerState.takesTurn_live_of_kept {globals : Globals} {state : WorkerState}
    {ctx : ContextPointer} {turn : Turn} (kept : (state.processes globals ctx turn).1 = .kept) :
    (state.takesTurn globals ctx turn).live = state.live := by
  unfold takesTurn
  dsimp only
  rw [kept]
  rfl

/-- A turn closes no connection but its own. -/
theorem WorkerState.mem_takesTurn_live_of_ne (globals : Globals) {state : WorkerState}
    {ctx other : ContextPointer} (live : ctx ∈ state.live) (different : ctx ≠ other) (turn : Turn) :
    ctx ∈ (state.takesTurn globals other turn).live := by
  unfold takesTurn
  dsimp only
  cases (state.processes globals other turn).1 with
  | closed => exact (List.mem_erase_of_ne different).mpr live
  | kept => exact live

@[simp] theorem WorkerState.takesTurn_contexts (globals : Globals) (state : WorkerState)
    (ctx : ContextPointer) (turn : Turn) :
    (state.takesTurn globals ctx turn).memory.contexts =
      Function.update state.memory.contexts ctx (state.processes globals ctx turn).2.ctx := by
  unfold takesTurn
  dsimp only
  cases (state.processes globals ctx turn).1 with
  | closed => exact johnnyDeallocatesConnection_contexts _ _
  | kept => rfl

@[simp] theorem WorkerState.takesTurn_stackDataBuffer (globals : Globals) (state : WorkerState)
    (ctx : ContextPointer) (turn : Turn) :
    (state.takesTurn globals ctx turn).memory.stackDataBuffer =
      (state.processes globals ctx turn).2.stackDataBuffer := by
  unfold takesTurn
  dsimp only
  cases (state.processes globals ctx turn).1 with
  | closed => exact johnnyDeallocatesConnection_stackDataBuffer _ _
  | kept => rfl

@[simp] theorem WorkerState.takesTurn_history (globals : Globals) (state : WorkerState)
    (ctx : ContextPointer) (turn : Turn) :
    (state.takesTurn globals ctx turn).history =
      Function.update state.history ctx (state.callsThrough globals ctx turn) := by
  unfold takesTurn
  dsimp only
  cases (state.processes globals ctx turn).1 <;> rfl

namespace ForLive

variable {P : ContextPointer -> ConnectionContext -> List Call -> Prop} {state : WorkerState}

theorem zero : ForLive P WorkerState.zero := by
  intro ctx member
  cases member

theorem accepts (holds : ForLive P state) {fd : Int} {malloced : Malloced} (added : Bool)
    (new : P (johnnyAllocatesConnection state.memory fd malloced).1
      ((johnnyAllocatesConnection state.memory fd malloced).2.contexts
        (johnnyAllocatesConnection state.memory fd malloced).1) []) :
    ForLive P (state.accepts fd malloced added) := by
  unfold WorkerState.accepts
  by_cases made : fd ≠ -1
  · rw [if_pos made]
    intro ctx member
    dsimp only at member ⊢
    by_cases same : ctx = (johnnyAllocatesConnection state.memory fd malloced).1
    · rw [same, Function.update_self]
      exact new
    · rw [johnnyAllocatesConnection_contexts_of_ne same, Function.update_of_ne same]
      rcases List.mem_cons.mp member with equal | old
      · exact absurd equal same
      · exact holds ctx old
  · rw [if_neg made]
    exact holds

/-- After a turn only its own context can have lost the property. -/
theorem takesTurn_iff (globals : Globals) (holds : ForLive P state) (ctx : ContextPointer)
    (turn : Turn) : ForLive P (state.takesTurn globals ctx turn) <->
      (ctx ∈ (state.takesTurn globals ctx turn).live ->
        P ctx (state.processes globals ctx turn).2.ctx (state.callsThrough globals ctx turn)) := by
  constructor
  · intro after member
    have own := after ctx member
    rwa [WorkerState.takesTurn_contexts, WorkerState.takesTurn_history, Function.update_self,
      Function.update_self] at own
  · intro own other member
    rw [WorkerState.takesTurn_contexts, WorkerState.takesTurn_history]
    by_cases same : other = ctx
    · subst same
      rw [Function.update_self, Function.update_self]
      exact own member
    · rw [Function.update_of_ne same, Function.update_of_ne same]
      exact holds other (state.takesTurn_live_subset globals ctx turn member)

/-- A property that new contexts have and that turns keep. -/
theorem reachable {globals : Globals}
    (new : forall memory fd malloced, P (johnnyAllocatesConnection memory fd malloced).1
      ((johnnyAllocatesConnection memory fd malloced).2.contexts
        (johnnyAllocatesConnection memory fd malloced).1) [])
    (kept : forall (state : WorkerState) ctx turn,
      P ctx (state.memory.contexts ctx) (state.history ctx) ->
      P ctx (state.processes globals ctx turn).2.ctx (state.callsThrough globals ctx turn))
    (reachable : (worker globals).Reachable WorkerState.zero state) : ForLive P state := by
  refine (worker globals).invariant_reachable ?_ zero reachable
  intro before step holds enabled
  cases step with
  | accept fd malloced added => exact holds.accepts added (new _ _ _)
  | turn ctx turn =>
      exact (holds.takesTurn_iff globals ctx turn).mpr (fun _ =>
        kept before ctx turn (holds ctx enabled))

end ForLive

end Worker
end Johnny
