import Johnny.Library.Leases
import Johnny.Worker.Batches
import Johnny.Worker.HalfClose

namespace Johnny
namespace Worker

open Library

/-!
# The life cycle of connections

Every descriptor that `accept4` returned and that is open should be registered
with epoll and belong to one live context, and the other way round.  Provided
that allocations hand out contexts that are not in use, one thing can break
this: the result of `epoll_ctl` is not looked at, so a descriptor that could
not be registered stays open for good.

Descriptors and contexts are leased: they are opened or allocated, used, and
given back when the connection is closed.  A batch may hold events for a
context that has been given back in the meantime only if it held two events for
one descriptor.
-/

/-- The connection with this context has this descriptor. -/
def BelongsTo (state : WorkerState) (fd : Int) (ctx : ContextPointer) : Prop :=
  ctx ∈ state.live ∧ (state.memory.contexts ctx).fd = fd

/-- Open descriptors, registrations and live contexts correspond. -/
structure Corresponds (state : WorkerState) : Prop where
  registered : forall fd, fd ∈ state.openFds -> Exists fun ctx => BelongsTo state fd ctx ∧
    (fd, ctx) ∈ state.interest ∧
    forall other, BelongsTo state fd other -> other = ctx
  live : forall ctx, ctx ∈ state.live -> Exists fun fd => fd ∈ state.openFds ∧
    BelongsTo state fd ctx ∧
    forall other, BelongsTo state other ctx -> other = fd
  once : state.live.Nodup ∧ state.openFds.Nodup

/-- What happens to descriptors and contexts: a connection is opened, its
context is read and written, or it is closed. -/
inductive LifeEvent
  | opens (fd : Int) (ctx : ContextPointer)
  | accesses (ctx : ContextPointer)
  | closes (fd : Int) (ctx : ContextPointer)

/-- A context is used by every access, and once more when its descriptor is
looked up to be closed. -/
def contextLeases : Leasing LifeEvent ContextPointer where
  takes := fun event ctx => Exists fun fd => event = .opens fd ctx
  uses := fun event ctx => event = .accesses ctx ∨ Exists fun fd => event = .closes fd ctx
  givesBack := fun event ctx => Exists fun fd => event = .closes fd ctx

/-- A descriptor is given back by `close`, which must not be called twice. -/
def descriptorLeases : Leasing LifeEvent Int where
  takes := fun event fd => Exists fun ctx => event = .opens fd ctx
  uses := fun event fd => Exists fun ctx => event = .closes fd ctx
  givesBack := fun event fd => Exists fun ctx => event = .closes fd ctx

/-- The events of one step. -/
def lifeEvents (globals : Globals) (state : BatchState) : BatchStep -> List LifeEvent
  | .arrives => []
  | .waits _ => []
  | .accept fd malloced _ =>
      if fd ≠ -1 then [.opens fd (johnnyAllocatesConnection state.memory fd malloced).1] else []
  | .turn recvs sends =>
      match state.evBuf with
      | .connection _ ctx events :: _ =>
          let processed := state.toWorkerState.processes globals ctx ⟨events, recvs, sends⟩
          match processed.1 with
          | .closed => [.accesses ctx, .closes processed.2.ctx.fd ctx]
          | .kept => [.accesses ctx]
      | _ => []

/-- An allocation hands out a context that is not in use. -/
def HandsOutUnused (state : BatchState) : BatchStep -> Prop
  | .accept fd malloced _ =>
      fd ≠ -1 -> (johnnyAllocatesConnection state.memory fd malloced).1 ∉ state.live
  | _ => True

instance (state : BatchState) : (step : BatchStep) -> Decidable (HandsOutUnused state step)
  | .accept fd malloced _ => inferInstanceAs (Decidable
      (fd ≠ -1 -> (johnnyAllocatesConnection state.memory fd malloced).1 ∉ state.live))
  | .arrives => .isTrue trivial
  | .waits _ => .isTrue trivial
  | .turn _ _ => .isTrue trivial

/-- An accepted descriptor could be registered. -/
def Registers (_ : BatchState) : BatchStep -> Prop
  | .accept fd _ added => fd ≠ -1 -> added = true
  | _ => True

instance (state : BatchState) : (step : BatchStep) -> Decidable (Registers state step)
  | .accept fd _ added => inferInstanceAs (Decidable (fd ≠ -1 -> added = true))
  | .arrives => .isTrue trivial
  | .waits _ => .isTrue trivial
  | .turn _ _ => .isTrue trivial

/-- What holds of the worker whether or not descriptors can be registered. -/
structure Tracked (state : WorkerState) : Prop where
  live : state.live.Nodup
  openFds : state.openFds.Nodup
  opened : forall fd, fd ∈ state.openFds <-> Exists fun ctx => BelongsTo state fd ctx
  unique : forall fd first second, BelongsTo state fd first -> BelongsTo state fd second ->
    first = second
  interest : forall fd ctx, (fd, ctx) ∈ state.interest -> BelongsTo state fd ctx

/-- Every connection is registered. -/
def AllRegistered (state : WorkerState) : Prop :=
  forall fd ctx, BelongsTo state fd ctx -> (fd, ctx) ∈ state.interest

theorem Tracked.corresponds_iff {state : WorkerState} (tracked : Tracked state) :
    Corresponds state <-> AllRegistered state := by
  constructor
  · intro corresponds fd ctx belongs
    rcases corresponds.registered fd ((tracked.opened fd).mpr ⟨ctx, belongs⟩)
      with ⟨own, -, registered, only⟩
    rw [only ctx belongs]
    exact registered
  · intro registered
    refine ⟨?_, ?_, tracked.live, tracked.openFds⟩
    · intro fd isOpen
      rcases (tracked.opened fd).mp isOpen with ⟨ctx, belongs⟩
      exact ⟨ctx, belongs, registered fd ctx belongs,
        fun other others => tracked.unique fd other ctx others belongs⟩
    · intro ctx live
      have belongs : BelongsTo state (state.memory.contexts ctx).fd ctx := ⟨live, rfl⟩
      exact ⟨_, (tracked.opened _).mpr ⟨ctx, belongs⟩, belongs, fun other others => others.2.symm⟩

theorem tracked_zero : Tracked WorkerState.zero where
  live := List.nodup_nil
  openFds := List.nodup_nil
  opened := fun _ => iff_of_false List.not_mem_nil (fun ⟨_, belongs⟩ => List.not_mem_nil belongs.1)
  unique := fun _ _ _ belongs => absurd belongs.1 List.not_mem_nil
  interest := fun _ _ member => absurd member List.not_mem_nil

/-- A new connection stands beside the ones there are. -/
theorem belongsTo_accepts {state : WorkerState} {newFd : Int} (made : newFd ≠ -1)
    {malloced : Malloced} {added : Bool}
    (unused : (johnnyAllocatesConnection state.memory newFd malloced).1 ∉ state.live)
    (fd : Int) (ctx : ContextPointer) : BelongsTo (state.accepts newFd malloced added) fd ctx <->
      (fd = newFd ∧ ctx = (johnnyAllocatesConnection state.memory newFd malloced).1) ∨
        BelongsTo state fd ctx := by
  have new := (johnnyAllocatesConnection_new state.memory newFd malloced).descriptor
  unfold BelongsTo WorkerState.accepts
  rw [if_pos made]
  dsimp only
  rw [List.mem_cons]
  by_cases same : ctx = (johnnyAllocatesConnection state.memory newFd malloced).1
  · rw [same, new]
    constructor
    · rintro ⟨-, equal⟩
      exact Or.inl ⟨equal.symm, rfl⟩
    · rintro (⟨equal, -⟩ | ⟨live, -⟩)
      · exact ⟨Or.inl rfl, equal.symm⟩
      · exact absurd live unused
  · rw [johnnyAllocatesConnection_contexts_of_ne same]
    constructor
    · rintro ⟨equal | live, belongs⟩
      · exact absurd equal same
      · exact Or.inr ⟨live, belongs⟩
    · rintro (⟨-, equal⟩ | ⟨live, belongs⟩)
      · exact absurd equal same
      · exact ⟨Or.inr live, belongs⟩

section

variable {state : WorkerState} {newFd : Int} (made : newFd ≠ -1) {malloced : Malloced}
  (unused : (johnnyAllocatesConnection state.memory newFd malloced).1 ∉ state.live) {added : Bool}
  (tracked : Tracked state) (fresh : newFd ∉ state.openFds)

include made

theorem mem_interest_accepts {fd : Int} {ctx : ContextPointer} :
    (fd, ctx) ∈ (state.accepts newFd malloced added).interest <->
      (added = true ∧ fd = newFd ∧
        ctx = (johnnyAllocatesConnection state.memory newFd malloced).1) ∨
        (fd, ctx) ∈ state.interest := by
  unfold WorkerState.accepts
  rw [if_pos made]
  dsimp only
  cases added with
  | false =>
      rw [if_neg Bool.false_ne_true]
      exact ⟨Or.inr, fun either => either.resolve_left (fun impossible => by cases impossible.1)⟩
  | true =>
      rw [if_pos rfl, List.mem_cons, Prod.mk.injEq]
      exact or_congr_left (and_iff_right rfl).symm

include tracked fresh

omit made in
theorem Tracked.not_belongsTo (ctx : ContextPointer) : ¬ BelongsTo state newFd ctx :=
  fun belongs => fresh ((tracked.opened newFd).mpr ⟨ctx, belongs⟩)

include unused

theorem Tracked.accepts : Tracked (state.accepts newFd malloced added) := by
  have belongs := fun fd ctx => @belongsTo_accepts state newFd made malloced added unused fd ctx
  have live : (state.accepts newFd malloced added).live =
      (johnnyAllocatesConnection state.memory newFd malloced).1 :: state.live := by
    unfold WorkerState.accepts
    rw [if_pos made]
  have openFds : (state.accepts newFd malloced added).openFds = newFd :: state.openFds := by
    unfold WorkerState.accepts
    rw [if_pos made]
  refine ⟨?_, ?_, ?_, ?_, ?_⟩
  · rw [live]
    exact List.nodup_cons.mpr ⟨unused, tracked.live⟩
  · rw [openFds]
    exact List.nodup_cons.mpr ⟨fresh, tracked.openFds⟩
  · intro fd
    rw [openFds, List.mem_cons, tracked.opened]
    simp only [belongs]
    constructor
    · rintro (new | ⟨ctx, old⟩)
      · exact ⟨_, Or.inl ⟨new, rfl⟩⟩
      · exact ⟨ctx, Or.inr old⟩
    · rintro ⟨ctx, ⟨new, -⟩ | old⟩
      · exact Or.inl new
      · exact Or.inr ⟨ctx, old⟩
  · intro fd first second
    rw [belongs, belongs]
    rintro (⟨firstFd, firstNew⟩ | firstOld) (⟨secondFd, secondNew⟩ | secondOld)
    · rw [firstNew, secondNew]
    · rw [firstFd] at secondOld
      exact absurd secondOld (tracked.not_belongsTo fresh second)
    · rw [secondFd] at firstOld
      exact absurd firstOld (tracked.not_belongsTo fresh first)
    · exact tracked.unique fd first second firstOld secondOld
  · intro fd ctx member
    rw [belongs]
    rcases (mem_interest_accepts made).mp member with ⟨-, new⟩ | old
    · exact Or.inl new
    · exact Or.inr (tracked.interest fd ctx old)

/-- All connections stay registered exactly when the new one is. -/
theorem AllRegistered.accepts_iff (registered : AllRegistered state) :
    AllRegistered (state.accepts newFd malloced added) <-> added = true := by
  have belongs := fun fd ctx => @belongsTo_accepts state newFd made malloced added unused fd ctx
  constructor
  · intro after
    have own := after newFd _ ((belongs _ _).mpr (Or.inl ⟨rfl, rfl⟩))
    rcases (mem_interest_accepts made).mp own with ⟨success, -⟩ | old
    · exact success
    · exact absurd (tracked.interest _ _ old) (tracked.not_belongsTo fresh _)
  · intro success fd ctx belong
    rw [mem_interest_accepts made]
    rcases (belongs fd ctx).mp belong with new | old
    · exact Or.inl ⟨success, new⟩
    · exact Or.inr (registered fd ctx old)

end

theorem WorkerState.takesTurn_kept {globals : Globals} {state : WorkerState} {ctx : ContextPointer}
    {turn : Turn} (kept : (state.processes globals ctx turn).1 = .kept) :
    state.takesTurn globals ctx turn =
      state.store ctx turn (state.processes globals ctx turn).2 := by
  unfold takesTurn
  dsimp only
  rw [kept]

theorem WorkerState.takesTurn_closed {globals : Globals} {state : WorkerState}
    {ctx : ContextPointer} {turn : Turn} (closed : (state.processes globals ctx turn).1 = .closed) :
    state.takesTurn globals ctx turn =
      (state.store ctx turn (state.processes globals ctx turn).2).johnnyClosesConnection ctx := by
  unfold takesTurn
  dsimp only
  rw [closed]

theorem WorkerState.takesTurn_fd (globals : Globals) (state : WorkerState) (ctx : ContextPointer)
    (turn : Turn) (other : ContextPointer) :
    ((state.takesTurn globals ctx turn).memory.contexts other).fd =
    (state.memory.contexts other).fd := by
  rw [takesTurn_contexts]
  by_cases same : other = ctx
  · rw [same, Function.update_self]
    exact (state.processes_same globals ctx turn).fd
  · rw [Function.update_of_ne same]

/-- The descriptor that a closing turn closes is its connection's. -/
theorem WorkerState.store_fd (globals : Globals) (state : WorkerState) (ctx : ContextPointer)
    (turn : Turn) :
    ((state.store ctx turn (state.processes globals ctx turn).2).memory.contexts ctx).fd =
      (state.memory.contexts ctx).fd := by
  unfold store
  dsimp only
  rw [Function.update_self]
  exact (state.processes_same globals ctx turn).fd

section

variable (globals : Globals) {state : WorkerState} (tracked : Tracked state) {ownFd : Int}
  {ctx : ContextPointer}
  (own : BelongsTo state ownFd ctx) (turn : Turn)

include tracked own

theorem Tracked.belongsTo_takesTurn (fd : Int) (other : ContextPointer) :
    BelongsTo (state.takesTurn globals ctx turn) fd other <->
      BelongsTo state fd other ∧
        ((state.processes globals ctx turn).1 = .closed -> fd ≠ ownFd) := by
  unfold BelongsTo
  rw [state.takesTurn_fd globals ctx turn]
  cases verdict : (state.processes globals ctx turn).1 with
  | kept =>
      rw [WorkerState.takesTurn_kept verdict]
      exact ⟨fun belongs => ⟨belongs, fun closed => by cases closed⟩, fun both => both.1⟩
  | closed =>
      have live : (state.takesTurn globals ctx turn).live = state.live.erase ctx := by
        rw [WorkerState.takesTurn_closed verdict]
        rfl
      rw [live, tracked.live.mem_erase_iff]
      constructor
      · rintro ⟨⟨different, member⟩, belongs⟩
        refine ⟨⟨member, belongs⟩, fun _ same => different ?_⟩
        rw [same] at belongs
        exact tracked.unique ownFd other ctx ⟨member, belongs⟩ own
      · rintro ⟨⟨member, belongs⟩, different⟩
        refine ⟨⟨?_, member⟩, belongs⟩
        intro same
        apply different rfl
        rw [← belongs, same]
        exact own.2

theorem Tracked.mem_openFds_takesTurn (fd : Int) :
    fd ∈ (state.takesTurn globals ctx turn).openFds <->
      fd ∈ state.openFds ∧ ((state.processes globals ctx turn).1 = .closed -> fd ≠ ownFd) := by
  cases verdict : (state.processes globals ctx turn).1 with
  | kept =>
      rw [WorkerState.takesTurn_kept verdict]
      exact ⟨fun member => ⟨member, fun closed => by cases closed⟩, fun both => both.1⟩
  | closed =>
      have openFds : (state.takesTurn globals ctx turn).openFds = state.openFds.erase ownFd := by
        rw [WorkerState.takesTurn_closed verdict]
        unfold WorkerState.johnnyClosesConnection
        dsimp only
        rw [WorkerState.store_fd, own.2]
        rfl
      rw [openFds, tracked.openFds.mem_erase_iff]
      exact ⟨fun ⟨different, member⟩ => ⟨member, fun _ => different⟩,
        fun ⟨member, different⟩ => ⟨different rfl, member⟩⟩

omit tracked in
theorem mem_interest_takesTurn (fd : Int) (other : ContextPointer) :
    (fd, other) ∈ (state.takesTurn globals ctx turn).interest <->
      (fd, other) ∈ state.interest ∧
      ((state.processes globals ctx turn).1 = .closed -> fd ≠ ownFd) := by
  cases verdict : (state.processes globals ctx turn).1 with
  | kept =>
      rw [WorkerState.takesTurn_kept verdict]
      exact ⟨fun member => ⟨member, fun closed => by cases closed⟩, fun both => both.1⟩
  | closed =>
      have interest : (state.takesTurn globals ctx turn).interest =
          state.interest.filter (fun entry => decide (entry.1 ≠ ownFd)) := by
        rw [WorkerState.takesTurn_closed verdict]
        unfold WorkerState.johnnyClosesConnection
        dsimp only
        rw [WorkerState.store_fd, own.2]
        rfl
      rw [interest, List.mem_filter, decide_eq_true_iff]
      exact and_congr_right (fun _ =>
        ⟨fun different _ => different, fun different => different rfl⟩)

theorem Tracked.takesTurn : Tracked (state.takesTurn globals ctx turn) := by
  have belongs := tracked.belongsTo_takesTurn globals own turn
  refine ⟨?_, ?_, ?_, ?_, ?_⟩
  · cases verdict : (state.processes globals ctx turn).1 with
    | kept =>
        rw [WorkerState.takesTurn_kept verdict]
        exact tracked.live
    | closed =>
        rw [WorkerState.takesTurn_closed verdict]
        exact tracked.live.erase ctx
  · cases verdict : (state.processes globals ctx turn).1 with
    | kept =>
        rw [WorkerState.takesTurn_kept verdict]
        exact tracked.openFds
    | closed =>
        rw [WorkerState.takesTurn_closed verdict]
        exact tracked.openFds.erase _
  · intro fd
    rw [tracked.mem_openFds_takesTurn globals own turn, tracked.opened]
    simp only [belongs]
    exact ⟨fun ⟨⟨other, belong⟩, different⟩ => ⟨other, belong, different⟩,
      fun ⟨other, belong, different⟩ => ⟨⟨other, belong⟩, different⟩⟩
  · intro fd first second firstBelongs secondBelongs
    exact tracked.unique fd first second ((belongs _ _).mp firstBelongs).1
      ((belongs _ _).mp secondBelongs).1
  · intro fd other member
    rcases (mem_interest_takesTurn globals own turn fd other).mp member with ⟨registered, different⟩
    exact (belongs fd other).mpr ⟨tracked.interest fd other registered, different⟩

theorem AllRegistered.takesTurn (registered : AllRegistered state) :
    AllRegistered (state.takesTurn globals ctx turn) := by
  intro fd other belong
  rcases (tracked.belongsTo_takesTurn globals own turn fd other).mp belong with ⟨before, different⟩
  exact (mem_interest_takesTurn globals own turn fd other).mpr ⟨registered fd other before,
    different⟩

end

/-! ## Batches -/

/-- The events still to be processed concern connections, each another one. -/
structure BatchTracked (state : BatchState) : Prop where
  tracked : Tracked state.toWorkerState
  pending : forall fd ctx events, .connection fd ctx events ∈ state.evBuf ->
    BelongsTo state.toWorkerState fd ctx
  distinct : (state.evBuf.filterMap Event.fd).Nodup

/-- The next event is on a connection, and no later one is on the same. -/
theorem BatchTracked.next {state : BatchState} (batch : BatchTracked state) {fd : Int}
    {ctx : ContextPointer} {events : BitVec 32} {rest : List Event}
    (evBuf : state.evBuf = .connection fd ctx events :: rest) :
    BelongsTo state.toWorkerState fd ctx ∧ (rest.filterMap Event.fd).Nodup ∧
      forall otherFd other otherEvents, .connection otherFd other otherEvents ∈ rest ->
        BelongsTo state.toWorkerState otherFd other ∧ otherFd ≠ fd := by
  have distinct := batch.distinct
  have pending := batch.pending
  rw [evBuf] at distinct pending
  rcases List.nodup_cons.mp distinct with ⟨alone, distinctRest⟩
  refine ⟨pending fd ctx events List.mem_cons_self, distinctRest, ?_⟩
  intro otherFd other otherEvents member
  refine ⟨pending otherFd other otherEvents (List.mem_cons_of_mem _ member), ?_⟩
  intro same
  apply alone
  rw [← same]
  exact List.mem_filterMap.mpr ⟨_, member, rfl⟩

theorem batchTracked_zero : BatchTracked BatchState.zero where
  tracked := tracked_zero
  pending := fun _ _ _ member => absurd member List.not_mem_nil
  distinct := List.nodup_nil

/-- The worker of a batch takes the turn of the next event. -/
theorem BatchState.takesTurn_eq (globals : Globals) {state : BatchState} {fd : Int}
    {ctx : ContextPointer} {events : BitVec 32} {rest : List Event}
    (evBuf : state.evBuf = .connection fd ctx events :: rest)
    (recvs : List RecvResult) (sends : List SendResult) :
    (batches globals).step state (.turn recvs sends) = { state with
      toWorkerState := state.toWorkerState.takesTurn globals ctx ⟨events, recvs, sends⟩
      evBuf := rest } := by
  change state.takesTurn globals recvs sends = _
  unfold BatchState.takesTurn
  rw [evBuf]

theorem BatchTracked.step (globals : Globals) {state : BatchState} (batch : BatchTracked state)
    {step : BatchStep} (enabled : step.Enabled state) (unused : HandsOutUnused state step) :
    BatchTracked ((batches globals).step state step) := by
  cases step with
  | arrives => exact ⟨batch.tracked, batch.pending, batch.distinct⟩
  | waits evBuf =>
      refine ⟨batch.tracked, ?_, enabled.distinct⟩
      intro fd ctx events member
      exact batch.tracked.interest fd ctx (enabled.reports _ member)
  | turn recvs sends =>
      rcases enabled with ⟨fd, ctx, events, head⟩
      rcases List.head?_eq_some_iff.mp head with ⟨rest, evBuf⟩
      rcases batch.next evBuf with ⟨own, distinct, others⟩
      rw [BatchState.takesTurn_eq globals evBuf]
      refine ⟨batch.tracked.takesTurn globals own _, ?_, distinct⟩
      intro otherFd other otherEvents member
      rcases others otherFd other otherEvents member with ⟨belongs, different⟩
      exact (batch.tracked.belongsTo_takesTurn globals own _ _ _).mpr ⟨belongs, fun _ => different⟩
  | accept fd malloced added =>
      rcases enabled with ⟨-, fresh, -⟩
      have tail : state.evBuf.tail.Sublist state.evBuf := List.tail_sublist _
      change BatchTracked (state.accepts fd malloced added)
      by_cases made : fd ≠ -1
      · have tracked : Tracked (state.toWorkerState.accepts fd malloced added) :=
          Tracked.accepts made (unused made) batch.tracked (fresh.resolve_left made).2.1
        refine ⟨tracked, ?_, batch.distinct.sublist (tail.filterMap _)⟩
        intro otherFd ctx events member
        apply (belongsTo_accepts made (unused made) otherFd ctx).mpr
        exact Or.inr (batch.pending otherFd ctx events (tail.subset member))
      · have same : (state.accepts fd malloced added).toWorkerState = state.toWorkerState :=
          if_neg made
        refine ⟨?_, ?_, batch.distinct.sublist (tail.filterMap _)⟩
        · rw [same]
          exact batch.tracked
        · rw [same]
          exact fun otherFd ctx events member =>
            batch.pending otherFd ctx events (tail.subset member)

/-- The leases are in step with the live contexts and the open descriptors. -/
structure Leased (entries : List LifeEvent) (state : WorkerState) : Prop where
  contexts : contextLeases.Current (fun ctx => ctx ∈ state.live) entries
  descriptors : descriptorLeases.Current (fun fd => fd ∈ state.openFds) entries

theorem leased_zero : Leased [] WorkerState.zero where
  contexts := Leasing.Current.nil _
  descriptors := Leasing.Current.nil _

theorem Leased.opens {entries : List LifeEvent} {state : WorkerState}
    (leased : Leased entries state) {fd : Int} (made : fd ≠ -1) (malloced : Malloced)
    (added : Bool) :
    Leased (entries ++ [.opens fd (johnnyAllocatesConnection state.memory fd malloced).1])
      (state.accepts fd malloced added) where
  contexts := by
    unfold WorkerState.accepts
    rw [if_pos made]
    refine leased.contexts.append_singleton ?_ ?_ ?_
    · rintro ctx (equal | ⟨other, equal⟩) <;> cases equal
    · intro ctx member
      rcases List.mem_cons.mp member with new | old
      · exact Or.inr ⟨fd, by rw [new]⟩
      · exact Or.inl old
    · rintro ctx ⟨other, equal⟩
      cases equal
  descriptors := by
    unfold WorkerState.accepts
    rw [if_pos made]
    refine leased.descriptors.append_singleton ?_ ?_ ?_
    · rintro other ⟨ctx, equal⟩
      cases equal
    · intro other member
      rcases List.mem_cons.mp member with new | old
      · exact Or.inr ⟨_, by rw [new]⟩
      · exact Or.inl old
    · rintro other ⟨ctx, equal⟩
      cases equal

theorem Leased.accesses {entries : List LifeEvent} {state : WorkerState}
    (leased : Leased entries state) {ctx : ContextPointer} (live : ctx ∈ state.live) :
      Leased (entries ++ [.accesses ctx]) state where
  contexts := by
    refine leased.contexts.append_singleton ?_ (fun _ held => Or.inl held) ?_
    · rintro other (equal | ⟨fd, equal⟩)
      · rw [← LifeEvent.accesses.inj equal]
        exact live
      · cases equal
    · rintro other ⟨fd, equal⟩
      cases equal
  descriptors := by
    refine leased.descriptors.append_singleton ?_ (fun _ held => Or.inl held) ?_
    · rintro fd ⟨other, equal⟩
      cases equal
    · rintro fd ⟨other, equal⟩
      cases equal

theorem Leased.closes (globals : Globals) {entries : List LifeEvent} {state : WorkerState}
    (leased : Leased entries state) (tracked : Tracked state) {fd : Int} {ctx : ContextPointer}
    (own : BelongsTo state fd ctx) {turn : Turn}
    (closed : (state.processes globals ctx turn).1 = .closed) :
    Leased (entries ++ [.closes fd ctx]) (state.takesTurn globals ctx turn) where
  contexts := by
    have live : (state.takesTurn globals ctx turn).live = state.live.erase ctx := by
      rw [WorkerState.takesTurn_closed closed]
      rfl
    rw [live]
    refine leased.contexts.append_singleton ?_ (fun _ held =>
      Or.inl (List.mem_of_mem_erase held)) ?_
    · rintro other (equal | ⟨otherFd, equal⟩)
      · cases equal
      · rw [← (LifeEvent.closes.inj equal).2]
        exact own.1
    · rintro other ⟨otherFd, equal⟩ member
      rw [← (LifeEvent.closes.inj equal).2] at member
      exact (tracked.live.mem_erase_iff.mp member).1 rfl
  descriptors := by
    have openFds := tracked.mem_openFds_takesTurn globals own turn
    refine leased.descriptors.append_singleton ?_ (fun other held =>
      Or.inl ((openFds other).mp held).1) ?_
    · rintro other ⟨otherCtx, equal⟩
      rw [← (LifeEvent.closes.inj equal).1]
      exact (tracked.opened fd).mpr ⟨ctx, own⟩
    · rintro other ⟨otherCtx, equal⟩ member
      exact ((openFds other).mp member).2 closed (LifeEvent.closes.inj equal).1.symm

theorem Leased.step (globals : Globals) {entries : List LifeEvent} {state : BatchState}
    (leased : Leased entries state.toWorkerState) (batch : BatchTracked state) {step : BatchStep}
    (enabled : step.Enabled state) :
    Leased (entries ++ lifeEvents globals state step)
      ((batches globals).step state step).toWorkerState := by
  cases step with
  | arrives =>
      rw [lifeEvents, List.append_nil]
      exact leased
  | waits evBuf =>
      rw [lifeEvents, List.append_nil]
      exact leased
  | accept fd malloced added =>
      change Leased _ (state.toWorkerState.accepts fd malloced added)
      rw [lifeEvents]
      by_cases made : fd ≠ -1
      · rw [if_pos made]
        exact leased.opens made malloced added
      · rw [if_neg made, List.append_nil]
        unfold WorkerState.accepts
        rw [if_neg made]
        exact leased
  | turn recvs sends =>
      rcases enabled with ⟨fd, ctx, events, head⟩
      rcases List.head?_eq_some_iff.mp head with ⟨rest, evBuf⟩
      rcases batch.next evBuf with ⟨own, -, -⟩
      have accessed := leased.accesses own.1
      have descriptor := (state.toWorkerState.processes_same globals ctx ⟨events, recvs, sends⟩).fd
      rw [own.2] at descriptor
      rw [BatchState.takesTurn_eq globals evBuf]
      unfold lifeEvents
      rw [evBuf]
      dsimp only
      cases verdict : (state.toWorkerState.processes globals ctx ⟨events, recvs, sends⟩).1 with
      | kept =>
          rw [WorkerState.takesTurn_kept verdict]
          exact ⟨accessed.contexts, accessed.descriptors⟩
      | closed =>
          dsimp only
          rw [descriptor, ← List.singleton_append, ← List.append_assoc]
          exact accessed.closes globals batch.tracked own verdict

/-! ## Over whole runs -/

/-- After every step descriptors, registrations and contexts correspond, no
descriptor is closed twice, and no context is used after its connection was
closed until it is allocated again. -/
structure LifeCycleKept (globals : Globals) (steps : List BatchStep) : Prop where
  corresponds : (batches globals).Throughout
    (fun state step => Corresponds
      ((batches globals).step state step).toWorkerState) BatchState.zero steps
  contexts : contextLeases.Obeyed ((batches globals).log (lifeEvents globals) BatchState.zero steps)
  descriptors : descriptorLeases.Obeyed
    ((batches globals).log (lifeEvents globals) BatchState.zero steps)

theorem allRegistered_step_iff (globals : Globals) {state : BatchState} (batch : BatchTracked state)
    (registered : AllRegistered state.toWorkerState) {step : BatchStep}
    (enabled : step.Enabled state) (unused : HandsOutUnused state step) :
    AllRegistered ((batches globals).step state step).toWorkerState <-> Registers state step := by
  cases step with
  | arrives => exact iff_of_true registered trivial
  | waits evBuf => exact iff_of_true registered trivial
  | turn recvs sends =>
      rcases enabled with ⟨fd, ctx, events, head⟩
      rcases List.head?_eq_some_iff.mp head with ⟨rest, evBuf⟩
      rcases batch.next evBuf with ⟨own, -, -⟩
      rw [BatchState.takesTurn_eq globals evBuf]
      exact iff_of_true (AllRegistered.takesTurn globals batch.tracked own _ registered) trivial
  | accept fd malloced added =>
      rcases enabled with ⟨-, fresh, -⟩
      change AllRegistered (state.toWorkerState.accepts fd malloced added) <->
        (fd ≠ -1 -> added = true)
      by_cases made : fd ≠ -1
      · rw [AllRegistered.accepts_iff made (unused made) batch.tracked
          (fresh.resolve_left made).2.1 registered]
        exact ⟨fun success _ => success, fun success => success made⟩
      · unfold WorkerState.accepts
        rw [if_neg made]
        exact iff_of_true registered (fun impossible => absurd impossible made)

theorem registers_guarded (globals : Globals) :
    ((batches globals).restrict HandsOutUnused).Guarded
      (fun state => BatchTracked state ∧ AllRegistered state.toWorkerState) Registers
      (fun state step => Corresponds ((batches globals).step state step).toWorkerState) where
  keeps := by
    rintro state step ⟨batch, registered⟩ ⟨enabled, unused⟩ registers
    exact ⟨batch.step globals enabled unused,
      (allRegistered_step_iff globals batch registered enabled unused).mpr registers⟩
  exact := by
    rintro state step ⟨batch, registered⟩ ⟨enabled, unused⟩
    rw [(batch.step globals enabled unused).tracked.corresponds_iff]
    exact allRegistered_step_iff globals batch registered enabled unused

theorem allRegistered_zero : AllRegistered WorkerState.zero :=
  fun _ _ belongs => absurd belongs.1 List.not_mem_nil

/-- As long as allocations hand out contexts that are not in use, the leases
are obeyed. -/
theorem leased_log (globals : Globals) {steps : List BatchStep}
    (run : (batches globals).Run BatchState.zero steps)
    (unused : (batches globals).Throughout HandsOutUnused BatchState.zero steps) :
    Leased ((batches globals).log (lifeEvents globals) BatchState.zero steps)
      ((batches globals).after BatchState.zero steps).toWorkerState := by
  have logged := @Machine.log_of_throughout _ _ (batches globals) _ (lifeEvents globals)
    (fun entries state => BatchTracked state ∧ Leased entries state.toWorkerState)
    (fun state step => step.Enabled state ∧ HandsOutUnused state step) ?_ [] BatchState.zero steps
    ⟨batchTracked_zero, leased_zero⟩ ((batches globals).throughout_and.mpr ⟨run, unused⟩)
  · exact logged.2
  · rintro entries state step ⟨batch, leased⟩ ⟨enabled, unusedNow⟩
    exact ⟨batch.step globals enabled unusedNow, leased.step globals batch enabled⟩

/-- Over every run of `johnny_works` in which allocations hand out contexts
that are not in use, the life cycle of connections is kept exactly as long as
every accepted descriptor could be registered. -/
theorem lifeCycleKept_iff_registers (globals : Globals) (steps : List BatchStep)
    (run : (batches globals).Run BatchState.zero steps)
    (unused : (batches globals).Throughout HandsOutUnused BatchState.zero steps) :
    LifeCycleKept globals steps <->
      (batches globals).Throughout Registers BatchState.zero steps := by
  have guarded := (registers_guarded globals).throughout_iff ⟨batchTracked_zero, allRegistered_zero⟩
    (((batches globals).restrict_run HandsOutUnused _ _).mpr ⟨run, unused⟩)
  rw [Machine.restrict_throughout, Machine.restrict_throughout] at guarded
  have leased := leased_log globals run unused
  exact ⟨fun kept => guarded.mp kept.corresponds,
    fun registers => ⟨guarded.mpr registers, leased.contexts.obeyed, leased.descriptors.obeyed⟩⟩

/-- One connection is closed, and the next event of the same batch opens
another one with its slot and its descriptor. -/
def reusedSteps : List BatchStep :=
  [.arrives, .waits [.server], .accept 5 unusedMalloced true, .arrives,
    .waits [.connection 5 (.stack 0) epollin, .server], .turn [.received []] [],
      .accept 5 unusedMalloced true]

theorem lifeCycleKept_reusedSteps : LifeCycleKept noFiles reusedSteps :=
  (lifeCycleKept_iff_registers noFiles reusedSteps (by decide) (by decide)).mpr (by decide)

/-- `epoll_ctl` fails, for example because there are too many registrations. -/
def unregisteredSteps : List BatchStep :=
  [.arrives, .waits [.server], .accept 5 unusedMalloced false]

theorem not_lifeCycleKept_unregistered :
    ¬ forall steps, (batches noFiles).Run BatchState.zero steps ->
      (batches noFiles).Throughout HandsOutUnused BatchState.zero steps ->
        LifeCycleKept noFiles steps := by
  intro kept
  have corresponds := (kept unregisteredSteps (by decide) (by decide)).corresponds.2.2.1
  rcases corresponds.registered 5 (by decide) with ⟨ctx, -, registered, -⟩
  exact absurd registered List.not_mem_nil

end Worker
end Johnny
