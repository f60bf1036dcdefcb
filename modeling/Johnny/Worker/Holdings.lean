import Johnny.Library.Custody
import Johnny.Worker.Threads

namespace Johnny
namespace Worker

open Library

/-!
# What a worker holds

Descriptors and the heap belong to the whole process.  A worker holds a
descriptor from `accept4` to `close`, and the block of a context from `malloc` to
`free`.  In between, `epoll_ctl`, `recv` and `send` use the descriptor, and
whatever is done with the connection uses the block.

Provided that its allocations hand out contexts that are not in use, a worker
uses and gives back nothing but what it holds at that moment.
-/

inductive Resource
  | descriptor (fd : Int)
  | block (address : Nat)

/-- Contexts on the stack are thread-local. -/
def contextBlocks : ContextPointer -> List Resource
  | .heap address => [.block address]
  | .stack _ => []

def Operation.resources (ctx : ContextPointer) (c : Connection) : Operation -> List Resource
  | .receives _ => .descriptor c.ctx.fd :: contextBlocks ctx
  | .sendsBytes => .descriptor c.ctx.fd :: contextBlocks ctx
  | _ => contextBlocks ctx

namespace Thread

def Holds (thread : Thread) : Resource -> Prop
  | .descriptor fd => fd ∈ thread.openFds ∨ thread.stage.acceptedFd = some fd
  | .block address => .heap address ∈ thread.live

instance (thread : Thread) (fd : Int) : Decidable (thread.Holds (.descriptor fd)) :=
  inferInstanceAs (Decidable (fd ∈ thread.openFds ∨ thread.stage.acceptedFd = some fd))

def holdings (thread : Thread) : Set Resource :=
  {resource | thread.Holds resource}

/-- What a call does with the resources. -/
def dealings (globals : Globals) (thread : Thread) : ThreadStep -> List (Dealing Resource)
  | .accept4 fd => if fd ≠ -1 then takesOf [.descriptor fd] else []
  | .allocates malloced _ =>
      match thread.stage with
      | .accepted fd =>
          takesOf (contextBlocks (johnnyAllocatesConnection thread.memory fd malloced).1) ++
            usesOf [.descriptor fd]
      | _ => []
  | .operates =>
      match thread.stage with
      | .handling ctx _ c (operation :: _) => usesOf (operation.resources ctx c)
      | _ => []
  | .ends =>
      match thread.stage with
      | .handling ctx turn c [] =>
          match (thread.processes globals ctx turn).1 with
          | .closed => usesOf (contextBlocks ctx) ++ givesBackOf [.descriptor c.ctx.fd]
          | .kept => []
      | _ => []
  | .frees =>
      match thread.stage with
      | .closing ctx => givesBackOf (contextBlocks ctx)
      | _ => []
  | _ => []

end Thread

/-- An allocation hands out a context that is not in use. -/
def ThreadStep.HandsOutUnused (thread : Thread) : ThreadStep -> Prop
  | .allocates malloced _ => forall fd, thread.stage.acceptedFd = some fd ->
      (johnnyAllocatesConnection thread.memory fd malloced).1 ∉ thread.live
  | _ => True

instance (thread : Thread) : (step : ThreadStep) -> Decidable (step.HandsOutUnused thread)
  | .allocates malloced _ =>
      match stage : thread.stage.acceptedFd with
      | none => .isTrue (fun fd accepted => by rw [stage] at accepted; cases accepted)
      | some fd => decidable_of_iff
          ((johnnyAllocatesConnection thread.memory fd malloced).1 ∉ thread.live)
          ⟨fun unused other accepted => by rw [stage] at accepted; cases accepted; exact unused,
            fun unused => unused fd stage⟩
  | .arrives => .isTrue trivial
  | .waits _ => .isTrue trivial
  | .accept4 _ => .isTrue trivial
  | .begins _ _ => .isTrue trivial
  | .operates => .isTrue trivial
  | .ends => .isTrue trivial
  | .frees => .isTrue trivial

theorem block_mem_contextBlocks_iff (address : Nat) (ctx : ContextPointer) :
    Resource.block address ∈ contextBlocks ctx <-> ctx = .heap address := by
  cases ctx with
  | heap own =>
      refine List.mem_singleton.trans ⟨?_, ?_⟩
      · rintro ⟨⟩
        rfl
      · rintro ⟨⟩
        rfl
  | stack slot => exact iff_of_false List.not_mem_nil (fun impossible => by cases impossible)

theorem descriptor_notMem_contextBlocks (fd : Int) (ctx : ContextPointer) :
    Resource.descriptor fd ∉ contextBlocks ctx := by
  cases ctx with
  | heap own => exact fun member => by cases List.mem_singleton.mp member
  | stack slot => exact List.not_mem_nil

theorem contextBlocks_nodup (ctx : ContextPointer) : (contextBlocks ctx).Nodup := by
  cases ctx with
  | heap own => exact List.nodup_singleton _
  | stack slot => exact List.nodup_nil

/-- Live contexts on the heap have not been freed. -/
def BlocksAllocated (state : WorkerState) : Prop :=
  forall address, .heap address ∈ state.live -> address ∈ state.memory.heapContexts

theorem johnnyAllocatesConnection_heap {memory : Memory} {fd : Int} {malloced : Malloced}
    {address : Nat} (onHeap : (johnnyAllocatesConnection memory fd malloced).1 = .heap address) :
    malloced.address = address ∧
      (johnnyAllocatesConnection memory fd malloced).2.heapContexts =
        address :: memory.heapContexts := by
  unfold johnnyAllocatesConnection at onHeap ⊢
  dsimp only at onHeap ⊢
  split_ifs at onHeap ⊢
  · cases onHeap
    exact ⟨rfl, rfl⟩

theorem johnnyAllocatesConnection_mem_heapContexts {memory : Memory} {address : Nat}
    (allocated : address ∈ memory.heapContexts) (fd : Int) (malloced : Malloced) :
    address ∈ (johnnyAllocatesConnection memory fd malloced).2.heapContexts := by
  unfold johnnyAllocatesConnection
  dsimp only
  split_ifs
  · exact List.mem_cons_of_mem _ allocated
  · exact allocated

theorem johnnyDeallocatesConnection_mem_heapContexts {memory : Memory} {address : Nat}
    (allocated : address ∈ memory.heapContexts) {ctx : ContextPointer}
    (different : .heap address ≠ ctx) :
    address ∈ (johnnyDeallocatesConnection memory ctx).heapContexts := by
  unfold johnnyDeallocatesConnection
  dsimp only
  split_ifs
  · cases ctx with
    | heap freed =>
        refine (List.mem_erase_of_ne ?_).mpr allocated
        rintro rfl
        exact different rfl
    | stack slot => exact allocated
  · exact allocated

theorem BlocksAllocated.accepts {state : WorkerState} (allocated : BlocksAllocated state) {fd : Int}
    (made : fd ≠ -1)
    (malloced : Malloced) (added : Bool) : BlocksAllocated (state.accepts fd malloced added) := by
  unfold WorkerState.accepts
  rw [if_pos made]
  intro address member
  dsimp only at member ⊢
  rcases List.mem_cons.mp member with same | old
  · rw [(johnnyAllocatesConnection_heap same.symm).2]
    exact List.mem_cons_self
  · exact johnnyAllocatesConnection_mem_heapContexts (allocated address old) fd malloced

theorem BlocksAllocated.deallocates {state : WorkerState} (allocated : BlocksAllocated state)
    (once : state.live.Nodup) (ctx : ContextPointer) : BlocksAllocated (state.deallocates ctx) := by
  intro address member
  have others := once.mem_erase_iff.mp member
  exact johnnyDeallocatesConnection_mem_heapContexts (allocated address others.2) others.1

/-- The connection in hand has the descriptor of its context, and a context that
is to be freed is live, once. -/
def Thread.Attached (thread : Thread) : Prop :=
  match thread.stage with
  | .handling ctx _ c _ => c.ctx.fd = (thread.memory.contexts ctx).fd
  | .closing ctx => ctx ∈ thread.live ∧ thread.live.Nodup
  | _ => True

structure Thread.InOrder (globals : Globals) (thread : Thread) : Prop where
  sound : thread.Sound globals
  tracked : BatchTracked thread.whole
  allocated : BlocksAllocated thread.toWorkerState
  attached : thread.Attached

theorem inOrder_zero (globals : Globals) : Thread.InOrder globals Thread.zero where
  sound := trivial
  tracked := batchTracked_zero
  allocated := fun _ member => absurd member List.not_mem_nil
  attached := trivial

section

variable {globals : Globals} {thread : Thread}

/-- The events of a step hand out what the step hands out. -/
theorem ThreadStep.HandsOutUnused.event {step : ThreadStep} (unused : step.HandsOutUnused thread) :
    (batches globals).Throughout Worker.HandsOutUnused thread.whole (thread.event step) := by
  rcases thread with ⟨batch, stage⟩
  cases step with
  | arrives => exact ⟨trivial, trivial⟩
  | waits evBuf => exact ⟨trivial, trivial⟩
  | accept4 fd =>
      rw [Thread.event]
      split_ifs with accepted
      · exact trivial
      · exact ⟨fun impossible => absurd impossible accepted, trivial⟩
  | allocates malloced added =>
      cases stage with
      | accepted fd => exact ⟨fun _ => unused fd rfl, trivial⟩
      | ready => exact trivial
      | handling ctx turn c left => exact trivial
      | closing ctx => exact trivial
  | ends =>
      cases stage with
      | handling ctx turn c left =>
          cases left with
          | nil => exact ⟨trivial, trivial⟩
          | cons operation left => exact trivial
      | ready => exact trivial
      | accepted fd => exact trivial
      | closing ctx => exact trivial
  | begins recvs sends => exact trivial
  | operates => exact trivial
  | frees => exact trivial

namespace Thread

/-- The connection in hand is one of the worker's. -/
theorem InOrder.own (inOrder : thread.InOrder globals) {ctx : ContextPointer} {turn : Turn}
    {c : Connection} {left : List Operation} (stage : thread.stage = .handling ctx turn c left) :
    BelongsTo thread.toWorkerState c.ctx.fd ctx := by
  rcases inOrder with ⟨sound, tracked, -, attached⟩
  rcases thread with ⟨batch, own⟩
  cases stage
  rcases sound with ⟨⟨fd, head⟩, -⟩
  rcases List.head?_eq_some_iff.mp head with ⟨rest, evBuf⟩
  exact ⟨(tracked.next evBuf).1.1, attached.symm⟩

theorem attached_step (inOrder : thread.InOrder globals) {step : ThreadStep}
    (enabled : step.Enabled thread) : (thread.step globals step).Attached := by
  have own := fun ctx turn c left => @InOrder.own globals thread inOrder ctx turn c left
  rcases inOrder with ⟨sound, tracked, allocated, attached⟩
  rcases thread with ⟨batch, stage⟩
  cases step with
  | arrives => exact attached
  | waits evBuf => exact attached
  | accept4 fd =>
      cases Stage.eq_ready enabled.1
      rw [Thread.step, Thread.accepts4]
      split_ifs
      · exact trivial
      · exact trivial
  | allocates malloced added =>
      rcases Option.isSome_iff_exists.mp enabled.1 with ⟨fd, acceptedFd⟩
      cases Stage.eq_accepted acceptedFd
      exact trivial
  | begins recvs sends =>
      rcases enabled with ⟨isReady, fd, ctx, events, head⟩
      rcases List.head?_eq_some_iff.mp head with ⟨rest, evBuf⟩
      rw [Thread.step, Thread.begins_eq globals evBuf]
      exact rfl
  | operates =>
      rcases Stage.eq_handling enabled with ⟨ctx, turn, c, operation, left, rfl⟩
      exact ((sameConnection_preserved globals c.ctx).perform c operation ⟨rfl, rfl,
        rfl⟩).fd.trans attached
  | ends =>
      rcases Stage.eq_handled enabled with ⟨ctx, turn, c, rfl⟩
      rw [Thread.step]
      cases verdict : (batch.processes globals ctx turn).1 with
      | kept =>
          rw [@Thread.ends_kept globals ⟨batch, .handling ctx turn c []⟩ ctx turn c rfl verdict]
          exact trivial
      | closed =>
          rw [@Thread.ends_closed globals ⟨batch, .handling ctx turn c []⟩ ctx turn c rfl verdict]
          exact ⟨(own ctx turn c [] rfl).1, tracked.tracked.live⟩
  | frees =>
      rcases Stage.eq_closing enabled with ⟨ctx, rfl⟩
      exact trivial

theorem allocated_step (inOrder : thread.InOrder globals) {step : ThreadStep}
    (enabled : step.Enabled thread) : BlocksAllocated (thread.step globals step).toWorkerState := by
  rcases inOrder with ⟨sound, tracked, allocated, attached⟩
  rcases thread with ⟨batch, stage⟩
  cases step with
  | arrives => exact allocated
  | waits evBuf => exact allocated
  | accept4 fd =>
      rw [Thread.step, Thread.accepts4]
      split_ifs
      · exact allocated
      · exact allocated
  | allocates malloced added =>
      rcases Option.isSome_iff_exists.mp enabled.1 with ⟨fd, acceptedFd⟩
      cases Stage.eq_accepted acceptedFd
      exact allocated.accepts sound.1 malloced added
  | begins recvs sends =>
      rcases enabled with ⟨isReady, fd, ctx, events, head⟩
      rcases List.head?_eq_some_iff.mp head with ⟨rest, evBuf⟩
      rw [Thread.step, Thread.begins_eq globals evBuf]
      exact allocated
  | operates =>
      rcases Stage.eq_handling enabled with ⟨ctx, turn, c, operation, left, rfl⟩
      exact allocated
  | ends =>
      rcases Stage.eq_handled enabled with ⟨ctx, turn, c, rfl⟩
      rw [Thread.step]
      cases verdict : (batch.processes globals ctx turn).1 with
      | kept =>
          rw [@Thread.ends_kept globals ⟨batch, .handling ctx turn c []⟩ ctx turn c rfl verdict]
          exact allocated
      | closed =>
          rw [@Thread.ends_closed globals ⟨batch, .handling ctx turn c []⟩ ctx turn c rfl verdict]
          exact allocated
  | frees =>
      rcases Stage.eq_closing enabled with ⟨ctx, rfl⟩
      exact allocated.deallocates attached.2 ctx

theorem InOrder.step (inOrder : thread.InOrder globals) {step : ThreadStep}
    (enabled : step.Enabled thread)
    (unused : step.HandsOutUnused thread) : (thread.step globals step).InOrder globals where
  sound := sound_step inOrder.sound enabled
  tracked := by
    have event := event_step inOrder.sound enabled
    rw [← event.2]
    exact (batches globals).after_of_throughout
      (P := fun state step => step.Enabled state ∧ Worker.HandsOutUnused state step)
      (fun _ _ batch both => batch.step globals both.1 both.2) inOrder.tracked
      ((batches globals).throughout_and.mpr ⟨event.1, unused.event⟩)
  allocated := allocated_step inOrder enabled
  attached := attached_step inOrder enabled

/-! ## What is held -/

/-- A descriptor comes from `accept4` only. -/
theorem holds_descriptor_step (sound : thread.Sound globals) {step : ThreadStep}
    (enabled : step.Enabled thread) {fd : Int}
    (held : (thread.step globals step).Holds (.descriptor fd)) :
    thread.Holds (.descriptor fd) ∨ (step = .accept4 fd ∧ fd ≠ -1) := by
  rcases thread with ⟨batch, stage⟩
  cases step with
  | arrives => exact Or.inl held
  | waits evBuf => exact Or.inl held
  | accept4 own =>
      rw [Thread.step, accepts4] at held
      split_ifs at held with made
      · rcases held with before | same
        · exact Or.inl (Or.inl before)
        · cases same
          exact Or.inr ⟨rfl, made⟩
      · exact Or.inl held
  | allocates malloced added =>
      rcases Option.isSome_iff_exists.mp enabled.1 with ⟨own, acceptedFd⟩
      cases Stage.eq_accepted acceptedFd
      have openFds : (batch.toWorkerState.accepts own malloced added).openFds =
          own :: batch.openFds := by
        unfold WorkerState.accepts
        rw [if_pos sound.1]
      have member : fd ∈ (batch.toWorkerState.accepts own malloced added).openFds :=
        held.resolve_right (fun impossible => by cases impossible)
      rw [openFds] at member
      rcases List.mem_cons.mp member with rfl | before
      · exact Or.inl (Or.inr rfl)
      · exact Or.inl (Or.inl before)
  | begins recvs sends =>
      rcases enabled with ⟨isReady, own, ctx, events, head⟩
      cases Stage.eq_ready isReady
      rcases List.head?_eq_some_iff.mp head with ⟨rest, evBuf⟩
      rw [Thread.step, Thread.begins_eq globals evBuf] at held
      exact Or.inl held
  | operates =>
      rcases Stage.eq_handling enabled with ⟨ctx, turn, c, operation, left, rfl⟩
      exact Or.inl held
  | ends =>
      rcases Stage.eq_handled enabled with ⟨ctx, turn, c, rfl⟩
      refine Or.inl (Or.inl ?_)
      rw [Thread.step] at held
      cases verdict : (batch.processes globals ctx turn).1 with
      | kept =>
          rw [@Thread.ends_kept globals ⟨batch,
            .handling ctx turn c []⟩ ctx turn c rfl verdict] at held
          exact held.resolve_right (fun impossible => by cases impossible)
      | closed =>
          rw [@Thread.ends_closed globals ⟨batch,
            .handling ctx turn c []⟩ ctx turn c rfl verdict] at held
          exact List.mem_of_mem_erase (held.resolve_right (fun impossible => by cases impossible))
  | frees =>
      rcases Stage.eq_closing enabled with ⟨ctx, rfl⟩
      exact Or.inl held

theorem holdings_zero : Thread.zero.holdings = ∅ := by
  ext resource
  refine iff_of_false (fun held => ?_) (Set.notMem_empty resource)
  cases resource with
  | descriptor fd => exact held.elim List.not_mem_nil (fun accepted => by cases accepted)
  | block address => exact List.not_mem_nil held

theorem holdings_accepts4 (stage : thread.stage = .ready) {fd : Int} (made : fd ≠ -1) :
    (thread.accepts4 fd).holdings = {resource | resource ∈ [.descriptor fd]} ∪ thread.holdings := by
  rcases thread with ⟨batch, own⟩
  cases stage
  unfold accepts4
  rw [if_pos made]
  ext resource
  rw [Set.mem_union, Set.mem_ofPred_eq, List.mem_singleton]
  cases resource with
  | descriptor other =>
      change other ∈ batch.openFds ∨ some fd = some other <->
        _ ∨ other ∈ batch.openFds ∨ none = some other
      rw [Resource.descriptor.injEq, Option.some.injEq,
        or_iff_left (Option.some_ne_none other).symm, or_comm, eq_comm]
  | block address => exact (or_iff_right (fun impossible => by cases impossible)).symm

theorem holdings_allocates {fd : Int} (stage : thread.stage = .accepted fd) (made : fd ≠ -1)
    (malloced : Malloced) (added : Bool) : (thread.allocates malloced added).holdings =
      {resource | resource ∈ contextBlocks
        (johnnyAllocatesConnection thread.memory fd malloced).1} ∪
        thread.holdings := by
  rcases thread with ⟨batch, own⟩
  cases stage
  have openFds : (batch.toWorkerState.accepts fd malloced added).openFds = fd :: batch.openFds := by
    unfold WorkerState.accepts
    rw [if_pos made]
  have live : (batch.toWorkerState.accepts fd malloced added).live =
      (johnnyAllocatesConnection batch.memory fd malloced).1 :: batch.live := by
    unfold WorkerState.accepts
    rw [if_pos made]
  ext resource
  rw [Set.mem_union, Set.mem_ofPred_eq]
  cases resource with
  | descriptor other =>
      change other ∈ (batch.toWorkerState.accepts fd malloced added).openFds ∨ none = some other <->
        _ ∨ other ∈ batch.openFds ∨ some fd = some other
      rw [openFds, List.mem_cons, or_iff_left (Option.some_ne_none other).symm,
        or_iff_right (descriptor_notMem_contextBlocks _ _), Option.some.injEq, or_comm, eq_comm]
  | block address =>
      change .heap address ∈ (batch.toWorkerState.accepts fd malloced added).live <->
        _ ∨ .heap address ∈ batch.live
      rw [live, List.mem_cons, block_mem_contextBlocks_iff, eq_comm]

theorem holdings_ends_kept {ctx : ContextPointer} {turn : Turn} {c : Connection}
    (stage : thread.stage = .handling ctx turn c [])
    (kept : (thread.processes globals ctx turn).1 = .kept) :
    (thread.ends globals).holdings = thread.holdings := by
  rw [ends_kept stage kept]
  rcases thread with ⟨batch, own⟩
  cases stage
  rfl

theorem holdings_ends_closed {ctx : ContextPointer} {turn : Turn} {c : Connection}
    (stage : thread.stage = .handling ctx turn c [])
    (closed : (thread.processes globals ctx turn).1 = .closed) (once : thread.openFds.Nodup) :
    (thread.ends globals).holdings = thread.holdings \
    {resource | resource ∈ [.descriptor c.ctx.fd]} := by
  rw [ends_closed stage closed]
  have own : ((thread.store ctx turn c).memory.contexts ctx).fd = c.ctx.fd := by
    unfold WorkerState.store
    dsimp only
    rw [Function.update_self]
  ext resource
  rw [Set.mem_sdiff, Set.mem_ofPred_eq, List.mem_singleton]
  cases resource with
  | descriptor other =>
      change other ∈ thread.openFds.erase ((thread.store ctx turn c).memory.contexts ctx).fd ∨
        none = some other <->
        (other ∈ thread.openFds ∨ thread.stage.acceptedFd = some other) ∧ _
      rw [own, stage, once.mem_erase_iff, Resource.descriptor.injEq]
      change _ ∨ none = some other <-> (_ ∨ none = some other) ∧ _
      rw [or_iff_left (Option.some_ne_none other).symm,
        or_iff_left (Option.some_ne_none other).symm, and_comm]
  | block address => exact (and_iff_left (fun impossible => by cases impossible)).symm

theorem holdings_frees {ctx : ContextPointer} (stage : thread.stage = .closing ctx)
    (once : thread.live.Nodup) :
    thread.frees.holdings = thread.holdings \ {resource | resource ∈ contextBlocks ctx} := by
  rcases thread with ⟨batch, own⟩
  cases stage
  ext resource
  rw [Set.mem_sdiff, Set.mem_ofPred_eq]
  cases resource with
  | descriptor other => exact (and_iff_left (descriptor_notMem_contextBlocks _ _)).symm
  | block address =>
      change .heap address ∈ batch.live.erase ctx <-> .heap address ∈ batch.live ∧ _
      rw [once.mem_erase_iff, block_mem_contextBlocks_iff, and_comm, Ne, eq_comm]

theorem dealings_kept {ctx : ContextPointer} {turn : Turn} {c : Connection}
    (stage : thread.stage = .handling ctx turn c [])
    (kept : (thread.processes globals ctx turn).1 = .kept) :
    thread.dealings globals .ends = [] := by
  unfold dealings
  dsimp only
  rw [stage]
  dsimp only
  rw [kept]

theorem dealings_closed {ctx : ContextPointer} {turn : Turn} {c : Connection}
    (stage : thread.stage = .handling ctx turn c [])
    (closed : (thread.processes globals ctx turn).1 = .closed) :
    thread.dealings globals .ends = usesOf (contextBlocks ctx) ++ givesBackOf
      [.descriptor c.ctx.fd] := by
  unfold dealings
  dsimp only
  rw [stage]
  dsimp only
  rw [closed]

section

variable (tracked : Tracked thread.toWorkerState) {fd : Int} {ctx : ContextPointer}
  (own : BelongsTo thread.toWorkerState fd ctx)

include own

theorem holds_blocks {resource : Resource} (member : resource ∈ contextBlocks ctx) :
    resource ∈ thread.holdings := by
  cases resource with
  | descriptor other => exact absurd member (descriptor_notMem_contextBlocks other ctx)
  | block address =>
      cases (block_mem_contextBlocks_iff address ctx).mp member
      exact own.1

include tracked

theorem holds_descriptor : Resource.descriptor fd ∈ thread.holdings :=
  Or.inl ((tracked.opened fd).mpr ⟨ctx, own⟩)

end

theorem holds_resources (tracked : Tracked thread.toWorkerState) {ctx : ContextPointer}
    {c : Connection} (own : BelongsTo thread.toWorkerState c.ctx.fd ctx) {operation : Operation}
    {resource : Resource}
    (member : resource ∈ operation.resources ctx c) : resource ∈ thread.holdings := by
  have either : resource = .descriptor c.ctx.fd ∨ resource ∈ contextBlocks ctx := by
    cases operation with
    | receives result => exact List.mem_cons.mp member
    | sendsBytes => exact List.mem_cons.mp member
    | reports events => exact Or.inr member
    | findsFilename => exact Or.inr member
    | selectsResponse position => exact Or.inr member
  rcases either with rfl | inBlocks
  · exact holds_descriptor tracked own
  · exact holds_blocks own inBlocks

theorem ends_deals {ctx : ContextPointer} {turn : Turn} {c : Connection}
    (stage : thread.stage = .handling ctx turn c []) (tracked : Tracked thread.toWorkerState)
    (own : BelongsTo thread.toWorkerState c.ctx.fd ctx) :
    (custody Resource).Run thread.holdings (thread.dealings globals .ends) ∧
      (custody Resource).after thread.holdings (thread.dealings globals .ends) =
      (thread.ends globals).holdings := by
  cases verdict : (thread.processes globals ctx turn).1 with
  | kept =>
      rw [dealings_kept stage verdict, holdings_ends_kept stage verdict]
      exact ⟨trivial, rfl⟩
  | closed =>
      rw [dealings_closed stage verdict, holdings_ends_closed stage verdict tracked.openFds]
      refine ⟨((custody Resource).throughout_append _ _ _ _).mpr ⟨?_, ?_⟩, ?_⟩
      · exact custody_run_usesOf (fun resource member => holds_blocks own member)
      · rw [custody_after_usesOf]
        refine custody_run_givesBackOf (List.nodup_singleton _) (fun resource member => ?_)
        rw [List.mem_singleton.mp member]
        exact holds_descriptor tracked own
      · rw [Machine.after_append, custody_after_usesOf]
        exact custody_after_givesBackOf _ _

/-- A worker deals with what it holds, and that leads to what it holds then. -/
theorem InOrder.deals (inOrder : thread.InOrder globals) {step : ThreadStep}
    (enabled : step.Enabled thread) :
    (custody Resource).Run thread.holdings (thread.dealings globals step) ∧
      (custody Resource).after thread.holdings (thread.dealings globals step) =
        (thread.step globals step).holdings := by
  have own := fun ctx turn c left => @InOrder.own globals thread inOrder ctx turn c left
  rcases inOrder with ⟨sound, tracked, allocated, attached⟩
  rcases thread with ⟨batch, stage⟩
  cases step with
  | arrives => exact ⟨trivial, rfl⟩
  | waits evBuf => exact ⟨trivial, rfl⟩
  | accept4 fd =>
      rw [dealings, Thread.step]
      by_cases made : fd ≠ -1
      · rw [if_pos made, holdings_accepts4 (Stage.eq_ready enabled.1) made]
        exact ⟨custody_run_takesOf _ _, custody_after_takesOf _ _⟩
      · rw [if_neg made, accepts4, if_neg made]
        exact ⟨trivial, rfl⟩
  | allocates malloced added =>
      rcases Option.isSome_iff_exists.mp enabled.1 with ⟨fd, acceptedFd⟩
      cases Stage.eq_accepted acceptedFd
      have held := @holdings_allocates ⟨batch, .accepted fd⟩ fd rfl sound.1 malloced added
      have taken := custody_after_takesOf (Thread.holdings ⟨batch, .accepted fd⟩)
        (contextBlocks (johnnyAllocatesConnection batch.memory fd malloced).1)
      rw [dealings, Thread.step, held]
      refine ⟨((custody Resource).throughout_append _ _ _ _).mpr ⟨custody_run_takesOf _ _, ?_⟩, ?_⟩
      · refine custody_run_usesOf (fun resource member => ?_)
        rw [taken, List.mem_singleton.mp member]
        exact Or.inr (Or.inr rfl)
      · rw [Machine.after_append, custody_after_usesOf]
        exact taken
  | begins recvs sends =>
      rcases enabled with ⟨isReady, fd, ctx, events, head⟩
      cases Stage.eq_ready isReady
      rcases List.head?_eq_some_iff.mp head with ⟨rest, evBuf⟩
      rw [Thread.step, Thread.begins_eq globals evBuf]
      exact ⟨trivial, rfl⟩
  | operates =>
      rcases Stage.eq_handling enabled with ⟨ctx, turn, c, operation, left, rfl⟩
      refine ⟨custody_run_usesOf (fun resource member => ?_), custody_after_usesOf _ _⟩
      exact holds_resources tracked.tracked (own ctx turn c _ rfl) member
  | ends =>
      rcases Stage.eq_handled enabled with ⟨ctx, turn, c, rfl⟩
      exact ends_deals rfl tracked.tracked (own ctx turn c [] rfl)
  | frees =>
      rcases Stage.eq_closing enabled with ⟨ctx, rfl⟩
      rw [Thread.step, @holdings_frees ⟨batch, .closing ctx⟩ ctx rfl attached.2]
      refine ⟨custody_run_givesBackOf (contextBlocks_nodup ctx) (fun resource member => ?_),
        custody_after_givesBackOf _ _⟩
      exact @holds_blocks ⟨batch, .closing ctx⟩ (batch.memory.contexts ctx).fd ctx ⟨attached.1,
        rfl⟩ resource member

end Thread

end

/-- Provided that it hands out contexts that are not in use, a worker keeps
custody of what it deals with. -/
def holdingsRefinement (globals : Globals) :
    ((threads globals).restrict (fun thread step => step.HandsOutUnused thread)).Refinement
    (custody Resource) where
  Inv := Thread.InOrder globals
  abstract := Thread.holdings
  moves := Thread.dealings globals
  keeps := fun _ _ inOrder enabled => inOrder.step enabled.1 enabled.2
  runs := fun _ _ inOrder enabled => (inOrder.deals enabled.1).1
  reaches := fun _ _ inOrder enabled => (inOrder.deals enabled.1).2

end Worker
end Johnny
