import Johnny.Service
import Johnny.Worker.Holdings

namespace Johnny

open Library
open Hash
open Setup
open Worker

/-!
# The server

`main` starts a worker on each core.  The workers are threads of one process:
they share the file table and the hash, which nobody writes any more, the table
of descriptors and the heap.  Everything else is thread-local, and each worker
listens on a socket of its own.

The calls of the workers may come in any order.  A descriptor is the number of
another connection as soon as it has been closed, and while its context is still
to be freed.  If a worker kept one that it no longer holds, the response for its
client would go to a client of another worker.
-/

/-- The kernel and the allocator hand out what no worker has. -/
def Supplied {Core : Type} (threads : Core -> Thread) (_ : Core) : ThreadStep -> Prop
  | .accept4 fd => fd = -1 ∨ forall core, ¬ (threads core).Holds (.descriptor fd)
  | .allocates malloced _ => forall core, malloced.address ∉ (threads core).memory.heapContexts
  | _ => True

instance {coreCnt : Nat} (threads : Fin coreCnt -> Thread) (core : Fin coreCnt) :
    (step : ThreadStep) -> Decidable (Supplied threads core step)
  | .accept4 fd => inferInstanceAs
      (Decidable (fd = -1 ∨ forall core, ¬ (threads core).Holds (.descriptor fd)))
  | .allocates malloced _ => inferInstanceAs (Decidable (forall core,
      malloced.address ∉ (threads core).memory.heapContexts))
  | .arrives => .isTrue trivial
  | .waits _ => .isTrue trivial
  | .begins _ _ => .isTrue trivial
  | .operates => .isTrue trivial
  | .ends => .isTrue trivial
  | .frees => .isTrue trivial

/-- The workers of `start_a_johnny_worker_on_each_core`. -/
def startAJohnnyWorkerOnEachCore (globals : Globals) (Core : Type) [DecidableEq Core] :
    Machine (Core -> Thread) (Core × ThreadStep) :=
  (threads globals).interleaved Supplied

instance (globals : Globals) {coreCnt : Nat} (threads : Fin coreCnt -> Thread)
    (step : Fin coreCnt × ThreadStep) :
    Decidable ((startAJohnnyWorkerOnEachCore globals (Fin coreCnt)).enabled threads step) :=
  inferInstanceAs (Decidable (step.2.Enabled (threads step.1) ∧ Supplied threads step.1 step.2))

/-- Before the first client. -/
def idleThreads (Core : Type) : Core -> Thread := fun _ => Thread.zero

/-- Each worker hands out contexts that it does not use itself. -/
def HandOutUnused {Core : Type} (threads : Core -> Thread) (step : Core × ThreadStep) : Prop :=
  step.2.HandsOutUnused (threads step.1)

instance {Core : Type} (threads : Core -> Thread) (step : Core × ThreadStep) :
    Decidable (HandOutUnused threads step) :=
  inferInstanceAs (Decidable (step.2.HandsOutUnused (threads step.1)))

/-- What the workers do with the resources. -/
def serverDealings {Core : Type} (globals : Globals) (threads : Core -> Thread)
    (step : Core × ThreadStep) : List (Core × Dealing Resource) :=
  ((threads step.1).dealings globals step.2).map (Prod.mk step.1)

section

variable {Core : Type} [DecidableEq Core] (globals : Globals)

/-- What a worker takes is held by none. -/
theorem unheld_of_supplied {threads : Core -> Thread}
    (inOrder : forall core, (threads core).InOrder globals) {core : Core} {step : ThreadStep}
    (enabled : step.Enabled (threads core)) (supplied : Supplied threads core step) :
    ((custody Resource).interleaved Unheld).Throughout
    (fun held dealing => Unheld held dealing.1 dealing.2) (fun other => (threads other).holdings)
      (serverDealings globals threads (core, step)) := by
  rw [serverDealings]
  dsimp only
  cases step with
  | accept4 fd =>
      rw [Thread.dealings]
      split_ifs with made
      · exact ⟨fun _ other => supplied.resolve_left made other, trivial⟩
      · exact trivial
  | allocates malloced added =>
      rcases Option.isSome_iff_exists.mp enabled.1 with ⟨fd, acceptedFd⟩
      rw [Thread.dealings, Stage.eq_accepted acceptedFd]
      dsimp only
      rw [List.map_append, Machine.throughout_append]
      refine ⟨?_, unheld_of_act Act.noConfusion _ _ core⟩
      cases pointer : (johnnyAllocatesConnection (threads core).memory fd malloced).1 with
      | heap address =>
          refine ⟨fun _ other held => ?_, trivial⟩
          apply supplied other
          rw [(johnnyAllocatesConnection_heap pointer).1]
          exact (inOrder other).allocated address held
      | stack slot => exact trivial
  | arrives => exact trivial
  | waits evBuf => exact trivial
  | begins recvs sends => exact trivial
  | operates =>
      rcases Stage.eq_handling enabled with ⟨ctx, turn, c, operation, left, stage⟩
      rw [Thread.dealings, stage]
      exact unheld_of_act Act.noConfusion _ _ core
  | ends =>
      rcases Stage.eq_handled enabled with ⟨ctx, turn, c, stage⟩
      cases verdict : ((threads core).processes globals ctx turn).1 with
      | kept =>
          rw [Thread.dealings_kept stage verdict]
          exact trivial
      | closed =>
          rw [Thread.dealings_closed stage verdict, List.map_append, Machine.throughout_append]
          exact ⟨unheld_of_act Act.noConfusion _ _ core, unheld_of_act Act.noConfusion _ _ core⟩
  | frees =>
      rcases Stage.eq_closing enabled with ⟨ctx, stage⟩
      rw [Thread.dealings, stage]
      exact unheld_of_act Act.noConfusion _ _ core

/-- The same workers, as long as each hands out contexts that it does not use. -/
def unusedWorkers (Core : Type) [DecidableEq Core] : Machine (Core -> Thread) (Core × ThreadStep) :=
  ((threads globals).restrict (fun thread step => step.HandsOutUnused thread)).interleaved Supplied

/-- The workers together keep custody. -/
def serverHoldings : (unusedWorkers globals Core).Refinement
    ((custody Resource).interleaved (@Unheld Resource Core)) :=
  (holdingsRefinement globals).interleaved Supplied Unheld (fun _ => True) (fun _ _ _ _ _ =>
    trivial)
    (fun _ _ _ inOrder _ enabled => unheld_of_supplied globals inOrder enabled.1.1 enabled.2)

theorem unusedWorkers_step :
    (unusedWorkers globals Core).step = (startAJohnnyWorkerOnEachCore globals Core).step := rfl

end

/-- Over every interleaving of the calls of the workers, each of which hands out
contexts that it does not use itself: no descriptor and no block is held by two
workers, and between being closed or freed, or taken by another worker, and being
used by a worker, it was taken by that worker. -/
theorem startAJohnnyWorkerOnEachCore_apart (globals : Globals) (Core : Type) [DecidableEq Core]
    (steps : List (Core × ThreadStep))
    (run : (startAJohnnyWorkerOnEachCore globals Core).Run (idleThreads Core) steps)
    (unused : (startAJohnnyWorkerOnEachCore globals Core).Throughout HandOutUnused
      (idleThreads Core) steps) :
    HeldOnce (fun core => ((startAJohnnyWorkerOnEachCore globals Core).after
      (idleThreads Core) steps core).holdings) ∧
      ((custodyLeases Resource).shared Core).Obeyed
        ((startAJohnnyWorkerOnEachCore globals Core).log (serverDealings globals)
          (idleThreads Core) steps) := by
  have restricted : (unusedWorkers globals Core).Run (idleThreads Core) steps :=
    (threads globals).run_interleaved_restrict Supplied run unused
  have inOrder : (serverHoldings globals).Inv (idleThreads Core) :=
    ⟨fun _ => inOrder_zero globals, trivial⟩
  have empty : (serverHoldings globals).abstract (idleThreads Core) = fun _ => ∅ :=
    funext (fun _ => Thread.holdings_zero)
  rcases (serverHoldings globals).run inOrder restricted with ⟨-, dealt, last⟩
  rw [empty] at dealt last
  rcases custody_obeyed dealt with ⟨once, obeyed⟩
  rw [last, Machine.after_of_step_eq (unusedWorkers_step globals)] at once
  have dealings := Machine.log_of_step_eq (unusedWorkers_step globals) (serverDealings globals)
    (idleThreads Core) steps
  rw [← dealings]
  exact ⟨once, obeyed⟩

/-- A worker closes a connection, and another one gets its descriptor before the
context has been freed. -/
def passedOn : List (Fin 2 × ThreadStep) :=
  [(0, .arrives), (0, .waits [.server]), (0, .accept4 5), (1, .arrives),
    (0, .allocates unusedMalloced true),
    (1, .waits [.server]), (0, .waits [.connection 5 (.stack 0) epollin]),
      (0, .begins [.received []] []),
    (0, .operates), (0, .operates), (0, .ends), (1, .accept4 5), (0, .frees),
      (1, .allocates unusedMalloced true)]

theorem startAJohnnyWorkerOnEachCore_apart_passedOn :
    ((custodyLeases Resource).shared (Fin 2)).Obeyed
      ((startAJohnnyWorkerOnEachCore noFiles (Fin 2)).log (serverDealings noFiles)
        (idleThreads (Fin 2)) passedOn) :=
  (startAJohnnyWorkerOnEachCore_apart noFiles (Fin 2) passedOn (by decide) (by decide)).2

/-! ## Whole events -/

/-- The same for whole events. -/
def SuppliedEvents {Core : Type} (states : Core -> BatchState) (_ : Core) : BatchStep -> Prop
  | .accept fd malloced _ => fd = -1 ∨ forall core, fd ∉ (states core).openFds ∧
      malloced.address ∉ (states core).memory.heapContexts
  | _ => True

/-- Workers that take turns event by event. -/
def eventByEvent (globals : Globals) (Core : Type) [DecidableEq Core] :
    Machine (Core -> BatchState) (Core × BatchStep) :=
  (batches globals).interleaved SuppliedEvents

def idleWorkers (Core : Type) : Core -> BatchState := fun _ => BatchState.zero

/-- The event of a call, with its worker. -/
def serverEvents {Core : Type} (threads : Core -> Thread) (step : Core × ThreadStep) :
    List (Core × BatchStep) :=
  ((threads step.1).event step.2).map (Prod.mk step.1)

section

variable {Core : Type} [DecidableEq Core] (globals : Globals)

def DescriptorsHeldOnce (threads : Core -> Thread) : Prop :=
  Exclusive (fun thread fd => Thread.Holds thread (.descriptor fd)) threads

theorem descriptorsHeldOnce_step {threads : Core -> Thread} {step : Core × ThreadStep}
    (sound : forall core, (threads core).Sound globals) (once : DescriptorsHeldOnce threads)
    (enabled : (startAJohnnyWorkerOnEachCore globals Core).enabled threads step) :
    DescriptorsHeldOnce ((startAJohnnyWorkerOnEachCore globals Core).step threads step) := by
  rcases step with ⟨core, step⟩
  rcases enabled with ⟨enabled, supplied⟩
  refine Exclusive.update once (fun fd held => ?_)
  rcases Thread.holds_descriptor_step (sound core) enabled held with before | ⟨rfl, made⟩
  · exact Or.inl before
  · exact Or.inr (fun other _ => supplied.resolve_left made other)

/-- What the event of a call takes is there when the call is made. -/
theorem suppliedEvents_of_supplied {threads : Core -> Thread} {core : Core} {step : ThreadStep}
    (sound : forall core, (threads core).Sound globals) (once : DescriptorsHeldOnce threads)
    (enabled : step.Enabled (threads core)) (supplied : Supplied threads core step) :
    (eventByEvent globals Core).Throughout
    (fun states event => SuppliedEvents states event.1 event.2) (fun other => (threads other).whole)
      (serverEvents threads (core, step)) := by
  rw [serverEvents]
  dsimp only
  cases step with
  | accept4 fd =>
      rw [Thread.event]
      split_ifs with made
      · exact trivial
      · exact ⟨Or.inl (not_not.mp made), trivial⟩
  | allocates malloced added =>
      rcases Option.isSome_iff_exists.mp enabled.1 with ⟨fd, acceptedFd⟩
      have stage := Stage.eq_accepted acceptedFd
      have fresh := sound core
      rw [Thread.Sound, stage] at fresh
      rw [Thread.event, acceptedFd]
      refine ⟨Or.inr (fun other => ⟨?_, fun inHeap => ?_⟩), trivial⟩
      · rw [Thread.whole_openFds]
        by_cases same : other = core
        · rw [same]
          exact fresh.2.2.1
        · exact fun isOpen => once core other fd (Ne.symm same) (Or.inr acceptedFd) (Or.inl isOpen)
      · exact supplied other (Thread.whole_heapContexts_subset _ inHeap)
  | ends =>
      rcases Stage.eq_handled enabled with ⟨ctx, turn, c, stage⟩
      rw [Thread.event, stage]
      exact ⟨trivial, trivial⟩
  | arrives => exact ⟨trivial, trivial⟩
  | waits evBuf => exact ⟨trivial, trivial⟩
  | begins recvs sends => exact trivial
  | operates => exact trivial
  | frees => exact trivial

/-- Call by call, the workers do whole events. -/
def serverRefinement : (startAJohnnyWorkerOnEachCore globals Core).Refinement
    (eventByEvent globals Core) :=
  (threadRefinement globals).interleaved Supplied SuppliedEvents DescriptorsHeldOnce
    (fun _ _ sound once enabled => descriptorsHeldOnce_step globals sound once enabled)
    (fun _ _ _ sound once enabled =>
      suppliedEvents_of_supplied globals sound once enabled.1 enabled.2)

end

/-- Every interleaving of calls does an interleaving of whole events: each event
happens at one call, nothing that the other workers do in between is seen, and a
worker that is half-way through one stands for one that has not begun it, or, once
its descriptor is closed, is done with it. -/
theorem startAJohnnyWorkerOnEachCore_events (globals : Globals) (Core : Type) [DecidableEq Core]
    (steps : List (Core × ThreadStep))
    (run : (startAJohnnyWorkerOnEachCore globals Core).Run (idleThreads Core) steps) :
    (eventByEvent globals Core).Run (idleWorkers Core)
        ((startAJohnnyWorkerOnEachCore globals Core).log serverEvents (idleThreads Core) steps) ∧
      (eventByEvent globals Core).after (idleWorkers Core)
          ((startAJohnnyWorkerOnEachCore globals Core).log serverEvents (idleThreads Core) steps) =
        fun core => ((startAJohnnyWorkerOnEachCore globals Core).after
          (idleThreads Core) steps core).whole := by
  have inOrder : (serverRefinement globals).Inv (idleThreads Core) := by
    refine ⟨fun _ => trivial, ?_⟩
    intro first second fd _ held
    exact held.elim (fun isOpen => absurd isOpen List.not_mem_nil) (fun accepted =>
      by cases accepted)
  exact ((serverRefinement globals).run inOrder run).2

theorem startAJohnnyWorkerOnEachCore_events_passedOn :
    (eventByEvent noFiles (Fin 2)).Run (idleWorkers (Fin 2))
      ((startAJohnnyWorkerOnEachCore noFiles (Fin 2)).log serverEvents
        (idleThreads (Fin 2)) passedOn) :=
  (startAJohnnyWorkerOnEachCore_events noFiles (Fin 2) passedOn (by decide)).1

/-! ## The whole program -/

/-- A worker that processes batches is one that takes events one by one. -/
theorem batches_reachable_unused (globals : Globals) {steps : List BatchStep}
    (run : (batches globals).Run BatchState.zero steps)
    (unused : (batches globals).Throughout HandsOutUnused BatchState.zero steps) :
    ((worker globals).restrict AllocatesUnused).Reachable WorkerState.zero
      ((batches globals).after BatchState.zero steps).toWorkerState := by
  have simulated := @Machine.after_of_throughout _ _ (batches globals)
    (fun state => BatchTracked state ∧
      ((worker globals).restrict AllocatesUnused).Reachable WorkerState.zero state.toWorkerState)
    (fun state step => step.Enabled state ∧ HandsOutUnused state step) ?_ BatchState.zero steps
    ⟨batchTracked_zero, ((worker globals).restrict AllocatesUnused).refl_reachable _⟩
    ((batches globals).throughout_and.mpr ⟨run, unused⟩)
  · exact simulated.2
  · rintro state step ⟨batch, reachable⟩ ⟨enabled, unusedNow⟩
    refine ⟨batch.step globals enabled unusedNow, ?_⟩
    cases step with
    | arrives => exact reachable
    | waits evBuf => exact reachable
    | accept fd malloced added =>
        exact reachable.step (show ((worker globals).restrict AllocatesUnused).enabled _
          (.accept fd malloced added)
          from ⟨enabled.2.1, unusedNow⟩)
    | turn recvs sends =>
        rcases enabled with ⟨fd, ctx, events, head⟩
        rcases List.head?_eq_some_iff.mp head with ⟨rest, evBuf⟩
        rcases batch.next evBuf with ⟨own, -, -⟩
        rw [BatchState.takesTurn_eq globals evBuf]
        exact reachable.step (show ((worker globals).restrict AllocatesUnused).enabled _
          (.turn ctx ⟨events, recvs, sends⟩) from ⟨own.1, trivial⟩)

/-- A worker thread does the same events. -/
theorem threads_reachable_unused (globals : Globals) {steps : List ThreadStep}
    (run : (threads globals).Run Thread.zero steps)
    (unused : (threads globals).Throughout (fun thread step =>
      step.HandsOutUnused thread) Thread.zero steps) :
    ((worker globals).restrict AllocatesUnused).Reachable WorkerState.zero
      ((threads globals).after Thread.zero steps).whole.toWorkerState := by
  have sound : (threadRefinement globals).Inv Thread.zero := trivial
  rcases (threadRefinement globals).run sound run with ⟨-, events, last⟩
  have unusedEvents : (batches globals).Throughout HandsOutUnused BatchState.zero
      ((threadRefinement globals).movesOf Thread.zero steps) :=
    (threadRefinement globals).throughout_movesOf (fun _ _ _ _ now => now.event) sound run unused
  have reachable := batches_reachable_unused globals events unusedEvents
  have same : (batches globals).after BatchState.zero
      ((threadRefinement globals).movesOf Thread.zero steps) =
      ((threads globals).after Thread.zero steps).whole := last
  rw [same] at reachable
  exact reachable

/-- In every interleaving of the calls of any number of workers, each serves its
clients, from the state that it stands for on. -/
def EachCoreServes (globals : Globals) (disk : Disk) (rootDirectory : Bytes)
    (files : List FilePath) : Prop :=
  forall coreCnt, forall steps : List (Fin coreCnt × ThreadStep),
    (startAJohnnyWorkerOnEachCore globals (Fin coreCnt)).Run (idleThreads (Fin coreCnt)) steps ->
    (startAJohnnyWorkerOnEachCore globals (Fin coreCnt)).Throughout HandOutUnused
      (idleThreads (Fin coreCnt)) steps ->
    forall core, ServesClients globals disk rootDirectory files
      ((startAJohnnyWorkerOnEachCore globals (Fin coreCnt)).after (idleThreads (Fin coreCnt)) steps
        core).whole.toWorkerState

/-- `main`: for every directory whose files can be read under keys for which
there is a hash, every order of the entries and every choice of seeds, the setup
ends with the function that `cmph_new` built in its tables, and with the table
and this function the workers serve the files. -/
theorem main_serves (tree : Tree) (rootDirectory : Bytes)
    (counting slurping : Walk tree (rootDirectory ++ [47])) (disk : Disk) (draws : SeedDraws)
    (heap : Heap) (nonempty : tree.files ≠ []) (few : tree.files.length < 2 ^ 28)
    (usable : Usable slurping disk draws.toDraws) :
    Exists fun keys => Exists fun chd => Exists fun ph : ChdPh keys => Exists fun table =>
      Exists fun after =>
      Tables.cmphNew draws keys = some (some chd) ∧
      (forall key, chd.search key = some (chdSearch ph key)) ∧
      johnnySetupFiles counting slurping disk draws.toDraws heap =
        some (.success (some (chdSearch ph)) table after) ∧
      forall behind, Hashed (Globals.ofTable table behind (chdSearch ph) after) ph ∧
        EachCoreServes (Globals.ofTable table behind (chdSearch ph) after) disk rootDirectory
          (slurping.found (tree.depth + 1) []) := by
  rcases johnnySetupFiles_serves tree rootDirectory counting slurping disk draws heap nonempty few
      usable with
    ⟨keys, chd, ph, table, after, tables, search, result, serves⟩
  refine ⟨keys, chd, ph, table, after, tables, search, result, fun behind =>
    ⟨(serves behind).1, ?_⟩⟩
  intro coreCnt steps run unused core
  have own := (threads (Globals.ofTable table behind
    (chdSearch ph) after)).after_interleaved Supplied
    (idleThreads (Fin coreCnt)) steps core
  change ServesClients _ _ _ _
    (((threads _).interleaved Supplied).after _ steps core).whole.toWorkerState
  rw [own]
  exact (serves behind).2 _ (threads_reachable_unused _ ((threads _).run_stepsOf Supplied run core)
    (((threads _).throughout_interleaved_iff Supplied _ steps).mp unused core))

theorem main_serves_twoPages :
    Exists fun cmphSearch => Exists fun table => Exists fun after =>
      johnnySetupFiles twoPagesWalk twoPagesWalk
        (uniformDisk (ascii "page")) inOrderDraws.toDraws Heap.empty =
        some (.success (some cmphSearch) table after) ∧
      forall behind, EachCoreServes (Globals.ofTable table behind cmphSearch after)
        (uniformDisk (ascii "page")) []
        (twoPagesWalk.found (twoPages.depth + 1) []) := by
  have pages : twoPages.files.length = 2 := by decide +kernel
  rcases main_serves twoPages [] twoPagesWalk twoPagesWalk (uniformDisk (ascii "page")) inOrderDraws
      Heap.empty (List.ne_nil_of_length_pos (by omega)) (by omega) twoPages_usable with
    ⟨keys, chd, ph, table, after, -, -, result, serves⟩
  exact ⟨chdSearch ph, table, after, result, fun behind => (serves behind).2⟩

end Johnny
