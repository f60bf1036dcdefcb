import Johnny.Worker.Allocation
import Mathlib.Data.List.Nodup
import Mathlib.Data.List.Perm.Subperm

namespace Johnny
namespace Worker

open Library

/-!
# Slots over whole runs

The allocator as a machine: calls of `johnny_allocates_connection` and
`johnny_deallocates_connection`, the latter only for a live connection.  The
live connections are a list, since nothing stops the allocator from handing
out one context twice.

The words of the bitmap do not mirror the slots one to one.  A slot whose
number is 31 modulo 64 sets its own bit and, by sign extension, all bits above
it, and the slots from 32 to 63 of a word are never used.  `Isolated` is what
does hold as long as no context is handed out twice.
-/

/-- A worker's memory together with the contexts of its live connections. -/
structure Connections where
  memory : Memory
  live : List ContextPointer

def Connections.zero : Connections := ⟨Memory.zero, []⟩

inductive AllocatorCall
  | allocate (fd : Int) (malloced : Malloced)
  | deallocate (ctx : ContextPointer)

/-- `malloc` returns no block that is in use, and only live connections are
deallocated. -/
def AllocatorCall.Enabled (state : Connections) : AllocatorCall -> Prop
  | .allocate _ malloced => malloced.address ∉ state.memory.heapContexts
  | .deallocate ctx => ctx ∈ state.live

instance (state : Connections) (call : AllocatorCall) : Decidable (call.Enabled state) :=
  match call with
  | .allocate _ malloced =>
      inferInstanceAs (Decidable (malloced.address ∉ state.memory.heapContexts))
  | .deallocate ctx => inferInstanceAs (Decidable (ctx ∈ state.live))

def AllocatorCall.step (state : Connections) : AllocatorCall -> Connections
  | .allocate fd malloced =>
      let allocated := johnnyAllocatesConnection state.memory fd malloced
      ⟨allocated.2, allocated.1 :: state.live⟩
  | .deallocate ctx => ⟨johnnyDeallocatesConnection state.memory ctx, state.live.erase ctx⟩

/-- The allocator of one worker. -/
def allocator : Machine Connections AllocatorCall where
  enabled := fun state call => call.Enabled state
  step := fun state call => call.step state

instance (state : Connections) (call : AllocatorCall) : Decidable (allocator.enabled state call) :=
  inferInstanceAs (Decidable (call.Enabled state))

/-- The addresses of `stack_data_buffer` that a context on the stack uses. -/
def InBufferSlice (context : ConnectionContext) (address : Int) : Prop :=
  context.index ≠ johnnyStackConnections ∧
    (context.index : Int) * johnnyBufferSize ≤ address ∧
    address < ((context.index : Int) + 1) * johnnyBufferSize

/-- No two live connections have one context or overlapping buffers. -/
def NoSharing (state : Connections) : Prop :=
  state.live.Pairwise (fun first second => first ≠ second ∧
    forall address, ¬ (InBufferSlice (state.memory.contexts first) address ∧
      InBufferSlice (state.memory.contexts second) address))

/-- What holds of the live connections and the bitmap while no context has
been handed out twice.  Bit `i` of a word belongs to slot `min i 31` of it. -/
structure Isolated (state : Connections) : Prop where
  nodup : state.live.Nodup
  stack : forall slot, .stack slot ∈ state.live ->
    slot < johnnyStackConnections ∧ slot % 64 < 32 ∧
      (state.memory.contexts (.stack slot)).index = slot
  heap : forall address, .heap address ∈ state.live ->
    address ∈ state.memory.heapContexts ∧
      (state.memory.contexts (.heap address)).index = johnnyStackConnections
  bits : forall word, word < johnnyConBitmapLen -> forall i, i < 64 ->
    ((state.memory.conBitmap word).getLsbD i = true <-> .stack (64 * word + min i 31) ∈ state.live)

theorem isolated_zero : Isolated Connections.zero where
  nodup := List.nodup_nil
  stack := by
    intro slot member
    cases member
  heap := by
    intro address member
    cases member
  bits := by
    intro word _ i _
    simp [Connections.zero, Memory.zero]

theorem Isolated.noSharing {state : Connections} (isolated : Isolated state) : NoSharing state := by
  apply List.Pairwise.imp_of_mem _ isolated.nodup
  intro first second firstLive secondLive different
  refine ⟨different, ?_⟩
  rintro address ⟨inFirst, inSecond⟩
  cases first with
  | heap =>
      exact inFirst.1 (isolated.heap _ firstLive).2
  | stack left =>
      cases second with
      | heap => exact inSecond.1 (isolated.heap _ secondLive).2
      | stack right =>
          unfold InBufferSlice at inFirst inSecond
          rw [(isolated.stack left firstLive).2.2] at inFirst
          rw [(isolated.stack right secondLive).2.2] at inSecond
          have same : left = right := by
            simp only [johnnyBufferSize_eq] at inFirst inSecond
            omega
          exact different (congrArg ContextPointer.stack same)

/-- The mask of a slot in the lower half of its word. -/
theorem intMask_slot {word low i : Nat} (half : low < 32) (inside : i < 64) :
    (intMask (64 * word + low)).getLsbD i = decide (min i 31 = low) := by
  rw [intMask_getLsbD, decide_eq_true inside, Bool.true_and]
  apply decide_eq_decide.mpr
  have remainder : (64 * word + low) % 32 = low := by omega
  rw [remainder]
  omega

theorem bit_clear_iff (bits : BitVec 64) (i : Nat) :
    bits.getLsbD i = false <-> ¬ bits.getLsbD i = true := by
  rw [Bool.not_eq_true]

/-- The state in which an allocation may only be made if it is to get a context
of its own: the first word with a clear bit is not negative, or is even. -/
def FirstFreeWordUsable (conBitmap : Nat -> BitVec 64) : Prop :=
  forall word, word < johnnyConBitmapLen -> (forall k, k < word -> conBitmap k = -1) ->
    conBitmap word ≠ -1 -> (conBitmap word).msb = false ∨ (conBitmap word).getLsbD 0 = false

instance (conBitmap : Nat -> BitVec 64) : Decidable (FirstFreeWordUsable conBitmap) :=
  inferInstanceAs (Decidable (forall word, word < johnnyConBitmapLen ->
    (forall k, k < word -> conBitmap k = -1) -> conBitmap word ≠ -1 ->
      (conBitmap word).msb = false ∨ (conBitmap word).getLsbD 0 = false))

/-- Either every word is full or there is a first word that is not. -/
theorem full_or_firstFree (conBitmap : Nat -> BitVec 64) :
    (forall k, k < johnnyConBitmapLen -> conBitmap k = -1) ∨
      Exists fun word => word < johnnyConBitmapLen ∧ (forall k, k < word -> conBitmap k = -1) ∧
        conBitmap word ≠ -1 := by
  by_cases full : forall k, k < johnnyConBitmapLen -> conBitmap k = -1
  · exact Or.inl full
  · have found : Exists fun word => word < johnnyConBitmapLen ∧ conBitmap word ≠ -1 := by
      by_contra none
      apply full
      intro k inside
      by_contra free
      exact none ⟨k, inside, free⟩
    refine Or.inr ⟨Nat.find found, (Nat.find_spec found).1, ?_, (Nat.find_spec found).2⟩
    intro k lower
    by_contra free
    have inside := Nat.lt_trans lower (Nat.find_spec found).1
    exact Nat.find_min found lower ⟨inside, free⟩

/-- Whatever the bitmap is, the answer is a slot or stands for none. -/
theorem johnnyTriesToAllocateConnectionOnStack_le (conBitmap : Nat -> BitVec 64) :
    (johnnyTriesToAllocateConnectionOnStack conBitmap).1 ≤ johnnyStackConnections := by
  rcases full_or_firstFree conBitmap with full | ⟨word, inside, full, free⟩
  · rw [allocate_on_stack_full full]
  · have rounds := onesRounds_lt (conBitmap word)
    rw [allocate_on_stack_found inside full free]
    simp only [johnnyConBitmapLen_eq, johnnyBitsPerLong_eq,
      johnnyStackConnections_eq] at inside rounds ⊢
    omega

/-- In a word that is not negative the scan stops at the lowest clear bit, and
that bit is in the lower half. -/
theorem Isolated.lowest_slot {state : Connections} (isolated : Isolated state) {word : Nat}
    (inside : word < johnnyConBitmapLen) (sign : (state.memory.conBitmap word).msb = false) :
    Exists fun low => low < 32 ∧
      onesRounds johnnyBitsPerLong (state.memory.conBitmap word) = low ∧
      .stack (64 * word + low) ∉ state.live ∧
      forall i, i < low -> .stack (64 * word + i) ∈ state.live := by
  have top : (state.memory.conBitmap word).getLsbD 63 = false := by
    rw [← sign, BitVec.msb_eq_getLsbD_last]
  have notLive : .stack (64 * word + 31) ∉ state.live := by
    intro live
    rw [(isolated.bits word inside 63 (by decide)).mpr live] at top
    cases top
  have clear : (state.memory.conBitmap word).getLsbD 31 = false := by
    rw [bit_clear_iff, isolated.bits word inside 31 (by decide)]
    exact notLive
  rcases exists_lowest_clear clear with ⟨low, half, isClear, below⟩
  refine ⟨low, by omega, ?_, ?_, ?_⟩
  · exact onesRounds_lowest_clear _ _ sign low
      (by simp only [johnnyBitsPerLong_eq]; omega) isClear below
  · intro live
    have set := (isolated.bits word inside low (by omega)).mpr (by rwa [Nat.min_eq_left half])
    rw [isClear] at set
    cases set
  · intro i lower
    have live := (isolated.bits word inside i (by omega)).mp (below i lower)
    rwa [Nat.min_eq_left (by omega)] at live

/-- Whether the first free word is usable is decided at that word. -/
theorem firstFreeWordUsable_iff {conBitmap : Nat -> BitVec 64} {word : Nat}
    (inside : word < johnnyConBitmapLen) (full : forall k, k < word -> conBitmap k = -1)
    (free : conBitmap word ≠ -1) :
    FirstFreeWordUsable conBitmap <-> (conBitmap word).msb = false ∨
      (conBitmap word).getLsbD 0 = false := by
  constructor
  · intro usable
    exact usable word inside full free
  · intro usable other _ otherFull otherFree
    rcases Nat.lt_trichotomy other word with lower | same | higher
    · exact False.elim (otherFree (full other lower))
    · rw [same]
      exact usable
    · exact False.elim (free (otherFull word higher))

/-- What an allocation finds in a state without sharing: no free slot, a slot
that no live connection has, or, in a negative and odd word, the slot of a live
connection. -/
theorem Isolated.allocation_cases {state : Connections} (isolated : Isolated state) :
    (FirstFreeWordUsable state.memory.conBitmap ∧
      (forall k, k < johnnyConBitmapLen -> state.memory.conBitmap k = -1) ∧
      johnnyTriesToAllocateConnectionOnStack state.memory.conBitmap =
        (johnnyStackConnections, state.memory.conBitmap)) ∨
    (FirstFreeWordUsable state.memory.conBitmap ∧
      Exists fun word => Exists fun low => word < johnnyConBitmapLen ∧ low < 32 ∧
        .stack (64 * word + low) ∉ state.live ∧
        johnnyTriesToAllocateConnectionOnStack state.memory.conBitmap =
          (64 * word + low, Function.update state.memory.conBitmap word
            (state.memory.conBitmap word ||| intMask (64 * word + low)))) ∨
    (¬ FirstFreeWordUsable state.memory.conBitmap ∧
      Exists fun word => word < johnnyConBitmapLen ∧ .stack (64 * word) ∈ state.live ∧
        (johnnyTriesToAllocateConnectionOnStack state.memory.conBitmap).1 = 64 * word) := by
  rcases full_or_firstFree state.memory.conBitmap with full | ⟨word, inside, full, free⟩
  · refine Or.inl ⟨?_, full, allocate_on_stack_full full⟩
    intro word inside _ free
    exact False.elim (free (full word inside))
  · have found := allocate_on_stack_found inside full free
    rw [firstFreeWordUsable_iff inside full free]
    by_cases sign : (state.memory.conBitmap word).msb = false
    · rcases isolated.lowest_slot inside sign with ⟨low, half, rounds, notLive, -⟩
      rw [rounds] at found
      exact Or.inr (Or.inl ⟨Or.inl sign, word, low, inside, half, notLive, found⟩)
    · have rounds : onesRounds johnnyBitsPerLong (state.memory.conBitmap word) = 0 :=
        onesRounds_of_stop _ _ (fun both => sign both.1)
      have lowest := isolated.bits word inside 0 (by decide)
      rw [rounds] at found
      by_cases even : (state.memory.conBitmap word).getLsbD 0 = false
      · refine Or.inr (Or.inl ⟨Or.inr even, word, 0, inside, by decide, ?_, found⟩)
        intro live
        rw [lowest.mpr live] at even
        cases even
      · refine Or.inr (Or.inr ⟨not_or.mpr ⟨sign, even⟩, word, inside, ?_, ?_⟩)
        · exact lowest.mp (Bool.eq_true_of_not_eq_false even)
        · rw [found]
          rfl

theorem allocate_on_heap {memory : Memory} {conBitmap : Nat -> BitVec 64}
    (found : johnnyTriesToAllocateConnectionOnStack memory.conBitmap =
      (johnnyStackConnections, conBitmap)) (fd : Int) (malloced : Malloced) :
    johnnyAllocatesConnection memory fd malloced =
      (.heap malloced.address,
        { memory with
          conBitmap := conBitmap
          contexts := Function.update memory.contexts (.heap malloced.address)
            (initialContext malloced.context
              (.extension { responseLength := 0, buffer := malloced.buffer })
              johnnyStackConnections fd)
          heapContexts := malloced.address :: memory.heapContexts }) := by
  unfold johnnyAllocatesConnection
  rw [found]
  rfl

theorem allocate_on_stack {memory : Memory} {slot : Nat} {conBitmap : Nat -> BitVec 64}
    (found : johnnyTriesToAllocateConnectionOnStack memory.conBitmap = (slot, conBitmap))
    (inside : slot ≠ johnnyStackConnections) (fd : Int) (malloced : Malloced) :
    johnnyAllocatesConnection memory fd malloced =
      (.stack slot,
        { memory with
          conBitmap := conBitmap
          contexts := Function.update memory.contexts (.stack slot)
            (initialContext (memory.contexts (.stack slot)) (.responseLength 0) slot fd) }) := by
  unfold johnnyAllocatesConnection
  rw [found]
  exact if_neg inside

/-- A slot's number is read back from its word and its bit. -/
theorem slot_word_bit {word low : Nat} (half : low < 32) :
    (64 * word + low) / 64 = word ∧ (64 * word + low) % 64 = low := by
  omega

theorem slot_lt {word low : Nat} (inside : word < johnnyConBitmapLen) (half : low < 32) :
    64 * word + low < johnnyStackConnections := by
  simp only [johnnyConBitmapLen_eq] at inside
  simp only [johnnyStackConnections_eq]
  omega

/-- With every word full the context comes from `malloc` and the bitmap stays. -/
theorem Isolated.allocates_heap {state : Connections} (isolated : Isolated state)
    (found : johnnyTriesToAllocateConnectionOnStack state.memory.conBitmap =
      (johnnyStackConnections, state.memory.conBitmap)) (fd : Int) (malloced : Malloced)
    (fresh : malloced.address ∉ state.memory.heapContexts) :
    Isolated (AllocatorCall.step state (.allocate fd malloced)) := by
  have result := allocate_on_heap found fd malloced
  have unused : .heap malloced.address ∉ state.live :=
    fun live => fresh (isolated.heap _ live).1
  refine ⟨?_, ?_, ?_, ?_⟩ <;> simp only [AllocatorCall.step, result]
  · exact List.nodup_cons.mpr ⟨unused, isolated.nodup⟩
  · intro slot live
    rcases List.mem_cons.mp live with impossible | live
    · cases impossible
    · rw [Function.update_of_ne (by simp)]
      exact isolated.stack slot live
  · intro address live
    by_cases same : address = malloced.address
    · subst same
      rw [Function.update_self]
      exact ⟨List.mem_cons_self, rfl⟩
    · have old : .heap address ∈ state.live := by
        rcases List.mem_cons.mp live with equal | live
        · exact False.elim (same (ContextPointer.heap.inj equal))
        · exact live
      rw [Function.update_of_ne (by simpa using same)]
      exact ⟨List.mem_cons_of_mem _ (isolated.heap address old).1, (isolated.heap address old).2⟩
  · intro word inside i width
    rw [isolated.bits word inside i width, List.mem_cons]
    simp

/-- A slot of the lower half of a word sets its own bit, or from bit 31 on all
bits. -/
theorem Isolated.allocates_slot {state : Connections} (isolated : Isolated state) {word low : Nat}
    (inside : word < johnnyConBitmapLen) (half : low < 32)
    (notLive : .stack (64 * word + low) ∉ state.live)
    (found : johnnyTriesToAllocateConnectionOnStack state.memory.conBitmap =
      (64 * word + low, Function.update state.memory.conBitmap word
        (state.memory.conBitmap word ||| intMask (64 * word + low))))
    (fd : Int) (malloced : Malloced) :
    Isolated (AllocatorCall.step state (.allocate fd malloced)) := by
  have small := slot_lt inside half
  have result := allocate_on_stack found (Nat.ne_of_lt small) fd malloced
  have place := @slot_word_bit word low half
  refine ⟨?_, ?_, ?_, ?_⟩ <;> simp only [AllocatorCall.step, result]
  · exact List.nodup_cons.mpr ⟨notLive, isolated.nodup⟩
  · intro slot live
    by_cases same : slot = 64 * word + low
    · subst same
      rw [Function.update_self, place.2]
      exact ⟨small, half, rfl⟩
    · have old : .stack slot ∈ state.live := by
        rcases List.mem_cons.mp live with equal | live
        · exact False.elim (same (ContextPointer.stack.inj equal))
        · exact live
      rw [Function.update_of_ne (by simpa using same)]
      exact isolated.stack slot old
  · intro address live
    have old : .heap address ∈ state.live := by
      rcases List.mem_cons.mp live with impossible | live
      · cases impossible
      · exact live
    rw [Function.update_of_ne (by simp)]
    exact isolated.heap address old
  · intro other otherInside i width
    rw [List.mem_cons, ContextPointer.stack.injEq]
    by_cases same : other = word
    · subst same
      rw [Function.update_self, BitVec.getLsbD_or, Bool.or_eq_true,
        isolated.bits other inside i width, intMask_slot half width, decide_eq_true_eq, or_comm]
      exact or_congr_left (by omega)
    · rw [Function.update_of_ne same, isolated.bits other otherInside i width]
      exact (or_iff_right (by omega)).symm

theorem Isolated.allocate {state : Connections} (isolated : Isolated state)
    (usable : FirstFreeWordUsable state.memory.conBitmap) (fd : Int) (malloced : Malloced)
    (fresh : malloced.address ∉ state.memory.heapContexts) :
    Isolated (AllocatorCall.step state (.allocate fd malloced)) := by
  rcases isolated.allocation_cases with ⟨-, -, found⟩ |
    ⟨-, word, low, inside, half, notLive, found⟩ |
      ⟨unusable, -⟩
  · exact isolated.allocates_heap found fd malloced fresh
  · exact isolated.allocates_slot inside half notLive found fd malloced
  · exact False.elim (unusable usable)

theorem Isolated.mem_erase {state : Connections} (isolated : Isolated state)
    {ctx other : ContextPointer} :
    other ∈ state.live.erase ctx <-> other ≠ ctx ∧ other ∈ state.live :=
  isolated.nodup.mem_erase_iff

theorem Isolated.deallocates_heap {state : Connections} (isolated : Isolated state) {address : Nat}
    (live : .heap address ∈ state.live) :
    Isolated (AllocatorCall.step state (.deallocate (.heap address))) := by
  have result : johnnyDeallocatesConnection state.memory (.heap address) =
      { state.memory with heapContexts := state.memory.heapContexts.erase address } := by
    unfold johnnyDeallocatesConnection
    rw [if_pos (isolated.heap address live).2]
  refine ⟨?_, ?_, ?_, ?_⟩ <;> simp only [AllocatorCall.step, result]
  · exact isolated.nodup.erase _
  · intro slot member
    exact isolated.stack slot (List.mem_of_mem_erase member)
  · intro other member
    have parts := isolated.mem_erase.mp member
    have different : other ≠ address := fun same => parts.1 (congrArg ContextPointer.heap same)
    refine ⟨?_, (isolated.heap other parts.2).2⟩
    exact (List.mem_erase_of_ne different).mpr (isolated.heap other parts.2).1
  · intro word inside i width
    rw [isolated.bits word inside i width, isolated.mem_erase]
    simp

theorem Isolated.deallocates_slot {state : Connections} (isolated : Isolated state) {slot : Nat}
    (live : .stack slot ∈ state.live) :
    Isolated (AllocatorCall.step state (.deallocate (.stack slot))) := by
  rcases isolated.stack slot live with ⟨small, half, index⟩
  have result : johnnyDeallocatesConnection state.memory (.stack slot) =
      { state.memory with
        conBitmap := Function.update state.memory.conBitmap (slot / 64)
          (state.memory.conBitmap (slot / 64) ^^^ intMask (slot % 64)) } := by
    unfold johnnyDeallocatesConnection
    rw [if_neg (by rw [index]; omega), index]
    rfl
  refine ⟨?_, ?_, ?_, ?_⟩ <;> simp only [AllocatorCall.step, result]
  · exact isolated.nodup.erase _
  · intro other member
    exact isolated.stack other (List.mem_of_mem_erase member)
  · intro address member
    exact isolated.heap address (List.mem_of_mem_erase member)
  · intro word inside i width
    rw [isolated.mem_erase, ne_eq, ContextPointer.stack.injEq]
    by_cases same : word = slot / 64
    · subst same
      have mask : (intMask (slot % 64)).getLsbD i = decide (min i 31 = slot % 64) := by
        simpa using @intMask_slot 0 _ _ half width
      have whole : .stack (64 * (slot / 64) + slot % 64) ∈ state.live := by
        rwa [Nat.div_add_mod]
      have old := isolated.bits (slot / 64) inside i width
      rw [Function.update_self, BitVec.getLsbD_xor, mask]
      by_cases own : min i 31 = slot % 64
      · -- The slot's own bits were set, so the mask clears them.
        rw [own] at old ⊢
        rw [old.mpr whole]
        simp only [decide_true, Bool.xor_self, Bool.false_eq_true, false_iff, not_and]
        intro different
        exact False.elim (different (Nat.div_add_mod slot 64))
      · rw [decide_eq_false own, Bool.xor_false, old]
        exact (and_iff_right (by omega)).symm
    · rw [Function.update_of_ne same, isolated.bits word inside i width]
      exact (and_iff_right (by omega)).symm

theorem Isolated.deallocate {state : Connections} (isolated : Isolated state) {ctx : ContextPointer}
    (live : ctx ∈ state.live) : Isolated (AllocatorCall.step state (.deallocate ctx)) := by
  cases ctx with
  | heap address => exact isolated.deallocates_heap live
  | stack slot => exact isolated.deallocates_slot live

/-! ## When contexts are shared -/

/-- What an allocation hands out, and that no live connections share anything
after a call. -/
def IsolatedCall (state : Connections) (call : AllocatorCall) : Prop :=
  match call with
  | .allocate fd malloced =>
      let allocated := johnnyAllocatesConnection state.memory fd malloced
      allocated.1 ∉ state.live ∧
        ((Exists fun address => allocated.1 = .heap address ∧ address ∉ state.memory.heapContexts ∧
            (allocated.2.contexts allocated.1).index = johnnyStackConnections) ∨
          Exists fun slot => allocated.1 = .stack slot ∧ slot < johnnyStackConnections ∧
            (allocated.2.contexts allocated.1).index = slot) ∧
        NoSharing (call.step state)
  | .deallocate _ => NoSharing (call.step state)

/-- An allocation finds the first free word usable. -/
def UsableCall (state : Connections) (call : AllocatorCall) : Prop :=
  match call with
  | .allocate _ _ => FirstFreeWordUsable state.memory.conBitmap
  | .deallocate _ => True

instance (state : Connections) (call : AllocatorCall) : Decidable (UsableCall state call) :=
  match call with
  | .allocate _ _ => inferInstanceAs (Decidable (FirstFreeWordUsable state.memory.conBitmap))
  | .deallocate _ => .isTrue trivial

theorem Isolated.isolatedCall_iff {state : Connections} (isolated : Isolated state)
    (call : AllocatorCall) (enabled : call.Enabled state) :
    IsolatedCall state call <-> UsableCall state call := by
  cases call with
  | deallocate ctx => exact iff_of_true (isolated.deallocate enabled).noSharing trivial
  | allocate fd malloced =>
      constructor
      · intro good
        by_contra unusable
        rcases isolated.allocation_cases with ⟨usable, -⟩ | ⟨usable, -⟩ |
          ⟨-, word, inside, live, found⟩
        · exact unusable usable
        · exact unusable usable
        · have small := slot_lt inside (show 0 < 32 by decide)
          have result := allocate_on_stack (Prod.ext found rfl) (Nat.ne_of_lt small) fd malloced
          apply good.1
          rw [result]
          exact live
      · intro usable
        have after := (isolated.allocate usable fd malloced enabled)
        rcases isolated.allocation_cases with ⟨-, -, found⟩ |
            ⟨-, word, low, inside, half, notLive, found⟩ | ⟨unusable, -⟩
        · have result := allocate_on_heap found fd malloced
          refine ⟨?_, Or.inl ⟨malloced.address, ?_, enabled, ?_⟩, after.noSharing⟩ <;>
            simp only [result]
          · exact fun live => enabled (isolated.heap _ live).1
          · rw [Function.update_self]
            rfl
        · have small := slot_lt inside half
          have result := allocate_on_stack found (Nat.ne_of_lt small) fd malloced
          refine ⟨?_, Or.inr ⟨64 * word + low, ?_, small, ?_⟩, after.noSharing⟩ <;>
            simp only [result]
          · exact notLive
          · rw [Function.update_self]
            rfl
        · exact False.elim (unusable usable)

theorem isolated_guarded : allocator.Guarded Isolated UsableCall IsolatedCall where
  keeps := by
    intro state call isolated enabled usable
    cases call with
    | allocate fd malloced => exact isolated.allocate usable fd malloced enabled
    | deallocate ctx => exact isolated.deallocate enabled
  exact := fun _state call isolated enabled => isolated.isolatedCall_iff call enabled

/-- Over every run of the allocator, contexts stay isolated exactly when each
allocation finds the first word with a clear bit not negative or even.  The
scan reads a negative odd word as if its first slot were free. -/
theorem isolated_iff_usable (calls : List AllocatorCall)
    (run : allocator.Run Connections.zero calls) :
    allocator.Throughout IsolatedCall Connections.zero calls <->
      allocator.Throughout UsableCall Connections.zero calls :=
  isolated_guarded.throughout_iff isolated_zero run

/-- Two connections, one of them closed again. -/
theorem isolated_short_run :
    allocator.Throughout IsolatedCall Connections.zero
      [.allocate 5 unusedMalloced, .allocate 6 unusedMalloced, .deallocate (.stack 0)] :=
  (isolated_iff_usable _ (by decide)).mpr (by decide)

/-- Thirty-two connections, of which the sixth is closed, and one more. -/
def sharingCalls : List AllocatorCall :=
  List.replicate 32 (.allocate 5 unusedMalloced) ++ [.deallocate (.stack 5)] ++
    [.allocate 5 unusedMalloced]

/-- The last allocation returns the context of the first connection. -/
theorem not_isolated_sharingCalls :
    ¬ forall calls, allocator.Run Connections.zero calls ->
      allocator.Throughout IsolatedCall Connections.zero calls := by
  intro isolated
  have throughout := isolated sharingCalls (by decide)
  have last := ((allocator.throughout_append _ _ _ _).mp throughout).2.1
  exact last.1 (by decide)

end Worker
end Johnny
