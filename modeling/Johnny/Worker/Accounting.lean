import Johnny.Worker.Slots

namespace Johnny
namespace Worker

open Library

/-!
# Counting slots

Read literally, the bitmap has one bit for each slot.  That reading is exact
until slot 31 is handed out, which sets the bits of the 32 slots above it as
well.  Since the lowest clear bit is always taken, slot 31 is reached exactly
when 31 other connections are live.
-/

/-- The bit of the bitmap that belongs to a slot. -/
def slotBit (conBitmap : Nat -> BitVec 64) (slot : Nat) : Bool :=
  (conBitmap (slot / johnnyBitsPerLong)).getLsbD (slot % johnnyBitsPerLong)

/-- Every slot's bit says whether a live connection holds the slot. -/
def ExactSlots (state : Connections) : Prop :=
  forall slot, slot < johnnyStackConnections ->
    (slotBit state.memory.conBitmap slot = true <-> .stack slot ∈ state.live)

/-- The context that a call hands out or takes back. -/
def AllocatorCall.touched (state : Connections) : AllocatorCall -> ContextPointer
  | .allocate fd malloced => (johnnyAllocatesConnection state.memory fd malloced).1
  | .deallocate ctx => ctx

/-- A call after which the slots are accounted for exactly: the bits are those
of the live slots, only the call's own bit has changed, the heap was used only
when every slot was live, and without live connections all words are zero. -/
structure ExactCall (state : Connections) (call : AllocatorCall) : Prop where
  slots : ExactSlots (call.step state)
  others : forall slot, slot < johnnyStackConnections -> call.touched state ≠ .stack slot ->
    slotBit (call.step state).memory.conBitmap slot = slotBit state.memory.conBitmap slot
  heapWhenFull : forall fd malloced, call = .allocate fd malloced ->
    (Exists fun address => call.touched state = .heap address) ->
      forall slot, slot < johnnyStackConnections -> .stack slot ∈ state.live
  zeroWhenClosed : (call.step state).live = [] ->
    forall word, word < johnnyConBitmapLen -> (call.step state).memory.conBitmap word = 0

/-- Allocations are made only while fewer than 31 connections are live. -/
def FewCall (state : Connections) (call : AllocatorCall) : Prop :=
  match call with
  | .allocate _ _ => state.live.length < 31
  | .deallocate _ => True

instance (state : Connections) (call : AllocatorCall) : Decidable (FewCall state call) :=
  match call with
  | .allocate _ _ => inferInstanceAs (Decidable (state.live.length < 31))
  | .deallocate _ => .isTrue trivial

/-- Isolation with all live connections in the first 31 slots. -/
structure Few (state : Connections) : Prop where
  isolated : Isolated state
  low : forall ctx, ctx ∈ state.live -> Exists fun slot => slot < 31 ∧ ctx = .stack slot

theorem few_zero : Few Connections.zero where
  isolated := isolated_zero
  low := by
    intro ctx member
    cases member

/-- The first 31 slots. -/
def lowSlots : List ContextPointer := (List.range 31).map ContextPointer.stack

theorem mem_lowSlots (ctx : ContextPointer) :
    ctx ∈ lowSlots <-> Exists fun slot => slot < 31 ∧ ctx = .stack slot := by
  simp only [lowSlots, List.mem_map, List.mem_range, eq_comm]

/-- With fewer than 31 live connections, one of the first 31 slots is free. -/
theorem exists_free_low_slot {live : List ContextPointer} (few : live.length < 31) :
    Exists fun slot => slot < 31 ∧ .stack slot ∉ live := by
  by_contra none
  have nodup : lowSlots.Nodup := by decide
  have subset : lowSlots ⊆ live := by
    intro ctx member
    rcases (mem_lowSlots ctx).mp member with ⟨slot, low, rfl⟩
    by_contra notLive
    exact none ⟨slot, low, notLive⟩
  have atLeast := (nodup.subperm subset).length_le
  have count : lowSlots.length = 31 := by decide
  omega

/-- Thirty-one live connections in the first 31 slots fill them. -/
theorem Few.all_low_live {state : Connections} (few : Few state) (many : 31 ≤ state.live.length)
    {slot : Nat} (low : slot < 31) : .stack slot ∈ state.live := by
  by_contra notLive
  have subset : state.live ⊆ lowSlots.erase (.stack slot) := by
    intro ctx member
    have different : ctx ≠ .stack slot := by
      intro same
      exact notLive (same ▸ member)
    exact (List.mem_erase_of_ne different).mpr ((mem_lowSlots ctx).mpr (few.low ctx member))
  have atMost := (few.isolated.nodup.subperm subset).length_le
  have count : (lowSlots.erase (.stack slot)).length = 30 := by
    rw [List.length_erase_of_mem ((mem_lowSlots _).mpr ⟨slot, low, rfl⟩)]
    decide
  omega

/-- With all live connections in the first 31 slots, every bit is its slot's. -/
theorem Few.bit_iff {state : Connections} (few : Few state) {slot : Nat}
    (inside : slot < johnnyStackConnections) :
    slotBit state.memory.conBitmap slot = true <-> .stack slot ∈ state.live := by
  have word : slot / 64 < johnnyConBitmapLen := by
    simp only [johnnyStackConnections_eq] at inside
    simp only [johnnyConBitmapLen_eq]
    omega
  have owner := few.isolated.bits (slot / 64) word (slot % 64) (Nat.mod_lt _ (by decide))
  unfold slotBit
  simp only [johnnyBitsPerLong_eq]
  rw [owner]
  by_cases half : slot % 64 < 32
  · rw [Nat.min_eq_left (by omega), Nat.div_add_mod]
  · -- Both the bit's owner, slot 31 of its word, and the slot itself are too high to be live.
    constructor
    · intro live
      rcases few.low _ live with ⟨small, bound, equal⟩
      have same := ContextPointer.stack.inj equal
      omega
    · intro live
      rcases few.low _ live with ⟨small, bound, equal⟩
      have same := ContextPointer.stack.inj equal
      omega

theorem Few.exactSlots {state : Connections} (few : Few state) : ExactSlots state :=
  fun _slot inside => few.bit_iff inside

theorem Few.words_zero {state : Connections} (few : Few state) (closed : state.live = [])
    {word : Nat} (inside : word < johnnyConBitmapLen) : state.memory.conBitmap word = 0 := by
  apply BitVec.eq_of_getLsbD_eq
  intro i width
  have owner := few.isolated.bits word inside i width
  rw [closed] at owner
  rw [(bit_clear_iff _ _).mpr (fun set => List.not_mem_nil (owner.mp set))]
  simp

/-- What an allocation finds in a state with all live connections in the first
31 slots: the lowest slot that is free. -/
theorem Few.allocation_found {state : Connections} (few : Few state) :
    Exists fun low => low < 32 ∧ .stack low ∉ state.live ∧
      (forall i, i < low -> .stack i ∈ state.live) ∧
      johnnyTriesToAllocateConnectionOnStack state.memory.conBitmap =
        (low, Function.update state.memory.conBitmap 0
          (state.memory.conBitmap 0 ||| intMask low)) := by
  have inside : 0 < johnnyConBitmapLen := by decide
  have top : (state.memory.conBitmap 0).getLsbD 63 = false := by
    rw [bit_clear_iff, few.isolated.bits 0 inside 63 (by decide)]
    intro live
    rcases few.low _ live with ⟨slot, bound, equal⟩
    have same := ContextPointer.stack.inj equal
    omega
  have sign : (state.memory.conBitmap 0).msb = false := msb_eq_false_of_getLsbD top
  have free : state.memory.conBitmap 0 ≠ -1 := by
    intro full
    rw [full] at sign
    cases sign
  rcases few.isolated.lowest_slot inside sign with ⟨low, half, rounds, notLive, below⟩
  have found := allocate_on_stack_found inside (fun k lower =>
    absurd lower (Nat.not_lt_zero k)) free
  simp only [Nat.mul_zero, Nat.zero_add] at notLive below found
  rw [rounds] at found
  exact ⟨low, half, notLive, below, found⟩

/-- An allocation in such a state, with the slot it takes. -/
theorem Few.allocate_result {state : Connections} (few : Few state) (fd : Int)
    (malloced : Malloced) : Exists fun low => low < 32 ∧ .stack low ∉ state.live ∧
      (forall i, i < low -> .stack i ∈ state.live) ∧
      (AllocatorCall.allocate fd malloced).touched state = .stack low ∧
      ((AllocatorCall.allocate fd malloced).step state).live = .stack low :: state.live ∧
      ((AllocatorCall.allocate fd malloced).step state).memory.conBitmap =
        Function.update state.memory.conBitmap 0 (state.memory.conBitmap 0 ||| intMask low) := by
  rcases few.allocation_found with ⟨low, half, notLive, below, found⟩
  have small : low ≠ johnnyStackConnections := by
    simp only [johnnyStackConnections_eq]
    omega
  have result := allocate_on_stack found small fd malloced
  refine ⟨low, half, notLive, below, ?_, ?_, ?_⟩ <;>
    simp only [AllocatorCall.touched, AllocatorCall.step, result]

theorem Few.allocate {state : Connections} (few : Few state) (room : state.live.length < 31)
    (fd : Int) (malloced : Malloced) (fresh : malloced.address ∉ state.memory.heapContexts) :
    Few ((AllocatorCall.allocate fd malloced).step state) := by
  rcases few.allocate_result fd malloced with ⟨low, half, notLive, below, -, live, -⟩
  rcases exists_free_low_slot room with ⟨slot, bound, slotFree⟩
  have lowBound : low < 31 := by
    by_contra high
    exact slotFree (below slot (by omega))
  have usable : FirstFreeWordUsable state.memory.conBitmap := by
    rcases few.isolated.allocation_cases with ⟨usable, -⟩ | ⟨usable, -⟩ |
      ⟨-, word, -, shared, found⟩
    · exact usable
    · exact usable
    · rcases few.allocation_found with ⟨other, -, otherFree, -, otherFound⟩
      have same : other = 64 * word := by
        rw [otherFound] at found
        exact found
      rw [same] at otherFree
      exact absurd shared otherFree
  refine ⟨few.isolated.allocate usable fd malloced fresh, ?_⟩
  intro ctx member
  rw [live] at member
  rcases List.mem_cons.mp member with equal | old
  · exact ⟨low, lowBound, equal⟩
  · exact few.low ctx old

theorem Few.deallocate {state : Connections} (few : Few state) {ctx : ContextPointer}
    (live : ctx ∈ state.live) : Few ((AllocatorCall.deallocate ctx).step state) := by
  refine ⟨few.isolated.deallocate live, ?_⟩
  intro other member
  exact few.low other (List.mem_of_mem_erase member)

/-- Between two such states the bits of the slots that the call does not touch
are the same, since each says whether its slot is live. -/
theorem Few.others {state : Connections} (few : Few state) {call : AllocatorCall}
    (after : Few (call.step state)) {slot : Nat} (inside : slot < johnnyStackConnections)
    (different : call.touched state ≠ .stack slot) :
    slotBit (call.step state).memory.conBitmap slot = slotBit state.memory.conBitmap slot := by
  apply Bool.eq_iff_iff.mpr
  rw [after.bit_iff inside, few.bit_iff inside]
  cases call with
  | allocate fd malloced =>
      change .stack slot ∈ (_ :: state.live) <-> _
      rw [List.mem_cons]
      exact or_iff_right (Ne.symm different)
  | deallocate ctx =>
      exact List.mem_erase_of_ne (Ne.symm different)

/-- Taking slot 31 also sets the bit of slot 32. -/
theorem Few.not_exactSlots {state : Connections} (few : Few state) (many : 31 ≤ state.live.length)
    (fd : Int) (malloced : Malloced) :
    ¬ ExactSlots ((AllocatorCall.allocate fd malloced).step state) := by
  rcases few.allocate_result fd malloced with ⟨low, half, notLive, -, -, live, bitmap⟩
  have top : low = 31 := by
    by_contra other
    exact notLive (few.all_low_live many (by omega))
  intro exactly
  have slot := exactly 32 (by decide)
  have set : slotBit ((AllocatorCall.allocate fd malloced).step state).memory.conBitmap 32 =
      true := by
    unfold slotBit
    rw [bitmap]
    simp only [johnnyBitsPerLong_eq, Nat.reduceDiv, Nat.reduceMod, Function.update_self,
      BitVec.getLsbD_or, intMask_getLsbD, top]
    simp
  rw [live] at slot
  rcases List.mem_cons.mp (slot.mp set) with equal | old
  · have same := ContextPointer.stack.inj equal
    omega
  · rcases few.low _ old with ⟨small, bound, equal⟩
    have same := ContextPointer.stack.inj equal
    omega

theorem Few.exactCall_iff {state : Connections} (few : Few state) (call : AllocatorCall)
    (enabled : call.Enabled state) : ExactCall state call <-> FewCall state call := by
  cases call with
  | deallocate ctx =>
      have after := few.deallocate enabled
      refine iff_of_true ⟨after.exactSlots, ?_, ?_, ?_⟩ trivial
      · exact fun slot inside different => few.others after inside different
      · intro fd malloced impossible
        cases impossible
      · exact fun closed word inside => after.words_zero closed inside
  | allocate fd malloced =>
      constructor
      · intro good
        by_contra full
        exact few.not_exactSlots (Nat.le_of_not_lt full) fd malloced good.slots
      · intro room
        have after := few.allocate room fd malloced enabled
        rcases few.allocate_result fd malloced with ⟨low, -, -, -, touched, live, -⟩
        refine ⟨after.exactSlots, ?_, ?_, ?_⟩
        · exact fun slot inside different => few.others after inside different
        · rintro _ _ - ⟨address, onHeap⟩
          rw [touched] at onHeap
          cases onHeap
        · intro closed
          rw [live] at closed
          cases closed

theorem few_guarded : allocator.Guarded Few FewCall ExactCall where
  keeps := by
    intro state call few enabled room
    cases call with
    | allocate fd malloced => exact few.allocate room fd malloced enabled
    | deallocate ctx => exact few.deallocate enabled
  exact := fun _state call few enabled => few.exactCall_iff call enabled

/-- Over every run of the allocator, the slots are accounted for exactly as
long as no allocation is made beside 31 or more live connections. -/
theorem exact_iff_few (calls : List AllocatorCall) (run : allocator.Run Connections.zero calls) :
    allocator.Throughout ExactCall Connections.zero calls <->
      allocator.Throughout FewCall Connections.zero calls :=
  few_guarded.throughout_iff few_zero run

theorem exact_short_run :
    allocator.Throughout ExactCall Connections.zero
      [.allocate 5 unusedMalloced, .allocate 6 unusedMalloced, .deallocate (.stack 0)] :=
  (exact_iff_few _ (by decide)).mpr (by decide)

/-- With 32 connections the bit of slot 32 is set, which none of them holds. -/
theorem not_exact_thirtyTwo :
    ¬ forall calls, allocator.Run Connections.zero calls ->
      allocator.Throughout ExactCall Connections.zero calls := by
  intro exactly
  have throughout := exactly (List.replicate 31 (.allocate 5 unusedMalloced) ++
    [.allocate 5 unusedMalloced]) (by decide)
  have last := ((allocator.throughout_append _ _ _ _).mp throughout).2.1
  have slot := last.slots 32 (by decide)
  exact absurd (slot.mp (by decide)) (by decide)

end Worker
end Johnny
