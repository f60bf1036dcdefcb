import Johnny.Library.Machine
import Johnny.Library.Words
import Johnny.Global

namespace Johnny
namespace Worker

open Library

/-!
# Contexts for connections

A worker owns 1024 contexts, `con_ctx`, and marks the ones in use in the
sixteen signed 64-bit words of `con_bitmap`.  A connection that finds no free
slot gets a context from `malloc`.

The masks are computed as in the source: `1 << index` is an `int`, so the
x86-64 shift takes the count modulo 32 (C leaves larger counts undefined), and
the result is sign-extended when it meets the 64-bit word.
-/

/-- The thread-local data of a worker, with the contexts it took from `malloc`
and has not freed. -/
structure Memory where
  conBitmap : Nat -> BitVec 64
  contexts : ContextPointer -> ConnectionContext
  heapContexts : List Nat
  stackDataBuffer : Int -> UInt8

/-- A worker thread before its first connection: every word of `con_bitmap`
and every context is zero. -/
def Memory.zero : Memory where
  conBitmap := fun _ => 0
  contexts := fun _ => ConnectionContext.zero
  heapContexts := []
  stackDataBuffer := fun _ => 0

/-- `1 << count` as the 64-bit operand it becomes. -/
def intMask (count : Nat) : BitVec 64 :=
  (1#32 <<< (count % 32)).signExtend 64

/-- `for (long bits = word; bits % 2 == 1; bits >>= 1) index++`, as the number
of rounds.  Each round shifts a word that is not negative, so a word's width
bounds them. -/
def onesRounds : Nat -> BitVec 64 -> Nat
  | 0, _ => 0
  | fuel + 1, bits => if bits.srem 2#64 = 1#64 then onesRounds fuel (bits.sshiftRight 1) + 1 else 0

/-- The loop over the words of the bitmap, with the number of words left. -/
def allocationLoop (conBitmap : Nat -> BitVec 64) : Nat -> Nat -> Nat -> Nat × (Nat -> BitVec 64)
  | 0, _, index => (index, conBitmap)
  | words + 1, bitmapCounter, index =>
      if conBitmap bitmapCounter ≠ -1 then
        let slot := index + onesRounds johnnyBitsPerLong (conBitmap bitmapCounter)
        (slot, Function.update conBitmap bitmapCounter (conBitmap bitmapCounter ||| intMask slot))
      else allocationLoop conBitmap words (bitmapCounter + 1) (index + johnnyBitsPerLong)

def johnnyTriesToAllocateConnectionOnStack (conBitmap : Nat -> BitVec 64) :
    Nat × (Nat -> BitVec 64) :=
  allocationLoop conBitmap johnnyConBitmapLen 0 0

/-- The two blocks `malloc` returns for a context and its extension: where the
context lies and what the uninitialised memory happens to hold. -/
structure Malloced where
  address : Nat
  context : ConnectionContext
  buffer : Int -> UInt8

/-- Blocks of zeros, for connections that get their context on the stack. -/
def unusedMalloced : Malloced := ⟨0, ConnectionContext.zero, fun _ => 0⟩

/-- The fields that every new context gets, whichever memory it is in. -/
def initialContext (context : ConnectionContext) (tail : LengthOrExtension) (index : Nat)
    (fd : Int) : ConnectionContext :=
  { context with
    tail := tail
    flags := 0
    index := index
    prefixCounter := 4
    bufferOffset := 0
    bufferSize := 0
    fd := fd }

def johnnyAllocatesConnection (memory : Memory) (fd : Int) (malloced : Malloced) :
    ContextPointer × Memory :=
  let found := johnnyTriesToAllocateConnectionOnStack memory.conBitmap
  if found.1 = johnnyStackConnections then
    let newCon := initialContext malloced.context
      (.extension { responseLength := 0, buffer := malloced.buffer }) found.1 fd
    (.heap malloced.address,
      { memory with
        conBitmap := found.2
        contexts := Function.update memory.contexts (.heap malloced.address) newCon
        heapContexts := malloced.address :: memory.heapContexts })
  else
    let newCon := initialContext (memory.contexts (.stack found.1)) (.responseLength 0) found.1 fd
    (.stack found.1,
      { memory with
        conBitmap := found.2
        contexts := Function.update memory.contexts (.stack found.1) newCon })

def johnnyDeallocatesConnection (memory : Memory) (ctx : ContextPointer) : Memory :=
  let context := memory.contexts ctx
  if context.index = johnnyStackConnections then
    match ctx with
    | .heap address => { memory with heapContexts := memory.heapContexts.erase address }
    -- `free` of an element of `con_ctx`; no reachable context has such an index.
    | .stack _ => memory
  else
    let word := context.index / johnnyBitsPerLong
    { memory with
      conBitmap := Function.update memory.conBitmap word
        (memory.conBitmap word ^^^ intMask (context.index % johnnyBitsPerLong)) }

theorem onesRounds_of_stop (fuel : Nat) (bits : BitVec 64)
    (stop : ¬ (bits.msb = false ∧ bits.getLsbD 0 = true)) : onesRounds fuel bits = 0 := by
  cases fuel with
  | zero => rfl
  | succ fuel =>
      rw [onesRounds, if_neg]
      intro again
      exact stop ((srem_two_eq_one_iff (by decide) bits).mp again)

theorem onesRounds_of_again (fuel : Nat) (bits : BitVec 64) (sign : bits.msb = false)
    (odd : bits.getLsbD 0 = true) :
    onesRounds (fuel + 1) bits = onesRounds fuel (bits.sshiftRight 1) + 1 := by
  rw [onesRounds, if_pos ((srem_two_eq_one_iff (by decide) bits).mpr ⟨sign, odd⟩)]

/-- In a word that is not negative the scan stops at the lowest clear bit.
The induction is on the fuel, which is enough to pass every set bit. -/
theorem onesRounds_lowest_clear (fuel : Nat) (bits : BitVec 64) (sign : bits.msb = false)
    (clear : Nat) (enough : clear < fuel) (isClear : bits.getLsbD clear = false)
    (below : forall i, i < clear -> bits.getLsbD i = true) :
    onesRounds fuel bits = clear := by
  induction fuel generalizing bits clear with
  | zero => omega
  | succ fuel ih =>
      cases clear with
      | zero =>
          apply onesRounds_of_stop
          intro both
          rw [isClear] at both
          cases both.2
      | succ clear =>
          have odd := below 0 (Nat.succ_pos clear)
          have shifted := getLsbD_sshiftRight_one sign
          rw [onesRounds_of_again fuel bits sign odd, ih _ _ clear (by omega)]
          · rw [shifted]
            exact isClear
          · intro i lower
            rw [shifted]
            exact below (i + 1) (by omega)
          · rw [BitVec.msb_sshiftRight]
            exact sign

/-- A word that is not negative has a lowest clear bit. -/
theorem exists_lowest_clear {bits : BitVec 64} {clear : Nat}
    (isClear : bits.getLsbD clear = false) :
    Exists fun lowest => lowest ≤ clear ∧ bits.getLsbD lowest = false ∧
      forall i, i < lowest -> bits.getLsbD i = true := by
  have found : Exists fun i => bits.getLsbD i = false := ⟨clear, isClear⟩
  refine ⟨Nat.find found, Nat.find_min' found isClear, Nat.find_spec found, ?_⟩
  intro i lower
  exact Bool.eq_true_of_not_eq_false (Nat.find_min found lower)

/-- The scan of a word never passes its last bit. -/
theorem onesRounds_lt (bits : BitVec 64) :
    onesRounds johnnyBitsPerLong bits < johnnyBitsPerLong := by
  by_cases again : bits.msb = false ∧ bits.getLsbD 0 = true
  · have top : bits.getLsbD 63 = false := by
      rw [← again.1, BitVec.msb_eq_getLsbD_last]
    rcases exists_lowest_clear top with ⟨lowest, bound, isClear, below⟩
    have inside : lowest < johnnyBitsPerLong := Nat.lt_succ_of_le bound
    rw [onesRounds_lowest_clear _ _ again.1 lowest inside isClear below]
    exact inside
  · rw [onesRounds_of_stop _ _ again]
    decide

/-! ## The scan of the bitmap -/

/-- The scan passes words that are all ones. -/
theorem allocationLoop_full (conBitmap : Nat -> BitVec 64) (words bitmapCounter index : Nat)
    (full : forall k, bitmapCounter ≤ k -> k < bitmapCounter + words -> conBitmap k = -1) :
    allocationLoop conBitmap words bitmapCounter index =
      (index + johnnyBitsPerLong * words, conBitmap) := by
  induction words generalizing bitmapCounter index with
  | zero => rfl
  | succ words ih =>
      rw [allocationLoop, if_neg (not_not.mpr (full bitmapCounter (Nat.le_refl _) (by omega)))]
      rw [ih _ _ (fun k lower upper => full k (by omega) (by omega))]
      apply Prod.ext
      · simp only [johnnyBitsPerLong_eq]
        omega
      · rfl

/-- The scan stops at the first word that is not all ones. -/
theorem allocationLoop_found (conBitmap : Nat -> BitVec 64) (words bitmapCounter index word : Nat)
    (lower : bitmapCounter ≤ word) (upper : word < bitmapCounter + words)
    (full : forall k, bitmapCounter ≤ k -> k < word -> conBitmap k = -1)
    (free : conBitmap word ≠ -1) :
    allocationLoop conBitmap words bitmapCounter index =
      (let slot := index + johnnyBitsPerLong * (word - bitmapCounter) +
        onesRounds johnnyBitsPerLong (conBitmap word)
      (slot, Function.update conBitmap word (conBitmap word ||| intMask slot))) := by
  induction words generalizing bitmapCounter index with
  | zero => omega
  | succ words ih =>
      by_cases here : bitmapCounter = word
      · subst here
        rw [allocationLoop, if_pos free, Nat.sub_self, Nat.mul_zero, Nat.add_zero]
      · have notFree := full bitmapCounter (Nat.le_refl _) (by omega)
        rw [allocationLoop, if_neg (not_not.mpr notFree)]
        rw [ih _ _ (by omega) (by omega) (fun k lo up => full k (by omega) up)]
        have slots : index + johnnyBitsPerLong + johnnyBitsPerLong * (word - (bitmapCounter + 1)) =
            index + johnnyBitsPerLong * (word - bitmapCounter) := by
          simp only [johnnyBitsPerLong_eq]
          omega
        rw [slots]

theorem allocate_on_stack_full {conBitmap : Nat -> BitVec 64}
    (full : forall k, k < johnnyConBitmapLen -> conBitmap k = -1) :
    johnnyTriesToAllocateConnectionOnStack conBitmap = (johnnyStackConnections, conBitmap) := by
  unfold johnnyTriesToAllocateConnectionOnStack
  rw [allocationLoop_full conBitmap _ _ _ (fun k _ upper => full k (by omega))]
  rfl

theorem allocate_on_stack_found {conBitmap : Nat -> BitVec 64} {word : Nat}
    (inside : word < johnnyConBitmapLen) (full : forall k, k < word -> conBitmap k = -1)
    (free : conBitmap word ≠ -1) :
    johnnyTriesToAllocateConnectionOnStack conBitmap =
      (let slot := johnnyBitsPerLong * word + onesRounds johnnyBitsPerLong (conBitmap word)
      (slot, Function.update conBitmap word (conBitmap word ||| intMask slot))) := by
  unfold johnnyTriesToAllocateConnectionOnStack
  rw [allocationLoop_found conBitmap _ 0 0 word (Nat.zero_le _) (by omega)
    (fun k _ upper => full k upper) free]
  simp only [Nat.zero_add, Nat.sub_zero]

/-- The low half of a mask has its own bit; the mask of bit 31 also fills the
high half. -/
theorem intMask_getLsbD (count i : Nat) :
    (intMask count).getLsbD i =
      (decide (i < 64) && decide (i = count % 32 ∨ (count % 32 = 31 ∧ 32 ≤ i))) := by
  unfold intMask
  exact getLsbD_signExtend_one_shiftLeft (Nat.mod_lt _ (by decide)) i

end Worker
end Johnny
