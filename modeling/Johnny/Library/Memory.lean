import Mathlib.Logic.Function.Basic
import Mathlib.Data.List.Basic
import Mathlib.Algebra.Group.Nat.Defs

namespace Johnny
namespace Library

/-!
# Allocated memory of a C program

Memory is a set of separately allocated blocks.  A cell of a block is `none`
until it is written.  Every access states the range it touches, and an access
outside a live block has no result: an `Option` of this module is `none`
exactly where the C program's behaviour is undefined or it would be stopped.

C strings are read up to their terminating zero byte, which has to be found
inside the block.
-/

universe u

/-- An address: the block it was computed from and the position in it. -/
structure Pointer where
  block : Nat
  offset : Int
  deriving DecidableEq, Repr

/-- The pointer `distance` cells further on. -/
def Pointer.add (pointer : Pointer) (distance : Int) : Pointer :=
  ⟨pointer.block, pointer.offset + distance⟩

/-- A cell of memory, `none` while it is uninitialised. -/
abbrev Cell := Option UInt8

/-- The live blocks.  Block numbers from `next` on have not been handed out. -/
structure Heap where
  blocks : Nat -> Option (List Cell)
  next : Nat
  fresh : forall block, next ≤ block -> blocks block = none

/-- The string at the start of the cells, without its terminator. -/
def stringAt : List Cell -> Option (List UInt8)
  | [] => none
  | none :: _ => none
  | some byte :: rest => if byte = 0 then some [] else (stringAt rest).map (byte :: ·)

/-- The cells of a string with its terminator. -/
def stringCells (bytes : List UInt8) : List Cell :=
  (bytes ++ [0]).map some

@[simp] theorem stringCells_length (bytes : List UInt8) :
    (stringCells bytes).length = bytes.length + 1 := by
  simp [stringCells]

theorem stringCells_cons (byte : UInt8) (rest : List UInt8) :
    stringCells (byte :: rest) = some byte :: stringCells rest := rfl

/-- Whatever follows it, a string without zero bytes is read back whole. -/
theorem stringAt_stringCells (bytes : List UInt8) (nonzero : 0 ∉ bytes) (after : List Cell) :
    stringAt (stringCells bytes ++ after) = some bytes := by
  induction bytes with
  | nil => rfl
  | cons byte rest ih =>
      have parts := not_or.mp (mt List.mem_cons.mpr nonzero)
      rw [stringCells_cons, List.cons_append, stringAt, if_neg (Ne.symm parts.1), ih parts.2]
      rfl

/-- A string that can be read stands at the start of the cells, terminator
included, and has no zero byte. -/
theorem stringAt_eq_some {cells : List Cell} {bytes : List UInt8}
    (read : stringAt cells = some bytes) :
    0 ∉ bytes ∧ Exists fun after => cells = stringCells bytes ++ after := by
  induction cells generalizing bytes with
  | nil => cases read
  | cons cell rest ih =>
      cases cell with
      | none => cases read
      | some byte =>
          by_cases zero : byte = 0
          · rw [stringAt, if_pos zero] at read
            cases read
            subst zero
            exact ⟨List.not_mem_nil, rest, rfl⟩
          · rw [stringAt, if_neg zero] at read
            rcases Option.map_eq_some_iff.mp read with ⟨tail, tailRead, rfl⟩
            rcases ih tailRead with ⟨tailNonzero, after, rfl⟩
            exact ⟨mt List.mem_cons.mp (not_or.mpr ⟨Ne.symm zero, tailNonzero⟩), after, rfl⟩

theorem stringAt_length_lt {cells : List Cell} {bytes : List UInt8}
    (read : stringAt cells = some bytes) : bytes.length < cells.length := by
  rcases stringAt_eq_some read with ⟨-, after, rfl⟩
  rw [List.length_append, stringCells_length]
  omega

namespace Heap

/-- Memory before the first allocation. -/
def empty : Heap where
  blocks := fun _ => none
  next := 0
  fresh := fun _ _ => rfl

/-- `malloc` fails for requests above `PTRDIFF_MAX`. -/
def mallocLimit : Nat := 2 ^ 63

/-- Hand out a new block with the given cells. -/
def allocate (heap : Heap) (cells : List Cell) : Pointer × Heap :=
  (⟨heap.next, 0⟩,
    { blocks := Function.update heap.blocks heap.next (some cells)
      next := heap.next + 1
      fresh := by
        intro block later
        rw [Function.update_of_ne (by omega)]
        exact heap.fresh block (by omega) })

/-- `malloc(size)`: an uninitialised block, or no block for a request that is
too large. -/
def malloc (heap : Heap) (size : Nat) : Option (Pointer × Heap) :=
  if size < mallocLimit then some (heap.allocate (List.replicate size none)) else none

/-- `free`: only the start of a live block may be given back. -/
def free (heap : Heap) (pointer : Pointer) : Option Heap :=
  if pointer.offset = 0 ∧ (heap.blocks pointer.block).isSome then
    some
      { blocks := Function.update heap.blocks pointer.block none
        next := heap.next
        fresh := by
          intro block later
          by_cases same : block = pointer.block
          · rw [same, Function.update_self]
          · rw [Function.update_of_ne same]
            exact heap.fresh block later }
  else none

/-- The `count` cells from `pointer` on, all of them inside one block. -/
def read (heap : Heap) (pointer : Pointer) (count : Nat) : Option (List Cell) :=
  match heap.blocks pointer.block with
  | none => none
  | some cells =>
      if 0 ≤ pointer.offset ∧ pointer.offset + count ≤ cells.length then
        some ((cells.drop pointer.offset.toNat).take count)
      else none

/-- Overwrite the cells from `pointer` on, all of them inside one block. -/
def write (heap : Heap) (pointer : Pointer) (data : List Cell) : Option Heap :=
  match found : heap.blocks pointer.block with
  | none => none
  | some cells =>
      if 0 ≤ pointer.offset ∧ pointer.offset + data.length ≤ cells.length then
        some
          { blocks := Function.update heap.blocks pointer.block
              (some (cells.take pointer.offset.toNat ++ data ++
                cells.drop (pointer.offset.toNat + data.length)))
            next := heap.next
            fresh := by
              intro block later
              by_cases same : block = pointer.block
              · rw [← same, heap.fresh block later] at found
                cases found
              · rw [Function.update_of_ne same]
                exact heap.fresh block later }
      else none

/-- `memcpy(target, source, count)`. -/
def memcpy (heap : Heap) (target source : Pointer) (count : Nat) : Option Heap :=
  (heap.read source count).bind (heap.write target)

/-- The C string at `pointer`. -/
def cString (heap : Heap) (pointer : Pointer) : Option (List UInt8) :=
  match heap.blocks pointer.block with
  | none => none
  | some cells => if 0 ≤ pointer.offset then stringAt (cells.drop pointer.offset.toNat) else none

/-- The `count` bytes at `pointer`, all of them initialised. -/
def readBytes (heap : Heap) (pointer : Pointer) (count : Nat) : Option (List UInt8) :=
  (heap.read pointer count).bind (fun cells => cells.mapM id)

@[simp] theorem allocate_fst (heap : Heap) (cells : List Cell) :
    (heap.allocate cells).1 = ⟨heap.next, 0⟩ := rfl

@[simp] theorem allocate_next (heap : Heap) (cells : List Cell) :
    (heap.allocate cells).2.next = heap.next + 1 := rfl

theorem allocate_blocks (heap : Heap) (cells : List Cell) :
    (heap.allocate cells).2.blocks = Function.update heap.blocks heap.next (some cells) := rfl

@[simp] theorem allocate_blocks_self (heap : Heap) (cells : List Cell) :
    (heap.allocate cells).2.blocks heap.next = some cells :=
  Function.update_self _ _ _

theorem lt_next_of_live (heap : Heap) {block : Nat} {cells : List Cell}
    (live : heap.blocks block = some cells) : block < heap.next := by
  by_contra late
  rw [heap.fresh block (by omega)] at live
  cases live

/-- Reading a string needs only the block it is in. -/
theorem cString_congr {first second : Heap} {pointer : Pointer}
    (same : first.blocks pointer.block = second.blocks pointer.block) :
    first.cString pointer = second.cString pointer := by
  unfold cString
  rw [same]

theorem cString_of_block {heap : Heap} {block : Nat} {cells : List Cell}
    (live : heap.blocks block = some cells) (offset : Nat) :
    heap.cString ⟨block, offset⟩ = stringAt (cells.drop offset) := by
  unfold cString
  simp only [live, Int.natCast_nonneg, if_true, Int.toNat_natCast]

/-- A string was read from a live block, and the whole of it, terminator
included, lies inside. -/
theorem cString_eq_some {heap : Heap} {pointer : Pointer} {bytes : List UInt8}
    (read : heap.cString pointer = some bytes) :
    0 ≤ pointer.offset ∧ Exists fun cells => heap.blocks pointer.block = some cells ∧
      stringAt (cells.drop pointer.offset.toNat) = some bytes := by
  unfold cString at read
  cases live : heap.blocks pointer.block with
  | none => simp only [live, reduceCtorEq] at read
  | some cells =>
      simp only [live] at read
      by_cases inside : 0 ≤ pointer.offset
      · rw [if_pos inside] at read
        exact ⟨inside, cells, rfl, read⟩
      · rw [if_neg inside] at read
        cases read

theorem cString_nonzero {heap : Heap} {pointer : Pointer} {bytes : List UInt8}
    (read : heap.cString pointer = some bytes) : 0 ∉ bytes := by
  rcases cString_eq_some read with ⟨-, cells, -, inCells⟩
  exact (stringAt_eq_some inCells).1

/-! ## Copying -/

/-- The bytes of a string can be read together with its terminator. -/
theorem read_string {heap : Heap} {pointer : Pointer} {bytes : List UInt8}
    (string : heap.cString pointer = some bytes) :
    heap.read pointer (bytes.length + 1) = some (stringCells bytes) := by
  rcases cString_eq_some string with ⟨inside, cells, live, found⟩
  rcases stringAt_eq_some found with ⟨-, after, split⟩
  have lengths := congrArg List.length split
  rw [List.length_drop, List.length_append, stringCells_length] at lengths
  unfold read
  rw [live]
  dsimp only
  rw [if_pos ⟨inside, by omega⟩, split, List.take_left' (stringCells_length bytes)]

/-- A write that fits into the part of a block behind `done` replaces the start
of that part and nothing else. -/
theorem write_behind {heap : Heap} {block : Nat} {done rest : List Cell} {data : List Cell}
    (live : heap.blocks block = some (done ++ rest)) (room : data.length ≤ rest.length) :
    Exists fun after => heap.write ⟨block, done.length⟩ data = some after ∧
      after.blocks = Function.update heap.blocks block
        (some (done ++ data ++ rest.drop data.length)) := by
  have inside : (0 : Int) ≤ done.length ∧ (done.length : Int) + data.length ≤
      (done ++ rest).length := by
    rw [List.length_append]
    omega
  have content : (done ++ rest).take done.length ++ data ++ (done ++ rest).drop
      (done.length + data.length) =
      done ++ data ++ rest.drop data.length := by
    rw [List.take_left, ← List.drop_drop, List.drop_left]
  unfold write
  dsimp only
  split
  · next gone =>
      rw [live] at gone
      cases gone
  · next cells found =>
      have same : cells = done ++ rest := Option.some.inj (found.symm.trans live)
      subst same
      rw [if_pos inside]
      refine ⟨_, rfl, ?_⟩
      dsimp only
      rw [Int.toNat_natCast, content]

/-- A write that succeeds stays inside its block and keeps the block's size and
all other blocks. -/
theorem write_eq_some {heap after : Heap} {pointer : Pointer} {data : List Cell}
    (written : heap.write pointer data = some after) :
    Exists fun cells => Exists fun changed => heap.blocks pointer.block = some cells ∧
      0 ≤ pointer.offset ∧ pointer.offset + data.length ≤ cells.length ∧
      after.blocks = Function.update heap.blocks pointer.block (some changed) ∧
      changed.length = cells.length := by
  unfold write at written
  split at written
  · cases written
  · next cells found =>
      split_ifs at written with inside
      cases written
      refine ⟨cells, _, found, inside.1, inside.2, rfl, ?_⟩
      simp only [List.length_append, List.length_take, List.length_drop]
      omega

theorem free_eq {heap : Heap} {pointer : Pointer} {cells : List Cell} (start : pointer.offset = 0)
    (live : heap.blocks pointer.block = some cells) :
    Exists fun after => heap.free pointer = some after ∧
      after.blocks = Function.update heap.blocks pointer.block none := by
  have freeable : pointer.offset = 0 ∧ (heap.blocks pointer.block).isSome := by
    rw [live]
    exact ⟨start, rfl⟩
  unfold free
  rw [if_pos freeable]
  exact ⟨_, rfl, rfl⟩

theorem free_eq_some {heap after : Heap} {pointer : Pointer}
    (freed : heap.free pointer = some after) :
    after.blocks = Function.update heap.blocks pointer.block none := by
  unfold free at freed
  split_ifs at freed
  cases freed
  rfl

theorem write_next {heap after : Heap} {pointer : Pointer} {data : List Cell}
    (written : heap.write pointer data = some after) : after.next = heap.next := by
  unfold write at written
  split at written
  · cases written
  · split_ifs at written
    cases written
    rfl

theorem free_next {heap after : Heap} {pointer : Pointer} (freed : heap.free pointer = some after) :
    after.next = heap.next := by
  unfold free at freed
  split_ifs at freed
  cases freed
  rfl

/-- The cells at the start of a block are read back. -/
theorem read_start {heap : Heap} {block : Nat} {data rest : List Cell}
    (live : heap.blocks block = some (data ++ rest)) :
    heap.read ⟨block, 0⟩ data.length = some data := by
  unfold read
  rw [live]
  dsimp only
  rw [if_pos ⟨Int.le_refl 0, by rw [List.length_append]; omega⟩]
  exact congrArg some List.take_left

theorem mapM_id_map_some {A : Type u} (items : List A) : (items.map some).mapM id = some items := by
  induction items with
  | nil => rfl
  | cons first rest ih =>
      rw [List.map_cons, List.mapM_cons, ih]
      rfl

theorem readBytes_block {heap : Heap} {block : Nat} {bytes : List UInt8}
    (live : heap.blocks block = some (bytes.map some)) :
    heap.readBytes ⟨block, 0⟩ bytes.length = some bytes := by
  have start := @read_start heap block (bytes.map some) [] (by rw [List.append_nil]; exact live)
  rw [List.length_map] at start
  unfold readBytes
  rw [start, Option.bind_some, mapM_id_map_some]

theorem read_length {heap : Heap} {pointer : Pointer} {count : Nat} {cells : List Cell}
    (read : heap.read pointer count = some cells) : cells.length = count := by
  unfold Heap.read at read
  split at read
  · cases read
  · split_ifs at read with inside
    cases read
    rw [List.length_take, List.length_drop]
    omega

end Heap

end Library
end Johnny
