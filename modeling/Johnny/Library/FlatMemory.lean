import Mathlib.Data.List.Basic
import Mathlib.Data.List.TakeWhile

namespace Johnny
namespace Library

/-!
# Flat memory

Memory addressed by integers, with the accesses that C code makes through a
pointer: reading and writing a stretch, searching it for a byte, and reading
up to a terminator.  The lemmas relate each of them to the list of bytes that
stands in the stretch.
-/

universe u

variable {B : Type u}

/-- Memory after `bytes` were written from `position` on. -/
def writeBytes (memory : Int -> B) (position : Int) (bytes : List B) : Int -> B :=
  fun address =>
    if position ≤ address then (bytes[(address - position).toNat]?).getD (memory address)
    else memory address

/-- The `count` bytes from `position` on. -/
def readBytes (memory : Int -> B) : Int -> Nat -> List B
  | _, 0 => []
  | position, count + 1 => memory position :: readBytes memory (position + 1) count

/-- The first position of a byte among the `count` from `position` on. -/
def memchr [DecidableEq B] (memory : Int -> B) (byte : B) : Int -> Nat -> Option Int
  | _, 0 => none
  | position, count + 1 =>
      if memory position = byte then some position else memchr memory byte (position + 1) count

/-- The bytes from `position` on up to a terminator, at most `count` of them. -/
def bytesUntil [DecidableEq B] (memory : Int -> B) (stop : B) : Int -> Nat -> List B
  | _, 0 => []
  | position, count + 1 =>
      if memory position = stop then []
      else memory position :: bytesUntil memory stop (position + 1) count

@[simp] theorem readBytes_zero (memory : Int -> B) (position : Int) :
    readBytes memory position 0 = [] := rfl

theorem readBytes_succ (memory : Int -> B) (position : Int) (count : Nat) :
    readBytes memory position (count + 1) =
      memory position :: readBytes memory (position + 1) count := rfl

@[simp] theorem readBytes_length (memory : Int -> B) (position : Int) (count : Nat) :
    (readBytes memory position count).length = count := by
  induction count generalizing position with
  | zero => rfl
  | succ count ih => rw [readBytes_succ, List.length_cons, ih]

theorem readBytes_add (memory : Int -> B) (position : Int) (first second : Nat) :
    readBytes memory position (first + second) =
      readBytes memory position first ++ readBytes memory (position + first) second := by
  induction first generalizing position with
  | zero => simp
  | succ first ih =>
      have shifted : position + 1 + (first : Int) = position + ((first + 1 : Nat) : Int) := by omega
      rw [Nat.succ_add, readBytes_succ, readBytes_succ, List.cons_append, ih, shifted]

theorem getElem_readBytes (memory : Int -> B) (position : Int) (count i : Nat)
    (bound : i < (readBytes memory position count).length) :
    (readBytes memory position count)[i] = memory (position + i) := by
  induction count generalizing position i with
  | zero => simp at bound
  | succ count ih =>
      cases i with
      | zero => simp [readBytes_succ]
      | succ i =>
          have shifted : position + 1 + (i : Int) = position + ((i + 1 : Nat) : Int) := by omega
          simp only [readBytes_succ, List.getElem_cons_succ, ih, shifted]

theorem take_readBytes (memory : Int -> B) (position : Int) (count first : Nat) :
    (readBytes memory position count).take first = readBytes memory position (min first count) := by
  have split : count = min first count + (count - min first count) := by omega
  conv => lhs; rw [split, readBytes_add]
  rcases Nat.le_total first count with short | long
  · rw [Nat.min_eq_left short]
    exact List.take_left' (readBytes_length _ _ _)
  · rw [Nat.min_eq_right long, Nat.sub_self, readBytes_zero, List.append_nil]
    apply List.take_of_length_le
    rw [readBytes_length]
    exact long

/-- Reading depends only on the stretch that is read. -/
theorem readBytes_congr {first second : Int -> B} {position : Int} {count : Nat}
    (same : forall address, position ≤ address -> address < position + count ->
      first address = second address) :
    readBytes first position count = readBytes second position count := by
  induction count generalizing position with
  | zero => rfl
  | succ count ih =>
      have here := same position (Int.le_refl _) (by omega)
      have rest : readBytes first (position + 1) count = readBytes second (position + 1) count :=
        ih (fun address lower upper => same address (by omega) (by omega))
      rw [readBytes_succ, readBytes_succ, here, rest]

theorem writeBytes_below (memory : Int -> B) {position : Int} (bytes : List B) {address : Int}
    (below : address < position) : writeBytes memory position bytes address = memory address := by
  unfold writeBytes
  rw [if_neg (by omega)]

theorem writeBytes_above (memory : Int -> B) {position : Int} {bytes : List B} {address : Int}
    (above : position + bytes.length ≤ address) :
    writeBytes memory position bytes address = memory address := by
  unfold writeBytes
  by_cases lower : position ≤ address
  · rw [if_pos lower, List.getElem?_eq_none (by omega)]
    rfl
  · rw [if_neg lower]

theorem writeBytes_inside (memory : Int -> B) (position : Int) (bytes : List B) (i : Nat)
    (inside : i < bytes.length) :
    writeBytes memory position bytes (position + i) = bytes[i] := by
  unfold writeBytes
  have index : (position + (i : Int) - position).toNat = i := by omega
  rw [if_pos (by omega), index, List.getElem?_eq_getElem inside]
  rfl

/-- Addresses may be counted from any base. -/
theorem writeBytes_shift (memory : Int -> B) (base position : Int) (bytes : List B)
    (address : Int) : writeBytes memory (base + position) bytes (base + address) =
      writeBytes (fun offset => memory (base + offset)) position bytes address := by
  unfold writeBytes
  have distance : base + address - (base + position) = address - position := by omega
  rw [distance]
  by_cases lower : position ≤ address
  · rw [if_pos lower, if_pos (by omega)]
  · rw [if_neg lower, if_neg (by omega)]

/-- A write changes both of two memories in the same way. -/
theorem writeBytes_congr {first second : Int -> B} {address : Int}
    (same : first address = second address) (position : Int) (bytes : List B) :
    writeBytes first position bytes address = writeBytes second position bytes address := by
  unfold writeBytes
  rw [same]

/-- What was written is read back. -/
theorem readBytes_writeBytes (memory : Int -> B) (position : Int) (bytes : List B) :
    readBytes (writeBytes memory position bytes) position bytes.length = bytes := by
  apply List.ext_getElem (by simp)
  intro i _ inside
  rw [getElem_readBytes, writeBytes_inside memory position bytes i inside]

theorem memchr_eq_none [DecidableEq B] {memory : Int -> B} {byte : B} {position : Int} {count : Nat}
    (absent : memchr memory byte position count = none) :
      byte ∉ readBytes memory position count := by
  induction count generalizing position with
  | zero => exact List.not_mem_nil
  | succ count ih =>
      by_cases here : memory position = byte
      · rw [memchr, if_pos here] at absent
        cases absent
      · rw [memchr, if_neg here] at absent
        intro member
        rcases List.mem_cons.mp member with equal | later
        · exact here equal.symm
        · exact ih absent later

theorem memchr_eq_some [DecidableEq B] {memory : Int -> B} {byte : B} {position found : Int}
    {count : Nat} (present : memchr memory byte position count = some found) :
    Exists fun before : Nat => found = position + before ∧ before < count ∧
      memory found = byte ∧ byte ∉ readBytes memory position before := by
  induction count generalizing position with
  | zero => cases present
  | succ count ih =>
      by_cases here : memory position = byte
      · rw [memchr, if_pos here] at present
        cases present
        exact ⟨0, by omega, by omega, here, List.not_mem_nil⟩
      · rw [memchr, if_neg here] at present
        rcases ih present with ⟨before, place, bound, holds, absent⟩
        refine ⟨before + 1, by omega, by omega, holds, ?_⟩
        intro member
        rcases List.mem_cons.mp member with equal | later
        · exact here equal.symm
        · exact absent later

/-- Searching depends only on the stretch that is searched. -/
theorem memchr_congr [DecidableEq B] {first second : Int -> B} {position : Int} {count : Nat}
    (same : forall address, position ≤ address -> address < position + count ->
      first address = second address) (byte : B) :
    memchr first byte position count = memchr second byte position count := by
  induction count generalizing position with
  | zero => rfl
  | succ count ih =>
      have here := same position (Int.le_refl _) (by omega)
      have rest : memchr first byte (position + 1) count =
          memchr second byte (position + 1) count :=
        ih (fun address lower upper => same address (by omega) (by omega))
      rw [memchr, memchr, here, rest]

/-- Reading up to a terminator yields the bytes before the first one. -/
theorem bytesUntil_eq [DecidableEq B] (memory : Int -> B) (stop : B) (position : Int)
    (before count : Nat) (enough : before < count)
    (terminated : memory (position + before) = stop) : bytesUntil memory stop position count =
      (readBytes memory position before).takeWhile (fun byte => decide (byte ≠ stop)) := by
  induction count generalizing position before with
  | zero => omega
  | succ count ih =>
      by_cases here : memory position = stop
      · rw [bytesUntil, if_pos here]
        cases before with
        | zero => rfl
        | succ before => simp [readBytes_succ, here]
      · cases before with
        | zero =>
            rw [Int.natCast_zero, Int.add_zero] at terminated
            exact False.elim (here terminated)
        | succ before =>
            have shifted : position + 1 + (before : Int) = position +
                ((before + 1 : Nat) : Int) := by
              omega
            have later := ih (position + 1) before (by omega) (by rw [shifted]; exact terminated)
            rw [bytesUntil, if_neg here, later, readBytes_succ,
              List.takeWhile_cons_of_pos (by simpa using here)]

end Library
end Johnny
