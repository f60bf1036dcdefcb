import Johnny.Library.Delimited

namespace Johnny
namespace Library

/-!
# Reading back what was written

A reader takes its value from the front of a stream.  It reads back what a
writer wrote if it gives the value and leaves what follows, whatever that is.
Readers for parts in a row make a reader for the whole.

Words of 32 bits are written byte by byte, the lowest byte first.
-/

universe u v w

section

variable {S : Type u} {A B : Type u}

/-- The reader gives the value for what was written, whatever follows. -/
def Reads (read : StateT (List S) Option A) (written : List S) (value : A) : Prop :=
  forall rest, read (written ++ rest) = some (value, rest)

/-- One part after the other. -/
theorem Reads.bind {read : StateT (List S) Option A} {next : A -> StateT (List S) Option B}
    {first second : List S} {value : A} {result : B} (reads : Reads read first value)
    (later : Reads (next value) second result) :
    Reads (read >>= next) (first ++ second) result := by
  intro rest
  change (read (first ++ second ++ rest)).bind (fun found => next found.1 found.2) =
    some (result, rest)
  rw [List.append_assoc, reads, Option.bind_some]
  exact later rest

theorem Reads.map {read : StateT (List S) Option A} {written : List S} {value : A}
    (reads : Reads read written value)
    (f : A -> B) : Reads (do let found <- read; Pure.pure (f found)) written (f value) := by
  intro rest
  change (read (written ++ rest)).bind (fun found => some (f found.1, found.2)) =
    some (f value, rest)
  rw [reads, Option.bind_some]

/-- A value that is there without reading. -/
theorem Reads.lift {found : Option A} {value : A} (present : found = some value) :
    Reads (S := S) (StateT.lift found) [] value := by
  intro rest
  rw [present]
  rfl

/-- A number of symbols, if there are as many. -/
def readSymbols (count : Nat) : StateT (List S) Option (List S) :=
  fun stream => if count ≤ stream.length then some (stream.take count, stream.drop count) else none

theorem reads_symbols {text : List S} {count : Nat} (length : text.length = count) :
    Reads (readSymbols count) text text := by
  intro rest
  unfold readSymbols
  rw [if_pos (by simp [length]), List.take_left' length, List.drop_left' length]

theorem mapM_eq_some {write : A -> Option B} {written : A -> B} {values : List A}
    (writes : forall value, value ∈ values -> write value = some (written value)) :
    values.mapM write = some (values.map written) := by
  induction values with
  | nil => rfl
  | cons value rest ih =>
      rw [List.mapM_cons, writes value List.mem_cons_self,
        ih (fun other member => writes other (List.mem_cons_of_mem _ member))]
      rfl

/-- Values written one after the other are read one after the other. -/
theorem Reads.readAll {read : StateT (List S) Option A} {write : B -> List S} {value : B -> A}
    {records : List B}
    (reads : forall record, record ∈ records -> Reads read (write record) (value record))
    (nonempty : forall record, record ∈ records -> write record ≠ []) :
    Library.readAll read (records.flatMap write) = some (records.map value) :=
  readAll_flatMap nonempty reads

end

/-! ## Words -/

/-- The bytes of a word, the lowest first. -/
def wordBytes (word : BitVec 32) : List UInt8 :=
  [word.toNat, word.toNat / 256, word.toNat / 65536, word.toNat / 16777216].map UInt8.ofNat

def bytesWord (bytes : List UInt8) : BitVec 32 :=
  BitVec.ofNat 32 (bytes.foldr (fun byte high => byte.toNat + 256 * high) 0)

@[simp] theorem wordBytes_length (word : BitVec 32) : (wordBytes word).length = 4 := rfl

@[simp] theorem bytesWord_wordBytes (word : BitVec 32) : bytesWord (wordBytes word) = word := by
  apply BitVec.eq_of_toNat_eq
  have bound := word.isLt
  simp only [bytesWord, wordBytes, List.map_cons, List.map_nil, List.foldr_cons, List.foldr_nil,
    BitVec.toNat_ofNat, UInt8.toNat_ofNat']
  omega

/-- The bytes of a table of words. -/
def tableBytes (table : List (BitVec 32)) : List UInt8 :=
  table.flatMap wordBytes

/-- The whole words among some bytes. -/
def bytesTable : List UInt8 -> List (BitVec 32)
  | first :: second :: third :: fourth :: rest =>
      bytesWord [first, second, third, fourth] :: bytesTable rest
  | _ => []

theorem tableBytes_length (table : List (BitVec 32)) :
    (tableBytes table).length = 4 * table.length := by
  induction table with
  | nil => rfl
  | cons word rest ih =>
      have step : tableBytes (word :: rest) = wordBytes word ++ tableBytes rest := rfl
      rw [step, List.length_append, ih, wordBytes_length, List.length_cons]
      omega

theorem bytesTable_tableBytes (table : List (BitVec 32)) :
    bytesTable (tableBytes table) = table := by
  induction table with
  | nil => rfl
  | cons word rest ih =>
      have step : bytesTable (tableBytes (word :: rest)) =
          bytesWord (wordBytes word) :: bytesTable (tableBytes rest) :=
        rfl
      rw [step, bytesWord_wordBytes, ih]

end Library
end Johnny
