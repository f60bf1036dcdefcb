import Johnny.Library.Memory

namespace Johnny

open Library

/-!
# Shared data of the server

The constants of `johnny_config.h` and the types of `johnny_global.h`.  The
target is x86-64 Linux: `long` has 64 bits, `int` 32 and `short` 16.

The file table and the perfect hash are built once, before the workers start,
and are only read afterwards.  Everything else belongs to one worker thread.
-/

/-- The bytes of a `char` array. -/
abbrev Bytes := List UInt8

/-- The ASCII bytes of a string literal. -/
def ascii (text : String) : Bytes :=
  text.toList.map (fun character => UInt8.ofNat character.toNat)

def johnnyStackConnections : Nat := 1024

def johnnyBufferSize : Nat := 1024

/-- `sizeof(long) * 8`. -/
def johnnyBitsPerLong : Nat := 64

def johnnyConBitmapLen : Nat := johnnyStackConnections / johnnyBitsPerLong

/-- The bit of `flags` that `johnny_works` tests before it closes a half-closed
connection. -/
def johnnyCtxRdhup : BitVec 16 := 4

@[simp] theorem johnnyStackConnections_eq : johnnyStackConnections = 1024 := rfl

@[simp] theorem johnnyBufferSize_eq : johnnyBufferSize = 1024 := rfl

@[simp] theorem johnnyBitsPerLong_eq : johnnyBitsPerLong = 64 := rfl

@[simp] theorem johnnyConBitmapLen_eq : johnnyConBitmapLen = 16 := rfl

/-- A served file.  The block behind `response` is never written once
`johnny_slurps_file` has filled it, so its bytes stand for the pointer. -/
structure JohnnyFile where
  urlEncodedFileName : Pointer
  response : Bytes
  responseLength : Nat
  deriving DecidableEq

/-- What the workers read: the table `JOHNNY_FILES` of `johnny_file_count`
entries, the hash `JOHNNY_HASH` as the index `cmph_search` computes from it, and
the memory with the file names.  From `johnnyFileCount` on, `johnnyFiles` is
whatever stands behind the array: the workers do not test an index. -/
structure Globals where
  johnnyFiles : Nat -> JohnnyFile
  johnnyFileCount : Nat
  cmphSearch : Bytes -> Nat
  heap : Heap

/-- The length of every entry is that of its response. -/
def Globals.Sized (globals : Globals) : Prop :=
  forall index, index < globals.johnnyFileCount ->
    (globals.johnnyFiles index).responseLength = (globals.johnnyFiles index).response.length

/-- A pointer into the bytes of a response. -/
structure ResponsePointer where
  object : Bytes
  offset : Nat
  deriving DecidableEq

/-- The `count` bytes from the pointer on.  There are fewer if the response ends
before, where the program would read on. -/
def ResponsePointer.read (pointer : ResponsePointer) (count : Nat) : Bytes :=
  (pointer.object.drop pointer.offset).take count

/-- Advancing a pointer drops what it is moved over. -/
theorem ResponsePointer.read_advance (pointer : ResponsePointer) (count length : Nat) :
    ResponsePointer.read { pointer with offset := pointer.offset + count } (length - count) =
      (pointer.read length).drop count := by
  unfold ResponsePointer.read
  rw [List.drop_take, List.drop_drop]

/-- What a connection that found no slot keeps outside its context. -/
structure HeapConnectionContextExtension where
  responseLength : Nat
  buffer : Int -> UInt8

/-- The anonymous union at the end of `connection_context`.  The extension is
owned by its context and stands here for the pointer to it. -/
inductive LengthOrExtension
  | responseLength (length : Nat)
  | extension (extension : HeapConnectionContextExtension)

/-- `connection_context`.  The `short` fields are integers: `buffer_size` holds
what `recv` returned, at most the buffer size and possibly `-1`. -/
structure ConnectionContext where
  flags : BitVec 16
  prefixCounter : Int
  bufferOffset : Int
  bufferSize : Int
  index : Nat
  fd : Int
  response : ResponsePointer
  tail : LengthOrExtension

/-- A context of the zero-initialised array `con_ctx`. -/
def ConnectionContext.zero : ConnectionContext where
  flags := 0
  prefixCounter := 0
  bufferOffset := 0
  bufferSize := 0
  index := 0
  fd := 0
  response := ⟨[], 0⟩
  tail := .responseLength 0

/-- `connection_context*`: an element of `con_ctx` or a context of its own from
`malloc`. -/
inductive ContextPointer
  | stack (slot : Nat)
  | heap (address : Nat)
  deriving DecidableEq, Repr

end Johnny
