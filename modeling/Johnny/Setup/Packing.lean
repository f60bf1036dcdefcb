import Johnny.Global
import Johnny.Library.Scatter
import Mathlib.Data.Int.Bitwise

namespace Johnny
namespace Setup

open Library

/-!
# Packing the file names into one block

`johnny_setup_files` adds up the lengths of the file names, allocates one block
for all of them, and copies them into it one after another.  Lengths and
offsets are kept in variables of type `int`, which has 32 bits.

The files arrive from `johnny_slurps_files` with each name in a block of its
own.  A served file is what such an entry stands for.
-/

/-- A file as a client sees it: its key in the URL and its response. -/
structure ServedFile where
  key : Bytes
  response : Bytes
  responseLength : Nat
  deriving DecidableEq

/-- An entry of the file table stands for a served file. -/
structure Holds (heap : Heap) (file : JohnnyFile) (served : ServedFile) : Prop where
  key : heap.cString file.urlEncodedFileName = some served.key
  response : file.response = served.response
  responseLength : file.responseLength = served.responseLength

/-- Entries as `johnny_slurps_files` leaves them: each name is at the start of
a block that no other entry uses. -/
structure Slurped (heap : Heap) (files : List JohnnyFile) (served : List ServedFile) : Prop where
  holds : List.Forall₂ (Holds heap) files served
  starts : forall file, file ∈ files -> file.urlEncodedFileName.offset = 0
  apart : files.Pairwise (fun first second =>
    first.urlEncodedFileName.block ≠ second.urlEncodedFileName.block)

/-- What a value becomes when it is stored in an `int`. -/
def asInt (value : Int) : Int :=
  value.bmod (2 ^ 32)

/-- What an `int` becomes as an argument of type `size_t`. -/
def asSize (value : Int) : Nat :=
  (value % 2 ^ 64).toNat

/-- The loop that computes `total_strings_length`. -/
def addsStringLengths (heap : Heap) : List JohnnyFile -> Int -> Option Int
  | [], totalStringsLength => some totalStringsLength
  | file :: rest, totalStringsLength =>
      (heap.cString file.urlEncodedFileName).bind (fun fileName =>
        addsStringLengths heap rest (asInt (totalStringsLength + (fileName.length + 1))))

/-- One round of the packing loop: copy the name, free its block, and let the
entry point to the copy. -/
def packsFileName (block : Pointer) (file : JohnnyFile) (stringOffset : Int) (heap : Heap) :
    Option (JohnnyFile × Int × Heap) :=
  (heap.cString file.urlEncodedFileName).bind (fun fileName =>
    let inclusiveStringLength := asInt (fileName.length + 1)
    let target := block.add stringOffset
    (heap.memcpy target file.urlEncodedFileName (asSize inclusiveStringLength)).bind (fun copied =>
      (copied.free file.urlEncodedFileName).map (fun freed =>
        ({ file with urlEncodedFileName := target }, asInt (stringOffset + inclusiveStringLength),
          freed))))

def packsFileNames (block : Pointer) :
    List JohnnyFile -> Int -> Heap -> Option (List JohnnyFile × Heap)
  | [], _, heap => some ([], heap)
  | file :: rest, stringOffset, heap =>
      (packsFileName block file stringOffset heap).bind (fun packed =>
        (packsFileNames block rest packed.2.1 packed.2.2).map (fun later =>
          (packed.1 :: later.1, later.2)))

/-- The packing part of `johnny_setup_files`. -/
def packsAllFileNames (heap : Heap) (files : List JohnnyFile) : Option (List JohnnyFile × Heap) :=
  (addsStringLengths heap files 0).bind (fun totalStringsLength =>
    (heap.malloc (asSize totalStringsLength)).bind (fun allocated =>
      packsFileNames allocated.1 files 0 allocated.2))

/-- The bytes that all names take, terminators included. -/
def stringsLength (served : List ServedFile) : Nat :=
  (served.map (fun file => file.key.length + 1)).sum

@[simp] theorem stringsLength_nil : stringsLength [] = 0 := rfl

@[simp] theorem stringsLength_cons (file : ServedFile) (rest : List ServedFile) :
    stringsLength (file :: rest) = file.key.length + 1 + stringsLength rest := rfl

theorem asInt_of_small {value : Int} (nonneg : 0 ≤ value) (small : value < 2 ^ 31) :
    asInt value = value := by
  unfold asInt
  apply Int.bmod_eq_of_le <;> omega

theorem asInt_lt (value : Int) : asInt value < 2 ^ 31 := by
  have bound := @Int.bmod_lt value (2 ^ 32) (by decide)
  unfold asInt
  omega

theorem asSize_of_nonneg {value : Int} (nonneg : 0 ≤ value) (small : value < 2 ^ 31) :
    (asSize value : Int) = value := by
  unfold asSize
  rw [Int.emod_eq_of_lt nonneg (by omega), Int.toNat_of_nonneg nonneg]

/-- A short string's length, terminator included, survives both conversions. -/
theorem asInt_length {length : Nat} (small : length + 1 < 2 ^ 31) :
    asInt ((length : Int) + 1) = (length : Int) + 1 := by
  apply asInt_of_small <;> omega

theorem asSize_length {length : Nat} (small : length + 1 < 2 ^ 31) :
    asSize ((length : Int) + 1) = length + 1 := by
  have equal := @asSize_of_nonneg ((length : Int) + 1) (by omega) (by omega)
  omega

/-- A negative `int` is too large a size. -/
theorem asSize_of_neg {value : Int} (negative : value < 0) (lower : -(2 ^ 31) ≤ value) :
    Heap.mallocLimit ≤ asSize value := by
  unfold asSize Heap.mallocLimit
  omega

/-! ## Names that fit -/

theorem Slurped.tail {heap : Heap} {file : JohnnyFile} {files : List JohnnyFile}
    {first : ServedFile} {served : List ServedFile}
    (slurped : Slurped heap (file :: files) (first :: served)) :
    Slurped heap files served where
  holds := (List.forall₂_cons.mp slurped.holds).2
  starts := fun other member => slurped.starts other (List.mem_cons_of_mem _ member)
  apart := (List.pairwise_cons.mp slurped.apart).2

/-- The block of a name that can be read is live. -/
theorem holds_live {heap : Heap} {files : List JohnnyFile} {served : List ServedFile}
    (holds : List.Forall₂ (Holds heap) files served) {file : JohnnyFile} (member : file ∈ files) :
    Exists fun cells => heap.blocks file.urlEncodedFileName.block = some cells := by
  rcases exists_partner holds member with ⟨own, -, held⟩
  rcases Heap.cString_eq_some held.key with ⟨-, cells, live, -⟩
  exact ⟨cells, live⟩

theorem holds_congr {heap after : Heap} {files : List JohnnyFile} {served : List ServedFile}
    (holds : List.Forall₂ (Holds heap) files served)
    (same : forall file, file ∈ files ->
      after.blocks file.urlEncodedFileName.block = heap.blocks file.urlEncodedFileName.block) :
    List.Forall₂ (Holds after) files served := by
  induction holds with
  | nil => exact List.Forall₂.nil
  | cons first rest ih =>
      refine List.Forall₂.cons ?_
        (ih (fun file member => same file (List.mem_cons_of_mem _ member)))
      have key := (Heap.cString_congr (same _ List.mem_cons_self)).trans first.key
      exact ⟨key, first.response, first.responseLength⟩

/-- Entries depend on the blocks of their own names only. -/
theorem Slurped.congr {heap after : Heap} {files : List JohnnyFile} {served : List ServedFile}
    (slurped : Slurped heap files served)
    (same : forall file, file ∈ files ->
      after.blocks file.urlEncodedFileName.block = heap.blocks file.urlEncodedFileName.block) :
    Slurped after files served :=
  ⟨holds_congr slurped.holds same, slurped.starts, slurped.apart⟩

/-- A new block is none of the blocks of names. -/
theorem Slurped.block_lt {heap : Heap} {files : List JohnnyFile} {served : List ServedFile}
    (slurped : Slurped heap files served) {file : JohnnyFile} (member : file ∈ files) :
    file.urlEncodedFileName.block < heap.next := by
  rcases holds_live slurped.holds member with ⟨cells, live⟩
  exact heap.lt_next_of_live live

theorem Slurped.allocate {heap : Heap} {files : List JohnnyFile} {served : List ServedFile}
    (slurped : Slurped heap files served) (cells : List Cell) :
    Slurped (heap.allocate cells).2 files served := by
  apply slurped.congr
  intro file member
  rw [Heap.allocate_blocks, Function.update_of_ne (Nat.ne_of_lt (slurped.block_lt member))]

theorem addsStringLengths_eq {heap : Heap} {files : List JohnnyFile} {served : List ServedFile}
    (holds : List.Forall₂ (Holds heap) files served) (total : Nat)
    (small : total + stringsLength served < 2 ^ 31) :
    addsStringLengths heap files total = some ((total + stringsLength served : Nat) : Int) := by
  induction holds generalizing total with
  | nil => rfl
  | @cons file first files rest held _ ih =>
      rw [stringsLength_cons] at small ⊢
      have sum : asInt ((total : Int) + (first.key.length + 1)) =
          ((total + (first.key.length + 1) : Nat) : Int) := by
        apply asInt_of_small <;> omega
      rw [addsStringLengths, held.key, Option.bind_some, sum, ih _ (by omega), Nat.add_assoc]

/-- Where the names stand in the block, from an offset on. -/
def relocate (block : Nat) : Nat -> List JohnnyFile -> List ServedFile -> List JohnnyFile
  | offset, file :: files, served :: rest =>
      { file with urlEncodedFileName := ⟨block, offset⟩ } ::
        relocate block (offset + (served.key.length + 1)) files rest
  | _, _, _ => []

/-- A name that fits behind the names packed so far is moved there. -/
theorem packsFileName_eq {heap : Heap} {file : JohnnyFile} {served : ServedFile} {block : Nat}
    {done rest : List Cell} (holds : Holds heap file served)
    (start : file.urlEncodedFileName.offset = 0) (other : file.urlEncodedFileName.block ≠ block)
    (live : heap.blocks block = some (done ++ rest))
    (room : served.key.length + 1 ≤ rest.length) (small : (done ++ rest).length < 2 ^ 31) :
    Exists fun freed =>
      packsFileName ⟨block, 0⟩ file done.length heap =
        some ({ file with urlEncodedFileName := ⟨block, done.length⟩ },
          ((done ++ stringCells served.key).length : Int), freed) ∧
      freed.blocks block = some
        (done ++ stringCells served.key ++ rest.drop (served.key.length + 1)) ∧
      forall later, later ≠ block -> later ≠ file.urlEncodedFileName.block ->
        freed.blocks later = heap.blocks later := by
  have sizes := small
  rw [List.length_append] at sizes
  have inclusive := @asInt_length served.key.length (by omega)
  have size := @asSize_length served.key.length (by omega)
  have next : asInt ((done.length : Int) + (served.key.length + 1)) =
      (done ++ stringCells served.key).length := by
    rw [List.length_append, stringCells_length]
    apply asInt_of_small <;> omega
  have target : Pointer.add ⟨block, 0⟩ done.length = ⟨block, done.length⟩ := by
    unfold Pointer.add
    rw [Int.zero_add]
  rcases Heap.write_behind live (by rw [stringCells_length]; exact room :
    (stringCells served.key).length ≤
    rest.length) with ⟨copied, written, blocks⟩
  rw [stringCells_length] at blocks
  -- The name's own block was not written, so it can be given back.
  have untouched : copied.blocks file.urlEncodedFileName.block =
      heap.blocks file.urlEncodedFileName.block := by
    rw [blocks, Function.update_of_ne other]
  rcases Heap.cString_eq_some holds.key with ⟨-, cells, own, -⟩
  rcases Heap.free_eq start (untouched.trans own) with ⟨freed, free, freedBlocks⟩
  refine ⟨freed, ?_, ?_, ?_⟩
  · unfold packsFileName Heap.memcpy
    rw [holds.key, Option.bind_some]
    dsimp only
    rw [inclusive, size, target, Heap.read_string holds.key, Option.bind_some, written,
      Option.bind_some, free, next]
    rfl
  · rw [freedBlocks, Function.update_of_ne (Ne.symm other), blocks, Function.update_self]
  · intro later notBlock notOwn
    rw [freedBlocks, Function.update_of_ne notOwn, blocks, Function.update_of_ne notBlock]

/-- Names that fit are packed without gaps.  The induction is on the files that
are left; `done` are the cells of the block written so far. -/
theorem packsFileNames_eq {heap : Heap} {files : List JohnnyFile} {served : List ServedFile}
    {block : Nat} {done rest : List Cell} (slurped : Slurped heap files served)
    (other : forall file, file ∈ files -> file.urlEncodedFileName.block ≠ block)
    (live : heap.blocks block = some (done ++ rest)) (room : stringsLength served ≤ rest.length)
    (small : (done ++ rest).length < 2 ^ 31) :
    Exists fun after =>
      packsFileNames ⟨block, 0⟩ files done.length heap =
        some (relocate block done.length files served, after) ∧
      after.blocks block =
        some (done ++ served.flatMap (fun file => stringCells file.key) ++
          rest.drop (stringsLength served)) := by
  induction files generalizing heap served done rest with
  | nil =>
      cases slurped.holds
      refine ⟨heap, rfl, ?_⟩
      rw [live, List.flatMap_nil, List.append_nil]
      rfl
  | cons file files ih =>
      rcases served with - | ⟨first, served⟩
      · cases slurped.holds
      · rw [stringsLength_cons] at room ⊢
        rcases packsFileName_eq (List.forall₂_cons.mp slurped.holds).1
          (slurped.starts file List.mem_cons_self) (other file List.mem_cons_self) live
            (by omega) small with
          ⟨freed, packed, blocks, same⟩
        have apart := (List.pairwise_cons.mp slurped.apart).1
        have later : Slurped freed files served := by
          apply slurped.tail.congr
          intro next member
          exact same _ (other next (List.mem_cons_of_mem _ member)) (Ne.symm (apart next member))
        have sizes : (done ++ stringCells first.key ++ rest.drop (first.key.length + 1)).length =
            (done ++ rest).length := by
          simp only [List.length_append, stringCells_length, List.length_drop]
          omega
        rcases ih later (fun next member => other next (List.mem_cons_of_mem _ member)) blocks
          (by rw [List.length_drop]; omega) (by rw [sizes]; exact small)
            with ⟨after, restPacked, content⟩
        refine ⟨after, ?_, ?_⟩
        · rw [packsFileNames, packed, Option.bind_some, restPacked]
          rw [List.length_append, stringCells_length]
          rfl
        · rw [content, List.flatMap_cons, List.drop_drop]
          simp only [List.append_assoc]

/-- Each entry is read back from its place in the block. -/
theorem relocate_holds {heap after : Heap} {files : List JohnnyFile} {served : List ServedFile}
    {block : Nat} {done rest : List Cell} (holds : List.Forall₂ (Holds heap) files served)
    (content : after.blocks block =
      some (done ++ served.flatMap (fun file => stringCells file.key) ++ rest)) :
    List.Forall₂ (Holds after) (relocate block done.length files served) served := by
  induction holds generalizing done with
  | nil => exact List.Forall₂.nil
  | @cons file first files served held _ ih =>
      rw [List.flatMap_cons, ← List.append_assoc] at content
      have sizes : done.length + (first.key.length + 1) =
          (done ++ stringCells first.key).length := by
        rw [List.length_append, stringCells_length]
      refine List.Forall₂.cons ?_ ?_
      · refine ⟨?_, held.response, held.responseLength⟩
        dsimp only
        rw [Heap.cString_of_block content, List.append_assoc, List.append_assoc, List.drop_left]
        exact stringAt_stringCells _ (Heap.cString_nonzero held.key) _
      · rw [sizes]
        exact ih content

/-- When the lengths add up to an `int`, packing keeps every file. -/
theorem packsAllFileNames_of_small {heap : Heap} {files : List JohnnyFile}
    {served : List ServedFile} (slurped : Slurped heap files served)
    (small : stringsLength served < 2 ^ 31) :
    Exists fun packed => packsAllFileNames heap files = some packed ∧
      List.Forall₂ (Holds packed.2) packed.1 served := by
  have total := addsStringLengths_eq slurped.holds 0 (by omega)
  rw [Nat.zero_add] at total
  have size : asSize (stringsLength served : Int) = stringsLength served := by
    have equal := @asSize_of_nonneg (stringsLength served : Int) (by omega) (by omega)
    omega
  have limit : stringsLength served < Heap.mallocLimit := by
    unfold Heap.mallocLimit
    omega
  have fresh := slurped.allocate (List.replicate (stringsLength served) none)
  have other : forall file, file ∈ files -> file.urlEncodedFileName.block ≠ heap.next :=
    fun file member => Nat.ne_of_lt (slurped.block_lt member)
  have block := heap.allocate_blocks_self (List.replicate (stringsLength served) none)
  rcases @packsFileNames_eq _ files served heap.next [] _ fresh other block
    (by rw [List.length_replicate])
      (by rw [List.nil_append, List.length_replicate]; exact small) with
    ⟨after, packed, content⟩
  refine ⟨(relocate heap.next 0 files served, after), ?_, relocate_holds slurped.holds content⟩
  unfold packsAllFileNames Heap.malloc
  have start : addsStringLengths heap files 0 = some (stringsLength served : Int) := total
  rw [start, Option.bind_some, size, if_pos limit, Option.bind_some]
  exact packed

/-! ## Names that do not fit -/

theorem asInt_ge (value : Int) : -(2 ^ 31) ≤ asInt value := by
  have bound := @Int.le_bmod value (2 ^ 32) (by decide)
  unfold asInt
  omega

theorem addsStringLengths_range {heap : Heap} {files : List JohnnyFile} {before total : Int}
    (added : addsStringLengths heap files before = some total) (lower : -(2 ^ 31) ≤ before)
    (upper : before < 2 ^ 31) : -(2 ^ 31) ≤ total ∧ total < 2 ^ 31 := by
  induction files generalizing before with
  | nil =>
      cases added
      exact ⟨lower, upper⟩
  | cons file files ih =>
      rcases Option.bind_eq_some_iff.mp added with ⟨fileName, -, later⟩
      exact ih later (asInt_ge _) (asInt_lt _)

/-- A name that was packed lies inside the block, whose size does not change. -/
theorem packsFileName_eq_some {heap after : Heap} {file moved : JohnnyFile} {served : ServedFile}
    {block : Nat} {cells : List Cell} {offset next : Int} (holds : Holds heap file served)
    (other : file.urlEncodedFileName.block ≠ block) (live : heap.blocks block = some cells)
    (packed : packsFileName ⟨block, 0⟩ file offset heap = some (moved, next, after)) :
    moved.urlEncodedFileName.block = block ∧
      next = asInt (offset + asInt (served.key.length + 1)) ∧
      0 ≤ offset ∧ offset + asSize (asInt (served.key.length + 1)) ≤ cells.length ∧
      (Exists fun changed => after.blocks block = some changed ∧ changed.length = cells.length) ∧
      forall later, later ≠ block -> later ≠ file.urlEncodedFileName.block ->
        after.blocks later = heap.blocks later := by
  unfold packsFileName at packed
  rw [holds.key, Option.bind_some] at packed
  rcases Option.bind_eq_some_iff.mp packed with ⟨copied, copy, rest⟩
  rcases Option.map_eq_some_iff.mp rest with ⟨freed, free, equal⟩
  cases equal
  rcases Option.bind_eq_some_iff.mp copy with ⟨data, read, written⟩
  rcases Heap.write_eq_some written with ⟨old, changed, found, lower, upper, blocks, sizes⟩
  have sameOld : old = cells := Option.some.inj (found.symm.trans live)
  subst sameOld
  rw [Heap.read_length read] at upper
  have freedBlocks := Heap.free_eq_some free
  refine ⟨rfl, rfl, ?_, ?_, ⟨changed, ?_, sizes⟩, ?_⟩
  · simpa only [Pointer.add, Int.zero_add] using lower
  · simpa only [Pointer.add, Int.zero_add] using upper
  · rw [freedBlocks, Function.update_of_ne (Ne.symm other), blocks]
    exact Function.update_self _ _ _
  · intro later notBlock notOwn
    rw [freedBlocks, Function.update_of_ne notOwn, blocks]
    exact Function.update_of_ne notBlock _ _

theorem packsFileNames_eq_some {heap after : Heap} {files moved : List JohnnyFile}
    {served : List ServedFile} {block : Nat} {cells : List Cell} {offset : Int}
    (slurped : Slurped heap files served)
    (other : forall file, file ∈ files -> file.urlEncodedFileName.block ≠ block)
    (live : heap.blocks block = some cells) (small : cells.length < 2 ^ 31)
    (packed : packsFileNames ⟨block, 0⟩ files offset heap = some (moved, after)) :
    (forall file, file ∈ moved -> file.urlEncodedFileName.block = block) ∧
      (Exists fun changed => after.blocks block = some changed ∧ changed.length = cells.length) ∧
      ((forall file, file ∈ served -> file.key.length + 1 < 2 ^ 31) -> offset ≤ cells.length ->
        offset + stringsLength served ≤ cells.length) := by
  induction files generalizing heap served cells offset moved with
  | nil =>
      cases slurped.holds
      cases packed
      refine ⟨fun _ member => (by cases member), ⟨cells, live, rfl⟩, fun _ inside => ?_⟩
      rw [stringsLength_nil]
      omega
  | cons file files ih =>
      rcases served with - | ⟨first, served⟩
      · cases slurped.holds
      · rcases Option.bind_eq_some_iff.mp packed with ⟨⟨head, next, middle⟩, one, rest⟩
        rcases Option.map_eq_some_iff.mp rest with ⟨⟨tail, last⟩, more, equal⟩
        cases equal
        rcases packsFileName_eq_some (List.forall₂_cons.mp slurped.holds).1
          (other file List.mem_cons_self)
          live one with ⟨inBlock, nextEq, lower, upper, ⟨changed, changedLive, sizes⟩, same⟩
        have apart := (List.pairwise_cons.mp slurped.apart).1
        have later : Slurped middle files served := by
          apply slurped.tail.congr
          intro entry member
          exact same _ (other entry (List.mem_cons_of_mem _ member)) (Ne.symm (apart entry member))
        rcases ih later (fun entry member =>
          other entry (List.mem_cons_of_mem _ member)) changedLive
          (by rw [sizes]; exact small) more with ⟨restInBlock, ⟨final, finalLive, finalSizes⟩, fits⟩
        refine ⟨?_, ⟨final, finalLive, finalSizes.trans sizes⟩, ?_⟩
        · intro entry member
          rcases List.mem_cons.mp member with rfl | inTail
          · exact inBlock
          · exact restInBlock entry inTail
        · intro short _
          have firstShort := short first List.mem_cons_self
          rw [asInt_length firstShort, asSize_length firstShort] at upper
          have sum : asInt (offset + (first.key.length + 1)) = offset + (first.key.length + 1) := by
            apply asInt_of_small <;> omega
          rw [asInt_length firstShort, sum] at nextEq
          have restFits := fits (fun entry member => short entry (List.mem_cons_of_mem _ member))
          dsimp only at restFits
          rw [stringsLength_cons]
          omega

/-- Packing that gets through has put all names into one block whose size is an
`int`, and short names fit there one after another. -/
theorem packsAllFileNames_eq_some {heap : Heap} {files : List JohnnyFile} {served : List ServedFile}
    {packed : List JohnnyFile × Heap} (slurped : Slurped heap files served)
    (success : packsAllFileNames heap files = some packed) :
    Exists fun cells => packed.2.blocks heap.next = some cells ∧ cells.length < 2 ^ 31 ∧
      (forall file, file ∈ packed.1 -> file.urlEncodedFileName.block = heap.next) ∧
      ((forall file, file ∈ served -> file.key.length + 1 < 2 ^ 31) ->
        stringsLength served ≤ cells.length) := by
  rcases Option.bind_eq_some_iff.mp success with ⟨total, added, rest⟩
  rcases Option.bind_eq_some_iff.mp rest with ⟨allocated, malloc, packs⟩
  unfold Heap.malloc at malloc
  split_ifs at malloc with limit
  cases malloc
  rcases addsStringLengths_range added (by omega) (by omega) with ⟨lower, upper⟩
  have nonneg : 0 ≤ total := by
    by_contra negative
    have large := asSize_of_neg (Int.not_le.mp negative) lower
    omega
  have size := asSize_of_nonneg nonneg upper
  have block := heap.allocate_blocks_self (List.replicate (asSize total) none)
  have fresh := slurped.allocate (List.replicate (asSize total) none)
  have other : forall file, file ∈ files -> file.urlEncodedFileName.block ≠ heap.next :=
    fun file member => Nat.ne_of_lt (slurped.block_lt member)
  rcases packsFileNames_eq_some fresh other block (by rw [List.length_replicate]; omega) packs with
    ⟨inBlock, ⟨final, finalLive, finalSize⟩, fits⟩
  rw [List.length_replicate] at finalSize fits
  refine ⟨final, finalLive, by omega, inBlock, ?_⟩
  intro short
  have sum := fits short (by omega)
  omega

/-- If short names can be packed, their lengths add up to an `int`. -/
theorem small_of_short {heap : Heap} {files : List JohnnyFile} {served : List ServedFile}
    {packed : List JohnnyFile × Heap} (slurped : Slurped heap files served)
    (success : packsAllFileNames heap files = some packed)
    (short : forall file, file ∈ served -> file.key.length + 1 < 2 ^ 31) :
      stringsLength served < 2 ^ 31 := by
  rcases packsAllFileNames_eq_some slurped success with ⟨cells, -, small, -, fits⟩
  exact Nat.lt_of_le_of_lt (fits short) small

/-- If every key can be read in the block afterwards, the lengths add up to an
`int`: a longer sum asks for a block that is too small or for none at all. -/
theorem small_of_packsAllFileNames {heap : Heap} {files : List JohnnyFile}
    {served : List ServedFile} {packed : List JohnnyFile × Heap}
    (slurped : Slurped heap files served) (success : packsAllFileNames heap files = some packed)
    (kept : forall own, own ∈ served -> Exists fun file => file ∈ packed.1 ∧
      packed.2.cString file.urlEncodedFileName = some own.key) :
    stringsLength served < 2 ^ 31 := by
  rcases packsAllFileNames_eq_some slurped success with ⟨cells, live, small, inBlock, -⟩
  apply small_of_short slurped success
  -- A key that can be read in the block is shorter than the block.
  intro own member
  rcases kept own member with ⟨file, inPacked, read⟩
  rcases Heap.cString_eq_some read with ⟨-, found, foundLive, string⟩
  rw [inBlock file inPacked, live] at foundLive
  have sameCells := Option.some.inj foundLive
  have shorter := stringAt_length_lt string
  rw [List.length_drop, ← sameCells] at shorter
  omega

end Setup
end Johnny
