import Johnny.Setup.Packing
import Johnny.Worker.Requests

namespace Johnny

open Library

/-!
# The file table and its lookup

After the names are packed and the hash is built, `reorder_johnny_files` moves
each file to the index that `cmph_search` gives for its key.  The workers look
a requested name up with the same function and compare it with the key they
find there.
-/

/-- What the workers read once the table is set up.  An entry that was not
written, or lies behind the table, is whatever memory holds there. -/
def Globals.ofTable (table : List (Option JohnnyFile)) (behind : Nat -> JohnnyFile)
    (cmphSearch : Bytes -> Nat) (heap : Heap) : Globals where
  johnnyFiles := fun index => (table[index]?).join.getD (behind index)
  johnnyFileCount := table.length
  cmphSearch := cmphSearch
  heap := heap

namespace Setup

/-- `cmph_search` numbers the keys from 0 on, without gaps. -/
structure MinimalPerfect (cmphSearch : Bytes -> Nat) (keys : List Bytes) : Prop where
  inside : forall key, key ∈ keys -> cmphSearch key < keys.length
  injective : forall first second, first ∈ keys -> second ∈ keys ->
    cmphSearch first = cmphSearch second -> first = second
  onto : forall index, index < keys.length -> Exists fun key => key ∈ keys ∧ cmphSearch key = index

/-- The new table starts uninitialised and has room for the files. -/
def reorderJohnnyFiles (cmphSearch : Bytes -> Nat) (heap : Heap) (johnnyFiles : List JohnnyFile) :
    Option (List (Option JohnnyFile)) :=
  scatter (fun file => (heap.cString file.urlEncodedFileName).map cmphSearch) johnnyFiles
    (List.replicate johnnyFiles.length none)

/-- The part of `johnny_setup_files` behind `johnny_slurps_files`, with the hash
given. -/
def packsAndReorders (cmphSearch : Bytes -> Nat) (heap : Heap) (johnnyFiles : List JohnnyFile) :
    Option (List (Option JohnnyFile) × Heap) :=
  (packsAllFileNames heap johnnyFiles).bind (fun packed =>
    (reorderJohnnyFiles cmphSearch packed.2 packed.1).map (fun table => (table, packed.2)))

/-- Every file is in the table exactly once, at the index of its key, and the
table holds nothing else. -/
structure ExactTable (cmphSearch : Bytes -> Nat) (served : List ServedFile)
    (table : List (Option JohnnyFile)) (heap : Heap) : Prop where
  size : table.length = served.length
  placed : forall file, file ∈ served -> Exists fun entry =>
    table[cmphSearch file.key]? = some (some entry) ∧ Holds heap entry file
  once : forall file, file ∈ served -> forall index entry, table[index]? = some (some entry) ->
    Holds heap entry file -> index = cmphSearch file.key
  filled : forall index, index < table.length -> Exists fun file => Exists fun entry =>
    file ∈ served ∧ table[index]? = some (some entry) ∧ Holds heap entry file

/-- A requested name selects the file with that key, and the 404 response if
there is none. -/
structure ExactLookup (globals : Globals) (served : List ServedFile) : Prop where
  found : forall file, file ∈ served ->
    Worker.johnnySelectsResponse globals file.key = (⟨file.response, 0⟩, file.responseLength)
  missing : forall fileName, 0 ∉ fileName ->
    Worker.johnnyFileIndex globals fileName < served.length ->
    (forall file, file ∈ served -> file.key ≠ fileName) ->
    Worker.johnnySelectsResponse globals fileName = (⟨Worker.http404, 0⟩, Worker.http404.length)

/-- The setup ends with an exact table, through which all lookups are exact. -/
def ExactSetup (cmphSearch : Bytes -> Nat) (served : List ServedFile)
    (result : Option (List (Option JohnnyFile) × Heap)) : Prop :=
  Exists fun table => Exists fun heap => result = some (table, heap) ∧
    ExactTable cmphSearch served table heap ∧
    forall behind, ExactLookup (Globals.ofTable table behind cmphSearch heap) served

theorem pairwise_of_holds {heap : Heap} {files : List JohnnyFile} {served : List ServedFile}
    (holds : List.Forall₂ (Holds heap) files served) {cmphSearch : Bytes -> Nat}
    (distinct : served.Pairwise (fun first second =>
      cmphSearch first.key ≠ cmphSearch second.key)) :
    files.Pairwise (fun first second =>
      (heap.cString first.urlEncodedFileName).map cmphSearch ≠
        (heap.cString second.urlEncodedFileName).map cmphSearch) := by
  induction holds with
  | nil => exact List.Pairwise.nil
  | cons held rest ih =>
      rcases List.pairwise_cons.mp distinct with ⟨apart, restDistinct⟩
      refine List.pairwise_cons.mpr ⟨?_, ih restDistinct⟩
      intro other member
      rcases exists_partner rest member with ⟨own, inRest, otherHeld⟩
      rw [held.key, otherHeld.key]
      intro same
      exact apart own inRest (Option.some.inj same)

/-- The indices of distinct keys are distinct. -/
theorem MinimalPerfect.pairwise {cmphSearch : Bytes -> Nat} {served : List ServedFile}
    (minimal : MinimalPerfect cmphSearch (served.map ServedFile.key))
    (distinct : (served.map ServedFile.key).Nodup) :
    served.Pairwise (fun first second => cmphSearch first.key ≠ cmphSearch second.key) := by
  have apart : served.Pairwise (fun first second => first.key ≠ second.key) :=
    List.pairwise_map.mp distinct
  apply List.Pairwise.imp_of_mem _ apart
  intro first second firstMember secondMember different same
  exact different (minimal.injective _ _ (List.mem_map_of_mem firstMember)
    (List.mem_map_of_mem secondMember) same)

theorem reorderJohnnyFiles_exact {cmphSearch : Bytes -> Nat} {heap : Heap} {files : List JohnnyFile}
    {served : List ServedFile} (holds : List.Forall₂ (Holds heap) files served)
    (distinct : (served.map ServedFile.key).Nodup)
    (minimal : MinimalPerfect cmphSearch (served.map ServedFile.key)) :
    Exists fun table => reorderJohnnyFiles cmphSearch heap files = some table ∧
      ExactTable cmphSearch served table heap := by
  have sizes := holds.length_eq
  have inside : forall file, file ∈ files -> Exists fun place =>
      (heap.cString file.urlEncodedFileName).map cmphSearch = some place ∧
        place < (List.replicate files.length (none : Option JohnnyFile)).length := by
    intro file member
    rcases exists_partner holds member with ⟨own, inServed, held⟩
    refine ⟨cmphSearch own.key, by rw [held.key]; rfl, ?_⟩
    have bound := minimal.inside own.key (List.mem_map_of_mem inServed)
    rw [List.length_map] at bound
    rw [List.length_replicate]
    omega
  rcases scatter_arrives inside (pairwise_of_holds holds (minimal.pairwise distinct)) with
    ⟨table, scattered, arrive⟩
  have length := scatter_length scattered
  rw [List.length_replicate] at length
  have placed : forall file, file ∈ served -> Exists fun entry =>
      table[cmphSearch file.key]? = some (some entry) ∧ Holds heap entry file := by
    intro file member
    rcases exists_partner holds.flip member with ⟨entry, inFiles, held⟩
    exact ⟨entry, arrive entry _ inFiles (by rw [held.key]; rfl), held⟩
  refine ⟨table, scattered, ⟨length.trans sizes, placed, ?_, ?_⟩⟩
  · intro file member index entry found held
    rcases scatter_entry scattered found with ⟨-, own⟩ | unwritten
    · rw [held.key] at own
      exact (Option.some.inj own).symm
    · rcases List.getElem?_eq_some_iff.mp unwritten with ⟨bound, content⟩
      rw [List.getElem_replicate] at content
      cases content
  · intro index bound
    rcases minimal.onto index (by rw [List.length_map]; omega) with ⟨key, member, rfl⟩
    rcases List.mem_map.mp member with ⟨file, inServed, rfl⟩
    rcases placed file inServed with ⟨entry, found, held⟩
    exact ⟨file, entry, inServed, found, held⟩

theorem ofTable_johnnyFiles {table : List (Option JohnnyFile)} {index : Nat} {entry : JohnnyFile}
    (found : table[index]? = some (some entry)) (behind : Nat -> JohnnyFile)
    (cmphSearch : Bytes -> Nat) (heap : Heap) :
    (Globals.ofTable table behind cmphSearch heap).johnnyFiles index = entry := by
  unfold Globals.ofTable
  dsimp only
  rw [found]
  rfl

theorem ExactTable.lookup {cmphSearch : Bytes -> Nat} {served : List ServedFile}
    {table : List (Option JohnnyFile)} {heap : Heap}
    (exactly : ExactTable cmphSearch served table heap) (behind : Nat -> JohnnyFile) :
    ExactLookup (Globals.ofTable table behind cmphSearch heap) served where
  found := by
    intro file member
    rcases exactly.placed file member with ⟨entry, found, held⟩
    have index : (Globals.ofTable table behind cmphSearch heap).johnnyFiles
        (Worker.johnnyFileIndex (Globals.ofTable table behind cmphSearch heap) file.key) = entry :=
      ofTable_johnnyFiles found behind cmphSearch heap
    unfold Worker.johnnySelectsResponse
    rw [index]
    dsimp only
    have key : (Globals.ofTable table behind cmphSearch heap).heap.cString
        entry.urlEncodedFileName = some file.key := held.key
    rw [if_pos key, held.response, held.responseLength]
  missing := by
    intro fileName _ inside absent
    have bound : cmphSearch fileName < table.length := by
      rw [exactly.size]
      exact inside
    rcases exactly.filled _ bound with ⟨file, entry, member, found, held⟩
    have index : (Globals.ofTable table behind cmphSearch heap).johnnyFiles
        (Worker.johnnyFileIndex (Globals.ofTable table behind cmphSearch heap) fileName) = entry :=
      ofTable_johnnyFiles found behind cmphSearch heap
    unfold Worker.johnnySelectsResponse
    rw [index]
    dsimp only
    rw [if_neg]
    intro same
    exact absent file member (Option.some.inj (held.key.symm.trans same))

/-- When the served lengths are those of the responses, so are the lengths in the
table. -/
theorem ExactTable.sized {cmphSearch : Bytes -> Nat} {served : List ServedFile}
    {table : List (Option JohnnyFile)} {heap : Heap}
    (exactly : ExactTable cmphSearch served table heap)
    (whole : forall file, file ∈ served -> file.responseLength = file.response.length)
    (behind : Nat -> JohnnyFile) : (Globals.ofTable table behind cmphSearch heap).Sized := by
  intro index inside
  rcases exactly.filled index inside with ⟨file, entry, member, found, held⟩
  rw [ofTable_johnnyFiles found, held.responseLength, held.response]
  exact whole file member

theorem exactSetup_of_small {cmphSearch : Bytes -> Nat} {heap : Heap} {files : List JohnnyFile}
    {served : List ServedFile} (slurped : Slurped heap files served)
    (distinct : (served.map ServedFile.key).Nodup)
    (minimal : MinimalPerfect cmphSearch (served.map ServedFile.key))
    (small : stringsLength served < 2 ^ 31) :
    ExactSetup cmphSearch served (packsAndReorders cmphSearch heap files) := by
  rcases packsAllFileNames_of_small slurped small with ⟨packed, success, holds⟩
  rcases reorderJohnnyFiles_exact holds distinct minimal with ⟨table, reordered, exactly⟩
  refine ⟨table, packed.2, ?_, exactly, exactly.lookup⟩
  unfold packsAndReorders
  rw [success, Option.bind_some, reordered]
  rfl

theorem small_of_exactSetup {cmphSearch : Bytes -> Nat} {heap : Heap} {files : List JohnnyFile}
    {served : List ServedFile} (slurped : Slurped heap files served)
    (exactly : ExactSetup cmphSearch served (packsAndReorders cmphSearch heap files)) :
    stringsLength served < 2 ^ 31 := by
  rcases exactly with ⟨table, after, result, content, -⟩
  rcases Option.bind_eq_some_iff.mp result with ⟨packed, success, rest⟩
  rcases Option.map_eq_some_iff.mp rest with ⟨reordered, scattered, equal⟩
  cases equal
  apply small_of_packsAllFileNames slurped success
  intro file member
  rcases content.placed file member with ⟨entry, found, held⟩
  rcases scatter_entry scattered found with ⟨inFiles, -⟩ | unwritten
  · exact ⟨entry, inFiles, held.key⟩
  · rcases List.getElem?_eq_some_iff.mp unwritten with ⟨bound, empty⟩
    rw [List.getElem_replicate] at empty
    cases empty

/-- Memory with one block for each name, as many calls of `url_encode` leave
it. -/
def namesHeap (names : List Bytes) : Heap where
  blocks := fun block => (names[block]?).map stringCells
  next := names.length
  fresh := by
    intro block later
    rw [List.getElem?_eq_none later]
    rfl

/-- The entries for names in successive blocks. -/
def namedFrom : Nat -> List ServedFile -> List JohnnyFile
  | _, [] => []
  | block, file :: rest =>
      ⟨⟨block, 0⟩, file.response, file.responseLength⟩ :: namedFrom (block + 1) rest

theorem namedFrom_block {block : Nat} {served : List ServedFile} {file : JohnnyFile}
    (member : file ∈ namedFrom block served) :
    block ≤ file.urlEncodedFileName.block ∧ file.urlEncodedFileName.offset = 0 := by
  induction served generalizing block with
  | nil => cases member
  | cons first rest ih =>
      rcases List.mem_cons.mp member with rfl | later
      · exact ⟨Nat.le_refl _, rfl⟩
      · rcases ih later with ⟨behind, start⟩
        exact ⟨Nat.le_of_succ_le behind, start⟩

theorem namedFrom_apart (block : Nat) (served : List ServedFile) :
    (namedFrom block served).Pairwise (fun first second =>
      first.urlEncodedFileName.block ≠ second.urlEncodedFileName.block) := by
  induction served generalizing block with
  | nil => exact List.Pairwise.nil
  | cons first rest ih =>
      refine List.pairwise_cons.mpr ⟨?_, ih (block + 1)⟩
      intro other member
      exact Nat.ne_of_lt (namedFrom_block member).1

/-- The induction is on the files whose blocks follow those of the files
before them. -/
theorem namedFrom_holds (before served : List ServedFile)
    (nonzero : forall file, file ∈ served -> 0 ∉ file.key) :
    List.Forall₂ (Holds (namesHeap ((before ++ served).map ServedFile.key)))
      (namedFrom before.length served) served := by
  induction served generalizing before with
  | nil => exact List.Forall₂.nil
  | cons first rest ih =>
      refine List.Forall₂.cons ⟨?_, rfl, rfl⟩ ?_
      · have live : (namesHeap
            ((before ++ first :: rest).map ServedFile.key)).blocks before.length =
            some (stringCells first.key) := by
          unfold namesHeap
          dsimp only
          rw [List.getElem?_map, List.getElem?_append_right (Nat.le_refl _), Nat.sub_self]
          rfl
        have whole := stringAt_stringCells first.key (nonzero first List.mem_cons_self) []
        rw [List.append_nil] at whole
        exact (Heap.cString_of_block live 0).trans whole
      · have later := ih (before ++ [first]) (fun file member =>
          nonzero file (List.mem_cons_of_mem _ member))
        rw [List.append_assoc, List.length_append] at later
        exact later

/-- Every list of files whose keys have no zero byte can be slurped. -/
theorem namedFrom_slurped (served : List ServedFile)
    (nonzero : forall file, file ∈ served -> 0 ∉ file.key) :
    Slurped (namesHeap (served.map ServedFile.key)) (namedFrom 0 served) served :=
  ⟨namedFrom_holds [] served nonzero, fun _ member => (namedFrom_block member).2,
    namedFrom_apart 0 served⟩

/-- The position in the list of keys is a minimal perfect hash. -/
theorem idxOf_minimalPerfect {keys : List Bytes} (distinct : keys.Nodup) :
    MinimalPerfect (fun key => keys.idxOf key) keys where
  inside := fun _ member => List.idxOf_lt_length_of_mem member
  injective := fun _ _ firstMember _ same => (List.idxOf_inj firstMember).mp same
  onto := by
    intro index bound
    exact ⟨keys[index], List.getElem_mem bound, distinct.idxOf_getElem index bound⟩

def okResponse : Bytes :=
  ascii "HTTP/1.1 200 OK\r\nContent-Length: 0\r\n\r\n"

def servesEmpty (key : Bytes) : ServedFile :=
  ⟨key, okResponse, okResponse.length⟩

/-! ## When the setup is exact -/

/-- Whatever files were slurped under distinct keys, the table and its lookups
are exact as long as the keys with their terminators take less than 2 GiB. -/
theorem exactSetup_iff (cmphSearch : Bytes -> Nat) (heap : Heap) (files : List JohnnyFile)
    (served : List ServedFile) (slurped : Slurped heap files served)
    (distinct : (served.map ServedFile.key).Nodup)
    (minimal : MinimalPerfect cmphSearch (served.map ServedFile.key)) :
    ExactSetup cmphSearch served (packsAndReorders cmphSearch heap files) <->
      stringsLength served < 2 ^ 31 :=
  ⟨small_of_exactSetup slurped, exactSetup_of_small slurped distinct minimal⟩

theorem exactSetup_short_names :
    ExactSetup (fun key => [ascii "a", ascii "b"].idxOf key) [servesEmpty (ascii "a"),
      servesEmpty (ascii "b")]
      (packsAndReorders (fun key => [ascii "a", ascii "b"].idxOf key)
        (namesHeap [ascii "a", ascii "b"])
        (namedFrom 0 [servesEmpty (ascii "a"), servesEmpty (ascii "b")])) :=
  (exactSetup_iff _ _ _ _ (namedFrom_slurped [servesEmpty (ascii "a"), servesEmpty (ascii "b")]
    (by decide)) (by decide) (idxOf_minimalPerfect (by decide))).mpr (by decide)

/-- A path through directories whose names have a given length. -/
def directoryPath (depth width : Nat) : Bytes :=
  (List.replicate depth (List.replicate width 97 ++ [47])).flatten

/-- The lowest binary digits of a number. -/
def binaryDigits : Nat -> Nat -> Bytes
  | 0, _ => []
  | width + 1, number => (if number % 2 = 0 then 48 else 49) :: binaryDigits width (number / 2)

def longNames (count : Nat) : List ServedFile :=
  (List.range count).map (fun number =>
    servesEmpty (directoryPath 18 200 ++ binaryDigits 20 number))

theorem binaryDigits_length (width number : Nat) : (binaryDigits width number).length = width := by
  induction width generalizing number with
  | zero => rfl
  | succ width ih => rw [binaryDigits, List.length_cons, ih]

theorem binaryDigits_mem {width number : Nat} {byte : UInt8}
    (member : byte ∈ binaryDigits width number) : byte = 48 ∨ byte = 49 := by
  induction width generalizing number with
  | zero => cases member
  | succ width ih =>
      rw [binaryDigits] at member
      rcases List.mem_cons.mp member with rfl | later
      · split_ifs
        · exact Or.inl rfl
        · exact Or.inr rfl
      · exact ih later

theorem binaryDigits_nonzero (width number : Nat) : 0 ∉ binaryDigits width number := by
  intro member
  rcases binaryDigits_mem member with zero | zero
  · exact absurd zero (by decide)
  · exact absurd zero (by decide)

/-- Numbers that fit are read off their digits. -/
theorem binaryDigits_injective {width first second : Nat} (firstFits : first < 2 ^ width)
    (secondFits : second < 2 ^ width)
    (same : binaryDigits width first = binaryDigits width second) : first = second := by
  induction width generalizing first second with
  | zero => omega
  | succ width ih =>
      rw [binaryDigits, binaryDigits] at same
      rw [Nat.pow_succ] at firstFits secondFits
      rcases List.cons.inj same with ⟨digit, rest⟩
      have halves := ih (by omega) (by omega) rest
      have parity : first % 2 = second % 2 := by
        split_ifs at digit with firstEven secondEven secondEven
        · omega
        · exact absurd digit (by decide)
        · exact absurd digit (by decide)
        · omega
      omega

theorem directoryPath_length (depth width : Nat) :
    (directoryPath depth width).length = depth * (width + 1) := by
  simp [directoryPath]

theorem directoryPath_nonzero (depth width : Nat) : 0 ∉ directoryPath depth width := by
  simp [directoryPath]

theorem longNames_nonzero {count : Nat} {file : ServedFile} (member : file ∈ longNames count) :
    0 ∉ file.key := by
  rcases List.mem_map.mp member with ⟨number, -, rfl⟩
  intro zero
  rcases List.mem_append.mp zero with inDirectory | inDigits
  · exact directoryPath_nonzero 18 200 inDirectory
  · exact binaryDigits_nonzero 20 number inDigits

theorem longNames_distinct {count : Nat} (fits : count ≤ 2 ^ 20) :
    ((longNames count).map ServedFile.key).Nodup := by
  unfold longNames
  rw [List.map_map]
  apply List.Nodup.map_on _ List.nodup_range
  intro first firstMember second secondMember same
  have firstBound := List.mem_range.mp firstMember
  have secondBound := List.mem_range.mp secondMember
  exact binaryDigits_injective (by omega) (by omega) (List.append_cancel_left same)

theorem longNames_stringsLength (count : Nat) : stringsLength (longNames count) = count * 3639 := by
  have size : forall number,
      (servesEmpty (directoryPath 18 200 ++ binaryDigits 20 number)).key.length + 1 = 3639 := by
    intro number
    unfold servesEmpty
    dsimp only
    rw [List.length_append, directoryPath_length, binaryDigits_length]
  induction count with
  | zero => rfl
  | succ count ih =>
      unfold stringsLength longNames at ih ⊢
      rw [List.range_succ, List.map_append, List.map_append, List.sum_append, ih,
        List.map_singleton, List.map_singleton, List.sum_singleton, size, Nat.succ_mul]

/-- The names of 600000 empty files in the same long directory take more than
2 GiB. -/
theorem not_exactSetup_longNames :
    ¬ forall (cmphSearch : Bytes -> Nat) (heap : Heap) (files : List JohnnyFile)
    (served : List ServedFile),
      Slurped heap files served -> (served.map ServedFile.key).Nodup ->
      MinimalPerfect cmphSearch (served.map ServedFile.key) ->
      ExactSetup cmphSearch served (packsAndReorders cmphSearch heap files) := by
  intro always
  have slurped := namedFrom_slurped (longNames 600000) (fun _ member => longNames_nonzero member)
  have distinct := @longNames_distinct 600000 (by decide)
  have small := small_of_exactSetup slurped
    (always _ _ _ _ slurped distinct (idxOf_minimalPerfect distinct))
  rw [longNames_stringsLength] at small
  exact absurd small (by decide)

end Setup
end Johnny
