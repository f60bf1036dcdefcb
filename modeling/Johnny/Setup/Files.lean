import Johnny.Setup.Slurp
import Johnny.Setup.Tree
import Johnny.Setup.Table
import Johnny.Hash.Construction

namespace Johnny
namespace Setup

open Library
open Hash

/-!
# Setting up the files

`johnny_setup_files` counts the files, slurps them into a table of that size,
packs their names, builds the hash and reorders the table.  It returns
`EXIT_FAILURE` when there are no files, and does not test anything else.

A run that gets through has read every file, and its result depends on the
hash: `cmph_search` is called with whatever `cmph_new` returned.  The stack is
taken to be large enough for the paths and the vector of names.
-/

/-- Paths of `PATH_MAX` bytes cannot be opened. -/
def pathMax : Nat := 4096

/-- What reading the file with some path comes to. -/
structure Disk where
  access : Bytes -> FileAccess
  tooLong : forall path, pathMax ≤ path.length -> (access path).opens = false

/-- `JOHNNY_FILES[file_counter] = johnny_slurps_file(full_path, rel_path)`. -/
def slurpsInto (disk : Disk) (fileCounter : Nat) (fullPath relPath : Bytes)
    (state : List (Option JohnnyFile) × Heap) : Option (List (Option JohnnyFile) × Heap) :=
  (johnnySlurpsFile (disk.access fullPath) relPath state.2).bind (fun slurped =>
    if fileCounter < state.1.length then some (state.1.set fileCounter (some slurped.1), slurped.2)
    else none)

/-- `reorder_johnny_files` with whatever `cmph_new` returned.  A search with
`NULL` is not defined. -/
def reorderWithHash (johnnyHash : Option (Bytes -> Nat)) (heap : Heap)
    (johnnyFiles : List JohnnyFile) : Option (List (Option JohnnyFile)) :=
  scatter (fun file => johnnyHash.bind (fun cmphSearch =>
    (heap.cString file.urlEncodedFileName).map cmphSearch)) johnnyFiles
    (List.replicate johnnyFiles.length none)

/-- The return value, with what is left in the globals. -/
inductive SetupResult
  | failure
  | success (johnnyHash : Option (Bytes -> Nat)) (johnnyFiles : List (Option JohnnyFile))
      (heap : Heap)

/-- Files that can be served as these ones. -/
def Servable (disk : Disk) (rootDirectory : Bytes) (files : List FilePath)
    (served : List ServedFile) : Prop :=
  List.Forall₂ (fun file own =>
    Loadable (disk.access (file.full (rootDirectory ++ [47]))) file.relative own) files served

section

variable {tree : Tree} {rootDirectory : Bytes}
  (counting slurping : Walk tree (rootDirectory ++ [47]))
variable (disk : Disk) (draws : Draws) (heap : Heap)

/-- The two walks may list a directory in different orders. -/
def johnnySetupFiles : Option SetupResult :=
  (countFiles counting.readdir (tree.lstat (rootDirectory ++ [47])) (tree.depth + 1)
      (rootDirectory ++ [47])).bind (fun johnnyFileCount =>
    if johnnyFileCount = 0 then some .failure
    else
      (johnnySlurpsFiles slurping.readdir (tree.lstat (rootDirectory ++ [47])) (slurpsInto disk)
          (rootDirectory ++ [47]) (tree.depth + 1) []
          (0, List.replicate johnnyFileCount none, heap)).bind (fun slurped =>
        (slurped.2.1.mapM id).bind (fun johnnyFiles =>
          (packsAllFileNames slurped.2.2 johnnyFiles).bind (fun packed =>
            (packed.1.mapM (fun file => packed.2.cString file.urlEncodedFileName)).bind
              (fun vector =>
              let johnnyHash := (cmphNew draws vector).map chdSearch
              (reorderWithHash johnnyHash packed.2 packed.1).map (fun reordered =>
                .success johnnyHash reordered packed.2))))))

/-- The setup fails as it is meant to, or ends with a hash and a table without
unwritten entries. -/
def Clean (johnnyFileCount : Nat) : Option SetupResult -> Prop
  | none => False
  | some .failure => True
  | some (.success johnnyHash johnnyFiles _) =>
      johnnyHash.isSome ∧ johnnyFiles.length = johnnyFileCount ∧
        forall index, index < johnnyFileCount -> Exists fun file =>
          johnnyFiles[index]? = some (some file)

/-- All files can be served, their keys take less than 2 GiB, and there is a
hash for the keys. -/
def Usable : Prop :=
  Exists fun served => Servable disk rootDirectory (slurping.found (tree.depth + 1) []) served ∧
    stringsLength served < 2 ^ 31 ∧ (cmphNew draws (served.map ServedFile.key)).isSome

end

theorem Slurped.concat {heap after : Heap} {files : List JohnnyFile} {served : List ServedFile}
    (slurped : Slurped heap files served) {entry : JohnnyFile} {own : ServedFile}
    (loads : Loads heap entry after own) : Slurped after (files ++ [entry]) (served ++ [own]) := by
  have kept := slurped.congr (fun file member => loads.same _ (slurped.block_lt member))
  refine ⟨?_, ?_, ?_⟩
  · exact List.rel_append kept.holds (List.Forall₂.cons loads.holds List.Forall₂.nil)
  · intro file member
    rcases List.mem_append.mp member with before | last
    · exact slurped.starts file before
    · rw [List.mem_singleton.mp last]
      exact loads.start
  · refine List.pairwise_append.mpr ⟨slurped.apart, List.pairwise_singleton _ _, ?_⟩
    intro file member last inLast
    rw [List.mem_singleton.mp inLast]
    exact Nat.ne_of_lt (Nat.lt_of_lt_of_le (slurped.block_lt member) loads.new)

/-- The name of a file that can be opened is short. -/
theorem Disk.relative_length_lt (disk : Disk) {rootDirectory : Bytes} {file : FilePath}
    (opens : (disk.access (file.full (rootDirectory ++ [47]))).opens = true) :
    file.relative.length < pathMax := by
  have bound : (file.full (rootDirectory ++ [47])).length < pathMax := by
    by_contra long
    rw [disk.tooLong _ (Nat.not_lt.mp long)] at opens
    cases opens
  unfold FilePath.full at bound
  unfold FilePath.relative
  simp only [List.length_append, List.length_cons] at bound ⊢
  omega

/-- One round of `johnny_slurps_files` for a regular file. -/
def slurpsNext (disk : Disk) (rootDirectory : Bytes) (state : Nat × List (Option JohnnyFile) × Heap)
    (file : FilePath) : Option (Nat × List (Option JohnnyFile) × Heap) :=
  (slurpsInto disk state.1 (file.full (rootDirectory ++ [47])) file.relative state.2).map
    (fun slurped => (state.1 + 1, slurped))

theorem johnnySlurpsFiles_slurpsNext {tree : Tree} {rootDirectory : Bytes}
    (slurping : Walk tree (rootDirectory ++ [47])) (disk : Disk)
    (state : Nat × List (Option JohnnyFile) × Heap) :
    johnnySlurpsFiles slurping.readdir (tree.lstat (rootDirectory ++ [47])) (slurpsInto disk)
        (rootDirectory ++ [47]) (tree.depth + 1) [] state =
      (slurping.found (tree.depth + 1) []).foldlM (slurpsNext disk rootDirectory) state :=
  slurping.johnnySlurpsFiles_eq (slurpsInto disk) (tree.depth + 1) noNames_valid (Nat.zero_le _)
    (by simp) state

/-- Servable files fill the table one after another.  The induction is on the
files that are left. -/
theorem slurpsAll_eq {disk : Disk} {rootDirectory : Bytes} {files : List FilePath}
    {served : List ServedFile} (servable : Servable disk rootDirectory files served) {heap : Heap}
    {before : List JohnnyFile} {servedBefore : List ServedFile}
    (slurped : Slurped heap before servedBefore) :
    Exists fun entries => Exists fun after =>
      files.foldlM (slurpsNext disk rootDirectory)
          (before.length, before.map some ++ List.replicate files.length none, heap) =
        some (before.length + files.length, (before ++ entries).map some, after) ∧
      Slurped after (before ++ entries) (servedBefore ++ served) := by
  induction servable generalizing heap before servedBefore with
  | nil =>
      refine ⟨[], heap, ?_, ?_⟩
      · simp
      · rw [List.append_nil, List.append_nil]
        exact slurped
  | @cons file own files served loadable _ ih =>
      rcases loadable.response with ⟨contents, readable, -⟩
      have short := disk.relative_length_lt readable.opens
      have name : 3 * file.relative.length ≤ intMax := by
        unfold pathMax at short
        unfold intMax
        omega
      rcases johnnySlurpsFile_of_loadable loadable name heap with ⟨entry, after, slurps, loads⟩
      rcases ih (slurped.concat loads) with ⟨entries, final, rest, done⟩
      rw [List.append_assoc, List.append_assoc] at done
      refine ⟨entry :: entries, final, ?_, done⟩
      have table : (before.map some ++ List.replicate (file :: files).length none).set before.length
          (some entry) =
          (before ++ [entry]).map some ++ List.replicate files.length none := by
        rw [List.length_cons, List.replicate_succ, List.map_append, List.append_assoc]
        rw [List.set_append_right _ _ (by rw [List.length_map]), List.length_map, Nat.sub_self]
        rfl
      have next : slurpsNext disk rootDirectory
          (before.length, before.map some ++ List.replicate (file :: files).length none,
            heap) file =
            some ((before ++ [entry]).length,
              (before ++ [entry]).map some ++ List.replicate files.length none,
              after) := by
        unfold slurpsNext slurpsInto
        dsimp only
        rw [slurps, Option.bind_some, if_pos (by simp), table, List.length_append]
        rfl
      have counter : (before ++ [entry]).length + files.length = before.length +
          (file :: files).length := by
        rw [List.length_append, List.length_singleton, List.length_cons]
        omega
      rw [counter, List.append_assoc] at rest
      rw [List.foldlM_cons, next]
      exact rest

/-- Slurping gets through only if all files can be served. -/
theorem servable_of_slurpsAll {disk : Disk} {rootDirectory : Bytes} {files : List FilePath}
    {state result : Nat × List (Option JohnnyFile) × Heap}
    (slurps : files.foldlM (slurpsNext disk rootDirectory) state = some result) :
    Exists fun served => Servable disk rootDirectory files served := by
  induction files generalizing state with
  | nil => exact ⟨[], List.Forall₂.nil⟩
  | cons file files ih =>
      rw [List.foldlM_cons] at slurps
      rcases Option.bind_eq_some_iff.mp slurps with ⟨middle, next, rest⟩
      rcases Option.map_eq_some_iff.mp next with ⟨slurped, into, -⟩
      rcases Option.bind_eq_some_iff.mp into with ⟨loaded, loads, -⟩
      rcases loadable_of_johnnySlurpsFile loads with ⟨own, loadable⟩
      rcases ih rest with ⟨served, servable⟩
      exact ⟨own :: served, List.Forall₂.cons loadable servable⟩

/-! ## What a run that gets through has done -/

theorem mapM_cString {heap : Heap} {files : List JohnnyFile} {served : List ServedFile}
    (holds : List.Forall₂ (Holds heap) files served) :
    files.mapM (fun file => heap.cString file.urlEncodedFileName) =
      some (served.map ServedFile.key) := by
  induction holds with
  | nil => rfl
  | cons held _ ih =>
      rw [List.mapM_cons, held.key, ih]
      rfl

/-- The key of a file that can be served is short. -/
theorem Servable.short {disk : Disk} {rootDirectory : Bytes} {files : List FilePath}
    {served : List ServedFile} (servable : Servable disk rootDirectory files served) :
    forall own, own ∈ served -> own.key.length + 1 < 2 ^ 31 := by
  induction servable with
  | nil => exact fun own member => by cases member
  | @cons file first files served loadable _ ih =>
      intro own member
      rcases List.mem_cons.mp member with rfl | later
      · rcases loadable.response with ⟨contents, readable, -⟩
        have short := disk.relative_length_lt readable.opens
        have stripped := classifies_length_le file.relative
        have encoded := (urlEncode_size loadable.key).1
        unfold pathMax at short
        omega
      · exact ih own later

section

variable {tree : Tree} {rootDirectory : Bytes}
  (counting slurping : Walk tree (rootDirectory ++ [47]))
variable (disk : Disk) (draws : Draws) (heap : Heap)

theorem found_length (walk : Walk tree (rootDirectory ++ [47])) :
    (walk.found (tree.depth + 1) []).length = tree.files.length :=
  (walk.found_perm _ noNames_valid).length_eq

theorem countFiles_root :
    countFiles counting.readdir (tree.lstat (rootDirectory ++ [47])) (tree.depth + 1)
      (rootDirectory ++ [47]) =
      some tree.files.length := by
  have counts := counting.countFiles_eq (tree.depth + 1) noNames_valid (Nat.zero_le _) (by simp)
  rw [found_length] at counts
  have root : rootDirectory ++ [47] ++ joinNames 47 [] = rootDirectory ++ [47] := List.append_nil _
  rwa [root] at counts

/-- Slurping the files of the walk into a new table. -/
theorem slurps_eq {served : List ServedFile}
    (servable : Servable disk rootDirectory (slurping.found (tree.depth + 1) []) served) :
    Exists fun entries => Exists fun after =>
      johnnySlurpsFiles slurping.readdir (tree.lstat (rootDirectory ++ [47])) (slurpsInto disk)
          (rootDirectory ++ [47]) (tree.depth + 1) []
          (0, List.replicate tree.files.length none, heap) =
        some (tree.files.length, entries.map some, after) ∧
      Slurped after entries served := by
  have start : Slurped heap [] [] :=
    ⟨List.Forall₂.nil, fun _ member => (by cases member), List.Pairwise.nil⟩
  rcases slurpsAll_eq servable start with ⟨entries, after, slurps, slurped⟩
  refine ⟨entries, after, ?_, slurped⟩
  rw [johnnySlurpsFiles_slurpsNext]
  rw [found_length] at slurps
  rw [List.length_nil, Nat.zero_add] at slurps
  exact slurps

/-- The result of a setup with files that can be served and short names: the
last step depends on the hash. -/
theorem johnnySetupFiles_eq (nonempty : tree.files ≠ []) {served : List ServedFile}
    (servable : Servable disk rootDirectory (slurping.found (tree.depth + 1) []) served)
    (small : stringsLength served < 2 ^ 31) :
    Exists fun files => Exists fun after => List.Forall₂ (Holds after) files served ∧
      johnnySetupFiles counting slurping disk draws heap =
        (reorderWithHash ((cmphNew draws (served.map ServedFile.key)).map chdSearch)
          after files).map (fun reordered =>
            .success ((cmphNew draws (served.map ServedFile.key)).map chdSearch)
              reordered after) := by
  rcases slurps_eq slurping disk heap servable with ⟨entries, after, slurps, slurped⟩
  rcases packsAllFileNames_of_small slurped small with ⟨packed, packs, holds⟩
  refine ⟨packed.1, packed.2, holds, ?_⟩
  have count : tree.files.length ≠ 0 := fun zero => nonempty (List.length_eq_zero_iff.mp zero)
  unfold johnnySetupFiles
  rw [countFiles_root, Option.bind_some, if_neg count, slurps, Option.bind_some]
  dsimp only
  rw [Heap.mapM_id_map_some, Option.bind_some, packs, Option.bind_some, mapM_cString holds]
  rfl

/-- A setup that gets through has served every file under a name that fits. -/
theorem servable_of_johnnySetupFiles (nonempty : tree.files ≠ []) {result : SetupResult}
    (success : johnnySetupFiles counting slurping disk draws heap = some result) :
    Exists fun served => Servable disk rootDirectory (slurping.found (tree.depth + 1) []) served ∧
      stringsLength served < 2 ^ 31 := by
  have count : tree.files.length ≠ 0 := fun zero => nonempty (List.length_eq_zero_iff.mp zero)
  unfold johnnySetupFiles at success
  rw [countFiles_root, Option.bind_some, if_neg count] at success
  rcases Option.bind_eq_some_iff.mp success with ⟨slurped, slurps, rest⟩
  have servable : Exists fun served =>
      Servable disk rootDirectory (slurping.found (tree.depth + 1) []) served := by
    rw [johnnySlurpsFiles_slurpsNext] at slurps
    exact servable_of_slurpsAll slurps
  rcases servable with ⟨served, servable⟩
  rcases slurps_eq slurping disk heap servable with ⟨entries, after, slurpsTo, held⟩
  cases slurps.symm.trans slurpsTo
  dsimp only at rest
  rw [Heap.mapM_id_map_some, Option.bind_some] at rest
  rcases Option.bind_eq_some_iff.mp rest with ⟨packed, packs, -⟩
  exact ⟨served, servable, small_of_short held packs servable.short⟩

/-- With a hash for the keys the whole table is written. -/
theorem clean_of_usable (usable : Usable slurping disk draws) :
    Clean tree.files.length (johnnySetupFiles counting slurping disk draws heap) := by
  rcases usable with ⟨served, servable, small, hash⟩
  have sizes := servable.length_eq
  rw [found_length] at sizes
  rcases Option.isSome_iff_exists.mp hash with ⟨ph, built⟩
  have distinct := (cmphNew_eq_some built).1
  by_cases empty : tree.files = []
  · unfold johnnySetupFiles
    rw [countFiles_root, empty]
    trivial
  · rcases johnnySetupFiles_eq counting slurping disk draws heap empty servable small with
      ⟨files, after, holds, result⟩
    rcases reorderJohnnyFiles_exact holds distinct (ph.minimalPerfect distinct)
      with ⟨table, reordered, exactly⟩
    have reorders : reorderWithHash (some (chdSearch ph)) after files = some table := reordered
    have length : table.length = tree.files.length := exactly.size.trans sizes.symm
    rw [result, built, Option.map_some, reorders, Option.map_some]
    refine ⟨rfl, length, ?_⟩
    intro index bound
    rcases exactly.filled index (by omega) with ⟨file, entry, -, found, -⟩
    exact ⟨entry, found⟩

/-- Without a hash the first search is one with `NULL`. -/
theorem usable_of_clean (nonempty : tree.files ≠ [])
    (clean : Clean tree.files.length (johnnySetupFiles counting slurping disk draws heap)) :
    Usable slurping disk draws := by
  have success : Exists fun result => johnnySetupFiles counting slurping disk draws heap =
      some result := by
    cases run : johnnySetupFiles counting slurping disk draws heap with
    | none =>
        rw [run] at clean
        exact False.elim clean
    | some result => exact ⟨result, rfl⟩
  rcases success with ⟨result, success⟩
  rcases servable_of_johnnySetupFiles counting slurping disk draws heap nonempty success with
    ⟨served, servable, small⟩
  refine ⟨served, servable, small, ?_⟩
  rcases johnnySetupFiles_eq counting slurping disk draws heap nonempty servable small with
    ⟨files, after, holds, equal⟩
  have sizes := servable.length_eq.trans holds.length_eq.symm
  rw [found_length] at sizes
  cases hash : cmphNew draws (served.map ServedFile.key) with
  | none =>
      rw [equal, hash] at clean
      rcases files with - | ⟨first, rest⟩
      · exact absurd (List.length_eq_zero_iff.mp sizes) nonempty
      · exact False.elim clean
  | some ph => rfl

/-- A single file is never usable. -/
theorem Usable.several (usable : Usable slurping disk draws) : tree.files.length ≠ 1 := by
  rcases usable with ⟨served, servable, -, hash⟩
  have sizes := servable.length_eq
  rw [found_length] at sizes
  rcases Option.isSome_iff_exists.mp hash with ⟨ph, built⟩
  have several := (cmphNew_eq_some built).2
  rwa [List.length_map, ← sizes] at several

end

/-- For every tree, every order of `readdir`, every outcome of reading the files
and of building the hash, the setup is clean exactly when there are no files or
when they are usable. -/
theorem clean_iff_usable (tree : Tree) (rootDirectory : Bytes)
    (counting slurping : Walk tree (rootDirectory ++ [47])) (disk : Disk) (draws : Draws)
    (heap : Heap) : Clean tree.files.length (johnnySetupFiles counting slurping disk draws heap) <->
      tree.files = [] ∨ Usable slurping disk draws := by
  constructor
  · intro clean
    by_cases empty : tree.files = []
    · exact Or.inl empty
    · exact Or.inr (usable_of_clean counting slurping disk draws heap empty clean)
  · rintro (empty | usable)
    · unfold johnnySetupFiles
      rw [countFiles_root, empty]
      trivial
    · exact clean_of_usable counting slurping disk draws heap usable

/-- A disk on which every file can be read and has the same contents. -/
def uniformDisk (contents : Bytes) : Disk where
  access := fun path => ⟨decide (path.length < pathMax), some contents.length, contents, true⟩
  tooLong := fun _ long => decide_eq_false (Nat.not_lt.mpr long)

/-- Hash states that send a key to the bin of its first byte. -/
def firstByteDraws : Draws where
  hashStates := fun _ key => (0, (key.headD 0).toNat, 0)
  bins := fun m => max 11 (2 * m + 1)
  spare := fun m => by omega
  maxProbes := fun m => 52428 * Nat.log2 m
  maxProbes_one := rfl

/-- What is served for a file of the uniform disk. -/
def servesContents (contents name key : Bytes) : ServedFile :=
  ⟨key, responseHeader name contents.length ++ contents,
    (responseHeader name contents.length ++ contents).length⟩

theorem uniformDisk_loadable {contents path name key : Bytes} (short : path.length < pathMax)
    (encodes : fileKey name = some key) (small : contents.length + 200 < Heap.mallocLimit) :
    Loadable ((uniformDisk contents).access path) name (servesContents contents name key) := by
  have limit : Heap.mallocLimit = 2 ^ 63 := rfl
  have header := (@responseHeader_length_lt name contents.length (by omega)).2
  refine ⟨⟨contents, ⟨decide_eq_true short, rfl, List.prefix_refl _, rfl, by omega⟩, rfl⟩, encodes,
    rfl, ?_⟩
  unfold servesContents
  rw [List.length_append]
  omega

def twoPages : Tree :=
  flatTree [ascii "a.html", ascii "b.html"] (by decide) (by decide)

def twoPagesWalk : Walk twoPages ([] ++ [47]) :=
  Walk.inOrder twoPages _

theorem clean_twoPages :
    Clean 2 (johnnySetupFiles twoPagesWalk twoPagesWalk (uniformDisk (ascii "page")) firstByteDraws
      Heap.empty) := by
  have found : twoPagesWalk.found (twoPages.depth + 1) [] =
      [⟨[], ascii "a.html"⟩, ⟨[], ascii "b.html"⟩] := by
    decide +kernel
  have usable : Usable twoPagesWalk (uniformDisk (ascii "page")) firstByteDraws := by
    refine ⟨[servesContents (ascii "page") (ascii "a.html") (ascii "a.html"),
      servesContents (ascii "page") (ascii "b.html") (ascii "b.html")], ?_, by decide, ?_⟩
    · rw [found]
      exact List.Forall₂.cons (uniformDisk_loadable (by decide +kernel) (by decide)
        (by decide +kernel))
        (List.Forall₂.cons (uniformDisk_loadable (by decide +kernel) (by decide)
          (by decide +kernel))
          List.Forall₂.nil)
    · rw [cmphNew_isSome]
      decide +kernel
  have count : twoPages.files.length = 2 := by decide +kernel
  rw [← count]
  have equivalent := clean_iff_usable twoPages [] twoPagesWalk twoPagesWalk
    (uniformDisk (ascii "page"))
    firstByteDraws Heap.empty
  rw [equivalent]
  exact Or.inr usable

def singlePage : Tree :=
  flatTree [ascii "index.html"] (by decide) (by decide)

/-- For a single readable page there is no hash, and the search with `NULL` is
reached. -/
theorem not_clean_singlePage :
    ¬ forall (tree : Tree) (rootDirectory : Bytes)
    (counting slurping : Walk tree (rootDirectory ++ [47]))
        (disk : Disk) (draws : Draws) (heap : Heap),
      Clean tree.files.length (johnnySetupFiles counting slurping disk draws heap) := by
  intro always
  have walk : Walk singlePage ([] ++ [47]) := Walk.inOrder _ _
  have clean := always singlePage [] walk walk
    (uniformDisk (ascii "page")) firstByteDraws Heap.empty
  have single : singlePage.files.length = 1 := by decide +kernel
  have nonempty : singlePage.files ≠ [] := by
    intro empty
    rw [empty] at single
    cases single
  exact (usable_of_clean _ _ _ _ _ nonempty clean).several _ _ _ single

end Setup
end Johnny
