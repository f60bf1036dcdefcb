import Johnny.Setup.Encoding
import Johnny.Setup.Files

namespace Johnny
namespace Setup

open Library

/-!
# The two traversals agree

`johnny_setup_files` allocates a table for as many files as `count_files` has
counted, and `johnny_slurps_files` writes to it without a test of the index.
Both counters are `int`s: a sum that passes the largest `int` is not defined.

The writes to `JOHNNY_FILES` are logged with their indices, so that a run says
which entries it has written and for which files.
-/

/-- A count that fits into an `int`. -/
def intCount (count : Nat) : Option Nat :=
  if count ≤ intMax then some count else none

section

variable (readdir : Bytes -> Option (List Bytes)) (lstat : Bytes -> Option FileKind)

/-- `count_files` with its `int` sums. -/
def countFilesInt : Nat -> Bytes -> Option Nat
  | 0, _ => none
  | fuel + 1, dirName =>
      match readdir dirName with
      | none => some 0
      | some names =>
          names.foldlM (fun fileCount name =>
            if isDotEntry name then some fileCount
            else
              let path := dirName ++ name
              match lstat path with
              | none => none
              | some kind =>
                  if kind = .regular then intCount (fileCount + 1)
                  else if kind.isDirectory then
                    (countFilesInt fuel (path ++ [47])).bind (fun below =>
                      intCount (fileCount + below))
                  else some fileCount) 0

end

/-- A write to `JOHNNY_FILES`, with the paths of the file that is stored. -/
structure TableWrite where
  index : Nat
  fullPath : Bytes
  relPath : Bytes
  deriving DecidableEq

/-- The writes so far, the table and the memory. -/
structure Slurping where
  writes : List TableWrite
  johnnyFiles : List (Option JohnnyFile)
  heap : Heap

/-- `JOHNNY_FILES[file_counter] = johnny_slurps_file(full_path, rel_path)` with
the `file_counter++` behind it. -/
def storesFile (disk : Disk) (fileCounter : Nat) (fullPath relPath : Bytes) (state : Slurping) :
    Option Slurping :=
  (slurpsInto disk fileCounter fullPath relPath (state.johnnyFiles, state.heap)).bind (fun stored =>
    (intCount (fileCounter + 1)).map (fun _ =>
      ⟨state.writes ++ [⟨fileCounter, fullPath, relPath⟩], stored.1, stored.2⟩))

/-- Each index of the table is written once, there is one write for each
regular file that readable directories lead to, and the entry at its index is
the one of the file. -/
structure OnePerFile (disk : Disk) (tree : Tree) (rootDirectory : Bytes) (count : Nat)
    (state : Slurping) : Prop where
  indices : state.writes.map TableWrite.index = List.range count
  files : Exists fun files : List FilePath => files.Nodup ∧
    (forall file, file ∈ files <-> tree.LeadsToFile [] file.node) ∧
      state.writes.map (fun write => (write.fullPath, write.relPath)) =
        files.map (fun file => (file.full (rootDirectory ++ [47]), file.relative))
  size : state.johnnyFiles.length = count
  entries : forall write, write ∈ state.writes -> Exists fun entry => Exists fun own =>
    state.johnnyFiles[write.index]? = some (some entry) ∧
      Loadable (disk.access write.fullPath) write.relPath own ∧ Holds state.heap entry own

/-- `johnny_slurps_files` comes to the number that `count_files` came to, and
fills a table of that size. -/
def TraversalsAgree {tree : Tree} {rootDirectory : Bytes}
    (counting slurping : Walk tree (rootDirectory ++ [47])) (disk : Disk) (heap : Heap) : Prop :=
  Exists fun count => Exists fun state =>
    countFilesInt counting.readdir (tree.lstat (rootDirectory ++ [47])) (tree.depth + 1)
        (rootDirectory ++ [47]) = some count ∧
      johnnySlurpsFiles slurping.readdir (tree.lstat (rootDirectory ++ [47])) (storesFile disk)
          (rootDirectory ++ [47]) (tree.depth + 1) [] (0, ⟨[], List.replicate count none, heap⟩) =
        some (count, state) ∧
      OnePerFile disk tree rootDirectory count state

/-- `johnny_slurps_file` gets through for each of the files. -/
def AllLoadable (disk : Disk) (rootDirectory : Bytes) (files : List FilePath) : Prop :=
  forall file, file ∈ files -> Exists fun own =>
    Loadable (disk.access (file.full (rootDirectory ++ [47]))) file.relative own

/-- A loop whose state is checked after each round is a loop whose result is
checked, when a round keeps what fails the check. -/
theorem foldlM_checked {A S : Type} {check : S -> Option S} {body checked : S -> A -> Option S}
    (each : forall item state,
      (check state).bind (fun passed => checked passed item) = (body state item).bind check)
    (items : List A) (state : S) :
    (check state).bind (fun passed => items.foldlM checked passed) =
      (items.foldlM body state).bind check := by
  induction items generalizing state with
  | nil => exact Option.bind_fun_some (check state)
  | cons item rest ih =>
      calc
        (check state).bind (fun passed => (item :: rest).foldlM checked passed) =
            ((check state).bind (fun passed => checked passed item)).bind
              (fun next => rest.foldlM checked next) := (Option.bind_assoc _ _ _).symm
        _ = (body state item).bind (fun next =>
              (check next).bind (fun passed => rest.foldlM checked passed)) := by
            rw [each, Option.bind_assoc]
        _ = (body state item).bind (fun next => (rest.foldlM body next).bind check) := by
            simp only [ih]
        _ = ((item :: rest).foldlM body state).bind check := (Option.bind_assoc _ _ _).symm

theorem intCount_add (first second : Nat) :
    (intCount first).bind (fun passed => intCount (passed + second)) = intCount
    (first + second) := by
  unfold intCount
  by_cases fits : first ≤ intMax
  · rw [if_pos fits, Option.bind_some]
  · rw [if_neg fits, Option.bind_none, if_neg (by omega)]

theorem intCount_add_bind (first second : Nat) :
    (intCount first).bind (fun passed =>
      (intCount second).bind (fun below => intCount (passed + below))) =
      intCount (first + second) := by
  by_cases fits : second ≤ intMax
  · have whole : intCount second = some second := if_pos fits
    simp only [whole, Option.bind_some]
    exact intCount_add first second
  · have large : intCount second = none := if_neg fits
    have sum : intCount (first + second) = none := if_neg (by omega)
    rw [sum, large]
    simp only [Option.bind_none]
    exact Option.bind_fun_none _

/-- In an `int` the same number is counted, if it fits. -/
theorem countFilesInt_eq (readdir : Bytes -> Option (List Bytes)) (lstat : Bytes -> Option FileKind)
    (fuel : Nat) (dirName : Bytes) :
    countFilesInt readdir lstat fuel dirName =
      (countFiles readdir lstat fuel dirName).bind intCount := by
  induction fuel generalizing dirName with
  | zero => rfl
  | succ fuel ih =>
      rw [countFilesInt, countFiles]
      cases readdir dirName with
      | none => rfl
      | some names =>
          change (intCount 0).bind (fun passed => names.foldlM _ passed) = _
          refine foldlM_checked ?_ names 0
          intro name fileCount
          by_cases dot : isDotEntry name = true
          · simp only [if_pos dot]
            exact Option.bind_fun_some _
          · simp only [if_neg dot]
            cases lstat (dirName ++ name) with
            | none => exact Option.bind_fun_none _
            | some kind =>
                dsimp only
                split_ifs
                · exact intCount_add fileCount 1
                · rw [ih]
                  cases countFiles readdir lstat fuel (dirName ++ name ++ [47]) with
                  | none => exact Option.bind_fun_none _
                  | some below => exact intCount_add_bind fileCount below
                · exact Option.bind_fun_some _

theorem countFilesInt_root {tree : Tree} {rootDirectory : Bytes}
    (counting : Walk tree (rootDirectory ++ [47])) :
    countFilesInt counting.readdir (tree.lstat (rootDirectory ++ [47])) (tree.depth + 1)
      (rootDirectory ++ [47]) = intCount tree.files.length := by
  rw [countFilesInt_eq, countFiles_root, Option.bind_some]

/-- The writes for files that are stored from an index on. -/
def writesFrom (rootDirectory : Bytes) : Nat -> List FilePath -> List TableWrite
  | _, [] => []
  | index, file :: rest =>
      ⟨index, file.full (rootDirectory ++ [47]), file.relative⟩ :: writesFrom rootDirectory
        (index + 1) rest

theorem writesFrom_index (rootDirectory : Bytes) (index : Nat) (files : List FilePath) :
    (writesFrom rootDirectory index files).map TableWrite.index =
      List.range' index files.length := by
  induction files generalizing index with
  | nil => rfl
  | cons file rest ih =>
      rw [writesFrom, List.map_cons, ih, List.length_cons, List.range'_succ]

theorem writesFrom_files (rootDirectory : Bytes) (index : Nat) (files : List FilePath) :
    (writesFrom rootDirectory index files).map (fun write => (write.fullPath, write.relPath)) =
      files.map (fun file => (file.full (rootDirectory ++ [47]), file.relative)) := by
  induction files generalizing index with
  | nil => rfl
  | cons file rest ih => rw [writesFrom, List.map_cons, ih, List.map_cons]

/-- One round of `johnny_slurps_files` for a regular file, with its log. -/
def storesNext (disk : Disk) (rootDirectory : Bytes) (state : Nat × Slurping) (file : FilePath) :
    Option (Nat × Slurping) :=
  (storesFile disk state.1 (file.full (rootDirectory ++ [47])) file.relative state.2).map
    (fun stored => (state.1 + 1, stored))

/-- A round stores the file and counts it, if the counter can be increased. -/
theorem storesNext_eq (disk : Disk) (rootDirectory : Bytes) (index : Nat) (state : Slurping)
    (file : FilePath) : storesNext disk rootDirectory (index, state) file =
      (slurpsNext disk rootDirectory (index, state.johnnyFiles, state.heap) file).bind (fun next =>
        (intCount (index + 1)).map (fun _ =>
          (next.1, ⟨state.writes ++ [⟨index, file.full (rootDirectory ++ [47]), file.relative⟩],
            next.2.1, next.2.2⟩))) := by
  unfold storesNext storesFile slurpsNext
  dsimp only
  cases slurpsInto disk index (file.full (rootDirectory ++ [47])) file.relative
      (state.johnnyFiles, state.heap) with
  | none => rfl
  | some stored =>
      rw [Option.bind_some, Option.map_some, Option.bind_some, Option.map_map]
      rfl

/-- All files are stored one behind the other, if their number can be counted.
The induction is on the files that are left. -/
theorem storesAll_eq (disk : Disk) (rootDirectory : Bytes) (files : List FilePath) {index : Nat}
    (counted : index ≤ intMax) (state : Slurping) :
    files.foldlM (storesNext disk rootDirectory) (index, state) =
      (files.foldlM (slurpsNext disk rootDirectory) (index, state.johnnyFiles, state.heap)).bind
      (fun last =>
        (intCount (index + files.length)).map (fun _ =>
          (last.1,
            ⟨state.writes ++ writesFrom rootDirectory index files, last.2.1, last.2.2⟩))) := by
  induction files generalizing index state with
  | nil =>
      have fits : intCount (index + ([] : List FilePath).length) = some index := if_pos counted
      rw [fits, writesFrom, List.append_nil]
      rfl
  | cons file rest ih =>
      rw [List.foldlM_cons, List.foldlM_cons, storesNext_eq]
      cases slurped : slurpsNext disk rootDirectory (index, state.johnnyFiles, state.heap) file with
      | none => rfl
      | some next =>
          have counter : next.1 = index + 1 := by
            rcases Option.map_eq_some_iff.mp slurped with ⟨-, -, rfl⟩
            rfl
          have behind : index + (file :: rest).length = index + 1 + rest.length := by
            rw [List.length_cons]
            omega
          rw [behind]
          by_cases fits : index + 1 ≤ intMax
          · have step : intCount (index + 1) = some (index + 1) := if_pos fits
            have later := ih fits ⟨state.writes ++
              [⟨index, file.full (rootDirectory ++ [47]), file.relative⟩],
              next.2.1, next.2.2⟩
            rcases next with ⟨after, table, heap⟩
            dsimp only at counter later
            subst counter
            rw [step]
            refine later.trans ?_
            rw [List.append_assoc]
            rfl
          · have step : intCount (index + 1) = none := if_neg fits
            have sum : intCount (index + 1 + rest.length) = none := if_neg (by omega)
            rw [step, sum]
            exact (Option.bind_fun_none _).symm

theorem johnnySlurpsFiles_storesNext {tree : Tree} {rootDirectory : Bytes}
    (slurping : Walk tree (rootDirectory ++ [47])) (disk : Disk) (state : Nat × Slurping) :
    johnnySlurpsFiles slurping.readdir (tree.lstat (rootDirectory ++ [47])) (storesFile disk)
        (rootDirectory ++ [47]) (tree.depth + 1) [] state =
      (slurping.found (tree.depth + 1) []).foldlM (storesNext disk rootDirectory) state :=
  slurping.johnnySlurpsFiles_eq (storesFile disk) (tree.depth + 1) noNames_valid (Nat.zero_le _)
    (by simp) state

/-! ## When the traversals agree -/

theorem servable_of_allLoadable {disk : Disk} {rootDirectory : Bytes} {files : List FilePath}
    (loadable : AllLoadable disk rootDirectory files) :
    Exists fun served => Servable disk rootDirectory files served := by
  induction files with
  | nil => exact ⟨[], List.Forall₂.nil⟩
  | cons file rest ih =>
      rcases loadable file List.mem_cons_self with ⟨own, loads⟩
      rcases ih (fun other member => loadable other (List.mem_cons_of_mem _ member))
        with ⟨served, servable⟩
      exact ⟨own :: served, List.Forall₂.cons loads servable⟩

theorem allLoadable_of_servable {disk : Disk} {rootDirectory : Bytes} {files : List FilePath}
    {served : List ServedFile} (servable : Servable disk rootDirectory files served) :
    AllLoadable disk rootDirectory files := by
  induction servable with
  | nil => exact fun file member => by cases member
  | @cons file own rest served loads _ ih =>
      intro other member
      rcases List.mem_cons.mp member with rfl | later
      · exact ⟨own, loads⟩
      · exact ih other later

/-- The entry at the index of a write is the one of its file. -/
theorem writesFrom_entries {disk : Disk} {rootDirectory : Bytes} {heap : Heap}
    {files : List FilePath} {served : List ServedFile}
    (servable : Servable disk rootDirectory files served)
    {entries : List JohnnyFile} (holds : List.Forall₂ (Holds heap) entries served)
    (before : List JohnnyFile) :
    forall write, write ∈ writesFrom rootDirectory before.length files ->
      Exists fun entry => Exists fun own =>
        ((before ++ entries).map some)[write.index]? = some (some entry) ∧
          Loadable (disk.access write.fullPath) write.relPath own ∧ Holds heap entry own := by
  induction servable generalizing entries before with
  | nil => exact fun write member => by cases member
  | @cons file own rest served loads _ ih =>
      cases holds with
      | @cons entry _ entries _ held holds =>
          intro write member
          rcases List.mem_cons.mp member with rfl | later
          · refine ⟨entry, own, ?_, loads, held⟩
            dsimp only
            rw [List.getElem?_map, List.getElem?_append_right (Nat.le_refl _), Nat.sub_self]
            rfl
          · have next := ih holds (before ++ [entry])
            rw [List.length_append, List.append_assoc] at next
            exact next write later

section

variable {tree : Tree} {rootDirectory : Bytes}
  (counting slurping : Walk tree (rootDirectory ++ [47]))
variable (disk : Disk) (heap : Heap)

theorem traversalsAgree_of_loadable (small : tree.files.length ≤ intMax)
    (loadable : AllLoadable disk rootDirectory tree.files) :
      TraversalsAgree counting slurping disk heap := by
  have found := slurping.found_perm (tree.depth + 1) noNames_valid
  have sizes := found_length slurping
  rcases servable_of_allLoadable (fun file member => loadable file (found.mem_iff.mp member)) with
    ⟨served, servable⟩
  rcases slurps_eq slurping disk heap servable with ⟨entries, after, slurps, slurped⟩
  rw [johnnySlurpsFiles_slurpsNext] at slurps
  have fits : intCount tree.files.length = some tree.files.length := if_pos small
  refine ⟨tree.files.length, ⟨writesFrom rootDirectory 0 (slurping.found (tree.depth + 1) []),
    entries.map some, after⟩, ?_, ?_, ?_⟩
  · rw [countFilesInt_root, fits]
  · rw [johnnySlurpsFiles_storesNext, storesAll_eq disk rootDirectory _ (Nat.zero_le _), slurps,
      Nat.zero_add, sizes, fits]
    rfl
  · refine ⟨?_, ?_, ?_, ?_⟩
    · rw [writesFrom_index, sizes, List.range_eq_range']
    · refine ⟨slurping.found (tree.depth + 1) [], found.nodup_iff.mpr (tree.filesBelow_nodup _ _),
        ?_,
        writesFrom_files _ _ _⟩
      intro file
      rw [found.mem_iff]
      exact tree.mem_files
    · rw [List.length_map, slurped.holds.length_eq, ← servable.length_eq, sizes]
    · exact writesFrom_entries servable slurped.holds []

theorem loadable_of_traversalsAgree (agree : TraversalsAgree counting slurping disk heap) :
    tree.files.length ≤ intMax ∧ AllLoadable disk rootDirectory tree.files := by
  rcases agree with ⟨count, state, counts, slurps, -⟩
  have found := slurping.found_perm (tree.depth + 1) noNames_valid
  constructor
  · rw [countFilesInt_root] at counts
    by_contra large
    have none : intCount tree.files.length = none := if_neg large
    rw [none] at counts
    cases counts
  · rw [johnnySlurpsFiles_storesNext, storesAll_eq disk rootDirectory _ (Nat.zero_le _)] at slurps
    rcases Option.bind_eq_some_iff.mp slurps with ⟨last, through, -⟩
    rcases servable_of_slurpsAll through with ⟨served, servable⟩
    intro file member
    exact allLoadable_of_servable servable file (found.mem_iff.mpr member)

end

/-- For every tree and every order of `readdir` in both passes, the traversals
agree exactly when the regular files can be counted in an `int` and each of
them can be loaded. -/
theorem traversalsAgree_iff (tree : Tree) (rootDirectory : Bytes)
    (counting slurping : Walk tree (rootDirectory ++ [47])) (disk : Disk) (heap : Heap) :
    TraversalsAgree counting slurping disk heap <->
      tree.files.length ≤ intMax ∧ AllLoadable disk rootDirectory tree.files :=
  ⟨loadable_of_traversalsAgree counting slurping disk heap,
    fun ⟨small, loadable⟩ => traversalsAgree_of_loadable counting slurping disk heap small loadable⟩

theorem flatTree_files (names : List Bytes) (valid : forall name, name ∈ names -> ValidName name)
    (nodup : names.Nodup) : (flatTree names valid nodup).files = names.map
    (fun name => ⟨[], name⟩) := by
  have child : forall name, (flatTree names valid nodup).kind ([] ++ [name]) = .regular :=
    fun _ => rfl
  have root : (flatTree names valid nodup).kind [] = .directory := rfl
  have children : (flatTree names valid nodup).children [] = names := rfl
  unfold Tree.files
  rw [Tree.filesBelow, if_pos root, children]
  simp only [child, if_true]
  exact List.flatMap_pure_eq_map _ names

theorem binaryDigits_valid {width : Nat} (positive : 0 < width) (number : Nat) :
    ValidName (binaryDigits width number) := by
  have absent : forall byte : UInt8, byte ≠ 48 -> byte ≠ 49 ->
      byte ∉ binaryDigits width number := by
    intro byte notZero notOne member
    rcases binaryDigits_mem member with zero | one
    · exact notZero zero
    · exact notOne one
  have noDot := absent 46 (by decide) (by decide)
  refine ⟨?_, absent 47 (by decide) (by decide), absent 0 (by decide) (by decide), ?_, ?_⟩
  · intro empty
    have length := binaryDigits_length width number
    rw [empty, List.length_nil] at length
    omega
  · intro dot
    rw [dot] at noDot
    exact noDot (List.mem_singleton_self _)
  · intro dots
    rw [dots] at noDot
    exact noDot List.mem_cons_self

/-- The names from `00…0` to `11…1`. -/
def digitNames (width : Nat) : List Bytes :=
  (List.range (2 ^ width)).map (binaryDigits width)

theorem digitNames_valid {width : Nat} (positive : 0 < width) :
    forall name, name ∈ digitNames width -> ValidName name := by
  intro name member
  rcases List.mem_map.mp member with ⟨number, -, rfl⟩
  exact binaryDigits_valid positive number

theorem digitNames_nodup (width : Nat) : (digitNames width).Nodup := by
  apply List.Nodup.map_on _ List.nodup_range
  intro first firstMember second secondMember same
  exact binaryDigits_injective (List.mem_range.mp firstMember) (List.mem_range.mp secondMember) same

theorem digitNames_key {width : Nat} {name : Bytes} (member : name ∈ digitNames width) :
    Exists fun key => fileKey name = some key := by
  rcases List.mem_map.mp member with ⟨number, -, rfl⟩
  apply urlEncode_of_ascii
  intro byte inName
  rcases binaryDigits_mem ((classifies_initial _).mem inName) with rfl | rfl
  · decide
  · decide

/-- A directory with `2 ^ width` files. -/
def digitFiles (width : Nat) (positive : 0 < width) : Tree :=
  flatTree (digitNames width) (digitNames_valid positive) (digitNames_nodup width)

theorem digitFiles_length (width : Nat) (positive : 0 < width) :
    (digitFiles width positive).files.length = 2 ^ width := by
  unfold digitFiles
  rw [flatTree_files, List.length_map]
  unfold digitNames
  rw [List.length_map, List.length_range]

/-- Files with short names and little in them can be loaded. -/
theorem digitFiles_loadable {width : Nat} (positive : 0 < width) (short : width + 2 < pathMax) :
    AllLoadable (uniformDisk (ascii "page")) [] (digitFiles width positive).files := by
  intro file member
  unfold digitFiles at member
  rw [flatTree_files] at member
  rcases List.mem_map.mp member with ⟨name, inNames, rfl⟩
  rcases digitNames_key inNames with ⟨key, encodes⟩
  rcases List.mem_map.mp inNames with ⟨number, -, rfl⟩
  refine ⟨_, uniformDisk_loadable ?_ encodes (by decide)⟩
  have path : FilePath.full ([] ++ [47]) ⟨[], binaryDigits width number⟩ =
      47 :: 47 :: binaryDigits width number := rfl
  rw [path, List.length_cons, List.length_cons, binaryDigits_length]
  exact short

/-- A disk on which no file can be opened. -/
def closedDisk : Disk where
  access := fun _ => ⟨false, none, [], false⟩
  tooLong := fun _ _ => rfl

/-- With `2 ^ 31` files in one directory the counters pass the largest `int`,
although each file can be loaded; with a single file the walk ends in
`johnny_slurps_file`, if the file cannot be opened. -/
theorem not_traversalsAgree_digitFiles :
    (¬ forall (tree : Tree) (rootDirectory : Bytes)
        (counting slurping : Walk tree (rootDirectory ++ [47])) (disk : Disk) (heap : Heap),
      AllLoadable disk rootDirectory tree.files -> TraversalsAgree counting slurping disk heap) ∧
    (¬ forall (tree : Tree) (rootDirectory : Bytes)
        (counting slurping : Walk tree (rootDirectory ++ [47])) (disk : Disk) (heap : Heap),
      tree.files.length ≤ intMax -> TraversalsAgree counting slurping disk heap) := by
  constructor
  · intro always
    have walk : Walk (digitFiles 31 (by decide)) ([] ++ [47]) := Walk.inOrder _ _
    have agree := always _ [] walk walk (uniformDisk (ascii "page")) Heap.empty
      (digitFiles_loadable (by decide) (by decide))
    have counted := (loadable_of_traversalsAgree walk walk _ _ agree).1
    rw [digitFiles_length] at counted
    exact absurd counted (by decide)
  · intro always
    have walk : Walk singlePage ([] ++ [47]) := Walk.inOrder _ _
    have agree := always _ [] walk walk closedDisk Heap.empty (by decide)
    have loadable := (loadable_of_traversalsAgree walk walk _ _ agree).2
    rcases loadable ⟨[], ascii "index.html"⟩ (by decide) with ⟨own, loads⟩
    rcases loads.response with ⟨contents, readable, -⟩
    cases readable.opens

end Setup
end Johnny
