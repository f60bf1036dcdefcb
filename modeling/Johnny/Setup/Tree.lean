import Johnny.Library.Paths
import Johnny.Setup.FileNames
import Mathlib.Data.List.Nodup
import Mathlib.Data.List.Perm.Basic

namespace Johnny
namespace Setup

open Library

/-!
# The two walks over the directory tree

`count_files` and `johnny_slurps_files` walk the same tree and build their
paths in different ways: one keeps a slash behind the directory it is in, the
other joins the root, the relative directory, one more slash and the name.
Both are compared with the regular files of the tree itself.

The file system is a tree below the root path.  A walk sees it through
`readdir`, which lists the names of a directory in any order, the two dot
entries among them, and through `lstat`.
-/

/-- What `lstat` tells about a path, and for a directory whether it can be
opened. -/
inductive FileKind
  | regular
  | directory
  | closedDirectory
  | symlink
  | special
  deriving DecidableEq

def FileKind.isDirectory : FileKind -> Bool
  | .directory => true
  | .closedDirectory => true
  | _ => false

/-- A name that can stand in a directory. -/
structure ValidName (name : Bytes) : Prop where
  nonempty : name ≠ []
  noSlash : 47 ∉ name
  noNul : 0 ∉ name
  notDot : name ≠ [46]
  notDotDot : name ≠ [46, 46]

instance (name : Bytes) : Decidable (ValidName name) :=
  decidable_of_iff (name ≠ [] ∧ 47 ∉ name ∧ 0 ∉ name ∧ name ≠ [46] ∧ name ≠ [46, 46])
    ⟨fun ⟨nonempty, noSlash, noNul, notDot, notDotDot⟩ =>
      ⟨nonempty, noSlash, noNul, notDot, notDotDot⟩,
      fun valid => ⟨valid.nonempty, valid.noSlash, valid.noNul, valid.notDot, valid.notDotDot⟩⟩

/-- The root has no names above it. -/
theorem noNames_valid : forall name, name ∈ ([] : List Bytes) -> ValidName name :=
  fun name member => by cases member

/-- A finite directory tree.  Nodes are named by their components below the
root. -/
structure Tree where
  kind : List Bytes -> FileKind
  children : List Bytes -> List Bytes
  valid : forall node name, name ∈ children node -> ValidName name
  nodup : forall node, (children node).Nodup
  depth : Nat
  bounded : forall node, depth ≤ node.length -> children node = []

/-- The components of a path below the root path. -/
def Tree.below (root path : Bytes) : Option (List Bytes) :=
  let rootComponents := components 47 root
  let pathComponents := components 47 path
  if rootComponents <+: pathComponents then some (pathComponents.drop rootComponents.length)
  else none

def Tree.lstat (tree : Tree) (root path : Bytes) : Option FileKind :=
  (Tree.below root path).map tree.kind

/-- What `opendir` and `readdir` give during one walk. -/
structure Walk (tree : Tree) (root : Bytes) where
  readdir : Bytes -> Option (List Bytes)
  lists : forall path node, Tree.below root path = some node -> tree.kind node = .directory ->
    Exists fun names => readdir path = some names ∧
      names.Perm ([46] :: [46, 46] :: tree.children node)
  fails : forall path node, Tree.below root path = some node -> tree.kind node ≠ .directory ->
    readdir path = none

/-- The walk that lists the dot entries first and then the children as the tree
has them. -/
def Walk.inOrder (tree : Tree) (root : Bytes) : Walk tree root where
  readdir := fun path =>
    match Tree.below root path with
    | none => none
    | some node =>
        if tree.kind node = .directory then some ([46] :: [46, 46] :: tree.children node) else none
  lists := by
    intro path node below isDirectory
    refine ⟨_, ?_, List.Perm.refl _⟩
    rw [below]
    exact if_pos isDirectory
  fails := by
    intro path node below other
    rw [below]
    exact if_neg other

/-- A directory with regular files and nothing else. -/
def flatTree (names : List Bytes) (valid : forall name, name ∈ names -> ValidName name)
    (nodup : names.Nodup) : Tree where
  kind := fun node => if node = [] then .directory else .regular
  children := fun node => if node = [] then names else []
  valid := by
    intro node name member
    split_ifs at member
    · exact valid name member
    · cases member
  nodup := by
    intro node
    split_ifs
    · exact nodup
    · exact List.nodup_nil
  depth := 1
  bounded := by
    intro node deep
    rw [if_neg]
    intro empty
    rw [empty] at deep
    exact absurd deep (by decide)

def isDotEntry (name : Bytes) : Bool :=
  decide (name = [46] ∨ name = [46, 46])

section

variable (readdir : Bytes -> Option (List Bytes)) (lstat : Bytes -> Option FileKind)

/-- `count_files`.  The fuel bounds the depth of the recursion. -/
def countFiles : Nat -> Bytes -> Option Nat
  | 0, _ => none
  | fuel + 1, dirName =>
      match readdir dirName with
      | none => some 0
      | some names =>
          names.foldlM (fun fileCount name =>
            if isDotEntry name then some fileCount
            else
              let path := dirName ++ name
              match lstat path with
              | none => none
              | some kind =>
                  if kind = .regular then some (fileCount + 1)
                  else if kind.isDirectory then
                    (countFiles fuel (path ++ [47])).map (fun below => fileCount + below)
                  else some fileCount) 0

/-- `johnny_slurps_files`, for any meaning of storing the file with a full and
a relative path at an index of `JOHNNY_FILES`. -/
def johnnySlurpsFiles {S : Type} (slurpsFile : Nat -> Bytes -> Bytes -> S -> Option S)
    (baseDir : Bytes) : Nat -> Bytes -> Nat × S -> Option (Nat × S)
  | 0, _, _ => none
  | fuel + 1, relDir, state =>
      let dirPath := baseDir ++ relDir
      match readdir dirPath with
      | none => some state
      | some names =>
          names.foldlM (fun state name =>
            if isDotEntry name then some state
            else
              let fullPath := dirPath ++ 47 :: name
              match lstat fullPath with
              | none => none
              | some kind =>
                  if kind = .regular then
                    (slurpsFile state.1 fullPath (relDir ++ name) state.2).map
                      (fun slurped => (state.1 + 1, slurped))
                  else if kind.isDirectory then
                    johnnySlurpsFiles slurpsFile baseDir fuel (relDir ++ name ++ [47]) state
                  else some state) state

end

/-- A file by the components of its directory and its own name. -/
structure FilePath where
  directory : List Bytes
  name : Bytes
  deriving DecidableEq

namespace FilePath

def node (file : FilePath) : List Bytes :=
  file.directory ++ [file.name]

/-- The path that `johnny_slurps_files` makes the key from. -/
def relative (file : FilePath) : Bytes :=
  joinNames 47 file.directory ++ file.name

/-- The path that `johnny_slurps_files` opens. -/
def full (root : Bytes) (file : FilePath) : Bytes :=
  root ++ joinNames 47 file.directory ++ 47 :: file.name

end FilePath

namespace Tree

variable (tree : Tree)

/-- The regular files below a node. -/
def filesBelow : Nat -> List Bytes -> List FilePath
  | 0, _ => []
  | fuel + 1, node =>
      if tree.kind node = .directory then
        (tree.children node).flatMap (fun name =>
          if tree.kind (node ++ [name]) = .regular then [⟨node, name⟩]
          else if (tree.kind (node ++ [name])).isDirectory then filesBelow fuel (node ++ [name])
          else [])
      else []

/-- All regular files that can be reached through readable directories. -/
def files : List FilePath :=
  tree.filesBelow (tree.depth + 1) []

/-- The names below a node lead through readable directories to a regular
file. -/
def LeadsToFile : List Bytes -> List Bytes -> Prop
  | node, [] => tree.kind node = .regular
  | node, name :: rest => tree.kind node = .directory ∧ name ∈ tree.children node ∧
      LeadsToFile (node ++ [name]) rest

theorem length_lt_depth {node : List Bytes} {name : Bytes} (child : name ∈ tree.children node) :
    node.length < tree.depth := by
  by_contra deep
  rw [tree.bounded node (Nat.not_lt.mp deep)] at child
  cases child

theorem LeadsToFile.length_le {tree : Tree} {node names : List Bytes}
    (leads : tree.LeadsToFile node names)
    (above : node.length ≤ tree.depth) : node.length + names.length ≤ tree.depth := by
  induction names generalizing node with
  | nil => exact above
  | cons name rest ih =>
      rcases leads with ⟨-, child, later⟩
      have deeper := tree.length_lt_depth child
      have length := ih later (by rw [List.length_append]; exact deeper)
      rw [List.length_append, List.length_singleton] at length
      rw [List.length_cons]
      omega

/-- The files below a node are those that its names lead to. -/
theorem LeadsToFile.isDirectory {tree : Tree} {node names : List Bytes} {name : Bytes}
    (leads : tree.LeadsToFile node (names ++ [name])) : tree.kind node = .directory := by
  cases names with
  | nil => exact leads.1
  | cons next rest => exact leads.1

theorem mem_filesBelow {fuel : Nat} {node : List Bytes} {file : FilePath} :
    file ∈ tree.filesBelow fuel node <->
      Exists fun names => names.length < fuel ∧ file.directory = node ++ names ∧
        tree.LeadsToFile node (names ++ [file.name]) := by
  induction fuel generalizing node with
  | zero =>
      refine iff_of_false List.not_mem_nil ?_
      rintro ⟨names, short, -⟩
      exact Nat.not_lt_zero _ short
  | succ fuel ih =>
      rw [filesBelow]
      constructor
      · intro member
        split_ifs at member with isDirectory
        · rcases List.mem_flatMap.mp member with ⟨name, child, inChild⟩
          split_ifs at inChild with regular directory
          · rw [List.mem_singleton.mp inChild]
            exact ⟨[], Nat.succ_pos _, (List.append_nil _).symm, isDirectory, child, regular⟩
          · rcases ih.mp inChild with ⟨names, short, below, leads⟩
            refine ⟨name :: names, Nat.succ_lt_succ short, ?_, isDirectory, child, leads⟩
            rw [below, List.append_assoc]
            rfl
          · cases inChild
        · cases member
      · rintro ⟨names, short, below, leads⟩
        cases names with
        | nil =>
            rcases leads with ⟨isDirectory, child, regular⟩
            rw [if_pos isDirectory]
            refine List.mem_flatMap.mpr ⟨file.name, child, ?_⟩
            have regular : tree.kind (node ++ [file.name]) = .regular := regular
            rw [if_pos regular, List.mem_singleton]
            rw [List.append_nil] at below
            rw [← below]
        | cons name rest =>
            rcases leads with ⟨isDirectory, child, later⟩
            have inner := later.isDirectory
            rw [if_pos isDirectory]
            refine List.mem_flatMap.mpr ⟨name, child, ?_⟩
            rw [inner, if_neg (by decide), if_pos (by rfl : FileKind.directory.isDirectory = true)]
            refine ih.mpr ⟨rest, Nat.lt_of_succ_lt_succ short, ?_, later⟩
            rw [below, List.append_assoc]
            rfl

theorem mem_files {file : FilePath} : file ∈ tree.files <-> tree.LeadsToFile [] file.node := by
  unfold files
  rw [mem_filesBelow]
  constructor
  · rintro ⟨names, -, below, leads⟩
    rw [List.nil_append] at below
    rw [FilePath.node, below]
    exact leads
  · intro leads
    refine ⟨file.directory, ?_, rfl, leads⟩
    have length := leads.length_le (Nat.zero_le _)
    rw [FilePath.node, List.length_append, List.length_nil, List.length_singleton] at length
    omega

theorem filesBelow_node {fuel : Nat} {node : List Bytes} {file : FilePath}
    (member : file ∈ tree.filesBelow fuel node) :
    Exists fun name => name ∈ tree.children node ∧ node ++ [name] <+: file.node := by
  induction fuel generalizing node with
  | zero => cases member
  | succ fuel ih =>
      rw [filesBelow] at member
      split_ifs at member with isDirectory
      · rcases List.mem_flatMap.mp member with ⟨name, child, inChild⟩
        refine ⟨name, child, ?_⟩
        split_ifs at inChild
        · rw [List.mem_singleton.mp inChild]
          exact List.prefix_refl _
        · rcases ih inChild with ⟨next, -, start⟩
          exact (List.prefix_append _ _).trans start
        · cases inChild
      · cases member

/-- Files have valid names all along their paths. -/
theorem filesBelow_valid {fuel : Nat} {node : List Bytes}
    (valid : forall name, name ∈ node -> ValidName name) {file : FilePath}
    (member : file ∈ tree.filesBelow fuel node) :
      forall name, name ∈ file.node -> ValidName name := by
  induction fuel generalizing node with
  | zero => cases member
  | succ fuel ih =>
      rw [filesBelow] at member
      split_ifs at member with isDirectory
      · rcases List.mem_flatMap.mp member with ⟨name, child, inChild⟩
        have childValid : forall other, other ∈ node ++ [name] -> ValidName other := by
          intro other inNode
          rcases List.mem_append.mp inNode with above | own
          · exact valid other above
          · rw [List.mem_singleton.mp own]
            exact tree.valid node name child
        split_ifs at inChild
        · rw [List.mem_singleton.mp inChild]
          exact childValid
        · exact ih childValid inChild
        · cases inChild
      · cases member

theorem filesBelow_nodup (fuel : Nat) (node : List Bytes) : (tree.filesBelow fuel node).Nodup := by
  induction fuel generalizing node with
  | zero => exact List.nodup_nil
  | succ fuel ih =>
      rw [filesBelow]
      split_ifs with isDirectory
      · -- Whatever is found through a child starts with the path of the child.
        have starts : forall name file, file ∈
            (if tree.kind (node ++ [name]) = .regular then [⟨node, name⟩]
            else if (tree.kind (node ++ [name])).isDirectory then
              tree.filesBelow fuel (node ++ [name])
            else []) -> node ++ [name] <+: file.node := by
          intro name file inChild
          split_ifs at inChild
          · rw [List.mem_singleton.mp inChild]
            exact List.prefix_refl _
          · rcases tree.filesBelow_node inChild with ⟨next, -, start⟩
            exact (List.prefix_append _ _).trans start
          · cases inChild
        apply List.nodup_flatMap.mpr
        constructor
        · intro name _
          split_ifs
          · exact List.nodup_singleton _
          · exact ih _
          · exact List.nodup_nil
        · apply (tree.nodup node).imp
          intro first second different file inFirst inSecond
          have same := List.prefix_of_prefix_length_le (starts first file inFirst)
            (starts second file inSecond)
            (by simp)
          have equal := List.IsPrefix.eq_of_length same (by simp)
          exact different (List.append_cancel_left equal |> List.cons.inj |>.1)
      · exact List.nodup_nil

/-- A relative path determines its file. -/
theorem components_relative {file : FilePath}
    (valid : forall name, name ∈ file.node -> ValidName name) :
    components 47 file.relative = file.node := by
  have own := valid file.name (List.mem_append_right _ (List.mem_singleton_self _))
  unfold FilePath.relative FilePath.node
  rw [components_joinNames, components_name own.noSlash own.nonempty]
  intro name member
  have above := valid name (List.mem_append_left _ member)
  exact ⟨above.noSlash, above.nonempty⟩

theorem relative_nodup : (tree.files.map FilePath.relative).Nodup := by
  apply List.Nodup.map_on _ (tree.filesBelow_nodup _ _)
  intro first firstMember second secondMember same
  have firstNode := components_relative (tree.filesBelow_valid noNames_valid firstMember)
  have secondNode := components_relative (tree.filesBelow_valid noNames_valid secondMember)
  have nodes : first.directory ++ [first.name] = second.directory ++ [second.name] := by
    have equal : first.node = second.node := by rw [← firstNode, ← secondNode, same]
    exact equal
  rcases List.append_inj' nodes rfl with ⟨directories, names⟩
  cases first
  cases second
  dsimp only at directories names
  rw [directories, (List.cons.inj names).1]

/-- Behind a root path that ends with a slash, the rest of a path gives the
components below the root. -/
theorem below_append (rootDirectory rest : Bytes) :
    Tree.below (rootDirectory ++ [47]) (rootDirectory ++ [47] ++ rest) =
      some (components 47 rest) := by
  have rootComponents : components 47 (rootDirectory ++ [47]) = components 47 rootDirectory := by
    have cut := @components_append UInt8 47 _ rootDirectory []
    rw [components_nil, List.append_nil] at cut
    exact cut
  have pathComponents : components 47 (rootDirectory ++ [47] ++ rest) =
      components 47 rootDirectory ++ components 47 rest := by
    rw [List.append_assoc]
    exact components_append rootDirectory rest
  unfold Tree.below
  dsimp only
  rw [rootComponents, pathComponents, if_pos (List.prefix_append _ _), List.drop_left]

end Tree

section

variable {tree : Tree} {rootDirectory : Bytes}

theorem components_directory {node : List Bytes}
    (valid : forall name, name ∈ node -> ValidName name) :
    components 47 (joinNames 47 node) = node := by
  have joined := @components_joinNames UInt8 47 _ node
    (fun name member => ⟨(valid name member).noSlash, (valid name member).nonempty⟩) []
  rwa [List.append_nil, components_nil, List.append_nil] at joined

/-- One slash more between directory and name makes no difference. -/
theorem components_child {node : List Bytes} {name : Bytes}
    (valid : forall name, name ∈ node -> ValidName name) (own : ValidName name) :
    components 47 (joinNames 47 node ++ name) = node ++ [name] ∧
      components 47 (joinNames 47 node ++ 47 :: name) = node ++ [name] := by
  have plain : forall name, name ∈ node -> (47 : UInt8) ∉ name ∧ name ≠ [] :=
    fun name member => ⟨(valid name member).noSlash, (valid name member).nonempty⟩
  constructor
  · rw [components_joinNames plain, components_name own.noSlash own.nonempty]
  · have cut := @components_append UInt8 47 _ [] name
    rw [components_joinNames plain]
    rw [List.nil_append, components_nil, List.nil_append,
      components_name own.noSlash own.nonempty] at cut
    rw [cut]

end

/-! ## What a walk finds -/

/-- A loop over names, each standing for a list of files, is a loop over the
files. -/
theorem foldlM_flatMap {A B S : Type} {step : S -> B -> Option S} {below : A -> List B}
    {body : S -> A -> Option S} (items : List A)
    (each : forall item, item ∈ items -> forall state,
      body state item = (below item).foldlM step state) (state : S) :
        items.foldlM body state = (items.flatMap below).foldlM step state := by
  induction items generalizing state with
  | nil => rfl
  | cons item rest ih =>
      rw [List.foldlM_cons, List.flatMap_cons, List.foldlM_append, each item List.mem_cons_self]
      congr 1
      funext next
      exact ih (fun other member => each other (List.mem_cons_of_mem _ member)) next

theorem foldlM_count {A : Type} (items : List A) (start : Nat) :
    items.foldlM (fun count _ => some (count + 1)) start = some (start + items.length) := by
  induction items generalizing start with
  | nil => rfl
  | cons item rest ih =>
      rw [List.foldlM_cons, List.length_cons]
      exact (ih (start + 1)).trans (by rw [Nat.add_assoc, Nat.add_comm 1])

namespace Walk

variable {tree : Tree} {rootDirectory : Bytes} (walk : Walk tree (rootDirectory ++ [47]))

/-- The files a walk finds, in the order of its `readdir`. -/
def found : Nat -> List Bytes -> List FilePath
  | 0, _ => []
  | fuel + 1, node =>
      match walk.readdir (rootDirectory ++ [47] ++ joinNames 47 node) with
      | none => []
      | some names =>
          names.flatMap (fun name =>
            if isDotEntry name then []
            else if tree.kind (node ++ [name]) = .regular then [⟨node, name⟩]
            else if (tree.kind (node ++ [name])).isDirectory then found fuel (node ++ [name])
            else [])

/-- The names that `readdir` gives for a valid node. -/
theorem readdir_eq {node : List Bytes} (valid : forall name, name ∈ node -> ValidName name) :
    (tree.kind node = .directory ∧ Exists fun names =>
      walk.readdir (rootDirectory ++ [47] ++ joinNames 47 node) = some names ∧
        names.Perm ([46] :: [46, 46] :: tree.children node)) ∨
    (tree.kind node ≠ .directory ∧ walk.readdir (rootDirectory ++ [47] ++ joinNames 47 node) =
      none) := by
  have below := Tree.below_append rootDirectory (joinNames 47 node)
  rw [components_directory valid] at below
  by_cases isDirectory : tree.kind node = .directory
  · exact Or.inl ⟨isDirectory, walk.lists _ _ below isDirectory⟩
  · exact Or.inr ⟨isDirectory, walk.fails _ _ below isDirectory⟩

/-- An entry that is no dot entry is a child. -/
theorem child_of_entry {node : List Bytes} {names : List Bytes} {name : Bytes}
    (listed : names.Perm ([46] :: [46, 46] :: tree.children node)) (member : name ∈ names)
    (plain : isDotEntry name = false) : name ∈ tree.children node := by
  have noDot := of_decide_eq_false plain
  rcases List.mem_cons.mp (listed.mem_iff.mp member) with dot | rest
  · exact absurd (Or.inl dot) noDot
  · rcases List.mem_cons.mp rest with dots | child
    · exact absurd (Or.inr dots) noDot
    · exact child

theorem isDotEntry_of_valid {name : Bytes} (valid : ValidName name) : isDotEntry name = false := by
  apply decide_eq_false
  rintro (dot | dots)
  · exact valid.notDot dot
  · exact valid.notDotDot dots

theorem valid_child {node : List Bytes} (valid : forall name, name ∈ node -> ValidName name)
    {name : Bytes} (child : name ∈ tree.children node) :
    forall other, other ∈ node ++ [name] -> ValidName other := by
  intro other member
  rcases List.mem_append.mp member with above | own
  · exact valid other above
  · rw [List.mem_singleton.mp own]
    exact tree.valid node name child

/-- Whatever its order, a walk finds the files of the tree. -/
theorem found_perm (fuel : Nat) {node : List Bytes}
    (valid : forall name, name ∈ node -> ValidName name) :
    (walk.found fuel node).Perm (tree.filesBelow fuel node) := by
  induction fuel generalizing node with
  | zero => exact List.Perm.refl _
  | succ fuel ih =>
      rw [found, Tree.filesBelow]
      rcases walk.readdir_eq valid with ⟨isDirectory, names, listed, permuted⟩ | ⟨other, fails⟩
      · rw [listed, if_pos isDirectory]
        dsimp only
        refine (permuted.flatMap_right _).trans ?_
        rw [List.flatMap_cons, List.flatMap_cons]
        apply List.Perm.flatMap_left
        intro name child
        have plain := isDotEntry_of_valid (tree.valid node name child)
        rw [plain, if_neg Bool.false_ne_true]
        split_ifs
        · exact List.Perm.refl _
        · exact ih (valid_child valid child)
        · exact List.Perm.refl _
      · rw [fails, if_neg other]

theorem lstat_of_below {path : Bytes} {node : List Bytes}
    (below : components 47 path = node) :
    tree.lstat (rootDirectory ++ [47]) (rootDirectory ++ [47] ++ path) = some (tree.kind node) := by
  unfold Tree.lstat
  rw [Tree.below_append, below]
  rfl

/-- With fuel for the depth of the tree, `count_files` counts what its walk
finds.  The induction is on the fuel. -/
theorem countFiles_eq (fuel : Nat) {node : List Bytes}
    (valid : forall name, name ∈ node -> ValidName name)
    (above : node.length ≤ tree.depth) (enough : tree.depth < node.length + fuel) :
    countFiles walk.readdir (tree.lstat (rootDirectory ++ [47])) fuel
        (rootDirectory ++ [47] ++ joinNames 47 node) = some (walk.found fuel node).length := by
  induction fuel generalizing node with
  | zero => omega
  | succ fuel ih =>
      rw [countFiles, found]
      rcases walk.readdir_eq valid with ⟨isDirectory, names, listed, permuted⟩ | ⟨other, fails⟩
      · rw [listed]
        dsimp only
        rw [@foldlM_flatMap _ _ _ (fun count _ => some (count + 1)) _ _ names, foldlM_count,
          Nat.zero_add]
        intro name member fileCount
        by_cases dot : isDotEntry name = true
        · rw [if_pos dot, if_pos dot]
          rfl
        · have plain := Bool.eq_false_iff.mpr dot
          have child := child_of_entry permuted member plain
          have childValid := valid_child valid child
          have path := (components_child valid (tree.valid node name child)).1
          have deeper := tree.length_lt_depth child
          rw [if_neg dot, if_neg dot, List.append_assoc, lstat_of_below path]
          dsimp only
          split_ifs
          · rfl
          · have childPath : rootDirectory ++ [47] ++ (joinNames 47 node ++ name) ++ [47] =
                rootDirectory ++ [47] ++ joinNames 47 (node ++ [name]) := by
              rw [joinNames_append, joinNames_singleton]
              simp only [List.append_assoc]
            rw [childPath, ih childValid (by simp; omega) (by simp; omega), foldlM_count]
            rfl
          · rfl
      · rw [fails]
        rfl

/-- With fuel for the depth of the tree, `johnny_slurps_files` stores each file
its walk finds, at indices counted up from the one it is given. -/
theorem johnnySlurpsFiles_eq {S : Type} (slurpsFile : Nat -> Bytes -> Bytes -> S -> Option S)
    (fuel : Nat) {node : List Bytes} (valid : forall name, name ∈ node -> ValidName name)
    (above : node.length ≤ tree.depth) (enough : tree.depth < node.length + fuel)
    (state : Nat × S) :
    johnnySlurpsFiles walk.readdir (tree.lstat (rootDirectory ++ [47])) slurpsFile
      (rootDirectory ++ [47])
        fuel (joinNames 47 node) state =
      (walk.found fuel node).foldlM (fun state file =>
        (slurpsFile state.1 (file.full (rootDirectory ++ [47])) file.relative state.2).map
          (fun slurped => (state.1 + 1, slurped))) state := by
  induction fuel generalizing node state with
  | zero => omega
  | succ fuel ih =>
      rw [johnnySlurpsFiles, found]
      rcases walk.readdir_eq valid with ⟨isDirectory, names, listed, permuted⟩ | ⟨other, fails⟩
      · rw [listed]
        dsimp only
        apply foldlM_flatMap
        intro name member state
        by_cases dot : isDotEntry name = true
        · rw [if_pos dot, if_pos dot]
          rfl
        · have plain := Bool.eq_false_iff.mpr dot
          have child := child_of_entry permuted member plain
          have childValid := valid_child valid child
          have path := (components_child valid (tree.valid node name child)).2
          have deeper := tree.length_lt_depth child
          have fullPath : rootDirectory ++ [47] ++ joinNames 47 node ++ 47 :: name =
              rootDirectory ++ [47] ++ (joinNames 47 node ++ 47 :: name) := by
            simp only [List.append_assoc]
          rw [if_neg dot, if_neg dot, fullPath, lstat_of_below path]
          dsimp only
          split_ifs
          · rw [List.foldlM_cons, ← fullPath]
            exact (Option.bind_fun_some _).symm
          · have childPath : joinNames 47 node ++ name ++ [47] = joinNames 47 (node ++ [name]) := by
              rw [joinNames_append, joinNames_singleton, List.append_assoc]
            rw [childPath]
            exact ih childValid (by simp; omega) (by simp; omega) state
          · rfl
      · rw [fails]
        rfl

end Walk

end Setup
end Johnny
