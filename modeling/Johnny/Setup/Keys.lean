import Johnny.Setup.Tree

namespace Johnny
namespace Setup

open Library

/-!
# Keys of the files of a tree

The relative paths of the files of a tree are all different, and percent
encoding keeps what it can encode apart.  Two files get the same key only
through the suffixes that are cut off, and no key at all through bytes from
128 on.
-/

/-- The relative paths that `johnny_slurps_files` makes keys from, with the
final counter. -/
def slurpsPaths {tree : Tree} {rootDirectory : Bytes} (walk : Walk tree (rootDirectory ++ [47])) :
    Option (Nat × List Bytes) :=
  johnnySlurpsFiles walk.readdir (tree.lstat (rootDirectory ++ [47]))
    (fun _ _ relPath paths => some (paths ++ [relPath])) (rootDirectory ++ [47]) (tree.depth + 1) []
      (0, [])

/-- Any two different files have keys, and different ones. -/
def DistinctKeys (paths : List Bytes) : Prop :=
  forall first second, first ∈ paths -> second ∈ paths -> first ≠ second -> KeysDiffer first second

/-- What is left of any two different paths can be encoded and differs. -/
def DistinctNames (paths : List Bytes) : Prop :=
  forall first second, first ∈ paths -> second ∈ paths -> first ≠ second -> NamesDiffer first second

theorem collects_eq (rootDirectory : Bytes) (files : List FilePath) (count : Nat)
    (paths : List Bytes) : files.foldlM (fun (state : Nat × List Bytes) file =>
        ((fun _ _ relPath paths => some (paths ++ [relPath])) state.1
          (file.full (rootDirectory ++ [47]))
          file.relative state.2).map (fun slurped => (state.1 + 1, slurped))) (count, paths) =
      some (count + files.length, paths ++ files.map FilePath.relative) := by
  induction files generalizing count paths with
  | nil => simp
  | cons file rest ih =>
      rw [List.foldlM_cons]
      refine (ih (count + 1) (paths ++ [file.relative])).trans ?_
      rw [List.length_cons, List.map_cons, List.append_assoc, Nat.add_assoc, Nat.add_comm 1]
      rfl

theorem slurpsPaths_eq {tree : Tree} {rootDirectory : Bytes}
    (walk : Walk tree (rootDirectory ++ [47])) :
    Exists fun paths => slurpsPaths walk = some (paths.length, paths) ∧
      paths.Perm (tree.files.map FilePath.relative) := by
  refine ⟨(walk.found (tree.depth + 1) []).map FilePath.relative, ?_, ?_⟩
  · have slurps := walk.johnnySlurpsFiles_eq (fun _ _ relPath paths => some (paths ++ [relPath]))
      (tree.depth + 1) noNames_valid (Nat.zero_le _) (by simp) (0, [])
    refine slurps.trans ((collects_eq rootDirectory _ 0 []).trans ?_)
    rw [List.length_map, Nat.zero_add, List.nil_append]
  · exact (walk.found_perm _ noNames_valid).map _

/-- In every tree and every order of `readdir`, the files that are found get
pairwise different keys exactly when their names without the encoding suffixes
are pairwise different and consist of bytes below 128. -/
theorem distinctKeys_iff_distinctNames (tree : Tree) (rootDirectory : Bytes)
    (walk : Walk tree (rootDirectory ++ [47])) :
    Exists fun count => Exists fun paths => slurpsPaths walk = some (count, paths) ∧
      paths.Perm (tree.files.map FilePath.relative) ∧ paths.Nodup ∧
      (DistinctKeys paths <-> DistinctNames paths) := by
  rcases slurpsPaths_eq walk with ⟨paths, slurps, permuted⟩
  refine ⟨paths.length, paths, slurps, permuted, permuted.nodup_iff.mpr tree.relative_nodup, ?_⟩
  unfold DistinctKeys DistinctNames
  simp only [keysDiffer_iff_namesDiffer]

def pageAndCopy : Tree :=
  flatTree [ascii "a.html", ascii "a.html.gz"] (by decide) (by decide)

/-- The page and its copy get the same key. -/
theorem not_distinctKeys_pageAndCopy :
    ¬ forall (tree : Tree) (rootDirectory : Bytes) (walk : Walk tree (rootDirectory ++ [47]))
        (count : Nat) (paths : List Bytes),
      slurpsPaths walk = some (count, paths) -> DistinctKeys paths := by
  intro distinct
  have slurps : slurpsPaths (Walk.inOrder pageAndCopy ([] ++ [47])) =
      some (2, [ascii "a.html", ascii "a.html.gz"]) := by
    decide
  have differ := distinct pageAndCopy [] _ _ _ slurps (ascii "a.html") (ascii "a.html.gz")
    (by decide) (by decide) (by decide)
  rcases differ with ⟨firstKey, secondKey, first, second, different⟩
  have same : fileKey (ascii "a.html") = fileKey (ascii "a.html.gz") := by decide
  rw [first, second] at same
  exact different (Option.some.inj same)

end Setup
end Johnny
