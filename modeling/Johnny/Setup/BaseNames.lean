import Johnny.Setup.Slurp

namespace Johnny
namespace Setup

open Library

/-!
# Directories and base names

A file below the served directory is classified by its relative path.  If its
base name has a dot, the last dot of the path is the last dot of the base name.
If not, what follows a dot in the directory contains a slash, which no known
extension does.  So in a directory the base name alone decides.

A dot in front begins no extension.  `get_file_extension` compares the dot with
the beginning of the path and not of the base name: a hidden file in the root has
no extension, and the same file in a directory has one.
-/

/-- What follows the last dot, wherever the dot stands. -/
def lastExtension (name : Bytes) : Bytes :=
  match strrchr 46 name with
  | none => []
  | some dot => name.drop (dot + 1)

/-- How a base name is classified in a directory. -/
def classifiesBaseName (baseName : Bytes) : Classified :=
  match getContentEncoding (lastExtension baseName) with
  | none => ⟨baseName, lastExtension baseName, none⟩
  | some contentEncoding =>
      let stripped := baseName.take (baseName.length - (lastExtension baseName).length - 1)
      ⟨stripped, lastExtension stripped, some contentEncoding⟩

/-- A file in a directory has the headers of the same file in the root, and its
key is the encoded directory followed by the key in the root.  All three texts
have to be there. -/
structure ClassifiedAlike (directory baseName : Bytes) : Prop where
  contentType : getMimeType (classifies (directory ++ baseName)).fileExt =
    getMimeType (classifies baseName).fileExt
  contentEncoding : (classifies (directory ++ baseName)).contentEncoding =
    (classifies baseName).contentEncoding
  key : Exists fun encoded => Exists fun key => urlEncode directory = some encoded ∧
    fileKey baseName = some key ∧ fileKey (directory ++ baseName) = some (encoded ++ key)

/-- The names of hidden files that are nothing but a known extension behind the
dot, where one that names a content type may have an encoding suffix. -/
inductive HidesKnownExtension : Bytes -> Prop
  | contentEncoding {fileExt : Bytes} (known : getContentEncoding fileExt ≠ none) :
      HidesKnownExtension (46 :: fileExt)
  | mimeType {fileExt : Bytes} (known : getMimeType fileExt ≠ ascii "application/octet-stream") :
      HidesKnownExtension (46 :: fileExt)
  | encodedMimeType {fileExt suffix : Bytes}
      (known : getMimeType fileExt ≠ ascii "application/octet-stream")
      (encoded : getContentEncoding suffix ≠ none) :
        HidesKnownExtension (46 :: fileExt ++ 46 :: suffix)

/-- What stands in a table without a punctuation mark is not found for an
extension with one. -/
theorem notMem_of_find {table : List (Bytes × Bytes)} {byte : UInt8} (same : toLower byte = byte)
    (absent : forall entry, entry ∈ table -> byte ∉ entry.1.map toLower) {fileExt : Bytes}
    {entry : Bytes × Bytes}
    (found : table.find? (fun entry => sameIgnoringCase fileExt entry.1) = some entry) :
      byte ∉ fileExt := by
  have same? := List.find?_some found
  have equal : fileExt.map toLower = entry.1.map toLower := of_decide_eq_true same?
  intro member
  apply absent entry (List.mem_of_find?_eq_some found)
  rw [← equal]
  exact List.mem_map.mpr ⟨byte, member, same⟩

theorem notMem_of_getMimeType {fileExt : Bytes}
    (known : getMimeType fileExt ≠ ascii "application/octet-stream") :
    46 ∉ fileExt ∧ 47 ∉ fileExt := by
  unfold getMimeType at known
  split at known
  · next entry found => exact ⟨notMem_of_find rfl (by decide) found,
      notMem_of_find rfl (by decide) found⟩
  · exact absurd rfl known

theorem notMem_of_getContentEncoding {fileExt : Bytes} (known : getContentEncoding fileExt ≠ none) :
    46 ∉ fileExt ∧ 47 ∉ fileExt := by
  rcases Option.ne_none_iff_exists'.mp known with ⟨contentEncoding, some⟩
  rcases Option.map_eq_some_iff.mp some with ⟨entry, found, -⟩
  exact ⟨notMem_of_find rfl (by decide) found, notMem_of_find rfl (by decide) found⟩

/-- A table of extensions in which none has a slash. -/
def IgnoresPaths {R : Type} (lookup : Bytes -> R) : Prop :=
  forall fileExt, 47 ∈ fileExt -> lookup fileExt = lookup []

theorem getMimeType_ignoresPaths : IgnoresPaths getMimeType := by
  intro fileExt slash
  by_contra known
  exact (notMem_of_getMimeType known).2 slash

theorem getContentEncoding_ignoresPaths : IgnoresPaths getContentEncoding := by
  intro fileExt slash
  by_contra known
  exact (notMem_of_getContentEncoding known).2 slash

theorem lastExtension_of_notMem {name : Bytes} (plain : 46 ∉ name) : lastExtension name = [] := by
  rw [lastExtension, strrchr_of_notMem plain]

theorem lastExtension_append {fileExt : Bytes} (plain : 46 ∉ fileExt) (before : Bytes) :
    lastExtension (before ++ 46 :: fileExt) = fileExt := by
  rw [lastExtension, strrchr_append plain]
  dsimp only
  rw [List.append_cons, List.drop_left' (by simp)]

theorem split_at_last_dot {name : Bytes} (dotted : 46 ∈ name) :
    Exists fun before => Exists fun fileExt => name = before ++ 46 :: fileExt ∧ 46 ∉ fileExt := by
  rcases List.eq_append_cons_of_mem (List.mem_reverse.mpr dotted)
    with ⟨fileExt, before, split, plain⟩
  refine ⟨before.reverse, fileExt.reverse, ?_, mt List.mem_reverse.mp plain⟩
  have mirrored := congrArg List.reverse split
  rw [List.reverse_reverse] at mirrored
  rw [mirrored]
  simp

theorem directory_ne_nil {directory : Bytes} (slash : [47] <:+ directory) (before : Bytes) :
    directory ++ before ≠ [] := by
  intro empty
  rw [(List.append_eq_nil_iff.mp empty).1] at slash
  exact absurd slash (by decide)

theorem slash_behind_last_dot {before rest : Bytes} (slash : [47] <:+ before ++ 46 :: rest) :
    47 ∈ rest := by
  rcases slash with ⟨above, whole⟩
  rcases List.eq_nil_or_concat' rest with rfl | ⟨middle, byte, rfl⟩
  · have ends := (List.append_inj' whole rfl).2
    exact absurd ends (by decide)
  · rw [← List.cons_append, ← List.append_assoc] at whole
    have ends := (List.append_inj' whole rfl).2
    rw [← ends]
    exact List.mem_append_right _ List.mem_cons_self

/-- A table is asked for what follows the last dot of the base name. -/
theorem lookup_directory {R : Type} {lookup : Bytes -> R} (ignores : IgnoresPaths lookup)
    {directory : Bytes} (slash : [47] <:+ directory) (baseName : Bytes) :
    lookup (getFileExtension (directory ++ baseName)) = lookup (lastExtension baseName) := by
  by_cases dotted : 46 ∈ baseName
  · rcases split_at_last_dot dotted with ⟨before, fileExt, rfl, plain⟩
    rw [← List.append_assoc, getFileExtension_append plain, if_neg (directory_ne_nil slash before),
      lastExtension_append plain]
  · rw [lastExtension_of_notMem dotted]
    by_cases above : 46 ∈ directory
    · rcases split_at_last_dot above with ⟨before, rest, rfl, plain⟩
      have behind := slash_behind_last_dot slash
      rw [List.append_assoc, List.cons_append,
        getFileExtension_append (by rw [List.mem_append, not_or]; exact ⟨plain, dotted⟩)]
      split_ifs
      · rfl
      · exact ignores _ (List.mem_append_left _ behind)
    · rw [getFileExtension_of_notMem (by rw [List.mem_append, not_or]; exact ⟨above, dotted⟩)]

theorem getContentEncoding_nil : getContentEncoding [] = none := by decide

theorem dotted_of_encoding {name contentEncoding : Bytes}
    (found : getContentEncoding (lastExtension name) = some contentEncoding) : 46 ∈ name := by
  by_contra plain
  rw [lastExtension_of_notMem plain, getContentEncoding_nil] at found
  cases found

theorem classifies_of_none {fileName : Bytes}
    (unknown : getContentEncoding (getFileExtension fileName) = none) :
    classifies fileName = ⟨fileName, getFileExtension fileName, none⟩ := by
  unfold classifies
  dsimp only
  rw [unknown]
  exact ite_id _

/-- Cutting off an extension and its dot leaves what stands before them. -/
theorem take_before_dot (before fileExt : Bytes) :
    (before ++ 46 :: fileExt).take
    ((before ++ 46 :: fileExt).length - fileExt.length - 1) = before := by
  have length : (before ++ 46 :: fileExt).length - fileExt.length - 1 = before.length := by
    rw [List.length_append, List.length_cons]
    omega
  rw [length, List.take_left]

theorem classifies_append {before fileExt contentEncoding : Bytes} (nonempty : before ≠ [])
    (found : getContentEncoding fileExt = some contentEncoding) :
    classifies (before ++ 46 :: fileExt) = ⟨before, getFileExtension before,
      some contentEncoding⟩ := by
  have plain := (notMem_of_getContentEncoding (Option.ne_none_iff_exists'.mpr ⟨_, found⟩)).1
  have positive : 0 < fileExt.length := by
    apply List.length_pos_of_ne_nil
    rintro rfl
    cases found
  unfold classifies
  dsimp only
  rw [getFileExtension_append plain, if_neg nonempty, if_pos positive, found, take_before_dot]

theorem classifiesBaseName_of_none {baseName : Bytes}
    (unknown : getContentEncoding (lastExtension baseName) = none) :
    classifiesBaseName baseName = ⟨baseName, lastExtension baseName, none⟩ := by
  rw [classifiesBaseName, unknown]

theorem classifiesBaseName_append {before fileExt contentEncoding : Bytes}
    (found : getContentEncoding fileExt = some contentEncoding) :
    classifiesBaseName (before ++ 46 :: fileExt) =
      ⟨before, lastExtension before, some contentEncoding⟩ := by
  have plain := (notMem_of_getContentEncoding (Option.ne_none_iff_exists'.mpr ⟨_, found⟩)).1
  rw [classifiesBaseName, lastExtension_append plain, found]
  dsimp only
  rw [take_before_dot]

/-- Two classifications lead to the same headers. -/
structure SameHeaders (first second : Classified) : Prop where
  mimeType : getMimeType first.fileExt = getMimeType second.fileExt
  contentEncoding : first.contentEncoding = second.contentEncoding

/-- In a directory the base name alone is classified. -/
theorem classifies_directory {directory : Bytes} (slash : [47] <:+ directory) (baseName : Bytes) :
    SameHeaders (classifies (directory ++ baseName)) (classifiesBaseName baseName) ∧
      (classifies (directory ++ baseName)).fileName = directory ++
      (classifiesBaseName baseName).fileName := by
  have encoding := lookup_directory getContentEncoding_ignoresPaths slash baseName
  cases found : getContentEncoding (lastExtension baseName) with
  | none =>
      rw [classifies_of_none (encoding.trans found), classifiesBaseName_of_none found]
      exact ⟨⟨lookup_directory getMimeType_ignoresPaths slash baseName, rfl⟩, rfl⟩
  | some contentEncoding =>
      rcases split_at_last_dot (dotted_of_encoding found) with ⟨before, fileExt, rfl, plain⟩
      rw [lastExtension_append plain] at found
      have nonempty : directory ++ before ≠ [] := directory_ne_nil slash before
      rw [← List.append_assoc, classifies_append nonempty found, classifiesBaseName_append found]
      exact ⟨⟨lookup_directory getMimeType_ignoresPaths slash before, rfl⟩, rfl⟩

theorem getFileExtension_hidden {fileExt : Bytes} (plain : 46 ∉ fileExt) :
    getFileExtension (46 :: fileExt) = [] :=
  getFileExtension_append plain []

theorem lastExtension_hidden {fileExt : Bytes} (plain : 46 ∉ fileExt) :
    lastExtension (46 :: fileExt) = fileExt :=
  lastExtension_append plain []

/-- In the root only a name with its last dot in front is looked up differently. -/
theorem lookup_root {R : Type} (lookup : Bytes -> R) {name : Bytes}
    (unknown : forall fileExt, name = 46 :: fileExt -> lookup fileExt = lookup []) :
    lookup (getFileExtension name) = lookup (lastExtension name) := by
  by_cases dotted : 46 ∈ name
  · rcases split_at_last_dot dotted with ⟨before, fileExt, rfl, plain⟩
    rw [getFileExtension_append plain, lastExtension_append plain]
    split_ifs with front
    · exact (unknown fileExt (by rw [front, List.nil_append])).symm
    · rfl
  · rw [getFileExtension_of_notMem dotted, lastExtension_of_notMem dotted]

theorem classifies_root {baseName : Bytes} (visible : ¬ HidesKnownExtension baseName) :
    SameHeaders (classifiesBaseName baseName) (classifies baseName) ∧
      (classifiesBaseName baseName).fileName = (classifies baseName).fileName := by
  have encoding : getContentEncoding (getFileExtension baseName) =
      getContentEncoding (lastExtension baseName) := by
    apply lookup_root
    rintro fileExt rfl
    by_contra known
    exact visible (.contentEncoding known)
  cases found : getContentEncoding (lastExtension baseName) with
  | none =>
      rw [classifies_of_none (encoding.trans found), classifiesBaseName_of_none found]
      refine ⟨⟨(lookup_root getMimeType ?_).symm, rfl⟩, rfl⟩
      rintro fileExt rfl
      by_contra known
      exact visible (.mimeType known)
  | some contentEncoding =>
      rcases split_at_last_dot (dotted_of_encoding found) with ⟨before, fileExt, rfl, plain⟩
      rw [lastExtension_append plain] at found
      have encoded : getContentEncoding fileExt ≠ none := Option.ne_none_iff_exists'.mpr ⟨_, found⟩
      have nonempty : before ≠ [] := by
        rintro rfl
        exact visible (.contentEncoding encoded)
      rw [classifies_append nonempty found, classifiesBaseName_append found]
      refine ⟨⟨(lookup_root getMimeType ?_).symm, rfl⟩, rfl⟩
      rintro inner rfl
      by_contra known
      exact visible (.encodedMimeType known encoded)

theorem classifies_hidden {fileExt : Bytes} (plain : 46 ∉ fileExt) :
    classifies (46 :: fileExt) = ⟨46 :: fileExt, [], none⟩ := by
  have none := getFileExtension_hidden plain
  rw [classifies_of_none (none ▸ getContentEncoding_nil), none]

/-- In a directory a hidden file whose name is an encoding suffix keeps nothing of
its name. -/
theorem classifiesBaseName_hidden {fileExt contentEncoding : Bytes}
    (found : getContentEncoding fileExt = some contentEncoding) :
    classifiesBaseName (46 :: fileExt) = ⟨[], [], some contentEncoding⟩ :=
  @classifiesBaseName_append [] fileExt contentEncoding found

theorem not_sameHeaders_of_hides {baseName : Bytes} (hides : HidesKnownExtension baseName) :
    ¬ SameHeaders (classifiesBaseName baseName) (classifies baseName) := by
  rintro ⟨mimeType, contentEncoding⟩
  cases hides with
  | @contentEncoding fileExt known =>
      rcases Option.ne_none_iff_exists'.mp known with ⟨encoding, found⟩
      rw [classifiesBaseName_hidden found,
        classifies_hidden (notMem_of_getContentEncoding known).1] at contentEncoding
      cases contentEncoding
  | @mimeType fileExt known =>
      have plain := (notMem_of_getMimeType known).1
      cases found : getContentEncoding fileExt with
      | none =>
          rw [← lastExtension_hidden plain] at found
          rw [classifiesBaseName_of_none found, classifies_hidden plain,
            lastExtension_hidden plain] at mimeType
          exact known mimeType
      | some encoding =>
          rw [classifiesBaseName_hidden found, classifies_hidden plain] at contentEncoding
          cases contentEncoding
  | @encodedMimeType fileExt suffix known encoded =>
      have plain := (notMem_of_getMimeType known).1
      rcases Option.ne_none_iff_exists'.mp encoded with ⟨encoding, found⟩
      rw [classifiesBaseName_append found, classifies_append (List.cons_ne_nil _ _) found,
        getFileExtension_hidden plain, lastExtension_hidden plain] at mimeType
      exact known mimeType

instance (first second : Classified) : Decidable (SameHeaders first second) :=
  decidable_of_iff (getMimeType first.fileExt = getMimeType second.fileExt ∧
      first.contentEncoding = second.contentEncoding)
    ⟨fun ⟨mimeType, contentEncoding⟩ => ⟨mimeType, contentEncoding⟩,
      fun same => ⟨same.mimeType, same.contentEncoding⟩⟩

instance (baseName : Bytes) : Decidable (HidesKnownExtension baseName) :=
  decidable_of_iff (¬ SameHeaders (classifiesBaseName baseName) (classifies baseName))
    ⟨fun differ => Classical.byContradiction (fun visible => differ (classifies_root visible).1),
      not_sameHeaders_of_hides⟩

/-! ## Directories and the root -/

theorem classifiedAlike_of_visible {directory baseName : Bytes} (slash : [47] <:+ directory)
    (visible : ¬ HidesKnownExtension baseName) (asciiDirectory : Ascii directory)
    (asciiName : Ascii (classifies baseName).fileName) : ClassifiedAlike directory baseName := by
  rcases classifies_directory slash baseName with ⟨below, fileName⟩
  rcases classifies_root visible with ⟨root, rootName⟩
  rcases (urlEncode_isSome_iff directory).mpr asciiDirectory with ⟨encoded, encodes⟩
  rcases (urlEncode_isSome_iff _).mpr asciiName with ⟨key, keyEncodes⟩
  refine ⟨below.mimeType.trans root.mimeType, below.contentEncoding.trans root.contentEncoding,
    encoded, key, encodes, keyEncodes, ?_⟩
  unfold fileKey
  rw [fileName, rootName, urlEncode_append, encodes, Option.bind_some, keyEncodes]
  rfl

theorem ClassifiedAlike.visible {directory baseName : Bytes} (slash : [47] <:+ directory)
    (alike : ClassifiedAlike directory baseName) : ¬ HidesKnownExtension baseName := by
  intro hides
  have below := (classifies_directory slash baseName).1
  apply not_sameHeaders_of_hides hides
  exact ⟨below.mimeType.symm.trans alike.contentType,
    below.contentEncoding.symm.trans alike.contentEncoding⟩

/-- What is encoded consists of bytes below 128. -/
theorem ClassifiedAlike.ascii {directory baseName : Bytes}
    (alike : ClassifiedAlike directory baseName) :
    Ascii directory ∧ Ascii (classifies baseName).fileName := by
  rcases alike.key with ⟨encoded, key, encodes, keyEncodes, -⟩
  constructor
  · exact (urlEncode_isSome_iff directory).mp ⟨encoded, encodes⟩
  · exact (urlEncode_isSome_iff _).mp ⟨key, keyEncodes⟩

/-- A file in a directory is classified as in the root exactly if its name is
not just a known extension behind a dot, and directory and name have an
encoding. -/
theorem classifiedAlike_iff {directory : Bytes} (slash : [47] <:+ directory) (baseName : Bytes) :
    ClassifiedAlike directory baseName <->
      ¬ HidesKnownExtension baseName ∧ Ascii directory ∧ Ascii (classifies baseName).fileName := by
  constructor
  · intro alike
    exact ⟨alike.visible slash, alike.ascii⟩
  · rintro ⟨visible, asciiDirectory, asciiName⟩
    exact classifiedAlike_of_visible slash visible asciiDirectory asciiName

theorem classifiedAlike_dottedDirectory :
    [47] <:+ ascii "v1.2/" ∧ ClassifiedAlike (ascii "v1.2/") (ascii ".page.html.gz") :=
  ⟨by decide, (classifiedAlike_iff (by decide) _).mpr
    ⟨by decide, by decide +kernel, by decide +kernel⟩⟩

/-- In a directory `.html` is a page, in the root it is not. -/
theorem not_classifiedAlike_hiddenPage :
    ¬ forall directory baseName : Bytes, [47] <:+ directory -> 47 ∉ baseName -> baseName ≠ [] ->
      ClassifiedAlike directory baseName := by
  intro always
  have alike := always (ascii "d/") (ascii ".html") (by decide) (by decide) (by decide)
  exact absurd alike.contentType (by decide)

theorem Readable.contents_unique {file : FileAccess} {first second : Bytes}
    (firstReadable : Readable file first)
    (secondReadable : Readable file second) : first = second := by
  have length : first.length = second.length :=
    Option.some.inj (firstReadable.offEnd.symm.trans secondReadable.offEnd)
  have before := List.prefix_of_prefix_length_le firstReadable.reads secondReadable.reads length.le
  exact before.eq_of_length length

/-- The same file is served with the same response from a directory as from the
root, under the key with the encoded directory in front. -/
theorem ClassifiedAlike.served {directory baseName : Bytes}
    (alike : ClassifiedAlike directory baseName) {file : FileAccess} {below root : ServedFile}
    (loadsBelow : Loadable file (directory ++ baseName) below)
    (loadsRoot : Loadable file baseName root) :
    below.response = root.response ∧ below.responseLength = root.responseLength ∧
      Exists fun encoded => urlEncode directory = some encoded ∧
        below.key = encoded ++ root.key := by
  rcases loadsBelow.response with ⟨contents, readable, belowResponse⟩
  rcases loadsRoot.response with ⟨rootContents, rootReadable, rootResponse⟩
  have response : below.response = root.response := by
    rw [belowResponse, rootResponse, readable.contents_unique rootReadable]
    unfold responseHeader
    rw [alike.contentType, alike.contentEncoding]
  rcases alike.key with ⟨encoded, key, encodes, rootKey, belowKey⟩
  rw [loadsRoot.key] at rootKey
  rw [loadsBelow.key, ← Option.some.inj rootKey] at belowKey
  refine ⟨response, ?_, encoded, encodes, Option.some.inj belowKey⟩
  rw [loadsBelow.responseLength, loadsRoot.responseLength, response]

/-- What a run of `johnny_slurps_file` leaves stands for a file that can be served. -/
theorem holds_of_johnnySlurpsFile {file : FileAccess} {fileName : Bytes} {heap after : Heap}
    {entry : JohnnyFile} (slurps : johnnySlurpsFile file fileName heap = some (entry, after))
    (short : 3 * fileName.length ≤ intMax) :
    Exists fun served => Loadable file fileName served ∧ Holds after entry served := by
  rcases loadable_of_johnnySlurpsFile slurps with ⟨served, loadable⟩
  rcases johnnySlurpsFile_of_loadable loadable short heap with ⟨made, left, same, loads⟩
  rw [slurps] at same
  cases same
  exact ⟨served, loadable, loads.holds⟩

/-- Slurping the same file from a directory and from the root makes the same
response, and keys that differ in the encoded directory. -/
theorem ClassifiedAlike.slurps {directory baseName : Bytes}
    (alike : ClassifiedAlike directory baseName)
    (short : 3 * (directory ++ baseName).length ≤ intMax) {file : FileAccess}
    {heap after rootHeap rootAfter : Heap} {entry rootEntry : JohnnyFile}
    (slurps : johnnySlurpsFile file (directory ++ baseName) heap = some (entry, after))
    (rootSlurps : johnnySlurpsFile file baseName rootHeap = some (rootEntry, rootAfter)) :
    entry.response = rootEntry.response ∧ entry.responseLength = rootEntry.responseLength ∧
      Exists fun encoded => Exists fun key => urlEncode directory = some encoded ∧
        rootAfter.cString rootEntry.urlEncodedFileName = some key ∧
        after.cString entry.urlEncodedFileName = some (encoded ++ key) := by
  have rootShort : 3 * baseName.length ≤ intMax := by
    rw [List.length_append] at short
    omega
  rcases holds_of_johnnySlurpsFile slurps short with ⟨below, loadsBelow, holds⟩
  rcases holds_of_johnnySlurpsFile rootSlurps rootShort with ⟨root, loadsRoot, rootHolds⟩
  rcases alike.served loadsBelow loadsRoot with ⟨response, responseLength, encoded, encodes, key⟩
  refine ⟨?_, ?_, encoded, root.key, encodes, rootHolds.key, holds.key.trans (congrArg some key)⟩
  · rw [holds.response, rootHolds.response, response]
  · rw [holds.responseLength, rootHolds.responseLength, responseLength]

end Setup
end Johnny
