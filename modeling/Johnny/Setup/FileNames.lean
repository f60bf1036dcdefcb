import Johnny.Global

namespace Johnny
namespace Setup

/-!
# Keys of files

The key of a file is made from its path below the served directory.  A suffix
that names a content encoding is cut off, and the rest is percent-encoded.

On the target `char` is signed.  A byte from 128 on is a negative number, and
its upper half is a negative index into the table of hexadecimal digits: the
encoding of such a byte is not defined.
-/

/-- `strrchr`: the position of the last occurrence of a byte. -/
def strrchr (byte : UInt8) : Bytes -> Option Nat
  | [] => none
  | first :: rest =>
      match strrchr byte rest with
      | some position => some (position + 1)
      | none => if first = byte then some 0 else none

def getFileExtension (fileName : Bytes) : Bytes :=
  match strrchr 46 fileName with
  | none => []
  | some dot => if dot = 0 then [] else fileName.drop (dot + 1)

theorem strrchr_of_notMem {byte : UInt8} {text : Bytes} (absent : byte ∉ text) :
    strrchr byte text = none := by
  induction text with
  | nil => rfl
  | cons first rest ih =>
      have parts := not_or.mp (mt List.mem_cons.mpr absent)
      rw [strrchr, ih parts.2]
      exact if_neg (Ne.symm parts.1)

theorem strrchr_append {byte : UInt8} {rest : Bytes} (absent : byte ∉ rest) (before : Bytes) :
    strrchr byte (before ++ byte :: rest) = some before.length := by
  induction before with
  | nil =>
      rw [List.nil_append, strrchr, strrchr_of_notMem absent]
      exact if_pos rfl
  | cons first before ih => rw [List.cons_append, strrchr, ih, List.length_cons]

theorem getFileExtension_of_notMem {fileName : Bytes} (plain : 46 ∉ fileName) :
    getFileExtension fileName = [] := by
  rw [getFileExtension, strrchr_of_notMem plain]

/-- What follows the last dot is the extension, unless the dot is in front. -/
theorem getFileExtension_append {fileExt : Bytes} (plain : 46 ∉ fileExt) (before : Bytes) :
    getFileExtension (before ++ 46 :: fileExt) = if before = [] then [] else fileExt := by
  rw [getFileExtension, strrchr_append plain]
  dsimp only
  rw [if_congr List.length_eq_zero_iff rfl rfl, List.append_cons, List.drop_left' (by simp)]

def toLower (byte : UInt8) : UInt8 :=
  if 65 ≤ byte ∧ byte ≤ 90 then byte + 32 else byte

/-- `!strcasecmp(first, second)`. -/
def sameIgnoringCase (first second : Bytes) : Bool :=
  decide (first.map toLower = second.map toLower)

/-- The extensions that `get_mime_type` compares with, in its order. -/
def mimeTypes : List (Bytes × Bytes) :=
  [(ascii "jpg", ascii "image/jpeg"), (ascii "jpeg", ascii "image/jpeg"),
    (ascii "png", ascii "image/png"), (ascii "apng", ascii "image/apng"),
    (ascii "avif", ascii "image/avif"), (ascii "gif", ascii "image/gif"),
    (ascii "ico", ascii "image/x-icon"), (ascii "html", ascii "text/html"),
    (ascii "js", ascii "text/javascript"), (ascii "css", ascii "text/css"),
    (ascii "otf", ascii "font/otf"), (ascii "ttf", ascii "font/ttf"),
    (ascii "woff", ascii "font/woff"), (ascii "woff2", ascii "font/woff2"),
    (ascii "json", ascii "application/json"), (ascii "wasm", ascii "application/wasm")]

def getMimeType (fileExt : Bytes) : Bytes :=
  match mimeTypes.find? (fun entry => sameIgnoringCase fileExt entry.1) with
  | some entry => entry.2
  | none => ascii "application/octet-stream"

/-- The extensions that `get_content_encoding` compares with, in its order. -/
def contentEncodings : List (Bytes × Bytes) :=
  [(ascii "gz", ascii "gzip"), (ascii "br", ascii "br"), (ascii "zstd", ascii "zstd")]

def getContentEncoding (fileExt : Bytes) : Option Bytes :=
  (contentEncodings.find? (fun entry => sameIgnoringCase fileExt entry.1)).map Prod.snd

/-- What `johnny_slurps_file` learns from a file name before it reads the
file. -/
structure Classified where
  fileName : Bytes
  fileExt : Bytes
  contentEncoding : Option Bytes
  deriving DecidableEq

/-- Cut off an extension that names a content encoding, with its dot. -/
def classifies (fileName : Bytes) : Classified :=
  let fileExt := getFileExtension fileName
  if 0 < fileExt.length then
    match getContentEncoding fileExt with
    | some contentEncoding =>
        let stripped := fileName.take (fileName.length - fileExt.length - 1)
        ⟨stripped, getFileExtension stripped, some contentEncoding⟩
    | none => ⟨fileName, fileExt, none⟩
  else ⟨fileName, fileExt, none⟩

/-- The value of a byte as a `char`. -/
def signedChar (byte : UInt8) : Int :=
  byte.toInt8.toInt

/-- Letters, digits and the punctuation that `url_encode` copies. -/
def passesThrough (byte : UInt8) : Bool :=
  decide ((97 ≤ byte ∧ byte ≤ 122) ∨ (65 ≤ byte ∧ byte ≤ 90) ∨ (48 ≤ byte ∧ byte ≤ 57) ∨
    byte = 45 ∨ byte = 95 ∨ byte = 126 ∨ byte = 46 ∨ byte = 47 ∨ byte = 40 ∨ byte = 41)

/-- The string literal of digits, terminator included. -/
def hex : Bytes := ascii "0123456789abcdef" ++ [0]

/-- `hex[index]`; a negative index is outside the literal. -/
def hexAt (index : Int) : Option UInt8 :=
  if 0 ≤ index then hex[index.toNat]? else none

def urlEncodeByte (byte : UInt8) : Option Bytes :=
  if passesThrough byte then some [byte]
  else
    (hexAt (signedChar byte >>> (4 : Nat))).bind (fun high =>
      (hexAt (signedChar byte % 16)).map (fun low => [37, high, low]))

/-- The encoded text. -/
def urlEncode : Bytes -> Option Bytes
  | [] => some []
  | byte :: rest =>
      (urlEncodeByte byte).bind
      (fun encoded => (urlEncode rest).map (fun later => encoded ++ later))

theorem urlEncode_append (first second : Bytes) :
    urlEncode (first ++ second) =
      (urlEncode first).bind (fun encoded =>
        (urlEncode second).map (fun later => encoded ++ later)) := by
  induction first with
  | nil =>
      rw [List.nil_append, urlEncode, Option.bind_some]
      exact Option.map_id'.symm
  | cons byte rest ih =>
      rw [List.cons_append, urlEncode, urlEncode, ih]
      cases urlEncodeByte byte with
      | none => rfl
      | some encoded =>
          cases urlEncode rest with
          | none => rfl
          | some middle => cases urlEncode second <;> simp

/-- The key of a file, when it is defined. -/
def fileKey (fileName : Bytes) : Option Bytes :=
  urlEncode (classifies fileName).fileName

def Ascii (bytes : Bytes) : Prop :=
  forall byte, byte ∈ bytes -> byte < 128

instance (bytes : Bytes) : Decidable (Ascii bytes) :=
  inferInstanceAs (Decidable (forall byte, byte ∈ bytes -> byte < 128))

/-- The value of a digit that `url_encode` writes. -/
def hexValue (digit : UInt8) : UInt8 :=
  if digit < 58 then digit - 48 else digit - 87

/-- What one encoded byte looks like. -/
def EncodesByte (byte : UInt8) (encoded : Option Bytes) : Prop :=
  match encoded with
  | none => 128 ≤ byte
  | some [copied] => copied = byte ∧ byte ≠ 37 ∧ byte < 128
  | some [percent, high, low] =>
      percent = 37 ∧ hexValue high * 16 + hexValue low = byte ∧ byte < 128
  | some _ => False

instance : (byte : UInt8) -> (encoded : Option Bytes) -> Decidable (EncodesByte byte encoded)
  | byte, none => inferInstanceAs (Decidable (128 ≤ byte))
  | byte, some [copied] => inferInstanceAs (Decidable (copied = byte ∧ byte ≠ 37 ∧ byte < 128))
  | byte, some [percent, high, low] =>
      inferInstanceAs (Decidable
        (percent = 37 ∧ hexValue high * 16 + hexValue low = byte ∧ byte < 128))
  | _, some [] => .isFalse id
  | _, some [_, _] => .isFalse id
  | _, some (_ :: _ :: _ :: _ :: _) => .isFalse id

theorem urlEncodeByte_encodes (byte : UInt8) : EncodesByte byte (urlEncodeByte byte) := by
  have all : forall number : Fin 256,
      EncodesByte (UInt8.ofNat number) (urlEncodeByte (UInt8.ofNat number)) := by
    decide +kernel
  have here := all ⟨byte.toNat, byte.toNat_lt⟩
  rwa [UInt8.ofNat_toNat] at here

/-- Percent-decoding. -/
def urlDecode : Bytes -> Bytes
  | 37 :: high :: low :: rest => (hexValue high * 16 + hexValue low) :: urlDecode rest
  | byte :: rest => byte :: urlDecode rest
  | [] => []

theorem urlDecode_of_ne {byte : UInt8} (different : byte ≠ 37) (rest : Bytes) :
    urlDecode (byte :: rest) = byte :: urlDecode rest := by
  rw [urlDecode]
  intro high low after percent
  exact fun _ => absurd percent different

/-- One encoded byte is read back, whatever follows it. -/
theorem urlDecode_urlEncodeByte {byte : UInt8} {encoded : Bytes}
    (encodes : urlEncodeByte byte = some encoded) (rest : Bytes) :
    urlDecode (encoded ++ rest) = byte :: urlDecode rest ∧ byte < 128 := by
  have shape := urlEncodeByte_encodes byte
  rw [encodes] at shape
  rcases encoded with - | ⟨first, - | ⟨high, - | ⟨low, - | ⟨more, after⟩⟩⟩⟩
  · exact False.elim shape
  · rcases shape with ⟨rfl, different, small⟩
    exact ⟨urlDecode_of_ne different rest, small⟩
  · exact False.elim shape
  · rcases shape with ⟨rfl, value, small⟩
    refine ⟨?_, small⟩
    rw [← value]
    rfl
  · exact False.elim shape

theorem urlDecode_urlEncode {text encoded : Bytes} (encodes : urlEncode text = some encoded) :
    urlDecode encoded = text ∧ Ascii text := by
  induction text generalizing encoded with
  | nil =>
      cases encodes
      exact ⟨rfl, fun byte member => by cases member⟩
  | cons byte rest ih =>
      rcases Option.bind_eq_some_iff.mp encodes with ⟨first, firstEncodes, later⟩
      rcases Option.map_eq_some_iff.mp later with ⟨restEncoded, restEncodes, rfl⟩
      rcases urlDecode_urlEncodeByte firstEncodes restEncoded with ⟨decodes, small⟩
      rcases ih restEncodes with ⟨restDecodes, restSmall⟩
      refine ⟨by rw [decodes, restDecodes], ?_⟩
      intro other member
      rcases List.mem_cons.mp member with rfl | inRest
      · exact small
      · exact restSmall other inRest

theorem urlEncode_of_ascii {text : Bytes} (small : Ascii text) :
    Exists fun encoded => urlEncode text = some encoded := by
  induction text with
  | nil => exact ⟨[], rfl⟩
  | cons byte rest ih =>
      rcases ih (fun other member => small other (List.mem_cons_of_mem _ member))
        with ⟨later, restEncodes⟩
      have shape := urlEncodeByte_encodes byte
      cases first : urlEncodeByte byte with
      | none =>
          rw [first] at shape
          have large : 128 ≤ byte := shape
          have less := small byte List.mem_cons_self
          exact absurd less (UInt8.not_lt.mpr large)
      | some encoded =>
          refine ⟨encoded ++ later, ?_⟩
          rw [urlEncode, first, Option.bind_some, restEncodes]
          rfl

/-- Exactly the texts of bytes below 128 have an encoding. -/
theorem urlEncode_isSome_iff (text : Bytes) :
    (Exists fun encoded => urlEncode text = some encoded) <-> Ascii text := by
  constructor
  · rintro ⟨encoded, encodes⟩
    exact (urlDecode_urlEncode encodes).2
  · exact urlEncode_of_ascii

theorem urlEncode_injective {first second encoded : Bytes}
    (firstEncodes : urlEncode first = some encoded)
    (secondEncodes : urlEncode second = some encoded) : first = second :=
  (urlDecode_urlEncode firstEncodes).1.symm.trans (urlDecode_urlEncode secondEncodes).1

/-- The encoding of a byte has up to three bytes and no zero byte. -/
theorem urlEncodeByte_size {byte : UInt8} {encoded : Bytes}
    (encodes : urlEncodeByte byte = some encoded) : encoded.length ≤ 3 ∧ 0 ∉ encoded := by
  have all : forall number : Fin 256, forall encoded,
    urlEncodeByte (UInt8.ofNat number) = some encoded ->
      encoded.length ≤ 3 ∧ 0 ∉ encoded := by
    decide +kernel
  have here := all ⟨byte.toNat, byte.toNat_lt⟩ encoded
  rw [UInt8.ofNat_toNat] at here
  exact here encodes

/-- The encoded text fits in the buffer that `url_encode` allocates. -/
theorem urlEncode_size {text encoded : Bytes} (encodes : urlEncode text = some encoded) :
    encoded.length ≤ 3 * text.length ∧ 0 ∉ encoded := by
  induction text generalizing encoded with
  | nil =>
      cases encodes
      exact ⟨Nat.zero_le _, List.not_mem_nil⟩
  | cons byte rest ih =>
      rcases Option.bind_eq_some_iff.mp encodes with ⟨first, firstEncodes, later⟩
      rcases Option.map_eq_some_iff.mp later with ⟨restEncoded, restEncodes, rfl⟩
      rcases urlEncodeByte_size firstEncodes with ⟨firstSize, firstNonzero⟩
      rcases ih restEncodes with ⟨restSize, restNonzero⟩
      rw [List.length_append, List.length_cons, List.mem_append, not_or]
      exact ⟨by omega, firstNonzero, restNonzero⟩

/-- What is left of a name is its beginning. -/
theorem classifies_initial (fileName : Bytes) : (classifies fileName).fileName <+: fileName := by
  unfold classifies
  dsimp only
  split_ifs
  · split
    · exact List.take_prefix _ _
    · exact List.prefix_refl _
  · exact List.prefix_refl _

theorem classifies_length_le (fileName : Bytes) :
    (classifies fileName).fileName.length ≤ fileName.length :=
  (classifies_initial fileName).length_le

/-! ## When two files have different keys -/

/-- Two files have keys, and different ones. -/
def KeysDiffer (first second : Bytes) : Prop :=
  Exists fun firstKey => Exists fun secondKey =>
    fileKey first = some firstKey ∧ fileKey second = some secondKey ∧ firstKey ≠ secondKey

/-- What is left of two names consists of bytes below 128 and differs. -/
def NamesDiffer (first second : Bytes) : Prop :=
  Ascii (classifies first).fileName ∧ Ascii (classifies second).fileName ∧
    (classifies first).fileName ≠ (classifies second).fileName

theorem keysDiffer_iff_namesDiffer (first second : Bytes) :
    KeysDiffer first second <-> NamesDiffer first second := by
  unfold KeysDiffer NamesDiffer fileKey
  constructor
  · rintro ⟨firstKey, secondKey, firstEncodes, secondEncodes, different⟩
    refine ⟨(urlDecode_urlEncode firstEncodes).2, (urlDecode_urlEncode secondEncodes).2, ?_⟩
    intro same
    rw [same] at firstEncodes
    exact different (Option.some.inj (firstEncodes.symm.trans secondEncodes))
  · rintro ⟨firstSmall, secondSmall, different⟩
    rcases urlEncode_of_ascii firstSmall with ⟨firstKey, firstEncodes⟩
    rcases urlEncode_of_ascii secondSmall with ⟨secondKey, secondEncodes⟩
    refine ⟨firstKey, secondKey, firstEncodes, secondEncodes, ?_⟩
    intro same
    subst same
    exact different (urlEncode_injective firstEncodes secondEncodes)

end Setup
end Johnny
