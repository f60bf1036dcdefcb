import Johnny.Setup.FileNames
import Mathlib.Algebra.BigOperators.Group.List.Basic
import Mathlib.Algebra.Ring.Nat

namespace Johnny
namespace Setup

/-!
# Percent-encoding, step by step

`url_encode` writes one byte after another into a buffer of three times the
length of the text and one, at a position that is an `int`.  A step is not
defined if it writes behind the buffer, or if a counter passes the largest
`int`, or if it reads a digit in front of the table.

The last happens for every byte from 128 on, as `char` is signed.
-/

def intMax : Nat := 2 ^ 31 - 1

/-- `strlen(originalText)*3+1` bytes. -/
def encodedCapacity (text : Bytes) : Nat :=
  text.length * 3 + 1

/-- `encodedText[pos++] = byte`, where `pos` is the number of bytes written. -/
def putsByte (capacity : Nat) (written : Bytes) (byte : UInt8) : Option Bytes :=
  if written.length < capacity ∧ written.length < intMax then some (written ++ [byte]) else none

/-- The indices into `hex` for one byte. -/
def hexIndices (byte : UInt8) : List Int :=
  if passesThrough byte then [] else [signedChar byte >>> (4 : Nat), signedChar byte % 16]

/-- The body of the loop. -/
def encodesByte (capacity : Nat) (written : Bytes) (byte : UInt8) : Option Bytes :=
  if passesThrough byte then putsByte capacity written byte
  else
    (putsByte capacity written 37).bind (fun percent =>
      (hexAt (signedChar byte >>> (4 : Nat))).bind (fun high =>
        (putsByte capacity percent high).bind (fun first =>
          (hexAt (signedChar byte % 16)).bind (fun low => putsByte capacity first low))))

/-- The loop, with the text from position `i` on. -/
def encodingLoop (capacity : Nat) : Nat -> Bytes -> Bytes -> Option Bytes
  | _, written, [] => some written
  | i, written, byte :: rest =>
      (encodesByte capacity written byte).bind (fun after =>
        if i < intMax then encodingLoop capacity (i + 1) after rest else none)

/-- `url_encode`, up to the terminator that it writes last. -/
def urlEncodes (text : Bytes) : Option Bytes :=
  (encodingLoop (encodedCapacity text) 0 [] text).bind (fun encoded =>
    if encoded.length < encodedCapacity text then some encoded else none)

/-- A lower-case hexadecimal digit. -/
def HexDigit (digit : UInt8) : Prop :=
  (48 ≤ digit ∧ digit ≤ 57) ∨ (97 ≤ digit ∧ digit ≤ 102)

instance (digit : UInt8) : Decidable (HexDigit digit) :=
  inferInstanceAs (Decidable ((48 ≤ digit ∧ digit ≤ 57) ∨ (97 ≤ digit ∧ digit ≤ 102)))

/-- Bytes that are copied, and escapes of two digits. -/
inductive PercentEncoded : Bytes -> Prop
  | nil : PercentEncoded []
  | copied {byte : UInt8} {rest : Bytes} (passes : passesThrough byte = true)
      (later : PercentEncoded rest) :
      PercentEncoded (byte :: rest)
  | escaped {high low : UInt8} {rest : Bytes} (highDigit : HexDigit high) (lowDigit : HexDigit low)
      (later : PercentEncoded rest) : PercentEncoded (37 :: high :: low :: rest)

/-- The encoding of a text is defined, well formed and fits, and decoding gives
the text back; so no other text has the same encoding. -/
structure FaithfullyEncoded (text : Bytes) : Prop where
  indices : forall byte, byte ∈ text -> forall index, index ∈ hexIndices byte -> 0 ≤ index ∧
    index ≤ 15
  encoding : Exists fun encoded => urlEncodes text = some encoded ∧
    encoded.length + 1 ≤ 3 * text.length + 1 ∧ PercentEncoded encoded ∧ urlDecode encoded = text ∧
      forall other, urlEncodes other = some encoded -> other = text

/-- The number of bytes that a text is encoded with. -/
def encodedLength (text : Bytes) : Nat :=
  (text.map (fun byte => if passesThrough byte then 1 else 3)).sum

theorem putsByte_eq_some {capacity : Nat} {written after : Bytes} {byte : UInt8} :
    putsByte capacity written byte = some after <->
      after = written ++ [byte] ∧ after.length ≤ capacity ∧ after.length ≤ intMax := by
  unfold putsByte
  split_ifs with room
  · rw [Option.some.injEq]
    constructor
    · intro same
      subst same
      rw [List.length_append, List.length_singleton]
      exact ⟨rfl, room⟩
    · rintro ⟨same, -⟩
      exact same.symm
  · refine iff_of_false (fun impossible => by cases impossible) ?_
    rintro ⟨rfl, fits⟩
    rw [List.length_append, List.length_singleton] at fits
    exact room fits

/-- One round of the loop writes the encoding of one byte, if that is defined
and there is room. -/
theorem encodesByte_eq_some {capacity : Nat} {written after : Bytes} {byte : UInt8} :
    encodesByte capacity written byte = some after <->
      Exists fun encoded => urlEncodeByte byte = some encoded ∧ after = written ++ encoded ∧
        after.length ≤ capacity ∧ after.length ≤ intMax := by
  unfold encodesByte urlEncodeByte
  split_ifs with passes
  · rw [putsByte_eq_some]
    simp
  · simp only [Option.bind_eq_some_iff, Option.map_eq_some_iff, putsByte_eq_some]
    constructor
    · rintro ⟨percent, ⟨rfl, -⟩, high, highAt, first, ⟨rfl, -⟩, low, lowAt, rfl, fits⟩
      refine ⟨[37, high, low], ⟨high, highAt, low, lowAt, rfl⟩, ?_, fits⟩
      simp
    · rintro ⟨encoded, ⟨high, highAt, low, lowAt, rfl⟩, rfl, fits⟩
      simp only [List.length_append, List.length_cons, List.length_nil] at fits
      refine ⟨_, ⟨rfl, ?_⟩, high, highAt, _, ⟨rfl, ?_⟩, low, lowAt, by simp, ?_⟩
      all_goals
        simp only [List.length_append, List.length_cons, List.length_nil]
        omega

theorem urlEncodeByte_length {byte : UInt8} {encoded : Bytes}
    (encodes : urlEncodeByte byte = some encoded) :
    encoded.length = if passesThrough byte then 1 else 3 := by
  unfold urlEncodeByte at encodes
  split_ifs at encodes ⊢
  · cases encodes
    rfl
  · rcases Option.bind_eq_some_iff.mp encodes with ⟨high, -, rest⟩
    rcases Option.map_eq_some_iff.mp rest with ⟨low, -, rfl⟩
    rfl

theorem urlEncode_length {text encoded : Bytes} (encodes : urlEncode text = some encoded) :
    encoded.length = encodedLength text := by
  induction text generalizing encoded with
  | nil =>
      cases encodes
      rfl
  | cons byte rest ih =>
      rcases Option.bind_eq_some_iff.mp encodes with ⟨first, firstEncodes, later⟩
      rcases Option.map_eq_some_iff.mp later with ⟨restEncoded, restEncodes, rfl⟩
      rw [List.length_append, urlEncodeByte_length firstEncodes, ih restEncodes]
      unfold encodedLength
      rw [List.map_cons, List.sum_cons]

/-- From any position the loop writes the encoding of what is left, as long as
it stays inside the buffer and below the largest `int`.  The induction is on
what is left; `i` is never ahead of the written bytes. -/
theorem encodingLoop_eq_some {capacity i : Nat} {written text result : Bytes}
    (behind : i ≤ written.length) (inside : written.length ≤ capacity)
    (small : written.length ≤ intMax) :
    encodingLoop capacity i written text = some result <->
      Exists fun encoded => urlEncode text = some encoded ∧ result = written ++ encoded ∧
        result.length ≤ capacity ∧ result.length ≤ intMax := by
  induction text generalizing i written with
  | nil =>
      rw [encodingLoop, urlEncode]
      constructor
      · intro same
        cases same
        exact ⟨[], rfl, (List.append_nil _).symm, inside, small⟩
      · rintro ⟨encoded, nothing, rfl, -⟩
        cases nothing
        rw [List.append_nil]
  | cons byte rest ih =>
      rw [encodingLoop, urlEncode]
      simp only [Option.bind_eq_some_iff, Option.map_eq_some_iff, encodesByte_eq_some]
      constructor
      · rintro ⟨after, ⟨first, firstEncodes, rfl, fits, firstSmall⟩, later⟩
        split_ifs at later
        have grows : 1 ≤ first.length := by
          rw [urlEncodeByte_length firstEncodes]
          split_ifs <;> omega
        have ahead : i + 1 ≤ (written ++ first).length := by
          rw [List.length_append]
          omega
        rcases (ih ahead fits firstSmall).mp later with ⟨restEncoded, restEncodes, rfl, whole⟩
        exact ⟨first ++ restEncoded, ⟨first, firstEncodes, restEncoded, restEncodes, rfl⟩,
          List.append_assoc _ _ _, whole⟩
      · rintro ⟨encoded, ⟨first, firstEncodes, restEncoded, restEncodes, rfl⟩, rfl, fits,
          resultSmall⟩
        have grows : 1 ≤ first.length := by
          rw [urlEncodeByte_length firstEncodes]
          split_ifs <;> omega
        have total : (written ++ (first ++ restEncoded)).length =
            (written ++ first).length + restEncoded.length := by
          rw [← List.append_assoc, List.length_append]
        have start : (written ++ first).length = written.length + first.length := List.length_append
        refine ⟨written ++ first, ⟨first, firstEncodes, rfl, by omega, by omega⟩, ?_⟩
        rw [if_pos (by omega)]
        apply (ih (by omega) (by omega) (by omega)).mpr
        exact ⟨restEncoded, restEncodes, (List.append_assoc _ _ _).symm, fits, resultSmall⟩

/-- The encoding is the text percent-encoded, and is defined as long as it is
no longer than the largest `int`. -/
theorem urlEncodes_eq_some {text result : Bytes} :
    urlEncodes text = some result <-> urlEncode text = some result ∧ result.length ≤ intMax := by
  have loop := fun encoded => @encodingLoop_eq_some (encodedCapacity text) 0 [] text encoded
    (Nat.le_refl 0) (Nat.zero_le _) (Nat.zero_le _)
  unfold urlEncodes
  simp only [Option.bind_eq_some_iff, loop, List.nil_append]
  constructor
  · rintro ⟨encoded, ⟨other, encodes, rfl, -, small⟩, last⟩
    split_ifs at last
    cases last
    exact ⟨encodes, small⟩
  · rintro ⟨encodes, small⟩
    have size := (urlEncode_size encodes).1
    unfold encodedCapacity
    exact ⟨result, ⟨result, encodes, rfl, by omega, small⟩, if_pos (by omega)⟩

/-- For names of files the counters never pass the largest `int`. -/
theorem urlEncodes_eq_urlEncode {text : Bytes} (short : 3 * text.length ≤ intMax) :
    urlEncodes text = urlEncode text := by
  apply Option.ext
  intro result
  rw [urlEncodes_eq_some]
  constructor
  · rintro ⟨encodes, -⟩
    exact encodes
  · intro encodes
    exact ⟨encodes, by have size := (urlEncode_size encodes).1; omega⟩

theorem hexIndices_range_iff (byte : UInt8) :
    (forall index, index ∈ hexIndices byte -> 0 ≤ index ∧ index ≤ 15) <->
      (passesThrough byte = true ∨ byte < 128) := by
  have all : forall number : Fin 256,
      (forall index, index ∈ hexIndices (UInt8.ofNat number) -> 0 ≤ index ∧ index ≤ 15) <->
        (passesThrough (UInt8.ofNat number) = true ∨ UInt8.ofNat number < 128) := by
    decide +kernel
  have here := all ⟨byte.toNat, byte.toNat_lt⟩
  rwa [UInt8.ofNat_toNat] at here

theorem hexAt_digit {index : Int} {digit : UInt8} (small : index ≤ 15)
    (found : hexAt index = some digit) : HexDigit digit := by
  have all : forall number : Fin 16, forall digit, digit ∈ hex[number.val]? -> HexDigit digit := by
    decide +kernel
  unfold hexAt at found
  split_ifs at found with nonneg
  exact all ⟨index.toNat, by omega⟩ digit found

/-- What is written for a byte is a copy or an escape. -/
theorem urlEncodeByte_shape {byte : UInt8} {encoded : Bytes}
    (encodes : urlEncodeByte byte = some encoded)
    {rest : Bytes} (later : PercentEncoded rest) : PercentEncoded (encoded ++ rest) := by
  unfold urlEncodeByte at encodes
  split_ifs at encodes with passes
  · cases encodes
    exact .copied passes later
  · rcases Option.bind_eq_some_iff.mp encodes with ⟨high, highAt, lowEncodes⟩
    rcases Option.map_eq_some_iff.mp lowEncodes with ⟨low, lowAt, rfl⟩
    have largest : forall number : Fin 256, signedChar (UInt8.ofNat number) >>> (4 : Nat) ≤ 15 := by
      decide +kernel
    have highSmall := largest ⟨byte.toNat, byte.toNat_lt⟩
    rw [UInt8.ofNat_toNat] at highSmall
    exact .escaped (hexAt_digit highSmall highAt) (hexAt_digit (by omega) lowAt) later

theorem urlEncode_shape {text encoded : Bytes} (encodes : urlEncode text = some encoded) :
    PercentEncoded encoded := by
  induction text generalizing encoded with
  | nil =>
      cases encodes
      exact .nil
  | cons byte rest ih =>
      rcases Option.bind_eq_some_iff.mp encodes with ⟨first, firstEncodes, later⟩
      rcases Option.map_eq_some_iff.mp later with ⟨restEncoded, restEncodes, rfl⟩
      exact urlEncodeByte_shape firstEncodes (ih restEncodes)

/-! ## Faithful encodings -/

/-- A text is encoded faithfully exactly when its bytes are below 128 and its
encoding is no longer than the largest `int`. -/
theorem faithfullyEncoded_iff (text : Bytes) :
    FaithfullyEncoded text <-> Ascii text ∧ encodedLength text ≤ intMax := by
  constructor
  · rintro ⟨-, encoded, encodes, -⟩
    rcases urlEncodes_eq_some.mp encodes with ⟨whole, small⟩
    rw [urlEncode_length whole] at small
    exact ⟨(urlDecode_urlEncode whole).2, small⟩
  · rintro ⟨small, fits⟩
    rcases urlEncode_of_ascii small with ⟨encoded, encodes⟩
    have defined : urlEncodes text = some encoded :=
      urlEncodes_eq_some.mpr ⟨encodes, by rw [urlEncode_length encodes]; exact fits⟩
    refine ⟨?_, encoded, defined, ?_, urlEncode_shape encodes, (urlDecode_urlEncode encodes).1, ?_⟩
    · intro byte member
      exact (hexIndices_range_iff byte).mpr (Or.inr (small byte member))
    · have size := (urlEncode_size encodes).1
      omega
    · intro other otherEncodes
      exact urlEncode_injective (urlEncodes_eq_some.mp otherEncodes).1 encodes

/-- The first letter of a name in UTF-8 that is not ASCII. -/
theorem not_faithfullyEncoded_utf8 : ¬ forall text : Bytes, 0 ∉ text -> FaithfullyEncoded text := by
  intro faithful
  have indices := (faithful [195, 169] (by decide)).indices 195 (by decide) (-4) (by decide)
  exact absurd indices.1 (by decide)

end Setup
end Johnny
