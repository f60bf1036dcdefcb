import Johnny.Hash.Select

namespace Johnny
namespace Hash

open Library

/-!
# Compressed sequences

`compressed_seq.c` keeps a table of numbers in strings of different lengths, one
after the other.  A number is stored without its leading bit after it was
increased by one, and the number zero takes no bits.  Where the strings end is
kept in two parts, the lower bits in a table of bit strings, the upper bits in a
select structure.
-/

/-- `compressed_seq_t`. -/
structure CompressedSeq where
  n : Nat
  totalLength : Nat
  remR : Nat
  sel : Select
  lengthRems : BitsTable
  storeTable : BitsTable
  deriving DecidableEq

def compressedSeqILog2 (x : Nat) : Nat := iLog2 x

namespace CompressedSeq

/-- The first loop: `lengths` and `total_length`. -/
def measure (valsTable : List Nat) (i : Nat) (state : List Nat × Nat) : Option (List Nat × Nat) :=
    do
  let val <- valsTable[i]?
  if val = 0 then
    let lengths <- writeAt state.1 i 0
    some (lengths, state.2)
  else
    let length := compressedSeqILog2 ((val + 1) % 2 ^ 32)
    let lengths <- writeAt state.1 i length
    some (lengths, (state.2 + length) % 2 ^ 32)

/-- The second loop: `store_table` and `total_length`. -/
def store (valsTable lengths : List Nat) (i : Nat) (state : BitsTable × Nat) :
    Option (BitsTable × Nat) := do
  let val <- valsTable[i]?
  if val = 0 then some state
  else
    let length <- lengths[i]?
    let storedValue := BitVec.ofNat 32 val - lowMask 32 length
    let storeTable <- setBitsAtPos state.1 state.2 storedValue length
    some (storeTable, (state.2 + length) % 2 ^ 32)

/-- The third loop: `lengths`, `length_rems` and `total_length`. -/
def storeEnd (remR i : Nat) (state : List Nat × BitsTable × Nat) :
    Option (List Nat × BitsTable × Nat) := do
  let length <- state.1[i]?
  let totalLength := (state.2.2 + length) % 2 ^ 32
  let remsMask := lowMask 32 remR
  let lengthRems <- setBitsValue state.2.1 i
    (BitVec.ofNat 32 totalLength &&& remsMask) remR remsMask
  let lengths <- writeAt state.1 i (totalLength / 2 ^ remR)
  some (lengths, lengthRems, totalLength)

def generate (valsTable : List Nat) (n : Nat) : Option CompressedSeq := do
  let measured <- forLoop (measure valsTable) n (List.replicate n 0, 0)
  let stored <- forLoop (store valsTable measured.1) n
    (List.replicate ((measured.2 + 31) % 2 ^ 32 / 32) 0#32, 0)
  let remR := oneIfZero (compressedSeqILog2 (stored.2 / n))
  let ended <- forLoop (storeEnd remR) n (measured.1, List.replicate (bitsTableSize n remR) 0#32, 0)
  let sel <- selectGenerate ended.1 n (ended.2.2 / 2 ^ remR)
  some ⟨n, ended.2.2, remR, sel, ended.2.1, stored.1⟩

/-- `enc_idx` and `sel_res` when they have been computed. -/
def queryStart (remR : Nat) (select next : Nat -> Option Nat) (lengthRems : BitsTable) (idx : Nat) :
    Option (BitVec 32 × Nat) :=
  if idx = 0 then (select idx).map (fun selRes => (0#32, selRes))
  else do
    let selRes <- select (idx - 1)
    let rem <- getBitsValue lengthRems (idx - 1) remR (lowMask 32 remR)
    let encIdx := (BitVec.ofNat 32 selRes - BitVec.ofNat 32 (idx - 1)) <<< remR + rem
    let selRes <- next selRes
    some (encIdx, selRes)

/-- The part that `compressed_seq_query` and `compressed_seq_query_packed`
share; they differ in where their tables are. -/
def queryIn (remR : Nat) (select next : Nat -> Option Nat) (lengthRems storeTable : BitsTable)
    (idx : Nat) : Option Nat := do
  let start <- queryStart remR select next lengthRems idx
  let rem <- getBitsValue lengthRems idx remR (lowMask 32 remR)
  let encLength := (BitVec.ofNat 32 start.2 - BitVec.ofNat 32 idx) <<< remR + rem - start.1
  if encLength = 0#32 then some 0
  else
    let storedValue <- getBitsAtPos storeTable start.1.toNat encLength.toNat
    some (storedValue + lowMask 32 encLength.toNat).toNat

/-- `none` also stands for a failing assertion. -/
def query (cs : CompressedSeq) (idx : Nat) : Option Nat :=
  if idx < cs.n then
    queryIn cs.remR (selectQuery cs.sel) (selectNextQuery cs.sel) cs.lengthRems cs.storeTable idx
  else none

def encLength (val : Nat) : Nat :=
  if val = 0 then 0 else iLog2 (val + 1)

/-- Where the strings of the first numbers end. -/
def encEnd (vals : List Nat) (k : Nat) : Nat :=
  ((vals.take k).map encLength).sum

/-- What is stored of a number. -/
def encString (val : Nat) : BitVec 32 :=
  BitVec.ofNat 32 val - lowMask 32 (encLength val)

theorem encEnd_succ {vals : List Nat} {k : Nat} (inside : k < vals.length) :
    encEnd vals (k + 1) = encEnd vals k + encLength vals[k] := by
  unfold encEnd
  rw [List.take_succ_eq_append_getElem inside, List.map_append, List.sum_append]
  simp

theorem encEnd_mono {vals : List Nat} {first second : Nat} (le : first ≤ second) :
    encEnd vals first ≤ encEnd vals second := by
  have step : forall k, encEnd vals k ≤ encEnd vals (k + 1) := by
    intro k
    by_cases inside : k < vals.length
    · rw [encEnd_succ inside]
      exact Nat.le_add_right _ _
    · unfold encEnd
      rw [List.take_of_length_le (by omega), List.take_of_length_le (by omega)]
  exact monotone_nat_of_le_succ step le

theorem encEnd_length (vals : List Nat) : encEnd vals vals.length = (vals.map encLength).sum := by
  rw [encEnd, List.take_length]

/-- The string of a number fits its length and gives the number back. -/
theorem encString_spec {val : Nat} (small : val + 1 < 2 ^ 32) :
    encLength val < 32 ∧ (encString val).toNat < 2 ^ encLength val ∧
      (encString val + lowMask 32 (encLength val)).toNat = val := by
  have back : (encString val + lowMask 32 (encLength val)).toNat = val := by
    unfold encString
    rw [BitVec.sub_add_cancel, BitVec.toNat_ofNat, Nat.mod_eq_of_lt (by omega)]
  have bounds : 2 ^ encLength val ≤ val + 1 ∧ val + 1 < 2 ^ (encLength val + 1) := by
    unfold encLength
    split_ifs with zero
    · rw [zero]
      decide
    · exact iLog2_spec (Nat.succ_pos val)
  have less : encLength val < 32 := (Nat.pow_lt_pow_iff_right (by decide : 1 < 2)).mp (by omega)
  refine ⟨less, ?_, back⟩
  rw [Nat.pow_succ] at bounds
  unfold encString
  rw [BitVec.toNat_sub_of_le, toNat_lowMask less, BitVec.toNat_ofNat, Nat.mod_eq_of_lt (by omega)]
  · omega
  · rw [BitVec.le_def, toNat_lowMask less, BitVec.toNat_ofNat, Nat.mod_eq_of_lt (by omega)]
    omega

theorem encLength_pos {val : Nat} (nonzero : val ≠ 0) : 0 < encLength val := by
  unfold encLength
  rw [if_neg nonzero, iLog2, if_pos (by omega)]
  exact Nat.succ_pos _

section

variable {vals : List Nat}

theorem measure_eq_some (small : forall val, val ∈ vals -> val + 1 < 2 ^ 32)
    (total : encEnd vals vals.length < 2 ^ 32) :
    forLoop (measure vals) vals.length (List.replicate vals.length 0, 0) =
      some (vals.map encLength, encEnd vals vals.length) := by
  have measured := forLoop_of_step (measure vals) vals.length (List.replicate vals.length 0, 0)
    (fun i state => state.1.length = vals.length ∧ state.2 = encEnd vals i ∧
      forall k, k < i -> (inside : k < vals.length) -> state.1[k]? = some (encLength vals[k])) (by
      rintro i ⟨lengths, sum⟩ inside ⟨length, ends, known⟩
      dsimp only at length ends known
      have slot : i < lengths.length := by omega
      have next := encEnd_succ inside
      have most : encEnd vals (i + 1) ≤ encEnd vals vals.length := encEnd_mono inside
      refine ⟨(lengths.set i (encLength vals[i]), encEnd vals (i + 1)), ?_, ?_, rfl, ?_⟩
      · have word := small _ (List.getElem_mem inside)
        unfold encLength at next ⊢
        by_cases zero : vals[i] = 0
        · rw [if_pos zero] at next ⊢
          simp [measure, List.getElem?_eq_getElem inside, zero, writeAt_eq_some slot, ends, next]
        · rw [if_neg zero] at next ⊢
          simp only [measure, List.getElem?_eq_getElem inside, zero, if_false, writeAt_eq_some slot,
            ends, next, compressedSeqILog2, Nat.mod_eq_of_lt word, Option.bind_eq_bind,
            Option.bind_some]
          rw [Nat.mod_eq_of_lt (by omega)]
      · rw [List.length_set, length]
      · intro k less kInside
        dsimp only
        by_cases own : k = i
        · subst own
          rw [List.getElem?_set_self slot]
        · rw [List.getElem?_set_ne (Ne.symm own)]
          exact known k (by omega) kInside)
    ⟨List.length_replicate, rfl, fun k less => absurd less (Nat.not_lt_zero k)⟩
  rcases measured with ⟨⟨lengths, sum⟩, run, length, ends, known⟩
  dsimp only at length ends known
  have same : lengths = vals.map encLength := by
    apply List.ext_getElem?
    intro k
    by_cases inside : k < vals.length
    · rw [known k inside inside, List.getElem?_map, List.getElem?_eq_getElem inside]
      rfl
    · rw [List.getElem?_eq_none (by omega), List.getElem?_eq_none (by rw [List.length_map]; omega)]
  rw [run, same, ends]

/-- The strings of the first numbers are in the table. -/
structure StoresValues (vals : List Nat) (count : Nat) (storeTable : BitsTable) : Prop where
  room : encEnd vals vals.length ≤ 32 * storeTable.length
  strings : forall k, k < count -> (inside : k < vals.length) -> forall j, j < encLength vals[k] ->
    bitOf storeTable (encEnd vals k + j) = (encString vals[k]).getLsbD j

theorem store_eq_some (small : forall val, val ∈ vals -> val + 1 < 2 ^ 32)
    (total : encEnd vals vals.length + 31 < 2 ^ 32) :
    Exists fun storeTable =>
      forLoop (store vals (vals.map encLength)) vals.length
        (List.replicate ((encEnd vals vals.length + 31) % 2 ^ 32 / 32) 0#32, 0) =
          some (storeTable, encEnd vals vals.length) ∧
      storeTable.length = (encEnd vals vals.length + 31) % 2 ^ 32 / 32 ∧
      StoresValues vals vals.length storeTable := by
  have stored := forLoop_of_step (store vals (vals.map encLength)) vals.length
    (List.replicate ((encEnd vals vals.length + 31) % 2 ^ 32 / 32) 0#32, 0)
    (fun i state => state.1.length = (encEnd vals vals.length + 31) % 2 ^ 32 / 32 ∧
      state.2 = encEnd vals i ∧ StoresValues vals i state.1) (by
      rintro i ⟨table, sum⟩ inside ⟨length, ends, stores⟩
      dsimp only at length ends stores
      have next := encEnd_succ inside
      have most : encEnd vals (i + 1) ≤ encEnd vals vals.length := encEnd_mono inside
      by_cases zero : vals[i] = 0
      · have none : encLength vals[i] = 0 := by rw [zero]; rfl
        refine ⟨(table, sum), ?_, length, ?_, stores.room, ?_⟩
        · simp [store, List.getElem?_eq_getElem inside, zero]
        · dsimp only
          omega
        · intro k less kInside j jInside
          rcases Nat.lt_succ_iff_lt_or_eq.mp less with earlier | rfl
          · exact stores.strings k earlier kInside j jInside
          · omega
      · rcases encString_spec (small _ (List.getElem_mem inside)) with ⟨short, fits, -⟩
        have room := stores.room
        rcases @setBits_eq_some table (encEnd vals i) (encLength vals[i]) _ (by omega)
          (encLength_pos zero) (Nat.le_of_lt short) fits with
          ⟨after, written, size, bits⟩
        refine ⟨(after, encEnd vals (i + 1)), ?_, size.trans length, rfl, by rw [size]; exact room,
          ?_⟩
        · have lengths : (vals.map encLength)[i]? = some (encLength vals[i]) := by
            rw [List.getElem?_map, List.getElem?_eq_getElem inside]
            rfl
          unfold encString at written
          simp only [store, List.getElem?_eq_getElem inside, zero, if_false, lengths, ends,
            setBitsAtPos, written, Option.bind_eq_bind, Option.bind_some]
          rw [Nat.mod_eq_of_lt (by omega), next]
        · intro k less kInside j jInside
          rw [bits]
          rcases Nat.lt_succ_iff_lt_or_eq.mp less with earlier | rfl
          · -- Earlier strings end before this one begins.
            have before : encEnd vals (k + 1) ≤ encEnd vals i := encEnd_mono earlier
            have own := encEnd_succ kInside
            rw [if_neg (by omega)]
            exact stores.strings k earlier kInside j jInside
          · rw [if_pos (by omega), Nat.add_sub_cancel_left])
    ⟨List.length_replicate, rfl, by rw [List.length_replicate]; omega,
      fun k less => absurd less (Nat.not_lt_zero k)⟩
  rcases stored with ⟨⟨table, sum⟩, run, length, ends, stores⟩
  dsimp only at length ends stores
  exact ⟨table, by rw [run, ends], length, stores⟩

/-- The upper parts of the ends. -/
def endQuots (vals : List Nat) (remR : Nat) : List Nat :=
  (List.range vals.length).map (fun k => encEnd vals (k + 1) / 2 ^ remR)

@[simp] theorem endQuots_length (remR : Nat) : (endQuots vals remR).length = vals.length := by
  simp [endQuots]

@[simp] theorem endQuots_getElem {remR k : Nat} (inside : k < (endQuots vals remR).length) :
    (endQuots vals remR)[k] = encEnd vals (k + 1) / 2 ^ remR := by
  simp [endQuots]

theorem endQuots_sorted (remR : Nat) :
    (endQuots vals remR).Pairwise (fun first second => first ≤ second) :=
  List.pairwise_le_range.map _ (fun _ _ le =>
    Nat.div_le_div_right (encEnd_mono (Nat.succ_le_succ le)))

def endRem (vals : List Nat) (remR k : Nat) : BitVec 32 :=
  BitVec.ofNat 32 (encEnd vals (k + 1)) &&& lowMask 32 remR

theorem storeEnd_eq_some {remR : Nat} (positive : 0 < remR) (short : remR < 32)
    (room : vals.length * remR + 31 < 2 ^ 32) (total : encEnd vals vals.length < 2 ^ 32) :
    Exists fun lengthRems =>
      forLoop (storeEnd remR) vals.length
        (vals.map encLength, List.replicate (bitsTableSize vals.length remR) 0#32, 0) =
          some (endQuots vals remR, lengthRems, encEnd vals vals.length) ∧
      lengthRems.length = bitsTableSize vals.length remR ∧
      StoresStrings vals.length remR (endRem vals remR) vals.length lengthRems := by
  have ended := forLoop_of_step (storeEnd remR) vals.length
    (vals.map encLength, List.replicate (bitsTableSize vals.length remR) 0#32, 0)
    (fun i state => state.1.length = vals.length ∧
      (forall k, (inside : k < vals.length) -> state.1[k]? =
        some (if k < i then encEnd vals (k + 1) / 2 ^ remR else encLength vals[k])) ∧
      state.2.1.length = bitsTableSize vals.length remR ∧
      StoresStrings vals.length remR (endRem vals remR) i state.2.1 ∧ state.2.2 = encEnd vals i) (by
      rintro i ⟨lengths, rems, sum⟩ inside ⟨length, known, remsLength, stores, ends⟩
      dsimp only at length known remsLength stores ends
      have slot : i < lengths.length := by omega
      have next := encEnd_succ inside
      have most : encEnd vals (i + 1) ≤ encEnd vals vals.length := encEnd_mono inside
      have own := known i inside
      rw [if_neg (Nat.lt_irrefl i)] at own
      have fits : (endRem vals remR i).toNat < 2 ^ remR := by
        unfold endRem
        rw [toNat_and_lowMask short]
        exact Nat.mod_lt _ (Nat.two_pow_pos remR)
      rcases stores.next room positive (Nat.le_of_lt short) inside fits
        with ⟨after, written, size, further⟩
      have sumNext : (sum + encLength vals[i]) % 2 ^ 32 = encEnd vals (i + 1) := by
        rw [ends, next, Nat.mod_eq_of_lt (by omega)]
      refine ⟨(lengths.set i (encEnd vals (i + 1) / 2 ^ remR), after, encEnd vals (i + 1)), ?_, ?_,
        ?_,
        size.trans remsLength, further, rfl⟩
      · unfold endRem at written
        simp only [storeEnd, own, sumNext, written, writeAt_eq_some slot, Option.bind_eq_bind,
          Option.bind_some]
      · rw [List.length_set, length]
      · intro k kInside
        dsimp only
        by_cases same : k = i
        · subst same
          rw [List.getElem?_set_self slot, if_pos (Nat.lt_succ_self k)]
        · rw [List.getElem?_set_ne (Ne.symm same), known k kInside]
          congr 1
          by_cases less : k < i
          · rw [if_pos less, if_pos (by omega)]
          · rw [if_neg less, if_neg (by omega)])
    ⟨List.length_map _, fun k inside => by
      rw [if_neg (Nat.not_lt_zero k), List.getElem?_map, List.getElem?_eq_getElem inside]
      rfl, List.length_replicate, StoresStrings.start room, rfl⟩
  rcases ended with ⟨⟨lengths, rems, sum⟩, run, length, known, remsLength, stores, ends⟩
  dsimp only at length known remsLength stores ends
  have same : lengths = endQuots vals remR := by
    apply List.ext_getElem?
    intro k
    by_cases inside : k < vals.length
    · rw [known k inside, if_pos inside,
        List.getElem?_eq_getElem (by rw [endQuots_length]; exact inside), endQuots_getElem]
    · rw [List.getElem?_eq_none (by omega), List.getElem?_eq_none (by rw [endQuots_length]; omega)]
  exact ⟨rems, by rw [run, same, ends], remsLength, stores⟩

end

/-- The tables belong to the numbers. -/
structure Stores (vals : List Nat) (remR : Nat)
    (bitsVec selectTable lengthRems storeTable : BitsTable) : Prop where
  small : forall val, val ∈ vals -> val + 1 < 2 ^ 32
  total : encEnd vals vals.length < 2 ^ 32
  positive : 0 < remR
  short : remR < 32
  selects : Selects (endQuots vals remR) bitsVec selectTable
  rems : StoresStrings vals.length remR (endRem vals remR) vals.length lengthRems
  values : StoresValues vals vals.length storeTable

theorem generate_stores {vals : List Nat} (nonempty : 0 < vals.length)
    (small : forall val, val ∈ vals -> val + 1 < 2 ^ 32)
    (total : vals.length + encEnd vals vals.length + 128 ≤ 2 ^ 32) :
    Exists fun cs => generate vals vals.length = some cs ∧ cs.n = vals.length ∧
      cs.totalLength = encEnd vals vals.length ∧ cs.sel.n = cs.n ∧
        cs.sel.m = cs.totalLength / 2 ^ cs.remR ∧
      cs.sel.bitsVec.length = selectVecSize cs.sel.n cs.sel.m ∧
      cs.sel.selectTable.length = selectTableSize cs.sel.n ∧
      cs.lengthRems.length = bitsTableSize cs.n cs.remR ∧
      cs.storeTable.length = (cs.totalLength + 31) % 2 ^ 32 / 32 ∧
      Stores vals cs.remR cs.sel.bitsVec cs.sel.selectTable cs.lengthRems cs.storeTable := by
  rcases store_eq_some small (by omega) with ⟨storeTable, stored, storeLength, values⟩
  generalize length : oneIfZero (iLog2 (encEnd vals vals.length / vals.length)) = remR
  rcases oneIfZero_bounds nonempty total length with ⟨positive, short, room⟩
  rcases storeEnd_eq_some positive short room (by omega) with ⟨lengthRems, ended, remsLength, rems⟩
  have below : encEnd vals vals.length / 2 ^ remR ≤ encEnd vals vals.length := Nat.div_le_self _ _
  rcases selectGenerate_selects (endQuots vals remR) (encEnd vals vals.length / 2 ^ remR)
      (endQuots_sorted remR) (by
        intro key member
        rcases List.mem_map.mp member with ⟨k, inRange, rfl⟩
        exact Nat.div_le_div_right (encEnd_mono (List.mem_range.mp inRange)))
      (List.ne_nil_of_length_pos (by rwa [endQuots_length])) (by rw [endQuots_length]; omega) with
    ⟨sel, generated, selN, selM, vecLength, tableLength, selects⟩
  rw [endQuots_length] at generated selN vecLength tableLength
  refine ⟨⟨vals.length, encEnd vals vals.length, remR, sel, lengthRems, storeTable⟩, ?_, rfl, rfl,
    selN, selM,
    by rw [vecLength, selN, selM], by rw [tableLength, selN], remsLength, storeLength,
    ⟨small, by omega, positive, short, selects, rems, values⟩⟩
  simp only [generate, measure_eq_some small (by omega), stored, compressedSeqILog2, length, ended,
    generated, Option.bind_eq_bind, Option.bind_some]

/-! ## Queries -/

/-- The end of a string from its two parts, the upper one raised by an index. -/
theorem joined_eq {total remR : Nat} (small : total < 2 ^ 32) (short : remR < 32) (k : Nat) :
    (BitVec.ofNat 32 (total / 2 ^ remR + k) - BitVec.ofNat 32 k) <<< remR +
    (BitVec.ofNat 32 total &&& lowMask 32 remR) =
      BitVec.ofNat 32 total := by
  have upper : BitVec.ofNat 32 (total / 2 ^ remR + k) - BitVec.ofNat 32 k =
      BitVec.ofNat 32 (total / 2 ^ remR) := by
    rw [BitVec.ofNat_add, BitVec.add_sub_cancel]
  have split := Nat.div_add_mod total (2 ^ remR)
  have quotient : total / 2 ^ remR ≤ total := Nat.div_le_self _ _
  have product : total / 2 ^ remR * 2 ^ remR ≤ total := Nat.div_mul_le_self _ _
  apply BitVec.eq_of_toNat_eq
  rw [upper, BitVec.toNat_add, BitVec.toNat_shiftLeft, toNat_and_lowMask short, BitVec.toNat_ofNat,
    BitVec.toNat_ofNat, Nat.shiftLeft_eq, Nat.mod_eq_of_lt (by omega : total / 2 ^ remR < 2 ^ 32),
    Nat.mod_eq_of_lt small, Nat.mod_eq_of_lt (by omega : total / 2 ^ remR * 2 ^ remR < 2 ^ 32),
    Nat.mul_comm, split, Nat.mod_eq_of_lt small]

section

variable {vals : List Nat} {remR : Nat} {bitsVec selectTable lengthRems storeTable : BitsTable}

/-- An end that is put together from its parts. -/
theorem Stores.end_eq (stores : Stores vals remR bitsVec selectTable lengthRems storeTable)
    {k : Nat} (inside : k < vals.length) :
    Exists fun rem => getBitsValue lengthRems k remR (lowMask 32 remR) = some rem ∧
      (BitVec.ofNat 32 (encEnd vals (k + 1) / 2 ^ remR + k) - BitVec.ofNat 32 k) <<< remR + rem =
        BitVec.ofNat 32 (encEnd vals (k + 1)) := by
  have most : encEnd vals (k + 1) ≤ encEnd vals vals.length := encEnd_mono inside
  have total := stores.total
  exact ⟨_, stores.rems.stored k inside, joined_eq (by omega) stores.short k⟩

theorem Stores.queryStart (stores : Stores vals remR bitsVec selectTable lengthRems storeTable)
    {idx : Nat} (inside : idx < vals.length) :
    queryStart remR (selectQueryIn bitsVec selectTable) (selectNextQueryIn bitsVec) lengthRems idx =
      some (BitVec.ofNat 32 (encEnd vals idx), encEnd vals (idx + 1) / 2 ^ remR + idx) := by
  unfold CompressedSeq.queryStart
  rcases idx with - | idx
  · have first := stores.selects.query (j := 0) (by rwa [endQuots_length])
    rw [endQuots_getElem] at first
    rw [if_pos rfl, first]
    rfl
  · have before := stores.selects.query (j := idx) (by rw [endQuots_length]; omega)
    have next := stores.selects.nextQuery (j := idx) (by rwa [endQuots_length])
    rw [endQuots_getElem] at before
    rw [endQuots_getElem, endQuots_getElem] at next
    rcases stores.end_eq (by omega : idx < vals.length) with ⟨rem, read, joined⟩
    simp only [Nat.succ_ne_zero, if_false, Nat.add_sub_cancel, before, read, joined, next,
      Option.bind_eq_bind, Option.bind_some]

/-- The tables give every number back. -/
theorem Stores.query (stores : Stores vals remR bitsVec selectTable lengthRems storeTable)
    {idx : Nat} (inside : idx < vals.length) : queryIn remR (selectQueryIn bitsVec selectTable)
      (selectNextQueryIn bitsVec) lengthRems storeTable idx =
      some vals[idx] := by
  rcases stores.end_eq inside with ⟨rem, read, joined⟩
  have next := encEnd_succ inside
  have most : encEnd vals (idx + 1) ≤ encEnd vals vals.length := encEnd_mono inside
  have total := stores.total
  rcases encString_spec (stores.small _ (List.getElem_mem inside)) with ⟨short, fits, back⟩
  have length : BitVec.ofNat 32 (encEnd vals (idx + 1)) - BitVec.ofNat 32 (encEnd vals idx) =
      BitVec.ofNat 32 (encLength vals[idx]) := by
    rw [next, Nat.add_comm, BitVec.ofNat_add, BitVec.add_sub_cancel]
  have lengthValue : (BitVec.ofNat 32 (encLength vals[idx])).toNat = encLength vals[idx] := by
    rw [BitVec.toNat_ofNat, Nat.mod_eq_of_lt (by omega)]
  have startValue : (BitVec.ofNat 32 (encEnd vals idx)).toNat = encEnd vals idx := by
    rw [BitVec.toNat_ofNat, Nat.mod_eq_of_lt (by omega)]
  by_cases zero : vals[idx] = 0
  · have none : BitVec.ofNat 32 (encLength vals[idx]) = 0#32 := by
      rw [zero]
      rfl
    simp only [queryIn, stores.queryStart inside, read, joined, length, none, if_true,
      Option.bind_eq_bind, Option.bind_some]
    rw [zero]
  · have positive := encLength_pos zero
    have nonzero : BitVec.ofNat 32 (encLength vals[idx]) ≠ 0#32 := by
      intro same
      rw [same] at lengthValue
      rw [← lengthValue] at positive
      exact absurd positive (by decide)
    have room := stores.values.room
    rcases @getBits_eq_some storeTable (encEnd vals idx) (encLength vals[idx])
        (by omega) positive (Nat.le_of_lt short) with ⟨string, found, bits⟩
    have same : string = encString vals[idx] := by
      apply BitVec.eq_of_getLsbD_eq
      intro j _
      rw [bits]
      by_cases within : j < encLength vals[idx]
      · rw [stores.values.strings idx inside inside j within, decide_eq_true within, Bool.true_and]
      · rw [decide_eq_false within, Bool.false_and,
          getLsbD_of_toNat_lt fits j (Nat.not_lt.mp within)]
    rw [same] at found
    simp only [queryIn, stores.queryStart inside, read, joined, length, nonzero, if_false,
      getBitsAtPos, lengthValue, startValue, found, back, Option.bind_eq_bind, Option.bind_some]

end

end CompressedSeq

/-- The compressed sequence of some numbers gives every one of them back. -/
theorem compressedSeqGenerate_query (vals : List Nat) (nonempty : vals ≠ [])
    (small : forall val, val ∈ vals -> val + 1 < 2 ^ 32)
    (total : vals.length + (vals.map CompressedSeq.encLength).sum + 128 ≤ 2 ^ 32) :
    Exists fun cs => CompressedSeq.generate vals vals.length = some cs ∧
      forall idx, (inside : idx < vals.length) -> cs.query idx = some vals[idx] := by
  rw [← CompressedSeq.encEnd_length] at total
  rcases CompressedSeq.generate_stores (List.length_pos_iff.mpr nonempty) small total with
    ⟨cs, generated, n, -, -, -, -, -, -, -, stores⟩
  refine ⟨cs, generated, fun idx inside => ?_⟩
  unfold CompressedSeq.query
  rw [n, if_pos inside]
  exact stores.query inside

def sixVals : List Nat := [0, 5, 1, 0, 1000000, 7]

theorem compressedSeqGenerate_query_six :
    Exists fun cs => CompressedSeq.generate sixVals sixVals.length = some cs ∧
      forall idx, (inside : idx < sixVals.length) -> cs.query idx = some sixVals[idx] := by
  refine compressedSeqGenerate_query sixVals (by decide) (by decide) ?_
  simp [sixVals, CompressedSeq.encLength, iLog2]

end Hash
end Johnny
