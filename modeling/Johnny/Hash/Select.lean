import Johnny.Library.Extents
import Johnny.Library.RankSelect
import Johnny.Hash.BitFields
import Johnny.Hash.LookupTables

namespace Johnny
namespace Hash

open Library

/-!
# The select structure

`select.c` writes a nondecreasing list of `n` numbers up to `m` in unary: its bit
table has one set bit for every number, after as many clear bits as the number
says.  A second table holds the position of every 128th set bit.  A query starts
there and adds up the set bits of bytes.

Loops run with as many rounds as the tables they read or write allow; what goes
outside a table gives `none`.
-/

/-- `select_t`. -/
structure Select where
  n : Nat
  m : Nat
  bitsVec : BitsTable
  selectTable : BitsTable
  deriving DecidableEq

/-- `STEP_SELECT_TABLE`. -/
def stepSelectTable : Nat := 128

def selectInsert0 (buffer : BitVec 32) : BitVec 32 := buffer >>> 1

def selectInsert1 (buffer : BitVec 32) : BitVec 32 := buffer >>> 1 ||| 0x80000000#32

/-- The variables of `select_generate`.  Its two inner loops insert ones and
zeros; `zeros` tells in which of them the code is. -/
structure Filling where
  zeros : Bool
  i : Nat
  j : Nat
  idx : Nat
  buffer : BitVec 32
  bitsVec : BitsTable

/-- A full buffer goes to the bit table. -/
def storeBuffer (idx : Nat) (buffer : BitVec 32) (bitsVec : BitsTable) : Option BitsTable :=
  if idx % 32 = 0 then writeAt bitsVec (idx / 32 - 1) buffer else some bitsVec

def selectFillRound (keysVec : List Nat) (n m : Nat) (filling : Filling) :
    Option (Pass Filling Filling) := do
  let key <- keysVec[filling.j]?
  if filling.zeros then
    if filling.i < key then
      let buffer := selectInsert0 filling.buffer
      let bitsVec <- storeBuffer (filling.idx + 1) buffer filling.bitsVec
      some (.again ⟨true, filling.i + 1, filling.j, filling.idx + 1, buffer, bitsVec⟩)
    else
      some (.again { filling with zeros := false })
  else
    if key = filling.i then
      let buffer := selectInsert1 filling.buffer
      let bitsVec <- storeBuffer (filling.idx + 1) buffer filling.bitsVec
      let next : Filling := ⟨false, filling.i, filling.j + 1, filling.idx + 1, buffer, bitsVec⟩
      if next.j = n then some (.leave next) else some (.again next)
    else if filling.i = m then
      some (.leave filling)
    else
      some (.again { filling with zeros := true })

/-- The last bits that do not fill a buffer. -/
def storeLast (filling : Filling) : Option BitsTable :=
  if filling.idx % 32 = 0 then some filling.bitsVec
  else writeAt filling.bitsVec ((filling.idx - 1) / 32) (filling.buffer >>> (32 - filling.idx % 32))

/-- The variables of the scan for a set bit. -/
structure Scan where
  vecByteIdx : Nat
  partSum : Nat
  oldPartSum : Nat

def selectScanRound (bitsTable : BitsTable) (oneIdx : Nat) (scan : Scan) :
    Option (Pass Scan Scan) := do
  let byte <- byteOf bitsTable scan.vecByteIdx
  let next : Scan := ⟨scan.vecByteIdx + 1, scan.partSum + rankLookup byte, scan.partSum⟩
  if next.partSum ≤ oneIdx then some (.again next) else some (.leave next)

/-- The loop `do .. while (part_sum <= one_idx)` that `select_generate_sel_table`,
`_select_query` and `_select_next_query` have. -/
def selectScan (bitsTable : BitsTable) (oneIdx vecByteIdx partSum : Nat) : Option Scan :=
  runLoop (selectScanRound bitsTable oneIdx) (4 * bitsTable.length + 1) ⟨vecByteIdx, partSum,
    partSum⟩

/-- The set bit in the last byte of a scan. -/
def selectFound (bitsTable : BitsTable) (oneIdx : Nat) (scan : Scan) : Option Nat := do
  let byte <- byteOf bitsTable (scan.vecByteIdx - 1)
  let place <- selectLookup byte ((oneIdx + 2 ^ 32 - scan.oldPartSum) % 2 ^ 32)
  some (place + 8 * (scan.vecByteIdx - 1))

/-- The variables of `select_generate_sel_table`. -/
structure Sampling where
  vecIdx : Nat
  partSum : Nat
  oneIdx : Nat
  selTableIdx : Nat
  selectTable : BitsTable

def selectSampleRound (n : Nat) (bitsTable : BitsTable) (sampling : Sampling) :
    Option (Pass Sampling BitsTable) :=
  if n ≤ sampling.oneIdx then some (.leave sampling.selectTable)
  else do
    let scan <- selectScan bitsTable sampling.oneIdx sampling.vecIdx sampling.partSum
    let place <- selectFound bitsTable sampling.oneIdx scan
    let selectTable <- writeAt sampling.selectTable sampling.selTableIdx (BitVec.ofNat 32 place)
    some (.again ⟨scan.vecByteIdx, scan.partSum, (sampling.oneIdx + stepSelectTable) % 2 ^ 32,
      sampling.selTableIdx + 1, selectTable⟩)

def selectGenerateSelTable (n : Nat) (bitsTable selectTable : BitsTable) : Option BitsTable :=
  runLoop (selectSampleRound n bitsTable) (selectTable.length + 1) ⟨0, 0, 0, 0, selectTable⟩

def selectVecSize (n m : Nat) : Nat := (n + m + 31) % 2 ^ 32 / 32

def selectTableSize (n : Nat) : Nat := n / stepSelectTable + 1

def selectGenerate (keysVec : List Nat) (n m : Nat) : Option Select := do
  let vecSize := selectVecSize n m
  let filled <- runLoop (selectFillRound keysVec n m) (64 * (vecSize + 1) + 2)
    ⟨false, 0, 0, 0, 0#32, List.replicate vecSize 0#32⟩
  let bitsVec <- storeLast filled
  let selectTable <- selectGenerateSelTable n bitsVec (List.replicate (selectTableSize n) 0#32)
  some ⟨n, m, bitsVec, selectTable⟩

/-- `_select_query`. -/
def selectQueryIn (bitsTable selectTable : BitsTable) (oneIdx : Nat) : Option Nat := do
  let entry <- selectTable[oneIdx / stepSelectTable]?
  let vecBitIdx := entry.toNat
  let byte <- byteOf bitsTable (vecBitIdx / 8)
  let oneIdx := oneIdx % stepSelectTable + rankLookup (byte &&& lowMask 8 (vecBitIdx % 8))
  let scan <- selectScan bitsTable oneIdx (vecBitIdx / 8) 0
  selectFound bitsTable oneIdx scan

/-- `_select_next_query`. -/
def selectNextQueryIn (bitsTable : BitsTable) (vecBitIdx : Nat) : Option Nat := do
  let byte <- byteOf bitsTable (vecBitIdx / 8)
  let oneIdx := rankLookup (byte &&& lowMask 8 (vecBitIdx % 8)) + 1
  let scan <- selectScan bitsTable oneIdx (vecBitIdx / 8) 0
  selectFound bitsTable oneIdx scan

def selectQuery (sel : Select) (oneIdx : Nat) : Option Nat :=
  selectQueryIn sel.bitsVec sel.selectTable oneIdx

def selectNextQuery (sel : Select) (vecBitIdx : Nat) : Option Nat :=
  selectNextQueryIn sel.bitsVec vecBitIdx

theorem getLsbD_selectInsert0 (buffer : BitVec 32) (j : Nat) :
    (selectInsert0 buffer).getLsbD j = if j = 31 then false else buffer.getLsbD (j + 1) := by
  unfold selectInsert0
  rw [BitVec.getLsbD_ushiftRight, Nat.add_comm]
  split_ifs with last
  · rw [last, BitVec.getLsbD_of_ge _ _ (by decide)]
  · rfl

theorem getLsbD_selectInsert1 (buffer : BitVec 32) {j : Nat} (inside : j < 32) :
    (selectInsert1 buffer).getLsbD j = if j = 31 then true else buffer.getLsbD (j + 1) := by
  have mask : (0x80000000#32).getLsbD j = decide (j = 31) := by
    have table : forall k : Fin 32, (0x80000000#32).getLsbD k.val = decide (k.val = 31) := by decide
    exact table ⟨j, inside⟩
  have shifted := getLsbD_selectInsert0 buffer j
  unfold selectInsert0 at shifted
  unfold selectInsert1
  rw [BitVec.getLsbD_or, mask, shifted]
  split_ifs with last
  · rw [decide_eq_true last, Bool.or_true]
  · rw [decide_eq_false last, Bool.or_false]

/-- The first `idx` of some bits are written: the full words of them are in the
table, which is clear behind these words, and the others are in the upper part
of the buffer. -/
structure Emitted (bits : Nat -> Bool) (idx : Nat) (buffer : BitVec 32) (bitsVec : BitsTable) :
    Prop where
  stored : forall p, p < 32 * (idx / 32) -> bitOf bitsVec p = bits p
  clear : forall p, 32 * (idx / 32) ≤ p -> bitOf bitsVec p = false
  buffered : forall t, t < idx % 32 -> buffer.getLsbD (32 - idx % 32 + t) =
    bits (32 * (idx / 32) + t)

/-- One more bit is inserted. -/
theorem Emitted.insert {bits : Nat -> Bool} {idx : Nat} {buffer : BitVec 32} {bitsVec : BitsTable}
    (emitted : Emitted bits idx buffer bitsVec) (inserted : BitVec 32)
    (room : idx < 32 * bitsVec.length) (shifts : forall j, j < 32 ->
      inserted.getLsbD j = if j = 31 then bits idx else buffer.getLsbD (j + 1)) :
    Exists fun after => storeBuffer (idx + 1) inserted bitsVec = some after ∧
      after.length = bitsVec.length ∧
      Emitted bits (idx + 1) inserted after := by
  -- The inserted bit is the uppermost one, the others have moved down.
  have upper : forall t, t ≤ idx % 32 -> inserted.getLsbD (31 - idx % 32 + t) =
      bits (32 * (idx / 32) + t) := by
    intro t le
    rw [shifts _ (by omega)]
    by_cases last : t = idx % 32
    · rw [if_pos (by omega), last]
      congr 1
      omega
    · rw [if_neg (by omega), ← emitted.buffered t (by omega)]
      congr 1
      omega
  unfold storeBuffer
  by_cases full : (idx + 1) % 32 = 0
  · have word : (idx + 1) / 32 - 1 = idx / 32 := by omega
    have inside : idx / 32 < bitsVec.length := by omega
    refine ⟨bitsVec.set (idx / 32) inserted, ?_, List.length_set, ?_, ?_, ?_⟩
    · rw [if_pos full, word, writeAt_eq_some inside]
    · intro p below
      rw [bitOf_set inside]
      by_cases own : p / 32 = idx / 32
      · rw [if_pos own, (by omega : p % 32 = 31 - idx % 32 + p % 32), upper _ (by omega)]
        congr 1
        omega
      · rw [if_neg own]
        exact emitted.stored p (by omega)
    · intro p above
      rw [bitOf_set inside, if_neg (by omega)]
      exact emitted.clear p (by omega)
    · intro t less
      omega
  · have word : (idx + 1) / 32 = idx / 32 := by omega
    refine ⟨bitsVec, by rw [if_neg full], rfl, ?_, ?_, ?_⟩
    · rw [word]
      exact emitted.stored
    · rw [word]
      exact emitted.clear
    · intro t less
      rw [word, ← upper t (by omega)]
      congr 1
      omega

/-- In the end the table holds the bits and is clear behind them. -/
theorem Emitted.storeLast {bits : Nat -> Bool} {filling : Filling}
    (emitted : Emitted bits filling.idx filling.buffer filling.bitsVec)
    (room : filling.idx ≤ 32 * filling.bitsVec.length) :
    Exists fun after => storeLast filling = some after ∧ after.length = filling.bitsVec.length ∧
      forall p, bitOf after p = (decide (p < filling.idx) && bits p) := by
  unfold Hash.storeLast
  by_cases whole : filling.idx % 32 = 0
  · refine ⟨filling.bitsVec, if_pos whole, rfl, fun p => ?_⟩
    by_cases below : p < filling.idx
    · rw [emitted.stored p (by omega), decide_eq_true below, Bool.true_and]
    · rw [emitted.clear p (by omega), decide_eq_false below, Bool.false_and]
  · have word : (filling.idx - 1) / 32 = filling.idx / 32 := by omega
    have inside : filling.idx / 32 < filling.bitsVec.length := by omega
    refine ⟨_, by rw [if_neg whole, word, writeAt_eq_some inside], List.length_set, fun p => ?_⟩
    rw [bitOf_set inside]
    by_cases own : p / 32 = filling.idx / 32
    · rw [if_pos own, BitVec.getLsbD_ushiftRight]
      by_cases below : p < filling.idx
      · rw [emitted.buffered _ (by omega), decide_eq_true below, Bool.true_and]
        congr 1
        omega
      · rw [BitVec.getLsbD_of_ge _ _ (by omega), decide_eq_false below, Bool.false_and]
    · rw [if_neg own]
      by_cases below : p < filling.idx
      · rw [emitted.stored p (by omega), decide_eq_true below, Bool.true_and]
      · rw [emitted.clear p (by omega), decide_eq_false below, Bool.false_and]

section

variable {keysVec : List Nat} {m : Nat}

/-- The code has placed the keys before `j` and has come to the number `i`. -/
structure Filled (keysVec : List Nat) (vecSize : Nat) (filling : Filling) : Prop where
  place : filling.idx = filling.i + filling.j
  earlier : forall k, k < filling.j -> (inside : k < keysVec.length) -> keysVec[k] ≤ filling.i
  length : filling.bitsVec.length = vecSize
  emitted : Emitted (fun p =>
    decide (p ∈ unaryPositions keysVec)) filling.idx filling.buffer filling.bitsVec

/-- Between two rounds some key is left, and it is not below `i`. -/
structure FillsOn (keysVec : List Nat) (vecSize : Nat) (filling : Filling) : Prop
    extends Filled keysVec vecSize filling where
  left : filling.j < keysVec.length
  ahead : filling.i ≤ keysVec[filling.j]

/-- Rounds left: a bit for each number and each key, and the changes of loop. -/
def fillMeasure (keysVec : List Nat) (m : Nat) (filling : Filling) : Nat :=
  2 * (keysVec.length - filling.j + (m - filling.i)) +
    (if filling.zeros = decide (keysVec[filling.j]? = some filling.i) then 1 else 0)

theorem mem_unaryPositions_iff (sorted : keysVec.Pairwise (fun first second => first ≤ second))
    {vecSize : Nat} {filling : Filling} (fills : FillsOn keysVec vecSize filling)
    (left : filling.j < keysVec.length) :
    filling.idx ∈ unaryPositions keysVec <-> keysVec[filling.j] = filling.i := by
  have place := fills.place
  have ahead := fills.ahead
  rw [mem_unaryPositions]
  constructor
  · rintro ⟨k, inside, same⟩
    rcases Nat.lt_trichotomy k filling.j with less | equal | more
    · have below := fills.earlier k less inside
      omega
    · subst equal
      omega
    · have above := List.pairwise_iff_getElem.mp sorted filling.j k left inside more
      omega
  · intro same
    exact ⟨filling.j, left, by omega⟩

theorem selectFillRound_spec (sorted : keysVec.Pairwise (fun first second => first ≤ second))
    (bounded : forall key, key ∈ keysVec -> key ≤ m) {vecSize : Nat}
    (room : keysVec.length + m ≤ 32 * vecSize) (filling : Filling)
    (fills : FillsOn keysVec vecSize filling) :
    (Exists fun filled => selectFillRound keysVec keysVec.length m filling = some (.leave filled) ∧
      Filled keysVec vecSize filled ∧ filled.j = keysVec.length ∧ filled.i ≤ m) ∨
    (Exists fun next => selectFillRound keysVec keysVec.length m filling = some (.again next) ∧
      FillsOn keysVec vecSize next ∧
      fillMeasure keysVec m next < fillMeasure keysVec m filling) := by
  have entry := List.getElem?_eq_getElem fills.left
  have most := bounded _ (List.getElem_mem fills.left)
  have ahead := fills.ahead
  have left := fills.left
  have place := fills.place
  have here := mem_unaryPositions_iff sorted fills fills.left
  have space : filling.idx < 32 * filling.bitsVec.length := by
    rw [fills.length]
    omega
  rcases filling with ⟨zeros, i, j, idx, buffer, bitsVec⟩
  dsimp only at *
  cases zeros with
  | true =>
      by_cases below : i < keysVec[j]
      · have other : ¬ keysVec[j] = i := by omega
        rcases fills.emitted.insert (selectInsert0 buffer) space (fun t _ => by
            rw [getLsbD_selectInsert0 buffer t,
              decide_eq_false (fun member => other (here.mp member))])
          with ⟨after, stored, length, emitted⟩
        refine Or.inr ⟨⟨true, i + 1, j, idx + 1, selectInsert0 buffer, after⟩, ?_, ?_, ?_⟩
        · simp [selectFillRound, entry, below, stored]
        · refine ⟨⟨by dsimp only; omega, ?_, by rw [← fills.length]; exact length, emitted⟩, left,
            below⟩
          intro k less inside
          exact Nat.le_succ_of_le (fills.earlier k less inside)
        · unfold fillMeasure
          dsimp only
          rw [entry]
          simp only [Option.some.injEq, other, decide_false]
          split_ifs <;> omega
      · have same : keysVec[j] = i := by omega
        refine Or.inr ⟨⟨false, i, j, idx, buffer, bitsVec⟩, ?_, ?_, ?_⟩
        · simp [selectFillRound, entry, below]
        · exact ⟨⟨place, fills.earlier, fills.length, fills.emitted⟩, left, ahead⟩
        · unfold fillMeasure
          dsimp only
          rw [entry, same]
          simp
  | false =>
      by_cases same : keysVec[j] = i
      · rcases fills.emitted.insert (selectInsert1 buffer) space (fun t inWord => by
            rw [getLsbD_selectInsert1 buffer inWord, decide_eq_true (here.mpr same)])
          with ⟨after, stored, length, emitted⟩
        have filled : Filled keysVec vecSize ⟨false, i, j + 1, idx + 1, selectInsert1 buffer,
            after⟩ := by
          refine ⟨by dsimp only; omega, ?_, by rw [← fills.length]; exact length, emitted⟩
          intro k less inside
          rcases Nat.lt_succ_iff_lt_or_eq.mp less with earlier | rfl
          · exact fills.earlier k earlier inside
          · exact Nat.le_of_eq same
        by_cases last : j + 1 = keysVec.length
        · refine Or.inl ⟨⟨false, i, j + 1, idx + 1, selectInsert1 buffer, after⟩, ?_, filled, last,
            ?_⟩
          · simp [selectFillRound, entry, same, stored, last]
          · dsimp only
            omega
        · refine Or.inr ⟨⟨false, i, j + 1, idx + 1, selectInsert1 buffer, after⟩, ?_, ?_, ?_⟩
          · simp [selectFillRound, entry, same, stored, last]
          · refine ⟨filled, by dsimp only; omega, ?_⟩
            have later := List.pairwise_iff_getElem.mp sorted j (j + 1) left (by omega) (by omega)
            dsimp only
            omega
          · unfold fillMeasure
            dsimp only
            rw [entry, same]
            simp only [decide_true, Bool.false_eq_true, if_false]
            split_ifs <;> omega
      · have unfinished : ¬ i = m := by omega
        refine Or.inr ⟨⟨true, i, j, idx, buffer, bitsVec⟩, ?_, ?_, ?_⟩
        · simp [selectFillRound, entry, same, unfinished]
        · exact ⟨⟨place, fills.earlier, fills.length, fills.emitted⟩, left, ahead⟩
        · unfold fillMeasure
          dsimp only
          rw [entry]
          simp [same]

/-- The loops end with the unary code of the keys in the table. -/
theorem fill_eq_some (sorted : keysVec.Pairwise (fun first second => first ≤ second))
    (bounded : forall key, key ∈ keysVec -> key ≤ m) (nonempty : keysVec ≠ []) {vecSize : Nat}
    (room : keysVec.length + m ≤ 32 * vecSize) :
    Exists fun filled =>
      runLoop (selectFillRound keysVec keysVec.length m) (64 * (vecSize + 1) + 2)
        ⟨false, 0, 0, 0, 0#32, List.replicate vecSize 0#32⟩ = some filled ∧
      Exists fun bitsVec => storeLast filled = some bitsVec ∧ bitsVec.length = vecSize ∧
        forall p, bitOf bitsVec p = decide (p ∈ unaryPositions keysVec) := by
  have start : FillsOn keysVec vecSize ⟨false, 0, 0, 0, 0#32, List.replicate vecSize 0#32⟩ := by
    refine ⟨⟨rfl, fun k less => absurd less (Nat.not_lt_zero k), List.length_replicate, ?_, ?_, ?_⟩,
      List.length_pos_iff.mpr nonempty, Nat.zero_le _⟩
    · exact fun p below => absurd below (by simp)
    · exact fun p _ => bitOf_replicate vecSize p
    · exact fun t less => absurd less (Nat.not_lt_zero t)
  have enough : fillMeasure keysVec m ⟨false, 0, 0, 0, 0#32, List.replicate vecSize 0#32⟩ <
      64 * (vecSize + 1) + 2 := by
    unfold fillMeasure
    dsimp only
    split_ifs <;> omega
  rcases runLoop_of_measure _ _ (selectFillRound_spec sorted bounded room) start enough with
    ⟨filled, run, written, all, most⟩
  have place := written.place
  have length := written.length
  rcases written.emitted.storeLast (by omega) with ⟨bitsVec, stored, size, bits⟩
  refine ⟨filled, run, bitsVec, stored, size.trans length, ?_⟩
  intro p
  rw [bits]
  by_cases member : p ∈ unaryPositions keysVec
  · rcases mem_unaryPositions.mp member with ⟨k, inside, rfl⟩
    have below := written.earlier k (by omega) inside
    have before : keysVec[k] + k < filled.idx := by omega
    rw [decide_eq_true before, Bool.true_and]
  · rw [decide_eq_false member, Bool.and_false]

end

section

variable {bitsTable : BitsTable}

theorem byteOf_inside (bitsTable : BitsTable) (k : Nat) (inside : k < 4 * bitsTable.length) :
    Exists fun byte => byteOf bitsTable k = some byte :=
  byteOf_eq_some (by decide) inside

/-- Before every round the sum counts the set bits before the next byte, and the
set bit is not before that byte. -/
theorem selectScan_eq_some {place oneIdx vecByteIdx : Nat} (partSum offset : Nat)
    (isSet : bitOf bitsTable place = true) (inside : place < 32 * bitsTable.length)
    (ahead : 8 * vecByteIdx ≤ place)
    (counted : partSum + offset = rankOf bitsTable (8 * vecByteIdx))
    (wanted : oneIdx + offset = rankOf bitsTable place) :
    Exists fun scan => selectScan bitsTable oneIdx vecByteIdx partSum = some scan ∧
      scan.vecByteIdx = place / 8 + 1 ∧
      scan.oldPartSum + offset = rankOf bitsTable (8 * (place / 8)) ∧
      scan.partSum + offset = rankOf bitsTable (8 * (place / 8 + 1)) := by
  refine runLoop_of_measure
    (fun scan => 8 * scan.vecByteIdx ≤ place ∧ scan.partSum + offset =
      rankOf bitsTable (8 * scan.vecByteIdx)) (fun scan =>
        4 * bitsTable.length - scan.vecByteIdx) ?_ ⟨ahead, counted⟩ (by dsimp only; omega)
  rintro ⟨k, sum, old⟩ ⟨notPast, upTo⟩
  dsimp only at notPast upTo
  rcases byteOf_inside bitsTable k (by omega) with ⟨byte, found⟩
  have next : sum + rankLookup byte + offset = rankOf bitsTable (8 * (k + 1)) := by
    rw [Nat.mul_succ, rankOf_in_byte (by decide) (by decide) found (Nat.le_refl 8), rankLookup_eq]
    omega
  by_cases onward : sum + rankLookup byte ≤ oneIdx
  · have past : 8 * (k + 1) ≤ place := by
      by_contra near
      have more := rankOf_lt isSet (Nat.not_le.mp near)
      omega
    refine Or.inr ⟨⟨k + 1, sum + rankLookup byte, sum⟩, ?_, ⟨past, next⟩, ?_⟩
    · simp [selectScanRound, found, onward]
    · dsimp only
      omega
  · have reached : place < 8 * (k + 1) := by
      by_contra far
      have most := rankOf_le bitsTable (Nat.not_lt.mp far)
      omega
    have last : place / 8 = k := by omega
    refine Or.inl ⟨⟨k + 1, sum + rankLookup byte, sum⟩, ?_, ?_⟩
    · simp [selectScanRound, found, onward]
    · rw [last]
      exact ⟨rfl, upTo, next⟩

/-- The last byte of the scan holds the set bit. -/
theorem selectFound_eq_some {place oneIdx offset : Nat} {scan : Scan}
    (isSet : bitOf bitsTable place = true) (inside : place < 32 * bitsTable.length)
    (small : oneIdx < 2 ^ 32) (byteIdx : scan.vecByteIdx = place / 8 + 1)
    (counted : scan.oldPartSum + offset = rankOf bitsTable (8 * (place / 8)))
    (wanted : oneIdx + offset = rankOf bitsTable place) :
      selectFound bitsTable oneIdx scan = some place := by
  rcases byteOf_inside bitsTable (place / 8) (by omega) with ⟨byte, found⟩
  have split : 8 * (place / 8) + place % 8 = place := Nat.div_add_mod place 8
  have low : place % 8 < 8 := Nat.mod_lt _ (by decide)
  have rank := rankOf_in_byte (by decide) (by decide) found (Nat.le_of_lt low)
  rw [split] at rank
  have number : (oneIdx + 2 ^ 32 - scan.oldPartSum) % 2 ^ 32 = byteRank byte (place % 8) := by
    rw [Nat.sub_add_comm (by omega), Nat.add_mod_right, Nat.mod_eq_of_lt (by omega)]
    omega
  have own : byte.getLsbD (place % 8) = true := by
    rw [byteOf_getLsbD (by decide) (by decide) found low, split]
    exact isSet
  have less : byteRank byte (place % 8) < byteRank byte 8 := Nat.count_strict_mono own low
  rcases selectLookup_eq byte _ less with ⟨bit, entry, bitInside, bitSet, same⟩
  have equal : bit = place % 8 := Nat.count_injective bitSet own same
  unfold selectFound
  rw [byteIdx, Nat.add_sub_cancel]
  simp only [found, number, entry, equal, Option.bind_eq_bind, Option.bind_some]
  congr 1
  omega

end

/-! ## Generated structures -/

/-- The two tables answer for the keys: the bits are their unary code, and the
samples are the positions of every 128th set bit. -/
structure Selects (keysVec : List Nat) (bitsTable selectTable : BitsTable) : Prop where
  sorted : keysVec.Pairwise (fun first second => first ≤ second)
  small : keysVec.length + 128 ≤ 2 ^ 32
  bits : forall p, bitOf bitsTable p = decide (p ∈ unaryPositions keysVec)
  room : forall j, (inside : j < keysVec.length) -> keysVec[j] + j < 32 * bitsTable.length
  samples : forall t, (inside : stepSelectTable * t < keysVec.length) ->
    Exists fun word => selectTable[t]? = some word ∧
      word.toNat = keysVec[stepSelectTable * t] + stepSelectTable * t

section

variable {keysVec : List Nat} {bitsTable selectTable : BitsTable}

theorem enumerates_of_bits (sorted : keysVec.Pairwise (fun first second => first ≤ second))
    (bits : forall p, bitOf bitsTable p = decide (p ∈ unaryPositions keysVec)) :
    Enumerates bitsTable (unaryPositions keysVec) where
  increasing := unaryPositions_increasing sorted
  exactly := fun p => by rw [bits, decide_eq_true_eq]

theorem rankOf_key (sorted : keysVec.Pairwise (fun first second => first ≤ second))
    (bits : forall p, bitOf bitsTable p = decide (p ∈ unaryPositions keysVec)) {j : Nat}
    (inside : j < keysVec.length) :
    bitOf bitsTable (keysVec[j] + j) = true ∧ rankOf bitsTable (keysVec[j] + j) = j := by
  have enumerates := enumerates_of_bits sorted bits
  have position : j < (unaryPositions keysVec).length := by rwa [unaryPositions_length]
  have isSet := enumerates.set position
  have rank := enumerates.rankOf_getElem position
  rw [unaryPositions_getElem position] at isSet rank
  exact ⟨isSet, rank⟩

/-- The samples written so far. -/
structure Sampled (keysVec : List Nat) (bitsTable : BitsTable) (sampling : Sampling) : Prop where
  length : sampling.selectTable.length = selectTableSize keysVec.length
  oneIdx : sampling.oneIdx = stepSelectTable * sampling.selTableIdx
  bound : sampling.selTableIdx ≤ sampling.selectTable.length
  counted : sampling.partSum = rankOf bitsTable (8 * sampling.vecIdx)
  ahead : forall inside : sampling.oneIdx < keysVec.length,
    8 * sampling.vecIdx ≤ keysVec[sampling.oneIdx] + sampling.oneIdx
  samples : forall t, t < sampling.selTableIdx -> (inside : stepSelectTable * t < keysVec.length) ->
    Exists fun word => sampling.selectTable[t]? = some word ∧
      word.toNat = keysVec[stepSelectTable * t] + stepSelectTable * t

theorem selectSampleRound_spec (sorted : keysVec.Pairwise (fun first second => first ≤ second))
    (small : keysVec.length + 128 ≤ 2 ^ 32)
    (bits : forall p, bitOf bitsTable p = decide (p ∈ unaryPositions keysVec))
    (room : forall j, (inside : j < keysVec.length) -> keysVec[j] + j < 32 * bitsTable.length)
    (words : 32 * bitsTable.length ≤ 2 ^ 32) (sampling : Sampling)
    (sampled : Sampled keysVec bitsTable sampling) :
    (Exists fun selectTable => selectSampleRound keysVec.length bitsTable sampling =
      some (.leave selectTable) ∧
      selectTable.length = selectTableSize keysVec.length ∧ Selects keysVec bitsTable selectTable) ∨
    (Exists fun next => selectSampleRound keysVec.length bitsTable sampling = some (.again next) ∧
      Sampled keysVec bitsTable next ∧
      next.selectTable.length - next.selTableIdx <
        sampling.selectTable.length - sampling.selTableIdx) := by
  rcases sampling with ⟨vecIdx, partSum, oneIdx, selTableIdx, selectTable⟩
  rcases sampled with ⟨length, index, bound, counted, ahead, samples⟩
  dsimp only at *
  by_cases finished : keysVec.length ≤ oneIdx
  · refine Or.inl ⟨selectTable, if_pos finished, length, sorted, small, bits, room, ?_⟩
    intro t inside
    exact samples t (by unfold stepSelectTable at *; omega) inside
  · have inside := Nat.not_le.mp finished
    rcases rankOf_key sorted bits inside with ⟨isSet, rank⟩
    have fits := room oneIdx inside
    rcases selectScan_eq_some _ 0 isSet fits (ahead inside) counted rank.symm with
      ⟨scan, scanned, byteIdx, old, sum⟩
    have found := selectFound_eq_some isSet fits (by omega) byteIdx old rank.symm
    have slot : selTableIdx < selectTable.length := by
      rw [length]
      unfold selectTableSize stepSelectTable at *
      omega
    have next : (oneIdx + stepSelectTable) % 2 ^ 32 = stepSelectTable * (selTableIdx + 1) := by
      unfold stepSelectTable at *
      rw [Nat.mod_eq_of_lt (by omega)]
      omega
    refine Or.inr ⟨⟨scan.vecByteIdx, scan.partSum, (oneIdx + stepSelectTable) % 2 ^ 32,
      selTableIdx + 1,
      selectTable.set selTableIdx (BitVec.ofNat 32 (keysVec[oneIdx] + oneIdx))⟩, ?_, ?_, ?_⟩
    · simp [selectSampleRound, finished, scanned, found, writeAt_eq_some slot]
    · refine ⟨by rw [List.length_set]; exact length, next, by rw [List.length_set]; exact slot, ?_,
        ?_, ?_⟩
      · dsimp only
        rw [byteIdx, ← sum, Nat.add_zero]
      · -- The next sample is at least 128 bits further.
        dsimp only
        rw [next, byteIdx]
        intro nextInside
        have le := List.pairwise_iff_getElem.mp sorted oneIdx
          (stepSelectTable * (selTableIdx + 1)) inside nextInside
          (by unfold stepSelectTable at *; omega)
        unfold stepSelectTable at *
        omega
      · intro t less tInside
        dsimp only at less ⊢
        by_cases own : t = selTableIdx
        · subst own
          refine ⟨_, List.getElem?_set_self slot, ?_⟩
          rw [BitVec.toNat_ofNat, Nat.mod_eq_of_lt (by omega)]
          simp only [index]
        · rw [List.getElem?_set_ne (Ne.symm own)]
          exact samples t (by omega) tInside
    · dsimp only
      rw [List.length_set]
      omega

theorem selectGenerateSelTable_eq_some
    (sorted : keysVec.Pairwise (fun first second => first ≤ second))
    (small : keysVec.length + 128 ≤ 2 ^ 32)
    (bits : forall p, bitOf bitsTable p = decide (p ∈ unaryPositions keysVec))
    (room : forall j, (inside : j < keysVec.length) -> keysVec[j] + j < 32 * bitsTable.length)
    (words : 32 * bitsTable.length ≤ 2 ^ 32) :
    Exists fun selectTable =>
      selectGenerateSelTable keysVec.length bitsTable
        (List.replicate (selectTableSize keysVec.length) 0#32) = some selectTable ∧
      selectTable.length = selectTableSize keysVec.length ∧
        Selects keysVec bitsTable selectTable := by
  have start : Sampled keysVec bitsTable
      ⟨0, 0, 0, 0, List.replicate (selectTableSize keysVec.length) 0#32⟩ := by
    refine ⟨List.length_replicate, rfl, Nat.zero_le _, ?_, fun _ => Nat.zero_le _, ?_⟩
    · exact (Nat.count_zero _).symm
    · exact fun t less => absurd less (Nat.not_lt_zero t)
  exact runLoop_of_measure _ _ (selectSampleRound_spec sorted small bits room words) start
    (by dsimp only; omega)

/-- Every key is found by its number. -/
theorem Selects.query (selects : Selects keysVec bitsTable selectTable) {j : Nat}
    (inside : j < keysVec.length) :
    selectQueryIn bitsTable selectTable j = some (keysVec[j] + j) := by
  have small := selects.small
  have below : stepSelectTable * (j / stepSelectTable) ≤ j := Nat.mul_div_le _ _
  rcases selects.samples (j / stepSelectTable) (by omega) with ⟨word, entry, sample⟩
  have sampled : stepSelectTable * (j / stepSelectTable) < keysVec.length := by omega
  rcases rankOf_key selects.sorted selects.bits sampled with ⟨-, sampleRank⟩
  rcases rankOf_key selects.sorted selects.bits inside with ⟨isSet, rank⟩
  have fits := selects.room j inside
  have sampleFits := selects.room (stepSelectTable * (j / stepSelectTable)) (by omega)
  have le : word.toNat ≤ keysVec[j] + j := by
    rcases Nat.lt_or_eq_of_le below with less | same
    · have sorted := List.pairwise_iff_getElem.mp selects.sorted _ j (by omega) inside less
      omega
    · simp only [same] at sample
      omega
  rw [← sample] at sampleRank sampleFits
  rcases byteOf_inside bitsTable (word.toNat / 8) (by omega) with ⟨byte, found⟩
  have low : word.toNat % 8 < 8 := Nat.mod_lt _ (by decide)
  have lower := rankOf_in_byte (by decide) (by decide) found (Nat.le_of_lt low)
  rw [Nat.div_add_mod, sampleRank] at lower
  -- Counted from the byte of the sample, the number of the key.
  have wanted : j % stepSelectTable + rankLookup (byte &&& lowMask 8 (word.toNat % 8)) +
      rankOf bitsTable (8 * (word.toNat / 8)) = rankOf bitsTable (keysVec[j] + j) := by
    have split := Nat.div_add_mod j stepSelectTable
    rw [rank, rankLookup_lowMask low]
    omega
  rcases selectScan_eq_some 0 _ isSet fits (by omega) (Nat.zero_add _) wanted with
    ⟨scan, scanned, byteIdx, old, -⟩
  have result := selectFound_eq_some isSet fits (by omega) byteIdx old wanted
  simp only [selectQueryIn, entry, found, scanned, result, Option.bind_eq_bind, Option.bind_some]

/-- From the set bit of a key the next query finds that of the next key. -/
theorem Selects.nextQuery (selects : Selects keysVec bitsTable selectTable) {j : Nat}
    (inside : j + 1 < keysVec.length) :
    selectNextQueryIn bitsTable (keysVec[j] + j) = some (keysVec[j + 1] + (j + 1)) := by
  have small := selects.small
  rcases rankOf_key selects.sorted selects.bits (by omega : j < keysVec.length) with ⟨-, rank⟩
  rcases rankOf_key selects.sorted selects.bits inside with ⟨isSet, nextRank⟩
  have fits := selects.room (j + 1) inside
  have ordered := List.pairwise_iff_getElem.mp selects.sorted j (j + 1) (by omega) inside
    (Nat.lt_succ_self j)
  rcases byteOf_inside bitsTable ((keysVec[j] + j) / 8) (by omega) with ⟨byte, found⟩
  have low : (keysVec[j] + j) % 8 < 8 := Nat.mod_lt _ (by decide)
  have lower := rankOf_in_byte (by decide) (by decide) found (Nat.le_of_lt low)
  rw [Nat.div_add_mod, rank] at lower
  have wanted : rankLookup (byte &&& lowMask 8 ((keysVec[j] + j) % 8)) + 1 +
      rankOf bitsTable (8 * ((keysVec[j] + j) / 8)) =
        rankOf bitsTable (keysVec[j + 1] + (j + 1)) := by
    rw [nextRank, rankLookup_lowMask low]
    omega
  rcases selectScan_eq_some 0 _ isSet fits (by omega) (Nat.zero_add _) wanted with
    ⟨scan, scanned, byteIdx, old, -⟩
  have result := selectFound_eq_some isSet fits (by omega) byteIdx old wanted
  simp only [selectNextQueryIn, found, scanned, result, Option.bind_eq_bind, Option.bind_some]

end

/-- `select_generate` succeeds on a nondecreasing list and answers for it. -/
theorem selectGenerate_selects (keysVec : List Nat) (m : Nat)
    (sorted : keysVec.Pairwise (fun first second => first ≤ second))
    (bounded : forall key, key ∈ keysVec -> key ≤ m) (nonempty : keysVec ≠ [])
    (small : keysVec.length + m + 128 ≤ 2 ^ 32) :
    Exists fun sel => selectGenerate keysVec keysVec.length m = some sel ∧
      sel.n = keysVec.length ∧ sel.m = m ∧ sel.bitsVec.length = selectVecSize keysVec.length m ∧
      sel.selectTable.length = selectTableSize keysVec.length ∧
      Selects keysVec sel.bitsVec sel.selectTable := by
  have size : keysVec.length + m ≤ 32 * selectVecSize keysVec.length m ∧
      32 * selectVecSize keysVec.length m ≤ 2 ^ 32 := by
    unfold selectVecSize
    omega
  rcases fill_eq_some sorted bounded nonempty size.1
    with ⟨filled, run, bitsVec, stored, length, bits⟩
  have room : forall j, (inside : j < keysVec.length) -> keysVec[j] + j < 32 * bitsVec.length := by
    intro j inside
    have most := bounded _ (List.getElem_mem inside)
    rw [length]
    omega
  rcases selectGenerateSelTable_eq_some sorted (by omega) bits room
    (by rw [length]; exact size.2) with
    ⟨selectTable, sampled, tableLength, selects⟩
  refine ⟨⟨keysVec.length, m, bitsVec, selectTable⟩, ?_, rfl, rfl, length, tableLength, selects⟩
  simp only [selectGenerate, run, stored, sampled, Option.bind_eq_bind, Option.bind_some]

/-- The select structure of a nondecreasing list gives every entry, raised by
its index, to a query for the index, and leads from every entry to the next. -/
theorem selectGenerate_queries (keysVec : List Nat) (m : Nat)
    (sorted : keysVec.Pairwise (fun first second => first ≤ second))
    (bounded : forall key, key ∈ keysVec -> key ≤ m) (nonempty : keysVec ≠ [])
    (small : keysVec.length + m + 128 ≤ 2 ^ 32) :
    Exists fun sel => selectGenerate keysVec keysVec.length m = some sel ∧
      (forall j, (inside : j < keysVec.length) -> selectQuery sel j = some (keysVec[j] + j)) ∧
      forall j, (inside : j + 1 < keysVec.length) ->
        selectNextQuery sel (keysVec[j] + j) = some (keysVec[j + 1] + (j + 1)) := by
  rcases selectGenerate_selects keysVec _ sorted bounded nonempty small
    with ⟨sel, generated, -, -, -, -, selects⟩
  exact ⟨sel, generated, fun j inside => selects.query inside, fun j inside =>
    selects.nextQuery inside⟩

def fiveKeys : List Nat := [0, 0, 3, 40, 41]

theorem selectGenerate_queries_five :
    Exists fun sel => selectGenerate fiveKeys fiveKeys.length 41 = some sel ∧
      (forall j, (inside : j < fiveKeys.length) -> selectQuery sel j = some (fiveKeys[j] + j)) ∧
      forall j, (inside : j + 1 < fiveKeys.length) ->
        selectNextQuery sel (fiveKeys[j] + j) = some (fiveKeys[j + 1] + (j + 1)) :=
  selectGenerate_queries fiveKeys 41 (by decide) (by decide) (by decide) (by decide)

end Hash
end Johnny
