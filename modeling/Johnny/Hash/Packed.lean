import Johnny.Hash.CompressedRank
import Johnny.Hash.CompressedSeq

namespace Johnny
namespace Hash

open Library

/-!
# Packed structures

The structures are copied into contiguous memory, their numbers first, then
their tables, and `compressed_rank_query_packed` and `compressed_seq_query_packed`
search there.  The memory is taken in words of 32 bits; all sizes are whole
words.  A pointer is the memory from there on, so the tables of a packed
structure have no end of their own, and whatever lies behind them may follow.
-/

/-- `memcpy` of some words. -/
def copyWords (table : BitsTable) (count : Nat) : Option BitsTable :=
  if count ≤ table.length then some (table.take count) else none

/-- `select_packed_size`, in bytes. -/
def selectPackedSize (sel : Select) : Nat :=
  (2 * 4 + selectVecSize sel.n sel.m * 4 + selectTableSize sel.n * 4) % 2 ^ 32

def selectDump (sel : Select) : Option BitsTable := do
  let bitsVec <- copyWords sel.bitsVec (selectVecSize sel.n sel.m)
  let selectTable <- copyWords sel.selectTable (selectTableSize sel.n)
  some ([BitVec.ofNat 32 sel.n, BitVec.ofNat 32 sel.m] ++ bitsVec ++ selectTable)

def selectLoad (buf : BitsTable) : Option Select := do
  let n <- buf[0]?
  let m <- buf[1]?
  let vecSize := selectVecSize n.toNat m.toNat
  let bitsVec <- copyWords (buf.drop 2) vecSize
  let selectTable <- copyWords (buf.drop (2 + vecSize)) (selectTableSize n.toNat)
  some ⟨n.toNat, m.toNat, bitsVec, selectTable⟩

def selectQueryPacked (selPacked : BitsTable) (oneIdx : Nat) : Option Nat := do
  let n <- selPacked[0]?
  let m <- selPacked[1]?
  let bitsVec := selPacked.drop 2
  selectQueryIn bitsVec (bitsVec.drop (selectVecSize n.toNat m.toNat)) oneIdx

def selectNextQueryPacked (selPacked : BitsTable) (vecBitIdx : Nat) : Option Nat :=
  selectNextQueryIn (selPacked.drop 2) vecBitIdx

namespace CompressedRank

/-- `compressed_rank_packed_size`, in bytes. -/
def packedSize (cr : CompressedRank) : Nat :=
  (4 * 4 + selectPackedSize cr.sel + bitsTableSize cr.n cr.remR * 4) % 2 ^ 32

def dump (cr : CompressedRank) : Option BitsTable := do
  let bufSel <- selectDump cr.sel
  let valsRems <- copyWords cr.valsRems (bitsTableSize cr.n cr.remR)
  some ([BitVec.ofNat 32 cr.maxVal, BitVec.ofNat 32 cr.n, BitVec.ofNat 32 cr.remR,
    BitVec.ofNat 32 (selectPackedSize cr.sel)] ++ bufSel ++ valsRems)

def load (buf : BitsTable) : Option CompressedRank := do
  let maxVal <- buf[0]?
  let n <- buf[1]?
  let remR <- buf[2]?
  let buflenSel <- buf[3]?
  let sel <- selectLoad (buf.drop 4)
  let valsRems <- copyWords (buf.drop (4 + buflenSel.toNat / 4)) (bitsTableSize n.toNat remR.toNat)
  some ⟨maxVal.toNat, n.toNat, remR.toNat, sel, valsRems⟩

def queryPacked (crPacked : BitsTable) (idx : Nat) : Option Nat := do
  let maxVal <- crPacked[0]?
  let n <- crPacked[1]?
  let remR <- crPacked[2]?
  let buflenSel <- crPacked[3]?
  let selPacked := crPacked.drop 4
  let bitsVec := selPacked.drop 2
  let valsRems := selPacked.drop (buflenSel.toNat / 4)
  queryIn maxVal.toNat n.toNat remR.toNat (selectQueryPacked selPacked) bitsVec valsRems idx

end CompressedRank

namespace CompressedSeq

def storeTableSize (totalLength : Nat) : Nat := (totalLength + 31) % 2 ^ 32 / 32

/-- `compressed_seq_packed_size`, in bytes. -/
def packedSize (cs : CompressedSeq) : Nat :=
  (4 * 4 + selectPackedSize cs.sel + storeTableSize cs.totalLength * 4 +
    bitsTableSize cs.n cs.remR * 4) % 2 ^ 32

def dump (cs : CompressedSeq) : Option BitsTable := do
  let bufSel <- selectDump cs.sel
  let lengthRems <- copyWords cs.lengthRems (bitsTableSize cs.n cs.remR)
  let storeTable <- copyWords cs.storeTable (storeTableSize cs.totalLength)
  some ([BitVec.ofNat 32 cs.n, BitVec.ofNat 32 cs.remR, BitVec.ofNat 32 cs.totalLength,
    BitVec.ofNat 32 (selectPackedSize cs.sel)] ++ bufSel ++ lengthRems ++ storeTable)

def load (buf : BitsTable) : Option CompressedSeq := do
  let n <- buf[0]?
  let remR <- buf[1]?
  let totalLength <- buf[2]?
  let buflenSel <- buf[3]?
  let sel <- selectLoad (buf.drop 4)
  let pos := 4 + buflenSel.toNat / 4
  let lengthRemsSize := bitsTableSize n.toNat remR.toNat
  let lengthRems <- copyWords (buf.drop pos) lengthRemsSize
  let storeTable <- copyWords (buf.drop (pos + lengthRemsSize)) (storeTableSize totalLength.toNat)
  some ⟨n.toNat, totalLength.toNat, remR.toNat, sel, lengthRems, storeTable⟩

def queryPacked (csPacked : BitsTable) (idx : Nat) : Option Nat := do
  let n <- csPacked[0]?
  let remR <- csPacked[1]?
  let buflenSel <- csPacked[3]?
  let selPacked := csPacked.drop 4
  let lengthRems := selPacked.drop (buflenSel.toNat / 4)
  let storeTable := lengthRems.drop (bitsTableSize n.toNat remR.toNat)
  queryIn remR.toNat (selectQueryPacked selPacked)
    (selectNextQueryPacked selPacked) lengthRems storeTable idx

end CompressedSeq

section

variable {table : BitsTable} (rest : BitsTable)

theorem entry_append {k : Nat} {word : BitVec 32} (entry : table[k]? = some word) :
    (table ++ rest)[k]? = some word := by
  rw [List.getElem?_append_left (List.getElem?_eq_some_iff.mp entry).1, entry]

theorem getBit32_append {i : Nat} {word : BitVec 32} (found : getBit32 table i = some word) :
    getBit32 (table ++ rest) i = some word := by
  unfold getBit32 at found ⊢
  rcases Option.map_eq_some_iff.mp found with ⟨whole, entry, rfl⟩
  rw [entry_append rest entry, Option.map_some]

theorem getBits_append {bitIdx stringLength : Nat} {stringMask bitsString : BitVec 32}
    (found : getBits table bitIdx stringLength stringMask = some bitsString) :
    getBits (table ++ rest) bitIdx stringLength stringMask = some bitsString := by
  unfold getBits at found ⊢
  simp only [Option.bind_eq_bind, Option.bind_eq_some_iff] at found ⊢
  rcases found with ⟨word, entry, found⟩
  refine ⟨word, entry_append rest entry, ?_⟩
  split_ifs at found ⊢
  · rcases Option.bind_eq_some_iff.mp found with ⟨next, nextEntry, same⟩
    exact Option.bind_eq_some_iff.mpr ⟨next, entry_append rest nextEntry, same⟩
  · exact found

theorem selectScan_append {oneIdx vecByteIdx partSum : Nat} {scan : Scan}
    (scanned : selectScan table oneIdx vecByteIdx partSum = some scan) :
    selectScan (table ++ rest) oneIdx vecByteIdx partSum = some scan := by
  unfold selectScan at scanned ⊢
  refine runLoop_mono ?_ (by rw [List.length_append]; omega) scanned
  intro state pass round
  unfold selectScanRound at round ⊢
  simp only [Option.bind_eq_bind, Option.bind_eq_some_iff] at round ⊢
  rcases round with ⟨byte, found, same⟩
  exact ⟨byte, byteOf_append found, same⟩

theorem selectFound_append {oneIdx place : Nat} {scan : Scan}
    (found : selectFound table oneIdx scan = some place) :
    selectFound (table ++ rest) oneIdx scan = some place := by
  unfold selectFound at found ⊢
  simp only [Option.bind_eq_bind, Option.bind_eq_some_iff] at found ⊢
  rcases found with ⟨byte, read, same⟩
  exact ⟨byte, byteOf_append read, same⟩

theorem selectQueryIn_append {selectTable : BitsTable} (restTable : BitsTable) {oneIdx place : Nat}
    (found : selectQueryIn table selectTable oneIdx = some place) :
    selectQueryIn (table ++ rest) (selectTable ++ restTable) oneIdx = some place := by
  unfold selectQueryIn at found ⊢
  simp only [Option.bind_eq_bind, Option.bind_eq_some_iff] at found ⊢
  rcases found with ⟨entry, sample, byte, read, scan, scanned, result⟩
  exact ⟨entry, entry_append restTable sample, byte, byteOf_append read, scan,
    selectScan_append rest scanned,
    selectFound_append rest result⟩

theorem selectNextQueryIn_append {vecBitIdx place : Nat}
    (found : selectNextQueryIn table vecBitIdx = some place) :
    selectNextQueryIn (table ++ rest) vecBitIdx = some place := by
  unfold selectNextQueryIn at found ⊢
  simp only [Option.bind_eq_bind, Option.bind_eq_some_iff] at found ⊢
  rcases found with ⟨byte, read, scan, scanned, result⟩
  exact ⟨byte, byteOf_append read, scan, selectScan_append rest scanned,
    selectFound_append rest result⟩

end

theorem CompressedRank.queryIn_append {maxVal n remR idx rank : Nat}
    {select selectAfter : Nat -> Option Nat} {bitsVec valsRems : BitsTable}
    (restBits restRems : BitsTable)
    (selects : forall i place, select i = some place -> selectAfter i = some place)
    (found : queryIn maxVal n remR select bitsVec valsRems idx = some rank) :
    queryIn maxVal n remR selectAfter (bitsVec ++ restBits) (valsRems ++ restRems) idx =
      some rank := by
  unfold queryIn at found ⊢
  split_ifs at found ⊢
  · exact found
  · simp only [Option.bind_eq_bind, Option.bind_eq_some_iff] at found ⊢
    rcases found with ⟨start, started, run⟩
    refine ⟨start, ?_, runLoop_mono ?_ (by rw [List.length_append]; omega) run⟩
    · unfold queryStart at started ⊢
      split_ifs at started ⊢
      · exact started
      · rcases Option.map_eq_some_iff.mp started with ⟨place, answer, same⟩
        exact Option.map_eq_some_iff.mpr ⟨place, selects _ _ answer, same⟩
    · intro state pass round
      unfold queryRound at round ⊢
      simp only [Option.bind_eq_bind, Option.bind_eq_some_iff] at round ⊢
      rcases round with ⟨bit, read, round⟩
      refine ⟨bit, getBit32_append restBits read, ?_⟩
      split_ifs at round ⊢
      · exact round
      · rcases Option.bind_eq_some_iff.mp round with ⟨rem, remRead, same⟩
        exact Option.bind_eq_some_iff.mpr ⟨rem, getBits_append restRems remRead, same⟩

theorem CompressedSeq.queryIn_append {remR idx val : Nat}
    {select selectAfter next nextAfter : Nat -> Option Nat}
    {lengthRems storeTable : BitsTable} (restRems restStore : BitsTable)
    (selects : forall i place, select i = some place -> selectAfter i = some place)
    (nexts : forall i place, next i = some place -> nextAfter i = some place)
    (found : queryIn remR select next lengthRems storeTable idx = some val) :
    queryIn remR selectAfter nextAfter (lengthRems ++ restRems) (storeTable ++ restStore) idx =
      some val := by
  unfold queryIn at found ⊢
  simp only [Option.bind_eq_bind, Option.bind_eq_some_iff] at found ⊢
  rcases found with ⟨start, started, rem, remRead, found⟩
  refine ⟨start, ?_, rem, getBits_append restRems remRead, ?_⟩
  · unfold queryStart at started ⊢
    split_ifs at started ⊢
    · rcases Option.map_eq_some_iff.mp started with ⟨place, answer, same⟩
      exact Option.map_eq_some_iff.mpr ⟨place, selects _ _ answer, same⟩
    · simp only [Option.bind_eq_bind, Option.bind_eq_some_iff] at started ⊢
      rcases started with ⟨place, answer, before, beforeRead, later, laterAnswer, same⟩
      exact ⟨place, selects _ _ answer, before, getBits_append restRems beforeRead, later,
        nexts _ _ laterAnswer, same⟩
  · split_ifs at found ⊢
    · exact found
    · rcases Option.bind_eq_some_iff.mp found with ⟨stored, read, same⟩
      exact Option.bind_eq_some_iff.mpr ⟨stored, getBits_append restStore read, same⟩

/-! ## Dumping and loading -/

theorem copyWords_append {table : BitsTable} {count : Nat} (length : table.length = count)
    (rest : BitsTable) : copyWords (table ++ rest) count = some table := by
  unfold copyWords
  rw [if_pos (by rw [List.length_append]; omega), List.take_left' length]

theorem copyWords_self {table : BitsTable} {count : Nat} (length : table.length = count) :
    copyWords table count = some table := by
  have copied := copyWords_append length []
  rwa [List.append_nil] at copied

theorem toNat_ofNat_of_lt {n : Nat} (small : n < 2 ^ 32) : (BitVec.ofNat 32 n).toNat = n := by
  rw [BitVec.toNat_ofNat, Nat.mod_eq_of_lt small]

/-- The numbers are words and the tables have the sizes that belong to them. -/
structure Select.Proper (sel : Select) : Prop where
  n_lt : sel.n < 2 ^ 32
  m_lt : sel.m < 2 ^ 32
  bitsVec : sel.bitsVec.length = selectVecSize sel.n sel.m
  selectTable : sel.selectTable.length = selectTableSize sel.n

def Select.words (sel : Select) : BitsTable :=
  [BitVec.ofNat 32 sel.n, BitVec.ofNat 32 sel.m] ++ sel.bitsVec ++ sel.selectTable

namespace Select.Proper

variable {sel : Select} (proper : sel.Proper)

include proper

theorem dump : selectDump sel = some sel.words := by
  simp only [selectDump, copyWords_self proper.bitsVec, copyWords_self proper.selectTable,
    Option.bind_eq_bind, Option.bind_some, Select.words]

theorem packedSize : selectPackedSize sel = 4 * sel.words.length := by
  have small := proper.n_lt
  simp only [selectPackedSize, Select.words, List.length_append, List.length_cons, List.length_nil,
    proper.bitsVec, proper.selectTable]
  unfold selectVecSize selectTableSize stepSelectTable
  omega

theorem words_small : 4 * sel.words.length < 2 ^ 29 + 2 ^ 28 := by
  have small := proper.n_lt
  simp only [Select.words, List.length_append, List.length_cons, List.length_nil, proper.bitsVec,
    proper.selectTable]
  unfold selectVecSize selectTableSize stepSelectTable
  omega

theorem load (rest : BitsTable) : selectLoad (sel.words ++ rest) = some sel := by
  have n := toNat_ofNat_of_lt proper.n_lt
  have m := toNat_ofNat_of_lt proper.m_lt
  have bits : copyWords (sel.bitsVec ++ (sel.selectTable ++ rest)) (selectVecSize sel.n sel.m) =
      some sel.bitsVec :=
    copyWords_append proper.bitsVec _
  have table : copyWords ((sel.bitsVec ++ (sel.selectTable ++ rest)).drop
    (selectVecSize sel.n sel.m))
      (selectTableSize sel.n) = some sel.selectTable := by
    rw [List.drop_left' proper.bitsVec]
    exact copyWords_append proper.selectTable _
  simp only [selectLoad, Select.words, List.append_assoc, List.cons_append, List.nil_append,
    List.getElem?_cons_zero, List.getElem?_cons_succ, Option.bind_eq_bind, Option.bind_some, n, m,
    List.drop_succ_cons, List.drop_zero, Nat.add_comm 2, bits, table]

theorem queryPacked (rest : BitsTable) {oneIdx place : Nat}
    (found : selectQuery sel oneIdx = some place) :
    selectQueryPacked (sel.words ++ rest) oneIdx = some place := by
  have n := toNat_ofNat_of_lt proper.n_lt
  have m := toNat_ofNat_of_lt proper.m_lt
  have table : (sel.bitsVec ++ (sel.selectTable ++ rest)).drop (selectVecSize sel.n sel.m) =
      sel.selectTable ++ rest :=
    List.drop_left' proper.bitsVec
  simp only [selectQueryPacked, Select.words, List.append_assoc, List.cons_append, List.nil_append,
    List.getElem?_cons_zero, List.getElem?_cons_succ, Option.bind_eq_bind, Option.bind_some, n, m,
    List.drop_succ_cons, List.drop_zero, table]
  exact selectQueryIn_append _ _ found

end Select.Proper

theorem Select.nextQueryPacked (sel : Select) (rest : BitsTable) {vecBitIdx place : Nat}
    (found : selectNextQuery sel vecBitIdx = some place) :
    selectNextQueryPacked (sel.words ++ rest) vecBitIdx = some place := by
  simp only [selectNextQueryPacked, Select.words, List.append_assoc, List.cons_append,
    List.nil_append, List.drop_succ_cons, List.drop_zero]
  exact selectNextQueryIn_append _ found

/-- The numbers are words and the tables have the sizes that belong to them. -/
structure CompressedRank.Proper (cr : CompressedRank) : Prop where
  maxVal_lt : cr.maxVal < 2 ^ 32
  n_lt : cr.n < 2 ^ 32
  remR_lt : cr.remR < 2 ^ 32
  sel : cr.sel.Proper
  valsRems : cr.valsRems.length = bitsTableSize cr.n cr.remR

def CompressedRank.words (cr : CompressedRank) : BitsTable :=
  [BitVec.ofNat 32 cr.maxVal, BitVec.ofNat 32 cr.n, BitVec.ofNat 32 cr.remR,
    BitVec.ofNat 32 (selectPackedSize cr.sel)] ++ cr.sel.words ++ cr.valsRems

/-- The word that leads to the tables behind the select structure. -/
theorem Select.Proper.buflen {sel : Select} (proper : sel.Proper) :
    (BitVec.ofNat 32 (selectPackedSize sel)).toNat / 4 = sel.words.length := by
  have small := proper.words_small
  rw [proper.packedSize, toNat_ofNat_of_lt (by omega), Nat.mul_div_cancel_left _ (by decide)]

theorem bitsTableSize_lt (n bitsLength : Nat) : bitsTableSize n bitsLength < 2 ^ 27 := by
  unfold bitsTableSize
  omega

namespace CompressedRank.Proper

variable {cr : CompressedRank} (proper : cr.Proper)

include proper

theorem dump : cr.dump = some cr.words := by
  simp only [CompressedRank.dump, proper.sel.dump, copyWords_self proper.valsRems,
    Option.bind_eq_bind, Option.bind_some, CompressedRank.words]

theorem words_small : 4 * cr.words.length < 2 ^ 30 + 2 ^ 28 + 16 := by
  have selSmall := proper.sel.words_small
  have remsSmall := bitsTableSize_lt cr.n cr.remR
  simp only [CompressedRank.words, List.length_append, List.length_cons, List.length_nil,
    proper.valsRems]
  omega

theorem packedSize : cr.packedSize = 4 * cr.words.length := by
  have small := proper.words_small
  simp only [CompressedRank.packedSize, CompressedRank.words, List.length_append, List.length_cons,
    List.length_nil, proper.sel.packedSize, proper.valsRems] at small ⊢
  omega

theorem load (rest : BitsTable) : CompressedRank.load (cr.words ++ rest) = some cr := by
  have maxVal := toNat_ofNat_of_lt proper.maxVal_lt
  have n := toNat_ofNat_of_lt proper.n_lt
  have remR := toNat_ofNat_of_lt proper.remR_lt
  have sel := proper.sel.load (cr.valsRems ++ rest)
  have rems : copyWords ((cr.sel.words ++ (cr.valsRems ++ rest)).drop cr.sel.words.length)
      (bitsTableSize cr.n cr.remR) = some cr.valsRems := by
    rw [List.drop_left]
    exact copyWords_append proper.valsRems rest
  simp only [CompressedRank.load, CompressedRank.words, List.append_assoc, List.cons_append,
    List.nil_append, List.getElem?_cons_zero, List.getElem?_cons_succ, Option.bind_eq_bind,
    Option.bind_some, maxVal, n, remR, List.drop_succ_cons, List.drop_zero, Nat.add_comm 4,
    proper.sel.buflen, sel, rems]

theorem queryPacked (rest : BitsTable) {idx rank : Nat} (found : cr.query idx = some rank) :
    CompressedRank.queryPacked (cr.words ++ rest) idx = some rank := by
  have maxVal := toNat_ofNat_of_lt proper.maxVal_lt
  have n := toNat_ofNat_of_lt proper.n_lt
  have remR := toNat_ofNat_of_lt proper.remR_lt
  have bits : (cr.sel.words ++ (cr.valsRems ++ rest)).drop 2 =
      cr.sel.bitsVec ++ (cr.sel.selectTable ++ (cr.valsRems ++ rest)) := by
    simp [Select.words]
  have rems : (cr.sel.words ++ (cr.valsRems ++ rest)).drop cr.sel.words.length =
      cr.valsRems ++ rest :=
    List.drop_left
  simp only [CompressedRank.queryPacked, CompressedRank.words, List.append_assoc, List.cons_append,
    List.nil_append, List.getElem?_cons_zero, List.getElem?_cons_succ, Option.bind_eq_bind,
    Option.bind_some, maxVal, n, remR, List.drop_succ_cons, List.drop_zero, proper.sel.buflen, bits,
    rems]
  exact CompressedRank.queryIn_append _ _ (fun _ _ answer => proper.sel.queryPacked _ answer) found

end CompressedRank.Proper

/-- The numbers are words and the tables have the sizes that belong to them. -/
structure CompressedSeq.Proper (cs : CompressedSeq) : Prop where
  n_lt : cs.n < 2 ^ 32
  remR_lt : cs.remR < 2 ^ 32
  totalLength_lt : cs.totalLength < 2 ^ 32
  sel : cs.sel.Proper
  lengthRems : cs.lengthRems.length = bitsTableSize cs.n cs.remR
  storeTable : cs.storeTable.length = storeTableSize cs.totalLength

def CompressedSeq.words (cs : CompressedSeq) : BitsTable :=
  [BitVec.ofNat 32 cs.n, BitVec.ofNat 32 cs.remR, BitVec.ofNat 32 cs.totalLength,
    BitVec.ofNat 32 (selectPackedSize cs.sel)] ++ cs.sel.words ++ cs.lengthRems ++ cs.storeTable

namespace CompressedSeq.Proper

variable {cs : CompressedSeq} (proper : cs.Proper)

include proper

theorem dump : cs.dump = some cs.words := by
  simp only [CompressedSeq.dump, proper.sel.dump, copyWords_self proper.lengthRems,
    copyWords_self proper.storeTable, Option.bind_eq_bind, Option.bind_some, CompressedSeq.words]

theorem words_small : 4 * cs.words.length < 2 ^ 30 + 2 ^ 29 + 2 ^ 28 + 16 := by
  have selSmall := proper.sel.words_small
  have remsSmall := bitsTableSize_lt cs.n cs.remR
  have storeSmall : storeTableSize cs.totalLength < 2 ^ 27 := by
    unfold storeTableSize
    omega
  simp only [CompressedSeq.words, List.length_append, List.length_cons, List.length_nil,
    proper.lengthRems, proper.storeTable]
  omega

theorem packedSize : cs.packedSize = 4 * cs.words.length := by
  have small := proper.words_small
  simp only [CompressedSeq.packedSize, CompressedSeq.words, List.length_append, List.length_cons,
    List.length_nil, proper.sel.packedSize, proper.lengthRems, proper.storeTable] at small ⊢
  omega

theorem load (rest : BitsTable) : CompressedSeq.load (cs.words ++ rest) = some cs := by
  have n := toNat_ofNat_of_lt proper.n_lt
  have remR := toNat_ofNat_of_lt proper.remR_lt
  have totalLength := toNat_ofNat_of_lt proper.totalLength_lt
  have sel := proper.sel.load (cs.lengthRems ++ (cs.storeTable ++ rest))
  have rems : copyWords ((cs.sel.words ++
    (cs.lengthRems ++ (cs.storeTable ++ rest))).drop cs.sel.words.length)
      (bitsTableSize cs.n cs.remR) = some cs.lengthRems := by
    rw [List.drop_left]
    exact copyWords_append proper.lengthRems _
  have store : copyWords ((cs.sel.words ++ (cs.lengthRems ++ (cs.storeTable ++ rest))).drop
      (cs.sel.words.length + bitsTableSize cs.n cs.remR)) (storeTableSize cs.totalLength) =
        some cs.storeTable := by
    rw [← List.drop_drop, List.drop_left, List.drop_left' proper.lengthRems]
    exact copyWords_append proper.storeTable _
  simp only [CompressedSeq.load, CompressedSeq.words, List.append_assoc, List.cons_append,
    List.nil_append, List.getElem?_cons_zero, List.getElem?_cons_succ, Option.bind_eq_bind,
    Option.bind_some, n, remR, totalLength, List.drop_succ_cons, List.drop_zero, Nat.add_comm 4,
    Nat.add_right_comm _ 4, proper.sel.buflen, sel, rems, store]

theorem queryPacked (rest : BitsTable) {idx val : Nat} (found : cs.query idx = some val) :
    CompressedSeq.queryPacked (cs.words ++ rest) idx = some val := by
  have n := toNat_ofNat_of_lt proper.n_lt
  have remR := toNat_ofNat_of_lt proper.remR_lt
  have rems : (cs.sel.words ++
      (cs.lengthRems ++ (cs.storeTable ++ rest))).drop cs.sel.words.length =
      cs.lengthRems ++ (cs.storeTable ++ rest) :=
    List.drop_left
  have store : (cs.lengthRems ++ (cs.storeTable ++ rest)).drop (bitsTableSize cs.n cs.remR) =
      cs.storeTable ++ rest :=
    List.drop_left' proper.lengthRems
  unfold CompressedSeq.query at found
  split_ifs at found
  simp only [CompressedSeq.queryPacked, CompressedSeq.words, List.append_assoc, List.cons_append,
    List.nil_append, List.getElem?_cons_zero, List.getElem?_cons_succ, Option.bind_eq_bind,
    Option.bind_some, n, remR, List.drop_succ_cons, List.drop_zero, proper.sel.buflen, rems, store]
  exact CompressedSeq.queryIn_append _ _ (fun _ _ answer => proper.sel.queryPacked _ answer)
    (fun _ _ answer => cs.sel.nextQueryPacked _ answer) found

end CompressedSeq.Proper

/-! ## Generated structures -/

theorem CompressedRank.generate_proper {vals : List Nat}
    (sorted : vals.Pairwise (fun first second => first ≤ second)) (two : 2 ≤ vals.getLastD 0)
    (small : vals.length + vals.getLastD 0 + 128 ≤ 2 ^ 32) :
    Exists fun cr => CompressedRank.generate vals vals.length = some cr ∧ cr.Proper ∧
      forall idx, cr.query idx = some (compressedRankQuery vals idx) := by
  rcases CompressedRank.generate_stores sorted two small with
    ⟨cr, generated, maxVal, n, selN, selM, bits, table, rems, stores⟩
  have short := stores.short
  have quotient : cr.maxVal / 2 ^ cr.remR ≤ cr.maxVal := Nat.div_le_self _ _
  refine ⟨cr, generated, ⟨by omega, by omega, by omega, ⟨by omega, by omega, bits, table⟩, rems⟩,
    fun idx => ?_⟩
  unfold CompressedRank.query
  rw [maxVal, n]
  exact stores.query idx

theorem CompressedSeq.generate_proper {vals : List Nat} (nonempty : 0 < vals.length)
    (small : forall val, val ∈ vals -> val + 1 < 2 ^ 32)
    (total : vals.length + (vals.map CompressedSeq.encLength).sum + 128 ≤ 2 ^ 32) :
    Exists fun cs => CompressedSeq.generate vals vals.length = some cs ∧ cs.Proper ∧
      forall idx, (inside : idx < vals.length) -> cs.query idx = some vals[idx] := by
  rw [← CompressedSeq.encEnd_length] at total
  rcases CompressedSeq.generate_stores nonempty small total with
    ⟨cs, generated, n, totalLength, selN, selM, bits, table, rems, store, stores⟩
  have short := stores.short
  have quotient : cs.totalLength / 2 ^ cs.remR ≤ cs.totalLength := Nat.div_le_self _ _
  refine ⟨cs, generated, ⟨by omega, by omega, by omega, ⟨by omega, by omega, bits, table⟩, rems,
    store⟩,
    fun idx inside => ?_⟩
  unfold CompressedSeq.query
  rw [n, if_pos inside]
  exact stores.query inside

/-- Packed ranks have the size that was announced and, wherever they are in
memory, can be loaded again and answer like the list. -/
theorem compressedRank_packed (vals : List Nat)
    (sorted : vals.Pairwise (fun first second => first ≤ second))
    (two : 2 ≤ vals.getLastD 0) (small : vals.length + vals.getLastD 0 + 128 ≤ 2 ^ 32) :
    Exists fun cr => Exists fun crPacked =>
      CompressedRank.generate vals vals.length = some cr ∧ cr.dump = some crPacked ∧
      cr.packedSize = 4 * crPacked.length ∧
      forall rest, CompressedRank.load (crPacked ++ rest) = some cr ∧
        forall idx, CompressedRank.queryPacked (crPacked ++ rest) idx =
          some (compressedRankQuery vals idx) := by
  rcases CompressedRank.generate_proper sorted two small with ⟨cr, generated, proper, query⟩
  refine ⟨cr, cr.words, generated, proper.dump, proper.packedSize, fun rest =>
    ⟨proper.load rest, fun idx => ?_⟩⟩
  exact proper.queryPacked rest (query idx)

theorem compressedRank_packed_four :
    Exists fun cr => Exists fun crPacked =>
      CompressedRank.generate [1, 2, 9, 40] 4 = some cr ∧ cr.dump = some crPacked ∧
      cr.packedSize = 4 * crPacked.length ∧
      forall rest, CompressedRank.load (crPacked ++ rest) = some cr ∧
        forall idx, CompressedRank.queryPacked (crPacked ++ rest) idx =
          some (compressedRankQuery [1, 2, 9, 40] idx) :=
  compressedRank_packed [1, 2, 9, 40] (by decide) (by decide) (by decide)

/-- The same for packed sequences. -/
theorem compressedSeq_packed (vals : List Nat) (nonempty : vals ≠ [])
    (small : forall val, val ∈ vals -> val + 1 < 2 ^ 32)
    (total : vals.length + (vals.map CompressedSeq.encLength).sum + 128 ≤ 2 ^ 32) :
    Exists fun cs => Exists fun csPacked =>
      CompressedSeq.generate vals vals.length = some cs ∧ cs.dump = some csPacked ∧
      cs.packedSize = 4 * csPacked.length ∧
      forall rest, CompressedSeq.load (csPacked ++ rest) = some cs ∧
        forall idx, (inside : idx < vals.length) ->
          CompressedSeq.queryPacked (csPacked ++ rest) idx = some vals[idx] := by
  rcases CompressedSeq.generate_proper (List.length_pos_iff.mpr nonempty) small total with
    ⟨cs, generated, proper, query⟩
  refine ⟨cs, cs.words, generated, proper.dump, proper.packedSize, fun rest =>
    ⟨proper.load rest, ?_⟩⟩
  intro idx inside
  exact proper.queryPacked rest (query idx inside)

theorem compressedSeq_packed_six :
    Exists fun cs => Exists fun csPacked =>
      CompressedSeq.generate sixVals sixVals.length = some cs ∧ cs.dump = some csPacked ∧
      cs.packedSize = 4 * csPacked.length ∧
      forall rest, CompressedSeq.load (csPacked ++ rest) = some cs ∧
        forall idx, (inside : idx < sixVals.length) ->
          CompressedSeq.queryPacked (csPacked ++ rest) idx = some sixVals[idx] := by
  refine compressedSeq_packed sixVals (by decide) (by decide) ?_
  simp [sixVals, CompressedSeq.encLength, iLog2]

end Hash
end Johnny
