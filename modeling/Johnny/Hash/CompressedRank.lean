import Johnny.Hash.Select
import Johnny.Hash.Chd

namespace Johnny
namespace Hash

open Library

/-!
# Compressed ranks

`compressed_rank.c` keeps a sorted table of values and answers how many of them
are below a number.  The lower bits of the values go to a table of bit strings.
Of the upper bits only the numbers of values below each of them are kept, in a
select structure, whose bits then tell whether the next value has the same upper
bits.
-/

/-- `compressed_rank_t`. -/
structure CompressedRank where
  maxVal : Nat
  n : Nat
  remR : Nat
  sel : Select
  valsRems : BitsTable
  deriving DecidableEq

def compressedRankILog2 (x : Nat) : Nat := iLog2 x

namespace CompressedRank

/-- The inner loop of the second `for` of `compressed_rank_generate`. -/
def skipRound (valsTable : List Nat) (remR i : Nat) (j : Nat) : Option (Pass Nat Nat) := do
  let val <- valsTable[j]?
  if val / 2 ^ remR < i then some (.again (j + 1)) else some (.leave j)

def storeRem (valsTable : List Nat) (remR i : Nat) (valsRems : BitsTable) : Option BitsTable := do
  let remsMask := lowMask 32 remR
  let val <- valsTable[i]?
  setBitsValue valsRems i (BitVec.ofNat 32 val &&& remsMask) remR remsMask

/-- The second `for` runs from 1; `state` holds `select_vec` and `j`. -/
def storeQuotient (valsTable : List Nat) (remR i : Nat) (state : List Nat × Nat) :
    Option (List Nat × Nat) := do
  let j <- runLoop (skipRound valsTable remR (i + 1)) (valsTable.length + 1) state.2
  let selectVec <- writeAt state.1 i j
  some (selectVec, j)

def generate (valsTable : List Nat) (n : Nat) : Option CompressedRank := do
  let maxVal <- valsTable[(n + 2 ^ 32 - 1) % 2 ^ 32]?
  let remR := oneIfZero (compressedRankILog2 (maxVal / n))
  let valsRems <- forLoop (storeRem valsTable remR) n (List.replicate (bitsTableSize n remR) 0#32)
  let selectVec <- forLoop (storeQuotient valsTable remR) (maxVal / 2 ^ remR)
    (List.replicate (maxVal / 2 ^ remR) 0, 0)
  let sel <- selectGenerate selectVec.1 (maxVal / 2 ^ remR) n
  some ⟨maxVal, n, remR, sel, valsRems⟩

/-- The state of the last loop is `sel_res` and `rank`. -/
def queryRound (bitsVec valsRems : BitsTable) (remR : Nat) (valRem : BitVec 32)
    (state : Nat × Nat) : Option (Pass (Nat × Nat) Nat) := do
  let bit <- getBit32 bitsVec state.1
  if bit ≠ 0#32 then some (.leave state.2)
  else
    let rem <- getBitsValue valsRems state.2 remR (lowMask 32 remR)
    if valRem.toNat ≤ rem.toNat then some (.leave state.2)
    else some (.again (state.1 + 1, state.2 + 1))

/-- `sel_res` and `rank` before the last loop. -/
def queryStart (select : Nat -> Option Nat) (valQuot : Nat) : Option (Nat × Nat) :=
  if valQuot = 0 then some (0, 0)
  else (select (valQuot - 1)).map (fun found => (found + 1, found + 1 - valQuot))

/-- The part that `compressed_rank_query` and `compressed_rank_query_packed`
share; they differ in where their tables are. -/
def queryIn (maxVal n remR : Nat) (select : Nat -> Option Nat) (bitsVec valsRems : BitsTable)
    (idx : Nat) : Option Nat :=
  if maxVal < idx then some n
  else do
    let valQuot := idx / 2 ^ remR
    let valRem := BitVec.ofNat 32 idx &&& lowMask 32 remR
    let start <- queryStart select valQuot
    runLoop (queryRound bitsVec valsRems remR valRem) (32 * bitsVec.length + 1) start

def query (cr : CompressedRank) (idx : Nat) : Option Nat :=
  queryIn cr.maxVal cr.n cr.remR (selectQuery cr.sel) cr.sel.bitsVec cr.valsRems idx

section

variable {vals : List Nat} {remR : Nat}

/-- How many values have smaller upper bits. -/
def quotRank (vals : List Nat) (remR quot : Nat) : Nat :=
  vals.countP (fun val => decide (val / 2 ^ remR < quot))

theorem lt_quotRank_iff (remR : Nat) (sorted : vals.Pairwise (fun first second => first ≤ second))
    {k : Nat} (inside : k < vals.length) (quot : Nat) : k < quotRank vals remR quot <->
      vals[k] / 2 ^ remR < quot := by
  have quots : (vals.map (fun val => val / 2 ^ remR)).Pairwise (fun first second =>
      first ≤ second) :=
    sorted.map _ (fun _ _ le => Nat.div_le_div_right le)
  have rank := lt_countP_iff quots (by rwa [List.length_map]) quot (k := k)
  rw [List.countP_map, List.getElem_map] at rank
  exact rank

theorem quotRank_le_length (quot : Nat) : quotRank vals remR quot ≤ vals.length :=
  List.countP_le_length

theorem quotRank_mono {first second : Nat} (le : first ≤ second) :
    quotRank vals remR first ≤ quotRank vals remR second := by
  apply List.countP_mono_left
  intro val _ less
  rw [decide_eq_true_eq] at less ⊢
  omega

/-- The inner loop goes on to the first value with upper bits that are large
enough. -/
theorem skip_eq_some (sorted : vals.Pairwise (fun first second => first ≤ second)) {quot j : Nat}
    (later : quotRank vals remR quot < vals.length) (le : j ≤ quotRank vals remR quot) :
    runLoop (skipRound vals remR quot) (vals.length + 1) j = some (quotRank vals remR quot) := by
  have ends : Exists fun result => runLoop (skipRound vals remR quot) (vals.length + 1) j =
    some result ∧
      result = quotRank vals remR quot :=
    runLoop_of_measure (fun j => j ≤ quotRank vals remR quot) (fun j => vals.length - j) (by
      intro k notPast
      have inside : k < vals.length := by omega
      have rank := lt_quotRank_iff remR sorted inside quot
      by_cases small : vals[k] / 2 ^ remR < quot
      · refine Or.inr ⟨k + 1, ?_, rank.mpr small, by omega⟩
        simp [skipRound, List.getElem?_eq_getElem inside, small]
      · refine Or.inl ⟨k, ?_, ?_⟩
        · simp [skipRound, List.getElem?_eq_getElem inside, small]
        · have past := rank.not.mpr small
          omega) le (by omega)
  rcases ends with ⟨result, run, rfl⟩
  exact run

/-- The keys of the select structure. -/
def quotRanks (vals : List Nat) (remR quots : Nat) : List Nat :=
  (List.range quots).map (fun quot => quotRank vals remR (quot + 1))

theorem storeQuotients_eq_some (sorted : vals.Pairwise (fun first second => first ≤ second))
    {quots : Nat}
    (exist : forall quot, quot < quots -> quotRank vals remR (quot + 1) < vals.length) :
    Exists fun last =>
      forLoop (storeQuotient vals remR) quots (List.replicate quots 0, 0) = some last ∧
      last.1 = quotRanks vals remR quots := by
  have filled := forLoop_of_step (storeQuotient vals remR) quots (List.replicate quots 0, 0)
    (fun i state => state.1.length = quots ∧ state.2 ≤ quotRank vals remR (i + 1) ∧
      forall k, k < i -> state.1[k]? = some (quotRank vals remR (k + 1))) (by
      rintro i ⟨selectVec, j⟩ inside ⟨length, le, stored⟩
      dsimp only at length le stored
      have slot : i < selectVec.length := by omega
      refine ⟨(selectVec.set i (quotRank vals remR (i + 1)), quotRank vals remR (i + 1)), ?_, ?_,
        ?_, ?_⟩
      · simp [storeQuotient, skip_eq_some sorted (exist i inside) le, writeAt_eq_some slot]
      · rw [List.length_set, length]
      · exact quotRank_mono (Nat.le_succ _)
      · intro k less
        dsimp only
        by_cases own : k = i
        · rw [own, List.getElem?_set_self slot]
        · rw [List.getElem?_set_ne (Ne.symm own)]
          exact stored k (by omega))
    ⟨List.length_replicate, Nat.zero_le _, fun k less => absurd less (Nat.not_lt_zero k)⟩
  rcases filled with ⟨last, run, length, -, stored⟩
  refine ⟨last, run, ?_⟩
  apply List.ext_getElem?
  intro k
  unfold quotRanks
  by_cases inside : k < quots
  · rw [stored k inside, List.getElem?_map, List.getElem?_range inside]
    rfl
  · rw [List.getElem?_eq_none (by omega),
      List.getElem?_eq_none (by rw [List.length_map, List.length_range]; omega)]

theorem quotRanks_sorted (quots : Nat) :
    (quotRanks vals remR quots).Pairwise (fun first second => first ≤ second) :=
  List.pairwise_le_range.map _ (fun _ _ le => quotRank_mono (Nat.succ_le_succ le))

@[simp] theorem quotRanks_length (quots : Nat) : (quotRanks vals remR quots).length = quots := by
  simp [quotRanks]

@[simp] theorem quotRanks_getElem {quots i : Nat}
    (inside : i < (quotRanks vals remR quots).length) :
    (quotRanks vals remR quots)[i] = quotRank vals remR (i + 1) := by
  simp [quotRanks]

/-- Among the values with the same upper bits, the bit that belongs to the next
value is set when its upper bits are larger. -/
theorem mem_unaryPositions_quotRanks_iff
    (sorted : vals.Pairwise (fun first second => first ≤ second))
    {quots quot rank : Nat} (inside : rank < vals.length) (most : vals[rank] / 2 ^ remR ≤ quots)
    (least : quotRank vals remR quot ≤ rank) (upTo : rank ≤ quotRank vals remR (quot + 1)) :
    rank + quot ∈ unaryPositions (quotRanks vals remR quots) <-> quot < vals[rank] / 2 ^ remR := by
  have next := lt_quotRank_iff remR sorted inside (quot + 1)
  rw [mem_unaryPositions]
  constructor
  · rintro ⟨i, bound, same⟩
    rw [quotRanks_getElem] at same
    rcases Nat.lt_trichotomy i quot with less | rfl | more
    · have earlier : quotRank vals remR (i + 1) ≤ quotRank vals remR quot := quotRank_mono less
      omega
    · omega
    · have later : quotRank vals remR (quot + 1) ≤ quotRank vals remR (i + 1) :=
        quotRank_mono (by omega)
      omega
  · intro larger
    refine ⟨quot, by rw [quotRanks_length]; omega, ?_⟩
    rw [quotRanks_getElem]
    omega

end

/-- The tables belong to the values. -/
structure Stores (vals : List Nat) (remR : Nat) (bitsVec selectTable valsRems : BitsTable) :
    Prop where
  nonempty : 0 < vals.length
  sorted : vals.Pairwise (fun first second => first ≤ second)
  positive : 0 < remR
  short : remR < 32
  small : forall val, val ∈ vals -> val < 2 ^ 32
  selects : Selects (quotRanks vals remR (vals.getLastD 0 / 2 ^ remR)) bitsVec selectTable
  room : vals.length + vals.getLastD 0 / 2 ^ remR ≤ 32 * bitsVec.length
  rems : forall k, (inside : k < vals.length) ->
    Exists fun rem => getBitsValue valsRems k remR (lowMask 32 remR) = some rem ∧
      rem.toNat = vals[k] % 2 ^ remR

theorem toNat_rem {remR val : Nat} (short : remR < 32) (small : val < 2 ^ 32) :
    (BitVec.ofNat 32 val &&& lowMask 32 remR).toNat = val % 2 ^ remR := by
  rw [toNat_and_lowMask short, BitVec.toNat_ofNat, Nat.mod_eq_of_lt small]

theorem storeRems_eq_some {vals : List Nat} {remR : Nat} (positive : 0 < remR) (short : remR < 32)
    (room : vals.length * remR + 31 < 2 ^ 32) (small : forall val, val ∈ vals -> val < 2 ^ 32) :
    Exists fun valsRems =>
      forLoop (storeRem vals remR) vals.length
        (List.replicate (bitsTableSize vals.length remR) 0#32) =
        some valsRems ∧
      valsRems.length = bitsTableSize vals.length remR ∧
      forall k, (inside : k < vals.length) ->
        Exists fun rem => getBitsValue valsRems k remR (lowMask 32 remR) = some rem ∧
          rem.toNat = vals[k] % 2 ^ remR := by
  let rems : Nat -> BitVec 32 := fun k => BitVec.ofNat 32 (vals.getD k 0) &&& lowMask 32 remR
  have filled := forLoop_of_step (storeRem vals remR) vals.length
    (List.replicate (bitsTableSize vals.length remR) 0#32)
    (fun i table => table.length = bitsTableSize vals.length remR ∧
      StoresStrings vals.length remR rems i table) (by
      rintro i table inside ⟨length, stores⟩
      have entry : vals[i]? = some (vals.getD i 0) := by
        rw [List.getD_eq_getElem?_getD, List.getElem?_eq_getElem inside, Option.getD_some]
      have fits : (rems i).toNat < 2 ^ remR := by
        rw [toNat_and_lowMask short]
        exact Nat.mod_lt _ (Nat.two_pow_pos remR)
      rcases stores.next room positive (Nat.le_of_lt short) inside fits
        with ⟨after, written, size, next⟩
      refine ⟨after, ?_, size.trans length, next⟩
      simp only [storeRem, entry, Option.bind_eq_bind, Option.bind_some]
      exact written)
    ⟨List.length_replicate, StoresStrings.start room⟩
  rcases filled with ⟨valsRems, run, length, stores⟩
  refine ⟨valsRems, run, length, fun k inside => ⟨_, stores.stored k inside, ?_⟩⟩
  have value : vals.getD k 0 = vals[k] := by
    rw [List.getD_eq_getElem?_getD, List.getElem?_eq_getElem inside, Option.getD_some]
  rw [toNat_rem short (by rw [value]; exact small _ (List.getElem_mem inside)), value]

section

variable {vals : List Nat}

theorem getLastD_eq (nonempty : 0 < vals.length) : vals.getLastD 0 = vals[vals.length - 1] := by
  rw [List.getLastD_eq_getLast?, List.getLast?_eq_getElem?,
    List.getElem?_eq_getElem (by omega : vals.length - 1 < vals.length), Option.getD_some]

theorem le_getLastD (sorted : vals.Pairwise (fun first second => first ≤ second)) {k : Nat}
    (inside : k < vals.length) : vals[k] ≤ vals.getLastD 0 := by
  rw [getLastD_eq (by omega)]
  rcases Nat.lt_or_eq_of_le (by omega : k ≤ vals.length - 1) with less | same
  · exact List.pairwise_iff_getElem.mp sorted k _ inside (by omega) less
  · simp only [same, Nat.le_refl]

theorem generate_stores (sorted : vals.Pairwise (fun first second => first ≤ second))
    (two : 2 ≤ vals.getLastD 0) (small : vals.length + vals.getLastD 0 + 128 ≤ 2 ^ 32) :
    Exists fun cr => generate vals vals.length = some cr ∧ cr.maxVal = vals.getLastD 0 ∧
      cr.n = vals.length ∧
      cr.sel.n = cr.maxVal / 2 ^ cr.remR ∧ cr.sel.m = cr.n ∧
      cr.sel.bitsVec.length = selectVecSize cr.sel.n cr.sel.m ∧
      cr.sel.selectTable.length = selectTableSize cr.sel.n ∧
      cr.valsRems.length = bitsTableSize cr.n cr.remR ∧
      Stores vals cr.remR cr.sel.bitsVec cr.sel.selectTable cr.valsRems := by
  have nonempty : 0 < vals.length := by
    rcases vals with - | ⟨first, rest⟩
    · exact absurd two (by decide)
    · exact Nat.succ_pos _
  have lastEntry : vals[(vals.length + 2 ^ 32 - 1) % 2 ^ 32]? = some (vals.getLastD 0) := by
    have place : (vals.length + 2 ^ 32 - 1) % 2 ^ 32 = vals.length - 1 := by omega
    rw [place, List.getElem?_eq_getElem (by omega), getLastD_eq nonempty]
  have words : forall val, val ∈ vals -> val < 2 ^ 32 := by
    intro val member
    rcases List.mem_iff_getElem.mp member with ⟨k, inside, rfl⟩
    have most := le_getLastD sorted inside
    omega
  generalize length : oneIfZero (iLog2 (vals.getLastD 0 / vals.length)) = remR
  rcases oneIfZero_bounds nonempty small length with ⟨positive, short, room⟩
  have quotients := oneIfZero_quotient two length
  rcases storeRems_eq_some positive short room words with ⟨valsRems, stored, remsLength, rems⟩
  have exist : forall quot, quot < vals.getLastD 0 / 2 ^ remR ->
      quotRank vals remR (quot + 1) < vals.length := by
    intro quot less
    have rank := lt_quotRank_iff remR sorted (by omega : vals.length - 1 < vals.length) (quot + 1)
    rw [← getLastD_eq nonempty] at rank
    have most : quotRank vals remR (quot + 1) ≤ vals.length := quotRank_le_length _
    by_contra all
    have below := rank.mp (by omega)
    omega
  rcases storeQuotients_eq_some sorted exist with ⟨last, quotiented, selectVec⟩
  have below : vals.getLastD 0 / 2 ^ remR ≤ vals.getLastD 0 := Nat.div_le_self _ _
  rcases selectGenerate_selects (quotRanks vals remR (vals.getLastD 0 / 2 ^ remR)) vals.length
      (quotRanks_sorted _) (by
        intro key member
        rcases List.mem_map.mp member with ⟨quot, -, rfl⟩
        exact quotRank_le_length _)
      (List.ne_nil_of_length_pos (by rw [quotRanks_length]; exact quotients))
      (by rw [quotRanks_length]; omega) with
    ⟨sel, generated, selN, selM, vecLength, tableLength, selects⟩
  rw [quotRanks_length] at generated selN vecLength tableLength
  refine ⟨⟨vals.getLastD 0, vals.length, remR, sel, valsRems⟩, ?_, rfl, rfl, selN, selM, ?_, ?_,
    remsLength, ?_⟩
  · simp only [generate, compressedRankILog2, lastEntry, length, stored, quotiented, selectVec,
      generated, Option.bind_eq_bind, Option.bind_some]
  · rw [vecLength, selN, selM]
  · rw [tableLength, selN]
  · refine ⟨nonempty, sorted, positive, short, words, selects, ?_, rems⟩
    dsimp only
    rw [vecLength]
    unfold selectVecSize
    omega

end

/-! ## Queries -/

/-- The ranks that the last loop may still have: the values before them are
below the number, and they belong to its upper bits. -/
structure Searching (vals : List Nat) (remR idx : Nat) (state : Nat × Nat) : Prop where
  place : state.1 = state.2 + idx / 2 ^ remR
  least : quotRank vals remR (idx / 2 ^ remR) ≤ state.2
  most : state.2 ≤ quotRank vals remR (idx / 2 ^ remR + 1)
  below : forall k, k < state.2 -> (inside : k < vals.length) -> vals[k] < idx
  inside : state.2 < vals.length

section

variable {vals : List Nat} {remR idx : Nat} {bitsVec selectTable valsRems : BitsTable}

theorem queryRound_spec (stores : Stores vals remR bitsVec selectTable valsRems)
    (within : idx ≤ vals.getLastD 0) (state : Nat × Nat)
    (searching : Searching vals remR idx state) :
    (Exists fun rank =>
      queryRound bitsVec valsRems remR (BitVec.ofNat 32 idx &&& lowMask 32 remR) state =
        some (.leave rank) ∧
      rank = vals.countP (fun val => decide (val < idx))) ∨
    (Exists fun next =>
      queryRound bitsVec valsRems remR (BitVec.ofNat 32 idx &&& lowMask 32 remR) state =
        some (.again next) ∧
      Searching vals remR idx next ∧ vals.length - next.2 < vals.length - state.2) := by
  rcases state with ⟨selRes, rank⟩
  rcases searching with ⟨place, least, most, below, inside⟩
  dsimp only at place least most below inside
  have sorted := stores.sorted
  have quotMost : vals[rank] / 2 ^ remR ≤ vals.getLastD 0 / 2 ^ remR :=
    Nat.div_le_div_right (le_getLastD sorted inside)
  have idxMost : idx / 2 ^ remR ≤ vals.getLastD 0 / 2 ^ remR := Nat.div_le_div_right within
  have quotLeast : idx / 2 ^ remR ≤ vals[rank] / 2 ^ remR := by
    have known := lt_quotRank_iff remR sorted inside (idx / 2 ^ remR)
    omega
  have room := stores.room
  rcases @getBit32_eq_some bitsVec selRes (by omega) with ⟨bit, read, clear⟩
  have set := mem_unaryPositions_quotRanks_iff sorted inside quotMost least most
  rw [stores.selects.bits, place, decide_eq_false_iff_not, set] at clear
  -- The rank is found when its value is not below the number.
  have found : idx ≤ vals[rank] -> rank = vals.countP (fun val => decide (val < idx)) := by
    intro above
    exact ((countP_eq_iff sorted (Nat.le_of_lt inside) idx).mpr
      ⟨fun k less => below k less (by omega), fun _ => above⟩).symm
  by_cases larger : idx / 2 ^ remR < vals[rank] / 2 ^ remR
  · refine Or.inl ⟨rank, ?_, found (Nat.le_of_lt (Nat.lt_of_div_lt_div larger))⟩
    have nonzero : bit ≠ 0#32 := fun zero => clear.mp zero larger
    simp [queryRound, read, nonzero]
  · have zero : bit = 0#32 := clear.mpr larger
    have same : vals[rank] / 2 ^ remR = idx / 2 ^ remR := by omega
    rcases stores.rems rank inside with ⟨rem, remRead, remValue⟩
    have idxWord : idx < 2 ^ 32 := by
      have last := stores.small _ (List.getElem_mem (by omega : vals.length - 1 < vals.length))
      rw [← getLastD_eq (by omega)] at last
      omega
    have idxRem := toNat_rem stores.short idxWord
    have idxSplit := Nat.div_add_mod idx (2 ^ remR)
    have valSplit := Nat.div_add_mod vals[rank] (2 ^ remR)
    rw [same] at valSplit
    by_cases enough : idx % 2 ^ remR ≤ vals[rank] % 2 ^ remR
    · refine Or.inl ⟨rank, ?_, found (by omega)⟩
      simp [queryRound, read, zero, remRead, idxRem, remValue, enough]
    · have less : vals[rank] < idx := by omega
      refine Or.inr ⟨(selRes + 1, rank + 1), ?_,
        ⟨by dsimp only; omega, Nat.le_succ_of_le least, ?_, ?_, ?_⟩, ?_⟩
      · simp [queryRound, read, zero, remRead, idxRem, remValue, enough]
      · have next := lt_quotRank_iff remR sorted inside (idx / 2 ^ remR + 1)
        dsimp only
        omega
      · intro k before kInside
        rcases Nat.lt_succ_iff_lt_or_eq.mp before with earlier | rfl
        · exact below k earlier kInside
        · exact less
      · dsimp only
        by_contra end'
        have last : rank = vals.length - 1 := by omega
        subst last
        rw [getLastD_eq (by omega)] at within
        omega
      · dsimp only
        omega

/-- The search begins with the first value that has the upper bits of the
number, or with the next one. -/
theorem queryStart_eq_some (stores : Stores vals remR bitsVec selectTable valsRems)
    (within : idx ≤ vals.getLastD 0) :
    Exists fun start => queryStart (selectQueryIn bitsVec selectTable) (idx / 2 ^ remR) =
      some start ∧
      Searching vals remR idx start := by
  have sorted := stores.sorted
  have nonempty := stores.nonempty
  have idxMost : idx / 2 ^ remR ≤ vals.getLastD 0 / 2 ^ remR := Nat.div_le_div_right within
  refine ⟨(quotRank vals remR (idx / 2 ^ remR) + idx / 2 ^ remR,
    quotRank vals remR (idx / 2 ^ remR)), ?_,
    rfl, Nat.le_refl _, quotRank_mono (Nat.le_succ _), ?_, ?_⟩
  · generalize idx / 2 ^ remR = quot at idxMost
    unfold queryStart
    by_cases zero : quot = 0
    · rw [if_pos zero, zero]
      simp [quotRank]
    · have inside : quot - 1 < (quotRanks vals remR (vals.getLastD 0 / 2 ^ remR)).length := by
        rw [quotRanks_length]
        omega
      have next : quot - 1 + 1 = quot := by omega
      rw [if_neg zero, stores.selects.query inside, quotRanks_getElem, Option.map_some, next]
      have place : quotRank vals remR quot + (quot - 1) + 1 = quotRank vals remR quot + quot := by
        omega
      rw [place, Nat.add_sub_cancel]
  · intro k less inside
    exact Nat.lt_of_div_lt_div ((lt_quotRank_iff remR sorted inside _).mp less)
  · have rank := lt_quotRank_iff remR sorted (by omega : vals.length - 1 < vals.length)
      (idx / 2 ^ remR)
    rw [← getLastD_eq nonempty] at rank
    dsimp only
    by_contra end'
    have less := rank.mp (by omega)
    exact Nat.not_lt.mpr idxMost less

/-- The tables give the rank of every number. -/
theorem Stores.query (stores : Stores vals remR bitsVec selectTable valsRems) (idx : Nat) :
    queryIn (vals.getLastD 0) vals.length remR
      (selectQueryIn bitsVec selectTable) bitsVec valsRems idx =
      some (compressedRankQuery vals idx) := by
  unfold queryIn compressedRankQuery
  by_cases beyond : vals.getLastD 0 < idx
  · rw [if_pos beyond, if_pos beyond]
  · have within := Nat.not_lt.mp beyond
    have room : vals.length ≤ 32 * bitsVec.length := Nat.le_trans (Nat.le_add_right _ _) stores.room
    rcases queryStart_eq_some stores within with ⟨start, started, searching⟩
    have enough : vals.length - start.2 < 32 * bitsVec.length + 1 := by omega
    rcases runLoop_of_measure _ _ (queryRound_spec stores within) searching enough
      with ⟨rank, run, rfl⟩
    rw [if_neg beyond, if_neg beyond]
    simp only [started, Option.bind_eq_bind, Option.bind_some]
    exact run

end

end CompressedRank

/-- The compressed table of a sorted list of values answers for every number
like the list. -/
theorem compressedRankGenerate_query (vals : List Nat)
    (sorted : vals.Pairwise (fun first second => first ≤ second))
    (two : 2 ≤ vals.getLastD 0) (small : vals.length + vals.getLastD 0 + 128 ≤ 2 ^ 32) :
    Exists fun cr => CompressedRank.generate vals vals.length = some cr ∧
      forall idx, cr.query idx = some (compressedRankQuery vals idx) := by
  rcases CompressedRank.generate_stores sorted two small with
    ⟨cr, generated, maxVal, n, -, -, -, -, -, stores⟩
  refine ⟨cr, generated, fun idx => ?_⟩
  unfold CompressedRank.query
  rw [maxVal, n]
  exact stores.query idx

theorem compressedRankGenerate_query_four :
    Exists fun cr => CompressedRank.generate [1, 2, 9, 40] 4 = some cr ∧
      forall idx, cr.query idx = some (compressedRankQuery [1, 2, 9, 40] idx) :=
  compressedRankGenerate_query [1, 2, 9, 40] (by decide) (by decide) (by decide)

end Hash
end Johnny
