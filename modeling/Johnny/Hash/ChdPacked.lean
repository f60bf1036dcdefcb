import Johnny.Hash.Packed
import Johnny.Hash.Jenkins
import Johnny.Hash.Placing

namespace Johnny
namespace Hash

open Library

/-!
# The packed hash

`chd_new` packs the hash into bins together with the name of its algorithm,
collects the empty bins and packs their compressed ranks.  `chd_search` works on
the packed forms.  The whole function can be packed again, for
`cmph_search_packed`, which chooses by the name of the algorithm.
-/

/-- `CMPH_ALGO`. -/
inductive CmphAlgo
  | bmz | bmz8 | chm | brz | fch | bdz | bdzPh | chdPh | chd
  deriving DecidableEq

/-- The number of an algorithm. -/
def CmphAlgo.word : CmphAlgo -> BitVec 32
  | .bmz => 0#32
  | .bmz8 => 1#32
  | .chm => 2#32
  | .brz => 3#32
  | .fch => 4#32
  | .bdz => 5#32
  | .bdzPh => 6#32
  | .chdPh => 7#32
  | .chd => 8#32

/-- `CMPH_HASH_JENKINS`. -/
def cmphHashJenkins : BitVec 32 := 0#32

/-- `chd_ph_data_t`; the hash state holds a seed. -/
structure ChdPhMphf where
  cs : CompressedSeq
  nbuckets : Nat
  n : Nat
  seed : BitVec 32

/-- `chd_data_t`. -/
structure ChdMphf where
  packedChdPhf : BitsTable
  packedChdPhfSize : Nat
  packedCr : BitsTable
  packedCrSize : Nat

/-- `g`, `f` and `h`.  A division by zero gives `none`. -/
def chdPhValues (seed : BitVec 32) (key : Bytes) (nbuckets n : Nat) : Option ChdPhMapItem :=
  let hl := hashVector seed key
  if nbuckets = 0 ∨ n ≤ 1 then none
  else some ⟨⟨hl.2.1 % n, hl.2.2 % (n - 1) + 1⟩, hl.1 % nbuckets⟩

namespace ChdPhMphf

/-- `chd_ph_search`. -/
def search (mphf : ChdPhMphf) (key : Bytes) : Option Nat := do
  let mapItem <- chdPhValues mphf.seed key mphf.nbuckets mphf.n
  let disp <- mphf.cs.query mapItem.bucketNum
  some (position mphf.n (disp % mphf.n) (disp / mphf.n) mapItem.item)

/-- `chd_ph_pack`. -/
def pack (mphf : ChdPhMphf) : Option BitsTable := do
  let cs <- mphf.cs.dump
  some ([cmphHashJenkins, mphf.seed, BitVec.ofNat 32 mphf.n, BitVec.ofNat 32 mphf.nbuckets] ++ cs)

/-- `chd_ph_packed_size`, in bytes. -/
def packedSize (mphf : ChdPhMphf) : Nat :=
  (4 + 4 + mphf.cs.packedSize + 3 * 4) % 2 ^ 32

/-- `cmph_pack` of a hash into bins. -/
def cmphPack (mphf : ChdPhMphf) : Option BitsTable := do
  let packed <- mphf.pack
  some (CmphAlgo.chdPh.word :: packed)

end ChdPhMphf

/-- `hash_state_packed_size` knows one hash function only, whose state is one
word. -/
def chdPhSearchPacked (packedMphf : BitsTable) (key : Bytes) : Option Nat := do
  let hlType <- packedMphf[0]?
  if hlType = cmphHashJenkins then
    let seed <- packedMphf[1]?
    let n <- packedMphf[2]?
    let nbuckets <- packedMphf[3]?
    let mapItem <- chdPhValues seed key nbuckets.toNat n.toNat
    let disp <- CompressedSeq.queryPacked (packedMphf.drop 4) mapItem.bucketNum
    some (position n.toNat (disp % n.toNat) (disp / n.toNat) mapItem.item)
  else none

/-- `_chd_search`, with the search in the packed hash into bins. -/
def chdSearchIn (searchPhf : Bytes -> Option Nat) (packedCr : BitsTable) (key : Bytes) :
    Option Nat := do
  let binIdx <- searchPhf key
  let rank <- CompressedRank.queryPacked packedCr binIdx
  some ((binIdx + 2 ^ 32 - rank) % 2 ^ 32)

/-- `cmph_search_packed` with `chd_ph_search_packed` and `chd_search_packed`;
the other algorithms are left out. -/
def cmphSearchPacked (packedMphf : BitsTable) (key : Bytes) : Option Nat :=
  match packedMphf with
  | [] => none
  | algo :: packed =>
      if algo = CmphAlgo.chdPh.word then chdPhSearchPacked packed key
      else if algo = CmphAlgo.chd.word then
        match packed with
        | [] => none
        | packedCrSize :: packedCr =>
            chdSearchIn (cmphSearchPacked (packedCr.drop (packedCrSize.toNat / 4 + 1))) packedCr key
      else none
  termination_by packedMphf.length
  decreasing_by
    simp only [List.length_cons, List.length_drop]
    omega

namespace ChdMphf

/-- `chd_search`. -/
def search (chd : ChdMphf) (key : Bytes) : Option Nat :=
  chdSearchIn (cmphSearchPacked chd.packedChdPhf) chd.packedCr key

/-- `chd_pack`. -/
def pack (chd : ChdMphf) : Option BitsTable := do
  let packedCr <- copyWords chd.packedCr (chd.packedCrSize / 4)
  let packedChdPhf <- copyWords chd.packedChdPhf (chd.packedChdPhfSize / 4)
  some ([BitVec.ofNat 32 chd.packedCrSize] ++ packedCr ++
    [BitVec.ofNat 32 chd.packedChdPhfSize] ++ packedChdPhf)

/-- `chd_packed_size`, in bytes. -/
def packedSize (chd : ChdMphf) : Nat :=
  (4 + 2 * 4 + chd.packedCrSize + chd.packedChdPhfSize) % 2 ^ 32

/-- `cmph_pack` of the minimal hash. -/
def cmphPack (chd : ChdMphf) : Option BitsTable := do
  let packed <- chd.pack
  some (CmphAlgo.chd.word :: packed)

end ChdMphf

/-- The loop of `chd_new` over the bins; the state is `vals_table` and `idx`. -/
def collectVal (occupTable : BitsTable) (i : Nat) (state : List Nat × Nat) :
    Option (List Nat × Nat) := do
  let bit <- getBit32 occupTable i
  if bit = 0#32 then
    let valsTable <- writeAt state.1 state.2 i
    some (valsTable, state.2 + 1)
  else some state

/-- `chd_new` after `chd_ph_new` has built the hash into `nbins` bins for
`nkeys` keys. -/
def chdNew (chdPhf : ChdPhMphf) (occupTable : BitsTable) (nbins nkeys : Nat) : Option ChdMphf := do
  let packedChdPhf <- chdPhf.cmphPack
  let nvals := nbins - nkeys
  let vals <- forLoop (collectVal occupTable) nbins (List.replicate nvals 0, 0)
  let cr <- CompressedRank.generate vals.1 nvals
  let packedCr <- cr.dump
  some ⟨packedChdPhf, chdPhf.packedSize, packedCr, cr.packedSize⟩

theorem cmphSearchPacked_chdPh (packed : BitsTable) (key : Bytes) :
    cmphSearchPacked (CmphAlgo.chdPh.word :: packed) key = chdPhSearchPacked packed key := by
  rw [cmphSearchPacked.eq_def]
  exact if_pos rfl

theorem cmphSearchPacked_chd (packedCrSize : BitVec 32) (packedCr : BitsTable) (key : Bytes) :
    cmphSearchPacked (CmphAlgo.chd.word :: packedCrSize :: packedCr) key =
      chdSearchIn (cmphSearchPacked (packedCr.drop (packedCrSize.toNat / 4 + 1))) packedCr key := by
  rw [cmphSearchPacked.eq_def]
  dsimp only
  rw [if_neg (by decide), if_pos rfl]

/-- The numbers are words, and the compressed sequence is proper. -/
structure ChdPhMphf.Proper (mphf : ChdPhMphf) : Prop where
  cs : mphf.cs.Proper
  nbuckets_lt : mphf.nbuckets < 2 ^ 32
  n_lt : mphf.n < 2 ^ 32

/-- What `cmph_pack` writes for a hash into bins. -/
def ChdPhMphf.words (mphf : ChdPhMphf) : BitsTable :=
  [CmphAlgo.chdPh.word, cmphHashJenkins, mphf.seed, BitVec.ofNat 32 mphf.n,
    BitVec.ofNat 32 mphf.nbuckets] ++
    mphf.cs.words

namespace ChdPhMphf.Proper

variable {mphf : ChdPhMphf} (proper : mphf.Proper)

include proper

theorem cmphPack : mphf.cmphPack = some mphf.words := by
  simp [ChdPhMphf.cmphPack, ChdPhMphf.pack, proper.cs.dump, ChdPhMphf.words]

theorem words_small : 4 * mphf.words.length < 2 ^ 31 := by
  have small := proper.cs.words_small
  simp only [ChdPhMphf.words, List.length_append, List.length_cons, List.length_nil]
  omega

theorem packedSize : mphf.packedSize = 4 * mphf.words.length := by
  have small := proper.words_small
  simp only [ChdPhMphf.packedSize, ChdPhMphf.words, List.length_append, List.length_cons,
    List.length_nil, proper.cs.packedSize] at small ⊢
  omega

theorem search (rest : BitsTable) {key : Bytes} {place : Nat}
    (found : mphf.search key = some place) :
    cmphSearchPacked (mphf.words ++ rest) key = some place := by
  have n := toNat_ofNat_of_lt proper.n_lt
  have nbuckets := toNat_ofNat_of_lt proper.nbuckets_lt
  unfold ChdPhMphf.search at found
  simp only [Option.bind_eq_bind, Option.bind_eq_some_iff] at found
  rcases found with ⟨mapItem, values, disp, query, same⟩
  have packed := proper.cs.queryPacked rest query
  simp only [ChdPhMphf.words, List.cons_append, List.nil_append, cmphSearchPacked_chdPh,
    chdPhSearchPacked, List.getElem?_cons_zero, List.getElem?_cons_succ, Option.bind_eq_bind,
    Option.bind_some, if_true, n, nbuckets, values, List.drop_succ_cons, List.drop_zero, packed,
    same]

end ChdPhMphf.Proper

/-- The empty bins among the first ones. -/
def emptyBins (occupTable : BitsTable) (i : Nat) : List Nat :=
  (List.range i).filter (fun bin => !bitOf occupTable bin)

theorem emptyBins_succ (occupTable : BitsTable) (i : Nat) :
    emptyBins occupTable (i + 1) =
      emptyBins occupTable i ++ if bitOf occupTable i then [] else [i] := by
  unfold emptyBins
  rw [List.range_succ, List.filter_append, List.filter_singleton]
  cases bitOf occupTable i <;> rfl

theorem emptyBins_sublist (occupTable : BitsTable) {i j : Nat} (le : i ≤ j) :
    List.Sublist (emptyBins occupTable i) (emptyBins occupTable j) :=
  (List.range_sublist.mpr le).filter _

/-- The loop collects the empty bins, and they fill the table. -/
theorem collectVals_eq_some {occupTable : BitsTable} {nbins nvals : Nat}
    (room : nbins ≤ 32 * occupTable.length) (count : (emptyBins occupTable nbins).length = nvals) :
    Exists fun last => forLoop (collectVal occupTable) nbins (List.replicate nvals 0, 0) =
      some last ∧
      last.1 = emptyBins occupTable nbins := by
  rcases forLoop_of_step (collectVal occupTable) nbins (List.replicate nvals 0, 0)
      (fun i state => state.1 = emptyBins occupTable i ++ List.replicate
        (nvals - (emptyBins occupTable i).length) 0 ∧
        state.2 = (emptyBins occupTable i).length) (by
    rintro i ⟨valsTable, idx⟩ inside ⟨table, place⟩
    dsimp only at table place
    rcases @getBit32_eq_some occupTable i (by omega) with ⟨bit, read, clear⟩
    have next := emptyBins_succ occupTable i
    by_cases zero : bit = 0#32
    · rw [clear.mp zero, if_neg Bool.false_ne_true] at next
      have more := (emptyBins_sublist occupTable inside).length_le
      rw [count, next, List.length_append, List.length_singleton] at more
      have spare : nvals - (emptyBins occupTable i).length =
          nvals - ((emptyBins occupTable i).length + 1) + 1 := by
        omega
      have slot : idx < valsTable.length := by
        rw [table, place, List.length_append, List.length_replicate]
        omega
      refine ⟨(valsTable.set idx i, idx + 1), ?_, ?_, ?_⟩
      · simp only [collectVal, read, zero, if_true, writeAt_eq_some slot, Option.bind_eq_bind,
          Option.bind_some]
      · rw [next, List.length_append, List.length_singleton, table, place, spare,
          List.replicate_succ, List.set_append_right _ _ (Nat.le_refl _), Nat.sub_self,
          List.set_cons_zero, List.append_assoc, List.singleton_append]
      · rw [next, List.length_append, List.length_singleton, place]
    · have taken : bitOf occupTable i = true := by
        by_contra free
        exact zero (clear.mpr (Bool.eq_false_iff.mpr free))
      rw [taken, if_pos rfl, List.append_nil] at next
      refine ⟨(valsTable, idx), ?_, by rw [next]; exact table, by rw [next]; exact place⟩
      simp only [collectVal, read, zero, if_false, Option.bind_eq_bind, Option.bind_some])
    ⟨rfl, rfl⟩ with ⟨last, run, table, -⟩
  refine ⟨last, run, ?_⟩
  rw [table, count, Nat.sub_self, List.replicate_zero, List.append_nil]

/-- The minimal hash from a hash into bins and the ranks of its empty bins. -/
def chdOf (chdPhf : ChdPhMphf) (cr : CompressedRank) : ChdMphf :=
  ⟨chdPhf.words, 4 * chdPhf.words.length, cr.words, 4 * cr.words.length⟩

/-- The packed parts have the sizes that go with them, and these are words. -/
structure ChdMphf.Sized (chd : ChdMphf) : Prop where
  packedChdPhf : chd.packedChdPhfSize = 4 * chd.packedChdPhf.length
  packedChdPhf_lt : chd.packedChdPhfSize < 2 ^ 32
  packedCr : chd.packedCrSize = 4 * chd.packedCr.length
  packedCr_lt : chd.packedCrSize < 2 ^ 32

section

variable {chdPhf : ChdPhMphf} {cr : CompressedRank}

theorem chdOf_sized (phProper : chdPhf.Proper) (crProper : cr.Proper) :
    (chdOf chdPhf cr).Sized where
  packedChdPhf := rfl
  packedChdPhf_lt := Nat.lt_trans phProper.words_small (by decide)
  packedCr := rfl
  packedCr_lt := Nat.lt_trans crProper.words_small (by decide)

theorem chdSearchIn_eq_some {searchPhf : Bytes -> Option Nat} {packedCr : BitsTable} {key : Bytes}
    {binIdx rank : Nat} (found : searchPhf key = some binIdx)
    (ranked : CompressedRank.queryPacked packedCr binIdx = some rank)
    (le : rank ≤ binIdx) (word : binIdx < 2 ^ 32) :
    chdSearchIn searchPhf packedCr key = some (binIdx - rank) := by
  have index : (binIdx + 2 ^ 32 - rank) % 2 ^ 32 = binIdx - rank := by omega
  simp only [chdSearchIn, found, ranked, Option.bind_eq_bind, Option.bind_some, index]

/-- What `cmph_pack` writes for a minimal hash. -/
def chdWords (chdPhf : ChdPhMphf) (cr : CompressedRank) : BitsTable :=
  [CmphAlgo.chd.word, BitVec.ofNat 32 (4 * cr.words.length)] ++ cr.words ++
    [BitVec.ofNat 32 (4 * chdPhf.words.length)] ++ chdPhf.words

theorem chdOf_cmphPack (chdPhf : ChdPhMphf) (cr : CompressedRank) :
    (chdOf chdPhf cr).cmphPack = some (chdWords chdPhf cr) := by
  have crWords : copyWords cr.words cr.words.length = some cr.words := copyWords_self rfl
  have phWords : copyWords chdPhf.words chdPhf.words.length = some chdPhf.words :=
    copyWords_self rfl
  simp [ChdMphf.cmphPack, ChdMphf.pack, chdOf, crWords, phWords, chdWords]

/-- As much is packed as is announced. -/
theorem chdOf_packedSize (phProper : chdPhf.Proper) (crProper : cr.Proper) :
    (chdOf chdPhf cr).packedSize = 4 * (chdWords chdPhf cr).length := by
  have phSmall := phProper.words_small
  have crSmall := crProper.words_small
  simp only [ChdMphf.packedSize, chdOf, chdWords, List.length_append, List.length_cons,
    List.length_nil]
  omega

/-- The search in the minimal hash and in its packed form. -/
theorem chdOf_search (phProper : chdPhf.Proper) (crProper : cr.Proper) {key : Bytes}
    {binIdx rank : Nat} (found : chdPhf.search key = some binIdx)
    (ranked : cr.query binIdx = some rank) (le : rank ≤ binIdx) (word : binIdx < 2 ^ 32) :
    (chdOf chdPhf cr).search key = some (binIdx - rank) ∧
      forall rest, cmphSearchPacked (chdWords chdPhf cr ++ rest) key = some (binIdx - rank) := by
  have here := phProper.search [] found
  have rankHere := crProper.queryPacked [] ranked
  rw [List.append_nil] at here rankHere
  refine ⟨chdSearchIn_eq_some here rankHere le word, fun rest => ?_⟩
  have size : (BitVec.ofNat 32 (4 * cr.words.length)).toNat / 4 + 1 = cr.words.length + 1 := by
    have crSmall := crProper.words_small
    rw [toNat_ofNat_of_lt (by omega), Nat.mul_div_cancel_left _ (by decide)]
  have packedPhf : (cr.words ++
    (BitVec.ofNat 32 (4 * chdPhf.words.length) :: (chdPhf.words ++ rest))).drop
      (cr.words.length + 1) = chdPhf.words ++ rest := by
    rw [← List.drop_drop, List.drop_left, List.drop_one, List.tail_cons]
  simp only [chdWords, List.append_assoc, List.cons_append, List.nil_append, cmphSearchPacked_chd,
    size, packedPhf]
  exact chdSearchIn_eq_some (phProper.search rest found) (crProper.queryPacked _ ranked) le word

end

/-! ## The empty bins of a perfect hash -/

section

variable {keys : List Bytes} (ph : ChdPh keys)

theorem ChdPh.valsTable_sorted : ph.valsTable.Pairwise (fun first second => first ≤ second) :=
  (List.pairwise_le_range).filter _

theorem ChdPh.valsTable_lt {val : Nat} (member : val ∈ ph.valsTable) : val < ph.n :=
  List.mem_range.mp (List.mem_filter.mp member).1

theorem ChdPh.length_valsTable (distinct : keys.Nodup) :
    ph.valsTable.length + keys.length = ph.n := by
  have sum := ph.rank_add_occupied (Nat.le_refl ph.n)
  rw [ph.occupied_below distinct] at sum
  have empties : ph.valsTable.countP (fun val => decide (val < ph.n)) = ph.valsTable.length :=
    List.countP_eq_length.mpr (fun val member => decide_eq_true (ph.valsTable_lt member))
  have full : keys.countP (fun key => decide (ph.bin key < ph.n)) = keys.length :=
    List.countP_eq_length.mpr (fun key _ => decide_eq_true (ph.bin_lt key))
  rwa [empties, full] at sum

/-- The last of several empty bins is not among the first bins. -/
theorem ChdPh.length_valsTable_le : ph.valsTable.length ≤ ph.valsTable.getLastD 0 + 1 := by
  have distinct : ph.valsTable.Nodup := List.nodup_range.filter _
  have subset : ph.valsTable ⊆ List.range (ph.valsTable.getLastD 0 + 1) := by
    intro val member
    rcases List.mem_iff_getElem.mp member with ⟨k, inside, rfl⟩
    exact List.mem_range.mpr
      (Nat.lt_succ_of_le (CompressedRank.le_getLastD ph.valsTable_sorted inside))
  have le := (List.subperm_of_subset distinct subset).length_le
  rwa [List.length_range] at le

/-- `chd_new` turns a hash into bins with a table of the occupied bins into a
minimal hash, whose searches are those of `Chd`. -/
theorem chdNew_eq_some (distinct : keys.Nodup) {chdPhf : ChdPhMphf} (proper : chdPhf.Proper)
    {occupTable : BitsTable} (room : ph.n ≤ 32 * occupTable.length)
    (bits : forall bin, bitOf occupTable bin = ph.occupied bin)
    (search : forall key, chdPhf.search key = some (ph.bin key)) (spare : keys.length + 3 ≤ ph.n)
    (small : ph.n < 2 ^ 30) :
    Exists fun chd => Exists fun packed => chdNew chdPhf occupTable ph.n keys.length = some chd ∧
      chd.Sized ∧ chd.cmphPack = some packed ∧ chd.packedSize = 4 * packed.length ∧
      forall key, chd.search key = some (chdSearch ph key) ∧
        forall rest, cmphSearchPacked (packed ++ rest) key = some (chdSearch ph key) := by
  have vals : emptyBins occupTable ph.n = ph.valsTable := by
    unfold emptyBins ChdPh.valsTable
    simp only [bits]
  have total := ph.length_valsTable distinct
  have last := ph.length_valsTable_le
  have lastInside : ph.valsTable.getLastD 0 < ph.n := by
    rw [CompressedRank.getLastD_eq (by omega)]
    exact ph.valsTable_lt (List.getElem_mem _)
  have count : ph.n - keys.length = ph.valsTable.length := by omega
  rcases CompressedRank.generate_proper ph.valsTable_sorted (by omega) (by omega) with
    ⟨cr, generated, crProper, query⟩
  rcases collectVals_eq_some room (by rw [vals]) with ⟨collected, run, table⟩
  rw [vals] at table
  refine ⟨chdOf chdPhf cr, chdWords chdPhf cr, ?_, chdOf_sized proper crProper,
    chdOf_cmphPack chdPhf cr,
    chdOf_packedSize proper crProper, fun key => ?_⟩
  · simp only [chdNew, proper.cmphPack, count, run, table, generated, crProper.dump,
      proper.packedSize, crProper.packedSize, Option.bind_eq_bind, Option.bind_some]
    rfl
  · have inside := ph.bin_lt key
    have rank := ph.rank_add_occupied (Nat.le_of_lt inside)
    rw [← ph.compressedRankQuery_eq] at rank
    exact chdOf_search proper crProper (search key) (query _) (by omega) (by omega)

end

end Hash
end Johnny
