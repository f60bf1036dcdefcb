import Johnny.Setup.Table
import Mathlib.Data.List.Nodup
import Mathlib.Data.List.Perm.Subperm

namespace Johnny
namespace Hash

open Library

/-!
# The CHD hash behind `cmph_search`

A perfect hash sends every string to one of `n` bins, different keys to
different bins.  The bins outnumber the keys, and a search subtracts the number
of empty bins below the bin of a string.  So it counts the keys in lower bins.
For a string that is no key and lies above all keys, that is the number of all
keys, one more than the largest index of a key.
-/

/-- The hash into bins that `chd_ph_new` builds for some keys. -/
structure ChdPh (keys : List Bytes) where
  n : Nat
  bin : Bytes -> Nat
  bin_lt : forall string, bin string < n
  apart : forall first second, first ∈ keys -> second ∈ keys -> bin first = bin second ->
    first = second
  spare : keys.length < n

namespace ChdPh

variable {keys : List Bytes} (ph : ChdPh keys)

/-- `GETBIT32(occup_table, i)`. -/
def occupied (i : Nat) : Bool :=
  keys.any (fun key => decide (ph.bin key = i))

/-- The empty bins in increasing order, as `chd_new` collects them. -/
def valsTable : List Nat :=
  (List.range ph.n).filter (fun i => !ph.occupied i)

end ChdPh

/-- `compressed_rank_query` over the values it was generated from: beyond the
last one the rank is their number, below it the values under `idx` count. -/
def compressedRankQuery (vals : List Nat) (idx : Nat) : Nat :=
  if vals.getLastD 0 < idx then vals.length else vals.countP (fun val => decide (val < idx))

def chdSearch {keys : List Bytes} (ph : ChdPh keys) (key : Bytes) : Nat :=
  let binIdx := ph.bin key
  binIdx - compressedRankQuery ph.valsTable binIdx

namespace ChdPh

variable {keys : List Bytes} (ph : ChdPh keys)

theorem occupied_iff (i : Nat) : ph.occupied i = true <-> i ∈ keys.map ph.bin := by
  unfold occupied
  rw [List.any_eq_true, List.mem_map]
  simp only [decide_eq_true_eq]

theorem bins_nodup (distinct : keys.Nodup) : (keys.map ph.bin).Nodup := by
  apply List.Nodup.map_on _ distinct
  intro first firstMember second secondMember same
  exact ph.apart first second firstMember secondMember same

/-- The shortcut beyond the last value gives the same count. -/
theorem compressedRankQuery_eq (idx : Nat) :
    compressedRankQuery ph.valsTable idx = ph.valsTable.countP (fun val => decide (val < idx)) := by
  unfold compressedRankQuery
  split_ifs with beyond
  · symm
    apply List.countP_eq_length.mpr
    intro val member
    apply decide_eq_true
    have sorted : ph.valsTable.Pairwise (fun first second => first ≤ second) :=
      (List.pairwise_le_range).filter _
    have nonempty : ph.valsTable ≠ [] := List.ne_nil_of_mem member
    rw [List.getLastD_eq_getLast?, List.getLast?_eq_some_getLast nonempty,
      Option.getD_some] at beyond
    rw [← List.dropLast_append_getLast nonempty] at sorted member
    rcases List.mem_append.mp member with earlier | last
    · have below := (List.pairwise_append.mp sorted).2.2 val earlier _ List.mem_cons_self
      omega
    · rw [List.mem_singleton.mp last]
      exact beyond
  · rfl

/-- Up to a bin, the empty and the occupied bins make up all bins. -/
theorem rank_add_occupied {idx : Nat} (inside : idx ≤ ph.n) :
    ph.valsTable.countP (fun val => decide (val < idx)) + (List.range idx).countP ph.occupied =
      idx := by
  have empties : ph.valsTable.countP (fun val => decide (val < idx)) =
      (List.range idx).countP (fun i => !ph.occupied i) := by
    have split : List.range ph.n = List.range idx ++ (List.range (ph.n - idx)).map (idx + ·) := by
      rw [← List.range_add, Nat.add_sub_cancel' inside]
    unfold valsTable
    rw [List.countP_filter, split, List.countP_append, List.countP_map]
    have below : (List.range idx).countP (fun val => decide (val < idx) && !ph.occupied val) =
        (List.range idx).countP (fun i => !ph.occupied i) := by
      apply List.countP_congr
      intro i member
      simp [List.mem_range.mp member]
    have above : (List.range (ph.n - idx)).countP
        ((fun val => decide (val < idx) && !ph.occupied val) ∘ (idx + ·)) = 0 := by
      apply List.countP_eq_zero.mpr
      intro i _
      simp
    rw [below, above, Nat.add_zero]
  have total := List.length_eq_countP_add_countP ph.occupied (l := List.range idx)
  rw [List.length_range] at total
  simp only [Bool.not_eq_true, Bool.decide_eq_false] at total
  rw [empties]
  omega

/-- The occupied bins below a bin are the bins of the keys below it. -/
theorem occupied_below (distinct : keys.Nodup) (idx : Nat) :
    (List.range idx).countP ph.occupied = keys.countP (fun key => decide (ph.bin key < idx)) := by
  have bins : keys.countP (fun key => decide (ph.bin key < idx)) =
      (keys.map ph.bin).countP (fun bin => decide (bin < idx)) := by
    rw [List.countP_map]
    rfl
  rw [bins, List.countP_eq_length_filter, List.countP_eq_length_filter]
  apply List.Perm.length_eq
  apply (List.perm_ext_iff_of_nodup (List.nodup_range.filter _)
    ((ph.bins_nodup distinct).filter _)).mpr
  intro i
  rw [List.mem_filter, List.mem_filter, List.mem_range, ph.occupied_iff, decide_eq_true_eq]
  exact And.comm

theorem chdSearch_eq_occupied (string : Bytes) :
    chdSearch ph string = (List.range (ph.bin string)).countP ph.occupied := by
  have sum := ph.rank_add_occupied (Nat.le_of_lt (ph.bin_lt string))
  unfold chdSearch
  dsimp only
  rw [ph.compressedRankQuery_eq]
  omega

/-- A search counts the keys in lower bins. -/
theorem chdSearch_eq (distinct : keys.Nodup) (string : Bytes) :
    chdSearch ph string = keys.countP (fun key => decide (ph.bin key < ph.bin string)) := by
  rw [ph.chdSearch_eq_occupied, ph.occupied_below distinct]

/-- The index of a string is in range exactly when some key is in its bin or
above. -/
theorem chdSearch_lt_iff (distinct : keys.Nodup) (string : Bytes) :
    chdSearch ph string < keys.length <-> Exists fun key => key ∈ keys ∧
      ph.bin string ≤ ph.bin key := by
  rw [ph.chdSearch_eq distinct]
  have bound := List.countP_le_length (p := fun key => decide (ph.bin key < ph.bin string))
    (l := keys)
  constructor
  · intro less
    by_contra absent
    have all : keys.countP (fun key => decide (ph.bin key < ph.bin string)) = keys.length := by
      apply List.countP_eq_length.mpr
      intro key member
      apply decide_eq_true
      by_contra above
      exact absent ⟨key, member, Nat.not_lt.mp above⟩
    omega
  · rintro ⟨key, member, above⟩
    by_contra full
    have all := List.countP_eq_length.mp (Nat.le_antisymm bound (Nat.not_lt.mp full)) key member
    have below := of_decide_eq_true all
    omega

/-- On the keys the search is the bijection that a minimal perfect hash is
meant to be. -/
theorem minimalPerfect (distinct : keys.Nodup) : Setup.MinimalPerfect (chdSearch ph) keys := by
  have inside : forall key, key ∈ keys -> chdSearch ph key < keys.length :=
    fun key member => (ph.chdSearch_lt_iff distinct key).mpr ⟨key, member, Nat.le_refl _⟩
  -- The bin of the lower key is occupied and counts for the higher one only.
  have lower : forall first second, first ∈ keys -> ph.bin first < ph.bin second ->
      chdSearch ph first < chdSearch ph second := by
    intro first second member less
    rw [ph.chdSearch_eq_occupied, ph.chdSearch_eq_occupied]
    have own : ph.occupied (ph.bin first) = true :=
      (ph.occupied_iff _).mpr (List.mem_map_of_mem member)
    have next : (List.range (ph.bin first + 1)).countP ph.occupied =
        (List.range (ph.bin first)).countP ph.occupied + 1 := by
      rw [List.range_succ, List.countP_append, List.countP_singleton, if_pos own]
    have upTo : (List.range (ph.bin first + 1)).countP ph.occupied ≤
        (List.range (ph.bin second)).countP ph.occupied :=
      (List.range_sublist.mpr less).countP_le
    omega
  have injective : forall first second, first ∈ keys -> second ∈ keys ->
      chdSearch ph first = chdSearch ph second -> first = second := by
    intro first second firstMember secondMember same
    apply ph.apart first second firstMember secondMember
    rcases Nat.lt_trichotomy (ph.bin first) (ph.bin second) with less | equal | more
    · have strict := lower first second firstMember less
      omega
    · exact equal
    · have strict := lower second first secondMember more
      omega
  refine ⟨inside, injective, ?_⟩
  have indices : (keys.map (chdSearch ph)).Nodup :=
    List.Nodup.map_on (fun first firstMember second secondMember same =>
      injective first second firstMember secondMember same) distinct
  have subset : keys.map (chdSearch ph) ⊆ List.range keys.length := by
    intro index member
    rcases List.mem_map.mp member with ⟨key, inKeys, rfl⟩
    exact List.mem_range.mpr (inside key inKeys)
  have all := (List.subperm_of_subset indices subset).perm_of_length_le
    (by rw [List.length_range, List.length_map])
  intro index bound
  exact List.mem_map.mp (all.mem_iff.mpr (List.mem_range.mpr bound))

end ChdPh

/-! ## The table access for any file name -/

/-- Whatever a client sends as file name, the table access stays inside the
reordered table exactly when some key lies in the bin of the name or above. -/
theorem johnnyFileIndex_lt_iff (heap : Heap) (files : List JohnnyFile)
    (served : List Setup.ServedFile) (holds : List.Forall₂ (Setup.Holds heap) files served)
    (distinct : (served.map Setup.ServedFile.key).Nodup)
    (ph : ChdPh (served.map Setup.ServedFile.key)) (fileName : Bytes) :
    Exists fun table => Setup.reorderJohnnyFiles (chdSearch ph) heap files = some table ∧
      forall behind,
        Worker.johnnyFileIndex (Globals.ofTable table behind (chdSearch ph) heap) fileName <
          table.length <->
          Exists fun key => key ∈ served.map Setup.ServedFile.key ∧
            ph.bin fileName ≤ ph.bin key := by
  rcases Setup.reorderJohnnyFiles_exact holds distinct (ph.minimalPerfect distinct) with
    ⟨table, reordered, exactly⟩
  refine ⟨table, reordered, fun behind => ?_⟩
  have length : table.length = (served.map Setup.ServedFile.key).length := by
    rw [exactly.size, List.length_map]
  rw [length]
  exact ph.chdSearch_lt_iff distinct fileName

/-- What the setup leaves to the workers: a table with an entry for each key, in
which they search with the hash of the keys. -/
structure Hashed (globals : Globals) {keys : List Bytes} (ph : ChdPh keys) : Prop where
  search : globals.cmphSearch = chdSearch ph
  count : globals.johnnyFileCount = keys.length
  distinct : keys.Nodup
  sized : globals.Sized

theorem Hashed.inside {globals : Globals} {keys : List Bytes} {ph : ChdPh keys}
    (hashed : Hashed globals ph) {fileName : Bytes}
    (known : Exists fun key => key ∈ keys ∧ ph.bin fileName ≤ ph.bin key) :
    Worker.johnnyFileIndex globals fileName < globals.johnnyFileCount := by
  unfold Worker.johnnyFileIndex
  rw [hashed.search, hashed.count]
  exact (ph.chdSearch_lt_iff hashed.distinct fileName).mpr known

theorem hashed_ofTable {served : List Setup.ServedFile} {table : List (Option JohnnyFile)}
    {heap : Heap} {ph : ChdPh (served.map Setup.ServedFile.key)}
    (exactly : Setup.ExactTable (chdSearch ph) served table heap)
    (distinct : (served.map Setup.ServedFile.key).Nodup)
    (whole : forall file, file ∈ served -> file.responseLength = file.response.length)
    (behind : Nat -> JohnnyFile) :
    Hashed (Globals.ofTable table behind (chdSearch ph) heap) ph where
  search := rfl
  count := by
    rw [List.length_map]
    exact exactly.size
  distinct := distinct
  sized := exactly.sized whole behind

def twoServed : List Setup.ServedFile :=
  [⟨ascii "a", ascii "HTTP/1.1 200 OK", 15⟩, ⟨ascii "b", ascii "HTTP/1.1 200 OK", 15⟩]

def twoFiles : List JohnnyFile :=
  [⟨⟨0, 0⟩, ascii "HTTP/1.1 200 OK", 15⟩, ⟨⟨0, 2⟩, ascii "HTTP/1.1 200 OK", 15⟩]

def twoNames : Heap :=
  (Heap.empty.allocate (stringCells (ascii "a") ++ stringCells (ascii "b"))).2

theorem twoFiles_holds : List.Forall₂ (Setup.Holds twoNames) twoFiles twoServed :=
  List.Forall₂.cons ⟨by decide, rfl, rfl⟩ (List.Forall₂.cons ⟨by decide, rfl, rfl⟩ List.Forall₂.nil)

/-- Two keys in the bins that the first draw of `rand` gives them, and every other
string in that of `c`. -/
def twoBins : ChdPh (twoServed.map Setup.ServedFile.key) where
  n := 11
  bin := fun string => if string = ascii "a" then 1 else if string = ascii "b" then 6 else 8
  bin_lt := by
    intro string
    split_ifs <;> decide
  apart := by
    have apart : forall first, first ∈ twoServed.map Setup.ServedFile.key ->
        forall second, second ∈ twoServed.map Setup.ServedFile.key ->
          (if first = ascii "a" then 1 else if first = ascii "b" then 6 else 8) =
            (if second = ascii "a" then 1 else if second = ascii "b" then 6 else 8) ->
          first = second := by
      decide
    exact fun first second firstMember secondMember => apart first firstMember second secondMember
  spare := by decide

theorem johnnyFileIndex_lt_key :
    Exists fun table => Setup.reorderJohnnyFiles (chdSearch twoBins) twoNames twoFiles =
      some table ∧
      forall behind,
        Worker.johnnyFileIndex (Globals.ofTable table behind (chdSearch twoBins) twoNames)
          (ascii "b") <
          table.length := by
  rcases johnnyFileIndex_lt_iff twoNames twoFiles twoServed twoFiles_holds (by decide) twoBins
    (ascii "b") with
    ⟨table, reordered, inside⟩
  exact ⟨table, reordered, fun behind => (inside behind).mpr ⟨ascii "b", by decide, by decide⟩⟩

/-- The name `c` is in a bin above both keys, and its index is the size of the
table. -/
theorem johnnyFileIndex_out_of_range :
    ¬ forall (ph : ChdPh (twoServed.map Setup.ServedFile.key)) (table : List (Option JohnnyFile))
        (behind : Nat -> JohnnyFile) (fileName : Bytes),
      Setup.reorderJohnnyFiles (chdSearch ph) twoNames twoFiles = some table ->
      Worker.johnnyFileIndex (Globals.ofTable table behind (chdSearch ph) twoNames) fileName <
        table.length := by
  intro inside
  have table : Setup.reorderJohnnyFiles (chdSearch twoBins) twoNames twoFiles =
      some (twoFiles.map some) := by
    decide
  have less := inside twoBins _ (fun _ => ⟨⟨0, 0⟩, [], 0⟩) (ascii "c") table
  have index : chdSearch twoBins (ascii "c") = 2 := by decide
  change chdSearch twoBins (ascii "c") < 2 at less
  omega

end Hash
end Johnny
