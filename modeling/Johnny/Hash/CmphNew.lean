import Johnny.Hash.ChdPacked
import Johnny.Hash.Primality
import Johnny.Hash.Trials

namespace Johnny
namespace Hash

open Library

/-!
# The construction in tables and words

`cmph_new` for the minimal hash, from the keys to the packed function, with the
hash function, the primality test, the tables and the compressed forms as the
code has them.  It draws seeds; its limit on the probes is computed in floating
point from the number of keys, and stays far below a word.

For every choice of seeds the outcome is that of `Construction`: no access is
outside a table, there is a function in the end exactly when `cmphNew` has one,
and the packed function gives every string the index of `chdSearch`.
-/

/-- What `cmph_new` depends on besides the keys. -/
structure SeedDraws where
  seeds : Nat -> BitVec 32
  maxProbes : Nat -> Nat
  maxProbes_one : maxProbes 1 = 0
  maxProbes_lt : forall m, maxProbes m < 2 ^ 31

/-- The draws of `Construction` that belong to seeds.  Without a key the loop
over the bins does not end, and the number of bins means nothing. -/
def SeedDraws.toDraws (draws : SeedDraws) : Draws where
  hashStates := fun state => hashVector (draws.seeds state)
  bins := fun m => (chdPhBins m).getD (2 * m + 1)
  spare := by
    intro m
    cases bins : chdPhBins m with
    | none => exact Nat.lt_succ_self (2 * m)
    | some n => exact chdPhBins_lt bins
  maxProbes := draws.maxProbes
  maxProbes_one := draws.maxProbes_one

namespace Tables

/-- The part of `chd_ph_new` behind the loop over the bins, with `keys_per_bin`
one; `occup_table` is handed over in the configuration. -/
def chdPhBuild (draws : SeedDraws) (sizes : Sizes) (keys : List Bytes) :
    Option (Option (ChdPhMphf × BitsTable)) := do
  let built <- chdPhTrials draws.toDraws sizes keys 100 0
    (List.replicate sizes.nbuckets ⟨0, 0⟩, List.replicate keys.length ⟨0, 0⟩)
      (List.replicate sizes.nbuckets 0)
  match built with
  | none => some none
  | some trial => do
      let cs <- CompressedSeq.generate trial.search.dispTable sizes.nbuckets
      some (some (⟨cs, sizes.nbuckets, sizes.n, draws.seeds trial.state⟩, trial.search.occupTable))

def chdPhNew (draws : SeedDraws) (keys : List Bytes) : Option (Option (ChdPhMphf × BitsTable)) := do
  let n <- chdPhBins keys.length
  if positive : 0 < n then
    chdPhBuild draws ⟨keys.length / keysPerBucket + 1, n, Nat.succ_pos _, positive⟩ keys
  else none

/-- `cmph_new` and `chd_new`; the inner `none` stands for `NULL`. -/
def cmphNew (draws : SeedDraws) (keys : List Bytes) : Option (Option ChdMphf) := do
  let built <- chdPhNew draws keys
  match built with
  | none => some none
  | some (chdPhf, occupTable) => do
      let chd <- chdNew chdPhf occupTable chdPhf.n keys.length
      some (some chd)

end Tables

/-- The compressed displacements of a trial. -/
theorem compresses_dispTable {dispTable : List Nat} (nonempty : 0 < dispTable.length)
    (few : dispTable.length ≤ 2 ^ 26) (low : forall disp, disp ∈ dispTable -> disp < 2 ^ 31) :
    Exists fun cs => CompressedSeq.generate dispTable dispTable.length = some cs ∧ cs.Proper ∧
      forall idx, (inside : idx < dispTable.length) -> cs.query idx = some dispTable[idx] := by
  refine CompressedSeq.generate_proper nonempty (fun disp member => ?_) ?_
  · have bound := low disp member
    omega
  · have sum : (dispTable.map CompressedSeq.encLength).sum ≤
        (dispTable.map CompressedSeq.encLength).length • 31 := by
      apply List.sum_le_card_nsmul
      intro length member
      rcases List.mem_map.mp member with ⟨disp, inTable, rfl⟩
      have bound := low disp inTable
      have short := (CompressedSeq.encString_spec (by omega : disp + 1 < 2 ^ 32)).1
      omega
    rw [List.length_map, smul_eq_mul] at sum
    omega

/-- The search with compressed displacements. -/
theorem chdPhSearch_compressed {draws : SeedDraws} {sizes : Sizes} {trial : Tables.Trial}
    {mphf : ChdPhData} (refines : trial.Refines draws.toDraws sizes mphf) (two : 1 < sizes.n)
    {cs : CompressedSeq}
    (query : forall idx, (inside : idx < trial.search.dispTable.length) ->
      cs.query idx = some trial.search.dispTable[idx]) (key : Bytes) :
    (⟨cs, sizes.nbuckets, sizes.n, draws.seeds trial.state⟩ : ChdPhMphf).search key = some
    (chdPhSearch mphf key) := by
  have values : chdPhValues (draws.seeds trial.state) key sizes.nbuckets sizes.n =
      some (sizes.mapItem (hashVector (draws.seeds trial.state)) key) := by
    have positive := sizes.nbuckets_pos
    unfold chdPhValues
    dsimp only
    rw [if_neg (by omega)]
    rfl
  have inside : (sizes.mapItem (hashVector (draws.seeds trial.state)) key).bucketNum <
      trial.search.dispTable.length := by
    rw [refines.dispTable]
    exact Sizes.mapItem_bucketNum_lt _ _ _
  have disp : mphf.placement.dispTable
      (sizes.mapItem (hashVector (draws.seeds trial.state)) key).bucketNum =
      trial.search.dispTable[(sizes.mapItem
        (hashVector (draws.seeds trial.state)) key).bucketNum] := by
    rw [refines.placement]
    exact List.getD_eq_getElem _ 0 inside
  have hl : mphf.hl = hashVector (draws.seeds trial.state) := refines.hl
  simp only [ChdPhMphf.search, values, query _ inside, Option.bind_eq_bind, Option.bind_some,
    chdPhSearch, Placement.bin, refines.same, hl, disp]

/-- `chd_ph_new` succeeds when the trials do. -/
theorem chdPhNew_refines (draws : SeedDraws) {keys : List Bytes} (nonempty : keys ≠ [])
    (few : keys.length < 2 ^ 28) :
    (Tables.chdPhNew draws keys = some none ∧ chdPhNew draws.toDraws keys = none) ∨
    Exists fun chdPhf => Exists fun occupTable => Exists fun mphf =>
      Tables.chdPhNew draws keys = some (some (chdPhf, occupTable)) ∧
        chdPhNew draws.toDraws keys = some mphf ∧
      chdPhf.Proper ∧ chdPhf.n = mphf.sizes.n ∧ mphf.sizes.n < 2 ^ 30 ∧
        mphf.sizes.n ≤ 32 * occupTable.length ∧
      bitOf occupTable = mphf.placement.occupTable ∧
      forall key, chdPhf.search key = some (chdPhSearch mphf key) := by
  have some_key : 0 < keys.length := List.length_pos_iff.mpr nonempty
  rcases chdPhBins_le some_key (by omega) with ⟨n, bins, most⟩
  have more := chdPhBins_lt bins
  have positive : 0 < n := by omega
  have sizes : (⟨keys.length / keysPerBucket + 1, n, Nat.succ_pos _, positive⟩ : Sizes) =
      draws.toDraws.sizes keys.length := by
    simp [Draws.sizes, SeedDraws.toDraws, bins]
  have binsEq : (draws.toDraws.sizes keys.length).n = n := by rw [← sizes]
  have bucketsEq : (draws.toDraws.sizes keys.length).nbuckets = keys.length / 4 + 1 := rfl
  rcases Tables.chdPhTrials_refines draws.toDraws nonempty 100 0
      (by exact List.length_replicate :
        (List.replicate (draws.toDraws.sizes keys.length).nbuckets (⟨0, 0⟩ : Extent),
        List.replicate keys.length (⟨0, 0⟩ : ChdPhItem)).1.length = _)
      List.length_replicate
      (by exact List.length_replicate :
        (List.replicate (draws.toDraws.sizes keys.length).nbuckets 0).length = _)
          with ⟨result, run, related⟩
  have zero : (fun bucketId =>
      (List.replicate (draws.toDraws.sizes keys.length).nbuckets 0).getD bucketId 0) =
      fun _ => 0 := by
    funext bucketId
    rw [List.getD_eq_getElem?_getD, List.getElem?_replicate]
    split_ifs <;> rfl
  rw [zero] at related
  have builds : Tables.chdPhNew draws keys = Tables.chdPhBuild draws
      (draws.toDraws.sizes keys.length) keys := by
    rw [Tables.chdPhNew, bins, Option.bind_eq_bind, Option.bind_some, dif_pos positive, sizes]
  rw [builds, Tables.chdPhBuild, run, Option.bind_eq_bind, Option.bind_some]
  cases trials : chdPhNew draws.toDraws keys with
  | none =>
      unfold chdPhNew at trials
      rw [trials] at related
      cases related
      exact Or.inl ⟨rfl, rfl⟩
  | some mphf =>
      have found := trials
      unfold chdPhNew at found
      rw [found] at related
      rcases result with - | trial
      · cases related
      · have refines : trial.Refines draws.toDraws (draws.toDraws.sizes keys.length) mphf := by
          cases related
          assumption
        have low : forall disp, disp ∈ trial.search.dispTable -> disp < 2 ^ 31 := by
          intro disp member
          rcases List.mem_iff_getElem.mp member with ⟨idx, inside, rfl⟩
          have bound := chdPhTrials_disp_le 100 (fun _ => Nat.zero_le _) found idx
          rw [refines.placement] at bound
          have entry : (trial.search.placement).dispTable idx = trial.search.dispTable[idx] :=
            List.getD_eq_getElem _ 0 inside
          rw [entry] at bound
          exact Nat.lt_of_le_of_lt bound (draws.maxProbes_lt _)
        rcases compresses_dispTable (by rw [refines.dispTable]; exact Nat.succ_pos _)
            (by rw [refines.dispTable, bucketsEq]; omega) low with ⟨cs, generated, proper, query⟩
        rw [refines.dispTable] at generated
        dsimp only
        rw [generated, Option.bind_eq_bind, Option.bind_some]
        refine Or.inr ⟨_, _, mphf, rfl, rfl, ⟨proper, ?_, ?_⟩, ?_, ?_, ?_, ?_, ?_⟩
        · dsimp only
          rw [bucketsEq]
          omega
        · dsimp only
          rw [binsEq]
          omega
        · rw [refines.same]
        · rw [refines.same, binsEq]
          omega
        · rw [refines.same, refines.occupTable]
          omega
        · rw [refines.placement]
          rfl
        · exact chdPhSearch_compressed refines (by rw [binsEq]; omega) query

/-! ## The minimal hash -/

theorem cmphNew_of_some {draws : Draws} {keys : List Bytes} {mphf : ChdPhData}
    (built : chdPhNew draws keys = some mphf) :
    Exists fun perfect : Perfect keys mphf => Exists fun spare : keys.length < mphf.sizes.n =>
      cmphNew draws keys = some (perfect.toChdPh spare) := by
  rcases chdPhTrials_eq_some built with ⟨perfect, sizes⟩
  have spare : keys.length < mphf.sizes.n := by
    rw [sizes]
    exact Nat.lt_of_le_of_lt (Nat.le_mul_of_pos_left _ (by decide)) (draws.spare keys.length)
  refine ⟨perfect, spare, ?_⟩
  unfold cmphNew
  split
  · next fails =>
      rw [built] at fails
      cases fails
  · next found =>
      rw [built] at found
      cases found
      rfl

/-- A minimal hash, packed or not, gives every string the index of `chdSearch`,
and the packed forms have the announced sizes. -/
structure Computes {keys : List Bytes} (chd : ChdMphf) (ph : ChdPh keys) : Prop where
  sized : chd.Sized
  search : forall key, chd.search key = some (chdSearch ph key)
  packed : Exists fun packed => chd.cmphPack = some packed ∧ chd.packedSize = 4 * packed.length ∧
    forall key rest, cmphSearchPacked (packed ++ rest) key = some (chdSearch ph key)

/-- Both constructions come to nothing, or both to a function, and the functions
are the same. -/
theorem cmphNew_cases (draws : SeedDraws) {keys : List Bytes} (nonempty : keys ≠ [])
    (few : keys.length < 2 ^ 28) :
    (Tables.cmphNew draws keys = some none ∧ cmphNew draws.toDraws keys = none) ∨
    Exists fun chd => Exists fun ph => Tables.cmphNew draws keys = some (some chd) ∧
      cmphNew draws.toDraws keys = some ph ∧ Computes chd ph := by
  unfold Tables.cmphNew
  rcases chdPhNew_refines draws nonempty few with
    ⟨tables, fails⟩ | ⟨chdPhf, occupTable, mphf, tables, built, proper, bins, small, room, bits,
      search⟩
  · have absent : cmphNew draws.toDraws keys = none := by
      apply Option.not_isSome_iff_eq_none.mp
      rw [cmphNew_isSome, fails]
      exact Bool.false_ne_true
    rw [tables]
    exact Or.inl ⟨rfl, absent⟩
  · rcases cmphNew_of_some built with ⟨perfect, spare, result⟩
    have several := (cmphNew_eq_some result).2
    have some_key : 0 < keys.length := List.length_pos_iff.mpr nonempty
    have more : 2 * keys.length < mphf.sizes.n := by
      rw [(chdPhTrials_eq_some built).2]
      exact draws.toDraws.spare keys.length
    rcases chdNew_eq_some (perfect.toChdPh spare) perfect.distinct proper room
        (fun bin => by rw [bits, perfect.toChdPh_occupied]) search
          (by dsimp only [Perfect.toChdPh]; omega) small with
      ⟨chd, packed, made, sized, packs, size, searches⟩
    refine Or.inr ⟨chd, perfect.toChdPh spare, ?_, result, sized, fun key => (searches key).1,
      packed, packs, size,
      fun key rest => (searches key).2 rest⟩
    rw [tables, Option.bind_eq_bind, Option.bind_some]
    dsimp only
    rw [bins, show chdNew chdPhf occupTable mphf.sizes.n keys.length = some chd from made,
      Option.bind_eq_bind, Option.bind_some]

/-- For all keys and seeds, the tables and words of `cmph_new` do what the search
with lists and functions does: no access is outside a table, the outcome is
`NULL` for the same seeds, and otherwise every string has the same index, also
in the packed function. -/
theorem cmphNew_refines (draws : SeedDraws) {keys : List Bytes} (nonempty : keys ≠ [])
    (few : keys.length < 2 ^ 28) : Exists fun result => Tables.cmphNew draws keys = some result ∧
      Option.Rel Computes result (cmphNew draws.toDraws keys) := by
  rcases cmphNew_cases draws nonempty few with ⟨tables, absent⟩ |
    ⟨chd, ph, tables, present, computes⟩
  · rw [absent]
    exact ⟨none, tables, Option.Rel.none⟩
  · rw [present]
    exact ⟨some chd, tables, Option.Rel.some computes⟩

/-- Seeds in order, and twenty bits of probes shared out as for two keys. -/
def inOrderDraws : SeedDraws where
  seeds := fun state => BitVec.ofNat 32 state
  maxProbes := fun m => if m = 1 then 0 else 52428
  maxProbes_one := rfl
  maxProbes_lt := by
    intro m
    split <;> decide

theorem cmphNew_refines_twoPages : Exists fun result =>
    Tables.cmphNew inOrderDraws [ascii "a.html", ascii "b.html"] = some result ∧
      Option.Rel Computes result (cmphNew inOrderDraws.toDraws [ascii "a.html", ascii "b.html"]) :=
  cmphNew_refines inOrderDraws (List.cons_ne_nil _ _) (by decide)

/-- The seed that an odd first draw of `rand` gives two keys. -/
def oddDraws : SeedDraws :=
  { inOrderDraws with seeds := fun _ => 1 }

/-- With it the name `c` is above the keys `a` and `b`. -/
example : ((Tables.cmphNew oddDraws [ascii "a", ascii "b"]).bind id).map
    (fun chd => [ascii "a", ascii "b", ascii "c"].map chd.search) =
      some [some 0, some 1, some 2] := by
  decide +kernel

/-- `cmph_new` never ends with a wrong function.  It gives up, or the keys are
two or more and all different, and the packed words number them without gaps. -/
theorem cmphNew_minimalPerfect (draws : SeedDraws) {keys : List Bytes} (nonempty : keys ≠ [])
    (few : keys.length < 2 ^ 28) :
    Tables.cmphNew draws keys = some none ∨
    Exists fun chd => Exists fun packed => Exists fun cmphSearch =>
      Tables.cmphNew draws keys = some (some chd) ∧ keys.Nodup ∧ 2 ≤ keys.length ∧
      chd.cmphPack = some packed ∧ chd.packedSize = 4 * packed.length ∧
        Setup.MinimalPerfect cmphSearch keys ∧
      forall key, chd.search key = some (cmphSearch key) ∧
        forall rest, cmphSearchPacked (packed ++ rest) key = some (cmphSearch key) := by
  rcases cmphNew_cases draws nonempty few with ⟨tables, -⟩ | ⟨chd, ph, tables, present, computes⟩
  · exact Or.inl tables
  · rcases cmphNew_eq_some present with ⟨distinct, several⟩
    rcases computes.packed with ⟨packed, packs, size, searches⟩
    have some_key : 0 < keys.length := List.length_pos_iff.mpr nonempty
    exact Or.inr ⟨chd, packed, chdSearch ph, tables, distinct, by omega, packs, size,
      ph.minimalPerfect distinct,
      fun key => ⟨computes.search key, searches key⟩⟩

/-- For two pages there is a function. -/
theorem cmphNew_minimalPerfect_twoPages : Exists fun chd => Exists fun packed =>
    Exists fun cmphSearch =>
    Tables.cmphNew inOrderDraws [ascii "a.html", ascii "b.html"] = some (some chd) ∧
      chd.cmphPack = some packed ∧
        Setup.MinimalPerfect cmphSearch [ascii "a.html", ascii "b.html"] ∧
      forall key, cmphSearchPacked packed key = some (cmphSearch key) := by
  rcases cmphNew_minimalPerfect inOrderDraws (List.cons_ne_nil (ascii "a.html") [ascii "b.html"])
    (by decide) with
    fails | ⟨chd, packed, cmphSearch, tables, -, -, packs, -, minimal, searches⟩
  · have found : ((Tables.cmphNew inOrderDraws [ascii "a.html", ascii "b.html"]).bind id).isSome =
        true := by
      decide +kernel
    rw [fails] at found
    cases found
  · refine ⟨chd, packed, cmphSearch, tables, packs, minimal, fun key => ?_⟩
    rw [← (searches key).2 [], List.append_nil]

end Hash
end Johnny
