import Johnny.Hash.Placing
import Johnny.Hash.Chd
import Mathlib.Data.List.Pairwise

namespace Johnny
namespace Hash

/-!
# Construction of the hash

`cmph_new` with the algorithm `CMPH_CHD` builds a perfect hash with `chd_ph_new`
and compresses its range.  A trial of `chd_ph_new` maps the keys to buckets and
searches bins for the buckets; up to 100 trials are made.  There is no hash for
equal keys, which no mapping separates, and none for a single key, for which
the limit on the probes of a search is zero.

Two numbers are computed in floating point.  The bins come from a load factor
of one half and are then increased to a prime; the limit on the probes is
proportional to the logarithm of the number of keys.  The tables are packed into
compressed forms, which are taken to give back what was stored.
-/

/-- What an outcome of `cmph_new` depends on besides the keys: the hash states
it draws, and the numbers that depend on the number of keys alone. -/
structure Draws where
  hashStates : Nat -> HashState
  bins : Nat -> Nat
  spare : forall m, 2 * m < bins m
  maxProbes : Nat -> Nat
  maxProbes_one : maxProbes 1 = 0

/-- `keys_per_bucket`. -/
def keysPerBucket : Nat := 4

def Draws.sizes (draws : Draws) (m : Nat) : Sizes where
  nbuckets := m / keysPerBucket + 1
  n := draws.bins m
  nbuckets_pos := Nat.succ_pos _
  n_pos := Nat.lt_of_le_of_lt (Nat.zero_le _) (draws.spare m)

/-- What `chd_ph_new` hands over: the hash state and the tables of the trial
that succeeded. -/
structure ChdPhData where
  hl : HashState
  sizes : Sizes
  placement : Placement

/-- The loop of `chd_ph_new` with `iterations` trials to go.  The displacements
of a failed trial stay in their table. -/
def chdPhTrials (draws : Draws) (keys : List Bytes) : Nat -> Nat -> (Nat -> Nat) -> Option ChdPhData
  | 0, _, _ => none
  | iterations + 1, state, dispTable =>
      let sizes := draws.sizes keys.length
      match chdPhMapping draws.hashStates sizes keys 1000 state 0 with
      | none => none
      | some mapped =>
          let searched := placeBuckets2 sizes.n (draws.maxProbes keys.length)
            (chdPhOrdering sizes mapped.buckets) mapped.maxBucketSize ⟨fun _ => false, dispTable⟩
          if searched.1 then some ⟨draws.hashStates mapped.state, sizes, searched.2⟩
          else chdPhTrials draws keys iterations (mapped.state + 1) searched.2.dispTable

def chdPhNew (draws : Draws) (keys : List Bytes) : Option ChdPhData :=
  chdPhTrials draws keys 100 0 (fun _ => 0)

/-- The bin that a mapped item gets from the displacement of its bucket. -/
def Placement.bin (placement : Placement) (n : Nat) (mapItem : ChdPhMapItem) : Nat :=
  position n (placement.dispTable mapItem.bucketNum % n) (placement.dispTable mapItem.bucketNum / n)
    mapItem.item

def chdPhSearch (mphf : ChdPhData) (key : Bytes) : Nat :=
  mphf.placement.bin mphf.sizes.n (mphf.sizes.mapItem mphf.hl key)

/-- The buckets in the order of the search, up to a size. -/
def sortedBuckets (sizes : Sizes) (buckets : Buckets) (maxBucketSize : Nat) : List ChdPhBucket :=
  (List.range maxBucketSize).flatMap (fun index => chdPhOrdering sizes buckets (index + 1))

theorem mem_chdPhOrdering {sizes : Sizes} {buckets : Buckets} {size : Nat} {bucket : ChdPhBucket} :
    bucket ∈ chdPhOrdering sizes buckets size <->
      bucket.bucketId < sizes.nbuckets ∧ bucket.items = buckets bucket.bucketId ∧
        bucket.items.length = size := by
  unfold chdPhOrdering
  rw [List.mem_map]
  constructor
  · rintro ⟨bucketId, member, rfl⟩
    rcases List.mem_filter.mp member with ⟨inRange, length⟩
    exact ⟨List.mem_range.mp inRange, rfl, of_decide_eq_true length⟩
  · rintro ⟨inRange, items, length⟩
    refine ⟨bucket.bucketId, List.mem_filter.mpr ⟨List.mem_range.mpr inRange, ?_⟩, ?_⟩
    · rw [← items]
      exact decide_eq_true length
    · rw [← items]

theorem mem_sortedBuckets {sizes : Sizes} {buckets : Buckets} {maxBucketSize : Nat}
    {bucket : ChdPhBucket} : bucket ∈ sortedBuckets sizes buckets maxBucketSize <->
      bucket.bucketId < sizes.nbuckets ∧ bucket.items = buckets bucket.bucketId ∧
        0 < bucket.items.length ∧ bucket.items.length ≤ maxBucketSize := by
  unfold sortedBuckets
  rw [List.mem_flatMap]
  constructor
  · rintro ⟨index, inRange, member⟩
    rcases mem_chdPhOrdering.mp member with ⟨inside, items, length⟩
    have bound := List.mem_range.mp inRange
    exact ⟨inside, items, by omega, by omega⟩
  · rintro ⟨inside, items, positive, bound⟩
    refine ⟨bucket.items.length - 1, List.mem_range.mpr (by omega),
      mem_chdPhOrdering.mpr ⟨inside, items, ?_⟩⟩
    omega

/-- No bucket is in the order twice. -/
theorem sortedBuckets_nodup (sizes : Sizes) (buckets : Buckets) (maxBucketSize : Nat) :
    ((sortedBuckets sizes buckets maxBucketSize).map ChdPhBucket.bucketId).Nodup := by
  have distinct : (sortedBuckets sizes buckets maxBucketSize).Nodup := by
    apply List.nodup_flatMap.mpr
    constructor
    · intro index _
      apply List.Nodup.map _ (List.nodup_range.filter _)
      intro first second same
      exact congrArg ChdPhBucket.bucketId same
    · apply List.nodup_range.imp
      intro first second different bucket inFirst inSecond
      have firstLength := (mem_chdPhOrdering.mp inFirst).2.2
      have secondLength := (mem_chdPhOrdering.mp inSecond).2.2
      omega
  apply List.Nodup.map_on _ distinct
  intro first firstMember second secondMember same
  have firstItems := (mem_sortedBuckets.mp firstMember).2.1
  have secondItems := (mem_sortedBuckets.mp secondMember).2.1
  rw [← same] at secondItems
  cases first
  cases second
  dsimp only at firstItems secondItems same
  rw [firstItems, secondItems, same]

section

variable {sizes : Sizes} {mapItems : List ChdPhMapItem} {maxBucketSize : Nat}
  {placement : Placement}

/-- The bucket of a mapped item is among the sorted ones. -/
theorem bucket_mem_sortedBuckets
    (bounded : forall bucketNum, (itemsOf mapItems bucketNum).length ≤ maxBucketSize)
    {mapItem : ChdPhMapItem} (member : mapItem ∈ mapItems)
    (inside : mapItem.bucketNum < sizes.nbuckets) :
    ⟨mapItem.bucketNum, itemsOf mapItems mapItem.bucketNum⟩ ∈
      sortedBuckets sizes (itemsOf mapItems) maxBucketSize :=
  mem_sortedBuckets.mpr ⟨inside, rfl, List.length_pos_of_mem (mem_itemsOf.mpr member), bounded _⟩

theorem bin_mem_bins {n : Nat} {mapItem : ChdPhMapItem} (member : mapItem ∈ mapItems) :
    placement.bin n mapItem ∈
      ChdPhBucket.bins n placement.dispTable ⟨mapItem.bucketNum,
        itemsOf mapItems mapItem.bucketNum⟩ :=
  List.mem_map_of_mem (mem_itemsOf.mpr member)

/-- When all buckets are placed, different items are in different bins. -/
theorem bins_nodup_of_placed (distinct : mapItems.Nodup)
    (inside : forall mapItem, mapItem ∈ mapItems -> mapItem.bucketNum < sizes.nbuckets)
    (bounded : forall bucketNum, (itemsOf mapItems bucketNum).length ≤ maxBucketSize)
    (placed : Placed sizes.n placement (sortedBuckets sizes (itemsOf mapItems) maxBucketSize)) :
    (mapItems.map (placement.bin sizes.n)).Nodup := by
  apply List.Nodup.map_on _ distinct
  intro first firstMember second secondMember same
  rcases List.nodup_flatMap.mp placed.distinct with ⟨within, between⟩
  have firstBucket := bucket_mem_sortedBuckets bounded firstMember (inside first firstMember)
  have secondBucket := bucket_mem_sortedBuckets bounded secondMember (inside second secondMember)
  have firstBin : placement.bin sizes.n first ∈ _ := bin_mem_bins firstMember
  have secondBin : placement.bin sizes.n second ∈ _ := bin_mem_bins secondMember
  by_cases sameBucket : first.bucketNum = second.bucketNum
  · have own := within _ firstBucket
    have items : first.item = second.item := by
      apply List.inj_on_of_nodup_map own (mem_itemsOf.mpr firstMember)
      · rw [sameBucket]
        exact mem_itemsOf.mpr secondMember
      · unfold Placement.bin at same
        rw [← sameBucket] at same
        exact same
    cases first
    cases second
    dsimp only at sameBucket items
    rw [sameBucket, items]
  · rw [same] at firstBin
    have different : (⟨first.bucketNum, itemsOf mapItems first.bucketNum⟩ : ChdPhBucket) ≠
        ⟨second.bucketNum, itemsOf mapItems second.bucketNum⟩ := by
      intro equal
      exact sameBucket (ChdPhBucket.mk.inj equal).1
    have symmetric : Std.Symm (Function.onFun List.Disjoint
        (ChdPhBucket.bins sizes.n placement.dispTable)) :=
          ⟨fun _ _ disjoint => List.Disjoint.symm disjoint⟩
    have apart := between.forall firstBucket secondBucket different
    exact absurd secondBin (fun member => apart firstBin member)

/-- The bits that are set belong to the bins of the items. -/
theorem occupied_of_placed
    (inside : forall mapItem, mapItem ∈ mapItems -> mapItem.bucketNum < sizes.nbuckets)
    (bounded : forall bucketNum, (itemsOf mapItems bucketNum).length ≤ maxBucketSize)
    (placed : Placed sizes.n placement (sortedBuckets sizes (itemsOf mapItems) maxBucketSize))
    (place : Nat) :
    placement.occupTable place = true <-> place ∈ mapItems.map (placement.bin sizes.n) := by
  rw [placed.occupied place, List.mem_flatMap, List.mem_map]
  constructor
  · rintro ⟨bucket, member, inBucket⟩
    rcases mem_sortedBuckets.mp member with ⟨-, items, -⟩
    rcases List.mem_map.mp inBucket with ⟨item, inItems, rfl⟩
    rw [items] at inItems
    have found : (⟨item, bucket.bucketId⟩ : ChdPhMapItem) ∈ mapItems := mem_itemsOf.mp inItems
    exact ⟨⟨item, bucket.bucketId⟩, found, rfl⟩
  · rintro ⟨mapItem, member, rfl⟩
    exact ⟨_, bucket_mem_sortedBuckets bounded member (inside mapItem member), bin_mem_bins member⟩

end

/-- A perfect hash was built from different keys, puts them into different bins,
and its occupied bins are theirs. -/
structure Perfect (keys : List Bytes) (mphf : ChdPhData) : Prop where
  distinct : keys.Nodup
  bins : (keys.map (chdPhSearch mphf)).Nodup
  occupied : forall place, mphf.placement.occupTable place = true <->
    place ∈ keys.map (chdPhSearch mphf)

/-- A trial that places all buckets of a mapping has found a perfect hash. -/
theorem perfect_of_searched {hashStates : Nat -> HashState} {sizes : Sizes} {keys : List Bytes}
    {iterations state maxBucketSize probes : Nat} {mapped : Mapped} {dispTable : Nat -> Nat}
    {placement : Placement}
    (mapping : chdPhMapping hashStates sizes keys iterations state maxBucketSize = some mapped)
    (searched : placeBuckets2 sizes.n probes
      (chdPhOrdering sizes mapped.buckets) mapped.maxBucketSize
      ⟨fun _ => false, dispTable⟩ = (true, placement)) :
    Perfect keys ⟨hashStates mapped.state, sizes, placement⟩ := by
  rcases chdPhMapping_eq_some mapping with ⟨buckets, distinct, bounded⟩
  rw [buckets] at searched
  have placed := placeBuckets2_spec sizes.n_pos mapped.maxBucketSize (Placed.empty _ dispTable)
    (by
      rw [List.append_nil]
      exact sortedBuckets_nodup _ _ _) searched
  rw [List.append_nil] at placed
  have inside : forall mapItem, mapItem ∈ keys.map (sizes.mapItem (hashStates mapped.state)) ->
      mapItem.bucketNum < sizes.nbuckets := by
    intro mapItem member
    rcases List.mem_map.mp member with ⟨key, -, rfl⟩
    exact Sizes.mapItem_bucketNum_lt _ _ _
  have bins := bins_nodup_of_placed distinct inside bounded placed
  have occupied := occupied_of_placed inside bounded placed
  rw [List.map_map] at bins
  refine ⟨List.Nodup.of_map _ distinct, bins, ?_⟩
  intro place
  rw [occupied place, List.map_map]
  rfl

theorem chdPhTrials_eq_some {draws : Draws} {keys : List Bytes} {iterations state : Nat}
    {dispTable : Nat -> Nat} {mphf : ChdPhData}
    (trials : chdPhTrials draws keys iterations state dispTable = some mphf) :
    Perfect keys mphf ∧ mphf.sizes = draws.sizes keys.length := by
  induction iterations generalizing state dispTable with
  | zero => cases trials
  | succ iterations ih =>
      rw [chdPhTrials] at trials
      cases mapping : chdPhMapping draws.hashStates (draws.sizes keys.length) keys 1000 state 0 with
      | none =>
          rw [mapping] at trials
          cases trials
      | some mapped =>
          rw [mapping] at trials
          dsimp only at trials
          rcases searched : placeBuckets2 (draws.sizes keys.length).n (draws.maxProbes keys.length)
              (chdPhOrdering (draws.sizes keys.length) mapped.buckets) mapped.maxBucketSize
              ⟨fun _ => false, dispTable⟩ with ⟨success, placement⟩
          rw [searched] at trials
          cases success with
          | false => exact ih trials
          | true =>
              cases trials
              exact ⟨perfect_of_searched mapping searched, rfl⟩

/-- With at most one probe a list is finished only if it is empty. -/
theorem placesList_of_few {n probesLeft probe0Num probe1Num : Nat} (few : probesLeft ≤ 1)
    {buckets : List ChdPhBucket} {placement after : Placement}
    (finishes : placesList n probesLeft probe0Num probe1Num buckets placement = (true, after)) :
      buckets = [] := by
  by_contra nonempty
  rw [placesList.eq_def, if_neg nonempty] at finishes
  rcases probesLeft with - | - | probesLeft
  · cases finishes
  · cases finishes
  · omega

theorem placeBuckets2_of_few {n maxProbes : Nat} (few : maxProbes ≤ 1)
    {sortedLists : Nat -> List ChdPhBucket} (size : Nat) {placement after : Placement}
    (succeeds : placeBuckets2 n maxProbes sortedLists size placement = (true, after)) :
    forall index, index < size -> sortedLists (index + 1) = [] := by
  induction size generalizing placement with
  | zero => exact fun index bound => absurd bound (Nat.not_lt_zero index)
  | succ size ih =>
      rw [placeBuckets2] at succeeds
      cases finishes : placesList n maxProbes 0 0 (sortedLists (size + 1)) placement with
      | mk success middle =>
          rw [finishes] at succeeds
          cases success with
          | false => cases succeeds
          | true =>
              rw [if_pos rfl] at succeeds
              intro index bound
              rcases Nat.lt_succ_iff_lt_or_eq.mp bound with below | rfl
              · exact ih succeeds index below
              · exact placesList_of_few few finishes

/-- All trials fail when a search may make one probe at most. -/
theorem chdPhTrials_of_few {draws : Draws} {keys : List Bytes}
    (few : draws.maxProbes keys.length ≤ 1) {key : Bytes} (member : key ∈ keys)
    (iterations state : Nat) (dispTable : Nat -> Nat) :
    chdPhTrials draws keys iterations state dispTable = none := by
  induction iterations generalizing state dispTable with
  | zero => rfl
  | succ iterations ih =>
      rw [chdPhTrials]
      cases mapping : chdPhMapping draws.hashStates (draws.sizes keys.length) keys 1000 state 0 with
      | none => rfl
      | some mapped =>
          dsimp only
          rcases chdPhMapping_eq_some mapping with ⟨buckets, -, bounded⟩
          cases searched : placeBuckets2 (draws.sizes keys.length).n (draws.maxProbes keys.length)
              (chdPhOrdering (draws.sizes keys.length) mapped.buckets)
              mapped.maxBucketSize ⟨fun _ => false, dispTable⟩ with
          | mk success placement =>
              cases success with
              | false => exact ih _ _
              | true =>
                  -- The bucket of the key is in one of the lists.
                  have empty := placeBuckets2_of_few few mapped.maxBucketSize searched
                  have inBucket := bucket_mem_sortedBuckets bounded (List.mem_map_of_mem member)
                    (Sizes.mapItem_bucketNum_lt (draws.sizes keys.length)
                      (draws.hashStates mapped.state) key)
                  rcases List.mem_flatMap.mp inBucket with ⟨index, inRange, inList⟩
                  rw [← buckets, empty index (List.mem_range.mp inRange)] at inList
                  cases inList

/-! ## The finished hash -/

/-- The perfect hash as `chd_new` uses it. -/
def Perfect.toChdPh {keys : List Bytes} {mphf : ChdPhData} (perfect : Perfect keys mphf)
    (spare : keys.length < mphf.sizes.n) : ChdPh keys where
  n := mphf.sizes.n
  bin := chdPhSearch mphf
  bin_lt := fun _ => Nat.mod_lt _ mphf.sizes.n_pos
  apart := fun _ _ firstMember secondMember same =>
    List.inj_on_of_nodup_map perfect.bins firstMember secondMember same
  spare := spare

/-- The bits that `chd_new` reads are those that the search has set. -/
theorem Perfect.toChdPh_occupied {keys : List Bytes} {mphf : ChdPhData}
    (perfect : Perfect keys mphf) (spare : keys.length < mphf.sizes.n) (place : Nat) :
    (perfect.toChdPh spare).occupied place = mphf.placement.occupTable place := by
  rw [Bool.eq_iff_iff, ChdPh.occupied_iff, perfect.occupied place]
  rfl

/-- `cmph_new` for a vector of keys: `none` stands for `NULL`. -/
def cmphNew (draws : Draws) (keys : List Bytes) : Option (ChdPh keys) :=
  match built : chdPhNew draws keys with
  | none => none
  | some mphf =>
      have result := chdPhTrials_eq_some built
      have spare : keys.length < mphf.sizes.n := by
        rw [result.2]
        have bins := draws.spare keys.length
        exact Nat.lt_of_le_of_lt (Nat.le_mul_of_pos_left _ (by decide)) bins
      some (result.1.toChdPh spare)

theorem cmphNew_isSome {draws : Draws} {keys : List Bytes} :
    (cmphNew draws keys).isSome = (chdPhNew draws keys).isSome := by
  unfold cmphNew
  split
  · next fails => exact (congrArg Option.isSome fails).symm
  · next mphf built => exact (congrArg Option.isSome built).symm

/-- There is no hash for equal keys and none for a single key. -/
theorem cmphNew_eq_some {draws : Draws} {keys : List Bytes} {ph : ChdPh keys}
    (built : cmphNew draws keys = some ph) : keys.Nodup ∧ keys.length ≠ 1 := by
  have builds : (chdPhNew draws keys).isSome = true := by
    rw [← cmphNew_isSome, built]
    rfl
  rcases Option.isSome_iff_exists.mp builds with ⟨mphf, found⟩
  refine ⟨(chdPhTrials_eq_some found).1.distinct, ?_⟩
  intro single
  rcases List.length_eq_one_iff.mp single with ⟨key, rfl⟩
  have few : draws.maxProbes [key].length ≤ 1 := by
    rw [List.length_singleton, draws.maxProbes_one]
    exact Nat.zero_le 1
  rw [chdPhNew, chdPhTrials_of_few few List.mem_cons_self] at found
  cases found

end Hash
end Johnny
