import Johnny.Hash.SearchTables

namespace Johnny
namespace Hash

open Library

/-!
# Trials on the tables

The loop of `chd_ph_new` maps, sorts and searches in the same tables until a
search succeeds.  A trial finds in the tables what the one before it has left:
the sorted buckets and items, and the displacements of its placed buckets.

With tables of the right sizes no trial reads or writes outside of them, and the
trials are those of `Construction`.
-/

namespace Tables

/-- A successful trial. -/
structure Trial where
  state : Nat
  search : Search

/-- The loop of `chd_ph_new` with `iterations` trials to go; the inner `none` is
a failure. -/
def chdPhTrials (draws : Draws) (sizes : Sizes) (keys : List Bytes) :
    Nat -> Nat -> List Extent × List ChdPhItem -> List Nat -> Option (Option Trial)
  | 0, _, _, _ => some none
  | iterations + 1, state, tables, dispTable => do
      let mapping <- chdPhMapping draws.hashStates sizes keys 1000 state 0 tables
      match mapping with
      | none => some none
      | some mapped => do
          let ordered <- chdPhOrdering mapped.buckets mapped.items sizes.nbuckets keys.length
            mapped.maxBucketSize
          let searched <- placeBuckets2 sizes.n
            (draws.maxProbes keys.length) ordered.items ordered.sortedLists
            mapped.maxBucketSize ⟨ordered.buckets, List.replicate ((sizes.n + 31) / 32) 0#32,
              dispTable⟩
          if searched.1 then some (some ⟨mapped.state, searched.2⟩)
          else
            chdPhTrials draws sizes keys iterations (mapped.state + 1) (searched.2.buckets,
              ordered.items)
              searched.2.dispTable

/-- What a trial leaves in its tables. -/
structure Trial.Refines (draws : Draws) (sizes : Sizes) (trial : Trial) (mphf : ChdPhData) :
    Prop where
  hl : mphf.hl = draws.hashStates trial.state
  same : mphf.sizes = sizes
  placement : mphf.placement = trial.search.placement
  occupTable : trial.search.occupTable.length = (sizes.n + 31) / 32
  dispTable : trial.search.dispTable.length = sizes.nbuckets

/-- The search of a trial begins with free bins. -/
theorem placement_replicate (buckets : List Extent) (words : Nat) (dispTable : List Nat) :
    (⟨buckets, List.replicate words 0#32, dispTable⟩ : Search).placement =
      ⟨fun _ => false, fun bucketId => dispTable.getD bucketId 0⟩ := by
  simp only [Search.placement, Placement.mk.injEq, and_true]
  funext place
  exact bitOf_replicate words place

/-- Ordering and search of one trial. -/
theorem orders_searches {sizes : Sizes} {nitems : Nat} (maxProbes : Nat) {tables : Mapped}
    {mapped : Hash.Mapped} (refines : tables.Refines sizes nitems mapped)
    (bounded : forall bucketNum, (mapped.buckets bucketNum).length ≤ mapped.maxBucketSize)
    (positive : 1 ≤ mapped.maxBucketSize) {dispTable : List Nat}
    (slots : dispTable.length = sizes.nbuckets) :
    let searched := Hash.placeBuckets2 sizes.n maxProbes
      (Hash.chdPhOrdering sizes mapped.buckets) mapped.maxBucketSize
      ⟨fun _ => false, fun bucketId => dispTable.getD bucketId 0⟩
    Exists fun ordered => Exists fun after =>
      chdPhOrdering tables.buckets tables.items sizes.nbuckets nitems tables.maxBucketSize =
        some ordered ∧
      placeBuckets2 sizes.n maxProbes ordered.items ordered.sortedLists tables.maxBucketSize
        ⟨ordered.buckets, List.replicate ((sizes.n + 31) / 32) 0#32, dispTable⟩ =
          some (searched.1, after) ∧
      after.placement = searched.2 ∧ ordered.items.length = nitems ∧
        after.buckets.length = sizes.nbuckets ∧
      after.occupTable.length = (sizes.n + 31) / 32 ∧ after.dispTable.length = sizes.nbuckets := by
  rcases chdPhOrdering_sorts refines.holds bounded positive with ⟨ordered, orders, sorts⟩
  dsimp only at orders sorts
  rw [refines.items] at orders sorts
  rcases @placeBuckets2_refines sizes mapped.buckets ordered.items ordered.sortedLists maxProbes
      mapped.maxBucketSize sorts.lists
      ⟨ordered.buckets, List.replicate ((sizes.n + 31) / 32) 0#32, dispTable⟩
      (by dsimp only; rw [List.length_replicate]; omega) slots (fun k above below =>
        sorts.holdsList above below) with
    ⟨after, searches, placement, same⟩
  rw [placement_replicate] at searches placement
  refine ⟨ordered, after, ?_, ?_, placement, sorts.items, ?_, ?_, ?_⟩
  · rw [refines.maxBucketSize, orders]
  · rw [refines.maxBucketSize, searches]
  · rw [same.buckets]
    exact sorts.buckets
  · rw [same.occupTable]
    exact List.length_replicate
  · rw [same.dispTable]
    exact slots

/-- The trials on the tables. -/
theorem chdPhTrials_refines (draws : Draws) {keys : List Bytes} (nonempty : keys ≠ [])
    (iterations state : Nat) {tables : List Extent × List ChdPhItem}
    (nbuckets : tables.1.length = (draws.sizes keys.length).nbuckets)
    (nitems : tables.2.length = keys.length) {dispTable : List Nat}
    (slots : dispTable.length = (draws.sizes keys.length).nbuckets) :
    Exists fun result =>
      chdPhTrials draws (draws.sizes keys.length) keys iterations state tables dispTable =
        some result ∧
      Option.Rel (Trial.Refines draws (draws.sizes keys.length)) result
        (Hash.chdPhTrials draws keys iterations state (fun bucketId =>
          dispTable.getD bucketId 0)) := by
  induction iterations generalizing state tables dispTable with
  | zero => exact ⟨none, rfl, Option.Rel.none⟩
  | succ iterations ih =>
      rcases chdPhMapping_refines draws.hashStates
        (draws.sizes keys.length) keys 1000 state 0 nbuckets nitems with
        ⟨result, maps, related⟩
      rw [Hash.chdPhTrials, chdPhTrials, maps]
      cases mapping : Hash.chdPhMapping draws.hashStates
        (draws.sizes keys.length) keys 1000 state 0 with
      | none =>
          rw [mapping] at related
          cases related
          exact ⟨none, rfl, Option.Rel.none⟩
      | some mapped =>
          rw [mapping] at related
          rcases result with - | tablesMapped
          · cases related
          · have refines : tablesMapped.Refines (draws.sizes keys.length) keys.length mapped := by
              cases related
              assumption
            rcases chdPhMapping_eq_some mapping with ⟨buckets, -, bounded⟩
            rw [← buckets] at bounded
            have positive : 1 ≤ mapped.maxBucketSize := by
              rcases List.exists_mem_of_ne_nil keys nonempty with ⟨key, member⟩
              have inBucket := mem_itemsOf.mpr (List.mem_map_of_mem (f :=
                (draws.sizes keys.length).mapItem (draws.hashStates mapped.state)) member)
              rw [← buckets] at inBucket
              exact Nat.le_trans (List.length_pos_of_mem inBucket) (bounded _)
            rcases orders_searches (draws.maxProbes keys.length) refines bounded positive slots with
              ⟨ordered, after, orders, searches, placement, items, bucketsLength, occupTable,
                dispLength⟩
            simp only [Option.bind_eq_bind, Option.bind_some, orders, searches]
            generalize Hash.placeBuckets2 (draws.sizes keys.length).n (draws.maxProbes keys.length)
              (Hash.chdPhOrdering (draws.sizes keys.length) mapped.buckets) mapped.maxBucketSize
              ⟨fun _ => false, fun bucketId => dispTable.getD bucketId 0⟩ = searched
                at placement searches ⊢
            cases success : searched.1 with
            | true =>
                refine ⟨some ⟨tablesMapped.state, after⟩, by simp, ?_⟩
                simp only [if_true]
                exact Option.Rel.some ⟨by rw [refines.state], rfl, placement.symm, occupTable,
                  dispLength⟩
            | false =>
                simp only [Bool.false_eq_true, if_false, refines.state]
                have later := @ih (mapped.state + 1) (after.buckets,
                  ordered.items) bucketsLength items _ dispLength
                have disp : (fun bucketId => after.dispTable.getD bucketId 0) =
                    searched.2.dispTable :=
                  congrArg Placement.dispTable placement
                rwa [disp] at later

end Tables

section

variable {n most : Nat} {placement : Placement}

/-- A displacement is not above the number of the probe. -/
theorem placesRound_disp_le {probe0Num probe1Num : Nat} (probe : probe0Num + probe1Num * n ≤ most)
    (buckets : List ChdPhBucket) (low : forall bucketId, placement.dispTable bucketId ≤ most)
    (bucketId : Nat) :
    (placesRound n probe0Num probe1Num buckets placement).2.dispTable bucketId ≤ most := by
  induction buckets generalizing placement with
  | nil => exact low bucketId
  | cons bucket rest ih =>
      rw [placesRound]
      dsimp only
      split_ifs
      · apply ih
        intro other
        dsimp only
        by_cases same : other = bucket.bucketId
        · rw [same, Function.update_self]
          exact probe
        · rw [Function.update_of_ne same]
          exact low other
      · exact ih low

/-- The probes are counted by both numbers together. -/
theorem placesList_disp_le (probesLeft : Nat) {probe0Num probe1Num : Nat}
    (probe : probe0Num + probe1Num * n + probesLeft ≤ most) (buckets : List ChdPhBucket)
    (low : forall bucketId, placement.dispTable bucketId ≤ most) (bucketId : Nat) :
    (placesList n probesLeft probe0Num probe1Num buckets placement).2.dispTable bucketId ≤
      most := by
  induction probesLeft generalizing probe0Num probe1Num buckets placement bucketId with
  | zero =>
      rw [placesList]
      by_cases empty : buckets = []
      · rw [if_pos empty]
        exact low bucketId
      · rw [if_neg empty]
        exact placesRound_disp_le (by omega) buckets low bucketId
  | succ probesLeft ih =>
      have round := placesRound_disp_le (by omega : probe0Num + probe1Num * n ≤ most) buckets low
      rw [placesList]
      by_cases empty : buckets = []
      · rw [if_pos empty]
        exact low bucketId
      · rw [if_neg empty]
        rcases probesLeft with - | probesLeft
        · exact round bucketId
        · dsimp only
          split_ifs with carry exhausted exhausted
          · exact round bucketId
          · refine ih ?_ _ round bucketId
            have back : probe0Num + 1 - n + (probe1Num + 1) * n =
                probe0Num + probe1Num * n + 1 := by
              rw [Nat.add_mul, Nat.one_mul]
              omega
            omega
          · exact round bucketId
          · exact ih (by omega) _ round bucketId

theorem placeBuckets2_disp_le {maxProbes : Nat} (le : maxProbes ≤ most)
    (sortedLists : Nat -> List ChdPhBucket) (size : Nat)
    (low : forall bucketId, placement.dispTable bucketId ≤ most) (bucketId : Nat) :
    (placeBuckets2 n maxProbes sortedLists size placement).2.dispTable bucketId ≤ most := by
  induction size generalizing placement with
  | zero => exact low bucketId
  | succ size ih =>
      have list := placesList_disp_le maxProbes (by omega : 0 + 0 * n + maxProbes ≤ most)
        (sortedLists (size + 1)) low
      rw [placeBuckets2]
      split_ifs
      · exact ih list
      · exact list bucketId

end

theorem chdPhTrials_disp_le {draws : Draws} {keys : List Bytes} (iterations : Nat) {state : Nat}
    {dispTable : Nat -> Nat}
    (low : forall bucketId, dispTable bucketId ≤ draws.maxProbes keys.length) {mphf : ChdPhData}
    (trials : chdPhTrials draws keys iterations state dispTable = some mphf) (bucketId : Nat) :
    mphf.placement.dispTable bucketId ≤ draws.maxProbes keys.length := by
  induction iterations generalizing state dispTable with
  | zero => cases trials
  | succ iterations ih =>
      rw [chdPhTrials] at trials
      cases mapping : chdPhMapping draws.hashStates (draws.sizes keys.length) keys 1000 state 0 with
      | none =>
          rw [mapping] at trials
          cases trials
      | some mapped =>
          rw [mapping] at trials
          dsimp only at trials
          have searched := @placeBuckets2_disp_le (draws.sizes keys.length).n _
            ⟨fun _ => false, dispTable⟩ _ (Nat.le_refl (draws.maxProbes keys.length))
            (chdPhOrdering (draws.sizes keys.length) mapped.buckets) mapped.maxBucketSize low
          split_ifs at trials
          · cases trials
            exact searched bucketId
          · exact ih searched trials

end Hash
end Johnny
