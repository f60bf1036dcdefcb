import Johnny.Hash.Mapping
import Johnny.Library.Extents

namespace Johnny
namespace Hash

open Library

/-!
# The tables of the mapping

`chd_ph_mapping` keeps the items of all buckets in one table.  A first pass over
the keys counts the items of each bucket, then every bucket starts where the one
before it ends, and a second pass inserts the items.  All sums are numbers of
keys and do not overflow.

The tables may hold anything when a round begins.  Whatever the hash states, no
access is outside a table, and the items end up in their buckets as `Mapping`
has it.
-/

namespace Tables

/-- `chd_ph_bucket_clean`.  Of a `chd_ph_bucket_t`, `start` is the `items_list`,
and `size` is the union of `size` and `bucket_id`. -/
def chdPhBucketClean (buckets : List Extent) : List Extent :=
  buckets.map (fun bucket => { bucket with size := 0 })

/-- The body of the first pass; the state is `buckets` and `max_bucket_size`. -/
def countsItem (state : List Extent × Nat) (mapItem : ChdPhMapItem) : Option (List Extent × Nat) :=
    do
  let buckets <- grow state.1 mapItem.bucketNum
  let bucket <- buckets[mapItem.bucketNum]?
  some (buckets, if state.2 < bucket.size then bucket.size else state.2)

/-- One round of the loop of `chd_ph_bucket_insert`, which leaves `false` at an
equal item. -/
def insertRound (items : List ChdPhItem) (bucket : Extent) (mapItem : ChdPhMapItem) (i : Nat) :
    Option (Pass Nat Bool) :=
  if i < bucket.size then do
    let tmpItem <- items[bucket.start + i]?
    if tmpItem = mapItem.item then some (.leave false) else some (.again (i + 1))
  else some (.leave true)

def chdPhBucketInsert (tables : List Extent × List ChdPhItem) (mapItem : ChdPhMapItem) :
    Option (Bool × List Extent × List ChdPhItem) := do
  let bucket <- tables.1[mapItem.bucketNum]?
  let fresh <- runLoop (insertRound tables.2 bucket mapItem) (bucket.size + 1) 0
  if fresh then
    let items <- writeAt tables.2 (bucket.start + bucket.size) mapItem.item
    let buckets <- grow tables.1 mapItem.bucketNum
    some (true, buckets, items)
  else some (false, tables)

/-- The second pass, up to an item that is not inserted. -/
def insertsItems : List ChdPhMapItem -> List Extent × List ChdPhItem ->
    Option (Bool × List Extent × List ChdPhItem)
  | [], tables => some (true, tables)
  | mapItem :: rest, tables => do
      let inserted <- chdPhBucketInsert tables mapItem
      if inserted.1 then insertsItems rest inserted.2 else some inserted

structure Mapped where
  state : Nat
  buckets : List Extent
  items : List ChdPhItem
  maxBucketSize : Nat

/-- The loop of `chd_ph_mapping` with `mapping_iterations` rounds to go; the
inner `none` is a return value of zero. -/
def chdPhMapping (hashStates : Nat -> HashState) (sizes : Sizes) (keys : List Bytes) :
    Nat -> Nat -> Nat -> List Extent × List ChdPhItem -> Option (Option Mapped)
  | 0, _, _, _ => some none
  | mappingIterations + 1, state, maxBucketSize, tables => do
      let mapItems := keys.map (sizes.mapItem (hashStates state))
      let counted <- mapItems.foldlM countsItem (chdPhBucketClean tables.1, maxBucketSize)
      let buckets <- setsOffsets 0 (sizes.nbuckets - 1) counted.1
      let inserted <- insertsItems mapItems (buckets, tables.2)
      if inserted.1 then some (some ⟨state, inserted.2.1, inserted.2.2, counted.2⟩)
      else chdPhMapping hashStates sizes keys mappingIterations (state + 1) counted.2 inserted.2

/-- The number of items of a bucket. -/
def bucketSize (mapItems : List ChdPhMapItem) (bucketNum : Nat) : Nat :=
  mapItems.countP (fun mapItem => decide (mapItem.bucketNum = bucketNum))

theorem length_itemsOf (mapItems : List ChdPhMapItem) (bucketNum : Nat) :
    (itemsOf mapItems bucketNum).length = bucketSize mapItems bucketNum := by
  unfold itemsOf bucketSize
  rw [List.length_map, List.countP_eq_length_filter]

theorem bucketSize_append_singleton (mapItems : List ChdPhMapItem) (mapItem : ChdPhMapItem)
    (bucketNum : Nat) : bucketSize (mapItems ++ [mapItem]) bucketNum =
      bucketSize mapItems bucketNum + if mapItem.bucketNum = bucketNum then 1 else 0 := by
  simp [bucketSize, List.countP_append, List.countP_singleton]

/-- Every item is in one of the buckets. -/
theorem startOf_bucketSize {mapItems : List ChdPhMapItem} {nbuckets : Nat}
    (inside : forall mapItem, mapItem ∈ mapItems -> mapItem.bucketNum < nbuckets) :
    startOf 0 (bucketSize mapItems) nbuckets = mapItems.length := by
  unfold startOf
  induction mapItems using List.reverseRecOn with
  | nil => simp [bucketSize]
  | append_singleton before last ih =>
      have own := inside last (List.mem_append_right _ List.mem_cons_self)
      have earlier := ih (fun mapItem member => inside mapItem (List.mem_append_left _ member))
      simp only [bucketSize_append_singleton, Finset.sum_add_distrib, earlier, Finset.sum_ite_eq,
        Finset.mem_Ico, Nat.zero_le, own, true_and, if_true, List.length_append,
        List.length_singleton]

theorem foldl_max_le_iff {A : Type} (measure : A -> Nat) (items : List A) (largest bound : Nat) :
    items.foldl (fun largest item => max largest (measure item)) largest ≤ bound <->
      largest ≤ bound ∧ forall item, item ∈ items -> measure item ≤ bound := by
  induction items generalizing largest with
  | nil => simp
  | cons first rest ih =>
      rw [List.foldl_cons, ih, max_le_iff, List.forall_mem_cons, and_assoc]

/-- The largest size after one more item. -/
theorem countsBuckets_append_singleton (mapItems : List ChdPhMapItem) (mapItem : ChdPhMapItem)
    (largest : Nat) : countsBuckets (mapItems ++ [mapItem]) largest =
      max (countsBuckets mapItems largest) (bucketSize mapItems mapItem.bucketNum + 1) := by
  apply eq_of_forall_ge_iff
  intro bound
  have longer := fun bucketNum => bucketSize_append_singleton mapItems mapItem bucketNum
  unfold bucketSize at longer
  rw [max_le_iff, countsBuckets, countsBuckets, foldl_max_le_iff, foldl_max_le_iff, and_assoc]
  refine and_congr_right (fun _ => ?_)
  simp only [longer, List.mem_append, List.mem_singleton, or_imp, forall_and, forall_eq, if_true,
    bucketSize]
  constructor
  · rintro ⟨each, own⟩
    exact ⟨fun other member => Nat.le_trans (Nat.le_add_right _ _) (each other member), own⟩
  · rintro ⟨each, own⟩
    refine ⟨fun other member => ?_, own⟩
    by_cases same : mapItem.bucketNum = other.bucketNum
    · rw [if_pos same, ← same]
      exact own
    · rw [if_neg same]
      exact each other member

/-- The sizes are counted while the starts are not touched. -/
theorem countsItems_eq_some {mapItems : List ChdPhMapItem} {buckets : List Extent}
    {maxBucketSize : Nat} (clean : forall bucketNum, bucketNum < buckets.length ->
      Exists fun bucket => buckets[bucketNum]? = some bucket ∧ bucket.size = 0)
    (inside : forall mapItem, mapItem ∈ mapItems -> mapItem.bucketNum < buckets.length) :
    Exists fun after => mapItems.foldlM countsItem (buckets, maxBucketSize) =
        some (after, countsBuckets mapItems maxBucketSize) ∧
      after.length = buckets.length ∧
      forall bucketNum, bucketNum < buckets.length ->
        Exists fun bucket => after[bucketNum]? = some bucket ∧
          bucket.size = bucketSize mapItems bucketNum := by
  induction mapItems using List.reverseRecOn with
  | nil => exact ⟨buckets, rfl, rfl, fun bucketNum less => clean bucketNum less⟩
  | append_singleton before last ih =>
      have own := inside last (List.mem_append_right _ List.mem_cons_self)
      rcases ih (fun mapItem member => inside mapItem (List.mem_append_left _ member)) with
        ⟨middle, counted, length, sizes⟩
      rcases sizes last.bucketNum own with ⟨bucket, entry, size⟩
      have slot : last.bucketNum < middle.length := by omega
      refine ⟨middle.set last.bucketNum ⟨bucket.start, bucket.size + 1⟩, ?_, ?_, ?_⟩
      · have larger : (if countsBuckets before maxBucketSize < bucket.size + 1 then bucket.size + 1
            else countsBuckets before maxBucketSize) =
              countsBuckets (before ++ [last]) maxBucketSize := by
          rw [countsBuckets_append_singleton, ← size]
          split_ifs with less
          · exact (Nat.max_eq_right (Nat.le_of_lt less)).symm
          · exact (Nat.max_eq_left (Nat.not_lt.mp less)).symm
        rw [List.foldlM_append, counted]
        simp only [List.foldlM_cons, List.foldlM_nil, countsItem, grow_eq_some entry,
          List.getElem?_set_self slot, Option.bind_eq_bind, Option.bind_some, larger]
        rfl
      · rw [List.length_set, length]
      · intro bucketNum less
        rw [bucketSize_append_singleton]
        by_cases same : last.bucketNum = bucketNum
        · subst same
          rw [List.getElem?_set_self slot, if_pos rfl]
          exact ⟨_, rfl, by rw [size]⟩
        · rw [List.getElem?_set_ne same, if_neg same]
          exact sizes bucketNum less

section

variable {last : Nat} {counts : Nat -> Nat} {buckets : List Extent} {items : List ChdPhItem}
    {content : Buckets}

/-- The loop finds an equal item of the bucket or passes all of them. -/
theorem insertScan_eq_some {start : Nat} {content : List ChdPhItem}
    (segment : Segment items start content) (mapItem : ChdPhMapItem) :
    runLoop (insertRound items ⟨start, content.length⟩ mapItem) (content.length + 1) 0 =
      some (decide (mapItem.item ∉ content)) := by
  have ends : Exists fun fresh =>
      runLoop (insertRound items ⟨start, content.length⟩ mapItem) (content.length + 1) 0 =
        some fresh ∧
        fresh = decide (mapItem.item ∉ content) :=
    runLoop_of_measure
      (fun i => i ≤ content.length ∧ forall k, (less : k < content.length) -> k < i ->
        content[k] ≠ mapItem.item)
      (fun i => content.length - i) (by
        rintro i ⟨within, before⟩
        by_cases less : i < content.length
        · have entry := segment i less
          by_cases same : content[i] = mapItem.item
          · refine Or.inl ⟨false, by simp [insertRound, less, entry, same], ?_⟩
            rw [eq_comm, decide_eq_false_iff_not, not_not, ← same]
            exact List.getElem_mem less
          · refine Or.inr ⟨i + 1, by simp [insertRound, less, entry, same], ⟨less, ?_⟩, by omega⟩
            intro k inside upTo
            rcases Nat.lt_succ_iff_lt_or_eq.mp upTo with earlier | rfl
            · exact before k inside earlier
            · exact same
        · refine Or.inl ⟨true, by simp [insertRound, less], ?_⟩
          rw [eq_comm, decide_eq_true_eq]
          intro member
          rcases List.mem_iff_getElem.mp member with ⟨k, inside, same⟩
          exact before k inside (by omega) same)
      ⟨Nat.zero_le _, fun k _ less => absurd less (Nat.not_lt_zero k)⟩ (by omega)
  rcases ends with ⟨fresh, run, rfl⟩
  exact run

/-- The tables hold the items of the buckets. -/
abbrev Holds (nbuckets : Nat) (counts : Nat -> Nat) (tables : List Extent × List ChdPhItem)
    (content : Buckets) : Prop :=
  PartlyFilled 0 (nbuckets - 1) counts tables.1 tables.2 content

variable {nbuckets : Nat} {tables : List Extent × List ChdPhItem}

theorem chdPhBucketInsert_of_mem (holds : Holds nbuckets counts tables content)
    {mapItem : ChdPhMapItem} (inside : mapItem.bucketNum < nbuckets)
    (member : mapItem.item ∈ content mapItem.bucketNum) :
    chdPhBucketInsert tables mapItem = some (false, tables) := by
  have entry := holds.extents mapItem.bucketNum (Nat.zero_le _) (by omega)
  have scan := insertScan_eq_some
    (holds.segments mapItem.bucketNum (Nat.zero_le _) (by omega)) mapItem
  simp [chdPhBucketInsert, entry, scan, member]

theorem chdPhBucketInsert_of_notMem (holds : Holds nbuckets counts tables content)
    {mapItem : ChdPhMapItem} (inside : mapItem.bucketNum < nbuckets)
    (space : (content mapItem.bucketNum).length < counts mapItem.bucketNum)
    (absent : mapItem.item ∉ content mapItem.bucketNum) :
    Exists fun after => chdPhBucketInsert tables mapItem = some (true, after) ∧
      after.1.length = tables.1.length ∧ after.2.length = tables.2.length ∧
      Holds nbuckets counts after
        (Function.update content mapItem.bucketNum
          (content mapItem.bucketNum ++ [mapItem.item])) := by
  have below : mapItem.bucketNum ≤ nbuckets - 1 := by omega
  have entry := holds.extents mapItem.bucketNum (Nat.zero_le _) below
  have scan := insertScan_eq_some (holds.segments mapItem.bucketNum (Nat.zero_le _) below) mapItem
  have place := holds.place_inside (Nat.zero_le _) below space
  have inserted := holds.insert (Nat.zero_le _) below space mapItem.item
  refine ⟨(tables.1.set mapItem.bucketNum _, tables.2.set _ mapItem.item), ?_, List.length_set,
    List.length_set,
    inserted⟩
  simp [chdPhBucketInsert, entry, scan, absent, writeAt_eq_some place, grow_eq_some entry]

/-- The second pass inserts as far as `insertsAll` does. -/
theorem insertsItems_refines {mapItems : List ChdPhMapItem} (before rest : List ChdPhMapItem)
    (split : before ++ rest = mapItems)
    (inside : forall mapItem, mapItem ∈ mapItems -> mapItem.bucketNum < nbuckets)
    (holds : Holds nbuckets (bucketSize mapItems) tables (itemsOf before)) :
    Exists fun after => insertsItems rest tables =
        some ((rest.foldlM Hash.chdPhBucketInsert (itemsOf before)).isSome, after) ∧
      after.1.length = tables.1.length ∧ after.2.length = tables.2.length ∧
      forall content, rest.foldlM Hash.chdPhBucketInsert (itemsOf before) = some content ->
        Holds nbuckets (bucketSize mapItems) after content := by
  induction rest generalizing before tables with
  | nil =>
      refine ⟨tables, rfl, rfl, rfl, ?_⟩
      rintro content ⟨⟩
      exact holds
  | cons mapItem rest ih =>
      have member : mapItem ∈ mapItems := by
        rw [← split]
        exact List.mem_append_right _ List.mem_cons_self
      have own := inside mapItem member
      rw [List.foldlM_cons]
      by_cases present : mapItem.item ∈ itemsOf before mapItem.bucketNum
      · have fails : Hash.chdPhBucketInsert (itemsOf before) mapItem = none := if_pos present
        refine ⟨tables, ?_, rfl, rfl, ?_⟩
        · rw [fails]
          simp [insertsItems, chdPhBucketInsert_of_mem holds own present]
        · rw [fails]
          rintro content ⟨⟩
      · have succeeds : Hash.chdPhBucketInsert (itemsOf before) mapItem =
            some (itemsOf (before ++ [mapItem])) := by
          rw [itemsOf_append_singleton]
          exact if_neg present
        have space : (itemsOf before mapItem.bucketNum).length <
            bucketSize mapItems mapItem.bucketNum := by
          rw [length_itemsOf, ← split]
          simp [bucketSize, List.countP_append]
        rcases chdPhBucketInsert_of_notMem holds own space present
          with ⟨next, inserts, buckets, items, held⟩
        rw [← itemsOf_append_singleton] at held
        rcases ih (before ++ [mapItem]) (by rw [List.append_assoc]; exact split) held with
          ⟨after, run, afterBuckets, afterItems, result⟩
        refine ⟨after, ?_, afterBuckets.trans buckets, afterItems.trans items, ?_⟩
        · rw [succeeds]
          simp only [insertsItems, inserts, Option.bind_eq_bind, Option.bind_some, if_true, run]
        · rw [succeeds]
          exact result

end

/-! ## The rounds -/

/-- The tables of a mapping. -/
structure Mapped.Refines (sizes : Sizes) (nitems : Nat) (tables : Mapped) (mapped : Hash.Mapped) :
    Prop where
  state : tables.state = mapped.state
  maxBucketSize : tables.maxBucketSize = mapped.maxBucketSize
  buckets : tables.buckets.length = sizes.nbuckets
  items : tables.items.length = nitems
  holds : Holds sizes.nbuckets (fun bucketNum => (mapped.buckets bucketNum).length) (tables.buckets,
    tables.items)
    mapped.buckets

/-- One round, whatever is in the tables. -/
theorem mappingRound_eq_some {sizes : Sizes} {mapItems : List ChdPhMapItem}
    (inside : forall mapItem, mapItem ∈ mapItems -> mapItem.bucketNum < sizes.nbuckets)
    {tables : List Extent × List ChdPhItem} (nbuckets : tables.1.length = sizes.nbuckets)
    (nitems : tables.2.length = mapItems.length) (maxBucketSize : Nat) :
    Exists fun counted => Exists fun buckets => Exists fun after =>
      mapItems.foldlM countsItem (chdPhBucketClean tables.1, maxBucketSize) =
        some (counted, countsBuckets mapItems maxBucketSize) ∧
      setsOffsets 0 (sizes.nbuckets - 1) counted = some buckets ∧
      insertsItems mapItems (buckets, tables.2) = some ((insertsAll mapItems).isSome, after) ∧
      after.1.length = sizes.nbuckets ∧ after.2.length = mapItems.length ∧
      forall content, insertsAll mapItems = some content ->
        Holds sizes.nbuckets (bucketSize mapItems) after content := by
  have positive := sizes.nbuckets_pos
  have cleanLength : (chdPhBucketClean tables.1).length = sizes.nbuckets := by
    rw [chdPhBucketClean, List.length_map, nbuckets]
  rcases @countsItems_eq_some mapItems (chdPhBucketClean tables.1) maxBucketSize (by
      intro bucketNum less
      have entry := List.getElem?_eq_getElem less
      simp only [chdPhBucketClean, List.getElem_map] at entry
      exact ⟨_, entry, rfl⟩) (by rwa [cleanLength])
        with ⟨counted, counts, countedLength, counted_sizes⟩
  rw [cleanLength] at countedLength counted_sizes
  rcases @setsOffsets_eq_some 0 (sizes.nbuckets - 1) (bucketSize mapItems) counted (Nat.zero_le _)
      (fun bucketNum _ below => counted_sizes bucketNum (by omega))
        with ⟨buckets, offsets, bucketsLength, starts⟩
  have top : sizes.nbuckets - 1 + 1 = sizes.nbuckets := Nat.sub_add_cancel positive
  have empty : Holds sizes.nbuckets (bucketSize mapItems) (buckets, tables.2) (itemsOf []) :=
    PartlyFilled.empty starts (by rw [top, startOf_bucketSize inside, nitems])
  rcases insertsItems_refines [] mapItems (List.nil_append _) inside empty with
    ⟨after, inserted, afterBuckets, afterItems, holds⟩
  refine ⟨counted, buckets, after, counts, offsets, inserted, ?_, afterItems.trans nitems, holds⟩
  rw [afterBuckets, bucketsLength, countedLength]

/-- The mapping on the tables. -/
theorem chdPhMapping_refines (hashStates : Nat -> HashState) (sizes : Sizes) (keys : List Bytes)
    (mappingIterations state maxBucketSize : Nat) {tables : List Extent × List ChdPhItem}
    (nbuckets : tables.1.length = sizes.nbuckets) (nitems : tables.2.length = keys.length) :
    Exists fun result =>
      chdPhMapping hashStates sizes keys mappingIterations state maxBucketSize tables =
        some result ∧
      Option.Rel (Mapped.Refines sizes keys.length) result
        (Hash.chdPhMapping hashStates sizes keys mappingIterations state maxBucketSize) := by
  induction mappingIterations generalizing state maxBucketSize tables with
  | zero => exact ⟨none, rfl, Option.Rel.none⟩
  | succ mappingIterations ih =>
      have inside : forall mapItem, mapItem ∈ keys.map (sizes.mapItem (hashStates state)) ->
          mapItem.bucketNum < sizes.nbuckets := by
        intro mapItem member
        rcases List.mem_map.mp member with ⟨key, -, rfl⟩
        exact Sizes.mapItem_bucketNum_lt _ _ _
      rcases mappingRound_eq_some inside nbuckets
        (by rw [nitems, List.length_map]) maxBucketSize with
        ⟨counted, buckets, after, counts, offsets, inserted, afterBuckets, afterItems, holds⟩
      rw [List.length_map] at afterItems
      rw [Hash.chdPhMapping, chdPhMapping]
      simp only [counts, offsets, inserted, Option.bind_eq_bind, Option.bind_some]
      cases inserts : insertsAll (keys.map (sizes.mapItem (hashStates state))) with
      | none => exact ih (state + 1) _ afterBuckets afterItems
      | some content =>
          refine ⟨_, rfl, Option.Rel.some ⟨rfl, rfl, afterBuckets, afterItems, ?_⟩⟩
          have held := holds content inserts
          rcases insertsAll_eq_some inserts with ⟨same, -⟩
          subst same
          simpa only [length_itemsOf] using held

end Tables

end Hash
end Johnny
