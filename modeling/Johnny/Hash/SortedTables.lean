import Johnny.Hash.BucketTables
import Johnny.Hash.Construction

namespace Johnny
namespace Hash

open Library

/-!
# The tables of the ordering

`chd_ph_ordering` sorts the buckets by their sizes into a new table, and moves
their items to a new table in the order of the sorted buckets.  Empty buckets
are left out.  A bucket of the new table has its number where its size was.
-/

namespace Tables

/-- The first loop: the sizes of `sorted_lists`. -/
def countsBucket (inputBuckets : List Extent) (i : Nat) (sortedLists : List Extent) :
    Option (List Extent) := do
  let bucket <- inputBuckets[i]?
  if bucket.size = 0 then some sortedLists else grow sortedLists bucket.size

/-- The third loop: `sorted_lists` and `output_buckets`. -/
def sortsBucket (inputBuckets : List Extent) (i : Nat) (state : List Extent × List Extent) :
    Option (List Extent × List Extent) := do
  let bucket <- inputBuckets[i]?
  if bucket.size = 0 then some state
  else
    let list <- state.1[bucket.size]?
    let outputBuckets <- writeAt state.2 (list.start + list.size) ⟨bucket.start, i⟩
    let sortedLists <- grow state.1 bucket.size
    some (sortedLists, outputBuckets)

def copiesItem (inputItems : List ChdPhItem) (position2 position j : Nat)
    (outputItems : List ChdPhItem) : Option (List ChdPhItem) := do
  let item <- inputItems[position2 + j]?
  writeAt outputItems (position + j) item

/-- The state of the last loops is `output_buckets`, `output_items` and
`position`. -/
def movesBucket (inputItems : List ChdPhItem) (bucketSize start i : Nat)
    (state : List Extent × List ChdPhItem × Nat) : Option (List Extent × List ChdPhItem × Nat) := do
  let bucket <- state.1[start + i]?
  let outputBuckets <- writeAt state.1 (start + i) { bucket with start := state.2.2 }
  let outputItems <- forLoop (copiesItem inputItems bucket.start state.2.2) bucketSize state.2.1
  some (outputBuckets, outputItems, state.2.2 + bucketSize)

/-- The loop over `bucket_size`, which begins with one. -/
def movesList (sortedLists : List Extent) (inputItems : List ChdPhItem) (k : Nat)
    (state : List Extent × List ChdPhItem × Nat) : Option (List Extent × List ChdPhItem × Nat) := do
  let list <- sortedLists[k + 1]?
  forLoop (movesBucket inputItems (k + 1) list.start) list.size state

structure Ordered where
  sortedLists : List Extent
  buckets : List Extent
  items : List ChdPhItem

def chdPhOrdering (buckets : List Extent) (items : List ChdPhItem)
    (nbuckets nitems maxBucketSize : Nat) : Option Ordered := do
  let counted <- forLoop (countsBucket buckets) nbuckets (List.replicate (maxBucketSize + 1) ⟨0, 0⟩)
  let sortedLists <- setsOffsets 1 maxBucketSize counted
  let sorted <- forLoop (sortsBucket buckets) nbuckets (sortedLists, List.replicate nbuckets ⟨0, 0⟩)
  let moved <- forLoop (movesList sorted.1 items) maxBucketSize (sorted.2,
    List.replicate nitems ⟨0, 0⟩, 0)
  some ⟨sorted.1, moved.1, moved.2.1⟩

section

variable {sizes : Sizes} {content : Buckets} {maxBucketSize : Nat}
  {tables : List Extent × List ChdPhItem}

/-- The buckets of a size among the first ones. -/
def idsOfSize (content : Buckets) (i size : Nat) : List Nat :=
  (List.range i).filter (fun bucketId => decide ((content bucketId).length = size))

theorem idsOfSize_succ (content : Buckets) (i size : Nat) :
    idsOfSize content (i + 1) size =
      idsOfSize content i size ++ if (content i).length = size then [i] else [] := by
  unfold idsOfSize
  rw [List.range_succ, List.filter_append, List.filter_singleton]
  congr 1
  by_cases same : (content i).length = size
  · rw [decide_eq_true same, if_pos same]
    rfl
  · rw [decide_eq_false same, if_neg same]
    rfl

/-- Every bucket has one size. -/
theorem startOf_idsOfSize_le (content : Buckets) (i first last : Nat) :
    startOf first (fun size => (idsOfSize content i size).length) last ≤ i := by
  unfold startOf
  induction i with
  | zero => simp [idsOfSize]
  | succ i ih =>
      have one : (Finset.Ico first last).sum
          (fun size => (if (content i).length = size then [i] else []).length) ≤ 1 := by
        simp only [apply_ite List.length, List.length_singleton, List.length_nil, Finset.sum_ite_eq]
        split_ifs <;> decide
      simp only [idsOfSize_succ, List.length_append, Finset.sum_add_distrib]
      exact Nat.add_le_add ih one

theorem countsBuckets_eq_some
    (holds : Holds sizes.nbuckets (fun bucketNum => (content bucketNum).length) tables content)
    (bounded : forall bucketNum, (content bucketNum).length ≤ maxBucketSize) :
    Exists fun counted =>
      forLoop (countsBucket tables.1) sizes.nbuckets (List.replicate (maxBucketSize + 1) ⟨0, 0⟩) =
        some counted ∧
      counted.length = maxBucketSize + 1 ∧
      forall size, 1 ≤ size -> size ≤ maxBucketSize -> Exists fun extent =>
        counted[size]? = some extent ∧ extent.size =
          (idsOfSize content sizes.nbuckets size).length := by
  refine forLoop_of_step (countsBucket tables.1) sizes.nbuckets _ (fun i counted =>
    counted.length = maxBucketSize + 1 ∧ forall size, 1 ≤ size -> size ≤ maxBucketSize ->
      Exists fun extent =>
      counted[size]? = some extent ∧ extent.size = (idsOfSize content i size).length) ?_ ?_
  · rintro i counted inside ⟨length, counts⟩
    have entry := holds.extents i (Nat.zero_le i) (by omega)
    have bound := bounded i
    by_cases empty : (content i).length = 0
    · refine ⟨counted, by simp [countsBucket, entry, empty], length, fun size above below => ?_⟩
      rw [idsOfSize_succ, if_neg (by omega), List.append_nil]
      exact counts size above below
    · rcases counts _ (Nat.pos_of_ne_zero empty) bound with ⟨extent, own, size⟩
      refine ⟨counted.set (content i).length ⟨extent.start, extent.size + 1⟩, ?_,
        by rw [List.length_set, length],
        fun other above below => ?_⟩
      · simp [countsBucket, entry, empty, grow_eq_some own]
      · rw [idsOfSize_succ]
        by_cases same : (content i).length = other
        · subst same
          rw [List.getElem?_set_self (by omega), if_pos rfl, List.length_append,
            List.length_singleton]
          exact ⟨_, rfl, by rw [size]⟩
        · rw [List.getElem?_set_ne same, if_neg same, List.append_nil]
          exact counts other above below
  · refine ⟨List.length_replicate, fun size above below => ⟨⟨0, 0⟩, ?_, rfl⟩⟩
    exact List.getElem?_replicate_of_lt (by omega)

/-- A bucket of the new table. -/
def cellOf (content : Buckets) (bucketId : Nat) : Extent :=
  ⟨startOf 0 (fun bucketNum => (content bucketNum).length) bucketId, bucketId⟩

theorem sortsBucket_eq_some
    (holds : Holds sizes.nbuckets (fun bucketNum => (content bucketNum).length) tables content)
    (bounded : forall bucketNum, (content bucketNum).length ≤ maxBucketSize) {i : Nat}
    (inside : i < sizes.nbuckets) {state : List Extent × List Extent}
    (sorted : PartlyFilled 1 maxBucketSize (fun size =>
      (idsOfSize content sizes.nbuckets size).length) state.1 state.2
      (fun size => (idsOfSize content i size).map (cellOf content))) :
    Exists fun next => sortsBucket tables.1 i state = some next ∧ next.2.length = state.2.length ∧
      PartlyFilled 1 maxBucketSize (fun size =>
        (idsOfSize content sizes.nbuckets size).length) next.1 next.2
        (fun size => (idsOfSize content (i + 1) size).map (cellOf content)) := by
  have entry := holds.extents i (Nat.zero_le i) (by omega)
  by_cases empty : (content i).length = 0
  · refine ⟨state, by simp [sortsBucket, entry, empty], rfl, sorted.congr (fun size above _ => ?_)⟩
    rw [idsOfSize_succ, if_neg (by omega), List.append_nil]
  · have above := Nat.pos_of_ne_zero empty
    have below := bounded i
    have list := sorted.extents _ above below
    have space : ((idsOfSize content i (content i).length).map (cellOf content)).length <
        (idsOfSize content sizes.nbuckets (content i).length).length := by
      have more : List.Sublist (idsOfSize content (i + 1) (content i).length)
          (idsOfSize content sizes.nbuckets (content i).length) :=
        (List.range_sublist.mpr inside).filter _
      have length := more.length_le
      rw [idsOfSize_succ, if_pos rfl, List.length_append, List.length_singleton] at length
      rw [List.length_map]
      exact length
    have place := sorted.place_inside above below space
    refine ⟨(_, _), ?_, ?_, (sorted.insert above below space (cellOf content i)).congr
      (fun size _ _ => ?_)⟩
    · simp only [sortsBucket, entry, empty, if_false, list, grow_eq_some list,
        writeAt_eq_some place, Option.bind_eq_bind, Option.bind_some]
      rfl
    · exact List.length_set
    · rw [idsOfSize_succ]
      by_cases same : size = (content i).length
      · subst same
        rw [Function.update_self, if_pos rfl, List.map_append, List.map_singleton]
      · rw [Function.update_of_ne same, if_neg (Ne.symm same), List.append_nil]

theorem chdPhOrdering_eq_map (sizes : Sizes) (content : Buckets) (size : Nat) :
    Hash.chdPhOrdering sizes content size =
      (idsOfSize content sizes.nbuckets size).map (fun bucketId => ⟨bucketId, content bucketId⟩) :=
  rfl

theorem map_cellOf_chdPhOrdering (sizes : Sizes) (content : Buckets) (size : Nat) :
    (Hash.chdPhOrdering sizes content size).map (fun bucket => cellOf content bucket.bucketId) =
      (idsOfSize content sizes.nbuckets size).map (cellOf content) := by
  rw [chdPhOrdering_eq_map, List.map_map]
  rfl

/-- The buckets are sorted before their items are moved. -/
theorem sortsBuckets_eq_some
    (holds : Holds sizes.nbuckets (fun bucketNum => (content bucketNum).length) tables content)
    (bounded : forall bucketNum, (content bucketNum).length ≤ maxBucketSize)
    (positive : 1 ≤ maxBucketSize) :
    Exists fun counted => Exists fun sortedLists => Exists fun sorted =>
      forLoop (countsBucket tables.1) sizes.nbuckets (List.replicate (maxBucketSize + 1) ⟨0, 0⟩) =
        some counted ∧
      setsOffsets 1 maxBucketSize counted = some sortedLists ∧
      forLoop (sortsBucket tables.1) sizes.nbuckets (sortedLists,
        List.replicate sizes.nbuckets ⟨0, 0⟩) = some sorted ∧
      sorted.2.length = sizes.nbuckets ∧
      (forall size, 1 ≤ size -> size ≤ maxBucketSize -> sorted.1[size]? =
        some ⟨startOf 1 (fun size => (Hash.chdPhOrdering sizes content size).length) size,
          (Hash.chdPhOrdering sizes content size).length⟩) ∧
      Segment sorted.2 0
        ((sortedBuckets sizes content maxBucketSize).map (fun bucket =>
          cellOf content bucket.bucketId)) := by
  rcases countsBuckets_eq_some holds bounded with ⟨counted, counts, -, countedSizes⟩
  rcases setsOffsets_eq_some positive countedSizes with ⟨sortedLists, offsets, -, starts⟩
  have room : startOf 1 (fun size => (idsOfSize content sizes.nbuckets size).length)
    (maxBucketSize + 1) ≤
      (List.replicate sizes.nbuckets (⟨0, 0⟩ : Extent)).length := by
    rw [List.length_replicate]
    exact startOf_idsOfSize_le content sizes.nbuckets 1 (maxBucketSize + 1)
  have start := PartlyFilled.empty starts room
  rcases forLoop_of_step (sortsBucket tables.1) sizes.nbuckets
      (sortedLists, List.replicate sizes.nbuckets ⟨0, 0⟩) (fun i state =>
        state.2.length = sizes.nbuckets ∧
      PartlyFilled 1 maxBucketSize (fun size =>
        (idsOfSize content sizes.nbuckets size).length) state.1 state.2
        (fun size => (idsOfSize content i size).map (cellOf content))) (by
      rintro i state inside ⟨length, sorted⟩
      rcases sortsBucket_eq_some holds bounded inside sorted with ⟨next, run, same, kept⟩
      exact ⟨next, run, same.trans length, kept⟩) ⟨List.length_replicate, start⟩
        with ⟨sorted, run, length, filling⟩
  have lengths : forall size,
      ((idsOfSize content sizes.nbuckets size).map (cellOf content)).length =
      (idsOfSize content sizes.nbuckets size).length := fun _ => List.length_map _
  refine ⟨counted, sortedLists, sorted, counts, offsets, run, length, fun size above below => ?_,
    ?_⟩
  · have extent := filling.extents size above below
    rw [List.length_map] at extent
    simpa only [chdPhOrdering_eq_map, List.length_map] using extent
  · have whole := filling.whole lengths (Nat.le_refl (maxBucketSize + 1))
    rw [sortedBuckets, List.map_flatMap]
    simpa only [map_cellOf_chdPhOrdering] using whole

/-- The items of some buckets, one bucket after the other. -/
abbrev itemsIn (buckets : List ChdPhBucket) : List ChdPhItem :=
  buckets.flatMap ChdPhBucket.items

theorem itemsIn_take_succ {buckets : List ChdPhBucket} {p : Nat} (inside : p < buckets.length) :
    itemsIn (buckets.take (p + 1)) = itemsIn (buckets.take p) ++ buckets[p].items := by
  rw [itemsIn, List.take_succ_eq_append_getElem inside, List.flatMap_append, List.flatMap_singleton]

theorem length_itemsIn_take_le (buckets : List ChdPhBucket) (p : Nat) :
    (itemsIn (buckets.take p)).length ≤ (itemsIn buckets).length := by
  have split : itemsIn buckets = itemsIn (buckets.take p) ++ itemsIn (buckets.drop p) := by
    rw [itemsIn, itemsIn, itemsIn, ← List.flatMap_append, List.take_append_drop]
  rw [split, List.length_append]
  exact Nat.le_add_right _ _

/-- The sorted buckets have no more items than all buckets. -/
theorem length_itemsIn_sortedBuckets_le (sizes : Sizes) (content : Buckets) (maxBucketSize : Nat) :
    (itemsIn (sortedBuckets sizes content maxBucketSize)).length ≤
      startOf 0 (fun bucketNum => (content bucketNum).length) sizes.nbuckets := by
  have distinct := sortedBuckets_nodup sizes content maxBucketSize
  have lengths : (sortedBuckets sizes content maxBucketSize).map (fun bucket =>
      bucket.items.length) =
      ((sortedBuckets sizes content maxBucketSize).map ChdPhBucket.bucketId).map
        (fun bucketNum => (content bucketNum).length) := by
    rw [List.map_map]
    apply List.map_congr_left
    intro bucket member
    rw [(mem_sortedBuckets.mp member).2.1]
    rfl
  rw [itemsIn, List.length_flatMap, lengths, ← List.sum_toFinset _ distinct]
  apply Finset.sum_le_sum_of_subset
  intro bucketId member
  rcases List.mem_map.mp (List.mem_toFinset.mp member) with ⟨bucket, inSorted, rfl⟩
  exact Finset.mem_Ico.mpr ⟨Nat.zero_le _, (mem_sortedBuckets.mp inSorted).1⟩

theorem copiesItems_eq_some {inputItems outputItems before items : List ChdPhItem} {position2 : Nat}
    (input : Segment inputItems position2 items) (output : Segment outputItems 0 before)
    (room : before.length + items.length ≤ outputItems.length) :
    Exists fun after =>
      forLoop (copiesItem inputItems position2 before.length) items.length outputItems =
        some after ∧
      after.length = outputItems.length ∧ Segment after 0 (before ++ items) := by
  rcases forLoop_of_step (copiesItem inputItems position2 before.length) items.length outputItems
      (fun j after => after.length = outputItems.length ∧ Segment after 0 (before ++ items.take j))
        (by
    rintro j after inside ⟨length, copied⟩
    have upTo : (before ++ items.take j).length = before.length + j := by
      rw [List.length_append, List.length_take, Nat.min_eq_left (Nat.le_of_lt inside)]
    have more := copied.concat (by rw [upTo]; omega) items[j]
    rw [upTo, Nat.zero_add, List.append_assoc, ← List.take_succ_eq_append_getElem inside] at more
    refine ⟨_, ?_, ?_, more⟩
    · have place : before.length + j < after.length := by omega
      simp only [copiesItem, input j inside, writeAt_eq_some place, Option.bind_eq_bind,
        Option.bind_some]
    · rw [List.length_set, length]) ⟨rfl, by rwa [List.take_zero, List.append_nil]⟩ with
    ⟨after, run, length, copied⟩
  rw [List.take_length] at copied
  exact ⟨after, run, length, copied⟩

/-- The items of the first buckets are moved. -/
structure Moved (sorted : List ChdPhBucket) (content : Buckets) (nbuckets nitems p : Nat)
    (state : List Extent × List ChdPhItem × Nat) : Prop where
  buckets : state.1.length = nbuckets
  items : state.2.1.length = nitems
  position : state.2.2 = (itemsIn (sorted.take p)).length
  moved : Segment state.2.1 0 (itemsIn (sorted.take p))
  done : forall q, q < p -> (inside : q < sorted.length) ->
    state.1[q]? = some ⟨(itemsIn (sorted.take q)).length, sorted[q].bucketId⟩
  rest : forall q, p ≤ q -> (inside : q < sorted.length) ->
    state.1[q]? = some (cellOf content sorted[q].bucketId)

theorem Moved.next {sorted : List ChdPhBucket} {nbuckets nitems start i bucketSize : Nat}
    {inputItems : List ChdPhItem} {state : List Extent × List ChdPhItem × Nat}
    (moved : Moved sorted content nbuckets nitems (start + i) state)
    (inside : start + i < sorted.length) (size : sorted[start + i].items.length = bucketSize)
    (input : Segment inputItems
      (cellOf content sorted[start + i].bucketId).start sorted[start + i].items)
      (room : (itemsIn sorted).length ≤ nitems) :
    Exists fun next => movesBucket inputItems bucketSize start i state = some next ∧
      Moved sorted content nbuckets nitems (start + i + 1) next := by
  have entry := moved.rest (start + i) (Nat.le_refl _) inside
  have place := (List.getElem?_eq_some_iff.mp entry).1
  have most := length_itemsIn_take_le sorted (start + i + 1)
  rw [itemsIn_take_succ inside, List.length_append] at most
  have length := moved.items
  rcases copiesItems_eq_some input moved.moved (by omega) with ⟨outputItems, copied, same, segment⟩
  rw [size, ← moved.position] at copied
  refine ⟨(state.1.set (start + i) ⟨state.2.2, sorted[start + i].bucketId⟩, outputItems,
    state.2.2 + bucketSize),
    ?_, ?_, same.trans length, ?_, ?_, ?_, ?_⟩
  · simp only [movesBucket, entry, writeAt_eq_some place, copied, Option.bind_eq_bind,
      Option.bind_some]
    rfl
  · rw [List.length_set, moved.buckets]
  · rw [itemsIn_take_succ inside, List.length_append, ← moved.position, size]
  · rw [itemsIn_take_succ inside]
    exact segment
  · intro q less within
    rcases Nat.lt_succ_iff_lt_or_eq.mp less with earlier | rfl
    · rw [List.getElem?_set_ne (by omega)]
      exact moved.done q earlier within
    · rw [List.getElem?_set_self place, moved.position]
  · intro q less within
    rw [List.getElem?_set_ne (by omega)]
    exact moved.rest q (by omega) within

/-! ## The ordering -/

/-- The sorted tables: the buckets are those of the order of the search, the
items follow one another in the same order, and every list is known by its
start and size. -/
structure Ordered.Sorts (sizes : Sizes) (content : Buckets) (maxBucketSize nitems : Nat)
    (ordered : Ordered) : Prop where
  buckets : ordered.buckets.length = sizes.nbuckets
  items : ordered.items.length = nitems
  lists : forall size, 1 ≤ size -> size ≤ maxBucketSize -> ordered.sortedLists[size]? =
    some ⟨startOf 1 (fun size => (Hash.chdPhOrdering sizes content size).length) size,
      (Hash.chdPhOrdering sizes content size).length⟩
  cells : forall p, (inside : p < (sortedBuckets sizes content maxBucketSize).length) ->
    ordered.buckets[p]? =
    some ⟨(itemsIn ((sortedBuckets sizes content maxBucketSize).take p)).length,
      (sortedBuckets sizes content maxBucketSize)[p].bucketId⟩
  moved : Segment ordered.items 0 (itemsIn (sortedBuckets sizes content maxBucketSize))

/-- The ordering of the tables, whatever the buckets are. -/
theorem chdPhOrdering_sorts
    (holds : Holds sizes.nbuckets (fun bucketNum => (content bucketNum).length) tables content)
    (bounded : forall bucketNum, (content bucketNum).length ≤ maxBucketSize)
    (positive : 1 ≤ maxBucketSize) : Exists fun ordered =>
      chdPhOrdering tables.1 tables.2 sizes.nbuckets tables.2.length maxBucketSize = some ordered ∧
      ordered.Sorts sizes content maxBucketSize tables.2.length := by
  rcases sortsBuckets_eq_some holds bounded positive with
    ⟨counted, sortedLists, sorted, counts, offsets, sorts, length, lists, cells⟩
  have top : sizes.nbuckets - 1 + 1 = sizes.nbuckets := Nat.sub_add_cancel sizes.nbuckets_pos
  have room : (itemsIn (sortedBuckets sizes content maxBucketSize)).length ≤ tables.2.length := by
    have all := holds.room
    rw [top] at all
    exact Nat.le_trans (length_itemsIn_sortedBuckets_le sizes content maxBucketSize) all
  have start : Moved (sortedBuckets sizes content maxBucketSize) content sizes.nbuckets
      tables.2.length (startOf 1 (fun size => (Hash.chdPhOrdering sizes content size).length) (0 + 1))
      (sorted.2, List.replicate tables.2.length ⟨0, 0⟩, 0) := by
    rw [Nat.zero_add, startOf_first]
    refine ⟨length, List.length_replicate, rfl, Segment.nil _ _, fun q less _ =>
      absurd less (Nat.not_lt_zero q), ?_⟩
    intro q _ within
    have cell := cells q (by rwa [List.length_map])
    rwa [Nat.zero_add, List.getElem_map] at cell
  rcases forLoop_of_step (movesList sorted.1 tables.2) maxBucketSize _
      (fun k => Moved (sortedBuckets sizes content maxBucketSize) content sizes.nbuckets
        tables.2.length (startOf 1 (fun size => (Hash.chdPhOrdering sizes content size).length) (k + 1))) (by
      intro k state less moved
      have list := lists (k + 1) (Nat.le_add_left 1 k) less
      have part : Segment (sortedBuckets sizes content maxBucketSize)
          (startOf 1 (fun size => (Hash.chdPhOrdering sizes content size).length) (k + 1))
          (Hash.chdPhOrdering sizes content (k + 1)) :=
        segment_flatMap_range (fun _ => rfl) less
      generalize begin' : startOf 1 (fun size => (Hash.chdPhOrdering sizes content size).length)
        (k + 1) = start
        at list part moved
      have next : startOf 1 (fun size => (Hash.chdPhOrdering sizes content size).length)
          (k + 1 + 1) =
          start + (Hash.chdPhOrdering sizes content (k + 1)).length := by
        rw [startOf_succ (Nat.le_add_left 1 k), begin']
      rw [next]
      simp only [movesList, list, Option.bind_eq_bind, Option.bind_some]
      refine forLoop_of_step (movesBucket tables.2 (k + 1) start) _ state
        (fun i => Moved (sortedBuckets sizes content maxBucketSize) content sizes.nbuckets
          tables.2.length (start + i))
        ?_ moved
      intro i state inList moved
      rcases List.getElem?_eq_some_iff.mp (part i inList) with ⟨inside, same⟩
      rcases mem_chdPhOrdering.mp (List.getElem_mem inList) with ⟨inRange, own, size⟩
      have segment := holds.segments _ (Nat.zero_le _)
        (by omega : (Hash.chdPhOrdering sizes content (k + 1))[i].bucketId ≤ sizes.nbuckets - 1)
      rw [← own] at segment
      exact moved.next inside (by rw [same, size]) (by rw [same]; exact segment) room) start with
    ⟨moved, run, last⟩
  have all : (sortedBuckets sizes content maxBucketSize).length =
      startOf 1 (fun size => (Hash.chdPhOrdering sizes content size).length) (maxBucketSize + 1) :=
    length_flatMap_range (fun _ => rfl) maxBucketSize
  rw [← all] at last
  refine ⟨⟨sorted.1, moved.1, moved.2.1⟩, ?_, last.buckets, last.items, lists, fun p inside =>
    last.done p inside inside,
    ?_⟩
  · simp only [chdPhOrdering, counts, offsets, sorts, run, Option.bind_eq_bind, Option.bind_some]
  · have segment := last.moved
    rwa [List.take_length] at segment

end

end Tables

end Hash
end Johnny
