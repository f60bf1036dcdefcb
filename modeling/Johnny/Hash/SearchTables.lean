import Johnny.Hash.BitFields
import Johnny.Hash.SortedTables

namespace Johnny
namespace Hash

open Library

/-!
# The tables of the search

`place_buckets2` works on the sorted tables, a bit table of the occupied bins
and the table of displacements.  A bucket that is not placed moves to the front
of its list, so that the buckets left are together for the next probe.  With
`keys_per_bin` at its default, bins hold one key.

A displacement is the number of its probe, which a word can hold.
-/

namespace Tables

/-- One round of the placement; the state is `i` and `occup_table`. -/
def placeRound (n probe0Num probe1Num size : Nat) (items : List ChdPhItem) (itemsList : Nat)
    (state : Nat × BitsTable) : Option (Pass (Nat × BitsTable) (Nat × BitsTable)) :=
  if state.1 < size then do
    let item <- items[itemsList + state.1]?
    let bit <- getBit32 state.2 (position n probe0Num probe1Num item)
    if bit ≠ 0#32 then some (.leave state)
    else
      let occupTable <- setBit32 state.2 (position n probe0Num probe1Num item)
      some (.again (state.1 + 1, occupTable))
  else some (.leave state)

/-- One round of the loop that undoes the placement. -/
def undoItem (n probe0Num probe1Num : Nat) (items : List ChdPhItem) (itemsList i : Nat)
    (occupTable : BitsTable) : Option BitsTable := do
  let item <- items[itemsList + i]?
  unsetBit32 occupTable (position n probe0Num probe1Num item)

def placeBucketProbe (n : Nat) (buckets : List Extent) (items : List ChdPhItem)
    (probe0Num probe1Num bucketNum size : Nat) (occupTable : BitsTable) :
      Option (Bool × BitsTable) := do
  let bucket <- buckets[bucketNum]?
  let placed <- runLoop (placeRound n probe0Num probe1Num size items bucket.start) (size + 1) (0,
    occupTable)
  if placed.1 ≠ size then
    let occupTable <- forLoop (undoItem n probe0Num probe1Num items bucket.start) placed.1 placed.2
    some (false, occupTable)
  else some (true, placed.2)

/-- The tables that a search writes. -/
structure Search where
  buckets : List Extent
  occupTable : BitsTable
  dispTable : List Nat

/-- One round of the inner loop; the state has `non_placed_bucket` besides the
tables. -/
def placesBucket (n : Nat) (items : List ChdPhItem) (bucketsList size probe0Num probe1Num j : Nat)
    (state : Search × Nat) : Option (Search × Nat) := do
  let probe <- placeBucketProbe n state.1.buckets items probe0Num probe1Num
    (bucketsList + j) size state.1.occupTable
  let bucket <- state.1.buckets[bucketsList + j]?
  if probe.1 then
    let dispTable <- writeAt state.1.dispTable bucket.size (probe0Num + probe1Num * n)
    some (⟨state.1.buckets, probe.2, dispTable⟩, state.2)
  else
    let buckets <- writeAt state.1.buckets (bucketsList + state.2) bucket
    some (⟨buckets, probe.2, state.1.dispTable⟩, state.2 + 1)

/-- The variables of the loop over the probes; `size` is `sorted_lists[i].size`,
which is set back at the end. -/
structure Probing where
  search : Search
  size : Nat
  probeNum : Nat
  probe0Num : Nat
  probe1Num : Nat

def probeRound (n maxProbes : Nat) (items : List ChdPhItem) (bucketsList bucketSize : Nat)
    (probing : Probing) : Option (Pass Probing (Bool × Search)) :=
  if probing.size = 0 then some (.leave (true, probing.search))
  else do
    let round <- forLoop
      (placesBucket n items bucketsList bucketSize probing.probe0Num probing.probe1Num)
      probing.size (probing.search, 0)
    let probe0Num :=
      if n ≤ probing.probe0Num + 1 then probing.probe0Num + 1 - n else probing.probe0Num + 1
    let probe1Num :=
      if n ≤ probing.probe0Num + 1 then probing.probe1Num + 1 else probing.probe1Num
    if maxProbes ≤ probing.probeNum + 1 ∨ n ≤ probe1Num then some (.leave (false, round.1))
    else some (.again ⟨round.1, round.2, probing.probeNum + 1, probe0Num, probe1Num⟩)

def placeBuckets2 (n maxProbes : Nat) (items : List ChdPhItem) (sortedLists : List Extent) :
    Nat -> Search -> Option (Bool × Search)
  | 0, search => some (true, search)
  | i + 1, search => do
      let list <- sortedLists[i + 1]?
      let placed <- runLoop (probeRound n maxProbes items list.start (i + 1)) (maxProbes + 1)
        ⟨search, list.size, 0, 0, 0⟩
      if placed.1 then placeBuckets2 n maxProbes items sortedLists i placed.2 else some placed

section

variable {n probe0Num probe1Num : Nat} {items : List ChdPhItem} {occupTable : BitsTable}

/-- The placement, with the items that are still to place. -/
theorem places_eq_some (positive : 0 < n) {itemsList size : Nat} (room : n ≤ 32 * occupTable.length)
    (i : Nat) (rest : List ChdPhItem) (segment : Segment items (itemsList + i) rest)
    (all : i + rest.length = size) :
    let placed := setsBits (rest.map (position n probe0Num probe1Num)) (bitOf occupTable)
    Exists fun after =>
      runLoop (placeRound n probe0Num probe1Num size items itemsList) (rest.length + 1) (i,
        occupTable) =
        some (i + placed.1, after) ∧
      after.length = occupTable.length ∧ bitOf after = placed.2 := by
  induction rest generalizing i occupTable with
  | nil =>
      refine ⟨occupTable, ?_, rfl, rfl⟩
      have finished : ¬ i < size := by
        rw [← all]
        exact Nat.lt_irrefl i
      simp [runLoop, placeRound, finished, setsBits]
  | cons item rest ih =>
      have entry : items[itemsList + i]? = some item := segment 0 (Nat.succ_pos _)
      have less : i < size := by
        rw [← all, List.length_cons]
        omega
      have inside : position n probe0Num probe1Num item < 32 * occupTable.length :=
        Nat.lt_of_lt_of_le (Nat.mod_lt _ positive) room
      rcases getBit32_eq_some inside with ⟨bit, read, clear⟩
      rw [List.map_cons, setsBits]
      by_cases taken : bitOf occupTable (position n probe0Num probe1Num item) = true
      · refine ⟨occupTable, ?_, rfl, ?_⟩
        · have nonzero : bit ≠ 0#32 := fun zero => by simp [clear.mp zero] at taken
          simp [runLoop, placeRound, less, entry, read, nonzero, taken]
        · simp [taken]
      · have zero := clear.mpr (Bool.eq_false_iff.mpr taken)
        rcases setBit32_eq_some inside with ⟨next, written, length, bits⟩
        have update : bitOf next = Function.update (bitOf occupTable)
            (position n probe0Num probe1Num item) true := by
          funext place
          rw [bits]
          by_cases same : place = position n probe0Num probe1Num item
          · simp [same]
          · simp [same]
        rcases ih (by rwa [length]) (i + 1) (fun k inRest => by
            have later := segment (k + 1) (Nat.succ_lt_succ inRest)
            rw [show itemsList + (i + 1) + k = itemsList + i + (k + 1) by omega]
            exact later) (by rw [← all, List.length_cons]; omega)
              with ⟨after, run, afterLength, result⟩
        rw [update] at run result
        refine ⟨after, ?_, afterLength.trans length, ?_⟩
        · rw [List.length_cons, runLoop]
          simp only [placeRound, less, if_true, entry, read, zero, ne_eq, not_true_eq_false,
            if_false, written, Option.bind_eq_bind, Option.bind_some, run, taken,
            Bool.false_eq_true]
          congr 2
          omega
        · simp only [taken, Bool.false_eq_true, if_false]
          exact result

/-- The bits of the first items are flipped. -/
theorem undoes_eq_some (positive : 0 < n) {itemsList : Nat} {contents : List ChdPhItem}
    (room : n ≤ 32 * occupTable.length) (segment : Segment items itemsList contents) {count : Nat}
    (most : count ≤ contents.length) :
    Exists fun after => forLoop (undoItem n probe0Num probe1Num items itemsList) count occupTable =
      some after ∧
      after.length = occupTable.length ∧
      bitOf after = flipsBits ((contents.map (position n probe0Num probe1Num)).take count)
        (bitOf occupTable) := by
  refine forLoop_of_step (undoItem n probe0Num probe1Num items itemsList) count occupTable
    (fun i after => after.length = occupTable.length ∧
      bitOf after = flipsBits ((contents.map (position n probe0Num probe1Num)).take i)
        (bitOf occupTable)) ?_
    ⟨rfl, rfl⟩
  rintro i middle less ⟨length, flipped⟩
  have entry := segment i (by omega)
  have inside : position n probe0Num probe1Num contents[i] < 32 * middle.length := by
    rw [length]
    exact Nat.lt_of_lt_of_le (Nat.mod_lt _ positive) room
  rcases unsetBit32_eq_some inside with ⟨next, written, same, bits⟩
  refine ⟨next, ?_, same.trans length, ?_⟩
  · simp only [undoItem, entry, written, Option.bind_eq_bind, Option.bind_some]
  · unfold flipsBits at flipped ⊢
    rw [List.take_succ_eq_append_getElem (by rw [List.length_map]; omega), List.foldl_append,
      ← flipped, List.foldl_cons, List.foldl_nil, List.getElem_map]
    funext place
    rw [bits]
    by_cases equal : place = position n probe0Num probe1Num contents[i]
    · simp [equal]
    · simp [equal]

theorem placeBucketProbe_refines (positive : 0 < n) (room : n ≤ 32 * occupTable.length)
    {buckets : List Extent} {bucketNum : Nat} {cell : Extent}
    (entry : buckets[bucketNum]? = some cell) {contents : List ChdPhItem}
    (segment : Segment items cell.start contents) :
    let probe := Hash.placeBucketProbe n probe0Num probe1Num contents (bitOf occupTable)
    Exists fun after =>
      placeBucketProbe n buckets items probe0Num probe1Num bucketNum contents.length occupTable =
        some (probe.1, after) ∧
      after.length = occupTable.length ∧ bitOf after = probe.2 := by
  rcases @places_eq_some n probe0Num probe1Num items occupTable positive cell.start
      contents.length room 0 contents segment (Nat.zero_add _) with ⟨middle, run, length, bits⟩
  rw [Nat.zero_add] at run
  have most := (setsBits_spec (contents.map (position n probe0Num probe1Num))
    (bitOf occupTable)).2.2.1
  rw [List.length_map] at most
  unfold Hash.placeBucketProbe
  simp only [placeBucketProbe, entry, run, Option.bind_eq_bind, Option.bind_some, List.length_map]
  by_cases stuck : (setsBits (contents.map (position n probe0Num probe1Num)) (bitOf occupTable)).1 ≠
    contents.length
  · rcases @undoes_eq_some n probe0Num probe1Num items middle positive cell.start contents
      (by rwa [length]) segment _ most with
      ⟨after, undone, same, flipped⟩
    refine ⟨after, ?_, same.trans length, ?_⟩
    · simp only [stuck, ne_eq, not_false_eq_true, if_true, undone, Option.bind_some]
    · rw [if_pos stuck, flipped, bits]
  · refine ⟨middle, ?_, length, ?_⟩
    · simp only [stuck, if_false]
    · rw [if_neg stuck, bits]

end

/-- What a search has reached, in the terms of `Placing`. -/
def Search.placement (search : Search) : Placement :=
  ⟨bitOf search.occupTable, fun bucketId => search.dispTable.getD bucketId 0⟩

structure Search.SameSizes (before after : Search) : Prop where
  buckets : after.buckets.length = before.buckets.length
  occupTable : after.occupTable.length = before.occupTable.length
  dispTable : after.dispTable.length = before.dispTable.length

theorem Search.SameSizes.refl (search : Search) : search.SameSizes search := ⟨rfl, rfl, rfl⟩

theorem Search.SameSizes.trans {before middle after : Search} (first : before.SameSizes middle)
    (second : middle.SameSizes after) : before.SameSizes after :=
  ⟨second.buckets.trans first.buckets, second.occupTable.trans first.occupTable,
    second.dispTable.trans first.dispTable⟩

/-- A list of buckets stands in the table of buckets. -/
def HoldsList (table : List Extent) (items : List ChdPhItem) (start : Nat)
    (buckets : List ChdPhBucket) : Prop :=
  forall j, (inside : j < buckets.length) -> Exists fun itemsList =>
    table[start + j]? = some ⟨itemsList, buckets[j].bucketId⟩ ∧
      Segment items itemsList buckets[j].items

theorem HoldsList.congr {table after : List Extent} {items : List ChdPhItem} {start : Nat}
    {buckets : List ChdPhBucket} (holds : HoldsList table items start buckets)
    (same : forall q, start ≤ q -> q < start + buckets.length -> after[q]? = table[q]?) :
    HoldsList after items start buckets := by
  intro j inside
  rw [same (start + j) (Nat.le_add_right _ _) (by omega)]
  exact holds j inside

section

variable {n probe0Num probe1Num bucketSize start : Nat} {items : List ChdPhItem}
  {list : List ChdPhBucket}

theorem placesRound_append (n probe0Num probe1Num : Nat) (first second : List ChdPhBucket)
    (placement : Placement) : placesRound n probe0Num probe1Num (first ++ second) placement =
      let round := placesRound n probe0Num probe1Num first placement
      let later := placesRound n probe0Num probe1Num second round.2
      (round.1 ++ later.1, later.2) := by
  induction first generalizing placement with
  | nil => rfl
  | cons bucket rest ih =>
      rw [List.cons_append, placesRound, placesRound]
      dsimp only
      split_ifs
      · rw [ih]
      · rw [ih]
        rfl

theorem placesRound_sublist (n probe0Num probe1Num : Nat) (buckets : List ChdPhBucket)
    (placement : Placement) :
    List.Sublist (placesRound n probe0Num probe1Num buckets placement).1 buckets := by
  induction buckets generalizing placement with
  | nil => exact List.Sublist.refl []
  | cons bucket rest ih =>
      rw [placesRound]
      dsimp only
      split_ifs
      · exact (ih _).cons bucket
      · exact (ih _).cons_cons bucket

/-- The first buckets of a list have been probed.  Those that are left have
moved to the front, and nothing behind the probed ones has changed. -/
structure Probed (n probe0Num probe1Num : Nat) (items : List ChdPhItem) (start : Nat)
    (before : Search) (probed : List ChdPhBucket) (state : Search × Nat) : Prop where
  placement : state.1.placement = (placesRound n probe0Num probe1Num probed before.placement).2
  count : state.2 = (placesRound n probe0Num probe1Num probed before.placement).1.length
  left : HoldsList state.1.buckets items start
    (placesRound n probe0Num probe1Num probed before.placement).1
  others : forall q, q < start ∨ start + probed.length ≤ q ->
    state.1.buckets[q]? = before.buckets[q]?
  sizes : before.SameSizes state.1

theorem Probed.next (positive : 0 < n) {before : Search} {probed : List ChdPhBucket}
    {bucket : ChdPhBucket} {state : Search × Nat}
    (reached : Probed n probe0Num probe1Num items start before probed state)
    (room : n ≤ 32 * before.occupTable.length) (slot : bucket.bucketId < before.dispTable.length)
    {itemsList : Nat} (entry : before.buckets[start + probed.length]? =
      some ⟨itemsList, bucket.bucketId⟩)
    (segment : Segment items itemsList bucket.items) :
    Exists fun next =>
      placesBucket n items start bucket.items.length probe0Num probe1Num probed.length state =
        some next ∧
      Probed n probe0Num probe1Num items start before (probed ++ [bucket]) next := by
  have cell := reached.others _ (Or.inr (Nat.le_refl (start + probed.length)))
  rw [entry] at cell
  have few := (placesRound_sublist n probe0Num probe1Num probed before.placement).length_le
  have inside := (List.getElem?_eq_some_iff.mp cell).1
  have sizes := reached.sizes
  have count := reached.count
  have left := reached.left
  rcases @placeBucketProbe_refines n probe0Num probe1Num items state.1.occupTable positive
      (by rw [sizes.occupTable]; exact room) state.1.buckets _ _ cell bucket.items segment with
    ⟨after, probe, length, bits⟩
  have table : bitOf state.1.occupTable =
      (placesRound n probe0Num probe1Num probed before.placement).2.occupTable :=
    congrArg Placement.occupTable reached.placement
  have disp : (fun bucketId => state.1.dispTable.getD bucketId 0) =
      (placesRound n probe0Num probe1Num probed before.placement).2.dispTable :=
    congrArg Placement.dispTable reached.placement
  rw [table] at probe bits
  have round := placesRound_append n probe0Num probe1Num probed [bucket] before.placement
  generalize placesRound n probe0Num probe1Num probed before.placement = now
    at count left few table disp round probe bits
  simp only [placesRound] at round
  generalize Hash.placeBucketProbe n probe0Num probe1Num bucket.items now.2.occupTable = result
    at round probe bits
  cases success : result.1 with
  | true =>
      rw [success, if_pos rfl] at round
      rw [success] at probe
      dsimp only at round
      rw [List.append_nil] at round
      have written := writeAt_eq_some (by rw [sizes.dispTable]; exact slot)
        (probe0Num + probe1Num * n)
      refine ⟨(⟨state.1.buckets, after,
        state.1.dispTable.set bucket.bucketId (probe0Num + probe1Num * n)⟩, state.2),
        ?_, ?_, ?_, ?_, ?_, ?_⟩
      · simp only [placesBucket, probe, cell, if_true, written, Option.bind_eq_bind,
          Option.bind_some]
      · rw [round, Search.placement, ← bits, ← disp]
        congr 1
        funext bucketId
        by_cases same : bucketId = bucket.bucketId
        · subst same
          rw [Function.update_self, List.getD_eq_getElem?_getD,
            List.getElem?_set_self (by rw [sizes.dispTable]; exact slot), Option.getD_some]
        · rw [Function.update_of_ne same, List.getD_eq_getElem?_getD,
            List.getElem?_set_ne (Ne.symm same), List.getD_eq_getElem?_getD]
      · rw [round]
        exact count
      · rw [round]
        exact left
      · intro q other
        rw [List.length_append, List.length_singleton] at other
        exact reached.others q (by omega)
      · exact ⟨sizes.buckets, length.trans sizes.occupTable,
          (List.length_set).trans sizes.dispTable⟩
  | false =>
      rw [success, if_neg Bool.false_ne_true] at round
      rw [success] at probe
      dsimp only at round
      have place : start + state.2 < state.1.buckets.length := by omega
      have written := writeAt_eq_some place (⟨itemsList, bucket.bucketId⟩ : Extent)
      refine ⟨(⟨state.1.buckets.set (start + state.2) ⟨itemsList, bucket.bucketId⟩, after,
        state.1.dispTable⟩,
        state.2 + 1), ?_, ?_, ?_, ?_, ?_, ?_⟩
      · simp only [placesBucket, probe, cell, Bool.false_eq_true, if_false, written,
          Option.bind_eq_bind, Option.bind_some]
      · rw [round, Search.placement, ← bits, ← disp]
      · rw [round, count, List.length_append, List.length_singleton]
      · rw [round]
        intro j within
        rw [List.length_append, List.length_singleton] at within
        by_cases last : j = now.1.length
        · subst last
          refine ⟨itemsList, ?_, ?_⟩
          · rw [List.getElem_concat_length rfl, ← count, List.getElem?_set_self place]
          · rw [List.getElem_concat_length rfl]
            exact segment
        · have earlier : j < now.1.length := by omega
          rw [List.getElem_append_left earlier, List.getElem?_set_ne (by omega)]
          exact left j earlier
      · intro q other
        rw [List.length_append, List.length_singleton] at other
        rw [List.getElem?_set_ne (by omega)]
        exact reached.others q (by omega)
      · exact ⟨(List.length_set).trans sizes.buckets, length.trans sizes.occupTable,
          sizes.dispTable⟩

/-- One pass over a list. -/
theorem placesRound_refines (positive : 0 < n) {before : Search}
    (holds : HoldsList before.buckets items start list) (room : n ≤ 32 * before.occupTable.length)
    (fits : forall bucket, bucket ∈ list ->
      bucket.items.length = bucketSize ∧ bucket.bucketId < before.dispTable.length) :
    Exists fun after =>
      forLoop (placesBucket n items start bucketSize probe0Num probe1Num) list.length (before, 0) =
        some after ∧
      Probed n probe0Num probe1Num items start before list after := by
  have begins : Probed n probe0Num probe1Num items start before (list.take 0) (before, 0) :=
    ⟨rfl, rfl, fun j inside => absurd inside (Nat.not_lt_zero j), fun _ _ => rfl,
      Search.SameSizes.refl before⟩
  rcases forLoop_of_step (placesBucket n items start bucketSize probe0Num probe1Num) list.length
    (before, 0) (fun j state => Probed n probe0Num probe1Num items start before (list.take j) state)
      (by
      intro j state inside reached
      rcases holds j inside with ⟨itemsList, entry, segment⟩
      rcases fits _ (List.getElem_mem inside) with ⟨size, slot⟩
      have length : (list.take j).length = j := by
        rw [List.length_take, Nat.min_eq_left (Nat.le_of_lt inside)]
      have next := reached.next positive room slot (by rw [length]; exact entry) segment
      rwa [length, size, ← List.take_succ_eq_append_getElem inside] at next) begins
        with ⟨after, run, reached⟩
  rw [List.take_length] at reached
  exact ⟨after, run, reached⟩

/-! ## The probes of a list, and all lists -/

/-- The buckets outside a part of the table stay. -/
def SameOutside (start length : Nat) (before after : List Extent) : Prop :=
  forall q, q < start ∨ start + length ≤ q -> after[q]? = before[q]?

/-- The loop over the probes, with `left` of them to go. -/
theorem probesList_refines (positive : 0 < n) {maxProbes : Nat} (left : Nat) (probing : Probing)
    (list : List ChdPhBucket) (toGo : maxProbes - probing.probeNum = left)
    (holds : HoldsList probing.search.buckets items start list) (size : probing.size = list.length)
    (room : n ≤ 32 * probing.search.occupTable.length)
    (fits : forall bucket, bucket ∈ list ->
      bucket.items.length = bucketSize ∧ bucket.bucketId < probing.search.dispTable.length) :
    let placed :=
      placesList n left probing.probe0Num probing.probe1Num list probing.search.placement
    Exists fun after =>
      runLoop (probeRound n maxProbes items start bucketSize) (left + 1) probing =
        some (placed.1, after) ∧
      after.placement = placed.2 ∧ probing.search.SameSizes after ∧
      SameOutside start list.length probing.search.buckets after.buckets := by
  induction left generalizing probing list with
  | zero =>
      rw [placesList, runLoop, probeRound, size]
      by_cases empty : list = []
      · rw [if_pos empty, empty]
        exact ⟨_, rfl, rfl, Search.SameSizes.refl _, fun _ _ => rfl⟩
      · rcases @placesRound_refines n probing.probe0Num probing.probe1Num bucketSize start items
          list positive probing.search holds room fits with ⟨after, run, probed⟩
        have last : maxProbes ≤ probing.probeNum + 1 := by omega
        rw [if_neg empty, if_neg (mt List.eq_nil_of_length_eq_zero empty), run]
        simp only [Option.bind_eq_bind, Option.bind_some, last, true_or, if_true]
        exact ⟨_, rfl, probed.placement, probed.sizes, probed.others⟩
  | succ left ih =>
      rw [placesList, runLoop, probeRound, size]
      by_cases empty : list = []
      · rw [if_pos empty, empty]
        exact ⟨_, rfl, rfl, Search.SameSizes.refl _, fun _ _ => rfl⟩
      · rcases @placesRound_refines n probing.probe0Num probing.probe1Num bucketSize start items
          list positive probing.search holds room fits with ⟨after, run, probed⟩
        rw [if_neg empty, if_neg (mt List.eq_nil_of_length_eq_zero empty), run]
        rcases left with - | left
        · have last : maxProbes ≤ probing.probeNum + 1 := by omega
          simp only [Option.bind_eq_bind, Option.bind_some, last, true_or, if_true]
          exact ⟨_, rfl, probed.placement, probed.sizes, probed.others⟩
        · have goes : ¬ maxProbes ≤ probing.probeNum + 1 := by omega
          simp only [Option.bind_eq_bind, Option.bind_some, goes, false_or]
          by_cases exhausted : n ≤
            if n ≤ probing.probe0Num + 1 then probing.probe1Num + 1 else probing.probe1Num
          · rw [if_pos exhausted, if_pos exhausted]
            exact ⟨_, rfl, probed.placement, probed.sizes, probed.others⟩
          · rw [if_neg exhausted, if_neg exhausted]
            have sublist := placesRound_sublist n probing.probe0Num probing.probe1Num list
              probing.search.placement
            have fewer := sublist.length_le
            rcases ih ⟨after.1, after.2, probing.probeNum + 1, _, _⟩ _
              (by dsimp only; omega) probed.left
                probed.count (by dsimp only; rw [probed.sizes.occupTable]; exact room) (by
                  intro bucket member
                  dsimp only
                  rw [probed.sizes.dispTable]
                  exact fits bucket (sublist.subset member))
                    with ⟨final, rest, placement, sizes, outside⟩
            dsimp only at rest placement sizes outside
            rw [probed.placement] at rest placement
            refine ⟨final, rest, placement, probed.sizes.trans sizes, fun q other => ?_⟩
            rw [outside q (by omega)]
            exact probed.others q other

end

/-- The lists of the sorted tables. -/
theorem Ordered.Sorts.holdsList {sizes : Sizes} {content : Buckets} {maxBucketSize nitems : Nat}
    {ordered : Ordered} (sorts : ordered.Sorts sizes content maxBucketSize nitems) {k : Nat}
    (above : 1 ≤ k) (below : k ≤ maxBucketSize) : HoldsList ordered.buckets ordered.items
      (startOf 1 (fun size => (Hash.chdPhOrdering sizes content size).length) k)
      (Hash.chdPhOrdering sizes content k) := by
  rcases k with - | k
  · exact absurd above (by decide)
  · have part : Segment (sortedBuckets sizes content maxBucketSize)
        (startOf 1 (fun size => (Hash.chdPhOrdering sizes content size).length) (k + 1))
        (Hash.chdPhOrdering sizes content (k + 1)) :=
      segment_flatMap_range (fun _ => rfl) below
    intro j inside
    rcases List.getElem?_eq_some_iff.mp (part j inside) with ⟨place, same⟩
    refine ⟨_, by rw [← same]; exact sorts.cells _ place, ?_⟩
    have items := sorts.moved
    rw [← List.take_append_drop
      (startOf 1 (fun size => (Hash.chdPhOrdering sizes content size).length) (k + 1) + j)
      (sortedBuckets sizes content maxBucketSize), itemsIn, List.flatMap_append,
        List.drop_eq_getElem_cons place,
      List.flatMap_cons, ← List.append_assoc] at items
    have own := items.part
    rw [Nat.zero_add, same] at own
    exact own

/-- The search in the sorted tables. -/
theorem placeBuckets2_refines {sizes : Sizes} {content : Buckets} {items : List ChdPhItem}
    {sortedLists : List Extent} {maxProbes : Nat} (size : Nat)
    (lists : forall k, 1 ≤ k -> k ≤ size -> sortedLists[k]? =
      some ⟨startOf 1 (fun k => (Hash.chdPhOrdering sizes content k).length) k,
        (Hash.chdPhOrdering sizes content k).length⟩)
    {search : Search} (room : sizes.n ≤ 32 * search.occupTable.length)
    (slots : search.dispTable.length = sizes.nbuckets)
    (holds : forall k, 1 ≤ k -> k ≤ size -> HoldsList search.buckets items
      (startOf 1 (fun k => (Hash.chdPhOrdering sizes content k).length) k)
      (Hash.chdPhOrdering sizes content k)) :
    let placed := Hash.placeBuckets2 sizes.n maxProbes
      (Hash.chdPhOrdering sizes content) size search.placement
    Exists fun after =>
      placeBuckets2 sizes.n maxProbes items sortedLists size search = some (placed.1, after) ∧
      after.placement = placed.2 ∧ search.SameSizes after := by
  induction size generalizing search with
  | zero => exact ⟨search, rfl, rfl, Search.SameSizes.refl search⟩
  | succ size ih =>
      rw [Hash.placeBuckets2, placeBuckets2,
        lists (size + 1) (Nat.le_add_left 1 size) (Nat.le_refl _)]
      rcases @probesList_refines sizes.n (size + 1) _ items sizes.n_pos maxProbes maxProbes
          ⟨search, (Hash.chdPhOrdering sizes content (size + 1)).length, 0, 0, 0⟩ _ rfl
          (holds (size + 1) (Nat.le_add_left 1 size) (Nat.le_refl _)) rfl room (by
            intro bucket member
            rcases mem_chdPhOrdering.mp member with ⟨inRange, -, length⟩
            exact ⟨length, by rw [slots]; exact inRange⟩)
              with ⟨middle, run, placement, same, outside⟩
      dsimp only at run placement same outside
      simp only [Option.bind_eq_bind, Option.bind_some, run]
      by_cases success :
          (placesList sizes.n maxProbes 0 0
            (Hash.chdPhOrdering sizes content (size + 1)) search.placement).1 = true
      · rw [if_pos success, if_pos success, ← placement]
        rcases ih (fun k above below => lists k above (by omega))
          (by rw [same.occupTable]; exact room)
            (by rw [same.dispTable]; exact slots) (by
              intro k above below
              refine (holds k above (by omega)).congr (fun q _ less => outside q (Or.inl ?_))
              have ends := @startOf_add_le 1 (fun k =>
                (Hash.chdPhOrdering sizes content k).length) k (size + 1)
                above (by omega)
              exact Nat.lt_of_lt_of_le less ends) with ⟨after, rest, final, sizesAfter⟩
        exact ⟨after, rest, final, same.trans sizesAfter⟩
      · rw [if_neg success, if_neg success]
        exact ⟨middle, rfl, placement, same⟩

end Tables

end Hash
end Johnny
