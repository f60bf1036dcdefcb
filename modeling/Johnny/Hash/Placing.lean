import Johnny.Hash.Mapping
import Mathlib.Logic.Function.Basic
import Mathlib.Data.List.Perm.Basic
import Mathlib.Data.List.Nodup

namespace Johnny
namespace Hash

/-!
# Placing buckets into bins

The buckets are placed in the order of their sizes, the largest first.  A probe
moves all items of a bucket by two displacements; the bucket is placed if the
bins it asks for are free and different, and otherwise left for the next probe.

One table has a bit for each bin.  What has been placed at any time are the
items of some buckets, in different bins, and the bits of these bins are set.
-/

/-- A bucket in the sorted order, with its items. -/
structure ChdPhBucket where
  bucketId : Nat
  items : List ChdPhItem
  deriving DecidableEq

/-- One list of buckets of the same size, as `chd_ph_ordering` sorts them. -/
def chdPhOrdering (sizes : Sizes) (buckets : Buckets) (size : Nat) : List ChdPhBucket :=
  ((List.range sizes.nbuckets).filter (fun bucketId =>
    decide ((buckets bucketId).length = size))).map
    (fun bucketId => ⟨bucketId, buckets bucketId⟩)

/-- The bin of an item.  The product is computed in 64 bits. -/
def position (n probe0Num probe1Num : Nat) (item : ChdPhItem) : Nat :=
  (item.f + item.h * probe0Num + probe1Num) % n

/-- The tables that a search fills. -/
structure Placement where
  occupTable : Nat -> Bool
  dispTable : Nat -> Nat

/-- `SETBIT32` for one position after another, up to the first bit that is set.
The number of bits set comes with the table. -/
def setsBits : List Nat -> (Nat -> Bool) -> Nat × (Nat -> Bool)
  | [], occupTable => (0, occupTable)
  | place :: rest, occupTable =>
      if occupTable place then (0, occupTable)
      else
        let later := setsBits rest (Function.update occupTable place true)
        (later.1 + 1, later.2)

/-- `UNSETBIT32` flips a bit. -/
def flipsBits (places : List Nat) (occupTable : Nat -> Bool) : Nat -> Bool :=
  places.foldl (fun table place => Function.update table place (!table place)) occupTable

/-- A placement that does not succeed is undone. -/
def placeBucketProbe (n probe0Num probe1Num : Nat) (items : List ChdPhItem)
    (occupTable : Nat -> Bool) : Bool × (Nat -> Bool) :=
  let places := items.map (position n probe0Num probe1Num)
  let placed := setsBits places occupTable
  if placed.1 ≠ places.length then (false, flipsBits (places.take placed.1) placed.2)
  else (true, placed.2)

/-- What is set at the end was set before or has been placed. -/
theorem setsBits_spec (places : List Nat) (occupTable : Nat -> Bool) :
    let placed := setsBits places occupTable
    (places.take placed.1).Nodup ∧
      (forall place, place ∈ places.take placed.1 -> occupTable place = false) ∧
      placed.1 ≤ places.length ∧
      forall place,
        placed.2 place = (occupTable place || decide (place ∈ places.take placed.1)) := by
  induction places generalizing occupTable with
  | nil =>
      refine ⟨List.nodup_nil, ?_, Nat.le_refl _, fun place => (Bool.or_false _).symm⟩
      intro place member
      cases member
  | cons first rest ih =>
      rw [setsBits]
      by_cases taken : occupTable first = true
      · rw [if_pos taken]
        refine ⟨List.nodup_nil, ?_, Nat.zero_le _, fun place => (Bool.or_false _).symm⟩
        intro place member
        cases member
      · rw [if_neg taken]
        have free := Bool.eq_false_iff.mpr taken
        rcases ih (Function.update occupTable first true) with ⟨distinct, wasFree, bound, table⟩
        dsimp only at distinct wasFree bound table ⊢
        rw [List.take_succ_cons]
        have notAgain :
            first ∉ rest.take (setsBits rest (Function.update occupTable first true)).1 := by
          intro member
          have own := wasFree first member
          rw [Function.update_self] at own
          cases own
        refine ⟨List.nodup_cons.mpr ⟨notAgain, distinct⟩, ?_, Nat.succ_le_succ bound, ?_⟩
        · intro place member
          rcases List.mem_cons.mp member with rfl | later
          · exact free
          · have earlier := wasFree place later
            rwa [Function.update_of_ne] at earlier
            rintro rfl
            exact notAgain later
        · intro place
          rw [table]
          by_cases same : place = first
          · subst same
            simp
          · rw [Function.update_of_ne same]
            simp [same]

theorem flipsBits_apply {places : List Nat} (distinct : places.Nodup) (occupTable : Nat -> Bool)
    (place : Nat) : flipsBits places occupTable place =
      if place ∈ places then !occupTable place else occupTable place := by
  induction places generalizing occupTable with
  | nil => rfl
  | cons first rest ih =>
      rcases List.nodup_cons.mp distinct with ⟨notAgain, restDistinct⟩
      have step : flipsBits (first :: rest) occupTable =
          flipsBits rest (Function.update occupTable first (!occupTable first)) := rfl
      rw [step, ih restDistinct]
      by_cases same : place = first
      · subst same
        rw [if_neg notAgain, if_pos List.mem_cons_self, Function.update_self]
      · rw [Function.update_of_ne same]
        simp [same]

/-- A bucket is placed when its bins are free and different, and a bucket that
is not placed leaves no trace. -/
theorem placeBucketProbe_spec {n probe0Num probe1Num : Nat} {items : List ChdPhItem}
    {occupTable after : Nat -> Bool} {success : Bool}
    (probe : placeBucketProbe n probe0Num probe1Num items occupTable = (success, after)) :
    let places := items.map (position n probe0Num probe1Num)
    (success = false ∧ after = occupTable) ∨
    (success = true ∧ places.Nodup ∧ (forall place, place ∈ places -> occupTable place = false) ∧
      forall place, after place = (occupTable place || decide (place ∈ places))) := by
  rcases setsBits_spec (items.map (position n probe0Num probe1Num)) occupTable with
    ⟨distinct, wasFree, bound, table⟩
  unfold placeBucketProbe at probe
  dsimp only at probe distinct wasFree bound table ⊢
  split_ifs at probe with stuck
  · cases probe
    refine Or.inl ⟨rfl, ?_⟩
    funext place
    rw [flipsBits_apply distinct, table]
    by_cases member : place ∈ (items.map (position n probe0Num probe1Num)).take
        (setsBits (items.map (position n probe0Num probe1Num)) occupTable).1
    · rw [if_pos member, wasFree place member, decide_eq_true member]
      rfl
    · rw [if_neg member, decide_eq_false member, Bool.or_false]
  · cases probe
    have all := Decidable.not_not.mp stuck
    rw [all, List.take_length] at distinct wasFree table
    exact Or.inr ⟨rfl, distinct, wasFree, table⟩

/-- One pass over the buckets that are not placed yet. -/
def placesRound (n probe0Num probe1Num : Nat) : List ChdPhBucket -> Placement ->
    List ChdPhBucket × Placement
  | [], placement => ([], placement)
  | bucket :: rest, placement =>
      let probe := placeBucketProbe n probe0Num probe1Num bucket.items placement.occupTable
      if probe.1 then
        placesRound n probe0Num probe1Num rest
          ⟨probe.2, Function.update placement.dispTable bucket.bucketId (probe0Num + probe1Num * n)⟩
      else
        let later := placesRound n probe0Num probe1Num rest { placement with occupTable := probe.2 }
        (bucket :: later.1, later.2)

/-- The loop over the probes, with `max_probes - probe_num` probes left.  When
none or one is left, the loop gives up after its round, even if the round places
the last bucket. -/
def placesList (n probesLeft probe0Num probe1Num : Nat) (buckets : List ChdPhBucket)
    (placement : Placement) : Bool × Placement :=
  if buckets = [] then (true, placement)
  else
    let round := placesRound n probe0Num probe1Num buckets placement
    let nextProbe0 := if n ≤ probe0Num + 1 then probe0Num + 1 - n else probe0Num + 1
    let nextProbe1 := if n ≤ probe0Num + 1 then probe1Num + 1 else probe1Num
    match probesLeft with
    | probesLeft + 2 =>
        if n ≤ nextProbe1 then (false, round.2)
        else placesList n (probesLeft + 1) nextProbe0 nextProbe1 round.1 round.2
    | _ => (false, round.2)

/-- `place_buckets2`: all lists from a size down to one. -/
def placeBuckets2 (n maxProbes : Nat) (sortedLists : Nat -> List ChdPhBucket) :
    Nat -> Placement -> Bool × Placement
  | 0, placement => (true, placement)
  | size + 1, placement =>
      let placed := placesList n maxProbes 0 0 (sortedLists (size + 1)) placement
      if placed.1 then placeBuckets2 n maxProbes sortedLists size placed.2 else placed

/-- The bins of a bucket under its displacement. -/
def ChdPhBucket.bins (n : Nat) (dispTable : Nat -> Nat) (bucket : ChdPhBucket) : List Nat :=
  bucket.items.map (position n (dispTable bucket.bucketId % n) (dispTable bucket.bucketId / n))

/-- Some buckets are placed: their bins are different, and they are the
occupied ones. -/
structure Placed (n : Nat) (placement : Placement) (buckets : List ChdPhBucket) : Prop where
  distinct : (buckets.flatMap (ChdPhBucket.bins n placement.dispTable)).Nodup
  occupied : forall place, placement.occupTable place = true <->
    place ∈ buckets.flatMap (ChdPhBucket.bins n placement.dispTable)

theorem Placed.empty (n : Nat) (dispTable : Nat -> Nat) :
    Placed n ⟨fun _ => false, dispTable⟩ [] where
  distinct := List.nodup_nil
  occupied := by simp

theorem Placed.perm {n : Nat} {placement : Placement} {first second : List ChdPhBucket}
    (placed : Placed n placement first) (same : first.Perm second) : Placed n placement second where
  distinct := (same.flatMap_right _).nodup_iff.mp placed.distinct
  occupied := fun place => (placed.occupied place).trans (same.flatMap_right _).mem_iff

/-- The displacement of another bucket does not matter. -/
theorem bins_update_of_notMem {n : Nat} {dispTable : Nat -> Nat} {buckets : List ChdPhBucket}
    {bucketId disp : Nat} (other : bucketId ∉ buckets.map ChdPhBucket.bucketId) :
    buckets.flatMap (ChdPhBucket.bins n (Function.update dispTable bucketId disp)) =
      buckets.flatMap (ChdPhBucket.bins n dispTable) := by
  apply List.flatMap_congr
  intro bucket member
  have different : bucket.bucketId ≠ bucketId := by
    rintro rfl
    exact other (List.mem_map_of_mem member)
  unfold ChdPhBucket.bins
  rw [Function.update_of_ne different]

/-- A successful probe places one bucket more. -/
theorem Placed.cons {n : Nat} {placement : Placement} {buckets : List ChdPhBucket}
    {bucket : ChdPhBucket} (placed : Placed n placement buckets)
    (other : bucket.bucketId ∉ buckets.map ChdPhBucket.bucketId)
    {probe0Num probe1Num : Nat} (inside : probe0Num < n) {after : Nat -> Bool}
    (probe : placeBucketProbe n probe0Num probe1Num bucket.items placement.occupTable =
      (true, after)) :
    Placed n ⟨after, Function.update placement.dispTable bucket.bucketId
      (probe0Num + probe1Num * n)⟩
      (bucket :: buckets) := by
  have bins : ChdPhBucket.bins n
      (Function.update placement.dispTable bucket.bucketId (probe0Num + probe1Num * n)) bucket =
        bucket.items.map (position n probe0Num probe1Num) := by
    unfold ChdPhBucket.bins
    rw [Function.update_self, Nat.add_mul_mod_self_right, Nat.mod_eq_of_lt inside,
      Nat.add_mul_div_right _ _ (Nat.lt_of_le_of_lt (Nat.zero_le _) inside),
      Nat.div_eq_of_lt inside, Nat.zero_add]
  rcases placeBucketProbe_spec probe with ⟨fails, -⟩ | ⟨-, distinct, free, table⟩
  · cases fails
  · constructor
    · rw [List.flatMap_cons, bins_update_of_notMem other, bins]
      refine List.nodup_append.mpr ⟨distinct, placed.distinct, ?_⟩
      intro place inBucket other inOthers same
      subst same
      have taken := (placed.occupied place).mpr inOthers
      rw [free place inBucket] at taken
      cases taken
    · intro place
      rw [List.flatMap_cons, bins_update_of_notMem other, bins, List.mem_append,
        ← placed.occupied place]
      dsimp only
      rw [table, Bool.or_eq_true, decide_eq_true_eq]
      exact Or.comm

/-! ## Runs of the search -/

/-- A pass places some of the buckets and leaves the others. -/
theorem placesRound_spec {n probe0Num probe1Num : Nat} (inside : probe0Num < n)
    (buckets : List ChdPhBucket) {placement : Placement} {before : List ChdPhBucket}
    (placed : Placed n placement before)
    (apart : ((buckets ++ before).map ChdPhBucket.bucketId).Nodup) :
    let round := placesRound n probe0Num probe1Num buckets placement
    Exists fun now => (now ++ round.1).Perm buckets ∧ Placed n round.2 (now ++ before) := by
  induction buckets generalizing placement before with
  | nil => exact ⟨[], List.Perm.refl _, placed⟩
  | cons bucket rest ih =>
      rw [List.cons_append, List.map_cons, List.nodup_cons] at apart
      rw [placesRound]
      dsimp only
      cases probe : placeBucketProbe n probe0Num probe1Num bucket.items placement.occupTable with
      | mk success after =>
          cases success with
          | true =>
              rw [if_pos rfl]
              have notBefore : bucket.bucketId ∉ before.map ChdPhBucket.bucketId := by
                intro member
                exact apart.1 (by rw [List.map_append]; exact List.mem_append_right _ member)
              have apartAfter : ((rest ++ bucket :: before).map ChdPhBucket.bucketId).Nodup := by
                have same : (bucket :: (rest ++ before)).Perm (rest ++ bucket :: before) :=
                  List.perm_middle.symm
                rw [← (same.map ChdPhBucket.bucketId).nodup_iff, List.map_cons, List.nodup_cons]
                exact apart
              rcases ih (placed.cons notBefore inside probe) apartAfter with ⟨now, same, result⟩
              refine ⟨bucket :: now, List.Perm.cons bucket same, ?_⟩
              exact result.perm List.perm_middle
          | false =>
              rw [if_neg Bool.false_ne_true]
              rcases placeBucketProbe_spec probe with ⟨-, unchanged⟩ | ⟨succeeds, -⟩
              · subst unchanged
                rcases ih placed apart.2 with ⟨now, same, result⟩
                exact ⟨now, List.perm_middle.trans (List.Perm.cons bucket same), result⟩
              · cases succeeds

/-- A list that is finished is placed whole.  The induction is on the probes
left; the buckets left and the buckets placed make up those of the start. -/
theorem placesList_spec {n probesLeft probe0Num probe1Num : Nat} (inside : probe0Num < n)
    {buckets : List ChdPhBucket} {placement after : Placement} {before : List ChdPhBucket}
    (placed : Placed n placement before)
    (apart : ((buckets ++ before).map ChdPhBucket.bucketId).Nodup)
    (finishes : placesList n probesLeft probe0Num probe1Num buckets placement = (true, after)) :
    Placed n after (buckets ++ before) := by
  induction probesLeft generalizing probe0Num probe1Num buckets placement before with
  | zero =>
      rw [placesList] at finishes
      by_cases empty : buckets = []
      · rw [if_pos empty] at finishes
        cases finishes
        rw [empty]
        exact placed
      · rw [if_neg empty] at finishes
        cases finishes
  | succ probesLeft ih =>
      rw [placesList] at finishes
      by_cases empty : buckets = []
      · rw [if_pos empty] at finishes
        cases finishes
        rw [empty]
        exact placed
      · rw [if_neg empty] at finishes
        rcases @placesRound_spec n probe0Num probe1Num inside buckets placement before placed
          apart with ⟨now, same, result⟩
        have nextInside : (if n ≤ probe0Num + 1 then probe0Num + 1 - n else probe0Num + 1) < n := by
          split_ifs <;> omega
        have all : ((placesRound n probe0Num probe1Num buckets placement).1 ++ (now ++ before)).Perm
            (buckets ++ before) := by
          rw [← List.append_assoc]
          exact (List.perm_append_comm.trans same).append_right before
        rcases probesLeft with - | probesLeft
        · cases finishes
        · dsimp only at finishes
          split_ifs at finishes
          all_goals first
            | cases finishes
            | exact (ih (by omega) result ((all.map _).nodup_iff.mpr apart) finishes).perm all

/-- A search that succeeds has placed the buckets of all sizes. -/
theorem placeBuckets2_spec {n maxProbes : Nat} (positive : 0 < n)
    {sortedLists : Nat -> List ChdPhBucket} (size : Nat) {placement after : Placement}
    {before : List ChdPhBucket} (placed : Placed n placement before)
    (apart : ((((List.range size).flatMap (fun index => sortedLists (index + 1))) ++ before).map
      ChdPhBucket.bucketId).Nodup)
    (succeeds : placeBuckets2 n maxProbes sortedLists size placement = (true, after)) :
    Placed n after
      (((List.range size).flatMap (fun index => sortedLists (index + 1))) ++ before) := by
  induction size generalizing placement before with
  | zero =>
      cases succeeds
      exact placed
  | succ size ih =>
      rw [List.range_succ, List.flatMap_append, List.flatMap_singleton,
        List.append_assoc] at apart ⊢
      rw [placeBuckets2] at succeeds
      cases finishes : placesList n maxProbes 0 0 (sortedLists (size + 1)) placement with
      | mk success middle =>
          rw [finishes] at succeeds
          cases success with
          | false =>
              rw [if_neg Bool.false_ne_true] at succeeds
              cases succeeds
          | true =>
              rw [if_pos rfl] at succeeds
              have own : ((sortedLists (size + 1) ++ before).map ChdPhBucket.bucketId).Nodup := by
                rw [List.map_append] at apart
                exact (List.nodup_append.mp apart).2.1
              exact ih (placesList_spec positive placed own finishes) apart succeeds

end Hash
end Johnny
