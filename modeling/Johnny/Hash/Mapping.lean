import Johnny.Global
import Mathlib.Data.List.Nodup

namespace Johnny
namespace Hash

/-!
# Mapping keys to buckets

`chd_ph_new` draws a hash state and sorts the keys into buckets by its first
value.  The other two values of a key become an item of its bucket.  Two equal
items in one bucket cannot be told apart later, so another hash state is drawn,
up to a limit.  Equal keys give equal items under every hash state.
-/

structure ChdPhItem where
  f : Nat
  h : Nat
  deriving DecidableEq

structure ChdPhMapItem where
  item : ChdPhItem
  bucketNum : Nat
  deriving DecidableEq

/-- The sizes of the tables that `chd_ph_new` builds. -/
structure Sizes where
  nbuckets : Nat
  n : Nat
  nbuckets_pos : 0 < nbuckets
  n_pos : 0 < n

/-- `hash_vector` with one hash state: three values of 32 bits for a key. -/
abbrev HashState := Bytes -> Nat × Nat × Nat

def Sizes.mapItem (sizes : Sizes) (hl : HashState) (key : Bytes) : ChdPhMapItem where
  item := ⟨(hl key).2.1 % sizes.n, (hl key).2.2 % (sizes.n - 1) + 1⟩
  bucketNum := (hl key).1 % sizes.nbuckets

theorem Sizes.mapItem_bucketNum_lt (sizes : Sizes) (hl : HashState) (key : Bytes) :
    (sizes.mapItem hl key).bucketNum < sizes.nbuckets :=
  Nat.mod_lt _ sizes.nbuckets_pos

/-- The items of each bucket, in the order of their keys. -/
abbrev Buckets := Nat -> List ChdPhItem

/-- Insertion fails when the bucket has an equal item. -/
def chdPhBucketInsert (buckets : Buckets) (mapItem : ChdPhMapItem) : Option Buckets :=
  if mapItem.item ∈ buckets mapItem.bucketNum then none
  else
    some (Function.update buckets mapItem.bucketNum (buckets mapItem.bucketNum ++ [mapItem.item]))

def insertsAll (mapItems : List ChdPhMapItem) : Option Buckets :=
  mapItems.foldlM chdPhBucketInsert (fun _ => [])

/-- `max_bucket_size` after the pass that counts the items of each bucket. -/
def countsBuckets (mapItems : List ChdPhMapItem) (maxBucketSize : Nat) : Nat :=
  mapItems.foldl (fun largest mapItem =>
    max largest (mapItems.countP (fun other =>
      decide (other.bucketNum = mapItem.bucketNum)))) maxBucketSize

/-- What a successful mapping leaves.  Hash states are numbered in the order in
which they are drawn. -/
structure Mapped where
  state : Nat
  buckets : Buckets
  maxBucketSize : Nat

/-- The loop of `chd_ph_mapping` with `mapping_iterations` rounds to go. -/
def chdPhMapping (hashStates : Nat -> HashState) (sizes : Sizes) (keys : List Bytes) :
    Nat -> Nat -> Nat -> Option Mapped
  | 0, _, _ => none
  | mappingIterations + 1, state, maxBucketSize =>
      let mapItems := keys.map (sizes.mapItem (hashStates state))
      let counted := countsBuckets mapItems maxBucketSize
      match insertsAll mapItems with
      | some buckets => some ⟨state, buckets, counted⟩
      | none => chdPhMapping hashStates sizes keys mappingIterations (state + 1) counted

/-- The items of a bucket among some mapped items. -/
def itemsOf (mapItems : List ChdPhMapItem) (bucketNum : Nat) : List ChdPhItem :=
  (mapItems.filter (fun mapItem => decide (mapItem.bucketNum = bucketNum))).map ChdPhMapItem.item

theorem itemsOf_append_singleton (mapItems : List ChdPhMapItem) (mapItem : ChdPhMapItem) :
    itemsOf (mapItems ++ [mapItem]) =
      Function.update (itemsOf mapItems) mapItem.bucketNum
        (itemsOf mapItems mapItem.bucketNum ++ [mapItem.item]) := by
  funext bucketNum
  unfold itemsOf
  rw [List.filter_append, List.map_append]
  by_cases same : bucketNum = mapItem.bucketNum
  · subst same
    rw [Function.update_self, List.filter_singleton, decide_eq_true rfl]
    rfl
  · rw [Function.update_of_ne same, List.filter_singleton, decide_eq_false (Ne.symm same)]
    exact List.append_nil _

theorem mem_itemsOf {mapItems : List ChdPhMapItem} {mapItem : ChdPhMapItem} :
    mapItem.item ∈ itemsOf mapItems mapItem.bucketNum <-> mapItem ∈ mapItems := by
  unfold itemsOf
  rw [List.mem_map]
  constructor
  · rintro ⟨other, member, same⟩
    rcases List.mem_filter.mp member with ⟨inItems, bucket⟩
    have equal : other = mapItem := by
      cases other
      cases mapItem
      dsimp only at same bucket
      rw [same, of_decide_eq_true bucket]
    rwa [← equal]
  · intro member
    exact ⟨mapItem, List.mem_filter.mpr ⟨member, decide_eq_true rfl⟩, rfl⟩

/-- Insertion of the rest behind the items that are in already.  It succeeds
exactly when no item occurs twice. -/
theorem foldlM_chdPhBucketInsert (before rest : List ChdPhMapItem) (distinct : before.Nodup) :
    (rest.foldlM chdPhBucketInsert (itemsOf before) = some (itemsOf (before ++ rest)) ∧
      (before ++ rest).Nodup) ∨
    (rest.foldlM chdPhBucketInsert (itemsOf before) = none ∧ ¬(before ++ rest).Nodup) := by
  induction rest generalizing before with
  | nil =>
      rw [List.append_nil]
      exact Or.inl ⟨rfl, distinct⟩
  | cons mapItem rest ih =>
      rw [List.foldlM_cons]
      by_cases present : mapItem ∈ before
      · have fails : chdPhBucketInsert (itemsOf before) mapItem = none :=
          if_pos (mem_itemsOf.mpr present)
        rw [fails]
        refine Or.inr ⟨rfl, fun nodup => ?_⟩
        exact (List.nodup_append.mp nodup).2.2 mapItem present mapItem List.mem_cons_self rfl
      · have succeeds : chdPhBucketInsert (itemsOf before) mapItem =
            some (itemsOf (before ++ [mapItem])) := by
          rw [itemsOf_append_singleton]
          exact if_neg (mt mem_itemsOf.mp present)
        have longer : (before ++ [mapItem]).Nodup := by
          rw [List.nodup_append]
          refine ⟨distinct, List.nodup_singleton _, ?_⟩
          intro other inBefore last inLast same
          rw [List.mem_singleton.mp inLast] at same
          exact present (same ▸ inBefore)
        have later := ih (before ++ [mapItem]) longer
        rw [List.append_assoc] at later
        rw [succeeds]
        exact later

theorem insertsAll_eq_some {mapItems : List ChdPhMapItem} {buckets : Buckets}
    (inserts : insertsAll mapItems = some buckets) :
      buckets = itemsOf mapItems ∧ mapItems.Nodup := by
  rcases foldlM_chdPhBucketInsert [] mapItems List.nodup_nil with ⟨same, distinct⟩ | ⟨fails, -⟩
  · exact ⟨Option.some.inj (inserts.symm.trans same), distinct⟩
  · cases inserts.symm.trans fails

/-- A running maximum bounds all that it has passed. -/
theorem le_foldl_max {A : Type} (measure : A -> Nat) (items : List A) (largest : Nat) :
    let result := items.foldl (fun largest item => max largest (measure item)) largest
    largest ≤ result ∧ forall item, item ∈ items -> measure item ≤ result := by
  induction items generalizing largest with
  | nil => exact ⟨Nat.le_refl _, fun _ member => by cases member⟩
  | cons first rest ih =>
      rcases ih (max largest (measure first)) with ⟨above, each⟩
      refine ⟨Nat.le_trans (Nat.le_max_left _ _) above, ?_⟩
      intro item member
      rcases List.mem_cons.mp member with rfl | later
      · exact Nat.le_trans (Nat.le_max_right _ _) above
      · exact each item later

/-- No bucket has more items than were counted. -/
theorem length_itemsOf_le (mapItems : List ChdPhMapItem) (maxBucketSize bucketNum : Nat) :
    (itemsOf mapItems bucketNum).length ≤ countsBuckets mapItems maxBucketSize := by
  have count : (itemsOf mapItems bucketNum).length =
      mapItems.countP (fun other => decide (other.bucketNum = bucketNum)) := by
    unfold itemsOf
    rw [List.length_map, List.countP_eq_length_filter]
  rw [count]
  by_cases empty : mapItems.countP (fun other => decide (other.bucketNum = bucketNum)) = 0
  · rw [empty]
    exact Nat.zero_le _
  · rcases List.countP_pos_iff.mp (Nat.pos_of_ne_zero empty) with ⟨mapItem, member, bucket⟩
    have own := (le_foldl_max (fun item => mapItems.countP
      (fun other => decide (other.bucketNum =
        item.bucketNum))) mapItems maxBucketSize).2 mapItem member
    rw [of_decide_eq_true bucket] at own
    exact own

/-- A mapping sorts the items of all keys into their buckets, and no two keys
have the same item and bucket. -/
theorem chdPhMapping_eq_some {hashStates : Nat -> HashState} {sizes : Sizes} {keys : List Bytes}
    {mappingIterations state maxBucketSize : Nat} {mapped : Mapped}
    (mapping : chdPhMapping hashStates sizes keys mappingIterations state maxBucketSize =
      some mapped) :
    let mapItems := keys.map (sizes.mapItem (hashStates mapped.state))
    mapped.buckets = itemsOf mapItems ∧ mapItems.Nodup ∧
      forall bucketNum, (itemsOf mapItems bucketNum).length ≤ mapped.maxBucketSize := by
  induction mappingIterations generalizing state maxBucketSize with
  | zero => cases mapping
  | succ mappingIterations ih =>
      rw [chdPhMapping] at mapping
      cases inserts : insertsAll (keys.map (sizes.mapItem (hashStates state))) with
      | none =>
          rw [inserts] at mapping
          exact ih mapping
      | some buckets =>
          rw [inserts] at mapping
          cases mapping
          rcases insertsAll_eq_some inserts with ⟨same, distinct⟩
          exact ⟨same, distinct, length_itemsOf_le _ _⟩

end Hash
end Johnny
