import PipeANN.GuardedRuns
import PipeANN.IdMaps
import PipeANN.RangeListing

/-! # Inserts and merges of the range index

`insert` of `SortedRangeAttrIndex` (`attribute.h`) puts the value in the delta and gives the
vector a bucket: the last one that begins at or below the value.  The boundaries of the
buckets are those of `save`; no merge computes them anew, `remap_approx` only moves the
buckets to the new ids.  So a value below the first boundary gets the first bucket and a value
beyond the last one the last bucket, although these do not cover it, and `is_member_approx`
rejects the vector.

`approxComplete_run_iff` says that nothing else goes wrong: in a run of inserts and merges that
begins with values between the boundaries of their buckets, no vector is ever rejected by a
query that its value satisfies if and only if every inserted value is between the first and
the last boundary, or is `UINT32_MAX`, which is in no interval.

The last boundary is one more than the largest saved value and may have wrapped to `0`; the
others are ascending.  A merge whose file would not have one entry for each vector reads past
the sorted values for the histogram, or leaves a file of another length than
`base_n_vectors_`; the model has no step where what is not there is read.
-/
namespace PipeANN
open List Function Nat UInt32
open Option (some map_eq_some_iff map_some)
namespace RangeIndex

open SortedLists

/-! ## The index -/

/-- A `SortedRangeAttrIndex` after `save` and `load_approx`. -/
structure RangeAttrIndex where
  /-- The file and `delta_`. -/
  store : Store
  deltaBytes : Nat
  nVectors : Nat
  baseNVectors : Nat
  /-- `bucket_ids_`. -/
  bucketIds : List UInt8
  bucketBoundaries : List UInt32
  length_boundaries : bucketBoundaries.length = kQuantizeBuckets + 1
  sorted_boundaries :
    ((bucketBoundaries.take kQuantizeBuckets).map toNat).Pairwise (· ≤ ·)

theorem sorted_save {attrs : List UInt32} (h : attrs ≠ []) :
    (((save attrs).bucketBoundaries.take kQuantizeBuckets).map toNat).Pairwise (· ≤ ·) := by
  have hlen : ((range kQuantizeBuckets).map fun b => sortedAttr (sortedData attrs)
      (b * (sortedData attrs).length / kQuantizeBuckets)).length = kQuantizeBuckets := by simp
  rw [save, buildQuantizedBuckets, take_append_of_le_length hlen.ge,
    take_of_length_le hlen.le, map_map]
  refine pairwise_map.mpr (pairwise_lt_range.imp_of_mem fun {a b} _ hb hab => ?_)
  rw [length_sortedData]
  apply sortedAttr_mono (Nat.div_le_div_right (Nat.mul_le_mul_right _ hab.le))
  have hpos := length_pos_iff.mpr h
  exact Nat.div_lt_of_lt_mul (Nat.mul_lt_mul_of_pos_right (mem_range.mp hb) hpos)

namespace RangeAttrIndex
variable (ix : RangeAttrIndex)

/-- `save` of the values of all vectors, of which there is at least one. -/
def save (attrs : List UInt32) (h : attrs ≠ []) : RangeAttrIndex where
  store := .save attrs
  deltaBytes := 0
  nVectors := attrs.length
  baseNVectors := attrs.length
  bucketIds := (List.range attrs.length).map fun id =>
    UInt8.ofNat ((RangeIndex.save attrs).bucketIds id)
  bucketBoundaries := (RangeIndex.save attrs).bucketBoundaries
  length_boundaries := by simp [RangeIndex.save, buildQuantizedBuckets]
  sorted_boundaries := sorted_save h

/-- The boundary below a bucket. -/
def boundary (b : Nat) : UInt32 := ix.bucketBoundaries.getD b 0

/-- The bucket that `insert` gives a value. -/
def bucketFor (value : UInt32) : UInt8 :=
  let it := upperBound (ix.bucketBoundaries.map toNat) value.toNat
  let bid := if it = 0 then 0 else it - 1
  UInt8.ofNat (min bid (kQuantizeBuckets - 1))

/-- `bucket_ids_` when `insert` writes a vector's bucket. -/
def grown (vectorId : Nat) : List UInt8 :=
  if ix.bucketIds.length ≤ vectorId then
    ix.bucketIds ++ List.replicate (max (vectorId * 3 / 2) 1024 - ix.bucketIds.length) 0
  else ix.bucketIds

/-- `insert` up to the merge. -/
def insertDelta (vectorId : Nat) (value : UInt32) : RangeAttrIndex :=
  { ix with
    store := ix.store.insert value vectorId
    deltaBytes := ix.deltaBytes + 2 * 4
    nVectors := max ix.nVectors (vectorId + 1)
    bucketIds := (ix.grown vectorId).set vectorId (ix.bucketFor value) }

/-- Whether the delta is due to be merged. -/
def mergeDue : Bool := max (4 * 1024 * 1024) (2 * 4 * ix.baseNVectors / 8) ≤ ix.deltaBytes

/-- `remap_approx`. -/
def remapApprox (idMap : IdMap) : List UInt8 :=
  idMap.remapLoop ix.bucketIds (List.replicate (idMap.newSize ix.bucketIds.length) 0)
    ix.bucketIds.length

/-- The pairs of the delta, by value. -/
def deltaData : List (UInt32 × Nat) :=
  (OrderedMap.entries ix.store.delta).map fun p => (ofNat p.1, p.2)

theorem deltaData_insertDelta (vectorId : Nat) (value : UInt32) :
    (ix.insertDelta vectorId value).deltaData.Perm ((value, vectorId) :: ix.deltaData) := by
  have hpush := (OrderedMap.push_spec value.toNat vectorId ix.store.keyed).2
  have hmap := hpush.map fun p => (ofNat p.1, p.2)
  rw [map_cons, UInt32.ofNat_toNat] at hmap
  exact hmap

/-- `data` of `do_merge` after `std::sort`. -/
def mergedData (idMap : IdMap) : List (UInt32 × Nat) :=
  ((ix.store.data ++ ix.deltaData).filterMap fun p =>
    (idMap.newId p.2).map fun new => (p.1, new)).insertionSort entryLe

/-- The loop that fills `histogram_` stays inside the sorted values. -/
def histogramInside (n : Nat) (data : List (UInt32 × Nat)) : Bool :=
  decide (∀ i < n, histogramStride n ∣ i → i < data.length)

/-- `do_merge`.  There is no step after a merge that miscounted: a file of another length than
`base_n_vectors_` is not read as it was written. -/
def doMerge (idMap : IdMap) : Option RangeAttrIndex :=
  let mergedSize := idMap.newSize ix.nVectors
  if ix.store.data.length = ix.baseNVectors ∧
      histogramInside mergedSize (ix.mergedData idMap) then
    some { ix with
      store := {
        data := ix.mergedData idMap
        sorted := pairwise_insertionSort entryLe _
        delta := []
        keyed := OrderedMap.keyed_nil }
      deltaBytes := 0
      nVectors := mergedSize
      baseNVectors := mergedSize
      bucketIds := ix.remapApprox idMap }
  else none

/-- `insert`. -/
def insert (vectorId : Nat) (value : UInt32) : Option RangeAttrIndex :=
  let ix' := ix.insertDelta vectorId value
  if ix'.mergeDue then ix'.doMerge .empty else some ix'

/-- `is_member_approx` for the query interval `[l, r)`; undefined outside `bucket_ids_`. -/
def isMemberApprox (targetId : Nat) (l r : UInt32) : Option Bool :=
  (ix.bucketIds[targetId]?).map fun bid =>
    ix.boundary bid.toNat < r && l < ix.boundary (bid.toNat + 1)

/-- A bucket covers a value. -/
def Covers (bid : UInt8) (v : UInt32) : Prop :=
  ix.boundary bid.toNat ≤ v ∧ v < ix.boundary (bid.toNat + 1)

/-- **The values that have a bucket.**  The value is not below the first boundary, and it is
below one of the last two; or no interval contains it. -/
def HasBucket (v : UInt32) : Prop :=
  v = uint32Max ∨ ix.boundary 0 ≤ v ∧
    (v < ix.boundary (kQuantizeBuckets - 1) ∨ v < ix.boundary kQuantizeBuckets)

end RangeAttrIndex

open RangeAttrIndex

/-! ## Runs -/

/-- The index, with the value of every vector that has one. -/
structure RangeStore where
  index : RangeAttrIndex
  value : Nat → Option UInt32

/-- A call of `insert` or of `merge`. -/
inductive Update where
  | insert (vectorId : Nat) (value : UInt32)
  | merge (idMap : IdMap)

namespace RangeStore

/-- One call. -/
def step (s : RangeStore) : Update → Option RangeStore
  | .insert vectorId value => (s.index.insert vectorId value).map fun ix =>
    ⟨ix, update s.value vectorId (some value)⟩
  | .merge idMap => (s.index.doMerge idMap).map fun ix => ⟨ix, idMap.rename s.value⟩

/-- After `save` of the values. -/
def saved (attrs : List UInt32) (h : attrs ≠ []) : RangeStore := ⟨.save attrs h, (attrs[·]?)⟩

/-- Every value lies between the boundaries of its bucket. -/
def Covered (s : RangeStore) : Prop :=
  ∀ id v, s.value id = some v → ∃ bid, s.index.bucketIds[id]? = some bid ∧ s.index.Covers bid v

/-- No vector is rejected by a query interval that contains its value. -/
def ApproxComplete (s : RangeStore) : Prop :=
  ∀ (id : Nat) (v l r : UInt32), s.value id = some v → l ≤ v → v < r →
    s.index.isMemberApprox id l r = some true

end RangeStore

/-! ## The bucket of an inserted value -/

/-- The search for the upper bound reaches the end only by way of the last but one element,
if the widths of the ranges that it then passes allow this. -/
theorem le_of_upperBoundLoop_eq {l : List Nat} {x : Nat} {widths : List Nat}
    (hw : ∀ w ∈ widths, 3 ≤ w ∧ w - w / 2 - 1 ∈ 1 :: widths) :
    ∀ (fuel first len : Nat), first + len = l.length → len ∈ widths →
      upperBoundLoop l x fuel first len = l.length → ∀ y, l[l.length - 2]? = some y → y ≤ x
  | 0, first, len, hend, hmem, hres, y, hy => by
    have := (hw len hmem).1
    simp only [upperBoundLoop] at hres
    omega
  | fuel + 1, first, len, hend, hmem, hres, y, hy => by
    obtain ⟨hthree, hnext⟩ := hw len hmem
    have hmid : first + len / 2 < l.length := by omega
    rw [upperBoundLoop, if_neg (by omega)] at hres
    simp only [getElem?_eq_getElem hmid] at hres
    split at hres
    · have := upperBoundLoop_le l x fuel first (len / 2)
      omega
    · next hge =>
      rcases mem_cons.mp hnext with hone | hnext
      · rw [show l.length - 2 = first + len / 2 by omega, getElem?_eq_getElem hmid] at hy
        exact some.inj hy ▸ not_lt.mp hge
      · exact le_of_upperBoundLoop_eq hw fuel _ _ (by omega) hnext hres y hy

namespace RangeAttrIndex
variable (ix : RangeAttrIndex) (v : UInt32)

theorem getElem?_boundary {b : Nat} (hb : b ≤ kQuantizeBuckets) :
    (ix.bucketBoundaries.map toNat)[b]? = some (ix.boundary b).toNat := by
  have hlt : b < ix.bucketBoundaries.length := by
    rw [ix.length_boundaries]
    omega
  rw [getElem?_map, boundary, getElem?_eq_getElem hlt, getD_eq_getElem _ _ hlt]
  rfl

theorem boundary_mono {a b : Nat} (hab : a ≤ b) (hb : b < kQuantizeBuckets) :
    (ix.boundary a).toNat ≤ (ix.boundary b).toNat := by
  have hsome : ∀ c < kQuantizeBuckets, ((ix.bucketBoundaries.take kQuantizeBuckets).map
      toNat)[c]? = some (ix.boundary c).toNat := by
    intro c hc
    rw [map_take, getElem?_take_of_lt hc]
    exact ix.getElem?_boundary hc.le
  rcases eq_or_lt_of_le hab with rfl | hlt
  · exact le_rfl
  · obtain ⟨ha', hea⟩ := List.getElem?_eq_some_iff.mp (hsome a (hlt.trans hb))
    obtain ⟨hb', heb⟩ := List.getElem?_eq_some_iff.mp (hsome b hb)
    rw [← hea, ← heb]
    exact pairwise_iff_getElem.mp ix.sorted_boundaries a b ha' hb' hlt

/-- The search goes to the end only if the last two boundaries are not above the value. -/
theorem boundary_le_of_end
    (h : upperBound (ix.bucketBoundaries.map toNat) v.toNat = kQuantizeBuckets + 1) :
    (ix.boundary (kQuantizeBuckets - 1)).toNat ≤ v.toNat := by
  have hlen : (ix.bucketBoundaries.map toNat).length = kQuantizeBuckets + 1 := by
    rw [length_map, ix.length_boundaries]
  have hwidths : ∀ w ∈ [257, 128, 63, 31, 15, 7, 3],
      3 ≤ w ∧ w - w / 2 - 1 ∈ 1 :: [257, 128, 63, 31, 15, 7, 3] := by decide
  refine le_of_upperBoundLoop_eq hwidths _ 0 _ (Nat.zero_add _) (by rw [hlen]; decide)
    (h.trans hlen.symm) _ ?_
  rw [hlen]
  exact ix.getElem?_boundary (by decide)

/-- **The bucket of an inserted value covers it** exactly if there is such a bucket. -/
theorem covers_bucketFor_iff (hmax : v ≠ uint32Max) :
    ix.Covers (ix.bucketFor v) v ↔ ix.HasBucket v := by
  have hcross := crossing_upperBound (ix.bucketBoundaries.map toNat) v.toNat
  have hlen : (ix.bucketBoundaries.map toNat).length = kQuantizeBuckets + 1 := by
    rw [length_map, ix.length_boundaries]
  have hk : kQuantizeBuckets = 256 := rfl
  have hle := hcross.le_length
  have hend := ix.boundary_le_of_end v
  rw [HasBucket, or_iff_right hmax, Covers, bucketFor]
  simp only [le_iff_toNat_le, lt_iff_toNat_lt]
  generalize upperBound (ix.bucketBoundaries.map toNat) v.toNat = k at *
  rw [hlen] at hle
  rcases Nat.eq_zero_or_pos k with rfl | hpos
  · -- below the first boundary
    have hfirst := hcross.atPos _ (ix.getElem?_boundary (zero_le _))
    have hzero : (UInt8.ofNat (min (if 0 = 0 then 0 else 0 - 1)
        (kQuantizeBuckets - 1))).toNat = 0 := rfl
    rw [hzero]
    constructor
    · omega
    · omega
  · have hbefore := hcross.before _ (by omega) (ix.getElem?_boundary (by omega))
    rw [if_neg (by omega), UInt8.toNat_ofNat', mod_eq_of_lt (by omega)]
    rcases eq_or_lt_of_le hle with rfl | hlt
    · -- beyond the last boundary
      rw [min_eq_right (by omega), show kQuantizeBuckets - 1 + 1 = kQuantizeBuckets from rfl]
      rw [Nat.add_sub_cancel] at hbefore
      constructor
      · omega
      · rintro ⟨-, h | h⟩ <;> omega
    · have hat := hcross.atPos _ (ix.getElem?_boundary (by omega))
      rw [Nat.min_eq_left (by omega), Nat.sub_add_cancel hpos]
      refine iff_of_true ⟨hbefore, hat⟩ ⟨?_, ?_⟩
      · exact (ix.boundary_mono (zero_le _) (by omega)).trans hbefore
      · rcases lt_or_ge k kQuantizeBuckets with hk' | hk'
        · exact .inl (hat.trans_le (ix.boundary_mono (by omega) (by omega)))
        · obtain rfl : k = kQuantizeBuckets := by omega
          exact .inr hat

/-! ## What the calls do to the buckets -/

variable {ix} {ix' : RangeAttrIndex} {v}

/-- `remap_approx` moves every bucket to the new id. -/
theorem getElem?_remapApprox {idMap : IdMap} {old new : Nat} {bid : UInt8}
    (hold : ix.bucketIds[old]? = some bid) (hnew : idMap.newId old = some new) :
    (ix.remapApprox idMap)[new]? = some bid := by
  have hlt : old < ix.bucketIds.length := (List.getElem?_eq_some_iff.mp hold).1
  apply IdMap.getElem?_remapLoop hlt hold hnew
  rw [length_replicate]
  exact IdMap.newId_lt hlt hnew

theorem doMerge_eq_some {idMap : IdMap} (h : ix.doMerge idMap = some ix') :
    ix'.bucketBoundaries = ix.bucketBoundaries ∧ ix'.bucketIds = ix.remapApprox idMap := by
  rw [doMerge] at h
  split at h
  · cases h
    exact ⟨rfl, rfl⟩
  · cases h

/-- `insert` gives the vector its bucket and leaves the others alone, merge or not. -/
theorem insert_eq_some {vectorId : Nat} (h : ix.insert vectorId v = some ix') :
    ix'.bucketBoundaries = ix.bucketBoundaries ∧ ix'.bucketIds[vectorId]? = some (ix.bucketFor v) ∧
      ∀ id bid, id ≠ vectorId → ix.bucketIds[id]? = some bid → ix'.bucketIds[id]? = some bid := by
  have hself : (ix.insertDelta vectorId v).bucketIds[vectorId]? = some (ix.bucketFor v) :=
    getElem?_set_self (by grind [grown])
  have hother : ∀ id bid, id ≠ vectorId → ix.bucketIds[id]? = some bid →
      (ix.insertDelta vectorId v).bucketIds[id]? = some bid := by
    intro id bid hne hid
    refine (getElem?_set_ne hne.symm).trans ?_
    rw [grown]
    split
    · rw [getElem?_append_left (List.getElem?_eq_some_iff.mp hid).1]
      exact hid
    · exact hid
  rw [insert] at h
  split at h
  · obtain ⟨hb, hids⟩ := doMerge_eq_some h
    have hkeep : ∀ {id bid}, (ix.insertDelta vectorId v).bucketIds[id]? = some bid →
        ix'.bucketIds[id]? = some bid := fun hid => by
      rw [hids]
      exact getElem?_remapApprox hid (IdMap.newId_of_isEmpty rfl _)
    exact ⟨hb, hkeep hself, fun id bid hne hid => hkeep (hother id bid hne hid)⟩
  · cases h
    exact ⟨rfl, hself, hother⟩

theorem covers_congr (h : ix'.bucketBoundaries = ix.bucketBoundaries) (bid : UInt8) :
    ix'.Covers bid v ↔ ix.Covers bid v := by
  rw [Covers, Covers, boundary, boundary, boundary, boundary, h]

theorem hasBucket_congr (h : ix'.bucketBoundaries = ix.bucketBoundaries) :
    ix'.HasBucket v ↔ ix.HasBucket v := by
  rw [HasBucket, HasBucket, boundary, boundary, boundary, boundary, boundary, boundary, h]

end RangeAttrIndex

/-! ## When no vector is rejected -/

namespace RangeStore
variable {s s' s₀ : RangeStore} {a : Update} {ops : List Update}

/-- Every value that some interval contains has a bucket that covers it. -/
def Placed (s : RangeStore) : Prop :=
  ∀ id v, s.value id = some v → v ≠ uint32Max →
    ∃ bid, s.index.bucketIds[id]? = some bid ∧ s.index.Covers bid v

theorem ne_uint32Max {v r : UInt32} (h : v < r) : v ≠ uint32Max := by
  rintro rfl
  have := r.toNat_lt
  rw [lt_iff_toNat_lt] at h
  simp only [uint32Max, reduceToNat] at h
  omega

theorem lt_succ_of_ne {v : UInt32} (h : v ≠ uint32Max) : v.toNat + 1 = (v + 1).toNat := by
  rw [Ne, ← UInt32.toNat_inj] at h
  have := v.toNat_lt
  rw [UInt32.toNat_add]
  simp only [uint32Max, reduceToNat] at h this ⊢
  omega

/-- A query of exactly one value tests whether the bucket covers it. -/
theorem approxComplete_iff_placed : s.ApproxComplete ↔ s.Placed := by
  constructor
  · intro h id v hv hmax
    have hsucc := lt_succ_of_ne hmax
    have hacc := h id v v (v + 1) hv (UInt32.le_refl v) (UInt32.lt_iff_toNat_lt.mpr (by omega))
    obtain ⟨bid, hbid, htest⟩ := map_eq_some_iff.mp hacc
    rw [Bool.and_eq_true, decide_eq_true_eq, decide_eq_true_eq] at htest
    refine ⟨bid, hbid, le_iff_toNat_le.mpr ?_, htest.2⟩
    have := lt_iff_toNat_lt.mp htest.1
    omega
  · intro h id v l r hv hl hr
    obtain ⟨bid, hbid, hlo, hhi⟩ := h id v hv (ne_uint32Max hr)
    rw [RangeAttrIndex.isMemberApprox, hbid, map_some, some.injEq,
      Bool.and_eq_true, decide_eq_true_eq, decide_eq_true_eq]
    exact ⟨UInt32.lt_of_le_of_lt hlo hr, UInt32.lt_of_le_of_lt hl hhi⟩

theorem step_boundaries (h : step s a = some s') :
    s'.index.bucketBoundaries = s.index.bucketBoundaries := by
  cases a with
  | insert vectorId value =>
    obtain ⟨ix, hix, rfl⟩ := map_eq_some_iff.mp h
    exact (insert_eq_some hix).1
  | merge idMap =>
    obtain ⟨ix, hix, rfl⟩ := map_eq_some_iff.mp h
    exact (doMerge_eq_some hix).1

/-- The condition of a call: an inserted value has a bucket. -/
def InsertsInside (s : RangeStore) (a : Update) : Prop :=
  ∀ id v, a = .insert id v → s.index.HasBucket v

/-- An insert of a value that has a bucket, and any merge, keep all values placed. -/
theorem Placed.step (h : s.Placed) (ha : s.InsertsInside a) (hs : RangeStore.step s a = some s') :
    s'.Placed := by
  intro id v hv hmax
  have hbound := step_boundaries hs
  simp only [covers_congr hbound]
  cases a with
  | insert vectorId value =>
    obtain ⟨ix, hix, rfl⟩ := map_eq_some_iff.mp hs
    obtain ⟨-, hself, hother⟩ := insert_eq_some hix
    by_cases hid : id = vectorId
    · subst hid
      obtain rfl : value = v := by simpa using hv
      exact ⟨_, hself, (covers_bucketFor_iff _ _ hmax).mpr (ha id value rfl)⟩
    · have hv : s.value id = some v := by simpa [hid] using hv
      obtain ⟨bid, hbid, hcov⟩ := h id v hv hmax
      exact ⟨bid, hother id bid hid hbid, hcov⟩
  | merge idMap =>
    obtain ⟨ix, hix, rfl⟩ := map_eq_some_iff.mp hs
    obtain ⟨old, hold, hv⟩ := IdMap.rename_eq_some_iff.mp hv
    obtain ⟨bid, hbid, hcov⟩ := h old v hv hmax
    refine ⟨bid, ?_, hcov⟩
    rw [(doMerge_eq_some hix).2]
    exact getElem?_remapApprox hbid hold

/-- Only a value with a bucket is placed by its insert. -/
theorem insertsInside_of_placed (h' : s'.Placed) (hs : step s a = some s') : s.InsertsInside a := by
  rintro id v rfl
  by_cases hmax : v = uint32Max
  · exact .inl hmax
  obtain ⟨ix, hix, rfl⟩ := map_eq_some_iff.mp hs
  obtain ⟨hbound, hself, -⟩ := insert_eq_some hix
  obtain ⟨bid, hbid, hcov⟩ := h' id v (update_self ..) hmax
  obtain rfl := some.inj (hself.symm.trans hbid)
  rwa [covers_congr hbound, covers_bucketFor_iff _ _ hmax] at hcov

theorem Covered.placed (h : s.Covered) : s.Placed := fun id v hv _ => h id v hv

/-- **When no vector is ever rejected.**  In a run that begins with every value between the
boundaries of its bucket, no vector is rejected by a query that its value satisfies, at any
moment, if and only if every inserted value has a bucket. -/
theorem approxComplete_run_iff (h₀ : s₀.Covered) (hrun : runSteps step s₀ ops = some s) :
    Always step s₀ ops ApproxComplete ↔ ∀ id v, .insert id v ∈ ops → s₀.index.HasBucket v := by
  have hbound : Always step s₀ ops fun t =>
      t.index.bucketBoundaries = s₀.index.bucketBoundaries :=
    always_of_step rfl fun t a t' ht hs => (step_boundaries hs).trans ht
  have hrule : Always step s₀ ops ApproxComplete ↔ EachStep step s₀ ops InsertsInside := by
    refine always_iff_eachStep hrun hbound (approxComplete_iff_placed.mpr h₀.placed) ?_
    intro t a t' _ ht hs
    rw [approxComplete_iff_placed] at ht ⊢
    exact ⟨fun h' => insertsInside_of_placed h' hs, fun ha => ht.step ha hs⟩
  rw [hrule]
  constructor
  · intro h id v hmem
    obtain ⟨l₁, l₂, rfl⟩ := append_of_mem hmem
    have hpre : l₁ ++ [.insert id v] <+: l₁ ++ .insert id v :: l₂ := ⟨l₂, by simp⟩
    have hpre' := (prefix_append l₁ [.insert id v]).trans hpre
    obtain ⟨t, ht⟩ := exists_runSteps_of_isPrefix hrun hpre'
    exact (hasBucket_congr (hbound l₁ t hpre' ht)).mp (h l₁ _ t hpre ht id v rfl)
  · rintro h pre a t hpre ht id v rfl
    have hpre' := (prefix_append pre [.insert id v]).trans hpre
    exact (hasBucket_congr (hbound pre t hpre' ht)).mpr (h id v (hpre.subset (by simp)))

/-! ## Saved values -/

/-- Values that the cuts separate lie between the boundaries of their buckets. -/
theorem covered_saved {attrs : List UInt32} (h : attrs ≠ []) (hcuts : CutsSeparate attrs)
    (hmax : uint32Max ∉ attrs) : (saved attrs h).Covered := by
  intro id v hv
  obtain ⟨i, hget⟩ := mem_iff_getElem?.mp (mem_sortedData.mpr hv)
  have hi : i < attrs.length := by
    have := (List.getElem?_eq_some_iff.mp hget).1
    simpa using this
  have hattr : sortedAttr (sortedData attrs) i = v := by simp [sortedAttr, hget]
  have hid : id < attrs.length := (List.getElem?_eq_some_iff.mp hv).1
  have hbid := bucketOf_le attrs.length i
  have hk : kQuantizeBuckets - 1 = 255 := rfl
  refine ⟨UInt8.ofNat (bucketOf attrs.length i), ?_, ?_, ?_⟩
  · have hrange : (range attrs.length)[id]? = some id := by simp [hid]
    simp only [saved, RangeAttrIndex.save, getElem?_map, hrange, map_some, bucketIds_save hget]
  · rw [UInt8.toNat_ofNat', mod_eq_of_lt (by omega), ← hattr]
    exact boundary_le hi
  · rw [UInt8.toNat_ofNat', mod_eq_of_lt (by omega), ← hattr]
    refine (lt_boundary_iff hi).mpr (hcuts i hi fun heq => hmax ?_)
    rw [← heq, hattr]
    exact mem_of_getElem? hv

/-- The values from `1` to `256`, one for each bucket. -/
def oneTo256 : List UInt32 := (List.range 256).map fun i => ofNat (i + 1)

theorem oneTo256_ne_nil : oneTo256 ≠ [] := by simp [oneTo256]

theorem sortedAttr_oneTo256 {i : Nat} (hi : i < 256) :
    (sortedAttr (sortedData oneTo256) i).toNat = i + 1 := by
  have hsorted : (sortedData oneTo256).map (·.1.toNat) = (range 256).map (· + 1) := by
    decide +kernel
  have hget := congrArg (·[i]?) hsorted
  simp only [getElem?_map, getElem?_range hi] at hget
  obtain ⟨p, hp, hval⟩ := map_eq_some_iff.mp hget
  rw [sortedAttr, getD_eq_getElem?_getD, hp]
  exact hval

theorem cutsSeparate_oneTo256 : CutsSeparate oneTo256 := by
  have hlen : oneTo256.length = 256 := by simp [oneTo256]
  have hk : kQuantizeBuckets = 256 := rfl
  simp only [CutsSeparate, hlen]
  intro i hi _
  have hb : bucketOf 256 i = i := by
    rw [bucketOf, hk]
    omega
  split
  · rw [hk, lt_iff_toNat_lt, sortedAttr_oneTo256 hi,
      sortedAttr_oneTo256 (by omega)]
    omega
  · intro heq
    have := sortedAttr_oneTo256 (i := 256 - 1) (by decide)
    rw [heq] at this
    exact absurd this (by decide)

theorem covered_oneTo256 : (saved oneTo256 oneTo256_ne_nil).Covered := by
  refine covered_saved _ cutsSeparate_oneTo256 fun hmem => ?_
  obtain ⟨i, hi, heq⟩ := mem_map.mp hmem
  have := congrArg toNat heq
  rw [toNat_ofNat'] at this
  have := mem_range.mp hi
  simp only [uint32Max, reduceToNat] at *
  omega

/-- **A vector that is rejected.**  Its value `0` is below all saved values; it gets the first
bucket, which begins at `1`. -/
theorem belowFirst_rejected : ∃ s, Reach step anyStep (saved oneTo256 oneTo256_ne_nil) s ∧
      (saved oneTo256 oneTo256_ne_nil).Covered ∧ s.value 256 = some 0 ∧
      s.index.isMemberApprox 256 0 1 = some false := by
  have hrun : ((runSteps step (saved oneTo256 oneTo256_ne_nil) [.insert 256 0]).map fun s =>
      (s.value 256, s.index.isMemberApprox 256 0 1)) = some (some 0, some false) := by
    decide +kernel
  obtain ⟨s, hs, hobs⟩ := map_eq_some_iff.mp hrun
  obtain ⟨hval, hrej⟩ := Prod.mk.inj hobs
  exact ⟨s, Reach.of_run hs, covered_oneTo256, hval, hrej⟩

/-- Two inserts between the boundaries, with a merge in between. -/
def insideRun : List Update := [.insert 256 7, .merge .empty, .insert 257 uint32Max]

theorem approxComplete_run_insideRun : ∃ s,
    runSteps step (saved oneTo256 oneTo256_ne_nil) insideRun = some s ∧
      (Always step (saved oneTo256 oneTo256_ne_nil) insideRun ApproxComplete ↔
        ∀ id v, .insert id v ∈ insideRun → (saved oneTo256 oneTo256_ne_nil).index.HasBucket v) := by
  have hrun : (runSteps step (saved oneTo256 oneTo256_ne_nil) insideRun).isSome = true := by
    decide +kernel
  obtain ⟨s, hs⟩ := Option.isSome_iff_exists.mp hrun
  exact ⟨s, hs, approxComplete_run_iff covered_oneTo256 hs⟩

end RangeStore
end RangeIndex
end PipeANN
