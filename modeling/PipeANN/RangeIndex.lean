import Mathlib.Data.List.Enum
import Mathlib.Data.List.Sort
import PipeANN.LastWrites
import Mathlib.Data.List.GetD

/-! # The sorted range index and its quantized buckets

`SortedRangeAttrIndex` (`attribute.h`) keeps one unsigned 32-bit value per vector.
`save` sorts the values and cuts the sorted order into `256` buckets of equal
depth; in memory it keeps the bucket of each vector and the first value of each
bucket.  `is_member_approx` accepts a vector for a query `[l, r)` when the range of
its bucket meets `[l, r)`, so that no vector that matches should be rejected.

The range of bucket `b` is taken to end before the first value of bucket `b + 1`.
That is not so when equal values lie on both sides of the cut, nor when rounding
puts the cut one position early, as it always does with fewer than `256` values;
and the end of the last bucket, one more than the largest value, wraps to `0`.
`approx_complete_iff` says exactly for which values no match is rejected.
-/
namespace PipeANN
open List UInt32
namespace RangeIndex

/-- `kQuantizeBuckets`. -/
def kQuantizeBuckets : Nat := 256

/-- `UINT32_MAX`. -/
def uint32Max : UInt32 := 4294967295

/-- The order of `std::pair<uint32_t, uint32_t>`: by value, then by id. -/
def entryLe (p q : UInt32 × Nat) : Prop := p.1 < q.1 ∨ p.1 = q.1 ∧ p.2 ≤ q.2

instance : DecidableRel entryLe := fun p q =>
  inferInstanceAs (Decidable (p.1 < q.1 ∨ p.1 = q.1 ∧ p.2 ≤ q.2))

/-- `data` of `save` after `std::sort`: the pairs of a value and its vector id. -/
def sortedData (attrs : List UInt32) : List (UInt32 × Nat) := attrs.zipIdx.insertionSort entryLe

/-- `sorted_attrs[i]`. -/
def sortedAttr (data : List (UInt32 × Nat)) (i : Nat) : UInt32 := (data.getD i (0, 0)).1

/-- The bucket of the sorted position `i` among `n`. -/
def bucketOf (n i : Nat) : Nat := min (i * kQuantizeBuckets / n) (kQuantizeBuckets - 1)

/-- `bucket_ids_`, by vector id, and `bucket_boundaries_`. -/
structure QuantizedBuckets where
  bucketIds : Nat → Nat
  bucketBoundaries : List UInt32

/-- `build_quantized_buckets`. -/
def buildQuantizedBuckets (data : List (UInt32 × Nat)) : QuantizedBuckets :=
  let n := data.length
  { bucketIds := data.zipIdx.foldl
      (fun f p => Function.update f p.1.2 (bucketOf n p.2)) (fun _ => 0)
    bucketBoundaries :=
      (List.range kQuantizeBuckets).map (fun b => sortedAttr data (b * n / kQuantizeBuckets)) ++
        [sortedAttr data (n - 1) + 1] }

/-- The quantized part of `save`. -/
def save (attrs : List UInt32) : QuantizedBuckets := buildQuantizedBuckets (sortedData attrs)

/-- `is_member_approx` for the query interval `[l, r)`. -/
def isMemberApprox (q : QuantizedBuckets) (targetId : Nat) (l r : UInt32) : Bool :=
  let bid := q.bucketIds targetId
  q.bucketBoundaries.getD bid 0 < r && l < q.bucketBoundaries.getD (bid + 1) 0

/-- No vector whose value is in the query interval is rejected. -/
def ApproxComplete (attrs : List UInt32) : Prop :=
  ∀ (id : Nat) (v l r : UInt32), attrs[id]? = some v → l ≤ v → v < r →
    isMemberApprox (save attrs) id l r = true

/-- A single value is rejected by the interval that holds exactly this value. -/
theorem not_approxComplete_singleton : ¬ ApproxComplete [5] := by
  intro h
  have := h 0 5 5 6 rfl (by decide) (by decide)
  exact absurd this (by decide)

/-! ## The sorted order -/

instance : Std.Total entryLe where
  total p q := by
    simp only [entryLe, UInt32.lt_iff_toNat_lt, ← UInt32.toNat_inj]
    omega

instance : IsTrans (UInt32 × Nat) entryLe where
  trans p q r := by
    simp only [entryLe, UInt32.lt_iff_toNat_lt, ← UInt32.toNat_inj]
    omega

@[simp] theorem length_sortedData (attrs : List UInt32) :
    (sortedData attrs).length = attrs.length := by
  simp [sortedData]

variable {attrs : List UInt32}

/-- Every vector has one position in the sorted order, with its value. -/
theorem mem_sortedData {v : UInt32} {id : Nat} :
    (v, id) ∈ sortedData attrs ↔ attrs[id]? = some v := by
  simp [sortedData, mem_zipIdx_iff_getElem?]

theorem nodup_ids_sortedData (attrs : List UInt32) : ((sortedData attrs).map Prod.snd).Nodup := by
  have hperm : ((sortedData attrs).map Prod.snd).Perm (attrs.zipIdx.map Prod.snd) :=
    (perm_insertionSort _ _).map _
  rw [hperm.nodup_iff, zipIdx_map_snd]
  exact nodup_range'

variable {i : Nat}

theorem sortedAttr_mono {j : Nat} (hij : i ≤ j) (hj : j < attrs.length) :
    sortedAttr (sortedData attrs) i ≤ sortedAttr (sortedData attrs) j := by
  rcases eq_or_lt_of_le hij with rfl | hlt
  · exact UInt32.le_refl _
  · have hj' : j < (sortedData attrs).length := by simpa using hj
    have hsorted := pairwise_insertionSort entryLe attrs.zipIdx
    have hle := pairwise_iff_getElem.mp hsorted i j (by exact hlt.trans hj') hj' hlt
    have hi' : i < (sortedData attrs).length := hlt.trans hj'
    simp only [sortedAttr, getD_eq_getElem _ _ hi', getD_eq_getElem _ _ hj']
    rcases hle with h | h
    · exact UInt32.le_of_lt h
    · exact UInt32.le_of_eq h.1

/-! ## The buckets of `save` -/

/-- The vector at a sorted position has the bucket of the position. -/
theorem bucketIds_save {id : Nat} {v : UInt32} (h : (sortedData attrs)[i]? = some (v, id)) :
    (save attrs).bucketIds id = bucketOf attrs.length i := by
  have hkeys : ((sortedData attrs).zipIdx.map (·.1.2)).Nodup := by
    have := nodup_ids_sortedData attrs
    rwa [← zipIdx_map_fst 0 (sortedData attrs), map_map] at this
  rw [save, buildQuantizedBuckets, length_sortedData]
  exact LastWrites.foldl_update_of_nodup _ hkeys (a := ((v, id), i)) (mem_zipIdx_iff_getElem?.mpr h)

/-- The first value of a bucket; after the last bucket, one more than the largest. -/
theorem boundary_save (attrs : List UInt32) {b : Nat} (hb : b ≤ kQuantizeBuckets) :
    (save attrs).bucketBoundaries.getD b 0 =
      if b < kQuantizeBuckets then
        sortedAttr (sortedData attrs) (b * attrs.length / kQuantizeBuckets)
      else sortedAttr (sortedData attrs) (attrs.length - 1) + 1 := by
  simp only [save, buildQuantizedBuckets]
  split
  · rename_i h
    rw [getD_append _ _ _ _ (by simpa using h)]
    simp [h]
  · obtain rfl : b = kQuantizeBuckets := by omega
    simp

theorem bucketOf_le (n i : Nat) : bucketOf n i ≤ kQuantizeBuckets - 1 := min_le_right _ _

/-- A bucket starts at or before each of its positions. -/
theorem bucket_start_le (n i : Nat) : bucketOf n i * n / kQuantizeBuckets ≤ i := by
  have h1 : bucketOf n i * n ≤ i * kQuantizeBuckets :=
    (Nat.mul_le_mul_right n (min_le_left _ _)).trans (Nat.div_mul_le_self _ _)
  exact (Nat.div_le_div_right h1).trans (Nat.mul_div_cancel i (by decide)).le

/-- The boundary below a bucket is at most each of its values. -/
theorem boundary_le (hi : i < attrs.length) :
    (save attrs).bucketBoundaries.getD (bucketOf attrs.length i) 0 ≤
      sortedAttr (sortedData attrs) i := by
  have hb := bucketOf_le attrs.length i
  have hk : kQuantizeBuckets - 1 < kQuantizeBuckets := by decide
  rw [boundary_save attrs (by omega), if_pos (by omega)]
  exact sortedAttr_mono (bucket_start_le _ i) hi

/-- **The values for which the buckets are sound.**  In the sorted order, every
value other than `UINT32_MAX` is smaller than the value at the cut that follows its
bucket; and such a value is in the last bucket only if `UINT32_MAX` does not occur. -/
def CutsSeparate (attrs : List UInt32) : Prop :=
  let data := sortedData attrs
  let n := attrs.length
  ∀ i < n, sortedAttr data i ≠ uint32Max →
    if bucketOf n i < kQuantizeBuckets - 1 then
      sortedAttr data i < sortedAttr data ((bucketOf n i + 1) * n / kQuantizeBuckets)
    else sortedAttr data (n - 1) ≠ uint32Max

/-- The end of a bucket's range lies above one of its values exactly when the cut
separates it. -/
theorem lt_boundary_iff (hi : i < attrs.length) : sortedAttr (sortedData attrs) i <
        (save attrs).bucketBoundaries.getD (bucketOf attrs.length i + 1) 0 ↔
      if bucketOf attrs.length i < kQuantizeBuckets - 1 then
        sortedAttr (sortedData attrs) i <
          sortedAttr (sortedData attrs)
            ((bucketOf attrs.length i + 1) * attrs.length / kQuantizeBuckets)
      else sortedAttr (sortedData attrs) (attrs.length - 1) ≠ uint32Max := by
  have hle := bucketOf_le attrs.length i
  have hk : kQuantizeBuckets - 1 = 255 ∧ kQuantizeBuckets = 256 := ⟨rfl, rfl⟩
  rw [boundary_save attrs (by omega)]
  by_cases hb : bucketOf attrs.length i < kQuantizeBuckets - 1
  · rw [if_pos (by omega), if_pos hb]
  · rw [if_neg (by omega), if_neg hb]
    have hmono := sortedAttr_mono (i := i) (by omega)
      (show attrs.length - 1 < attrs.length by omega)
    generalize sortedAttr (sortedData attrs) (attrs.length - 1) = w at hmono
    rw [le_iff_toNat_le] at hmono
    have hw := w.toNat_lt
    rw [UInt32.lt_iff_toNat_lt, UInt32.toNat_add, Ne, ← UInt32.toNat_inj]
    simp only [uint32Max, reduceToNat] at hw ⊢
    omega

/-- **When `is_member_approx` is complete.**  For any values, no vector whose value
is in the query interval is rejected if and only if the bucket cuts separate them. -/
theorem approx_complete_iff (attrs : List UInt32) : ApproxComplete attrs ↔ CutsSeparate attrs := by
  constructor
  · intro h i hi hmax
    have hi' : i < (sortedData attrs).length := by simpa using hi
    obtain ⟨⟨v, id⟩, hget⟩ : ∃ p, (sortedData attrs)[i]? = some p :=
      ⟨_, getElem?_eq_getElem hi'⟩
    have hattr : sortedAttr (sortedData attrs) i = v := by simp [sortedAttr, hget]
    have hval : attrs[id]? = some v := mem_sortedData.mp (mem_of_getElem? hget)
    -- the query that holds exactly this value
    have hlt : v < v + 1 := by
      rw [hattr, Ne, ← UInt32.toNat_inj] at hmax
      have := v.toNat_lt
      rw [UInt32.lt_iff_toNat_lt, UInt32.toNat_add]
      simp only [uint32Max, reduceToNat] at hmax this ⊢
      omega
    have hacc := h id v v (v + 1) hval (UInt32.le_refl v) hlt
    simp only [isMemberApprox, bucketIds_save hget, Bool.and_eq_true, decide_eq_true_eq] at hacc
    exact (lt_boundary_iff hi).mp (hattr ▸ hacc.2)
  · intro h id v l r hval hl hr
    obtain ⟨i, hget⟩ := mem_iff_getElem?.mp (mem_sortedData.mpr hval)
    have hi : i < attrs.length := by
      have := (List.getElem?_eq_some_iff.mp hget).1
      simpa using this
    have hattr : sortedAttr (sortedData attrs) i = v := by simp [sortedAttr, hget]
    have hmax : v ≠ uint32Max := by
      rintro rfl
      have := r.toNat_lt
      rw [lt_iff_toNat_lt] at hr
      simp only [uint32Max, reduceToNat] at hr
      omega
    simp only [isMemberApprox, bucketIds_save hget, Bool.and_eq_true, decide_eq_true_eq]
    constructor
    · exact UInt32.lt_of_le_of_lt (hattr ▸ boundary_le hi) hr
    · have hsep := (lt_boundary_iff hi).mpr (h i hi (hattr ▸ hmax))
      exact UInt32.lt_of_le_of_lt hl (hattr ▸ hsep)

end RangeIndex
end PipeANN
