import PipeANN.DiskLayout
import PipeANN.OrderedMaps
import PipeANN.RangeIndex
import PipeANN.SortedLists

/-! # The lists of the range index

`pre_filter` of `SortedRangeAttrIndex` (`attribute.h`) answers an interval `[l, r)`.  The
file has the values in ascending order and, in a second block, the ids in the same order;
`histogram_` keeps every `stride`-th value in memory.  A search among these samples gives
the part of the file that is read, a search in what was read gives the exact ends, and the
matching part of the delta is added before the ids are sorted.

The ends of the part that is read are found independently of each other.  If `l > r`, as for
`BETWEEN 7 AND 4`, the part may end before it begins: the number of elements wraps around.
Or it is read, and the vector of the ids is constructed from two pointers in the wrong
order.  `preFilter_eq_iff` says exactly for which intervals the answer is the ascending list
of the matching ids.

Positions in the file are counted in elements.  The blocks are read in whole sectors, into
buffers of that size; a read that goes past the end of the file returns what there is.
-/
namespace PipeANN
open List Nat UInt32 OrderedMap
namespace RangeIndex

open SortedLists

/-- `kHistogramBuckets`. -/
def kHistogramBuckets : Nat := 1000

/-- The stride of the histogram for `n` values: whole sectors of values, and at least one
value. -/
def histogramStride (n : Nat) : Nat := max 1 (roundUp (n / kHistogramBuckets) (sectorLen / 4))

theorem histogramStride_pos (n : Nat) : 0 < histogramStride n := Nat.le_max_left ..

/-- The index after `save` and `load_approx`, with the inserts that followed. -/
structure Store where
  /-- The two blocks of the file: values with their ids, by value. -/
  data : List (UInt32 × Nat)
  sorted : data.Pairwise entryLe
  /-- `delta_`: the ids of each value, by value. -/
  delta : List (Nat × List Nat)
  keyed : Keyed delta

namespace Store
variable (s : Store)

/-- `save` of the values of all vectors. -/
def save (attrs : List UInt32) : Store where
  data := sortedData attrs
  sorted := pairwise_insertionSort entryLe _
  delta := []
  keyed := List.Pairwise.nil

/-- `insert`, as long as the delta is not merged. -/
def insert (value : UInt32) (vectorId : Nat) : Store :=
  { s with
    delta := push value.toNat vectorId s.delta
    keyed := (push_spec value.toNat vectorId s.keyed).1 }

/-- The values in the file. -/
def values : List Nat := s.data.map (·.1.toNat)

/-- `stride`. -/
def stride : Nat := histogramStride s.data.length

/-- `histogram_`. -/
def histogram : List Nat := samples s.stride s.values

/-- `get_range`. -/
def getRange (l r : UInt32) : Nat × Nat :=
  let it1 := lowerBound s.histogram l.toNat
  let it1 := if it1 ≠ 0 then it1 - 1 else it1
  (it1, lowerBound s.histogram r.toNat)

/-- The ids of the delta, from `delta_.lower_bound(l)` on and while the value is below `r`. -/
def deltaIds (l r : UInt32) : List Nat :=
  (range (some l.toNat) (some r.toNat) s.delta).flatMap Prod.snd

/-- What `pre_filter` returns when it reads the positions from `idxL` to `idxR`.  It is
undefined where `n_elems` wraps around, and throws where the vector of the ids would have a
negative length. -/
def readSegment (l r : UInt32) (idxL idxR : Nat) : Option (List Nat) :=
  if idxR < idxL then none
  else
    let attrBuf := (s.values.take idxR).drop idxL
    let idBuf := ((s.data.map Prod.snd).take idxR).drop idxL
    let startIdx := lowerBound attrBuf l.toNat
    let endIdx := lowerBound attrBuf r.toNat
    if endIdx < startIdx then none
    else
      let result := (idBuf.take endIdx).drop startIdx ++ s.deltaIds l r
      some (result.insertionSort (· ≤ ·))

/-- `pre_filter` for the interval `[l, r)`. -/
def preFilter (l r : UInt32) : Option (List Nat) :=
  let (it1, it2) := s.getRange l r
  s.readSegment l r (it1 * s.stride) (min (it2 * s.stride) s.data.length)

end Store

/-- A value in the interval. -/
def inInterval (l r : UInt32) (p : UInt32 × Nat) : Bool := l ≤ p.1 && p.1 < r

/-- The ascending list of the ids whose value is in the interval. -/
def matchingIds (l r : UInt32) (entries : List (UInt32 × Nat)) : List Nat :=
  ((entries.filter (inInterval l r)).map Prod.snd).insertionSort (· ≤ ·)

variable (attrs : List UInt32) (inserts : List (UInt32 × Nat))

/-- The store after the saved values and the inserts of `(value, id)`. -/
def storeOf : Store :=
  inserts.foldl (fun s p => s.insert p.1 p.2) (.save attrs)

/-- **The intervals that are answered.**  The ends are in order; or there is no value
between them; or there is exactly one sample between them, in which case nothing is read. -/
def Answered (s : Store) (l r : UInt32) : Prop :=
  l ≤ r ∨ (∀ p ∈ s.data, ¬ (r ≤ p.1 ∧ p.1 < l)) ∨
    lowerBound s.histogram l.toNat = lowerBound s.histogram r.toNat + 1

/-! ## The delta -/

theorem storeOf_spec : (storeOf attrs inserts).data = sortedData attrs ∧
      (entries (storeOf attrs inserts).delta).Perm
        (inserts.map fun p => (p.1.toNat, p.2)) := by
  induction inserts using reverseRecOn with
  | nil => exact ⟨rfl, Perm.refl _⟩
  | append_singleton inserts p ih =>
    obtain ⟨hdata, hperm⟩ := ih
    rw [storeOf, foldl_append, map_append]
    refine ⟨hdata, ((push_spec p.1.toNat p.2 (Store.keyed _)).2).trans ?_⟩
    exact (hperm.cons _).trans (perm_append_singleton _ _).symm

theorem deltaIds_perm (l r : UInt32) : ((storeOf attrs inserts).deltaIds l r).Perm
      ((inserts.filter (inInterval l r)).map Prod.snd) := by
  obtain ⟨-, hperm⟩ := storeOf_spec attrs inserts
  rw [Store.deltaIds, values_range _ _ (Store.keyed _)]
  apply ((hperm.filter _).map _).trans
  rw [filter_map, map_map]
  exact Perm.of_eq rfl

/-! ## The file -/

namespace Store
variable (s : Store) {l r : UInt32}

theorem values_sorted : s.values.Pairwise (· ≤ ·) := by
  apply Pairwise.map _ _ s.sorted
  intro p q h
  rcases h with hlt | ⟨heq, -⟩
  · exact UInt32.le_iff_toNat_le.mp (UInt32.le_of_lt hlt)
  · exact le_of_eq (congrArg toNat heq)

theorem length_values : s.values.length = s.data.length := length_map _

/-- The ids of the interval stand between the lower bounds of its ends. -/
theorem filter_eq_segment (l r : UInt32) : (s.data.filter (inInterval l r)).map Prod.snd =
      ((s.data.map Prod.snd).take (lowerBound s.values r.toNat)).drop
        (lowerBound s.values l.toNat) := by
  rw [← map_take, ← map_drop, filter_eq_drop_take]
  intro i p hi
  have hvalue : s.values[i]? = some p.1.toNat := by
    rw [values, getElem?_map, hi]
    rfl
  rw [lt_lowerBound_iff between_le s.values_sorted hvalue, ← not_lt,
    lt_lowerBound_iff between_le s.values_sorted hvalue, not_lt, inInterval, Bool.and_eq_true,
    decide_eq_true_eq, decide_eq_true_eq, le_iff_toNat_le, lt_iff_toNat_lt]

/-- No value is between `r` and `l` exactly if the two have the same lower bound. -/
theorem lowerBound_eq_iff (hlr : r ≤ l) :
    lowerBound s.values l.toNat = lowerBound s.values r.toNat ↔
      ∀ p ∈ s.data, ¬ (r ≤ p.1 ∧ p.1 < l) := by
  have hsegment := filter_eq_segment s r l
  have hle := lowerBound_mono between_le s.values_sorted (le_iff_toNat_le.mp hlr)
  have hlen := lowerBound_le s.values l.toNat
  rw [length_values] at hlen
  have hempty : (s.data.filter (inInterval r l)) = [] ↔
      lowerBound s.values l.toNat = lowerBound s.values r.toNat := by
    rw [← map_eq_nil_iff, hsegment, drop_eq_nil_iff, length_take, length_map]
    omega
  rw [← hempty]
  simp [inInterval]

/-- The lower bounds among the samples and in the file. -/
theorem lowerBound_histogram (x : Nat) :
    lowerBound s.values x ≤ lowerBound s.histogram x * s.stride ∧ (lowerBound s.histogram x = 0 ∨
        (lowerBound s.histogram x - 1) * s.stride < lowerBound s.values x) :=
  lowerBound_samples between_le (histogramStride_pos s.data.length) s.values_sorted x

theorem idxL_le (l : UInt32) :
    (lowerBound s.histogram l.toNat - 1) * s.stride ≤ lowerBound s.values l.toNat := by
  rcases (s.lowerBound_histogram l.toNat).2 with h0 | hlt
  · rw [h0, Nat.zero_mul]
    exact zero_le _
  · exact hlt.le

theorem le_idxR (r : UInt32) : lowerBound s.values r.toNat ≤
      min (lowerBound s.histogram r.toNat * s.stride) s.data.length := by
  apply Nat.le_min.mpr
  refine ⟨(s.lowerBound_histogram r.toNat).1, ?_⟩
  rw [← s.length_values]
  exact lowerBound_le s.values r.toNat

theorem getRange_eq (l r : UInt32) :
    s.getRange l r = (lowerBound s.histogram l.toNat - 1, lowerBound s.histogram r.toNat) := by
  apply Prod.ext
  · show (if lowerBound s.histogram l.toNat ≠ 0 then lowerBound s.histogram l.toNat - 1
      else lowerBound s.histogram l.toNat) = _
    split
    · rfl
    · omega
  · rfl

/-- What is read and returned, by the lower bounds in the whole file. -/
theorem readSegment_eq (l r : UInt32) {idxL idxR : Nat} (hlen : idxR ≤ s.data.length)
    (hb : lowerBound s.values r.toNat ≤ idxR) :
    s.readSegment l r idxL idxR =
      if idxR < idxL ∨ lowerBound s.values r.toNat - idxL <
          min (lowerBound s.values l.toNat) idxR - idxL then none
      else some ((((((s.data.map Prod.snd).take idxR).drop idxL).take
          (lowerBound s.values r.toNat - idxL)).drop
          (min (lowerBound s.values l.toNat) idxR - idxL) ++
            s.deltaIds l r).insertionSort (· ≤ ·)) := by
  rw [readSegment]
  by_cases hwrap : idxR < idxL
  · rw [if_pos hwrap, if_pos (.inl hwrap)]
  · have hsegment : ∀ x : Nat, lowerBound ((s.values.take idxR).drop idxL) x =
        min (lowerBound s.values x) idxR - idxL := by
      intro x
      apply lowerBound_segment between_le s.values_sorted x (not_lt.mp hwrap)
      rwa [s.length_values]
    have hend := hsegment r.toNat
    rw [min_eq_left hb] at hend
    dsimp only
    rw [if_neg hwrap, hend, hsegment l.toNat]
    simp only [hwrap, false_or]

/-- Ends in order are answered. -/
theorem preFilter_of_le (hlr : l ≤ r) :
    s.preFilter l r = some (((s.data.filter (inInterval l r)).map Prod.snd ++
      s.deltaIds l r).insertionSort (· ≤ ·)) := by
  have hab := lowerBound_mono between_le s.values_sorted (le_iff_toNat_le.mp hlr)
  have ha := s.idxL_le l
  have hb := s.le_idxR r
  rw [preFilter, getRange_eq]
  dsimp only
  rw [s.readSegment_eq l r (min_le_right ..) hb, if_neg (by omega), filter_eq_segment,
    take_drop, drop_drop, take_take]
  congr 5
  · omega
  · omega

/-- Ends in the wrong order: the answer is there exactly if they have the same lower bound
in the file, or exactly one sample between them. -/
theorem preFilter_of_gt (hlr : r < l) : s.preFilter l r =
      if lowerBound s.values l.toNat = lowerBound s.values r.toNat ∨
          lowerBound s.histogram l.toNat = lowerBound s.histogram r.toNat + 1 then
        some ((s.deltaIds l r).insertionSort (· ≤ ·))
      else none := by
  have hrl := UInt32.le_iff_toNat_le.mp (UInt32.le_of_lt hlr)
  have hba := lowerBound_mono between_le s.values_sorted hrl
  have hBA : lowerBound s.histogram r.toNat ≤ lowerBound s.histogram l.toNat :=
    lowerBound_mono between_le
      (pairwise_samples between_le (histogramStride_pos s.data.length) s.values_sorted) hrl
  have ha := s.lowerBound_histogram l.toNat
  have hb := s.lowerBound_histogram r.toNat
  have hlen : lowerBound s.values l.toNat ≤ s.data.length := by
    rw [← s.length_values]
    exact lowerBound_le ..
  rw [preFilter, getRange_eq]
  dsimp only
  rw [s.readSegment_eq l r (min_le_right ..) (s.le_idxR r)]
  have hst : 0 < s.stride := histogramStride_pos _
  -- the same four positions decide both sides
  generalize lowerBound s.values l.toNat = a at *
  generalize lowerBound s.values r.toNat = b at *
  generalize lowerBound s.histogram r.toNat = B at *
  obtain ⟨k, hk⟩ := Nat.exists_eq_add_of_le hBA
  rw [hk] at ha ⊢
  match k with
  | 0 =>
    rw [Nat.add_zero] at ha ⊢
    by_cases hab : a = b
    · subst hab
      have hfirst : (B - 1) * s.stride ≤ a := by
        rcases ha.2 with rfl | hlt
        · rw [Nat.zero_mul]
          exact zero_le a
        · exact hlt.le
      rw [if_neg (by omega), if_pos (.inl rfl), drop_eq_nil_of_le]
      · rfl
      · rw [length_take]
        omega
    · have hB : B ≠ 0 := by
        rintro rfl
        omega
      rw [if_pos (by omega), if_neg (by omega)]
  | 1 =>
    -- the part to read is empty
    have hfirst : B * s.stride < a := ha.2.resolve_left (succ_ne_zero B)
    have hlast : min (B * s.stride) s.data.length = B * s.stride := min_eq_left (by omega)
    rw [Nat.add_sub_cancel, hlast, if_neg (by omega), if_pos (.inr rfl), drop_take_self,
      take_nil, drop_nil]
    rfl
  | k + 2 =>
    -- it ends before it begins
    have hfirst : (B + (k + 1)) * s.stride < a := ha.2.resolve_left (by omega)
    have hpast : B * s.stride < (B + (k + 1)) * s.stride :=
      Nat.mul_lt_mul_of_pos_right (by omega) hst
    have hsub : B + (k + 2) - 1 = B + (k + 1) := by omega
    rw [hsub, if_pos (by omega), if_neg (by omega)]

end Store

theorem filter_eq_nil_of_gt {l r : UInt32} (hlr : r < l) (entries : List (UInt32 × Nat)) :
    entries.filter (inInterval l r) = [] := by
  rw [filter_eq_nil_iff]
  simp only [inInterval, Bool.and_eq_true, decide_eq_true_eq, le_iff_toNat_le,
    lt_iff_toNat_lt] at hlr ⊢
  omega

/-- **The answers of the range index.**  For every set of saved values, every sequence of
later inserts and every interval, `pre_filter` returns the ascending list of the ids whose
value is in the interval exactly if the interval is answered; otherwise it returns nothing. -/
theorem preFilter_eq_iff (l r : UInt32) :
    (storeOf attrs inserts).preFilter l r = some (matchingIds l r (attrs.zipIdx ++ inserts)) ↔
      Answered (storeOf attrs inserts) l r := by
  obtain ⟨hdata, -⟩ := storeOf_spec attrs inserts
  have hdelta := deltaIds_perm attrs inserts l r
  by_cases hlr : l ≤ r
  · rw [Store.preFilter_of_le _ hlr, hdata]
    refine iff_of_true (congrArg some (insertionSort_congr ?_)) (.inl hlr)
    rw [filter_append, map_append]
    apply Perm.append _ hdelta
    exact ((perm_insertionSort _ _).filter _).map _
  · have hgt : r < l := UInt32.not_le.mp hlr
    have hempty : (storeOf attrs inserts).deltaIds l r = [] := by
      apply Perm.eq_nil
      rwa [filter_eq_nil_of_gt hgt] at hdelta
    rw [Store.preFilter_of_gt _ hgt, matchingIds, filter_eq_nil_of_gt hgt, hempty, Answered,
      ← Store.lowerBound_eq_iff _ (UInt32.le_of_lt hgt)]
    split
    · next h => exact iff_of_true rfl (.inr h)
    · next h =>
      apply iff_of_false _ (not_or.mpr ⟨hlr, h⟩)
      intro hnone
      cases hnone

/-- `BETWEEN 7 AND 4` on the values 5 and 6: the part to read would begin at position 1 and
end at position 0. -/
theorem preFilter_reversed :
    (storeOf [5, 6] []).preFilter 7 5 = none ∧ matchingIds 7 5 ([5, 6].zipIdx ++ []) = [] := by
  decide +kernel

end RangeIndex
end PipeANN
