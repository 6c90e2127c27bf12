import Mathlib.Order.Nat
import Mathlib.Algebra.Group.Nat.Defs
import PipeANN.BloomFilter
import PipeANN.GuardedRuns
import PipeANN.SortedLists
import Mathlib.Data.List.GetD

/-! # The label index

`InvertedLabelAttrIndex` (`attribute.h`) answers which vectors carry a label.  On
disk it has one list of vector ids for each label; inserts go to an in-memory delta,
which `do_merge` folds into the lists once it is large.  A label with fewer than
`kApproxFilterThreshold` vectors on disk is *cold*: a query reads its list.  For a
*hot* label the test `is_member_approx` asks the vector's Bloom filter instead.

`is_member_approx` must accept every vector whose labels satisfy the query.  It may
fail to: `outOfOrder_rejected` has two inserts with descending ids, after which the
delta list of the label is not ascending and binary search misses a vector.  Another
reason is a merge that makes a cold label hot: `save` adds only hot labels to the
filters of the saved vectors, and `do_merge` does not catch up.  `approx_complete`
states that nothing else goes wrong: in a run without these events no matching vector
is ever rejected.

The disk layout of the lists (`save_inverted`) is left out, only their contents
matter: `labelLoc` holds for every label the ids in the file range `label_loc_` gives.
Ids, labels and offsets are 32-bit where the source has 32-bit arithmetic.  Access
outside an array is undefined behaviour in the source; the model has no step then.
-/
namespace PipeANN

open SortedLists

/-- `kApproxFilterThreshold`. -/
def kApproxFilterThreshold : Nat := 65536

/-- An `InvertedLabelAttrIndex` after `save()`. -/
structure LabelIndex where
  /-- `bloom_bytes_per_point_`; a filter without bytes divides by zero. -/
  bloomBytesPerPoint : Nat
  bloomBytesPerPoint_pos : 0 < bloomBytesPerPoint
  /-- The ids on disk of every label below `label_loc_.size()`. -/
  labelLoc : List (List Nat)
  /-- `delta_`, as the log of the ids pushed to the labels. -/
  delta : List (UInt32 × Nat)
  deltaBytes : Nat
  nVectors : Nat
  baseNVectors : Nat
  /-- `bloom_filters_.size()`. -/
  bloomSize : Nat
  /-- The bits of `bloom_filters_`. -/
  bloomFilters : Nat → Bool

/-- `std::vector::resize`, with new elements empty. -/
def resizeLists (lists : List (List Nat)) (n : Nat) : List (List Nat) :=
  lists.take n ++ List.replicate (n - lists.length) []

/-- `vector_ids[label].push_back(id)`. -/
def pushId (lists : List (List Nat)) (label : UInt32) (id : Nat) : List (List Nat) :=
  lists.modify label.toNat (· ++ [id])

namespace LabelIndex

/-- The byte offset of a vector's filter, computed in 32 bits. -/
def bloomOffset (bytes vectorId : Nat) : Nat := vectorId * bytes % 2 ^ 32

/-! ## Building -/

/-- `max_label_id` of the rows. -/
def maxLabelId (rows : List (List UInt32)) : UInt32 :=
  rows.flatten.foldl (fun m l => if m < l then l else m) 0

/-- The loop of `save()` that fills `vector_ids`. -/
def collectIds (nLabels : Nat) (rows : List (List UInt32)) : List (List Nat) :=
  rows.zipIdx.foldl (fun lists p => p.1.foldl (fun lists l => pushId lists l p.2) lists)
    (List.replicate nLabels [])

/-- The loop of `save()` that adds hot labels to the filters of their vectors. -/
def saveFilters (bytes : Nat) (lists : List (List Nat)) : Nat → Bool :=
  lists.zipIdx.foldl (fun data p =>
    if p.1.length < kApproxFilterThreshold then data
    else p.1.foldl (fun data id =>
      BloomFilter.add bytes (bloomOffset bytes id) (UInt32.ofNat p.2) data) data) fun _ => false

/-- `save()` of the label rows of all vectors.  `vector_ids` has `max_label_id + 1`
elements, computed in 32 bits, so it is too short if the label `UINT32_MAX` occurs. -/
def save (bytes : Nat) (hbytes : 0 < bytes) (rows : List (List UInt32)) : Option LabelIndex :=
  let nLabels := (maxLabelId rows + 1).toNat
  let vectorIds := collectIds nLabels rows
  if rows.flatten.all (fun l => l.toNat < nLabels) then
    some {
      bloomBytesPerPoint := bytes
      bloomBytesPerPoint_pos := hbytes
      labelLoc := vectorIds
      delta := []
      deltaBytes := 0
      nVectors := rows.length
      baseNVectors := rows.length
      bloomSize := rows.length * bytes
      bloomFilters := saveFilters bytes vectorIds }
  else none

/-! ## Merging the delta -/

variable (ix : LabelIndex)

variable (label : UInt32)

/-- The ids of a label in the delta. -/
def deltaOf : List Nat := (ix.delta.filter (·.1 = label)).map (·.2)

variable (idMap : List (Nat × Nat))

/-- The new id of an id; an empty map stands for the identity. -/
def newId (oldId : Nat) : Option Nat :=
  if idMap.isEmpty then some oldId else idMap.lookup oldId

/-- The loop of `remap_approx`: copies the filters of the vectors below `oldN`. -/
def remapFilters (oldN : Nat) : Nat → Bool :=
  let bytes := ix.bloomBytesPerPoint
  (List.range oldN).foldl (fun remapped oldId =>
    match newId idMap oldId with
    | none => remapped
    | some id => fun b =>
      if 8 * bloomOffset bytes id ≤ b ∧ b < 8 * (bloomOffset bytes id + bytes) then
        ix.bloomFilters (8 * bloomOffset bytes oldId + (b - 8 * bloomOffset bytes id))
      else remapped b) fun _ => false

/-- `remap_approx`. -/
def remapApprox : LabelIndex :=
  let newN := if idMap.isEmpty then ix.nVectors else idMap.length
  { ix with
    bloomSize := newN * ix.bloomBytesPerPoint
    bloomFilters := ix.remapFilters idMap (min (ix.bloomSize / ix.bloomBytesPerPoint) ix.nVectors) }

/-- One push of the delta in `do_merge`. -/
def mergeDelta (lists : List (List Nat)) (p : UInt32 × Nat) :
    Option (List (List Nat)) :=
  let lists := if lists.length ≤ p.1.toNat then resizeLists lists (p.1 + 1).toNat else lists
  if p.1.toNat < lists.length then
    some (match newId idMap p.2 with
      | some id => pushId lists p.1 id
      | none => lists)
  else none

/-- `do_merge`. -/
def doMerge : Option LabelIndex := do
  let mergedSize := if idMap.isEmpty then ix.nVectors else idMap.length
  let base := ix.labelLoc.map (·.filterMap (newId idMap))
  let vectorIds ← ix.delta.foldlM (mergeDelta idMap) base
  some {
    LabelIndex.remapApprox { ix with nVectors := mergedSize } idMap with
    labelLoc := vectorIds.map sortUnique
    baseNVectors := mergedSize
    delta := []
    deltaBytes := 0 }

/-! ## Inserting -/

/-- One label of a vector is put in the delta. -/
def insertLabel (vectorId : Nat) (label : UInt32) : LabelIndex :=
  { ix with
    labelLoc :=
      if ix.labelLoc.length ≤ label.toNat then resizeLists ix.labelLoc (label + 1).toNat
      else ix.labelLoc
    delta := ix.delta ++ [(label, vectorId)]
    deltaBytes := ix.deltaBytes + 2 * 4 }

variable (vectorId : Nat) (attr : List UInt32)

/-- The loop of `insert` that puts a vector's labels in the delta. -/
def insertLabels : LabelIndex :=
  attr.foldl (fun ix label => ix.insertLabel vectorId label) ix

/-- The size of `bloom_filters_` when `insert` writes a vector's filter. -/
def grownSize (vectorId : Nat) : Nat :=
  let reqSize := ix.bloomBytesPerPoint * (vectorId + 1) % 2 ^ 32
  if ix.bloomSize ≤ reqSize then max (reqSize * 3 / 2) 1024 else ix.bloomSize

/-- Whether the delta is due to be merged. -/
def mergeDue : Bool :=
  max (4 * 1024 * 1024) (ix.bloomBytesPerPoint * ix.baseNVectors / 8) ≤ ix.deltaBytes

/-- `insert` up to the merge. -/
def insertDelta : Option LabelIndex :=
  let bytes := ix.bloomBytesPerPoint
  let offset := bloomOffset bytes vectorId
  if attr = [] ∨ offset + bytes ≤ ix.grownSize vectorId then
    some {
      ix.insertLabels vectorId attr with
      nVectors := max ix.nVectors (vectorId + 1)
      bloomSize := ix.grownSize vectorId
      bloomFilters := BloomFilter.addAll bytes offset attr ix.bloomFilters }
  else none

/-- `insert`. -/
def insert : Option LabelIndex := do
  let ix' ← ix.insertDelta vectorId attr
  if ix'.mergeDue then ix'.doMerge [] else some ix'

/-! ## Queries -/

/-- `estimate_label_cnt`. -/
def estimateLabelCnt : Nat := (ix.labelLoc.getD label.toNat []).length

/-- `is_cold_label`. -/
def isColdLabel : Bool := ix.estimateLabelCnt label < kApproxFilterThreshold

/-- The ids of a label that a query sees: those on disk, then those of the delta. -/
def idsOf : List Nat := ix.labelLoc.getD label.toNat [] ++ ix.deltaOf label

/-- The lists are merged from the shortest on. -/
def bySize (lists : List (List Nat)) : List (List Nat) :=
  lists.insertionSort fun a b => a.length ≤ b.length

variable (query : List UInt32)

/-- `pre_filter`: the vectors with one of the labels. -/
def preFilter : List Nat :=
  let lists := query.filterMap fun label =>
    if ix.labelLoc.length ≤ label.toNat ∨ ix.idsOf label = [] then none else some (ix.idsOf label)
  (bySize lists).foldl union []

/-- `pre_filter_and`: the vectors with all of the labels. -/
def preFilterAnd : List Nat :=
  let lists := query.map fun label =>
    if ix.labelLoc.length ≤ label.toNat then [] else ix.idsOf label
  if [] ∈ lists then []
  else match bySize lists with
    | [] => []
    | first :: rest => rest.foldl inter first

/-- `prepare_in_filter`. -/
def prepareInFilter : List Nat :=
  ix.preFilter (query.filter ix.isColdLabel)

/-- `prepare_in_filter_and`. -/
def prepareInFilterAnd : List Nat :=
  ix.preFilterAnd (query.filter ix.isColdLabel)

/-- The vector's Bloom filter has the label. -/
def filterHas (targetId : Nat) (label : UInt32) : Bool :=
  BloomFilter.contains ix.bloomBytesPerPoint (bloomOffset ix.bloomBytesPerPoint targetId) label
    ix.bloomFilters

/-- `is_member_approx`. -/
def isMemberApprox (targetId : Nat) (query : List UInt32) (coldList : List Nat) : Bool :=
  binarySearch coldList targetId ||
    query.any fun label => !ix.isColdLabel label && ix.filterHas targetId label

/-- `is_member_approx_and`. -/
def isMemberApproxAnd (targetId : Nat) (query : List UInt32) (coldList : List Nat) : Bool :=
  !(query.any ix.isColdLabel && !binarySearch coldList targetId) &&
    query.all fun label => ix.isColdLabel label || ix.filterHas targetId label

end LabelIndex

/-! ## Runs -/

/-- `LabelOrSelector::is_member` on a vector's stored labels. -/
def labelOrIsMember (query target : List UInt32) : Bool := query.any fun l => target.contains l

/-- `LabelAndSelector::is_member` on a vector's stored labels. -/
def labelAndIsMember (query target : List UInt32) : Bool := query.all fun l => target.contains l

/-- The index, with the labels stored for every vector. -/
structure LabelStore where
  index : LabelIndex
  stored : Nat → List UInt32

namespace LabelStore

/-- One call of `insert`. -/
structure Insert where
  vectorId : Nat
  attr : List UInt32

/-- `insert` of a vector with its labels. -/
def step (s : LabelStore) (a : Insert) : Option LabelStore := do
  let index ← s.index.insert a.vectorId a.attr
  some ⟨index, Function.update s.stored a.vectorId (s.stored a.vectorId ++ a.attr)⟩

/-- After `save()` of the rows. -/
def saved (rows : List (List UInt32)) (index : LabelIndex) : LabelStore :=
  ⟨index, fun id => rows.getD id []⟩

/-- No vector whose labels satisfy a query is rejected by `is_member_approx`, for the
list `prepare_in_filter` made of the query. -/
def ApproxComplete (s : LabelStore) : Prop :=
  ∀ (id : Nat) (query : List UInt32),
    (labelOrIsMember query (s.stored id) = true →
      s.index.isMemberApprox id query (s.index.prepareInFilter query) = true) ∧
    (labelAndIsMember query (s.stored id) = true →
      s.index.isMemberApproxAnd id query (s.index.prepareInFilterAnd query) = true)

/-- One saved row, then two inserts with descending ids. -/
def outOfOrderRun : Option LabelStore := do
  let index ← LabelIndex.save 4 (by decide) [[0]]
  runSteps step (saved [[0]] index) [⟨5, [7]⟩, ⟨3, [7]⟩]

/-- **Vector `5` is rejected although it has the label**: the delta list of the label
is `[5, 3]`. -/
theorem outOfOrder_rejected : ∃ index s, LabelIndex.save 4 (by decide) [[0]] = some index ∧
    Reach step anyStep (saved [[0]] index) s ∧ ¬ s.ApproxComplete := by
  have hrun : (outOfOrderRun.map fun s => (s.stored 5,
      s.index.isMemberApprox 5 [7] (s.index.prepareInFilter [7]))) = some ([7], false) := by
    decide +kernel
  obtain ⟨s, hs, hobs⟩ := Option.map_eq_some_iff.mp hrun
  unfold outOfOrderRun at hs
  obtain ⟨index, hsave, hs⟩ := Option.bind_eq_some_iff.mp hs
  refine ⟨index, s, hsave, Reach.of_run hs, fun h => ?_⟩
  obtain ⟨hst, hrej⟩ := Prod.mk.inj hobs
  have := (h 5 [7]).1 (by rw [hst]; decide)
  exact absurd (hrej.symm.trans this) Bool.false_ne_true

end LabelStore
end PipeANN
