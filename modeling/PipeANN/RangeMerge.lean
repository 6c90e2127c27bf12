import PipeANN.RangeUpdates

/-! # What a merge of the range index writes

`do_merge` of `SortedRangeAttrIndex` (`attribute.h`) collects the pairs of a value and an id
from the file and from the delta, drops those without a new id, sorts the others and writes
them.  How many there are it takes from elsewhere: `merged_size` is `n_vectors`, one more than
the largest id inserted, or the size of `id_map`.  `base_n_vectors_` is set to it, and the loop
that fills `histogram_` runs up to it over the sorted values.

A row without the attribute is not inserted.  Its id still counts, as soon as a larger one is
inserted or when `id_map` lists it.  Then `merged_size` is more than the number of pairs, the
loop reads past `sorted_attrs`, and the next merge expects a longer file than there is.  With an
id that was inserted twice `merged_size` may also be less.

`merges_exactly_iff` says that nothing else goes wrong: in any run of inserts and merges every
merge stays inside its arrays and leaves exactly the pairs with a new id, ascending and counted
by `base_n_vectors_`, if and only if at every merge there are as many of them as `merged_size`
says.
-/
namespace PipeANN
open List Option
namespace RangeIndex

/-- The pairs with a new id, under it. -/
def renumber (idMap : IdMap) (pairs : List (UInt32 × Nat)) : List (UInt32 × Nat) :=
  pairs.filterMap fun p => (idMap.newId p.2).map fun new => (p.1, new)

/-- The index, with the pairs of a value and an id that were saved and inserted, under their
present ids. -/
structure PairStore where
  index : RangeAttrIndex
  pairs : List (UInt32 × Nat)

namespace PairStore
variable {s s' s₀ : PairStore} {a : Update} {ops : List Update} {m : IdMap}

/-- `insert` up to the merge. -/
def insertDelta (s : PairStore) (vectorId : Nat) (value : UInt32) : PairStore :=
  ⟨s.index.insertDelta vectorId value, (value, vectorId) :: s.pairs⟩

/-- One call. -/
def step (s : PairStore) : Update → Option PairStore
  | .insert vectorId value => (s.index.insert vectorId value).map fun ix =>
    ⟨ix, (value, vectorId) :: s.pairs⟩
  | .merge idMap => (s.index.doMerge idMap).map fun ix => ⟨ix, renumber idMap s.pairs⟩

/-- After `save` of the values. -/
def saved (attrs : List UInt32) (h : attrs ≠ []) : PairStore := ⟨.save attrs h, attrs.zipIdx⟩

/-- The call of `do_merge` that a call makes, if it makes one, and the state it finds. -/
def mergeCall (s : PairStore) : Update → Option (PairStore × IdMap)
  | .insert vectorId value =>
    let t := s.insertDelta vectorId value
    if t.index.mergeDue then some (t, .empty) else none
  | .merge idMap => some (s, idMap)

/-- The file has one entry for each of `base_n_vectors_`; file and delta together hold the
pairs. -/
structure Sound (s : PairStore) : Prop where
  full : s.index.store.data.length = s.index.baseNVectors
  perm : (s.index.store.data ++ s.index.deltaData).Perm s.pairs

/-- `do_merge` reads inside the arrays it builds, and afterwards the file holds exactly the
pairs with a new id, ascending, and `base_n_vectors_` is their number. -/
def MergesExactly (s : PairStore) (m : IdMap) : Prop :=
  ∃ ix', s.index.doMerge m = some ix' ∧ ix'.store.data.Pairwise entryLe ∧
    ix'.store.data.Perm (renumber m s.pairs) ∧
    ix'.baseNVectors = (renumber m s.pairs).length

/-- `merged_size` is the number of pairs with a new id. -/
def CountsPairs (s : PairStore) (m : IdMap) : Prop :=
  m.newSize s.index.nVectors = (renumber m s.pairs).length

/-- The merge of a call, if it makes one, goes right. -/
def CallExact (s : PairStore) (a : Update) : Prop :=
  ∀ t m, s.mergeCall a = some (t, m) → t.MergesExactly m

/-- The merge of a call, if it makes one, counts the pairs. -/
def CallCounts (s : PairStore) (a : Update) : Prop :=
  ∀ t m, s.mergeCall a = some (t, m) → t.CountsPairs m

/-- **A merge that reads past its values.**  One value is saved, for the id `0`; the row `1` has
no value, the row `2` has.  The merge finds two pairs and takes them for three. -/
theorem gap_reads_outside : ∃ s,
    runSteps step (saved [5] (cons_ne_nil _ _)) [.insert 2 7] = some s ∧
      s.index.store.data.length = s.index.baseNVectors ∧
      s.index.mergedData .empty = [(5, 0), (7, 2)] ∧
      IdMap.empty.newSize s.index.nVectors = 3 ∧
      RangeAttrIndex.histogramInside 3 (s.index.mergedData .empty) = false := by
  have hrun : ((runSteps step (saved [5] (cons_ne_nil _ _)) [.insert 2 7]).map fun s =>
      (s.index.store.data.length, s.index.baseNVectors, s.index.mergedData .empty,
        s.index.nVectors)) = some (1, 1, [(5, 0), (7, 2)], 3) := by
    decide
  obtain ⟨s, hs, hobs⟩ := map_eq_some_iff.mp hrun
  obtain ⟨hlen, hobs⟩ := Prod.mk.inj hobs
  obtain ⟨hbase, hobs⟩ := Prod.mk.inj hobs
  obtain ⟨hdata, hn⟩ := Prod.mk.inj hobs
  refine ⟨s, hs, hlen.trans hbase.symm, hdata, hn, ?_⟩
  rw [hdata]
  decide

/-! ## One merge -/

theorem baseNVectors_doMerge {ix ix' : RangeAttrIndex} (h : ix.doMerge m = some ix') :
    ix'.baseNVectors = m.newSize ix.nVectors ∧ ix'.store.data = ix.mergedData m ∧
      ix'.store.delta = [] := by
  rw [RangeAttrIndex.doMerge] at h
  split at h
  · cases h
    exact ⟨rfl, rfl, rfl⟩
  · cases h

theorem Sound.mergesExactly_iff (h : s.Sound) (m : IdMap) :
    s.MergesExactly m ↔ s.CountsPairs m := by
  constructor
  · rintro ⟨ix', hix, -, -, hbase⟩
    exact (baseNVectors_doMerge hix).1.symm.trans hbase
  · intro hcount
    have hperm : (s.index.mergedData m).Perm (renumber m s.pairs) :=
      (perm_insertionSort entryLe _).trans (h.perm.filterMap _)
    have hlen : m.newSize s.index.nVectors = (s.index.mergedData m).length :=
      Eq.trans hcount hperm.length_eq.symm
    have hinside : RangeAttrIndex.histogramInside (m.newSize s.index.nVectors)
        (s.index.mergedData m) := by
      rw [hlen]
      exact decide_eq_true fun _ hi _ => hi
    refine ⟨_, if_pos ⟨h.full, hinside⟩, pairwise_insertionSort entryLe _, hperm, hcount⟩

/-! ## Runs -/

theorem Sound.insertDelta (h : s.Sound) (vectorId : Nat) (value : UInt32) :
    (s.insertDelta vectorId value).Sound where
  full := h.full
  perm := by
    refine ((s.index.deltaData_insertDelta vectorId value).append_left _).trans ?_
    exact perm_middle.trans (h.perm.cons _)

/-- A merge that goes right leaves a sound index. -/
theorem Sound.doMerge {ix' : RangeAttrIndex} (h : s.MergesExactly m)
    (hix : s.index.doMerge m = some ix') : Sound ⟨ix', renumber m s.pairs⟩ := by
  obtain ⟨ix, hix₁, -, hperm, hbase⟩ := h
  obtain rfl : ix' = ix := some.inj (hix.symm.trans hix₁)
  have hdelta : ix'.deltaData = [] := by
    rw [RangeAttrIndex.deltaData, (baseNVectors_doMerge hix).2.2]
    rfl
  refine ⟨hperm.length_eq.trans hbase.symm, ?_⟩
  rw [hdelta, append_nil]
  exact hperm

theorem renumber_empty (pairs : List (UInt32 × Nat)) : renumber .empty pairs = pairs := by
  refine (filterMap_congr fun p _ => ?_).trans filterMap_some
  rfl

/-- The state a merge call finds is as sound as the one before the call. -/
theorem Sound.mergeCall {t : PairStore} (h : s.Sound) (ht : s.mergeCall a = some (t, m)) :
    t.Sound := by
  cases a with
  | insert vectorId value =>
    rw [PairStore.mergeCall] at ht
    split at ht
    · obtain ⟨rfl, -⟩ := Prod.mk.inj (some.inj ht)
      exact h.insertDelta vectorId value
    · cases ht
  | merge idMap =>
    obtain ⟨rfl, -⟩ := Prod.mk.inj (some.inj ht)
    exact h

theorem Sound.step (h : s.Sound) (ha : s.CallExact a) (hs : s.step a = some s') : s'.Sound := by
  cases a with
  | insert vectorId value =>
    obtain ⟨ix, hix, rfl⟩ := map_eq_some_iff.mp hs
    rw [RangeAttrIndex.insert] at hix
    split at hix
    · next hdue =>
      have hsound := Sound.doMerge (ha _ _ (if_pos hdue)) hix
      rwa [renumber_empty] at hsound
    · cases hix
      exact h.insertDelta vectorId value
  | merge idMap =>
    obtain ⟨ix, hix, rfl⟩ := map_eq_some_iff.mp hs
    exact Sound.doMerge (ha _ _ rfl) hix

/-- **When all merges go right.**  In a run of inserts and merges that begins with an index whose
file has one entry for each of `base_n_vectors_`, every merge reads inside its arrays and leaves
exactly the pairs with a new id, ascending, with `base_n_vectors_` as their number, if and only
if at every merge `merged_size` is the number of these pairs. -/
theorem merges_exactly_iff (h₀ : s₀.Sound) :
    EachStep step s₀ ops CallExact ↔ EachStep step s₀ ops CallCounts :=
  eachStep_congr h₀
    (fun _ _ hs => forall_congr' fun _ => forall_congr' fun m => imp_congr_right fun ht =>
      (hs.mergeCall ht).mergesExactly_iff m)
    fun _ _ _ hs ha h => hs.step ha h

theorem sound_saved {attrs : List UInt32} (h : attrs ≠ []) : (saved attrs h).Sound where
  full := length_sortedData attrs
  perm := by
    have hdelta : (saved attrs h).index.deltaData = [] := rfl
    rw [hdelta, append_nil]
    exact perm_insertionSort entryLe _

/-- A row after the saved one, and a merge. -/
theorem merges_exactly_next_row : (saved [5] (cons_ne_nil _ _)).Sound ∧
      (EachStep step (saved [5] (cons_ne_nil _ _)) [.insert 1 7, .merge .empty] CallExact ↔
        EachStep step (saved [5] (cons_ne_nil _ _)) [.insert 1 7, .merge .empty] CallCounts) :=
  ⟨sound_saved _, merges_exactly_iff (sound_saved _)⟩

end PairStore
end RangeIndex
end PipeANN
