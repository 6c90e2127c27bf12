import PipeANN.IdMaps
import PipeANN.LabelIndexSafety

/-! # Merging the label index with a renumbering

After vectors were deleted, `merge` of `InvertedLabelAttrIndex` (`attribute.h`) folds the delta
into the lists, drops the deleted vectors from them and moves the Bloom filters to the new
ids.  The steps read each other's results: `do_merge` sets `n_vectors` to the number of
vectors that are left before it calls `remap_approx`, which then copies only the filters of
the old ids below that number.  A vector with a higher old id that is left loses its filter
(`lastVector_loses_filter`).  An empty map, as it results when every vector was deleted, is
taken for the identity.

`mergeExact_iff` says exactly for which contents and which renumberings the merge is right.

The label `UINT32_MAX` in the delta resizes the lists to `0` and is then pushed to; the model
has no result there.  Offsets of filters are computed in 32 bits.
-/
namespace PipeANN

open List SortedLists BloomFilter Nat

namespace LabelIndex

/-! ## What a merge should do -/

variable (ix ix' : LabelIndex) (m : IdMap)

/-- Every vector that is left has, under its new id, the hot labels in its filter that it had
under its old id. -/
def FiltersKept : Prop :=
  ∀ p ∈ m.pairs, ∀ l, ix.isColdLabel l = false → ix.filterHas p.1 l = true →
    ix'.filterHas p.2 l = true

/-- The list of every label is the ascending list of the new ids of the vectors that are left
and had it. -/
def ListsExact : Prop :=
  ∀ l : UInt32, Ascending (ix'.labelLoc.getD l.toNat []) ∧
    ∀ new, new ∈ ix'.labelLoc.getD l.toNat [] ↔ ∃ old, (old, new) ∈ m.pairs ∧ old ∈ ix.idsOf l

/-- The merge is defined, and right. -/
def MergeExact : Prop :=
  ∃ ix', ix.doMerge m.pairs = some ix' ∧ ix.FiltersKept ix' m ∧ ix.ListsExact ix' m

/-! ## When it does -/

/-- `old_n_vectors` of `remap_approx`, with `n_vectors` as `do_merge` has set it. -/
def copiedFilters : Nat := min (ix.bloomSize / ix.bloomBytesPerPoint) m.pairs.length

/-- A bit of the filters is one of those of a vector. -/
def InFilter (id b : Nat) : Prop :=
  8 * bloomOffset ix.bloomBytesPerPoint id ≤ b ∧
    b < 8 * (bloomOffset ix.bloomBytesPerPoint id + ix.bloomBytesPerPoint)

/-- A bit of the new filters is set by the last of the first `n` vectors whose filter is copied
over it. -/
def CopiedLast (n b : Nat) : Prop :=
  ∃ q ∈ m.pairs, q.1 < n ∧ ix.InFilter q.2 b ∧
    ix.bloomFilters (8 * bloomOffset ix.bloomBytesPerPoint q.1 +
      (b - 8 * bloomOffset ix.bloomBytesPerPoint q.2)) = true ∧
    ∀ q' ∈ m.pairs, q'.1 < n → q.1 < q'.1 → ¬ ix.InFilter q'.2 b

/-- **A label is moved with a vector.**  The vector's old id is below the number of filters
that are copied.  If the offsets of the new filters overflow, so that filters are copied over
each other, each bit of the label must come out set. -/
def Moved (p : Nat × Nat) (l : UInt32) : Prop :=
  if m.pairs.length * ix.bloomBytesPerPoint ≤ 2 ^ 32 then p.1 < ix.copiedFilters m
  else ∀ bit ∈ BloomFilter.hashBits ix.bloomBytesPerPoint l,
    ix.CopiedLast m (ix.copiedFilters m) (8 * bloomOffset ix.bloomBytesPerPoint p.2 + bit)

/-- **What the merge needs.** -/
structure MergeSafe : Prop where
  /-- The lists can be made long enough for the labels of the delta. -/
  countable : ∀ p ∈ ix.delta, p.1.toNat < ix.labelLoc.length ∨ Countable p.1
  /-- Some vector is left, or there was none with a label. -/
  nonempty : m.isEmpty = true → ∀ l, ix.idsOf l = []
  moved : ∀ p ∈ m.pairs, ∀ l, ix.isColdLabel l = false → ix.filterHas p.1 l = true →
    ix.Moved m p l

/-! ## The lists -/

variable {ix ix' m}

theorem newId_pairs (old : Nat) : newId m.pairs old = m.newId old := rfl

/-- A label that the lists cannot be made long enough for has no result. -/
theorem foldlM_mergeDelta_eq_none {idMap : List (Nat × Nat)} :
    ∀ {ps : List (UInt32 × Nat)} {lists : List (List Nat)} {q : UInt32 × Nat}, q ∈ ps →
    lists.length ≤ q.1.toNat → ¬ Countable q.1 → ps.foldlM (mergeDelta idMap) lists = none
  | p :: ps, lists, q, hq, hlen, hmax => by
    have hqmax : q.1.toNat + 1 = 2 ^ 32 := by
      have := q.1.toNat_lt
      rw [Countable] at hmax
      omega
    rw [foldlM_cons]
    by_cases hp : Countable p.1
    · -- the lists stay too short
      have hq : q ∈ ps := (mem_cons.mp hq).resolve_left fun h => hmax (h ▸ hp)
      cases hstep : mergeDelta idMap lists p with
      | none => rfl
      | some lists' =>
        refine foldlM_mergeDelta_eq_none hq ?_ hmax
        rw [length_mergeDelta hstep, hp.toNat_succ]
        rw [Countable] at hp
        split_ifs <;> omega
    · -- the lists are resized to nothing
      have hpmax : p.1.toNat + 1 = 2 ^ 32 := by
        have := p.1.toNat_lt
        rw [Countable] at hp
        omega
      have hzero : (p.1 + 1).toNat = 0 := by
        exact (congrArg (· % 2 ^ 32) hpmax).trans (mod_self _)
      have hnil : (if lists.length ≤ p.1.toNat then resizeLists lists (p.1 + 1).toNat
          else lists) = [] := by
        rw [if_pos (show lists.length ≤ p.1.toNat by omega), hzero]
        simp [resizeLists]
      have hstep : mergeDelta idMap lists p = none := by
        rw [mergeDelta, hnil]
        exact if_neg (not_lt_zero _)
      rw [hstep]
      rfl

theorem doMerge_eq_none_iff : ix.doMerge m.pairs = none ↔
    ¬ ∀ p ∈ ix.delta, p.1.toNat < ix.labelLoc.length ∨ Countable p.1 := by
  have hlen : (ix.labelLoc.map (·.filterMap (newId m.pairs))).length = ix.labelLoc.length :=
    length_map _
  constructor
  · intro h hall
    obtain ⟨lists', hfold, -⟩ := foldlM_mergeDelta m.pairs ix.delta
      (ix.labelLoc.map (·.filterMap (newId m.pairs))) (hlen.symm ▸ hall)
    rw [doMerge, hfold] at h
    cases h
  · intro h
    push Not at h
    obtain ⟨p, hp, hle, hmax⟩ := h
    rw [doMerge, foldlM_mergeDelta_eq_none hp (by omega) hmax]
    rfl

/-- The lists after a merge: renumbered, sorted, without repetitions. -/
theorem labelLoc_doMerge (h : ix.doMerge m.pairs = some ix') (l : UInt32) :
    ix'.labelLoc.getD l.toNat [] = sortUnique ((ix.idsOf l).filterMap m.newId) := by
  have hall : ∀ p ∈ ix.delta, p.1.toNat < ix.labelLoc.length ∨ Countable p.1 := by
    by_contra hno
    rw [doMerge_eq_none_iff.mpr hno] at h
    cases h
  obtain ⟨lists', hfold, hlists⟩ := foldlM_mergeDelta m.pairs ix.delta
    (ix.labelLoc.map (·.filterMap (newId m.pairs))) (by rwa [length_map])
  rw [doMerge, hfold] at h
  cases h
  have hbase : (ix.labelLoc.map (·.filterMap (newId m.pairs))).getD l.toNat [] =
      (ix.labelLoc.getD l.toNat []).filterMap m.newId :=
    getD_map ix.labelLoc [] (filterMap m.newId)
  have hmap : (lists'.map sortUnique).getD l.toNat [] = sortUnique (lists'.getD l.toNat []) :=
    getD_map lists' [] sortUnique
  rw [idsOf, filterMap_append, ← hbase]
  exact hmap.trans (congrArg sortUnique (hlists l))

/-- The lists are exact, unless an empty map was taken for the identity. -/
theorem listsExact_iff (h : ix.doMerge m.pairs = some ix') :
    ix.ListsExact ix' m ↔ (m.isEmpty → ∀ l, ix.idsOf l = []) := by
  have hmem : ∀ (l : UInt32) (new : Nat), new ∈ ix'.labelLoc.getD l.toNat [] ↔
      ∃ old ∈ ix.idsOf l, m.newId old = some new := fun l new => by
    rw [labelLoc_doMerge h, (sortUnique_spec _).2, mem_filterMap]
  constructor
  · intro hexact hempty l
    have hpairs : m.pairs = [] := by simpa [IdMap.isEmpty] using hempty
    rw [eq_nil_iff_forall_not_mem]
    intro old hold
    obtain ⟨old', hp, -⟩ := ((hexact l).2 old).mp
      ((hmem l old).mpr ⟨old, hold, IdMap.newId_of_isEmpty hempty old⟩)
    rw [hpairs] at hp
    exact absurd hp not_mem_nil
  · intro hnil l
    refine ⟨?_, fun new => (hmem l new).trans ?_⟩
    · rw [labelLoc_doMerge h]
      exact (sortUnique_spec _).1
    · by_cases hempty : m.isEmpty
      · have hpairs : m.pairs = [] := by simpa [IdMap.isEmpty] using hempty
        simp [hnil hempty l]
      · simp only [IdMap.newId_eq_some_iff (Bool.eq_false_iff.mpr hempty)]
        exact exists_congr fun old => and_comm

/-! ## The filters -/

/-- One round of the loop of `remap_approx`. -/
theorem remapFilters_succ (n b : Nat) : ix.remapFilters m.pairs (n + 1) b ↔
      (∃ new, m.newId n = some new ∧ ix.InFilter new b ∧
        ix.bloomFilters (8 * bloomOffset ix.bloomBytesPerPoint n +
          (b - 8 * bloomOffset ix.bloomBytesPerPoint new))) ∨
      (∀ new, m.newId n = some new → ¬ ix.InFilter new b) ∧ ix.remapFilters m.pairs n b := by
  rw [remapFilters, range_succ, foldl_append, foldl_cons, newId_pairs, ← remapFilters]
  cases hnew : m.newId n with
  | none => simp
  | some new =>
    by_cases hin : ix.InFilter new b
    · refine (iff_of_eq (congrArg (· = true) (if_pos hin))).trans ?_
      simp [hin]
    · refine (iff_of_eq (congrArg (· = true) (if_neg hin))).trans ?_
      simp [hin]

/-- **The filters after `remap_approx`.** -/
theorem remapFilters_iff (hne : m.isEmpty = false) (n b : Nat) :
    ix.remapFilters m.pairs n b ↔ ix.CopiedLast m n b := by
  induction n with
  | zero =>
    refine iff_of_false Bool.false_ne_true ?_
    rintro ⟨q, -, hlt, -⟩
    exact absurd hlt (not_lt_zero _)
  | succ n ih =>
    rw [remapFilters_succ, ih]
    simp only [IdMap.newId_eq_some_iff hne]
    constructor
    · rintro (⟨new, hp, hin, hbit⟩ | ⟨hnot, q, hq, hlt, hin, hbit, hlast⟩)
      · exact ⟨(n, new), hp, lt_succ_self n, hin, hbit, fun q' _ hlt hgt => by omega⟩
      · refine ⟨q, hq, lt_succ_of_lt hlt, hin, hbit, fun q' hq' hlt' hgt => ?_⟩
        rcases Nat.lt_succ_iff_lt_or_eq.mp hlt' with hlt' | heq
        · exact hlast q' hq' hlt' hgt
        · exact hnot q'.2 (heq ▸ hq')
    · rintro ⟨q, hq, hlt, hin, hbit, hlast⟩
      rcases Nat.lt_succ_iff_lt_or_eq.mp hlt with hlt' | heq
      · refine .inr ⟨fun new hp => hlast (n, new) hp (lt_succ_self n) hlt', q, hq, hlt', hin,
          hbit, fun q' hq' hq'lt => hlast q' hq' (lt_succ_of_lt hq'lt)⟩
      · exact .inl ⟨q.2, heq ▸ hq, hin, heq ▸ hbit⟩

/-- New filters whose offsets do not overflow are apart. -/
theorem eq_of_inFilter (hfit : m.pairs.length * ix.bloomBytesPerPoint ≤ 2 ^ 32) {p q : Nat × Nat}
    (hp : p ∈ m.pairs) (hq : q ∈ m.pairs) {bit : Nat} (hbit : bit < ix.bloomBytesPerPoint * 8)
    (h : ix.InFilter q.2 (8 * bloomOffset ix.bloomBytesPerPoint p.2 + bit)) : q = p := by
  have hpos := ix.bloomBytesPerPoint_pos
  have hoff : ∀ r ∈ m.pairs,
      bloomOffset ix.bloomBytesPerPoint r.2 = r.2 * ix.bloomBytesPerPoint := by
    intro r hr
    exact Nat.mod_eq_of_lt (lt_of_lt_of_le (Nat.mul_lt_mul_of_pos_right (m.newLt r hr) hpos) hfit)
  obtain ⟨hlo, hhi⟩ := h
  rw [hoff p hp, hoff q hq] at hlo hhi
  -- neither new id is below the other
  have hle : ∀ {a b : Nat}, a * ix.bloomBytesPerPoint * 8 <
      (b + 1) * ix.bloomBytesPerPoint * 8 → a ≤ b := fun {a b} hlt =>
    Nat.le_of_lt_succ (Nat.lt_of_mul_lt_mul_right (Nat.lt_of_mul_lt_mul_right hlt))
  have hqp : q.2 ≤ p.2 := hle (by rw [succ_mul]; omega)
  have hpq : p.2 ≤ q.2 := hle (by rw [succ_mul]; omega)
  exact IdMap.eq_of_mem_of_snd_eq m.newNodup hq hp (le_antisymm hqp hpq)

/-- A label that a vector had is in its new filter exactly if it was moved. -/
theorem filterHas_doMerge_iff (h : ix.doMerge m.pairs = some ix') {p : Nat × Nat} (hp : p ∈ m.pairs)
    {l : UInt32} (hl : ix.filterHas p.1 l) : ix'.filterHas p.2 l ↔ ix.Moved m p l := by
  have hne : m.isEmpty = false := by
    rw [IdMap.isEmpty, isEmpty_eq_false_iff]
    exact ne_nil_of_mem hp
  have hlists : ∃ lists, some { remapApprox { ix with nVectors := m.pairs.length } m.pairs with
      labelLoc := lists, baseNVectors := m.pairs.length, delta := [], deltaBytes := 0 } =
      some ix' := by
    obtain ⟨lists, -, h⟩ := Option.bind_eq_some_iff.mp h
    refine ⟨lists.map sortUnique, ?_⟩
    rw [← h]
    have : m.pairs.isEmpty = false := hne
    simp only [this, if_neg Bool.false_ne_true]
  obtain ⟨lists, hix⟩ := hlists
  cases hix
  have hbits : ∀ bit ∈ hashBits ix.bloomBytesPerPoint l,
      bit < ix.bloomBytesPerPoint * 8 := fun bit hbit =>
    hashBits_lt ix.bloomBytesPerPoint_pos hbit
  have hhas : ∀ bit ∈ hashBits ix.bloomBytesPerPoint l,
      ix.bloomFilters (8 * bloomOffset ix.bloomBytesPerPoint p.1 + bit) :=
    contains_iff.mp hl
  have hcopied : (∀ bit ∈ hashBits ix.bloomBytesPerPoint l,
      ix.remapFilters m.pairs (ix.copiedFilters m)
        (8 * bloomOffset ix.bloomBytesPerPoint p.2 + bit)) ↔ ix.Moved m p l := by
    simp only [remapFilters_iff hne]
    rw [Moved]
    split
    · next hfit =>
      constructor
      · intro hall
        obtain ⟨bit, hbit⟩ := exists_mem_hashBits ix.bloomBytesPerPoint l
        obtain ⟨q, hq, hlt, hin, -⟩ := hall bit hbit
        rwa [eq_of_inFilter hfit hp hq (hbits bit hbit) hin] at hlt
      · intro hlt bit hbit
        have hlast := hbits bit hbit
        refine ⟨p, hp, hlt, ⟨le_add_right _ _, by omega⟩, ?_, fun q' hq' _ hgt hin => ?_⟩
        · rw [Nat.add_sub_cancel_left]
          exact hhas bit hbit
        · rw [eq_of_inFilter hfit hp hq' (hbits bit hbit) hin] at hgt
          exact absurd hgt (lt_irrefl _)
    · exact Iff.rfl
  exact contains_iff.trans hcopied

/-- **When a merge is right.**  For any lists, delta and filters and any renumbering of the
vectors that are left, the merge keeps the filters and makes the lists exact if and only if
its conditions hold. -/
theorem mergeExact_iff (ix : LabelIndex) (m : IdMap) : ix.MergeExact m ↔ ix.MergeSafe m := by
  constructor
  · rintro ⟨ix', h, hfilters, hlists⟩
    refine ⟨?_, (listsExact_iff h).mp hlists, fun p hp l hhot hl => ?_⟩
    · by_contra hno
      rw [doMerge_eq_none_iff.mpr hno] at h
      cases h
    · exact (filterHas_doMerge_iff h hp hl).mp (hfilters p hp l hhot hl)
  · rintro ⟨hcount, hempty, hmoved⟩
    cases h : ix.doMerge m.pairs with
    | none => exact absurd hcount (doMerge_eq_none_iff.mp h)
    | some ix' =>
      refine ⟨ix', h, fun p hp l hhot hl => ?_, (listsExact_iff h).mpr hempty⟩
      exact (filterHas_doMerge_iff h hp hl).mpr (hmoved p hp l hhot hl)

/-! ## The last vector -/

/-- The renumbering when the first of `n + 1` vectors was deleted. -/
def dropFirst (n : Nat) : IdMap where
  pairs := (List.range n).map fun i => (i + 1, i)
  oldNodup := by
    rw [map_map]
    exact nodup_range.map fun a b h => Nat.succ.inj h
  newNodup := by
    rw [map_map]
    exact nodup_range.map fun a b h => h
  newLt p hp := by
    obtain ⟨i, hi, rfl⟩ := mem_map.mp hp
    rw [length_map, length_range]
    exact mem_range.mp hi

theorem maxLabelId_replicate (n : Nat) : maxLabelId (replicate n [0]) = 0 := by
  induction n with
  | zero => rfl
  | succ n ih => exact ih

/-- `save` of `n` vectors that have the label `0`. -/
theorem save_replicate (n : Nat) : ∃ ix, save 4 (by decide) (replicate n [0]) = some ix := by
  rw [save, maxLabelId_replicate, if_pos]
  · exact ⟨_, rfl⟩
  · rw [all_eq_true, flatten_replicate_singleton]
    intro l hl
    rw [eq_of_mem_replicate hl]
    rfl

/-- The last of `n + 1` vectors loses its filter when the first was deleted. -/
theorem not_mergeExact_dropFirst {n : Nat} (hn : kApproxFilterThreshold ≤ n) (hfit : n * 4 ≤ 2 ^ 32)
    {ix : LabelIndex} (hsave : save 4 (by decide) (replicate (n + 1) [0]) = some ix) :
    ix.isColdLabel 0 = false ∧ ix.filterHas n 0 ∧ ¬ ix.MergeExact (dropFirst n) := by
  obtain ⟨hbytes, -, hsize, -, hloc, hfilters⟩ := save_spec hsave
  have hrow : (0 : UInt32) ∈ (replicate (n + 1) [(0 : UInt32)]).getD n [] := by
    rw [getD_eq_getElem _ _ (by rw [length_replicate]; omega), getElem_replicate]
    exact mem_singleton.mpr rfl
  have hlen : (ix.labelLoc.getD (0 : UInt32).toNat []).length = n + 1 := by
    rw [hloc, (rowIds_spec _ 0 0).2.2, flatten_replicate_singleton, count_replicate_self]
  have hnot : ¬ (ix.labelLoc.getD (0 : UInt32).toNat []).length < kApproxFilterThreshold := by
    omega
  have hhot : ix.isColdLabel 0 = false := decide_eq_false hnot
  have hhas : ix.filterHas n 0 := by
    rw [filterHas, hfilters, hbytes]
    refine saveFilters_contains hnot ?_
    rw [hloc, mem_rowIds]
    exact hrow
  refine ⟨hhot, hhas, ?_⟩
  rintro ⟨ix', h, hkept, -⟩
  have hpairs : (dropFirst n).pairs.length = n := by
    rw [dropFirst, length_map, length_range]
  have hpos : 0 < n := lt_of_lt_of_le (by decide) hn
  have hmem : (n, n - 1) ∈ (dropFirst n).pairs := by
    refine mem_map.mpr ⟨n - 1, mem_range.mpr (by omega), ?_⟩
    rw [Nat.sub_add_cancel hpos]
  have hmoved := (filterHas_doMerge_iff h hmem hhas).mp (hkept _ hmem 0 hhot hhas)
  rw [Moved, hpairs, hbytes, if_pos hfit, copiedFilters, hpairs] at hmoved
  exact absurd (hmoved.trans_le (min_le_right _ _)) (lt_irrefl n)

/-- **The last vector loses its filter.**  Of `65537` vectors with the label `0`, which is hot,
the first was deleted.  The filter of vector `65536` has the label, but is not copied to its
new id. -/
theorem lastVector_loses_filter : ∃ ix, save 4 (by decide) (List.replicate 65537 [0]) = some ix ∧
    ix.isColdLabel 0 = false ∧ ix.filterHas 65536 0 = true ∧
    ¬ ix.MergeExact (dropFirst 65536) := by
  obtain ⟨ix, hsave⟩ := save_replicate 65537
  exact ⟨ix, hsave, not_mergeExact_dropFirst le_rfl (by decide) hsave⟩

end LabelIndex
end PipeANN
