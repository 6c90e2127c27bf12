import Mathlib.Data.List.Count
import PipeANN.LabelIndex

/-! # When the label index rejects no matching vector

In every run of inserts after `save()` that meets `LabelStore.InsertOk`, the tests
`is_member_approx` and `is_member_approx_and` accept every vector whose stored labels
satisfy the query (`LabelStore.approx_complete`).

An insert meets the condition if its id is not below an id that already has one of its
labels, and if the merge it may trigger does not make a label hot that saved vectors
carry and that was cold when they were saved.  Two more clauses exclude 32-bit
overflow: of a label count (the label `UINT32_MAX`) and of a filter's byte offset.

The invariant (`LabelStore.Inv`) says that each label's ids are ascending and complete,
and that a vector's filter has its labels, except for those that were cold when the
vector was saved, and these still are.
-/
namespace PipeANN

open List Function SortedLists LabelIndex BloomFilter Nat

theorem length_resizeLists (lists : List (List Nat)) (n : Nat) :
    (resizeLists lists n).length = n := by
  rw [resizeLists, length_append, length_take, length_replicate]
  omega

@[simp] theorem length_pushId (lists : List (List Nat)) (label : UInt32) (id : Nat) :
    (pushId lists label id).length = lists.length :=
  length_modify ..

theorem getD_pushId {lists : List (List Nat)} {label : UInt32} (h : label.toNat < lists.length)
    (id i : Nat) : (pushId lists label id).getD i [] =
      lists.getD i [] ++ if i = label.toNat then [id] else [] := by
  rw [pushId]
  grind

namespace LabelIndex
variable {ix ix' : LabelIndex}

/-! ## The lists a query reads -/

theorem mem_bySize {lists : List (List Nat)} {l : List Nat} : l ∈ bySize lists ↔ l ∈ lists :=
  mem_insertionSort _

/-- Every id list is ascending, and a label with ids in the delta is within
`label_loc_`. -/
structure Ordered (ix : LabelIndex) : Prop where
  sorted : ∀ l, (ix.idsOf l).Pairwise (· ≤ ·)
  inRange : ∀ l, ix.labelLoc.length ≤ l.toNat → ix.deltaOf l = []

variable {l : UInt32}

theorem Ordered.idsOf_eq_nil (h : ix.Ordered) (hl : ix.labelLoc.length ≤ l.toNat) :
    ix.idsOf l = [] := by
  rw [idsOf, h.inRange l hl, getD_eq_default _ _ hl, append_nil]

section Lists
variable {r : Nat → Nat → Prop} (hr : Between r) (hsorted : ∀ l, (ix.idsOf l).Pairwise r)
  (hrange : ∀ l : UInt32, ix.labelLoc.length ≤ l.toNat → ix.idsOf l = [])
include hr hsorted hrange

/-- What `pre_filter` lists when every label's ids are in order. -/
theorem preFilter_of_pairwise (query : List UInt32) :
    (ix.preFilter query).Pairwise r ∧
      ∀ id, id ∈ ix.preFilter query ↔ ∃ l ∈ query, id ∈ ix.idsOf l := by
  -- the lists that are merged: those of the query's labels, without the empty ones
  have hmem : ∀ ids, ids ∈ bySize (query.filterMap fun label =>
      if ix.labelLoc.length ≤ label.toNat ∨ ix.idsOf label = [] then none
      else some (ix.idsOf label)) ↔ ids ≠ [] ∧ ∃ l ∈ query, ix.idsOf l = ids := by
    intro ids
    rw [mem_bySize]
    grind
  obtain ⟨h1, h2⟩ := foldl_union_spec hr _ (fun ids hids => by
    obtain ⟨-, l, -, rfl⟩ := (hmem ids).mp hids
    exact hsorted l) Pairwise.nil
  refine ⟨h1, fun id => (h2 id).trans ?_⟩
  grind

/-- What `pre_filter_and` lists when every label's ids are in order. -/
theorem preFilterAnd_of_pairwise {query : List UInt32} (hq : query ≠ []) :
    (ix.preFilterAnd query).Pairwise r ∧
      ∀ id, id ∈ ix.preFilterAnd query ↔ ∀ l ∈ query, id ∈ ix.idsOf l := by
  have hlists : (query.map fun label =>
      if ix.labelLoc.length ≤ label.toNat then [] else ix.idsOf label) = query.map ix.idsOf := by
    refine map_congr_left fun l _ => ?_
    split_ifs with hl
    · exact (hrange l hl).symm
    · rfl
  simp only [preFilterAnd, hlists]
  split
  · next hnil =>
    obtain ⟨l, hl, he⟩ := mem_map.mp hnil
    refine ⟨Pairwise.nil, fun id => ⟨fun hid => absurd hid not_mem_nil, fun hall => ?_⟩⟩
    exact he ▸ hall l hl
  · have hlists : ∀ ids ∈ bySize (query.map ix.idsOf), ids.Pairwise r := by
      intro ids hids
      obtain ⟨l, -, rfl⟩ := mem_map.mp (mem_bySize.mp hids)
      exact hsorted l
    have hall : ∀ id, (∀ ids ∈ bySize (query.map ix.idsOf), id ∈ ids) ↔
        ∀ l ∈ query, id ∈ ix.idsOf l := fun id => by
      simp only [mem_bySize, forall_mem_map]
    split
    · next hb =>
      obtain ⟨l, hl⟩ := exists_mem_of_ne_nil _ hq
      have := mem_bySize.mpr (mem_map_of_mem (f := ix.idsOf) hl)
      rw [hb] at this
      exact absurd this not_mem_nil
    · next first rest hb =>
      rw [hb, forall_mem_cons] at hlists
      obtain ⟨h1, h2⟩ := foldl_inter_spec hr rest hlists.2 hlists.1
      refine ⟨h1, fun id => (h2 id).trans ?_⟩
      rw [← hall, hb, forall_mem_cons]

end Lists

/-- **`pre_filter`** lists the vectors with one of the labels. -/
theorem preFilter_spec (h : ix.Ordered) (query : List UInt32) :
    (ix.preFilter query).Pairwise (· ≤ ·) ∧
      ∀ id, id ∈ ix.preFilter query ↔ ∃ l ∈ query, id ∈ ix.idsOf l :=
  preFilter_of_pairwise between_le h.sorted (fun _ => h.idsOf_eq_nil) query

/-- **`pre_filter_and`** lists the vectors with all of the labels. -/
theorem preFilterAnd_spec (h : ix.Ordered) {query : List UInt32} (hq : query ≠ []) :
    (ix.preFilterAnd query).Pairwise (· ≤ ·) ∧
      ∀ id, id ∈ ix.preFilterAnd query ↔ ∀ l ∈ query, id ∈ ix.idsOf l :=
  preFilterAnd_of_pairwise between_le h.sorted (fun _ => h.idsOf_eq_nil) hq

/-! ## The effect of an insert -/

/-- Whether a label can be counted in 32 bits. -/
def Countable (l : UInt32) : Prop := l.toNat + 1 < 2 ^ 32

theorem Countable.toNat_succ (h : Countable l) : (l + 1).toNat = l.toNat + 1 := by
  exact mod_eq_of_lt h

/-- The lists, resized for a label. -/
theorem resize_spec {lists : List (List Nat)} (h : l.toNat < lists.length ∨ Countable l) :
    let grown := if lists.length ≤ l.toNat then resizeLists lists (l + 1).toNat else lists
    (∀ i, grown.getD i [] = lists.getD i []) ∧ lists.length ≤ grown.length ∧
      l.toNat < grown.length := by
  dsimp only
  split_ifs with hle
  · have hc := (h.resolve_left (not_lt.mpr hle)).toNat_succ
    rw [length_resizeLists]
    exact ⟨by grind [resizeLists], by omega, by omega⟩
  · exact ⟨fun _ => rfl, le_rfl, not_le.mp hle⟩

/-- What the insertion of a vector changes in the lists. -/
structure Pushed (vectorId : Nat) (attr : List UInt32) (ix ix' : LabelIndex) : Prop where
  base : ∀ i, ix'.labelLoc.getD i [] = ix.labelLoc.getD i []
  grown : ix.labelLoc.length ≤ ix'.labelLoc.length
  covered : ∀ l ∈ attr, l.toNat < ix'.labelLoc.length
  delta : ix'.delta = ix.delta ++ attr.map fun l => (l, vectorId)
  deltaBytes : ix'.deltaBytes = ix.deltaBytes + 8 * attr.length

theorem insertLabels_spec (vectorId : Nat) (attr : List UInt32) (ix : LabelIndex)
    (hattr : ∀ l ∈ attr, Countable l) :
    Pushed vectorId attr ix (ix.insertLabels vectorId attr) := by
  induction attr generalizing ix with
  | nil => exact ⟨fun _ => rfl, le_rfl, by simp, by simp [insertLabels], rfl⟩
  | cons l attr ih =>
    obtain ⟨hl, hattr⟩ := forall_mem_cons.mp hattr
    have h := ih (ix.insertLabel vectorId l) hattr
    obtain ⟨hget, hle, hlt⟩ := @resize_spec l ix.labelLoc (.inr hl)
    refine ⟨fun i => (h.base i).trans (hget i), hle.trans h.grown,
      forall_mem_cons.mpr ⟨hlt.trans_le h.grown, h.covered⟩, ?_, ?_⟩
    · exact h.delta.trans (by simp [insertLabel])
    · refine h.deltaBytes.trans ?_
      rw [length_cons]
      show ix.deltaBytes + 2 * 4 + 8 * attr.length = _
      omega

theorem deltaOf_append {d : List (UInt32 × Nat)} (hd : ix'.delta = ix.delta ++ d) (l : UInt32) :
    ix'.deltaOf l = ix.deltaOf l ++ (d.filter (·.1 = l)).map (·.2) := by
  rw [deltaOf, hd, filter_append, map_append, deltaOf]

variable {vectorId id : Nat} {attr : List UInt32}

/-- The ids a vector adds to a label's list. -/
theorem mem_pushed : id ∈ ((attr.map fun l => (l, vectorId)).filter (·.1 = l)).map (·.2) ↔
      id = vectorId ∧ l ∈ attr := by
  simp [and_comm, eq_comm]

section
variable (h : Pushed vectorId attr ix ix')
include h

theorem Pushed.mem_idsOf : id ∈ ix'.idsOf l ↔ id ∈ ix.idsOf l ∨ id = vectorId ∧ l ∈ attr := by
  rw [idsOf, h.base, deltaOf_append h.delta, ← append_assoc, mem_append, mem_pushed, idsOf]

/-- The labels of the delta stay within `label_loc_`. -/
theorem Pushed.inRange
    (hin : ∀ l : UInt32, ix.labelLoc.length ≤ l.toNat → ix.deltaOf l = []) (l : UInt32)
    (hl : ix'.labelLoc.length ≤ l.toNat) : ix'.deltaOf l = [] := by
  rw [deltaOf_append h.delta, hin l (le_trans h.grown hl), eq_nil_iff_forall_not_mem]
  intro id hid
  exact absurd (h.covered l (mem_pushed.mp hid).2) (not_lt.mpr hl)

/-- Ids that come in order keep the lists ascending. -/
theorem Pushed.ordered
    (ho : ix.Ordered) (hle : ∀ l ∈ attr, ∀ id ∈ ix.idsOf l, id ≤ vectorId) : ix'.Ordered := by
  refine ⟨fun l => ?_, h.inRange ho.inRange⟩
  rw [idsOf, h.base, deltaOf_append h.delta, ← append_assoc]
  refine pairwise_append.mpr ⟨ho.sorted l, ?_, fun a ha b hb => ?_⟩
  · apply Pairwise.imp_of_mem _ (pairwise_of_forall fun _ _ => trivial)
    intro a b ha hb _
    rw [(mem_pushed.mp ha).1, (mem_pushed.mp hb).1]
  · obtain ⟨rfl, hl⟩ := mem_pushed.mp hb
    exact hle l hl a ha

end

/-- The fields of the filters after an insert, before the merge. -/
theorem insertDelta_spec (hattr : ∀ l ∈ attr, Countable l)
    (h : ix.insertDelta vectorId attr = some ix') :
    Pushed vectorId attr ix ix' ∧ ix'.bloomBytesPerPoint = ix.bloomBytesPerPoint ∧
      ix'.nVectors = max ix.nVectors (vectorId + 1) ∧ ix'.baseNVectors = ix.baseNVectors ∧
      ix'.bloomSize = ix.grownSize vectorId ∧
      ix'.bloomFilters = addAll ix.bloomBytesPerPoint
        (bloomOffset ix.bloomBytesPerPoint vectorId) attr ix.bloomFilters := by
  have hfix : ∀ (attr : List UInt32) (ix : LabelIndex),
      (ix.insertLabels vectorId attr).bloomBytesPerPoint = ix.bloomBytesPerPoint ∧
      (ix.insertLabels vectorId attr).baseNVectors = ix.baseNVectors := by
    intro attr
    induction attr with
    | nil => exact fun ix => ⟨rfl, rfl⟩
    | cons l attr ih => exact fun ix => ih _
  obtain ⟨-, ⟨⟩⟩ := Option.ite_none_right_eq_some.mp h
  obtain ⟨h1, h2, h3, h4, h5⟩ := insertLabels_spec vectorId attr ix hattr
  exact ⟨⟨h1, h2, h3, h4, h5⟩, (hfix attr ix).1, rfl, (hfix attr ix).2, rfl, rfl⟩

/-! ## The effect of a merge without renumbering -/

variable {idMap : List (Nat × Nat)} {lists lists' : List (List Nat)} {p : UInt32 × Nat}

/-- A push of the delta, renumbered. -/
theorem mergeDelta_spec (hp : p.1.toNat < lists.length ∨ Countable p.1) :
    ∃ next, mergeDelta idMap lists p = some next ∧ lists.length ≤ next.length ∧
      ∀ i, next.getD i [] =
        lists.getD i [] ++ if i = p.1.toNat then (newId idMap p.2).toList else [] := by
  obtain ⟨hget, hle, hlt⟩ := resize_spec hp
  refine ⟨_, if_pos hlt, ?_⟩
  cases newId idMap p.2 with
  | none => exact ⟨hle, fun i => by simpa using hget i⟩
  | some id =>
    exact ⟨hle.trans_eq (length_pushId ..).symm, fun i => by rw [getD_pushId hlt, hget]; rfl⟩

theorem length_mergeDelta (h : mergeDelta idMap lists p = some lists') :
    lists'.length = if lists.length ≤ p.1.toNat then (p.1 + 1).toNat else lists.length := by
  unfold mergeDelta at h
  dsimp only at h
  split_ifs at h <;> cases h <;> split <;> simp_all [length_resizeLists]

/-- The pushes of the delta, renumbered. -/
theorem foldlM_mergeDelta (idMap : List (Nat × Nat)) :
    ∀ (ps : List (UInt32 × Nat)) (lists : List (List Nat)),
    (∀ p ∈ ps, p.1.toNat < lists.length ∨ Countable p.1) → ∃ lists',
      ps.foldlM (mergeDelta idMap) lists = some lists' ∧
      ∀ l : UInt32, lists'.getD l.toNat [] = lists.getD l.toNat [] ++
        ((ps.filter (·.1 = l)).map (·.2)).filterMap (newId idMap)
  | [], lists, _ => ⟨lists, rfl, fun l => by simp⟩
  | p :: ps, lists, h => by
    obtain ⟨hp, hps⟩ := forall_mem_cons.mp h
    obtain ⟨next, hstep, hle, hget⟩ := @mergeDelta_spec idMap lists p hp
    obtain ⟨lists', hfold, hlists⟩ := foldlM_mergeDelta idMap ps next fun q hq =>
      (hps q hq).imp_left fun hlt => hlt.trans_le hle
    refine ⟨lists', by rw [foldlM_cons, hstep]; exact hfold, fun l => ?_⟩
    rw [hlists, hget, append_assoc]
    by_cases hl : p.1 = l
    · cases hnew : newId idMap p.2 <;> simp [hl, hnew]
    · rw [if_neg fun h => hl (UInt32.toNat_inj.mp h).symm, filter_cons_of_neg (by simpa using hl),
        nil_append]

/-- The filters copied by `remap_approx` when no offset overflows. -/
theorem remapFilters_apply (ix : LabelIndex) {oldN : Nat}
    (h : oldN * ix.bloomBytesPerPoint < 2 ^ 32) (b : Nat) :
    ix.remapFilters [] oldN b =
      if b < 8 * (oldN * ix.bloomBytesPerPoint) then ix.bloomFilters b else false := by
  induction oldN with
  | zero => simp [remapFilters]
  | succ n ih =>
    have hn : n * ix.bloomBytesPerPoint < 2 ^ 32 :=
      lt_of_le_of_lt (mul_le_mul_right _ (le_succ n)) h
    have hoff : bloomOffset ix.bloomBytesPerPoint n = n * ix.bloomBytesPerPoint :=
      mod_eq_of_lt hn
    have hstep : ix.remapFilters [] (n + 1) b =
        if 8 * (n * ix.bloomBytesPerPoint) ≤ b ∧
            b < 8 * (n * ix.bloomBytesPerPoint + ix.bloomBytesPerPoint) then
          ix.bloomFilters (8 * (n * ix.bloomBytesPerPoint) + (b - 8 * (n * ix.bloomBytesPerPoint)))
        else ix.remapFilters [] n b := by
      rw [remapFilters, range_succ, foldl_append, ← hoff]
      rfl
    rw [hstep, ih hn, succ_mul n]
    split_ifs with h1 h2 <;> first | omega | rfl | rw [Nat.add_sub_cancel' h1.1]

/-- The filters have room for all vectors, at offsets that do not overflow. -/
structure Fits (ix : LabelIndex) : Prop where
  offset : ix.nVectors * ix.bloomBytesPerPoint < 2 ^ 32
  room : ix.nVectors * ix.bloomBytesPerPoint ≤ ix.bloomSize

/-- `remap_approx` without renumbering keeps the filters as they are. -/
theorem Fits.filterHas_remapApprox (hf : ix.Fits) (hid : id < ix.nVectors)
    (l : UInt32) : (ix.remapApprox []).filterHas id l = ix.filterHas id l := by
  have hold : min (ix.bloomSize / ix.bloomBytesPerPoint) ix.nVectors = ix.nVectors :=
    min_eq_right ((le_div_iff_mul_le ix.bloomBytesPerPoint_pos).mpr hf.room)
  have hle : id * ix.bloomBytesPerPoint + ix.bloomBytesPerPoint ≤
      ix.nVectors * ix.bloomBytesPerPoint := by
    rw [← succ_mul]
    exact mul_le_mul_right _ hid
  have hoff : bloomOffset ix.bloomBytesPerPoint id = id * ix.bloomBytesPerPoint := by
    have := hf.offset
    exact mod_eq_of_lt (by omega)
  have hslice : ∀ i < ix.bloomBytesPerPoint * 8,
      (ix.remapApprox []).bloomFilters (8 * bloomOffset ix.bloomBytesPerPoint id + i) =
        ix.bloomFilters (8 * bloomOffset ix.bloomBytesPerPoint id + i) := by
    intro i hi
    show ix.remapFilters [] (min (ix.bloomSize / ix.bloomBytesPerPoint) ix.nVectors) _ = _
    rw [hold, remapFilters_apply ix hf.offset, if_pos (by rw [hoff]; omega)]
  exact contains_congr ix.bloomBytesPerPoint_pos hslice

/-- What a merge changes. -/
structure Merged (ix ix' : LabelIndex) : Prop where
  base : ∀ l : UInt32, ix'.labelLoc.getD l.toNat [] = sortUnique (ix.idsOf l)
  delta : ix'.delta = []
  nVectors : ix'.nVectors = ix.nVectors
  bytes : ix'.bloomBytesPerPoint = ix.bloomBytesPerPoint
  fits : ix'.Fits
  filters : ∀ id < ix.nVectors, ∀ l, ix'.filterHas id l = ix.filterHas id l

/-- A merge sorts the lists of every label; the filters are those of `remap_approx`. -/
theorem doMerge_lists (hin : ∀ l : UInt32, ix.labelLoc.length ≤ l.toNat → ix.deltaOf l = [])
    (h : ix.doMerge [] = some ix') : ∃ lists : List (List Nat),
      (∀ l : UInt32, (lists.map sortUnique).getD l.toNat [] = sortUnique (ix.idsOf l)) ∧
      ix' = { remapApprox ix [] with
        labelLoc := lists.map sortUnique
        baseNVectors := ix.nVectors
        delta := []
        deltaBytes := 0 } := by
  have hcov : ∀ p ∈ ix.delta, p.1.toNat < ix.labelLoc.length := by
    intro p hp
    have hmem : p.2 ∈ ix.deltaOf p.1 :=
      mem_map_of_mem (mem_filter.mpr ⟨hp, by simp⟩)
    grind
  obtain ⟨lists, h1, h3⟩ := foldlM_mergeDelta [] ix.delta _ fun p hp => .inl (hcov p hp)
  have hid : ix.labelLoc.map (·.filterMap (newId [])) = ix.labelLoc := by
    show ix.labelLoc.map (fun l => l.filterMap some) = _
    simp
  refine ⟨lists, fun l => ?_, ?_⟩
  · show (lists.map sortUnique).getD l.toNat (sortUnique []) = _
    rw [getD_map, h3]
    exact congrArg (fun ids => sortUnique (_ ++ ids)) filterMap_some
  · unfold doMerge at h
    rw [hid] at h
    simp only [h1] at h
    exact (Option.some.inj h).symm

theorem doMerge_spec (ho : ix.Ordered) (hf : ix.Fits) (h : ix.doMerge [] = some ix') :
    Merged ix ix' := by
  obtain ⟨lists, hlists, rfl⟩ := doMerge_lists ho.inRange h
  exact ⟨hlists, rfl, rfl, rfl, ⟨hf.offset, le_rfl⟩, fun id hid l => hf.filterHas_remapApprox hid l⟩

/-! ## The saved index -/

/-- The ids whose rows have a label, in order and with repetitions; the first row is
that of vector `k`. -/
def rowIds (rows : List (List UInt32)) (k i : Nat) : List Nat :=
  (rows.zipIdx k).flatMap fun p => (p.1.filter (·.toNat = i)).map fun _ => p.2

theorem rowIds_cons (row : List UInt32) (rows : List (List UInt32)) (k i : Nat) :
    rowIds (row :: rows) k i =
      (row.filter (·.toNat = i)).map (fun _ => k) ++ rowIds rows (k + 1) i := by
  rw [rowIds, zipIdx_cons, flatMap_cons, rowIds]

variable {rows : List (List UInt32)}

theorem mem_rowIds : id ∈ rowIds rows 0 l.toNat ↔ l ∈ rows.getD id [] := by
  simp only [rowIds, mem_flatMap, mem_map, mem_filter,
    Prod.exists]
  grind [UInt32.toNat_inj]

/-- The ids are ascending, within the rows, and as many as there are occurrences. -/
theorem rowIds_spec (rows : List (List UInt32)) (k : Nat) (l : UInt32) :
    (rowIds rows k l.toNat).Pairwise (· ≤ ·) ∧
      (∀ id ∈ rowIds rows k l.toNat, k ≤ id ∧ id < k + rows.length) ∧
      (rowIds rows k l.toNat).length = rows.flatten.count l := by
  induction rows generalizing k with
  | nil => exact ⟨Pairwise.nil, by simp [rowIds], rfl⟩
  | cons row rows ih =>
    obtain ⟨h1, h2, h3⟩ := ih (k + 1)
    have hrow : ∀ id ∈ (row.filter (·.toNat = l.toNat)).map (fun _ => k), id = k := by
      intro id hid
      obtain ⟨-, -, rfl⟩ := mem_map.mp hid
      rfl
    rw [rowIds_cons]
    refine ⟨pairwise_append.mpr ⟨?_, h1, fun a ha b hb => ?_⟩, fun id hid => ?_, ?_⟩
    · exact pairwise_map.mpr (pairwise_of_forall fun _ _ => le_refl k)
    · rw [hrow a ha]
      exact le_of_succ_le (h2 b hb).1
    · grind
    · rw [length_append, length_map, flatten_cons, count_append,
        ← countP_eq_length_filter]
      congr 2
      simp [UInt32.toNat_inj, Bool.beq_eq_decide_eq]

theorem foldl_pushId {ps : List (UInt32 × Nat)} (h : ∀ p ∈ ps, p.1.toNat < lists.length) (i : Nat) :
    (ps.foldl (fun lists p => pushId lists p.1 p.2) lists).getD i [] =
      lists.getD i [] ++ (ps.filter (·.1.toNat = i)).map (·.2) := by
  induction ps generalizing lists with
  | nil => simp
  | cons p ps ih =>
    obtain ⟨hp, hps⟩ := forall_mem_cons.mp h
    rw [foldl_cons, ih (by simpa using hps), getD_pushId hp]
    by_cases hi : p.1.toNat = i
    · simp [hi]
    · simp [hi, Ne.symm hi]

theorem collectIds_spec {nLabels : Nat} (h : ∀ l ∈ rows.flatten, l.toNat < nLabels) (i : Nat) :
    (collectIds nLabels rows).getD i [] = rowIds rows 0 i := by
  -- the two loops are one, over the labels with their ids
  have hflat : collectIds nLabels rows = (rows.zipIdx.flatMap fun p => p.1.map (·, p.2)).foldl
      (fun lists p => pushId lists p.1 p.2) (replicate nLabels []) := by
    simp [collectIds, foldl_flatMap, foldl_map]
  have hlt : ∀ p ∈ rows.zipIdx.flatMap fun p => p.1.map (·, p.2),
      p.1.toNat < (replicate nLabels ([] : List Nat)).length := by
    intro p hp
    obtain ⟨q, hq, hp⟩ := mem_flatMap.mp hp
    obtain ⟨l, hl, rfl⟩ := mem_map.mp hp
    rw [length_replicate]
    exact h l (mem_flatten.mpr ⟨q.1, fst_mem_of_mem_zipIdx hq, hl⟩)
  rw [hflat, foldl_pushId hlt, rowIds, filter_flatMap, map_flatMap]
  simp [filter_map, Function.comp_def]

/-- `save()` adds every hot label to the filters of its vectors. -/
theorem saveFilters_contains {bytes : Nat} {lists : List (List Nat)}
    (hhot : ¬ (lists.getD l.toNat []).length < kApproxFilterThreshold)
    (hid : id ∈ lists.getD l.toNat []) :
    contains bytes (bloomOffset bytes id) l (saveFilters bytes lists) := by
  have hmem : (lists.getD l.toNat [], l.toNat) ∈ lists.zipIdx := by
    grind
  refine foldl_establish (fun data => contains bytes (bloomOffset bytes id) l data)
    (fun data p h => ?_) hmem (fun data => ?_) fun _ => false
  · split_ifs
    · exact h
    · exact foldlRecOn (motive := fun data => contains bytes (bloomOffset bytes id) l data = true)
        p.1 _ h fun _ h _ _ => contains_add h
  · rw [if_neg hhot, UInt32.ofNat_toNat]
    exact foldl_establish (fun data => contains bytes (bloomOffset bytes id) l data = true)
      (fun data y h => contains_add h) hid (fun data => contains_add_self) data

/-- What `save()` leaves. -/
theorem save_spec {bytes : Nat} {hbytes : 0 < bytes} (h : save bytes hbytes rows = some ix) :
    ix.bloomBytesPerPoint = bytes ∧ ix.nVectors = rows.length ∧
      ix.bloomSize = rows.length * bytes ∧ ix.delta = [] ∧
      (∀ i, ix.labelLoc.getD i [] = rowIds rows 0 i) ∧
      ix.bloomFilters = saveFilters bytes ix.labelLoc := by
  obtain ⟨hall, ⟨⟩⟩ := Option.ite_none_right_eq_some.mp h
  refine ⟨rfl, rfl, rfl, rfl, collectIds_spec fun l hl => ?_, rfl⟩
  exact of_decide_eq_true (all_eq_true.mp hall l hl)

end LabelIndex

namespace LabelStore

/-! ## The invariant -/

variable (rows : List (List UInt32)) (s : LabelStore)

/-- A label that saved vectors have and that was cold when they were saved. -/
def SavedCold (l : UInt32) : Prop :=
  l ∈ rows.flatten ∧ rows.flatten.count l < kApproxFilterThreshold

/-- Whether the insert of a vector with these labels will merge the delta. -/
def mergesAfter (ix : LabelIndex) (attr : List UInt32) : Bool :=
  max (4 * 1024 * 1024) (ix.bloomBytesPerPoint * ix.baseNVectors / 8) ≤
    ix.deltaBytes + 8 * attr.length

/-- **The condition on an insert.** -/
structure InsertOk (a : Insert) : Prop where
  countable : ∀ l ∈ a.attr, LabelIndex.Countable l
  offset : (a.vectorId + 1) * s.index.bloomBytesPerPoint < 2 ^ 32
  /-- No id that has one of the labels is above the new one. -/
  inOrder : ∀ l ∈ a.attr, ∀ id ∈ s.index.idsOf l, id ≤ a.vectorId
  /-- A merge leaves the labels cold that were saved cold. -/
  staysCold : mergesAfter s.index a.attr = true → ∀ l ∈ rows.flatten,
    rows.flatten.count l < kApproxFilterThreshold →
    (s.index.idsOf l ++ if l ∈ a.attr then [a.vectorId] else []).dedup.length <
      kApproxFilterThreshold

-- The quantifiers are checked along the lists, not over all labels.
instance (a : Insert) :
    Decidable (InsertOk rows s a) :=
  decidable_of_iff (a.attr.all (fun l => l.toNat + 1 < 2 ^ 32) = true ∧
      (a.vectorId + 1) * s.index.bloomBytesPerPoint < 2 ^ 32 ∧
      a.attr.all (fun l => (s.index.idsOf l).all fun id => id ≤ a.vectorId) = true ∧
      (mergesAfter s.index a.attr = true → rows.flatten.all (fun l =>
        rows.flatten.count l < kApproxFilterThreshold →
        (s.index.idsOf l ++ if l ∈ a.attr then [a.vectorId] else []).dedup.length <
          kApproxFilterThreshold) = true)) <| by
    simp only [all_eq_true, decide_eq_true_eq]
    exact ⟨fun ⟨h1, h2, h3, h4⟩ => ⟨h1, h2, h3, h4⟩, fun h => ⟨h.1, h.2, h.3, h.4⟩⟩

/-- What holds in every state. -/
structure Inv : Prop where
  ordered : s.index.Ordered
  fits : s.index.Fits
  listed : ∀ id l, l ∈ s.stored id → id ∈ s.index.idsOf l
  bounded : ∀ id l, l ∈ s.stored id → id < s.index.nVectors
  filtered : ∀ id l, l ∈ s.stored id →
    s.index.filterHas id l = true ∨ SavedCold rows l ∧ s.index.isColdLabel l = true

variable {rows s}

/-- **The invariant implies completeness.** -/
theorem Inv.approxComplete (h : Inv rows s) : s.ApproxComplete := by
  have hhot : ∀ {id : Nat} {l : UInt32}, l ∈ s.stored id → s.index.isColdLabel l = false →
      s.index.filterHas id l := fun hl hcold =>
    (h.filtered _ _ hl).resolve_right fun hc => Bool.false_ne_true (hcold.symm.trans hc.2)
  intro id query
  constructor
  · intro hm
    obtain ⟨l, hl, hst⟩ := any_eq_true.mp hm
    have hst : l ∈ s.stored id := contains_iff_mem.mp hst
    rw [isMemberApprox, Bool.or_eq_true]
    cases hcold : s.index.isColdLabel l with
    | true =>
      obtain ⟨h1, h2⟩ := preFilter_spec h.ordered (query.filter s.index.isColdLabel)
      exact .inl ((binarySearch_iff between_le h1 id).mpr
        ((h2 id).mpr ⟨l, mem_filter.mpr ⟨hl, hcold⟩, h.listed id l hst⟩))
    | false => exact .inr (any_eq_true.mpr ⟨l, hl, by simp [hcold, hhot hst hcold]⟩)
  · intro hm
    have hst : ∀ l ∈ query, l ∈ s.stored id := fun l hl =>
      contains_iff_mem.mp (all_eq_true.mp hm l hl)
    rw [isMemberApproxAnd, Bool.and_eq_true]
    constructor
    · rw [Bool.not_eq_true', Bool.and_eq_false_iff, Bool.not_eq_false']
      cases hany : query.any s.index.isColdLabel with
      | false => exact .inl rfl
      | true =>
        obtain ⟨l, hl, hcold⟩ := any_eq_true.mp hany
        have hne : query.filter s.index.isColdLabel ≠ [] :=
          ne_nil_of_mem (mem_filter.mpr ⟨hl, hcold⟩)
        obtain ⟨h1, h2⟩ := preFilterAnd_spec h.ordered hne
        exact .inr ((binarySearch_iff between_le h1 id).mpr
          ((h2 id).mpr fun l hl => h.listed id l (hst l (mem_filter.mp hl).1)))
    · grind

variable {ix : LabelIndex}

/-- The invariant holds after `save()`. -/
theorem inv_saved {bytes : Nat} {hbytes : 0 < bytes} (h : save bytes hbytes rows = some ix)
    (hoffset : rows.length * bytes < 2 ^ 32) : Inv rows (saved rows ix) := by
  obtain ⟨hb, hn, hsize, hdelta, hloc, hbits⟩ := save_spec h
  have hdeltaOf : ∀ l, ix.deltaOf l = [] := fun l => by rw [deltaOf, hdelta]; rfl
  have hids : ∀ l : UInt32, ix.idsOf l = rowIds rows 0 l.toNat := fun l => by
    rw [idsOf, hloc, hdeltaOf, append_nil]
  have hlisted : ∀ id l, l ∈ rows.getD id [] → id ∈ ix.idsOf l := fun id l hl => by
    rw [hids]
    exact mem_rowIds.mpr hl
  refine ⟨⟨fun l => ?_, fun l _ => hdeltaOf l⟩, ⟨?_, ?_⟩, hlisted, fun id l hl => ?_,
    fun id l hl => ?_⟩
  · exact hids l ▸ (rowIds_spec rows 0 l).1
  · exact hn ▸ hb ▸ hoffset
  · exact (hn ▸ hb ▸ hsize.ge : ix.nVectors * ix.bloomBytesPerPoint ≤ ix.bloomSize)
  · have hid := hids l ▸ hlisted id l hl
    have := ((rowIds_spec rows 0 l).2.1 id hid).2
    show id < ix.nVectors
    omega
  · -- a hot label is in the filter, a cold one was saved cold
    have hcount : ix.estimateLabelCnt l = rows.flatten.count l := by
      rw [estimateLabelCnt, hloc, (rowIds_spec rows 0 l).2.2]
    have hid : id ∈ ix.labelLoc.getD l.toNat [] := by
      rw [hloc]
      exact mem_rowIds.mpr hl
    by_cases hcold : ix.estimateLabelCnt l < kApproxFilterThreshold
    · refine .inr ⟨⟨?_, hcount ▸ hcold⟩, decide_eq_true hcold⟩
      apply count_pos_iff.mp
      rw [← hcount]
      exact length_pos_of_mem hid
    · left
      show contains ix.bloomBytesPerPoint
        (bloomOffset ix.bloomBytesPerPoint id) l ix.bloomFilters
      rw [hbits, hb]
      exact saveFilters_contains hcold hid

/-- An insert keeps the invariant, up to the merge. -/
theorem inv_insertDelta {a : Insert} (h : Inv rows s) (hok : InsertOk rows s a)
    (hix : s.index.insertDelta a.vectorId a.attr = some ix) :
    Inv rows ⟨ix, update s.stored a.vectorId (s.stored a.vectorId ++ a.attr)⟩ := by
  obtain ⟨hpush, hb, hn, -, hsize, hbits⟩ := insertDelta_spec hok.countable hix
  have hstored : ∀ {id l}, l ∈ update s.stored a.vectorId
      (s.stored a.vectorId ++ a.attr) id → l ∈ s.stored id ∨ id = a.vectorId ∧ l ∈ a.attr := by
    grind
  have hreq : s.index.bloomBytesPerPoint * (a.vectorId + 1) % 2 ^ 32 =
      (a.vectorId + 1) * s.index.bloomBytesPerPoint := by
    rw [mul_comm]
    exact mod_eq_of_lt hok.offset
  refine ⟨hpush.ordered h.ordered hok.inOrder, ⟨?_, ?_⟩, fun id l hl => ?_, fun id l hl => ?_,
    fun id l hl => ?_⟩
  · rw [hn, hb, ← Nat.mul_max_mul_right]
    exact Nat.max_lt.mpr ⟨h.fits.offset, hok.offset⟩
  · have hroom := h.fits.room
    rw [hn, hb, hsize, ← Nat.mul_max_mul_right, grownSize]
    split <;> omega
  · exact hpush.mem_idsOf.mpr ((hstored hl).imp_left (h.listed id l))
  · have hold := h.bounded id l
    grind
  · have hkeep : ∀ {l'}, s.index.filterHas id l' → ix.filterHas id l' := by
      intro l' hl'
      show contains ix.bloomBytesPerPoint
        (bloomOffset ix.bloomBytesPerPoint id) l' ix.bloomFilters
      rw [hb, hbits]
      exact contains_addAll a.attr hl'
    rcases hstored hl with hold | ⟨rfl, hnew⟩
    · refine (h.filtered id l hold).imp hkeep fun hc => ⟨hc.1, ?_⟩
      show decide ((ix.labelLoc.getD l.toNat []).length < _) = true
      rw [hpush.base]
      exact hc.2
    · left
      show contains ix.bloomBytesPerPoint
        (bloomOffset ix.bloomBytesPerPoint a.vectorId) l ix.bloomFilters
      rw [hb, hbits]
      exact contains_addAll_self hnew

theorem length_dedup_congr {a b : List Nat} (h : ∀ x, x ∈ a ↔ x ∈ b) :
    a.dedup.length = b.dedup.length := by
  apply Perm.length_eq
  apply (perm_ext_iff_of_nodup a.nodup_dedup b.nodup_dedup).mpr
  exact fun x => by rw [mem_dedup, mem_dedup, h]

/-- A merge keeps the invariant if the labels saved cold stay cold. -/
theorem inv_doMerge (h : Inv rows s) (hcold : ∀ l, SavedCold rows l →
      (s.index.idsOf l).dedup.length < kApproxFilterThreshold)
    (hix : s.index.doMerge [] = some ix) : Inv rows ⟨ix, s.stored⟩ := by
  have hm := doMerge_spec h.ordered h.fits hix
  have hdelta : ∀ l, ix.deltaOf l = [] := fun l => by rw [deltaOf, hm.delta]; rfl
  have hids : ∀ l, ix.idsOf l = sortUnique (s.index.idsOf l) := fun l => by
    rw [idsOf, hm.base, hdelta, append_nil]
  refine ⟨⟨fun l => ?_, fun l _ => hdelta l⟩, hm.fits, fun id l hl => ?_, fun id l hl => ?_,
    fun id l hl => ?_⟩
  · rw [hids]
    exact (sortUnique_spec _).1.imp fun h => le_of_lt h
  · rw [hids, (sortUnique_spec _).2]
    exact h.listed id l hl
  · rw [hm.nVectors]
    exact h.bounded id l hl
  · refine (h.filtered id l hl).imp (hm.filters id (h.bounded id l hl) l).trans fun hc => ⟨hc.1, ?_⟩
    apply decide_eq_true
    rw [estimateLabelCnt, hm.base, length_sortUnique]
    exact hcold l hc.1

/-- **Every admitted insert keeps the invariant.** -/
theorem inv_step {s' : LabelStore} {a : Insert}
    (h : Inv rows s) (hok : InsertOk rows s a) (hs : step s a = some s') : Inv rows s' := by
  obtain ⟨ix', hins, hs⟩ := Option.bind_eq_some_iff.mp hs
  cases hs
  obtain ⟨ix, hdelta, hmerge⟩ := Option.bind_eq_some_iff.mp hins
  have hinv := inv_insertDelta h hok hdelta
  split at hmerge
  · next hdue =>
    obtain ⟨hpush, hb, -, hbase, -⟩ := insertDelta_spec hok.countable hdelta
    refine inv_doMerge hinv (fun l hl => ?_) hmerge
    have hwill : mergesAfter s.index a.attr := by
      rwa [mergeDue, hb, hbase, hpush.deltaBytes] at hdue
    have hsame : ∀ id, id ∈ ix.idsOf l ↔
        id ∈ s.index.idsOf l ++ if l ∈ a.attr then [a.vectorId] else [] := by
      intro id
      rw [hpush.mem_idsOf]
      split <;> simp_all
    exact length_dedup_congr hsame ▸ hok.staysCold hwill l hl.1 hl.2
  · cases hmerge
    exact hinv

/-- **No matching vector is rejected.**  After `save()` of any rows, in every run of
inserts that meet `InsertOk`, `is_member_approx` accepts every vector whose stored
labels satisfy the query, for the disjunction and for the conjunction of labels. -/
theorem approx_complete {bytes : Nat} {hbytes : 0 < bytes} {rows : List (List UInt32)}
    {ix : LabelIndex} (hsave : LabelIndex.save bytes hbytes rows = some ix)
    (hoffset : rows.length * bytes < 2 ^ 32) {s : LabelStore}
    (hr : Reach step (InsertOk rows) (saved rows ix) s) : s.ApproxComplete :=
  (hr.invariant (inv_saved hsave hoffset) fun _ _ _ h hok hs => inv_step h hok hs).approxComplete

/-- Two saved vectors and two inserts in order: label `0` has four vectors, and no
query loses one. -/
theorem approx_complete_inOrder : ((LabelIndex.save 4 (by decide) [[0, 1], [0]]).bind fun ix =>
      (runSteps (fun s a => if InsertOk [[0, 1], [0]] s a then step s a else none)
        (saved [[0, 1], [0]] ix) [⟨2, [0, 3]⟩, ⟨3, [0]⟩]).map fun s => s.index.idsOf 0) =
      some [0, 1, 2, 3] ∧
    ∀ ix s, LabelIndex.save 4 (by decide) [[0, 1], [0]] = some ix →
      runSteps (fun s a => if InsertOk [[0, 1], [0]] s a then step s a else none)
        (saved [[0, 1], [0]] ix) [⟨2, [0, 3]⟩, ⟨3, [0]⟩] = some s → s.ApproxComplete :=
  ⟨by decide +kernel, fun _ _ hsave hs =>
    approx_complete hsave (by decide) (Reach.of_run_checked hs)⟩

end LabelStore
end PipeANN
