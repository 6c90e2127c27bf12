import PipeANN.LabelIndexSafety

/-! # When the label index lists exactly the matching vectors

`pre_filter` and `pre_filter_and` (`attribute.h`) are meant to return the strictly
ascending list of the vectors whose labels satisfy the query.  They read one list per
label, what is on disk followed by the delta, and merge these lists as if each of them
were ascending; nothing sorts them.  `preFilter_exact_iff` says exactly when the answers are right:
after any saved rows and any inserts, every query that names a label is answered exactly
if and only if each label's list is strictly ascending.  The conjunction of no label at
all is answered with the empty list, although every vector satisfies it.

The lists are ascending in every history that inserts each vector once, with distinct
labels, and above the vectors that already have them (`labelsAscending_of_inOrder`).
A merge sorts the lists and drops repetitions, so it repairs what was out of order.

The label `UINT32_MAX` is left out: `label + 1` wraps to `0` and the resize that follows
empties `label_loc_`.
-/
namespace PipeANN

open Function SortedLists LabelIndex Option

namespace LabelStore
variable {s s' : LabelStore} {a : Insert} {rows : List (List UInt32)}

/-- `pre_filter` returns the ascending list of the vectors that satisfy the query. -/
def ExactOr (s : LabelStore) (query : List UInt32) : Prop :=
  Ascending (s.index.preFilter query) ∧ ∀ id, id ∈ s.index.preFilter query ↔
    id < s.index.nVectors ∧ labelOrIsMember query (s.stored id) = true

/-- `pre_filter_and` returns the ascending list of the vectors that satisfy the query. -/
def ExactAnd (s : LabelStore) (query : List UInt32) : Prop :=
  Ascending (s.index.preFilterAnd query) ∧ ∀ id, id ∈ s.index.preFilterAnd query ↔
    id < s.index.nVectors ∧ labelAndIsMember query (s.stored id) = true

/-- The list of every label, on disk and then in the delta, is strictly ascending. -/
def LabelsAscending (s : LabelStore) : Prop := ∀ l, Ascending (s.index.idsOf l)

/-- The labels of an insert can be counted in 32 bits. -/
def LabelsCountable (_ : LabelStore) (a : Insert) : Prop :=
  ∀ l ∈ a.attr, LabelIndex.Countable l

/-! ## What the lists hold -/

/-- The lists hold what was stored, in whatever order. -/
structure Tracks (s : LabelStore) : Prop where
  inRange : ∀ l : UInt32, s.index.labelLoc.length ≤ l.toNat → s.index.deltaOf l = []
  mem_idsOf : ∀ id l, id ∈ s.index.idsOf l ↔ l ∈ s.stored id
  bounded : ∀ id l, l ∈ s.stored id → id < s.index.nVectors

theorem Tracks.idsOf_eq_nil (h : s.Tracks) {l : UInt32}
    (hl : s.index.labelLoc.length ≤ l.toNat) : s.index.idsOf l = [] := by
  rw [idsOf, h.inRange l hl, List.getD_eq_default _ _ hl, List.append_nil]

variable {bytes : Nat} {hbytes : 0 < bytes} {ix : LabelIndex}

theorem tracks_saved (h : save bytes hbytes rows = some ix) : (saved rows ix).Tracks := by
  obtain ⟨-, hn, -, hdelta, hloc, -⟩ := save_spec h
  have hdeltaOf : ∀ l, ix.deltaOf l = [] := fun l => by rw [deltaOf, hdelta]; rfl
  have hmem : ∀ id l, id ∈ ix.idsOf l ↔ l ∈ rows.getD id [] := by
    intro id l
    rw [idsOf, hloc, hdeltaOf, List.append_nil]
    exact mem_rowIds
  refine ⟨fun l _ => hdeltaOf l, hmem, fun id l hl => ?_⟩
  have hid := ((rowIds_spec rows 0 l).2.1 id (mem_rowIds.mpr hl)).2
  show id < ix.nVectors
  omega

/-- What is stored after an insert. -/
theorem mem_stored_insert {id : Nat} {l : UInt32} :
    l ∈ update s.stored a.vectorId (s.stored a.vectorId ++ a.attr) id ↔
      l ∈ s.stored id ∨ id = a.vectorId ∧ l ∈ a.attr := by
  by_cases hid : id = a.vectorId
  · subst hid
    simp
  · simp [hid]

theorem Tracks.insertDelta (h : s.Tracks) (ha : LabelsCountable s a)
    (hix : s.index.insertDelta a.vectorId a.attr = some ix) :
    Tracks ⟨ix, update s.stored a.vectorId (s.stored a.vectorId ++ a.attr)⟩ := by
  obtain ⟨hpush, -, hn, -, -, -⟩ := insertDelta_spec ha hix
  refine ⟨hpush.inRange h.inRange, fun id l => ?_, fun id l hl => ?_⟩
  · rw [hpush.mem_idsOf, h.mem_idsOf, mem_stored_insert]
  · show id < ix.nVectors
    rcases mem_stored_insert.mp hl with hl | ⟨rfl, -⟩
    · have := h.bounded id l hl
      omega
    · omega

/-- A merge gives every label the ascending list of the same ids. -/
theorem Tracks.doMerge (h : s.Tracks) (hix : s.index.doMerge [] = some ix) :
    Tracks ⟨ix, s.stored⟩ ∧ ∀ l, Ascending (ix.idsOf l) := by
  obtain ⟨lists, hlists, rfl⟩ := doMerge_lists h.inRange hix
  have hids : ∀ l : UInt32, (lists.map sortUnique).getD l.toNat [] ++ [] =
      sortUnique (s.index.idsOf l) := fun l => by rw [List.append_nil, hlists]
  refine ⟨⟨fun l _ => rfl, fun id l => ?_, h.bounded⟩, fun l => ?_⟩
  · show id ∈ (lists.map sortUnique).getD l.toNat [] ++ [] ↔ _
    rw [hids, (sortUnique_spec _).2, h.mem_idsOf]
  · show Ascending ((lists.map sortUnique).getD l.toNat [] ++ [])
    rw [hids]
    exact (sortUnique_spec _).1

/-- The step of a call of `insert`: the delta grows, and may then be merged. -/
theorem step_cases (hs : step s a = some s') : ∃ ix,
    s.index.insertDelta a.vectorId a.attr = some ix ∧
    s'.stored = update s.stored a.vectorId (s.stored a.vectorId ++ a.attr) ∧
    (s'.index = ix ∨ ix.doMerge [] = some s'.index) := by
  obtain ⟨ix', hins, hs⟩ := bind_eq_some_iff.mp hs
  cases hs
  obtain ⟨ix, hdelta, hmerge⟩ := bind_eq_some_iff.mp hins
  refine ⟨ix, hdelta, rfl, ?_⟩
  split at hmerge
  · exact .inr hmerge
  · exact .inl (some.inj hmerge).symm

theorem tracks_step (h : s.Tracks) (ha : LabelsCountable s a) (hs : step s a = some s') :
    s'.Tracks := by
  obtain ⟨ix, hdelta, hstored, hindex⟩ := step_cases hs
  have hix := h.insertDelta ha hdelta
  obtain ⟨index, stored⟩ := s'
  subst hstored
  rcases hindex with hindex | hmerge
  · change index = ix at hindex
    exact hindex ▸ hix
  · exact (hix.doMerge hmerge).1

theorem tracks_of_reach (hsave : save bytes hbytes rows = some ix)
    (hr : Reach step LabelsCountable (saved rows ix) s) : s.Tracks :=
  hr.invariant (tracks_saved hsave) fun _ _ _ h ha hs => tracks_step h ha hs

/-! ## Exact answers -/

theorem Tracks.exactOr (h : s.Tracks) (hasc : s.LabelsAscending) (query : List UInt32) :
    s.ExactOr query := by
  obtain ⟨h1, h2⟩ := preFilter_of_pairwise between_lt hasc (fun _ => h.idsOf_eq_nil) query
  refine ⟨h1, fun id => (h2 id).trans ?_⟩
  rw [labelOrIsMember, List.any_eq_true]
  constructor
  · rintro ⟨l, hl, hid⟩
    have hst := (h.mem_idsOf id l).mp hid
    exact ⟨h.bounded id l hst, l, hl, List.contains_iff_mem.mpr hst⟩
  · rintro ⟨-, l, hl, hst⟩
    exact ⟨l, hl, (h.mem_idsOf id l).mpr (List.contains_iff_mem.mp hst)⟩

theorem Tracks.exactAnd (h : s.Tracks) (hasc : s.LabelsAscending) {query : List UInt32}
    (hq : query ≠ []) : s.ExactAnd query := by
  obtain ⟨h1, h2⟩ := preFilterAnd_of_pairwise between_lt hasc (fun _ => h.idsOf_eq_nil) hq
  refine ⟨h1, fun id => (h2 id).trans ?_⟩
  have hall : (∀ l ∈ query, id ∈ s.index.idsOf l) ↔
      labelAndIsMember query (s.stored id) := by
    simp only [labelAndIsMember, List.all_eq_true, List.contains_iff_mem, h.mem_idsOf]
  rw [hall]
  refine ⟨fun hm => ⟨?_, hm⟩, fun hm => hm.2⟩
  obtain ⟨l, hl⟩ := List.exists_mem_of_ne_nil _ hq
  exact h.bounded id l ((h.mem_idsOf id l).mp (hall.mpr hm l hl))

/-- A query for one label returns the list of the label as it is. -/
theorem Tracks.preFilter_singleton (h : s.Tracks) (l : UInt32) :
    s.index.preFilter [l] = s.index.idsOf l := by
  by_cases hnone : s.index.labelLoc.length ≤ l.toNat ∨ s.index.idsOf l = []
  · have hnil : s.index.idsOf l = [] := hnone.elim (fun hl => h.idsOf_eq_nil hl) fun h => h
    simp [preFilter, hnil, bySize]
  · simp only [preFilter, List.filterMap_cons, if_neg hnone]
    rfl

/-- No list is read for the conjunction of no label. -/
theorem exactAnd_nil_iff : s.ExactAnd [] ↔ s.index.nVectors = 0 := by
  have hempty : s.index.preFilterAnd [] = [] := rfl
  constructor
  · intro h
    by_contra hn
    have hmem := (h.2 0).mpr ⟨Nat.pos_of_ne_zero hn, rfl⟩
    exact absurd hmem List.not_mem_nil
  · intro hn
    refine ⟨hempty ▸ List.Pairwise.nil, fun id => ?_⟩
    rw [hn]
    exact ⟨fun h => absurd h List.not_mem_nil, fun h => absurd h.1 (Nat.not_lt_zero id)⟩

/-- **When the lists are exact.**  After `save()` of any rows and any inserts, with or
without a merge, `pre_filter` and `pre_filter_and` return the strictly ascending list of
exactly the matching vectors, for every query that names a label, if and only if the list
of every label is strictly ascending.  For no label at all, `pre_filter` is exact and
`pre_filter_and` is so only in an empty index. -/
theorem preFilter_exact_iff {bytes : Nat} {hbytes : 0 < bytes} {ix : LabelIndex}
    (hsave : LabelIndex.save bytes hbytes rows = some ix)
    (hr : Reach step LabelsCountable (saved rows ix) s) :
    ((∀ query, query ≠ [] → s.ExactOr query ∧ s.ExactAnd query) ↔ s.LabelsAscending) ∧
      s.ExactOr [] ∧ (s.ExactAnd [] ↔ s.index.nVectors = 0) := by
  have htracks := tracks_of_reach hsave hr
  refine ⟨⟨fun h l => ?_, fun hasc query hq => ?_⟩, ?_, exactAnd_nil_iff⟩
  · rw [← htracks.preFilter_singleton l]
    exact (h [l] (List.cons_ne_nil l [])).1.1
  · exact ⟨htracks.exactOr hasc query, htracks.exactAnd hasc hq⟩
  · refine ⟨List.Pairwise.nil, fun id => ?_⟩
    show id ∈ ([] : List Nat) ↔ _ ∧ false = true
    simp

/-- **The list of a label after two inserts with descending ids** is not ascending, and
`pre_filter` returns it as it is. -/
theorem not_exactOr_outOfOrder : ∃ index s, LabelIndex.save 4 (by decide) [[0]] = some index ∧
    Reach step anyStep (saved [[0]] index) s ∧ ¬ s.ExactOr [7] := by
  have hrun : (outOfOrderRun.map fun s => s.index.preFilter [7]) = some [5, 3] := by
    decide +kernel
  obtain ⟨s, hs, hlist⟩ := map_eq_some_iff.mp hrun
  unfold outOfOrderRun at hs
  obtain ⟨index, hsave, hs⟩ := bind_eq_some_iff.mp hs
  refine ⟨index, s, hsave, Reach.of_run hs, fun h => ?_⟩
  have hasc := h.1
  rw [hlist] at hasc
  exact absurd (hasc.head_lt (List.mem_singleton_self 3)) (by decide)

/-! ## Histories in order -/

/-- An insert of a vector with distinct labels, above those that have them already. -/
structure InOrder (s : LabelStore) (a : Insert) : Prop where
  countable : ∀ l ∈ a.attr, LabelIndex.Countable l
  nodup : a.attr.Nodup
  above : ∀ l ∈ a.attr, ∀ id ∈ s.index.idsOf l, id < a.vectorId

instance (s : LabelStore) (a : Insert) : Decidable (InOrder s a) :=
  decidable_of_iff (a.attr.all (fun l => l.toNat + 1 < 2 ^ 32) = true ∧ a.attr.Nodup ∧
      a.attr.all (fun l => (s.index.idsOf l).all fun id => id < a.vectorId) = true) <| by
    simp only [List.all_eq_true, decide_eq_true_eq]
    constructor
    · rintro ⟨h1, h2, h3⟩
      exact ⟨h1, h2, h3⟩
    · intro h
      exact ⟨h.1, h.2, h.3⟩

theorem pairwise_of_length_le_one {α : Type} {r : α → α → Prop} :
    ∀ {l : List α}, l.length ≤ 1 → l.Pairwise r
  | [], _ => List.Pairwise.nil
  | [x], _ => List.pairwise_singleton r x
  | _ :: _ :: _, h => by simp at h

/-- A label occurs at most once in a list without repetitions. -/
theorem length_filter_label {labels : List UInt32} (h : labels.Nodup) (l : UInt32) :
    (labels.filter fun l' => decide (l' = l)).length ≤ 1 := by
  have hcount := List.nodup_iff_count_le_one.mp h l
  rw [List.count_eq_countP, List.countP_eq_length_filter] at hcount
  simpa only [beq_eq_decide] using hcount

/-- The ids of a label in rows without repeated labels are strictly ascending. -/
theorem ascending_rowIds (hrows : ∀ row ∈ rows, row.Nodup) (k : Nat) (l : UInt32) :
    Ascending (rowIds rows k l.toNat) := by
  induction rows generalizing k with
  | nil => exact List.Pairwise.nil
  | cons row rows ih =>
    obtain ⟨hrow, hrows⟩ := List.forall_mem_cons.mp hrows
    refine List.pairwise_append.mpr ⟨?_, ih hrows (k + 1), fun x hx y hy => ?_⟩
    · apply pairwise_of_length_le_one
      have hone := length_filter_label hrow l
      simpa only [List.length_map, UInt32.toNat_inj] using hone
    · obtain ⟨-, -, rfl⟩ := List.mem_map.mp hx
      have := ((rowIds_spec rows (k + 1) l).2.1 y hy).1
      omega

theorem labelsAscending_saved (h : save bytes hbytes rows = some ix)
    (hrows : ∀ row ∈ rows, row.Nodup) : (saved rows ix).LabelsAscending := by
  intro l
  obtain ⟨-, -, -, hdelta, hloc, -⟩ := save_spec h
  show Ascending (ix.labelLoc.getD l.toNat [] ++ ix.deltaOf l)
  rw [hloc, deltaOf, hdelta]
  simpa using ascending_rowIds hrows 0 l

/-- **A vector inserted in order is the last of each of its labels.** -/
theorem labelsAscending_step (h : s.Tracks) (hasc : s.LabelsAscending) (ha : InOrder s a)
    (hs : step s a = some s') : s'.LabelsAscending := by
  obtain ⟨ix, hdelta, hstored, hindex⟩ := step_cases hs
  rcases hindex with hindex | hmerge
  · obtain ⟨hpush, -⟩ := insertDelta_spec ha.countable hdelta
    intro l
    rw [hindex, idsOf, hpush.base, deltaOf_append hpush.delta, ← List.append_assoc]
    refine List.pairwise_append.mpr ⟨hasc l, ?_, fun x hx y hy => ?_⟩
    · -- a label occurs once in the list of the vector
      apply pairwise_of_length_le_one
      rw [List.filter_map, List.map_map, List.length_map]
      exact length_filter_label ha.nodup l
    · obtain ⟨rfl, hl⟩ := mem_pushed.mp hy
      exact ha.above l hl x hx
  · have hix := h.insertDelta ha.countable hdelta
    exact (hix.doMerge hmerge).2

/-- In a history in order, every label's list is ascending. -/
theorem labelsAscending_of_inOrder
    (hsave : save bytes hbytes rows = some ix) (hrows : ∀ row ∈ rows, row.Nodup)
    (hr : Reach step InOrder (saved rows ix) s) : s.LabelsAscending := by
  have htracks : ∀ s, Reach step InOrder (saved rows ix) s → s.Tracks := fun s hr =>
    tracks_of_reach hsave (hr.mono fun _ _ ha => ha.countable)
  exact hr.invariant_of htracks (labelsAscending_saved hsave hrows)
    fun _ _ _ h _ hasc ha hs => labelsAscending_step h hasc ha hs

/-- Two saved vectors and two inserts in order: every query that names a label is answered
exactly. -/
theorem preFilter_exact_inOrder : ∃ ix s, LabelIndex.save 4 (by decide) [[0, 1], [0]] = some ix ∧
    Reach step LabelsCountable (saved [[0, 1], [0]] ix) s ∧
    s.index.preFilter [3, 1] = [0, 2] ∧
    ∀ query, query ≠ [] → s.ExactOr query ∧ s.ExactAnd query := by
  have hrun : ((save 4 (by decide) [[0, 1], [0]]).bind fun ix =>
      (runSteps (fun s a => if InOrder s a then step s a else none)
        (saved [[0, 1], [0]] ix) [⟨2, [0, 3]⟩, ⟨3, [0]⟩]).map fun s =>
          s.index.preFilter [3, 1]) = some [0, 2] := by
    decide +kernel
  obtain ⟨ix, hsave, hs⟩ := bind_eq_some_iff.mp hrun
  obtain ⟨s, hs, hlist⟩ := map_eq_some_iff.mp hs
  have hr := Reach.of_run_checked hs
  have hcount := hr.mono fun _ _ ha => ha.countable
  exact ⟨ix, s, hsave, hcount, hlist,
    (preFilter_exact_iff hsave hcount).1.mpr (labelsAscending_of_inOrder hsave (by decide) hr)⟩

end LabelStore
end PipeANN
