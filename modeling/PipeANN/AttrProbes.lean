import PipeANN.LabelIndexSafety
import PipeANN.RangeUpdates

/-! # The arrays that approximate membership probes read

In disk mode `do_insert` (`dynamic_index.h`) gives every new point the next id and hands its
attributes to the attribute indexes (`attribute.h`) under whose key the row has one.  The
label index keeps one Bloom filter for each vector, the range index one bucket.  Both arrays
grow in `insert` only, so only with rows that have the key, while a filtered search probes
every id of the graph: after the insert of a row without the key the array may end before the
new id (`rowWithoutKey_outside`).

`probesInside_run_iff` says exactly when all probes of all ids stay inside: for any index
that was built over its points and any history of inserts, they do throughout if and only if
each insert reaches every array.  It does so if the row has the key, or if the array has room
for the new id from an earlier growth; a label index without a hot label is never probed.

Keys are distinct, both of a row and of the map of the indexes.  The string index tests the
bounds of its arrays itself and is left out.
-/
namespace PipeANN

open List SortedLists RangeIndex LabelIndex
open Option (bind_eq_some_iff some map_eq_some_iff)

/-! ## The filters that a label index reads -/

namespace LabelIndex
variable (ix : LabelIndex)

/-- The bytes of a vector's filter are among the first `size` bytes. -/
def FilterWithin (size id : Nat) : Prop :=
  bloomOffset ix.bloomBytesPerPoint id + ix.bloomBytesPerPoint ≤ size

/-- Whether `is_member_approx` looks into the vector's filter. -/
def probesFilter (targetId : Nat) (query : List UInt32) (coldList : List Nat) : Bool :=
  !binarySearch coldList targetId && query.any fun label => !ix.isColdLabel label

/-- Whether `is_member_approx_and` looks into the vector's filter. -/
def probesFilterAnd (targetId : Nat) (query : List UInt32) (coldList : List Nat) : Bool :=
  !(query.any ix.isColdLabel && !binarySearch coldList targetId) &&
    query.any fun label => !ix.isColdLabel label

/-- No query looks into a filter that is not inside `bloom_filters_`. -/
def ProbesInside (id : Nat) : Prop :=
  ∀ query coldList, ix.probesFilter id query coldList = true ∨
    ix.probesFilterAnd id query coldList = true → ix.FilterWithin ix.bloomSize id

/-- Some label is hot. -/
def HasHot : Prop := ∃ label, ix.isColdLabel label = false

end LabelIndex

/-! ## The indexes -/

/-- An attribute index with an array that is probed by id. -/
inductive AttrIndex where
  | label (ix : LabelIndex)
  | range (ix : RangeIndex.RangeAttrIndex)

namespace AttrIndex

/-- `insert`, if the row has the key of the index; the range index reads `attr[0]`. -/
def insertAttr (id : Nat) : AttrIndex → Option (List UInt32) → Option AttrIndex
  | ix, none => some ix
  | .label ix, some attr => (ix.insert id attr).map .label
  | .range ix, some attr => attr.head?.bind fun value => (ix.insert id value).map .range

/-- The probes of an id read inside the array of the index. -/
def ProbesInside (id : Nat) : AttrIndex → Prop
  | .label ix => ix.ProbesInside id
  | .range ix => id < ix.bucketIds.length

/-- **The array reaches the new id** after the insert: for a row without the key it does so
already; for a row with the key it grows, unless the 32-bit size of the filters overflows.  A
merge makes the filters reach all ids, and the label `UINT32_MAX` empties `label_loc_`. -/
def Reaches (id : Nat) : AttrIndex → Option (List UInt32) → Prop
  | .range ix, none => id < ix.bucketIds.length
  | .range _, some _ => True
  | .label ix, none => ix.HasHot → ix.FilterWithin ix.bloomSize id
  | .label ix, some attr => ix.HasHot → RangeIndex.uint32Max ∉ attr →
      LabelStore.mergesAfter ix attr = false → ix.FilterWithin (ix.grownSize id) id

/-- An index that `save` made for `n` points. -/
def BuiltFor (n : Nat) : AttrIndex → Prop
  | .label ix => ∃ bytes hbytes rows, LabelIndex.save bytes hbytes rows = some ix ∧ rows.length = n
  | .range ix => ∃ attrs h, ix = .save attrs h ∧ attrs.length = n

end AttrIndex

/-- A disk index as its attribute indexes see it: the number of points and the map of the
indexes by key. -/
structure IndexedPoints where
  nPoints : Nat
  attrIndexMap : List (Nat × AttrIndex)

namespace IndexedPoints

/-- The loop of `do_insert`: every index gets the attribute under its key. -/
def insertAll (id : Nat) (row : List (Nat × List UInt32)) :
    List (Nat × AttrIndex) → Option (List (Nat × AttrIndex))
  | [] => some []
  | (key, ix) :: rest => do
      let ix' ← ix.insertAttr id (row.lookup key)
      let rest' ← insertAll id row rest
      some ((key, ix') :: rest')

/-- `do_insert` of a row; a point without attributes has an empty one. -/
def step (s : IndexedPoints) (row : List (Nat × List UInt32)) : Option IndexedPoints :=
  (insertAll s.nPoints row s.attrIndexMap).map fun indexes => ⟨s.nPoints + 1, indexes⟩

/-- All probes of all ids read inside the arrays. -/
def ProbesInside (s : IndexedPoints) : Prop :=
  ∀ p ∈ s.attrIndexMap, ∀ id < s.nPoints, p.2.ProbesInside id

/-- The insert of a row reaches every array. -/
def Reaches (s : IndexedPoints) (row : List (Nat × List UInt32)) : Prop :=
  ∀ p ∈ s.attrIndexMap, p.2.Reaches s.nPoints (row.lookup p.1)

/-- Every index was built over the points. -/
def Built (s : IndexedPoints) : Prop := ∀ p ∈ s.attrIndexMap, p.2.BuiltFor s.nPoints

end IndexedPoints

/-! ## The filters after an insert -/

namespace LabelIndex
variable {ix ix' : LabelIndex} {id n : Nat} {attr : List UInt32}

/-- The probes of an id are inside exactly if its filter is, or no label is hot. -/
theorem probesInside_iff : ix.ProbesInside id ↔ (ix.HasHot → ix.FilterWithin ix.bloomSize id) := by
  constructor
  · rintro h ⟨label, hhot⟩
    refine h [label] [] (.inl ?_)
    have hnone : binarySearch ([] : List Nat) id = false := rfl
    simp [probesFilter, hnone, hhot]
  · rintro h query coldList (hprobe | hprobe)
    all_goals
      simp only [probesFilter, probesFilterAnd, Bool.and_eq_true, any_eq_true] at hprobe
      obtain ⟨-, label, -, hhot⟩ := hprobe
      exact h ⟨label, by simpa using hhot⟩

/-- The array of `n` filters has all of them. -/
theorem filterWithin_of_lt (h : id < n) : ix.FilterWithin (n * ix.bloomBytesPerPoint) id :=
  calc bloomOffset ix.bloomBytesPerPoint id + ix.bloomBytesPerPoint
      ≤ id * ix.bloomBytesPerPoint + ix.bloomBytesPerPoint :=
        Nat.add_le_add_right (Nat.mod_le _ _) _
    _ = (id + 1) * ix.bloomBytesPerPoint := (Nat.succ_mul _ _).symm
    _ ≤ n * ix.bloomBytesPerPoint := Nat.mul_le_mul_right _ h

/-- The fields of the index after the labels were put in the delta. -/
structure Labelled (ix ix' : LabelIndex) (attr : List UInt32) : Prop where
  bytes : ix'.bloomBytesPerPoint = ix.bloomBytesPerPoint
  base : ix'.baseNVectors = ix.baseNVectors
  deltaBytes : ix'.deltaBytes = ix.deltaBytes + 8 * attr.length
  short : ix.labelLoc.length < 2 ^ 32 → ix'.labelLoc.length < 2 ^ 32

theorem labelled_insertLabels (ix : LabelIndex) (id : Nat) (attr : List UInt32) :
    Labelled ix (ix.insertLabels id attr) attr := by
  induction attr generalizing ix with
  | nil => exact ⟨rfl, rfl, rfl, fun h => h⟩
  | cons l attr ih =>
    obtain ⟨h1, h2, h3, h4⟩ := ih (ix.insertLabel id l)
    refine ⟨h1, h2, h3.trans ?_, fun hlen => h4 ?_⟩
    · rw [length_cons]
      show ix.deltaBytes + 2 * 4 + 8 * attr.length = _
      omega
    · show (if _ then resizeLists ix.labelLoc (l + 1).toNat else ix.labelLoc).length < _
      split
      · rw [length_resizeLists]
        exact (l + 1).toNat_lt
      · exact hlen

/-- Without the label `UINT32_MAX` the lists on disk stay as they are. -/
theorem hasHot_insertLabels (hmax : uint32Max ∉ attr) :
    (ix.insertLabels id attr).HasHot ↔ ix.HasHot := by
  have hcount : ∀ l ∈ attr, Countable l := by
    intro l hl
    have hne : l ≠ uint32Max := fun h => hmax (h ▸ hl)
    have := l.toNat_lt
    rw [Ne, ← UInt32.toNat_inj] at hne
    simp only [uint32Max, UInt32.reduceToNat, Countable] at hne ⊢
    omega
  have hbase := (insertLabels_spec id attr ix hcount).base
  refine exists_congr fun label => ?_
  rw [isColdLabel, estimateLabelCnt, hbase]
  rfl

/-- All lists are empty. -/
def AllEmpty (lists : List (List Nat)) : Prop := ∀ l ∈ lists, l = []

theorem AllEmpty.resizeLists {lists : List (List Nat)} (h : AllEmpty lists) (n : Nat) :
    AllEmpty (resizeLists lists n) := by
  intro l hl
  rcases mem_append.mp hl with hl | hl
  · exact h l (mem_of_mem_take hl)
  · exact eq_of_mem_replicate hl

/-- The label `UINT32_MAX` empties `label_loc_`, and what is added later is empty. -/
theorem allEmpty_insertLabels (hlen : ix.labelLoc.length < 2 ^ 32)
    (h : uint32Max ∈ attr ∨ AllEmpty ix.labelLoc) :
    AllEmpty (ix.insertLabels id attr).labelLoc := by
  induction attr generalizing ix with
  | nil => exact h.resolve_left not_mem_nil
  | cons l attr ih =>
    have hshort := (labelled_insertLabels ix id [l]).short hlen
    refine @ih (ix.insertLabel id l) hshort ?_
    by_cases hl : l = uint32Max
    · right
      have hle : ix.labelLoc.length ≤ l.toNat := by
        rw [hl]
        simp only [uint32Max, UInt32.reduceToNat]
        omega
      show AllEmpty (if _ then resizeLists ix.labelLoc (l + 1).toNat else ix.labelLoc)
      rw [if_pos hle, hl]
      exact fun x hx => absurd hx (by simp [PipeANN.resizeLists, uint32Max])
    · rcases h with hmem | hempty
      · exact .inl ((mem_cons.mp hmem).resolve_left (Ne.symm hl))
      · right
        show AllEmpty (if _ then resizeLists ix.labelLoc (l + 1).toNat else ix.labelLoc)
        split
        · exact hempty.resizeLists _
        · exact hempty

theorem not_hasHot_of_allEmpty (h : AllEmpty ix.labelLoc) : ¬ ix.HasHot := by
  rintro ⟨label, hhot⟩
  have hnil : ix.labelLoc.getD label.toNat [] = [] := by
    rw [getD_eq_getElem?_getD]
    cases hget : ix.labelLoc[label.toNat]? with
    | none => rfl
    | some l => exact h l (mem_of_getElem? hget)
  rw [isColdLabel, estimateLabelCnt, hnil] at hhot
  exact absurd hhot (by decide)

/-- `insert` puts the labels in the delta and then merges, or does not. -/
theorem insert_cases (h : ix.insert id attr = some ix') : ∃ ix₁, ix.insertDelta id attr = some ix₁ ∧
      (LabelStore.mergesAfter ix attr ∧ ix₁.doMerge [] = some ix' ∨
        LabelStore.mergesAfter ix attr = false ∧ ix' = ix₁) := by
  obtain ⟨ix₁, hdelta, h⟩ := bind_eq_some_iff.mp h
  have hdue : ix₁.mergeDue = LabelStore.mergesAfter ix attr := by
    rw [insertDelta] at hdelta
    split at hdelta
    · cases hdelta
      obtain ⟨hbytes, hbase, hdb, -⟩ := labelled_insertLabels ix id attr
      show decide (max _ ((ix.insertLabels id attr).bloomBytesPerPoint *
        (ix.insertLabels id attr).baseNVectors / 8) ≤ (ix.insertLabels id attr).deltaBytes) = _
      rw [hbytes, hbase, hdb]
      rfl
    · cases hdelta
  refine ⟨ix₁, hdelta, ?_⟩
  rw [hdue] at h
  split at h
  · next hmerge => exact .inl ⟨hmerge, h⟩
  · next hmerge => exact .inr ⟨Bool.eq_false_iff.mpr hmerge, (some.inj h).symm⟩

theorem insertDelta_fields (h : ix.insertDelta id attr = some ix') :
    ix'.bloomBytesPerPoint = ix.bloomBytesPerPoint ∧ ix'.bloomSize = ix.grownSize id ∧
      ix'.nVectors = max ix.nVectors (id + 1) ∧
      ix'.labelLoc = (ix.insertLabels id attr).labelLoc := by
  rw [insertDelta] at h
  split at h
  · cases h
    exact ⟨(labelled_insertLabels ix id attr).bytes, rfl, rfl, rfl⟩
  · cases h

theorem length_collectIds (nLabels : Nat) (rows : List (List UInt32)) :
    (collectIds nLabels rows).length = nLabels := by
  have hrow : ∀ (row : List UInt32) (id : Nat) (lists : List (List Nat)),
      (row.foldl (fun lists l => pushId lists l id) lists).length = lists.length := by
    intro row id
    induction row with
    | nil => exact fun _ => rfl
    | cons l row ih => exact fun lists => (ih _).trans (length_pushId lists l id)
  exact foldlRecOn (motive := fun lists : List (List Nat) => lists.length = nLabels) _ _
    length_replicate fun lists h p _ => (hrow p.1 p.2 lists).trans h

theorem doMerge_fields (h : ix.doMerge [] = some ix') :
    ix'.bloomBytesPerPoint = ix.bloomBytesPerPoint ∧
      ix'.bloomSize = ix.nVectors * ix.bloomBytesPerPoint ∧ ix'.nVectors = ix.nVectors ∧
      (ix.labelLoc.length < 2 ^ 32 → ix'.labelLoc.length < 2 ^ 32) := by
  obtain ⟨lists, hlists, h⟩ := bind_eq_some_iff.mp h
  cases h
  refine ⟨rfl, rfl, rfl, fun hlen => ?_⟩
  rw [length_map]
  have hfold : ∀ (ps : List (UInt32 × Nat)) (a b : List (List Nat)), a.length < 2 ^ 32 →
      ps.foldlM (mergeDelta []) a = some b → b.length < 2 ^ 32 := by
    intro ps
    induction ps with
    | nil =>
      intro a b ha hb
      exact some.inj hb ▸ ha
    | cons p ps ih =>
      intro a b ha hb
      obtain ⟨c, hc, hb⟩ := bind_eq_some_iff.mp hb
      refine ih c b ?_ hb
      rw [length_mergeDelta hc]
      split_ifs
      · exact (p.1 + 1).toNat_lt
      · exact ha
  exact hfold _ _ _ (by rwa [length_map]) hlists

/-- The index counts no vector that does not exist, and its labels fit 32 bits. -/
structure Sized (n : Nat) (ix : LabelIndex) : Prop where
  vectors : ix.nVectors ≤ n
  labels : ix.labelLoc.length < 2 ^ 32

theorem Sized.insert (hs : ix.Sized id) (h : ix.insert id attr = some ix') :
    ix'.Sized (id + 1) := by
  obtain ⟨ix₁, hdelta, hcases⟩ := insert_cases h
  obtain ⟨-, -, hn, hloc⟩ := insertDelta_fields hdelta
  have hshort := (labelled_insertLabels ix id attr).short hs.labels
  have hle := hs.vectors
  rw [← hloc] at hshort
  rcases hcases with ⟨-, hmerge⟩ | ⟨-, rfl⟩
  · obtain ⟨-, -, hn', hlen⟩ := doMerge_fields hmerge
    exact ⟨by omega, hlen hshort⟩
  · exact ⟨by omega, hshort⟩

/-- **The filters after an insert of the newest id.** -/
theorem probesInside_insert_iff (hs : ix.Sized n) (hin : ∀ id < n, ix.ProbesInside id)
    (h : ix.insert n attr = some ix') :
    (∀ id < n + 1, ix'.ProbesInside id) ↔ AttrIndex.Reaches n (.label ix) (some attr) := by
  obtain ⟨ix₁, hdelta, hcases⟩ := insert_cases h
  obtain ⟨hbytes, hsize, hn, hloc⟩ := insertDelta_fields hdelta
  have hle := hs.vectors
  rcases hcases with ⟨hdue, hmerge⟩ | ⟨hdue, rfl⟩
  · -- the merge leaves one filter for each vector
    obtain ⟨hbytes', hsize', hn', -⟩ := doMerge_fields hmerge
    refine iff_of_true (fun id hid => probesInside_iff.mpr fun _ => ?_) fun _ _ hno => ?_
    · rw [hsize', hn, ← hbytes', show max ix.nVectors (n + 1) = n + 1 by omega]
      exact filterWithin_of_lt hid
    · rw [hdue] at hno
      cases hno
  · by_cases hmax : uint32Max ∈ attr
    · have hcold : ¬ ix'.HasHot := not_hasHot_of_allEmpty <| by
        rw [hloc]
        exact allEmpty_insertLabels hs.labels (.inl hmax)
      exact iff_of_true (fun id _ => probesInside_iff.mpr fun hhot => absurd hhot hcold)
        fun _ hno => absurd hmax hno
    · have hhot : ix'.HasHot ↔ ix.HasHot := by
        refine Iff.trans (exists_congr fun label => ?_) (@hasHot_insertLabels ix n attr hmax)
        rw [isColdLabel, estimateLabelCnt, hloc]
        rfl
      have hwithin : ∀ size id, ix'.FilterWithin size id ↔ ix.FilterWithin size id := by
        intro size id
        rw [FilterWithin, FilterWithin, hbytes]
      simp only [probesInside_iff, hhot, hwithin, hsize] at hin ⊢
      constructor
      · intro h' hh _ _
        exact h' n (Nat.lt_succ_self n) hh
      · intro hreach id hid hh
        rcases Nat.lt_succ_iff_lt_or_eq.mp hid with hlt | rfl
        · exact (hin id hlt hh).trans (by rw [grownSize]; split <;> omega)
        · exact hreach hh hmax hdue

end LabelIndex

/-! ## The indexes after an insert -/

namespace AttrIndex
variable {ix ix' : AttrIndex} {n : Nat} {attr : Option (List UInt32)}

/-- What every insert keeps. -/
def Sized (n : Nat) : AttrIndex → Prop
  | .label ix => ix.Sized n
  | .range _ => True

theorem Sized.insertAttr (hs : ix.Sized n) (h : ix.insertAttr n attr = some ix') :
    ix'.Sized (n + 1) := by
  cases attr with
  | none =>
    cases h
    cases ix with
    | label ix => exact ⟨hs.vectors.trans (Nat.le_succ n), hs.labels⟩
    | range ix => trivial
  | some attr =>
    cases ix with
    | label ix =>
      obtain ⟨ix₁, h₁, rfl⟩ := map_eq_some_iff.mp h
      exact LabelIndex.Sized.insert hs h₁
    | range ix =>
      obtain ⟨value, -, h⟩ := bind_eq_some_iff.mp h
      obtain ⟨ix₁, -, rfl⟩ := map_eq_some_iff.mp h
      trivial

/-- An insert keeps the probes of an index inside exactly if it reaches the array. -/
theorem probesInside_insertAttr_iff (hs : ix.Sized n) (hin : ∀ id < n, ix.ProbesInside id)
    (h : ix.insertAttr n attr = some ix') :
    (∀ id < n + 1, ix'.ProbesInside id) ↔ ix.Reaches n attr := by
  cases attr with
  | none =>
    cases h
    have hnew : (∀ id < n + 1, ix.ProbesInside id) ↔ ix.ProbesInside n := by
      refine ⟨fun h' => h' n (Nat.lt_succ_self n), fun h' id hid => ?_⟩
      rcases Nat.lt_succ_iff_lt_or_eq.mp hid with hlt | rfl
      · exact hin id hlt
      · exact h'
    rw [hnew]
    cases ix with
    | label ix => exact probesInside_iff
    | range ix => exact Iff.rfl
  | some attr =>
    cases ix with
    | label ix =>
      obtain ⟨ix₁, h₁, rfl⟩ := map_eq_some_iff.mp h
      exact probesInside_insert_iff hs hin h₁
    | range ix =>
      obtain ⟨value, -, h⟩ := bind_eq_some_iff.mp h
      obtain ⟨ix₁, h₁, rfl⟩ := map_eq_some_iff.mp h
      obtain ⟨-, hself, hother⟩ := RangeIndex.RangeAttrIndex.insert_eq_some h₁
      refine iff_of_true (fun id hid => ?_) trivial
      rcases Nat.lt_succ_iff_lt_or_eq.mp hid with hlt | rfl
      · have hold := getElem?_eq_getElem (hin id hlt)
        exact (List.getElem?_eq_some_iff.mp (hother id _ (ne_of_lt hlt) hold)).1
      · exact (List.getElem?_eq_some_iff.mp hself).1

theorem BuiltFor.spec (h : ix.BuiltFor n) : ix.Sized n ∧ ∀ id < n, ix.ProbesInside id := by
  cases ix with
  | label ix =>
    obtain ⟨bytes, hbytes, rows, hsave, rfl⟩ := h
    obtain ⟨hb, hn, hsize, -⟩ := LabelIndex.save_spec hsave
    refine ⟨⟨hn.le, ?_⟩, fun id hid => LabelIndex.probesInside_iff.mpr fun _ => ?_⟩
    · rw [LabelIndex.save] at hsave
      split at hsave
      · cases hsave
        rw [LabelIndex.length_collectIds]
        exact (maxLabelId rows + 1).toNat_lt
      · cases hsave
    · rw [hsize, ← hb]
      exact filterWithin_of_lt hid
  | range ix =>
    obtain ⟨attrs, hne, rfl, rfl⟩ := h
    refine ⟨trivial, fun id hid => ?_⟩
    show id < ((List.range attrs.length).map _).length
    rwa [length_map, length_range]

end AttrIndex

/-! ## Histories -/

namespace IndexedPoints
variable {s s' s₀ : IndexedPoints} {row : List (Nat × List UInt32)}

theorem insertAll_eq_some {id : Nat} : ∀ {indexes indexes' : List (Nat × AttrIndex)},
    insertAll id row indexes = some indexes' →
      Forall₂ (fun p p' => p.2.insertAttr id (row.lookup p.1) = some p'.2) indexes indexes'
  | [], _, h => by
    cases h
    exact .nil
  | (key, ix) :: rest, _, h => by
    obtain ⟨ix', hix, h⟩ := bind_eq_some_iff.mp h
    obtain ⟨rest', hrest, h⟩ := bind_eq_some_iff.mp h
    cases h
    exact .cons hix (insertAll_eq_some hrest)

/-- Two lists that are related element by element, and a property of each element. -/
theorem forall_iff_of_forall₂ {α β : Type} {R : α → β → Prop} {P : α → Prop} {Q : β → Prop}
    {l : List α} {l' : List β} (h : Forall₂ R l l')
    (hPQ : ∀ a ∈ l, ∀ b, R a b → (Q b ↔ P a)) : (∀ b ∈ l', Q b) ↔ ∀ a ∈ l, P a := by
  induction h with
  | nil => simp
  | cons hab _ ih =>
    rw [forall_mem_cons, forall_mem_cons, hPQ _ mem_cons_self _ hab,
      ih fun a ha => hPQ a (mem_cons_of_mem _ ha)]

/-- What every insert keeps. -/
def Sized (s : IndexedPoints) : Prop := ∀ p ∈ s.attrIndexMap, p.2.Sized s.nPoints

theorem Sized.step (hs : s.Sized) (h : IndexedPoints.step s row = some s') : s'.Sized := by
  obtain ⟨indexes, hall, rfl⟩ := map_eq_some_iff.mp h
  refine (forall_iff_of_forall₂ (insertAll_eq_some hall) ?_).mpr
    fun _ _ => trivial
  exact fun p hp p' hins => iff_of_true ((hs p hp).insertAttr hins) trivial

theorem probesInside_step_iff (hs : s.Sized) (hin : s.ProbesInside)
    (h : step s row = some s') : s'.ProbesInside ↔ s.Reaches row := by
  obtain ⟨indexes, hall, rfl⟩ := map_eq_some_iff.mp h
  refine forall_iff_of_forall₂ (insertAll_eq_some hall) fun p hp p' hins => ?_
  exact AttrIndex.probesInside_insertAttr_iff (hs p hp) (hin p hp) hins

/-- **When all probes stay inside the arrays.**  For an index that was built over its points
and any history of inserts, all approximate membership probes of all ids read inside the
arrays at every moment if and only if every insert reaches every array. -/
theorem probesInside_run_iff {ops : List (List (Nat × List UInt32))} (h₀ : s₀.Built)
    (hrun : runSteps step s₀ ops = some s) :
    Always step s₀ ops ProbesInside ↔ EachStep step s₀ ops Reaches := by
  have hsized : s₀.Sized := fun p hp => (h₀ p hp).spec.1
  exact always_iff_eachStep hrun (always_of_step hsized fun _ _ _ ht hs => ht.step hs)
    (fun p hp => (h₀ p hp).spec.2) fun _ _ _ ht hI hs => probesInside_step_iff ht hI hs

/-- One point with the value `5` under the key `0`. -/
def onePoint : IndexedPoints := ⟨1, [(0, .range (.save [5] (cons_ne_nil _ _)))]⟩

theorem built_onePoint : onePoint.Built := by
  intro p hp
  obtain rfl := mem_singleton.mp hp
  exact ⟨[5], cons_ne_nil _ _, rfl, rfl⟩

/-- **A probe outside the array**: the second point has no attributes, and its bucket is read
behind the end of `bucket_ids_`. -/
theorem rowWithoutKey_outside : onePoint.Built ∧ ∃ s, runSteps step onePoint [[]] = some s ∧
    s.nPoints = 2 ∧ ¬ s.ProbesInside := by
  refine ⟨built_onePoint, _, rfl, rfl, fun h => ?_⟩
  have := h _ (mem_singleton.mpr rfl) 1 (by decide)
  exact absurd this (lt_irrefl 1)

/-- A row with the key makes room for a row without it. -/
theorem probesInside_run_withRoom : ∃ s, runSteps step onePoint [[(0, [7])], []] = some s ∧
    (Always step onePoint [[(0, [7])], []] ProbesInside ↔
      EachStep step onePoint [[(0, [7])], []] Reaches) := by
  have hrun : (runSteps step onePoint [[(0, [7])], []]).isSome = true := by decide +kernel
  obtain ⟨s, hs⟩ := Option.isSome_iff_exists.mp hrun
  exact ⟨s, hs, probesInside_run_iff built_onePoint hs⟩

end IndexedPoints
end PipeANN
