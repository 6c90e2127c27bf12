import PipeANN.CollectionStore
import PipeANN.MemIndex

/-! # Streaming updates

`DynamicIndex` (`dynamic_index.h`) is an index in memory, or an index on disk.  On disk the
points have ids, given in the order of the inserts, and records with a vector and
attributes; the in-memory index may then serve as navigation graph, with the disk ids as its
tags.  A delete puts the tag in `deleted_nodes_set_`, and a search drops the tags in this
set.  A save of a disk index writes the points that stay, with new ids, and empties the set.

An insert does not look at the set.  So a tag that was deleted and inserted again stays
hidden, and on disk a tag that is inserted twice has two vectors; in all other runs the tags
that a search may report are those inserted and not deleted since (`eligible_iff_latest`).
-/
namespace PipeANN.Streaming
open List Function Option

/-- `DynamicIndex`, of vectors of type `ν` and attributes of type `α`. -/
structure DynamicIndex (ν α : Type) where
  useDiskIndex : Bool
  useMemIndexForDiskIndex : Bool
  /-- Whether disk records have room for attributes (`attr_size_ > 0`). -/
  hasAttrs : Bool
  /-- `mem_index_`: the index in memory, or the navigation graph. -/
  mem : MemIndex ν
  /-- The disk index: the tag and the record of each id. -/
  disk : List (Nat × NodePayload ν α)
  /-- `deleted_nodes_`, without repetitions, and `deleted_nodes_set_`. -/
  deletedNodes : List Nat

/-- A call that changes the index, with what the code leaves open: whether an insert is one
of those that go to the navigation graph too, and the order in which a merge numbers the
points that stay. -/
inductive Op (ν α : Type) where
  | insert (point : ν) (tag : Nat) (attrs : α) (sampled : Bool)
  | lazyDelete (tag : Nat)
  | remove (tags : List Nat)
  | save (order : List Nat)

namespace DynamicIndex
variable {ν α : Type}

/-- `do_insert`. -/
def doInsert [Inhabited α] (ix : DynamicIndex ν α) (point : ν) (tag : Nat) (attrs : α)
    (sampled : Bool) : DynamicIndex ν α :=
  if ix.useDiskIndex then
    { ix with
      disk := ix.disk ++ [(tag, ⟨point, if ix.hasAttrs then attrs else default⟩)]
      mem :=
        if ix.useMemIndexForDiskIndex && sampled then ix.mem.insertPoint point ix.disk.length
        else ix.mem }
  else { ix with mem := ix.mem.insertPoint point tag }

variable (ix : DynamicIndex ν α)

/-- `lazy_delete`. -/
def lazyDelete (tag : Nat) : DynamicIndex ν α :=
  { ix with
    deletedNodes := if tag ∈ ix.deletedNodes then ix.deletedNodes else ix.deletedNodes ++ [tag]
    mem := ix.mem.lazyDelete tag }

/-- The bulk `remove`. -/
def remove (tags : List Nat) : DynamicIndex ν α :=
  tags.foldl lazyDelete ix

/-- The ids that a merge keeps. -/
def survivors : List Nat :=
  (List.range ix.disk.length).filter fun id => ix.disk[id]?.any (·.1 ∉ ix.deletedNodes)

/-- `save`: a disk index is merged, and `order` lists the old ids by their new numbers; an
index in memory is only written to a file. -/
def save (order : List Nat) : Option (DynamicIndex ν α) :=
  if ix.useDiskIndex then
    if order.Perm ix.survivors then
      some { ix with disk := order.filterMap (ix.disk[·]?), deletedNodes := [] }
    else none
  else some ix

def step [Inhabited α] (ix : DynamicIndex ν α) : Op ν α → Option (DynamicIndex ν α)
  | .insert point tag attrs sampled => some (ix.doInsert point tag attrs sampled)
  | .lazyDelete tag => some (ix.lazyDelete tag)
  | .remove tags => some (ix.remove tags)
  | .save order => ix.save order

/-! ## What a search may report -/

/-- The index in use has the vector `v` under a tag. -/
def Stored (tag : Nat) (v : ν) : Prop :=
  if ix.useDiskIndex then ∃ row ∈ ix.disk, row.1 = tag ∧ row.2.coords = v
  else ix.mem.Stored tag v

/-- A search may report the tag, for the vector `v`. -/
def Eligible (tag : Nat) (v : ν) : Prop :=
  ix.Stored tag v ∧ tag ∉ ix.deletedNodes

section
variable {ix} {order : List Nat}

theorem mem_survivors {id : Nat} : id ∈ ix.survivors ↔
    ∃ row, ix.disk[id]? = some row ∧ row.1 ∉ ix.deletedNodes := by
  rw [survivors, mem_filter, mem_range]
  constructor
  · rintro ⟨hlt, h⟩
    rw [getElem?_eq_getElem hlt] at h ⊢
    exact ⟨_, rfl, by simpa using h⟩
  · rintro ⟨row, hrow, hnot⟩
    exact ⟨(List.getElem?_eq_some_iff.mp hrow).1, by simpa [hrow] using hnot⟩

/-- A merge keeps the rows of the tags that are not deleted. -/
theorem mem_merged (h : order.Perm ix.survivors) {row : Nat × NodePayload ν α} :
    row ∈ order.filterMap (ix.disk[·]?) ↔ row ∈ ix.disk ∧ row.1 ∉ ix.deletedNodes := by
  rw [mem_filterMap]
  constructor
  · rintro ⟨id, hid, hrow⟩
    obtain ⟨row', hrow', hnot⟩ := mem_survivors.mp (h.mem_iff.mp hid)
    obtain rfl : row' = row := some.inj (hrow'.symm.trans hrow)
    exact ⟨mem_of_getElem? hrow, hnot⟩
  · rintro ⟨hmem, hnot⟩
    obtain ⟨id, hid⟩ := mem_iff_getElem?.mp hmem
    exact ⟨id, h.mem_iff.mpr (mem_survivors.mpr ⟨row, hid, hnot⟩), hid⟩

variable {tag u : Nat}

theorem mem_deletedNodes_lazyDelete :
    u ∈ (ix.lazyDelete tag).deletedNodes ↔ u ∈ ix.deletedNodes ∨ u = tag := by
  rw [lazyDelete]
  split
  next h => exact ⟨.inl, fun hu => hu.elim id fun he => he ▸ h⟩
  next => rw [mem_append, mem_singleton]

variable {v : ν}

theorem stored_disk (h : ix.useDiskIndex) :
    ix.Stored tag v ↔ ∃ row ∈ ix.disk, row.1 = tag ∧ row.2.coords = v := by
  rw [Stored, if_pos h]

theorem stored_mem (h : ix.useDiskIndex = false) : ix.Stored tag v ↔ ix.mem.Stored tag v := by
  rw [Stored, if_neg (by simp [h])]

/-- On disk an insert adds a vector for its tag. -/
theorem stored_doInsert_disk [Inhabited α] (h : ix.useDiskIndex) {point : ν}
    {attrs : α} {sampled : Bool} :
    (ix.doInsert point tag attrs sampled).Stored u v ↔ u = tag ∧ v = point ∨ ix.Stored u v := by
  have hdisk : (ix.doInsert point tag attrs sampled).disk =
      ix.disk ++ [(tag, ⟨point, if ix.hasAttrs then attrs else default⟩)] := by
    rw [doInsert, if_pos h]
  have huse : (ix.doInsert point tag attrs sampled).useDiskIndex := by
    rw [doInsert, if_pos h, h]
  rw [stored_disk huse, stored_disk h, hdisk]
  simp only [mem_append, mem_singleton]
  constructor
  · rintro ⟨row, hrow | rfl, rfl, rfl⟩
    · exact .inr ⟨row, hrow, rfl, rfl⟩
    · exact .inl ⟨rfl, rfl⟩
  · rintro (⟨rfl, rfl⟩ | ⟨row, hrow, rfl, rfl⟩)
    · exact ⟨_, .inr rfl, rfl, rfl⟩
    · exact ⟨row, .inl hrow, rfl, rfl⟩

theorem doInsert_mem [Inhabited α] (h : ix.useDiskIndex = false) (point : ν) (tag : Nat)
    (attrs : α) (sampled : Bool) :
    ix.doInsert point tag attrs sampled = { ix with mem := ix.mem.insertPoint point tag } := by
  rw [doInsert, if_neg (by simp [h])]

theorem useDiskIndex_doInsert [Inhabited α] (point : ν) (tag : Nat) (attrs : α)
    (sampled : Bool) : (ix.doInsert point tag attrs sampled).useDiskIndex = ix.useDiskIndex := by
  rw [doInsert]
  split <;> rfl

/-- A delete hides its tag, in memory and on disk. -/
theorem eligible_lazyDelete (hmem : ix.useDiskIndex = false → ix.mem.Distinct) :
    (ix.lazyDelete tag).Eligible u v ↔ ix.Eligible u v ∧ u ≠ tag := by
  rw [Eligible, Eligible, mem_deletedNodes_lazyDelete, not_or]
  rcases huse : ix.useDiskIndex with _ | _
  · have huse' : (ix.lazyDelete tag).useDiskIndex = false := huse
    rw [stored_mem huse', stored_mem huse]
    refine (and_congr_left fun _ => (hmem huse).stored_lazyDelete).trans ?_
    tauto
  · have huse' : (ix.lazyDelete tag).useDiskIndex := huse
    rw [stored_disk huse', stored_disk huse]
    exact (and_assoc).symm

/-- A save hides and shows nothing. -/
theorem eligible_save {ix' : DynamicIndex ν α} (h : ix.save order = some ix') :
    ix'.Eligible tag v ↔ ix.Eligible tag v := by
  rw [save] at h
  split at h
  next huse =>
    split at h
    next hperm =>
      cases h
      rw [Eligible, Eligible, Stored, Stored, if_pos huse, if_pos huse]
      constructor
      · rintro ⟨⟨row, hrow, rfl, rfl⟩, -⟩
        obtain ⟨hmem, hnot⟩ := (mem_merged hperm).mp hrow
        exact ⟨⟨row, hmem, rfl, rfl⟩, hnot⟩
      · rintro ⟨⟨row, hmem, rfl, rfl⟩, hnot⟩
        exact ⟨⟨row, (mem_merged hperm).mpr ⟨hmem, hnot⟩, rfl, rfl⟩, not_mem_nil⟩
    · cases h
  · rw [some.inj h]

end

/-- A search may report just the tags of `latest`, with their vectors. -/
def Shows (latest : Nat → Option ν) : Prop :=
  ∀ tag v, ix.Eligible tag v ↔ latest tag = some v

end DynamicIndex

open PipeANN.Streaming.DynamicIndex

/-! ## Runs -/

/-- An index, and for each tag the vector of its last insert if no delete came after it. -/
structure Tracked (ν α : Type) where
  ix : DynamicIndex ν α
  latest : Nat → Option ν

namespace Tracked
variable {ν α : Type}

/-- What a call means for the tags. -/
def track (latest : Nat → Option ν) : Op ν α → Nat → Option ν
  | .insert point tag _ _ => update latest tag (some point)
  | .lazyDelete tag => update latest tag none
  | .remove tags => tags.foldl (fun f tag => update f tag none) latest
  | .save _ => latest

def step [Inhabited α] (s : Tracked ν α) (op : Op ν α) : Option (Tracked ν α) :=
  (s.ix.step op).map fun ix => ⟨ix, track s.latest op⟩

/-- A built or loaded index: nothing is deleted, and its points count as inserted. -/
structure Start (s : Tracked ν α) : Prop where
  deleted : s.ix.deletedNodes = []
  distinct : s.ix.useDiskIndex = false → s.ix.mem.Distinct
  stored : ∀ tag v, s.ix.Stored tag v ↔ s.latest tag = some v

/-- The tag of an insert is not in the set of deleted tags, and on disk it is not stored with
another vector. -/
def OpOk (s : Tracked ν α) : Op ν α → Prop
  | .insert point tag _ _ => tag ∉ s.ix.deletedNodes ∧
      (s.ix.useDiskIndex = true → ∀ v, s.ix.Stored tag v → v = point)
  | _ => True

/-- What a run keeps. -/
structure Inv (s : Tracked ν α) : Prop where
  shows : s.ix.Shows s.latest
  distinct : s.ix.useDiskIndex = false → s.ix.mem.Distinct

variable {s : Tracked ν α}

theorem Start.inv (h : s.Start) : s.Inv where
  shows tag v := by
    rw [DynamicIndex.Eligible, h.deleted, h.stored]
    exact and_iff_left not_mem_nil
  distinct := h.distinct

theorem Inv.lazyDelete (hs : s.Inv) (tag : Nat) :
    Inv ⟨s.ix.lazyDelete tag, update s.latest tag none⟩ where
  shows u v := by
    rw [eligible_lazyDelete hs.distinct, hs.shows]
    by_cases hu : u = tag <;> simp [hu]
  distinct huse := (hs.distinct huse).lazyDelete tag

theorem Inv.remove (hs : s.Inv) (tags : List Nat) :
    Inv ⟨s.ix.remove tags, tags.foldl (fun f tag => update f tag none) s.latest⟩ := by
  induction tags generalizing s with
  | nil => exact hs
  | cons tag tags ih => exact ih (hs.lazyDelete tag)

section
variable [Inhabited α] {s s' : Tracked ν α}

/-- An insert shows its tag with its vector just when it meets the condition. -/
theorem Inv.shows_doInsert_iff (hs : s.Inv) {point : ν} {tag : Nat} {attrs : α} {sampled : Bool} :
    (s.ix.doInsert point tag attrs sampled).Shows (update s.latest tag (some point)) ↔
      s.OpOk (.insert point tag attrs sampled) := by
  have hnew : ∀ u v, (s.ix.doInsert point tag attrs sampled).Eligible u v ↔
      (s.ix.doInsert point tag attrs sampled).Stored u v ∧ u ∉ s.ix.deletedNodes := fun u v => by
    rw [DynamicIndex.Eligible, doInsert]
    split <;> rfl
  constructor
  · intro h
    have hpoint := (h tag point).mpr (update_self _ _ _)
    have hnot := ((hnew tag point).mp hpoint).2
    refine ⟨hnot, fun huse v hv => ?_⟩
    -- another vector of the tag would be reported too
    have hv' := (h tag v).mp ((hnew tag v).mpr ⟨(stored_doInsert_disk huse).mpr (.inr hv), hnot⟩)
    rw [update_self] at hv'
    exact (some.inj hv').symm
  · rintro ⟨hnot, hone⟩ u v
    have hold := hs.shows u v
    rw [DynamicIndex.Eligible] at hold
    rw [hnew, update_apply]
    rcases huse : s.ix.useDiskIndex with _ | _
    · rw [stored_mem (by rw [useDiskIndex_doInsert, huse]),
        doInsert_mem huse, (hs.distinct huse).stored_insertPoint]
      rw [stored_mem huse] at hold
      by_cases hu : u = tag
      · subst hu
        simp [hnot, eq_comm]
      · simpa [hu] using hold
    · rw [stored_doInsert_disk huse]
      by_cases hu : u = tag
      · subst hu
        rw [if_pos rfl, some.injEq]
        exact ⟨fun h => (h.1.elim And.right (hone huse v)).symm,
          fun h => ⟨.inl ⟨rfl, h.symm⟩, hnot⟩⟩
      · simpa [hu] using hold

variable {op : Op ν α}

theorem step_eq_some (h : s.step op = some s') :
    ∃ ix, s.ix.step op = some ix ∧ s' = ⟨ix, track s.latest op⟩ := by
  obtain ⟨ix, hix, rfl⟩ := map_eq_some_iff.mp h
  exact ⟨ix, hix, rfl⟩

/-- In memory, every call keeps the tags distinct. -/
theorem Inv.distinct_step (hs : s.Inv) (h : s.step op = some s') :
    s'.ix.useDiskIndex = false → s'.ix.mem.Distinct := by
  obtain ⟨ix, hix, rfl⟩ := step_eq_some h
  cases op with
  | insert point tag attrs sampled =>
    cases hix
    intro huse
    rw [useDiskIndex_doInsert] at huse
    rw [doInsert_mem huse]
    exact (hs.distinct huse).insertPoint point tag
  | lazyDelete tag =>
    cases hix
    exact (hs.lazyDelete tag).distinct
  | remove tags =>
    cases hix
    exact (hs.remove tags).distinct
  | save order =>
    have hix : s.ix.save order = some ix := hix
    rw [save] at hix
    split at hix
    next huse =>
      split at hix
      · cases hix
        exact fun h => absurd (huse.symm.trans h) (by simp)
      · cases hix
    next => exact some.inj hix ▸ hs.distinct

/-- A call keeps what a search may report right just when it meets the condition. -/
theorem Inv.shows_step_iff (hs : s.Inv) (h : s.step op = some s') :
    s'.ix.Shows s'.latest ↔ s.OpOk op := by
  obtain ⟨ix, hix, rfl⟩ := step_eq_some h
  cases op with
  | insert point tag attrs sampled =>
    cases hix
    exact hs.shows_doInsert_iff
  | lazyDelete tag =>
    cases hix
    exact iff_of_true (hs.lazyDelete tag).shows trivial
  | remove tags =>
    cases hix
    exact iff_of_true (hs.remove tags).shows trivial
  | save order =>
    exact iff_of_true (fun tag v => (eligible_save hix).trans (hs.shows tag v)) trivial

theorem inv_of_reach {s₀ : Tracked ν α} (h₀ : s₀.Start) (h : Reach step OpOk s₀ s) : s.Inv :=
  h.invariant h₀.inv fun _ _ _ hs hok hstep =>
    ⟨(hs.shows_step_iff hstep).mpr hok, hs.distinct_step hstep⟩

/-- **What a search may report.**  From a built or loaded index, after any calls in which no
insert has a tag that is in the set of deleted tags, or is stored on disk with another vector:
a search may report just the tags whose last call was an insert, with the vector of that
insert.  The next call keeps it so just when it meets the condition too. -/
theorem eligible_iff_latest {s₀ : Tracked ν α} (h₀ : s₀.Start) (h : Reach step OpOk s₀ s) :
    (∀ tag v, s.ix.Eligible tag v ↔ s.latest tag = some v) ∧ ∀ op s', s.step op = some s' →
        ((∀ tag v, s'.ix.Eligible tag v ↔ s'.latest tag = some v) ↔ s.OpOk op) :=
  ⟨(inv_of_reach h₀ h).shows, fun _ _ hstep => (inv_of_reach h₀ h).shows_step_iff hstep⟩

end

/-- An empty index, in memory or on disk. -/
def emptyIndex (useDiskIndex : Bool) : Tracked Nat Unit :=
  ⟨⟨useDiskIndex, false, false, MemIndex.build [], [], []⟩, fun _ => none⟩

theorem start_emptyIndex (useDiskIndex : Bool) : (emptyIndex useDiskIndex).Start where
  deleted := rfl
  distinct _ := MemIndex.distinct_build nodup_nil
  stored tag v := by
    refine iff_of_false (fun h => ?_) (by simp [emptyIndex])
    cases useDiskIndex with
    | false => exact not_mem_nil ((MemIndex.stored_build [] tag v).mp h)
    | true =>
      obtain ⟨row, hrow, -⟩ := h
      exact not_mem_nil hrow

/-- A tag deleted, merged away and inserted again is reported with its new vector. -/
theorem eligible_iff_latest_merged : ∃ s, runSteps step (emptyIndex true)
        [.insert 1 7 () false, .lazyDelete 7, .save [], .insert 2 7 () false] = some s ∧
      s.ix.Eligible 7 2 ∧ ¬ s.ix.Eligible 7 1 := by
  have hok : ∀ (s : Tracked Nat Unit) point, s.ix.useDiskIndex = true → s.ix.disk = [] →
      s.ix.deletedNodes = [] → s.OpOk (.insert point 7 () false) :=
    fun s point huse hdisk hdel => by
      refine ⟨by simp [hdel], fun _ v hv => ?_⟩
      rw [stored_disk huse, hdisk] at hv
      simp at hv
  refine ⟨_, rfl, ?_⟩
  have hreach := (eligible_iff_latest (start_emptyIndex true)
    (.step (.insert 2 7 () false) (.step (.save []) (.step (.lazyDelete 7)
      (.step (.insert 1 7 () false) .refl (hok _ _ rfl rfl rfl) rfl) trivial rfl) trivial rfl)
      (hok _ _ rfl rfl rfl) rfl)).1
  exact ⟨(hreach 7 2).mpr rfl, fun h => nomatch (hreach 7 1).mp h⟩

/-- A tag is inserted, deleted and inserted again. -/
def reinsert : List (Op Nat Unit) :=
  [.insert 1 7 () false, .lazyDelete 7, .insert 2 7 () false]

/-- The tag is not reported then, in memory and on disk. -/
theorem reinserted_hidden : (∃ s, runSteps step (emptyIndex false) reinsert = some s ∧
      s.latest 7 = some 2 ∧ ∀ v, ¬ s.ix.Eligible 7 v) ∧
    ∃ s, runSteps step (emptyIndex true) reinsert = some s ∧
      s.latest 7 = some 2 ∧ ∀ v, ¬ s.ix.Eligible 7 v :=
  ⟨⟨_, rfl, rfl, fun _ h => h.2 mem_cons_self⟩, _, rfl, rfl, fun _ h => h.2 mem_cons_self⟩

end Tracked
end PipeANN.Streaming
