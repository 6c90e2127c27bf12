import PipeANN.FilterCompiler
import PipeANN.LastWrites
import PipeANN.Streaming

/-! # From memory to disk

The bulk `add` of `DynamicIndex` inserts its rows and then, if the index is in memory and has
more than `kBuildThreshold` points, turns it into a disk index: the vectors and the tags of
the in-memory index are written to files, a disk index is built from them, and loaded.  The
tag of a deleted location is `0` then (`MemIndex.saveTags`).

The attributes of the rows went to the attribute indexes alone.  The builder is given no
attributes, so it writes records with none, and `is_member` of a row on disk sees none.
-/
namespace PipeANN.Streaming
open List
namespace DynamicIndex
variable {ν α : Type} [Inhabited α]

variable (ix : DynamicIndex ν α) (rows : List (Nat × NodePayload ν α))

/-- `transform_mem_index_to_disk_index`; no navigation graph is built. -/
def transform : DynamicIndex ν α :=
  { ix with
    useDiskIndex := true
    useMemIndexForDiskIndex := false
    disk := ix.mem.savedTags.zip (ix.mem.vectors.map fun v => ⟨v, default⟩) }

/-- The loop of `add`, in the order in which the rows are inserted; the index has no
navigation graph. -/
def insertAll : DynamicIndex ν α :=
  rows.foldl (fun ix row => ix.doInsert row.2.coords row.1 row.2.attrs false) ix

/-- The bulk `add`. -/
def add : DynamicIndex ν α :=
  let ix := ix.insertAll rows
  if !ix.useDiskIndex && kBuildThreshold < ix.mem.vectors.length then ix.transform else ix

/-- A new index in memory. -/
def inMemory (hasAttrs : Bool) : DynamicIndex ν α :=
  ⟨false, false, hasAttrs, MemIndex.build [], [], []⟩

end DynamicIndex
end PipeANN.Streaming

namespace PipeANN.MemIndex
open List
variable {ν α : Type}

variable (m : MemIndex ν) (rows : List (Nat × NodePayload ν α))

/-- The inserts of a list of rows. -/
def insertPoints : MemIndex ν :=
  rows.foldl (fun m row => m.insertPoint row.2.coords row.1) m

theorem insertPoints_append_singleton (row : Nat × NodePayload ν α) :
    m.insertPoints (rows ++ [row]) = (m.insertPoints rows).insertPoint row.2.coords row.1 :=
  foldl_concat ..

theorem length_vectors_insertPoints :
    (m.insertPoints rows).vectors.length = m.vectors.length + rows.length := by
  induction rows using reverseRecOn with
  | nil => rfl
  | append_singleton rows row ih =>
    rw [insertPoints_append_singleton, vectors_insertPoint, length_append,
      length_append, ih]
    rfl

variable {m} in
theorem distinct_insertPoints (hm : m.Distinct) : (m.insertPoints rows).Distinct :=
  foldlRecOn rows _ hm fun _ h row _ => h.insertPoint row.2.coords row.1

/-- The tags that are found after inserts into an empty index. -/
theorem tagToLocation_insertPoints (t : Nat) :
    ((build []).insertPoints rows).maps.tagToLocation t = none ↔ t ∉ rows.map Prod.fst := by
  induction rows using reverseRecOn with
  | nil => exact iff_of_true rfl not_mem_nil
  | append_singleton rows row ih =>
    rw [insertPoints_append_singleton, insertPoint, TagMaps.tagToLocation_set,
      tagToLocation_lazyDelete]
    by_cases ht : t = row.1
    · simp [ht]
    · rw [if_neg ht, if_neg ht, ih]
      simp [ht]

/-- Inserts into an empty index delete a location just when a tag is repeated. -/
theorem deleteSet_insertPoints :
    ((build []).insertPoints rows).deleteSet = [] ↔ (rows.map Prod.fst).Nodup := by
  induction rows using reverseRecOn with
  | nil => exact iff_of_true rfl nodup_nil
  | append_singleton rows row ih =>
    have htag := tagToLocation_insertPoints rows row.1
    rw [insertPoints_append_singleton, map_append, map_cons, map_nil,
      nodup_append_comm, singleton_append, nodup_cons, ← htag, ← ih]
    change (lazyDelete _ row.1).deleteSet = [] ↔ _
    rcases lazyDelete_cases ((build []).insertPoints rows) row.1 with ⟨hnone, heq⟩ | ⟨l, hl, heq⟩
    · rw [heq]
      exact (and_iff_right hnone).symm
    · -- the location that the tag had is deleted
      rw [heq, hl]
      refine iff_of_false (fun h => ?_) (by simp)
      exact not_mem_nil (h ▸ mem_insert_self : l ∈ [])

theorem distinct_inserted : ((build []).insertPoints rows).Distinct :=
  have hempty : (build ([] : List (Nat × ν))).Distinct := distinct_build nodup_nil
  distinct_insertPoints rows hempty

/-- The tags in the file, after inserts into an empty index: those of the rows, and the
filler if a tag is repeated. -/
theorem mem_savedTags_insertPoints {rows : List (Nat × NodePayload ν α)} (hne : rows ≠ [])
    (t : Nat) : t ∈ ((build []).insertPoints rows).savedTags ↔
      t ∈ rows.map Prod.fst ∨ t = 0 ∧ ¬ (rows.map Prod.fst).Nodup := by
  have hm := distinct_inserted rows
  have htag := tagToLocation_insertPoints rows
  rw [← deleteSet_insertPoints rows]
  generalize (build []).insertPoints rows = m at hm htag
  have hfound : ∀ u, u ∈ rows.map Prod.fst ↔ ∃ l, m.maps.tagToLocation u = some l := fun u => by
    rw [← Option.ne_none_iff_exists', Ne, htag, not_not]
  -- the tag of some row is at a location, so there is a file
  obtain ⟨row, hrow⟩ := exists_mem_of_ne_nil rows hne
  obtain ⟨l, hl⟩ := (hfound row.1).mp (mem_map_of_mem hrow)
  rw [hm.toValid.savedTags_eq (hm.back _ _ hl), hfound]
  simp only [mem_map, mem_range]
  constructor
  · rintro ⟨j, hj, rfl⟩
    rcases h : m.maps.locationToTag j with _ | u
    · exact .inr ⟨rfl, ne_nil_of_mem ((hm.hole j).mpr ⟨hj, h⟩)⟩
    · exact .inl ⟨j, hm.one j u h⟩
  · rintro (⟨j, hj⟩ | ⟨rfl, hdel⟩)
    · have := hm.back t j hj
      exact ⟨j, hm.lt j t this, by rw [this]; rfl⟩
    · obtain ⟨j, hj⟩ := exists_mem_of_ne_nil _ hdel
      obtain ⟨hlt, hnone⟩ := (hm.hole j).mp hj
      exact ⟨j, hlt, by rw [hnone]; rfl⟩

end PipeANN.MemIndex

namespace PipeANN.Streaming
open List MemIndex
open Prod (fst)
namespace DynamicIndex

open Dsl

section
variable {ν α : Type} [Inhabited α] {ix : DynamicIndex ν α}
  {rows : List (Nat × NodePayload ν α)}

theorem insertAll_mem (h : ix.useDiskIndex = false) :
    ix.insertAll rows = { ix with mem := ix.mem.insertPoints rows } := by
  induction rows generalizing ix with
  | nil => rfl
  | cons row rows ih =>
    rw [insertAll, foldl_cons, doInsert_mem h]
    exact ih h

theorem useDiskIndex_insertAll : (ix.insertAll rows).useDiskIndex = ix.useDiskIndex := by
  induction rows generalizing ix with
  | nil => rfl
  | cons row rows ih => exact ih.trans (useDiskIndex_doInsert ..)

/-- An `add` to an index in memory. -/
theorem add_mem (h : ix.useDiskIndex = false) : ix.add rows =
      if kBuildThreshold < (ix.mem.insertPoints rows).vectors.length then
        { ix with mem := ix.mem.insertPoints rows }.transform
      else { ix with mem := ix.mem.insertPoints rows } := by
  rw [add, insertAll_mem h]
  simp [h]

/-- The records of a transformed index. -/
theorem mem_transform {row : Nat × NodePayload ν α} : row ∈ ix.transform.disk ↔
    ∃ l : Nat, ix.mem.savedTags[l]? = some row.1 ∧ ix.mem.vectors[l]? = some row.2.coords ∧
      row.2.attrs = default := by
  rw [transform, mem_iff_getElem?]
  refine exists_congr fun l => ?_
  rw [getElem?_zip_eq_some, getElem?_map, Option.map_eq_some_iff]
  refine and_congr_right fun _ => ?_
  constructor
  · rintro ⟨v, hv, hnode⟩
    rw [← hnode]
    exact ⟨hv, rfl⟩
  · rintro ⟨hv, hattrs⟩
    exact ⟨_, hv, by rw [← hattrs]⟩

/-- While an index is in memory, its points are those of all rows added. -/
theorem foldl_add_mem (hasAttrs : Bool) (batches : List (List (Nat × NodePayload ν α)))
    (h : (batches.foldl add (inMemory hasAttrs)).useDiskIndex = false) :
    batches.foldl add (inMemory hasAttrs) =
      { inMemory hasAttrs with mem := (build []).insertPoints batches.flatten } := by
  induction batches using reverseRecOn with
  | nil => rfl
  | append_singleton batches rows ih =>
    rw [foldl_concat] at h ⊢
    -- the index was in memory before the last batch, which did not cross the threshold
    rcases huse : (batches.foldl add (inMemory hasAttrs)).useDiskIndex with _ | _
    · rw [add_mem huse] at h ⊢
      split at h
      · cases h
      next hle =>
        rw [if_neg hle, ih huse, flatten_append, flatten_singleton,
          insertPoints, insertPoints, insertPoints,
          foldl_append]
    · rw [← useDiskIndex_insertAll] at huse
      rw [add, huse] at h
      cases huse.symm.trans h

end

/-! ## Attributes -/

variable {ν : Type}

/-- `is_member` of a selector accepts attributes. -/
def Satisfies (σ : FilterTree LeafSelector) (query : List Attribute) (attrs : Attributes) : Prop :=
  σ.isMember (LeafSelector.isMember query attrs) = some true

/-- A record of the tag satisfies the selector. -/
def RecordSatisfies (ix : DynamicIndex ν Attributes) (σ : FilterTree LeafSelector)
    (query : List Attribute) (tag : Nat) : Prop :=
  ∃ row ∈ ix.disk, row.1 = tag ∧ Satisfies σ query row.2.attrs

variable (rows : List (Nat × NodePayload ν Attributes))

/-- The attributes that a tag was last inserted with. -/
def insertedAttrs : Nat → Option Attributes :=
  rows.foldl (fun f row => Function.update f row.1 (some row.2.attrs)) fun _ => none

/-- The attributes that the tag was inserted with satisfy the selector. -/
def InsertedSatisfies
    (σ : FilterTree LeafSelector) (query : List Attribute) (tag : Nat) : Prop :=
  ∃ attrs, insertedAttrs rows tag = some attrs ∧ Satisfies σ query attrs

/-- The tags that were inserted have attributes. -/
theorem insertedAttrs_ne_none_iff (tag : Nat) :
    (∃ attrs, insertedAttrs rows tag = some attrs) ↔ tag ∈ rows.map fst := by
  constructor
  · rintro ⟨attrs, h⟩
    by_contra hnot
    have hne : ∀ row ∈ rows, row.1 ≠ tag := fun row hrow heq =>
      hnot (heq ▸ mem_map_of_mem hrow)
    rw [insertedAttrs, LastWrites.foldl_update_of_forall_ne hne] at h
    cases h
  · intro h
    obtain ⟨row, -, -, hval⟩ := LastWrites.exists_foldl_update_eq fst h
    exact ⟨row.2.attrs, hval⟩

/-- The selector that accepts everything. -/
def acceptAll : FilterTree LeafSelector := .not (.or []) 0

theorem satisfies_acceptAll (query : List Attribute) (attrs : Attributes) :
    Satisfies acceptAll query attrs := rfl

/-- The selector that accepts the rows with a key, for a query without labels. -/
def hasKey (key : UInt32) : FilterTree LeafSelector := .leaf ⟨.labelAnd, 0, key⟩

theorem satisfies_hasKey (key : UInt32) (a : Attribute) (attrs : Attributes) :
    Satisfies (hasKey key) [[]] ((key, a) :: attrs) := by
  simp [Satisfies, hasKey, FilterTree.isMember, LeafSelector.isMember, LeafKind.test]

theorem not_satisfies_hasKey_nil (key : UInt32) : ¬ Satisfies (hasKey key) [[]] [] := by
  simp [Satisfies, hasKey, FilterTree.isMember, LeafSelector.isMember]

/-- The records of a transformed index have no attributes. -/
theorem recordSatisfies_transform (ix : DynamicIndex ν Attributes) (σ : FilterTree LeafSelector)
    (query : List Attribute) (tag : Nat) :
    ix.transform.RecordSatisfies σ query tag ↔ tag ∈ ix.mem.savedTags ∧ Satisfies σ query [] := by
  constructor
  · rintro ⟨row, hrow, rfl, hsat⟩
    obtain ⟨l, htag, -, hattrs⟩ := mem_transform.mp hrow
    rw [hattrs] at hsat
    exact ⟨mem_of_getElem? htag, hsat⟩
  · rintro ⟨hmem, hsat⟩
    obtain ⟨l, hl⟩ := mem_iff_getElem?.mp hmem
    have hlt := (List.getElem?_eq_some_iff.mp hl).1
    rw [length_savedTags] at hlt
    exact ⟨(tag, ⟨ix.mem.vectors[l], []⟩),
      mem_transform.mpr ⟨l, hl, getElem?_eq_getElem hlt, rfl⟩, rfl, hsat⟩

/-- What the records show is what was inserted, for every selector and query, just when the
rows have no attributes and the filler is no new tag. -/
theorem sameSelection_iff {rows : List (Nat × NodePayload ν Attributes)} (hne : rows ≠ [])
    {ix : DynamicIndex ν Attributes} (hmem : ix.mem = (build []).insertPoints rows) :
    (∀ σ query tag, ix.transform.RecordSatisfies σ query tag ↔ InsertedSatisfies rows σ query tag) ↔
    (∀ tag attrs, insertedAttrs rows tag = some attrs → attrs = []) ∧
      ((rows.map fst).Nodup ∨ 0 ∈ rows.map fst) := by
  simp only [recordSatisfies_transform, hmem, mem_savedTags_insertPoints hne]
  constructor
  · intro h
    refine ⟨fun tag attrs hattrs => ?_, ?_⟩
    · -- a selector on the first key tells the row from its record
      rcases attrs with _ | ⟨⟨key, a⟩, attrs⟩
      · rfl
      · have := (h (hasKey key) [[]] tag).mpr ⟨_, hattrs, satisfies_hasKey key a attrs⟩
        exact absurd this.2 (not_satisfies_hasKey_nil key)
    · by_contra hnot
      obtain ⟨hdup, hzero⟩ := not_or.mp hnot
      obtain ⟨attrs, hattrs, -⟩ :=
        (h acceptAll [] 0).mp ⟨.inr ⟨rfl, hdup⟩, satisfies_acceptAll [] []⟩
      exact hzero ((insertedAttrs_ne_none_iff rows 0).mp ⟨attrs, hattrs⟩)
  · rintro ⟨hempty, hfiller⟩ σ query tag
    constructor
    · rintro ⟨htag, hsat⟩
      have hin : tag ∈ rows.map fst :=
        htag.elim id fun ⟨hzero, hdup⟩ => hzero ▸ hfiller.resolve_left hdup
      obtain ⟨attrs, hattrs⟩ := (insertedAttrs_ne_none_iff rows tag).mpr hin
      exact ⟨attrs, hattrs, by rw [hempty tag attrs hattrs]; exact hsat⟩
    · rintro ⟨attrs, hattrs, hsat⟩
      refine ⟨.inl ((insertedAttrs_ne_none_iff rows tag).mp ⟨attrs, hattrs⟩), ?_⟩
      rw [hempty tag attrs hattrs] at hsat
      exact hsat

/-- **Attributes across the transformation.**  For all batches that bring an index in memory
over the threshold: the records of the disk index select the same tags as the inserted
attributes, for every selector and query, just when no tag was last inserted with attributes,
and no tag was inserted twice unless tag `0` was inserted too. -/
theorem transform_selects_inserted_iff (hasAttrs : Bool)
    (batches : List (List (Nat × NodePayload ν Attributes)))
    (last : List (Nat × NodePayload ν Attributes))
    (hmem : (batches.foldl add (inMemory hasAttrs)).useDiskIndex = false)
    (hdisk : ((batches.foldl add (inMemory hasAttrs)).add last).useDiskIndex = true) :
    (∀ σ query tag, ((batches.foldl add (inMemory hasAttrs)).add last).RecordSatisfies σ query tag ↔
        InsertedSatisfies (batches.flatten ++ last) σ query tag) ↔
    (∀ tag attrs, insertedAttrs (batches.flatten ++ last) tag = some attrs → attrs = []) ∧
      (((batches.flatten ++ last).map Prod.fst).Nodup ∨
        0 ∈ (batches.flatten ++ last).map Prod.fst) := by
  have hpoints : (batches.foldl add (inMemory hasAttrs)).mem.insertPoints last =
      (build []).insertPoints (batches.flatten ++ last) := by
    rw [foldl_add_mem hasAttrs batches hmem, insertPoints, insertPoints, insertPoints, foldl_append]
  rw [add_mem hmem] at hdisk ⊢
  split at hdisk
  next hlt =>
    rw [if_pos hlt]
    refine sameSelection_iff (fun hnil => ?_) hpoints
    -- without rows there are no points
    rw [hpoints, hnil] at hlt
    exact absurd hlt (Nat.not_lt_zero _)
  next =>
    exact absurd (hmem.symm.trans hdisk) (by simp)

/-- Rows with tags `0, 1, …` and the same attributes, one more than the threshold. -/
def manyRows {α : Type} (attrs : α) : List (Nat × NodePayload Unit α) :=
  (List.range (kBuildThreshold + 1)).map fun tag => (tag, ⟨(), attrs⟩)

theorem map_fst_manyRows {α : Type} (attrs : α) :
    (manyRows attrs).map fst = range (kBuildThreshold + 1) := by
  rw [manyRows, map_map]
  exact map_id _

theorem length_manyRows {α : Type} (attrs : α) : (manyRows attrs).length = kBuildThreshold + 1 := by
  rw [manyRows, length_map, length_range]

theorem insertedAttrs_manyRows {attrs : Attributes} {tag : Nat}
    (h : tag ∈ range (kBuildThreshold + 1)) : insertedAttrs (manyRows attrs) tag = some attrs := by
  have hnd : ((manyRows attrs).map fst).Nodup := by
    rw [map_fst_manyRows]
    exact nodup_range
  have hmem : (tag, ⟨(), attrs⟩) ∈ manyRows attrs := mem_map_of_mem h
  exact LastWrites.foldl_update_of_nodup fst hnd (a := (tag, ⟨(), attrs⟩)) hmem

theorem add_manyRows (attrs : Attributes) : (inMemory true).add (manyRows attrs) =
      { inMemory true with mem := (build []).insertPoints (manyRows attrs) }.transform := by
  rw [add_mem rfl, if_pos]
  · rfl
  · rw [length_vectors_insertPoints, length_manyRows]
    exact lt_of_lt_of_le (Nat.lt_succ_self _) (Nat.le_add_left _ _)

/-- Rows without attributes select the same tags on disk. -/
theorem transform_selects_inserted_bare :
    ((inMemory true).add (manyRows ([] : Attributes))).useDiskIndex = true ∧ ∀ σ query tag,
        ((inMemory true).add (manyRows ([] : Attributes))).RecordSatisfies σ query tag ↔
          InsertedSatisfies (manyRows ([] : Attributes)) σ query tag := by
  have hdisk : ((inMemory true).add (manyRows ([] : Attributes))).useDiskIndex = true := by
    rw [add_manyRows]
    rfl
  have hiff := transform_selects_inserted_iff true [] (manyRows ([] : Attributes)) rfl hdisk
  rw [flatten_nil, nil_append, map_fst_manyRows] at hiff
  refine ⟨hdisk, hiff.mpr ⟨fun tag attrs h => ?_, .inl nodup_range⟩⟩
  have hmem := (insertedAttrs_ne_none_iff _ tag).mp ⟨attrs, h⟩
  rw [map_fst_manyRows] at hmem
  exact Option.some.inj (h.symm.trans (insertedAttrs_manyRows hmem))

/-- A label of the rows: the inserted attributes of tag `0` have it, and no record has. -/
theorem transform_loses_labels :
    ((inMemory true).add (manyRows ([(0, [1])] : Attributes))).useDiskIndex = true ∧
      InsertedSatisfies (manyRows ([(0, [1])] : Attributes)) (.leaf ⟨.labelOr, 0, 0⟩) [[1]] 0 ∧
      ∀ tag, ¬ ((inMemory true).add (manyRows ([(0, [1])] : Attributes))).RecordSatisfies
        (.leaf ⟨.labelOr, 0, 0⟩) [[1]] tag := by
  rw [add_manyRows]
  refine ⟨rfl, ⟨_, insertedAttrs_manyRows ?_, rfl⟩, fun tag h => ?_⟩
  · exact mem_range.mpr (Nat.succ_pos _)
  · exact nomatch ((recordSatisfies_transform _ _ _ tag).mp h).2

end DynamicIndex
end PipeANN.Streaming
