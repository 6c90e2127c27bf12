import Mathlib.Data.List.Induction
import Mathlib.Data.List.Nodup

/-! # The tags of the in-memory index

The in-memory index (`index.cpp`) keeps a vector at each location below `_nd` and two maps
between locations and tags.  A lazy delete erases the tag from both maps and remembers the
location in `_delete_set`; the vector stays.  `save_tags` writes one tag for each location,
and a location without a tag gets the filler `0`; `load_tags` reads them all back as tags.

The round trip gives the live mapping back just when no location has been deleted.  The
tags given to `build` need not be distinct: such a tag is found at its last location, before
and after.
-/
namespace PipeANN
open List Function Option

/-- `_location_to_tag` and `_tag_to_location`. -/
structure TagMaps where
  locationToTag : Nat → Option Nat
  tagToLocation : Nat → Option Nat

namespace TagMaps

def empty : TagMaps := ⟨fun _ => none, fun _ => none⟩

/-- Both maps learn that `tag` is at `location`. -/
def set (m : TagMaps) (tag location : Nat) : TagMaps :=
  ⟨update m.locationToTag location (some tag),
    update m.tagToLocation tag (some location)⟩

/-- Both maps forget that `tag` is at `location`. -/
def erase (m : TagMaps) (tag location : Nat) : TagMaps :=
  ⟨update m.locationToTag location none, update m.tagToLocation tag none⟩

variable (tags : List Nat)

/-- The loop of `build` and of `load_tags` over a dense list of tags. -/
def ofTags : TagMaps :=
  tags.zipIdx.foldl (fun m p => m.set p.1 p.2) empty

section
variable (m : TagMaps) (t l : Nat)

@[simp, grind =] theorem locationToTag_set (j : Nat) :
    (m.set t l).locationToTag j = if j = l then some t else m.locationToTag j :=
  update_apply _ _ _ _

@[simp, grind =] theorem tagToLocation_set (u : Nat) :
    (m.set t l).tagToLocation u = if u = t then some l else m.tagToLocation u :=
  update_apply _ _ _ _

@[simp, grind =] theorem locationToTag_erase (j : Nat) :
    (m.erase t l).locationToTag j = if j = l then none else m.locationToTag j :=
  update_apply _ _ _ _

@[simp, grind =] theorem tagToLocation_erase (u : Nat) :
    (m.erase t l).tagToLocation u = if u = t then none else m.tagToLocation u :=
  update_apply _ _ _ _

end

theorem ofTags_append_singleton (t : Nat) :
    ofTags (tags ++ [t]) = (ofTags tags).set t tags.length := by
  simp [ofTags, zipIdx_append]

theorem locationToTag_ofTags (l : Nat) : (ofTags tags).locationToTag l = tags[l]? := by
  induction tags using reverseRecOn with
  | nil => rfl
  | append_singleton tags t ih =>
    rw [ofTags_append_singleton]
    grind

theorem tagToLocation_ofTags_eq_none_iff (t : Nat) :
    (ofTags tags).tagToLocation t = none ↔ t ∉ tags := by
  induction tags using reverseRecOn with
  | nil => simp [ofTags, empty]
  | append_singleton tags last ih =>
    rw [ofTags_append_singleton]
    by_cases ht : t = last <;> simp [ht, ih]

/-- The location where a tag is found is the last one that has it. -/
theorem tagToLocation_ofTags_iff (t l : Nat) : (ofTags tags).tagToLocation t = some l ↔
      tags[l]? = some t ∧ ∀ j, tags[j]? = some t → j ≤ l := by
  induction tags using reverseRecOn with
  | nil => simp [ofTags, empty]
  | append_singleton tags last ih =>
    rw [ofTags_append_singleton, tagToLocation_set]
    -- the round writes this tag, at a location after all the others, or another tag
    split <;> grind

end TagMaps

open TagMaps

/-- `Index`, of vectors of type `ν`; `_nd` is the number of vectors. -/
structure MemIndex (ν : Type) where
  vectors : List ν
  maps : TagMaps
  deleteSet : List Nat

/-- A call that changes the index. -/
inductive MemCall (ν : Type) where
  | insertPoint (point : ν) (tag : Nat)
  | lazyDelete (tag : Nat)

namespace MemIndex
variable {ν : Type}

variable (rows : List (Nat × ν))

/-- `build`, of points with their tags. -/
def build : MemIndex ν :=
  ⟨rows.map Prod.snd, TagMaps.ofTags (rows.map Prod.fst), []⟩

variable (m : MemIndex ν)

/-- `lazy_delete`. -/
def lazyDelete (tag : Nat) : MemIndex ν :=
  match m.maps.tagToLocation tag with
  | none => m
  | some location =>
    { m with maps := m.maps.erase tag location, deleteSet := m.deleteSet.insert location }

/-- `insert_point`: a location that the tag has already is deleted, and the point goes to a
new one. -/
def insertPoint (point : ν) (tag : Nat) : MemIndex ν :=
  let m := m.lazyDelete tag
  { m with vectors := m.vectors ++ [point], maps := m.maps.set tag m.vectors.length }

def step : MemCall ν → MemIndex ν
  | .insertPoint point tag => m.insertPoint point tag
  | .lazyDelete tag => m.lazyDelete tag

variable (calls : List (MemCall ν))

/-- The index after a build and further calls. -/
def after : MemIndex ν :=
  calls.foldl step (build rows)

/-- `save_tags`: the file, if there is one.  `_location_to_tag` has no locations from `_nd`
on (`Valid.lt`), so it is empty if those below have no tag. -/
def saveTags : Option (List Nat) :=
  let entries := (List.range m.vectors.length).map m.maps.locationToTag
  if entries.all Option.isNone then none
  else some (entries.map (·.getD 0))

/-- `load_tags` into an index of `nd` points. -/
def loadTags (nd : Nat) (file : Option (List Nat)) : TagMaps :=
  TagMaps.ofTags (file.getD (List.range nd))

/-- What every call keeps. -/
structure Valid (m : MemIndex ν) : Prop where
  /-- Locations with a tag have a vector. -/
  lt : ∀ l t, m.maps.locationToTag l = some t → l < m.vectors.length
  /-- A tag is found at a location that has it. -/
  back : ∀ t l, m.maps.tagToLocation t = some l → m.maps.locationToTag l = some t
  /-- A tag is found at the last of these. -/
  last : ∀ t l j, m.maps.tagToLocation t = some l → m.maps.locationToTag j = some t → j ≤ l
  /-- The locations without a tag are the deleted ones. -/
  hole : ∀ l, l ∈ m.deleteSet ↔ l < m.vectors.length ∧ m.maps.locationToTag l = none
  /-- While nothing is deleted, every tag that a location has is found. -/
  full : m.deleteSet = [] → ∀ l t, m.maps.locationToTag l = some t →
    m.maps.tagToLocation t ≠ none

/-- The tag maps `loaded` are the live mapping of the index. -/
structure SameLive (m : MemIndex ν) (loaded : TagMaps) : Prop where
  /-- The same tags are found, at the same locations. -/
  tags : ∀ t, loaded.tagToLocation t = m.maps.tagToLocation t
  /-- The location of a live tag maps back to it. -/
  back : ∀ t l, m.maps.tagToLocation t = some l → loaded.locationToTag l = some t
  /-- A deleted location is not reported. -/
  deleted : ∀ l ∈ m.deleteSet, loaded.locationToTag l = none ∧
    ∀ t, loaded.tagToLocation t ≠ some l

theorem valid_build : (build rows).Valid where
  lt l t h := by
    rw [build, locationToTag_ofTags] at h
    simpa [build] using (List.getElem?_eq_some_iff.mp h).1
  back t l h := by
    rw [build, locationToTag_ofTags]
    exact ((tagToLocation_ofTags_iff _ t l).mp h).1
  last t l j h hj := by
    rw [build, locationToTag_ofTags] at hj
    exact ((tagToLocation_ofTags_iff _ t l).mp h).2 j hj
  hole l := by
    simp only [build, locationToTag_ofTags, not_mem_nil, length_map,
      List.getElem?_eq_none_iff, false_iff]
    omega
  full _ l t h := by
    rw [build, locationToTag_ofTags] at h
    exact fun hnone => (tagToLocation_ofTags_eq_none_iff _ t).mp hnone (mem_of_getElem? h)

/-- A lazy delete finds nothing, or erases a tag at the location where it is found. -/
theorem lazyDelete_cases (tag : Nat) : m.maps.tagToLocation tag = none ∧ m.lazyDelete tag = m ∨
      ∃ l, m.maps.tagToLocation tag = some l ∧ m.lazyDelete tag =
        { m with maps := m.maps.erase tag l, deleteSet := m.deleteSet.insert l } := by
  unfold lazyDelete
  split
  next h => exact .inl ⟨h, rfl⟩
  next l h => exact .inr ⟨l, h, rfl⟩

theorem tagToLocation_lazyDelete (tag u : Nat) : (m.lazyDelete tag).maps.tagToLocation u =
      if u = tag then none else m.maps.tagToLocation u := by
  rcases m.lazyDelete_cases tag with ⟨hnone, heq⟩ | ⟨l, -, heq⟩
  · rw [heq]
    split_ifs with hu
    · rw [hu, hnone]
    · rfl
  · rw [heq, tagToLocation_erase]

variable {m : MemIndex ν}

theorem Valid.lazyDelete (hm : m.Valid) (tag : Nat) : (m.lazyDelete tag).Valid := by
  rcases m.lazyDelete_cases tag with ⟨-, heq⟩ | ⟨loc, hloc, heq⟩
  · rwa [heq]
  have htag := hm.back tag loc hloc
  rw [heq]
  refine ⟨fun l t h => ?_, fun t l h => ?_, fun t l j h hj => ?_, fun l => ?_, fun h => ?_⟩
  · have := hm.lt l t
    grind
  · -- the location of another tag is another location
    have := hm.back t l
    grind
  · have := hm.last t l j
    grind
  · have hlt := hm.lt loc tag htag
    rw [mem_insert_iff, hm.hole]
    grind
  · exact absurd (h ▸ mem_insert_self : loc ∈ []) not_mem_nil

theorem Valid.insertPoint (hm : m.Valid) (point : ν) (tag : Nat) :
    (m.insertPoint point tag).Valid := by
  have hd := hm.lazyDelete tag
  have hnone := m.tagToLocation_lazyDelete tag tag
  rw [MemIndex.insertPoint]
  generalize m.lazyDelete tag = d at hd hnone
  -- the new location is above all that have a tag
  have hnew : ∀ t, d.maps.locationToTag d.vectors.length ≠ some t := fun t h =>
    Nat.lt_irrefl _ (hd.lt _ t h)
  refine ⟨fun l t h => ?_, fun t l h => ?_, fun t l j h hj => ?_, fun l => ?_, fun h l t hl => ?_⟩
  · have := hd.lt l t
    grind
  · have := hd.back t l
    grind
  · have := hd.lt j t
    have := hd.last t l j
    grind
  · have := hd.hole l
    grind
  · have := hd.full h l t
    grind

theorem valid_after : (after rows calls).Valid := by
  refine foldlRecOn calls step (valid_build rows) fun m hm call _ => ?_
  cases call with
  | insertPoint point tag => exact hm.insertPoint point tag
  | lazyDelete tag => exact hm.lazyDelete tag

/-! ## The round trip -/

/-- The tags that a load reads: those of the file, or the locations themselves. -/
def savedTags (m : MemIndex ν) : List Nat := m.saveTags.getD (List.range m.vectors.length)

theorem length_savedTags (m : MemIndex ν) : m.savedTags.length = m.vectors.length := by
  unfold savedTags saveTags
  dsimp only
  split <;> simp

/-- If a location has a tag there is a file, with the filler for the locations that have
none. -/
theorem Valid.savedTags_eq (hm : m.Valid) {l t : Nat} (h : m.maps.locationToTag l = some t) :
    m.savedTags = (range m.vectors.length).map fun j => (m.maps.locationToTag j).getD 0 := by
  have hfile : ¬ ((range m.vectors.length).map m.maps.locationToTag).all
      isNone := fun hall => by
    have := all_eq_true.mp hall _ (mem_map_of_mem (mem_range.mpr (hm.lt l t h)))
    rw [h] at this
    cases this
  simp [savedTags, saveTags, hfile]

/-- With nothing deleted, the file has the tag of every location. -/
theorem Valid.getElem?_savedTags (hm : m.Valid) (hdel : m.deleteSet = [])
    (l : Nat) : m.savedTags[l]? = m.maps.locationToTag l := by
  rcases h : m.maps.locationToTag l with _ | t
  · have hl : ¬ l < m.vectors.length := fun hl =>
      not_mem_nil (hdel ▸ (hm.hole l).mpr ⟨hl, h⟩)
    exact getElem?_eq_none (by rw [length_savedTags]; omega)
  · simp [hm.savedTags_eq h, hm.lt l t h, h]

theorem Valid.sameLive_iff (hm : m.Valid) :
    m.SameLive (loadTags m.vectors.length m.saveTags) ↔ m.deleteSet = [] := by
  change m.SameLive (ofTags m.savedTags) ↔ _
  constructor
  · -- every location is reported, so a deleted one is
    intro hsame
    refine eq_nil_iff_forall_not_mem.mpr fun l hl => ?_
    have hnone := (hsame.deleted l hl).1
    rw [locationToTag_ofTags, List.getElem?_eq_none_iff, length_savedTags] at hnone
    exact absurd ((hm.hole l).mp hl).1 (by omega)
  · intro hdel
    have hat := hm.getElem?_savedTags hdel
    refine ⟨fun t => ?_, fun t l h => ?_, fun l hl => absurd (hdel ▸ hl) not_mem_nil⟩
    · rcases h : m.maps.tagToLocation t with _ | l
      · rw [tagToLocation_ofTags_eq_none_iff]
        intro hmem
        obtain ⟨l, hl⟩ := mem_iff_getElem?.mp hmem
        exact hm.full hdel l t (hat l ▸ hl) h
      · rw [tagToLocation_ofTags_iff]
        simp only [hat]
        exact ⟨hm.back t l h, fun j => hm.last t l j h⟩
    · rw [locationToTag_ofTags, hat, hm.back t l h]

/-- **The tag file round trip.**  Whatever was built, inserted and deleted: what a load reads
from the file of `save_tags` is the live mapping just when no location is deleted. -/
theorem loadTags_saveTags_sameLive_iff : (after rows calls).SameLive
      (loadTags (after rows calls).vectors.length (after rows calls).saveTags) ↔
        (after rows calls).deleteSet = [] :=
  (valid_after rows calls).sameLive_iff

/-- The filler is a live tag: tag `0` is at location `0` and location `1` is deleted; after
the round trip tag `0` is found at location `1`. -/
theorem filler_moves_live_tag :
    let m := after [] [.insertPoint () 0, .insertPoint () 7, .lazyDelete 7]
    let loaded := loadTags m.vectors.length m.saveTags
    m.maps.tagToLocation 0 = some 0 ∧ m.deleteSet = [1] ∧
      loaded.tagToLocation 0 = some 1 ∧ loaded.locationToTag 1 = some 0 ∧ ¬ m.SameLive loaded :=
  ⟨rfl, rfl, rfl, rfl, fun h => nomatch h.tags 0⟩

/-! ## The vectors of the tags -/

/-- The index has the vector `v` under a tag, at a location that is not deleted. -/
def Stored (m : MemIndex ν) (tag : Nat) (v : ν) : Prop :=
  ∃ l, m.maps.locationToTag l = some tag ∧ m.vectors[l]? = some v

/-- A valid index in which no tag has two locations. -/
structure Distinct (m : MemIndex ν) : Prop extends m.Valid where
  one : ∀ l t, m.maps.locationToTag l = some t → m.maps.tagToLocation t = some l

theorem distinct_build {rows : List (Nat × ν)} (hnd : (rows.map Prod.fst).Nodup) :
    (build rows).Distinct := by
  refine ⟨valid_build rows, fun l t h => ?_⟩
  rw [build, locationToTag_ofTags] at h
  refine (tagToLocation_ofTags_iff _ t l).mpr ⟨h, fun j hj => ?_⟩
  obtain ⟨hl, hlt⟩ := List.getElem?_eq_some_iff.mp h
  obtain ⟨hj, hjt⟩ := List.getElem?_eq_some_iff.mp hj
  exact Nat.le_of_eq (hnd.getElem_inj_iff.mp (hjt.trans hlt.symm))

theorem stored_build (tag : Nat) (v : ν) : (build rows).Stored tag v ↔ (tag, v) ∈ rows := by
  simp only [Stored, build, locationToTag_ofTags, getElem?_map, map_eq_some_iff]
  constructor
  · rintro ⟨l, ⟨row, hrow, rfl⟩, row', hrow', rfl⟩
    obtain rfl : row = row' := some.inj (hrow.symm.trans hrow')
    exact mem_of_getElem? hrow
  · intro h
    obtain ⟨l, hl⟩ := mem_iff_getElem?.mp h
    exact ⟨l, ⟨_, hl, rfl⟩, _, hl, rfl⟩

variable {tag u : Nat} {w : ν}

theorem Stored.of_lazyDelete (h : (m.lazyDelete tag).Stored u w) : m.Stored u w := by
  rcases m.lazyDelete_cases tag with ⟨-, heq⟩ | ⟨loc, -, heq⟩
  · rwa [heq] at h
  · obtain ⟨l, hl, hv⟩ := h
    rw [heq] at hl hv
    exact ⟨l, by grind, hv⟩

/-- A new point is stored, and nothing else is new. -/
theorem Valid.stored_insertPoint (hm : m.Valid) {v : ν} : (m.insertPoint v tag).Stored u w ↔
      u = tag ∧ w = v ∨ (m.lazyDelete tag).Stored u w := by
  have hd := hm.lazyDelete tag
  rw [MemIndex.insertPoint, Stored]
  generalize m.lazyDelete tag = d at hd
  simp only [locationToTag_set]
  constructor
  · rintro ⟨l, hl, hw⟩
    split at hl
    next h =>
      rw [h, getElem?_append_right (Nat.le_refl _), Nat.sub_self] at hw
      exact .inl ⟨(some.inj hl).symm, (some.inj hw).symm⟩
    next h =>
      rw [getElem?_append_left (hd.lt l u hl)] at hw
      exact .inr ⟨l, hl, hw⟩
  · rintro (⟨rfl, rfl⟩ | ⟨l, hl, hw⟩)
    · exact ⟨d.vectors.length, if_pos rfl, by simp⟩
    · have hlt := hd.lt l u hl
      exact ⟨l, by rw [if_neg (Nat.ne_of_lt hlt), hl], by
        rw [getElem?_append_left hlt, hw]⟩

theorem Distinct.lazyDelete (hm : m.Distinct) (tag : Nat) : (m.lazyDelete tag).Distinct := by
  refine ⟨hm.toValid.lazyDelete tag, fun l t h => ?_⟩
  rcases m.lazyDelete_cases tag with ⟨-, heq⟩ | ⟨loc, hloc, heq⟩
  · rw [heq] at h ⊢
    exact hm.one l t h
  · have := hm.one l t
    grind

/-- A lazy delete keeps the vectors of the other tags. -/
theorem Valid.stored_lazyDelete_of_ne (hm : m.Valid)
    (h : m.Stored u w) (hu : u ≠ tag) : (m.lazyDelete tag).Stored u w := by
  obtain ⟨l, hl, hv⟩ := h
  rcases m.lazyDelete_cases tag with ⟨-, heq⟩ | ⟨loc, hloc, heq⟩
  · rw [heq]
    exact ⟨l, hl, hv⟩
  · -- the location of another tag is not the erased one
    have hne : l ≠ loc := fun he =>
      hu (some.inj (hl.symm.trans (he ▸ hm.back tag loc hloc)))
    rw [heq]
    exact ⟨l, by rw [locationToTag_erase, if_neg hne, hl], hv⟩

/-- A lazy delete takes the vector of its tag away. -/
theorem Distinct.stored_lazyDelete (hm : m.Distinct) :
    (m.lazyDelete tag).Stored u w ↔ m.Stored u w ∧ u ≠ tag := by
  constructor
  · intro h
    refine ⟨h.of_lazyDelete, fun hu => ?_⟩
    obtain ⟨l, hl, -⟩ := h
    have := (hm.lazyDelete tag).one l u hl
    rw [tagToLocation_lazyDelete, if_pos hu] at this
    cases this
  · exact fun ⟨h, hu⟩ => hm.toValid.stored_lazyDelete_of_ne h hu

theorem Distinct.insertPoint (hm : m.Distinct) (v : ν) (tag : Nat) :
    (m.insertPoint v tag).Distinct := by
  refine ⟨hm.toValid.insertPoint v tag, fun l t h => ?_⟩
  have hd := hm.lazyDelete tag
  have hnone := m.tagToLocation_lazyDelete tag tag
  rw [MemIndex.insertPoint] at h ⊢
  have := hd.one l t
  grind

/-- An insert replaces the vector of its tag. -/
theorem Distinct.stored_insertPoint (hm : m.Distinct) {v : ν} :
    (m.insertPoint v tag).Stored u w ↔ u = tag ∧ w = v ∨ m.Stored u w ∧ u ≠ tag := by
  rw [hm.toValid.stored_insertPoint, hm.stored_lazyDelete]

theorem vectors_insertPoint (m : MemIndex ν) (v : ν) (tag : Nat) :
    (m.insertPoint v tag).vectors = m.vectors ++ [v] := by
  rw [insertPoint]
  rcases m.lazyDelete_cases tag with ⟨-, heq⟩ | ⟨loc, -, heq⟩ <;> rw [heq]

end MemIndex
end PipeANN
