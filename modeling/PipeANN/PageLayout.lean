import Mathlib.Order.Nat
import PipeANN.LastWrites

/-! # Loading a page layout

`load_page_layout` (`ssd_index.cpp`) fills `id2loc_` and `loc2id_` from a partition file: the ids
of partition `i` get the locations of page `i`, and the rest of the page is marked as unused.
The partitions are processed in parallel.  Here the writes of all of them are one list, and a
run carries out this list in any order.

The arrays are sized before the file is read: `loc2id_` for the number of points, rounded up to
whole pages.  A valid file may have more, partly filled pages; `pageLayout_inverse_iff` says that
the writes stay inside the arrays, and make the maps inverse, if and only if it has not.

The file is read in pieces of `n_parts_per_read` partitions; this and the width of the numbers
are left out.
-/
namespace PipeANN
open List Function Nat

/-- `cur_loc` after `init_metadata`. -/
def initCurLoc (npoints npp : Nat) : Nat :=
  if npp ≠ 0 ∧ npoints % npp ≠ 0 then npoints + (npp - npoints % npp) else npoints

/-- A valid partition file: every id is in one partition, and none has more than `C` ids. -/
structure PartitionFile (numPoints : Nat) where
  c : Nat
  parts : List (List Nat)
  size_le : ∀ ids ∈ parts, ids.length ≤ c
  once : parts.flatten.Perm (List.range numPoints)

/-- A cell of `id2loc_` or `loc2id_`. -/
inductive LayoutCell where
  | id2loc (id : Nat)
  | loc2id (loc : Nat)
deriving DecidableEq

/-- A write; `none` is `kInvalidID`. -/
abbrev LayoutWrite := LayoutCell × Option Nat

namespace PageLayout

/-- The id at slot `loc % npp` of partition `loc / npp`, if the partition is that large. -/
def idAt (parts : List (List Nat)) (npp loc : Nat) : Option Nat :=
  parts[loc / npp]?.bind fun ids => ids[loc % npp]?

/-- The writes for one slot. -/
def slotWrites (parts : List (List Nat)) (npp loc : Nat) : List LayoutWrite :=
  match idAt parts npp loc with
  | some id => [(.id2loc id, some loc), (.loc2id loc, some id)]
  | none => [(.loc2id loc, none)]

/-- The writes for all slots, partition by partition. -/
def writes (npp : Nat) (parts : List (List Nat)) : List LayoutWrite :=
  (List.range (parts.length * npp)).flatMap (slotWrites parts npp)

/-- The cell is in its array. -/
def inArray (numPoints curLoc : Nat) : LayoutCell → Bool
  | .id2loc id => id < numPoints
  | .loc2id loc => loc < curLoc

/-- One write; `none` if it is outside. -/
def store (numPoints curLoc : Nat) (t : LayoutCell → Option Nat) (w : LayoutWrite) :
    Option (LayoutCell → Option Nat) :=
  if inArray numPoints curLoc w.1 then some (update t w.1 w.2) else none

/-- `load_page_layout` with a partition file; `order` has the writes in the order in which they
take effect.  `none` if the process exits or writes outside an array. -/
def loadPageLayout {numPoints : Nat} (npp : Nat) (f : PartitionFile numPoints)
    (order : List LayoutWrite) (t : LayoutCell → Option Nat) : Option (LayoutCell → Option Nat) :=
  if npp ≤ 1 ∨ f.c ≠ npp then none
  else order.foldlM (store numPoints (initCurLoc numPoints npp)) t

/-- The maps are inverse on the ids, every other location is unused, and the locations that are
used are below `cur_loc`. -/
structure Inverse (numPoints curLoc : Nat) (t : LayoutCell → Option Nat) : Prop where
  of_id : ∀ id < numPoints, ∃ loc < curLoc,
    t (.id2loc id) = some loc ∧ t (.loc2id loc) = some id
  of_loc : ∀ loc < curLoc, ∀ id, t (.loc2id loc) = some id →
    id < numPoints ∧ t (.id2loc id) = some loc

/-! ## The writes -/

variable {npp numPoints curLoc loc id : Nat} {parts : List (List Nat)} {w : LayoutWrite}

theorem mem_slotWrites : w ∈ slotWrites parts npp loc ↔ w = (.loc2id loc, idAt parts npp loc) ∨
      ∃ id, idAt parts npp loc = some id ∧ w = (.id2loc id, some loc) := by
  rw [slotWrites]
  cases idAt parts npp loc with
  | none => simp
  | some id => simp [or_comm]

/-- An id that is in one partition is at one location. -/
theorem idAt_inj (hnd : parts.flatten.Nodup) {loc' : Nat}
    (hid : idAt parts npp loc = some id) (hid' : idAt parts npp loc' = some id) : loc = loc' := by
  obtain ⟨hpart, hdisj⟩ := nodup_flatten.mp hnd
  obtain ⟨ids, hi, hj⟩ := Option.bind_eq_some_iff.mp hid
  obtain ⟨ids', hi', hj'⟩ := Option.bind_eq_some_iff.mp hid'
  obtain ⟨hlt, rfl⟩ := List.getElem?_eq_some_iff.mp hi
  obtain ⟨hlt', rfl⟩ := List.getElem?_eq_some_iff.mp hi'
  have hdiv : loc / npp = loc' / npp := by
    by_contra hne
    rcases lt_or_gt_of_ne hne with hlo | hhi
    · exact pairwise_iff_getElem.mp hdisj _ _ hlt hlt' hlo (mem_of_getElem? hj)
        (mem_of_getElem? hj')
    · exact pairwise_iff_getElem.mp hdisj _ _ hlt' hlt hhi (mem_of_getElem? hj')
        (mem_of_getElem? hj)
  simp only [← hdiv] at hj'
  have hmod := (getElem?_inj (List.getElem?_eq_some_iff.mp hj).1 (hpart _ (getElem_mem hlt))).mp
    (hj.trans hj'.symm)
  rw [← Nat.div_add_mod' loc npp, hdiv, hmod, Nat.div_add_mod']

theorem exists_idAt (hsize : ∀ ids ∈ parts, ids.length ≤ npp) (hid : id ∈ parts.flatten) :
    ∃ loc < parts.length * npp, idAt parts npp loc = some id := by
  obtain ⟨ids, hids, hid⟩ := mem_flatten.mp hid
  obtain ⟨i, hi⟩ := mem_iff_getElem?.mp hids
  obtain ⟨j, hj⟩ := mem_iff_getElem?.mp hid
  have hlt : j < npp := (List.getElem?_eq_some_iff.mp hj).1.trans_le (hsize ids hids)
  have hmul := mul_le_mul_right npp (List.getElem?_eq_some_iff.mp hi).1
  rw [succ_mul] at hmul
  refine ⟨npp * i + j, by rw [Nat.mul_comm]; omega, ?_⟩
  rw [idAt, mul_add_div (by omega), mul_add_mod, div_eq_of_lt hlt, mod_eq_of_lt hlt,
    Nat.add_zero, hi]
  exact hj

theorem length_flatten_le (hsize : ∀ ids ∈ parts, ids.length ≤ npp) :
    parts.flatten.length ≤ parts.length * npp := by
  induction parts with
  | nil => exact zero_le _
  | cons ids parts ih =>
    obtain ⟨hids, hparts⟩ := forall_mem_cons.mp hsize
    have hle := ih hparts
    rw [flatten_cons, length_append, length_cons, succ_mul]
    omega

/-- A run of writes: it stops at a write outside the arrays. -/
theorem foldlM_store {l : List LayoutWrite} {t t' : LayoutCell → Option Nat} :
    l.foldlM (store numPoints curLoc) t = some t' ↔ (∀ w ∈ l, inArray numPoints curLoc w.1) ∧
        l.foldl (fun t w => update t w.1 w.2) t = t' := by
  induction l generalizing t with
  | nil => simp
  | cons w l ih =>
    rw [foldlM_cons, store, forall_mem_cons]
    by_cases hw : inArray numPoints curLoc w.1
    · rw [if_pos hw, and_iff_right hw]
      exact ih
    · simp [hw]

/-- The arrays are no larger than the pages of the file. -/
theorem initCurLoc_le {m : Nat} (h : numPoints ≤ m * npp) : initCurLoc numPoints npp ≤ m * npp := by
  unfold initCurLoc
  split
  · next hrest =>
    have hsplit := div_add_mod' numPoints npp
    have hlt : numPoints / npp < m := by
      by_contra hge
      have := mul_le_mul_right npp (not_lt.mp hge)
      omega
    have hmul := mul_le_mul_right npp hlt
    rw [succ_mul] at hmul
    omega
  · exact h

/-! ## The maps -/

/-- What the writes leave, in any order. -/
theorem foldl_writes (hnd : parts.flatten.Nodup) {order : List LayoutWrite}
    (horder : order.Perm (writes npp parts)) (t : LayoutCell → Option Nat)
    (hloc : loc < parts.length * npp) :
    order.foldl (fun t w => update t w.1 w.2) t (.loc2id loc) = idAt parts npp loc ∧
      ∀ id, idAt parts npp loc = some id →
        order.foldl (fun t w => update t w.1 w.2) t (.id2loc id) = some loc := by
  have hmem : ∀ w ∈ slotWrites parts npp loc, w ∈ order := fun w hw =>
    horder.mem_iff.mpr (mem_flatMap.mpr ⟨loc, mem_range.mpr hloc, hw⟩)
  -- the last write of a cell is the only one
  have hlast : ∀ w ∈ slotWrites parts npp loc,
      order.foldl (fun t w => update t w.1 w.2) t w.1 = w.2 := by
    intro w hw
    obtain ⟨w', hw', hkey, hval⟩ := LastWrites.exists_foldl_update_eq
      (Prod.fst : LayoutWrite → _) (mem_map_of_mem (hmem w hw))
    obtain ⟨loc', -, hw'⟩ := mem_flatMap.mp (horder.mem_iff.mp hw')
    refine hval.trans ?_
    rcases mem_slotWrites.mp hw with rfl | ⟨id, hid, rfl⟩ <;>
      rcases mem_slotWrites.mp hw' with rfl | ⟨id', hid', rfl⟩ <;> cases hkey
    · rfl
    · rw [idAt_inj hnd hid' hid]
  exact ⟨hlast _ (mem_slotWrites.mpr (.inl rfl)),
    fun id hid => hlast (.id2loc id, some loc) (mem_slotWrites.mpr (.inr ⟨id, hid, rfl⟩))⟩

theorem lt_of_idAt (f : PartitionFile numPoints) (h : idAt f.parts npp loc = some id) :
    id < numPoints := by
  obtain ⟨ids, hi, hj⟩ := Option.bind_eq_some_iff.mp h
  exact mem_range.mp (f.once.mem_iff.mp
    (mem_flatten.mpr ⟨ids, mem_of_getElem? hi, mem_of_getElem? hj⟩))

/-- **Loading a page layout.**  For every valid partition file and every order of the writes, the
file is loaded without a write outside the arrays, and the maps are inverse, if and only if a
page has more than one node, the file is for pages of this size, and it has no more pages than
the points need. -/
theorem pageLayout_inverse_iff (npp : Nat) (f : PartitionFile numPoints) :
    (∀ order, order.Perm (writes npp f.parts) → ∀ t, ∃ t',
      loadPageLayout npp f order t = some t' ∧ Inverse numPoints (initCurLoc numPoints npp) t') ↔
    1 < npp ∧ f.c = npp ∧ f.parts.length * npp ≤ initCurLoc numPoints npp := by
  constructor
  · intro h
    obtain ⟨t', hload, -⟩ := h _ (Perm.refl _) fun _ => none
    rw [loadPageLayout] at hload
    split_ifs at hload with hexit
    refine ⟨by omega, by omega, not_lt.mp fun hlt => ?_⟩
    -- the first slot behind the array is written
    have hin := (foldlM_store.mp hload).1 _ (mem_flatMap.mpr
      ⟨_, mem_range.mpr hlt, mem_slotWrites.mpr (.inl rfl)⟩)
    simp [inArray] at hin
  · rintro ⟨hnpp, hc, hpages⟩ order horder t
    have hsize : ∀ ids ∈ f.parts, ids.length ≤ npp := hc ▸ f.size_le
    have hlen := f.once.length_eq
    rw [length_range] at hlen
    have hcur := initCurLoc_le (hlen.symm.trans_le (length_flatten_le hsize))
    have hleft := fun loc => @foldl_writes _ loc _ (f.once.nodup_iff.mpr nodup_range) _ horder t
    refine ⟨order.foldl (fun t w => update t w.1 w.2) t, ?_, ?_, ?_⟩
    · rw [loadPageLayout, if_neg (by omega)]
      refine foldlM_store.mpr ⟨fun w hw => ?_, rfl⟩
      obtain ⟨loc, hloc, hw⟩ := mem_flatMap.mp (horder.mem_iff.mp hw)
      rcases mem_slotWrites.mp hw with rfl | ⟨id, hid, rfl⟩
      · exact decide_eq_true ((mem_range.mp hloc).trans_le hpages)
      · exact decide_eq_true (lt_of_idAt f hid)
    · intro id hid
      obtain ⟨loc, hloc, hat⟩ := exists_idAt hsize (f.once.mem_iff.mpr (mem_range.mpr hid))
      exact ⟨loc, lt_of_lt_of_le hloc hpages, (hleft loc hloc).2 id hat,
        (hleft loc hloc).1.trans hat⟩
    · intro loc hloc id hid
      obtain ⟨hslot, hback⟩ := hleft loc (lt_of_lt_of_le hloc hcur)
      have hat := hslot.symm.trans hid
      exact ⟨lt_of_idAt f hat, hback id hat⟩

/-- Two points on a page each, where a page has room for both. -/
def halfFull : PartitionFile 2 := ⟨2, [[0], [1]], by decide, by decide⟩

/-- `loc2id_` has two entries then, and the third and fourth are written. -/
theorem halfFull_outside : initCurLoc 2 2 = 2 ∧
    (LayoutCell.loc2id 3, none) ∈ writes 2 halfFull.parts ∧
    loadPageLayout 2 halfFull (writes 2 halfFull.parts) (fun _ => none) = none :=
  ⟨by decide, by decide, by decide⟩

end PageLayout
end PipeANN
