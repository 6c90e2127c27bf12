import Mathlib.Data.List.Basic
import PipeANN.AllocatorRuns

/-! # The arrays of the allocator

The maps of `AllocatorRuns` are arrays in `ssd_index.cpp`: after a load `id2loc_` has an entry for
each point and `loc2id_` one for each slot below the tail.  `set_id2loc` and `set_loc2id` resize an
array to 1.5 times the index if the index is not inside.  For the indexes 0 and 1 that is not more
than the index itself, and the entry is written outside.  `id2loc` aborts outside, and the loops of
`alloc_loc` and `erase_loc2id` index `loc2id_` as it is.  Here a state has the sizes of the arrays,
and a step is one that stays inside.

`allocator_safe_iff` says that for an index of two or more points every step of the maps stays
inside, so that they are safe in every run.  In a smaller one the commit of the first insert writes
outside.
-/
namespace PipeANN
open List Option

namespace LocArrays

/-- `resize`: the new entries are 0. -/
def resize (n : Nat) (a : List UInt32) : List UInt32 := a.take n ++ replicate (n - a.length) 0

/-- The growth step.  The product is exact, since an index has 32 bits. -/
def grow (a : List UInt32) (i : Nat) : List UInt32 :=
  if a.length ≤ i then resize (3 * i / 2) a else a

/-- The setter of either array: `none` if it writes outside. -/
def setEntry (a : List UInt32) (i : Nat) (v : UInt32) : Option (List UInt32) :=
  if i < (grow a i).length then some ((grow a i).set i v) else none

def setId2loc (id2loc : List UInt32) (id loc : UInt32) : Option (List UInt32) :=
  setEntry id2loc id.toNat loc

def setLoc2id (loc2id : List UInt32) (loc id : UInt32) : Option (List UInt32) :=
  setEntry loc2id loc.toNat id

/-- `none` is `crash()`. -/
def id2loc (a : List UInt32) (id : UInt32) : Option UInt32 :=
  if a.length ≤ id.toNat then none else a[id.toNat]?

/-- The check lets the first index past the end through, and then the access is outside. -/
def loc2id (a : List UInt32) (loc : UInt32) : Option UInt32 :=
  if a.length < loc.toNat then none else a[loc.toNat]?

/-- **What a setter should do**: it writes inside, the getter then returns the value, and every
other entry stays. -/
def Sets (get : List UInt32 → UInt32 → Option UInt32) (a : List UInt32) (i v : UInt32)
    (result : Option (List UInt32)) : Prop :=
  ∃ a', result = some a' ∧ get a' i = some v ∧ ∀ j < a.length, j ≠ i.toNat → a'[j]? = a[j]?

variable {a : List UInt32} {i : Nat}

theorem lt_length_grow_iff : i < (grow a i).length ↔ i < a.length ∨ 2 ≤ i := by
  unfold grow resize
  split <;> simp <;> omega

/-- The growth step never drops an entry. -/
theorem getElem?_grow {j : Nat} (hj : j < a.length) : (grow a i)[j]? = a[j]? := by
  unfold grow resize
  split
  · rw [getElem?_append_left (by rw [length_take]; omega), getElem?_take_of_lt (by omega)]
  · rfl

theorem sets_setEntry_iff {get : List UInt32 → UInt32 → Option UInt32}
    (hget : ∀ a i, i.toNat < a.length → get a i = a[i.toNat]?) (i v : UInt32) :
    Sets get a i v (setEntry a i.toNat v) ↔ i.toNat < a.length ∨ 2 ≤ i.toNat := by
  rw [← lt_length_grow_iff, setEntry]
  constructor
  · rintro ⟨a', ha', -⟩
    by_contra hi
    simp [hi] at ha'
  · intro hi
    refine ⟨_, if_pos hi, ?_, fun j hj hne => ?_⟩
    · rw [hget _ _ (by rwa [length_set]), getElem?_set_self hi]
    · rw [getElem?_set_ne hne.symm, getElem?_grow hj]

/-- **The setters work for an entry that is there and for every index from 2 on**, and for no
other one. -/
theorem setters_iff (a : List UInt32) (i v : UInt32) :
    (Sets id2loc a i v (setId2loc a i v) ↔ i.toNat < a.length ∨ 2 ≤ i.toNat) ∧
      (Sets loc2id a i v (setLoc2id a i v) ↔ i.toNat < a.length ∨ 2 ≤ i.toNat) :=
  ⟨sets_setEntry_iff (fun _ _ hi => if_neg (Nat.not_le.mpr hi)) i v,
    sets_setEntry_iff (fun _ _ hi => if_neg (Nat.not_lt.mpr (Nat.le_of_lt hi))) i v⟩

/-- The first entry of an empty array is written outside. -/
theorem setters_empty : ¬ Sets id2loc [] 0 7 (setId2loc [] 0 7) ∧
    ¬ Sets loc2id [] 0 7 (setLoc2id [] 0 7) := by
  constructor <;> rintro ⟨a', ha', -⟩ <;> simp [setId2loc, setLoc2id, setEntry, grow, resize] at ha'

/-! ## Sizes -/

/-- The size of an array after a setter; `none` if it writes outside. -/
def setSize (size i : Nat) : Option Nat :=
  if i < size then some size else if i < 3 * i / 2 then some (3 * i / 2) else none

theorem length_setEntry (a : List UInt32) (i : Nat) (v : UInt32) :
    (setEntry a i v).map length = setSize a.length i := by
  unfold setEntry setSize grow resize
  grind

theorem exists_setSize (size : Nat) {i : Nat} (h : i < size ∨ 2 ≤ i) :
    ∃ size', setSize size i = some size' ∧ size ≤ size' ∧ i < size' := by
  unfold setSize
  split
  · next hlt => exact ⟨size, rfl, le_rfl, hlt⟩
  · exact ⟨_, if_pos (by omega), by omega, by omega⟩

/-- Setters for several entries. -/
theorem exists_foldlM_setSize (size : Nat) {l : List Nat} (h : ∀ i ∈ l, i < size ∨ 2 ≤ i) :
    ∃ size', l.foldlM setSize size = some size' ∧ size ≤ size' ∧ ∀ i ∈ l, i < size' := by
  induction l generalizing size with
  | nil => exact ⟨size, rfl, le_rfl, fun i hi => absurd hi not_mem_nil⟩
  | cons i l ih =>
    obtain ⟨hi, hl⟩ := forall_mem_cons.mp h
    obtain ⟨size₁, h₁, hle, hlt⟩ := exists_setSize size hi
    obtain ⟨size₂, h₂, hle', hall⟩ := ih size₁ fun j hj => (hl j hj).imp_left hle.trans_lt'
    refine ⟨size₂, ?_, hle.trans hle', forall_mem_cons.mpr ⟨hlt.trans_le hle', hall⟩⟩
    rw [foldlM_cons, h₁]
    exact h₂

end LocArrays

open LocArrays

/-- The maps with the sizes of their arrays. -/
structure ArrayMap extends IndexMap where
  id2locSize : Nat
  loc2idSize : Nat

namespace ArrayMap
open IndexMap (Action)
variable (m : DiskLayout)

/-- The state after `load`. -/
def load (npoints : Nat) : ArrayMap where
  toIndexMap := .identity m npoints
  id2locSize := npoints
  loc2idSize := roundUp npoints m.nnodesPerSector

/-- The sizes after a step to the maps `s'`, if every access is inside.  `alloc_loc` looks at pages
of the queue and hint pages, and calls the setter for new slots; a commit calls the setters, and
`erase_loc2id` looks at the pages of the old slots. -/
def sizes (s : ArrayMap) (s' : IndexMap) : Action → Option (Nat × Nat)
  | .reserve _ _ _ hints =>
    if ∀ page ∈ s.slots.emptyPages ++ hints, ∀ i ∈ m.pageSlots page, i < s.loc2idSize then
      ((range' s.slots.curLoc (s'.slots.curLoc - s.slots.curLoc)).foldlM setSize s.loc2idSize).map
        (s.id2locSize, ·)
    else none
  | .commit tid =>
    (s.pending tid).bind fun r => (setSize s.id2locSize r.target).bind fun size =>
      if ∀ nbr ∈ r.nbrs, nbr < size ∧ ∀ loc ∈ s.id2loc nbr,
          ∀ i ∈ m.pageSlots (m.locSectorNo loc), i < s.loc2idSize then
        (r.locs.foldlM setSize s.loc2idSize).map (size, ·)
      else none

/-- A step that stays inside the arrays. -/
def step (s : ArrayMap) (a : Action) : Option ArrayMap :=
  (s.toIndexMap.step m a).bind fun s' => (s.sizes m s' a).map fun z => ⟨s', z.1, z.2⟩

/-- The hint pages are pages of the file. -/
def HintsIn (s : ArrayMap) : Action → Prop
  | .reserve _ _ _ hints => ∀ page ∈ hints, ∀ i ∈ m.pageSlots page, i < s.slots.curLoc
  | .commit _ => True

/-- What a run keeps. -/
structure Inside (s : ArrayMap) : Prop where
  maps : s.toIndexMap.Inv m
  two : 2 ≤ s.slots.curLoc
  tail : s.slots.curLoc ≤ s.loc2idSize
  first : ∀ id < 2, s.id2loc id ≠ none
  ids : ∀ id, s.id2loc id ≠ none → id < s.id2locSize

variable {m : DiskLayout} (hnpp : 0 < m.nnodesPerSector) {s t : ArrayMap} {a : Action}

include hnpp in
theorem inside_load {npoints : Nat} (h : 2 ≤ npoints) : (load m npoints).Inside m := by
  have hle := le_roundUp npoints hnpp
  refine ⟨IndexMap.inv_identity hnpp npoints, h.trans hle, le_rfl, fun id hid => ?_, fun id => ?_⟩
  · grind [load, IndexMap.identity]
  · grind [load, IndexMap.identity]

include hnpp in
/-- No access is outside. -/
theorem Inside.exists_lift (hs : s.Inside m) (hin : s.HintsIn m a) {s' : IndexMap}
    (h : s.toIndexMap.step m a = some s') :
    ∃ t, s.step m a = some t ∧ t.toIndexMap = s' ∧ t.Inside m := by
  suffices hsizes : ∃ z, s.sizes m s' a = some z ∧ Inside m ⟨s', z.1, z.2⟩ by
    obtain ⟨z, hz, hinside⟩ := hsizes
    exact ⟨_, by rw [ArrayMap.step, h, bind_some, hz]; rfl, rfl, hinside⟩
  have hinv := IndexMap.inv_step hnpp hs.maps h
  cases a with
  | reserve tid target nbrs hints =>
    obtain ⟨slots, locs, need, halloc, -, -, -, -, rfl⟩ := IndexMap.reserve_cases h
    have hgrows := (reserved_of_allocLoc hnpp (Nat.succ_pos _) hs.maps.wf halloc).grows
    obtain ⟨size, hsize, hle, hnew⟩ := exists_foldlM_setSize s.loc2idSize fun i
      (hi : i ∈ range' s.slots.curLoc (slots.curLoc - s.slots.curLoc)) =>
        .inr (hs.two.trans (mem_range'_1.mp hi).1)
    refine ⟨(s.id2locSize, size), (if_pos fun page hpage i hi => ?_).trans (by rw [hsize]; rfl),
      hinv, hs.two.trans hgrows, ?_, hs.first, hs.ids⟩
    · refine lt_of_lt_of_le ?_ hs.tail
      rcases mem_append.mp hpage with hpage | hpage
      · -- a slot of a queued page is free, so it is not behind the tail
        have hfree := hs.maps.wf.queueFree page hpage i ((DiskLayout.mem_pageSlots hnpp).mp hi)
        exact lt_of_not_ge fun hge => hs.maps.wf.tail i hge hfree
      · exact hin page hpage i hi
    · have hold := hs.tail
      by_contra hlt
      dsimp only at hlt
      have hlast := hnew (slots.curLoc - 1) (mem_range'_1.mpr (by omega))
      omega
  | commit tid =>
    obtain ⟨r, hp, rfl⟩ := map_eq_some_iff.mp h
    have hok := hs.maps.pending tid r hp
    have hmoved := IndexMap.commitMaps_spec hnpp hs.maps hp
    have htarget : 2 ≤ r.target := by
      by_contra hlt
      exact hs.first r.target (by omega) hok.targetNew
    obtain ⟨size, hsize, hle, hlt⟩ := exists_setSize s.id2locSize (.inr htarget)
    obtain ⟨size', hsize', hle', -⟩ := exists_foldlM_setSize s.loc2idSize fun l hl =>
      .inl ((hok.reserved l hl).2.trans_le hs.tail)
    have hnbrs : ∀ nbr ∈ r.nbrs, nbr < size ∧ ∀ loc ∈ s.id2loc nbr,
        ∀ i ∈ m.pageSlots (m.locSectorNo loc), i < s.loc2idSize := by
      refine fun nbr hnbr => ⟨?_, fun loc hloc i hi => ?_⟩
      · exact (hs.ids nbr (hok.nbrsCommitted nbr hnbr)).trans_le hle
      · have hlt := ((hs.maps.inverse nbr loc).mp hloc).2
        have hpage := ((DiskLayout.mem_pageSlots hnpp).mp hi).symm
        exact (DiskLayout.lt_of_same_page hnpp hs.maps.wf.aligned hpage hlt).trans_le hs.tail
    refine ⟨(size, size'), ?_, hinv, hmoved.curLoc ▸ hs.two, hmoved.curLoc ▸ hs.tail.trans hle',
      fun id hid => ?_, fun id hid => ?_⟩
    · rw [sizes, hp, bind_some, hsize, bind_some, if_pos hnbrs, hsize']
      rfl
    · by_cases hmem : id ∈ r.ids
      · obtain ⟨l, hl⟩ := (Reservation.exists_zip hok.length).2 id hmem
        exact ne_none_iff_exists'.mpr ⟨l, (hmoved.moved l id hl).1⟩
      · exact fun hnone => hs.first id hid ((hmoved.others id hmem).symm.trans hnone)
    · by_cases hmem : id ∈ r.ids
      · rcases mem_append.mp hmem with hmem | hmem
        · exact (hnbrs id hmem).1
        · exact mem_singleton.mp hmem ▸ hlt
      · exact (hs.ids id fun hnone => hid ((hmoved.others id hmem).trans hnone)).trans_le hle

include hnpp in
/-- With fewer points the next insert writes outside, at the latest when it commits. -/
theorem exists_outside {npoints : Nat} (h : npoints < 2) :
    ∃ s a s', Reach (step m) (HintsIn m) (load m npoints) s ∧ s.HintsIn m a ∧
      s.toIndexMap.step m a = some s' ∧ s.step m a = none := by
  have hnew : (IndexMap.identity m npoints).idTaken npoints = false := by
    simp [IndexMap.identity]
  obtain ⟨s₁, r, hs₁, hp, htarget⟩ :=
    IndexMap.exists_reserve hnpp (IndexMap.inv_identity hnpp npoints) 0 rfl hnew
  have hstep : (load m npoints).toIndexMap.step m (.reserve 0 npoints [] []) = some s₁ := hs₁
  have hin : (load m npoints).HintsIn m (.reserve 0 npoints [] []) :=
    fun page hpage => absurd hpage not_mem_nil
  cases ht : (load m npoints).step m (.reserve 0 npoints [] []) with
  | none => exact ⟨_, _, s₁, .refl, hin, hstep, ht⟩
  | some t =>
    have hreach : Reach (step m) (HintsIn m) (load m npoints) t := .step _ .refl hin ht
    rw [step, hstep, bind_some, sizes] at ht
    obtain ⟨z, hz, rfl⟩ := map_eq_some_iff.mp ht
    obtain ⟨size, -, rfl⟩ := map_eq_some_iff.mp (ite_none_right_eq_some.mp hz).2
    -- `id2loc_` has as many entries as before, and the target is the next one
    have hfull : setSize npoints r.target = none := by grind [setSize]
    refine ⟨_, .commit 0, _, hreach, trivial,
      (congrArg (Option.map _) hp).trans (Option.map_some ..), ?_⟩
    refine bind_eq_none_iff.mpr fun s' _ => ?_
    rw [sizes, hp, bind_some]
    exact congrArg (Option.map _) (congrArg (Option.bind · _) hfull)

include hnpp in
/-- **The allocator is safe from two points on**: in every run whose hint pages are pages of the
file, no step of the maps leaves the arrays, and the maps are safe. -/
theorem allocator_safe_iff (npoints : Nat) : 2 ≤ npoints ↔
    ∀ s, Reach (step m) (HintsIn m) (load m npoints) s →
      (∀ a s', s.HintsIn m a → s.toIndexMap.step m a = some s' →
        ∃ t, s.step m a = some t ∧ t.toIndexMap = s') ∧
      s.toIndexMap.Safe m := by
  constructor
  · intro htwo s hs
    have hinside : s.Inside m := hs.invariant (inside_load hnpp htwo) fun s a t hs hin ht => by
      obtain ⟨s', hstep, -⟩ := bind_eq_some_iff.mp ht
      obtain ⟨t', ht', -, hinside⟩ := hs.exists_lift hnpp hin hstep
      cases ht.symm.trans ht'
      exact hinside
    refine ⟨fun a s' hin h => ?_, hinside.maps.safe hnpp⟩
    obtain ⟨t, ht, heq, -⟩ := hinside.exists_lift hnpp hin h
    exact ⟨t, ht, heq⟩
  · intro hall
    by_contra hlt
    obtain ⟨s, a, s', hs, hin, hstep, hnone⟩ := exists_outside hnpp (Nat.lt_of_not_le hlt)
    obtain ⟨t, ht, -⟩ := (hall s hs).1 a s' hin hstep
    cases hnone.symm.trans ht

/-- Two points in a page: an insert moves both away, and the next one gets the emptied page. -/
theorem allocator_safe_reused_page : (runSteps (step ⟨2048, 2⟩) (load ⟨2048, 2⟩ 2)
        [.reserve 0 2 [0, 1] [], .commit 0, .reserve 1 3 [] []]).map
      (fun s => (s.pending 1, s.id2loc 1)) = some (some ⟨3, [], [0], []⟩, some 3) ∧
    ∀ s, runSteps (step ⟨2048, 2⟩) (load ⟨2048, 2⟩ 2)
        [.reserve 0 2 [0, 1] [], .commit 0, .reserve 1 3 [] []] = some s →
      s.toIndexMap.Safe ⟨2048, 2⟩ := by
  refine ⟨by decide, fun s hs => ((allocator_safe_iff (by decide) 2).mp le_rfl s ?_).2⟩
  refine .of_run_guarded trivial (fun s a s' ha _ _ => ⟨?_, trivial⟩) hs
  simp only [mem_cons, not_mem_nil, or_false] at ha
  rcases ha with rfl | rfl | rfl
  all_goals simp [HintsIn]

/-- One point: the maps could take the commit of the first insert, and the arrays cannot. -/
theorem first_commit_outside : ∃ s, runSteps (step ⟨2048, 2⟩) (load ⟨2048, 2⟩ 1)
        [.reserve 0 1 [0] []] = some s ∧
      (s.toIndexMap.step ⟨2048, 2⟩ (.commit 0)).isSome = true ∧
      (s.step ⟨2048, 2⟩ (.commit 0)).isNone = true := by
  exact ⟨_, rfl, by decide, by decide⟩

end ArrayMap
end PipeANN
