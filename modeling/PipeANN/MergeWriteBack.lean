import PipeANN.MergeDeletes

/-! # What a merge leaves in the file

The second pass of `merge_deletes` fills the slot `new_id % VEC_IN_WBUF` of its write
buffer, counts the filled slots, and after each chunk of locations writes back a batch of
`LOC_PER_MERGE` new ids once that many slots are filled.  This assumes that the ids handed
out in the first pass follow the order of the locations.  They do so only up to the chunks
of the *first* pass: within such a chunk the ids come in any order.  When a chunk boundary
of the second pass cuts a chunk of the first pass in two, an id of the batch to be written
may belong to a location behind the boundary.

`npp = 3` has `LOC_PER_MERGE = 131073`, which is not a multiple of `LOC_PER_POPULATE = 1024`;
with all of `131076` locations occupied, `mergePass_loses_record` gives an order of the
first pass for which the slot of id `131072` is written back before it is filled.

`mergePass_correct_iff` says exactly for which locations and deleted sets every order leaves
the right file; it always does so when `LOC_PER_MERGE` is a multiple of `LOC_PER_POPULATE`
(`boundariesSafe_of_dvd`), in particular for `npp = 0` and every power of two.
-/
namespace PipeANN
open List Nat SlidingWindow
namespace SSDIndex

open ChunkedLoop

variable {ν α τ δ : Type} [LinearOrder δ] {ix : SSDIndex ν α τ} {deleted : τ → Bool}
  (params : MergeParams δ)

/-- **The file is right**: every new id below `new_npoints` has in its slot the record of
the node that `id_map` sends to it, and the slot was filled for this id when it was written
back. -/
def FileCorrect (ix : SSDIndex ν α τ) (deleted : τ → Bool) (params : MergeParams δ)
    (sched : Schedule locPerPopulate ix.curLoc) (st : MergeState ν α τ) : Prop :=
  ∀ newId < (ix.populate deleted params sched).newNpoints, ∃ loc < ix.curLoc, ∃ id node,
    ix.loc2id loc = some id ∧
    (ix.populate deleted params sched).idMap.lookup id = some newId ∧
    ix.mergeNode deleted params (ix.populate deleted params sched) loc id = some node ∧
    st.window.disk newId = some (newId, node)

/-- A chunk boundary `b` of the second pass is safe.  With `c` the start of the chunk of the
first pass that `b` lies in, and `below` the number of nodes before a location that stay: one
of the two parts of this chunk has no node that stays; or the ids on disk at the boundary are
handed out before the chunk, and all ids handed out up to its end are less than two batches
above those on disk one chunk before. -/
def BoundarySafe (batch : Nat) (below : Nat → Nat) (k : Nat) : Prop :=
  let b := batch * (k + 1)
  let c := locPerPopulate * (b / locPerPopulate)
  below c = below b ∨ below b = below (c + locPerPopulate) ∨
    batch * (below b / batch) ≤ below c ∧
      below (c + locPerPopulate) ≤ batch * (below (batch * k) / batch) + 2 * batch

/-- The condition on the occupied locations: every chunk boundary of the second pass inside
the file is safe. -/
def BoundariesSafe (ix : SSDIndex ν α τ) (deleted : τ → Bool) : Prop :=
  ∀ k, locPerMerge ix.nnodesPerSector * (k + 1) < ix.curLoc →
    BoundarySafe (locPerMerge ix.nnodesPerSector) (countBelow (ix.live deleted)) k

theorem boundariesSafe_of_dvd (h : locPerPopulate ∣ locPerMerge ix.nnodesPerSector) :
    BoundariesSafe ix deleted := by
  intro k _
  left
  rw [Nat.mul_div_cancel' (Nat.dvd_mul_right_of_dvd h (k + 1))]

/-! ## The rounds of the write buffer -/

section Rounds
variable (sched : Schedule locPerPopulate ix.curLoc) {k : Nat}
  (msched : Schedule (locPerMerge ix.nnodesPerSector) ix.curLoc)

/-- The new ids of a list of chunks. -/
theorem flatten_newIds (rounds : List (List Nat)) :
    (rounds.map fun locs =>
        (locs.filter (ix.live deleted)).map (ix.newIdAt deleted sched)).flatten =
      (rounds.flatten.filter (ix.live deleted)).map (ix.newIdAt deleted sched) := by
  induction rounds with
  | nil => rfl
  | cons locs rounds ih =>
    rw [map_cons, flatten_cons, ih, flatten_cons, filter_append, map_append]

theorem take_mergeRounds (k : Nat) : ((ix.mergeRounds deleted sched msched).take k).flatten =
    ((msched.rounds.take k).flatten.filter (ix.live deleted)).map (ix.newIdAt deleted sched) := by
  rw [mergeRounds, ← map_take, flatten_newIds]

section
variable (hk : k ≤ numChunks (locPerMerge ix.nnodesPerSector) ix.curLoc)
include hk

/-- The ids of the first chunks are those of the first locations. -/
theorem mem_take_mergeRounds {newId : Nat} :
    newId ∈ ((ix.mergeRounds deleted sched msched).take k).flatten ↔
      ∃ loc, ix.live deleted loc ∧ loc < locPerMerge ix.nnodesPerSector * k ∧
        ix.newIdAt deleted sched loc = newId := by
  rw [take_mergeRounds, mem_map]
  apply exists_congr
  intro loc
  rw [mem_filter, (msched.take_flatten_perm (locPerMerge_pos _) hk).mem_iff, mem_range, and_assoc]
  constructor
  · exact fun ⟨h1, h2, h3⟩ => ⟨h2, by omega, h3⟩
  · exact fun ⟨h1, h2, h3⟩ => ⟨by have := live_lt h1; omega, h1, h3⟩

theorem onDisk_mergeRounds :
    onDisk (locPerMerge ix.nnodesPerSector) (ix.mergeRounds deleted sched msched) k =
      locPerMerge ix.nnodesPerSector * (countBelow (ix.live deleted)
        (locPerMerge ix.nnodesPerSector * k) / locPerMerge ix.nnodesPerSector) := by
  rw [onDisk, produced, take_mergeRounds, length_map,
    msched.length_filter_take (locPerMerge_pos _) (fun _ h => live_lt h) hk]

end

theorem length_round_le : ∀ r ∈ ix.mergeRounds deleted sched msched,
    r.length ≤ locPerMerge ix.nnodesPerSector := by
  intro r hr
  obtain ⟨locs, hlocs, rfl⟩ := mem_map.mp hr
  obtain ⟨k, -, rfl⟩ := mem_map.mp hlocs
  have h1 := length_filter_le (ix.live deleted) (msched.order k)
  have h2 := (msched.perm k).length_eq
  rw [chunk, length_range', mul_succ] at h2
  rw [length_map]
  omega

omit [LinearOrder δ] in
theorem mergeRounds_perm : (ix.mergeRounds deleted sched msched).flatten.Perm
    (range (ix.populate deleted params sched).newNpoints) := by
  have hperm := msched.flat_perm (locPerMerge_pos ix.nnodesPerSector)
  have hnd : ((msched.flat.filter (ix.live deleted)).map (ix.newIdAt deleted sched)).Nodup := by
    refine (nodup_map_iff_inj_on
      ((hperm.nodup_iff.mpr nodup_range).filter _)).mpr fun l hl l' _ he => ?_
    exact newIdAt_inj sched (mem_filter.mp hl).2 he
  rw [mergeRounds, flatten_newIds]
  refine (perm_ext_iff_of_nodup hnd nodup_range).mpr fun newId => ?_
  rw [mem_map, mem_range]
  constructor
  · rintro ⟨loc, hloc, rfl⟩
    exact newIdAt_lt rfl (mem_filter.mp hloc).2
  · intro h
    obtain ⟨loc, hl, he⟩ := exists_newIdAt rfl h
    exact ⟨loc, mem_filter.mpr ⟨hperm.mem_iff.mpr (mem_range.mpr (live_lt hl)), hl⟩, he⟩

/-- The write buffer is safe if at every boundary the ids on disk belong to locations before
it, and the ids of these locations are in the window. -/
theorem safe_iff : Safe (locPerMerge ix.nnodesPerSector)
      (ix.mergeRounds deleted sched msched) ↔
    ∀ k, locPerMerge ix.nnodesPerSector * (k + 1) < ix.curLoc →
      (∀ newId < locPerMerge ix.nnodesPerSector * (countBelow (ix.live deleted)
          (locPerMerge ix.nnodesPerSector * (k + 1)) / locPerMerge ix.nnodesPerSector),
        ∃ loc, ix.live deleted loc ∧ loc < locPerMerge ix.nnodesPerSector * (k + 1) ∧
          ix.newIdAt deleted sched loc = newId) ∧
      ∀ loc, ix.live deleted loc → loc < locPerMerge ix.nnodesPerSector * (k + 1) →
        ix.newIdAt deleted sched loc < locPerMerge ix.nnodesPerSector * (countBelow
          (ix.live deleted) (locPerMerge ix.nnodesPerSector * k) / locPerMerge ix.nnodesPerSector) +
          2 * locPerMerge ix.nnodesPerSector := by
  apply forall_congr'
  intro k
  have hlen : (ix.mergeRounds deleted sched msched).length =
      numChunks (locPerMerge ix.nnodesPerSector) ix.curLoc := by
    rw [mergeRounds, length_map, msched.length_rounds]
  rw [hlen, lt_numChunks (locPerMerge_pos _)]
  apply imp_congr_right
  intro hk
  have hlt := (lt_numChunks (locPerMerge_pos _)).mpr hk
  rw [onDisk_mergeRounds sched msched hlt.le, onDisk_mergeRounds sched msched (by omega)]
  simp only [mem_take_mergeRounds sched msched hlt.le]
  apply and_congr_right
  intro _
  constructor
  · exact fun h loc hl hlt => h _ ⟨loc, hl, hlt, rfl⟩
  · rintro h _ ⟨loc, hl, hlt, rfl⟩
    exact h loc hl hlt

/-- **One order of the two passes** leaves the right file if and only if the write buffer is
safe. -/
theorem fileCorrect_iff : (∃ st, ix.mergePass deleted params (ix.populate deleted params sched)
      msched = some st ∧ FileCorrect ix deleted params sched st) ↔
    Safe (locPerMerge ix.nnodesPerSector) (ix.mergeRounds deleted sched msched) := by
  have hp := Eq.refl (ix.populate deleted params sched)
  rw [← run_correct_iff (locPerMerge_pos _) (length_round_le sched msched)
    (mergeRounds_perm params sched msched) (newItem_injective params sched), mergePass_eq _ hp]
  constructor
  · rintro ⟨st, hst, h⟩ newId hnew
    cases hst
    obtain ⟨loc, hloc, id, node, hid, hlook, hnode, hdisk⟩ := h newId hnew
    obtain ⟨loc', hl, hid', rfl⟩ := (lookup_idMap hp).mp hlook
    obtain rfl := ix.loc2id_inj loc hloc loc' (live_lt hl) id hid hid'
    have hat : ix.idAt loc = id := by simp [idAt, hid]
    have hrec := (mergeNode_of_live hp hl).2
    rw [hat, hnode] at hrec
    rw [hdisk, Option.some.inj hrec]
    rfl
  · intro h
    refine ⟨_, rfl, fun newId hnew => ?_⟩
    obtain ⟨loc, hl, rfl⟩ := exists_newIdAt hp hnew
    obtain ⟨h1, h2⟩ := mergeNode_of_live hp hl
    exact ⟨loc, live_lt hl, ix.idAt loc, _, (idAt_of_live hl).1, h1, h2, h _ hnew⟩

end Rounds

/-! ## All orders -/

variable (sched : Schedule locPerPopulate ix.curLoc)

/-- Locations before a chunk of the first pass have smaller ids. -/
theorem newIdAt_lt_countBelow {loc m : Nat}
    (hl : ix.live deleted loc) (hm : loc < locPerPopulate * m) :
    ix.newIdAt deleted sched loc < countBelow (ix.live deleted) (locPerPopulate * m) := by
  apply lt_of_lt_of_le (sched.idxOf_lt locPerPopulate_pos (fun _ h => live_lt h) hl)
  apply countBelow_mono
  exact Nat.mul_le_mul_left _ (Nat.div_lt_of_lt_mul hm)

/-- Locations from a chunk of the first pass on have larger ids. -/
theorem countBelow_le_newIdAt {loc m : Nat}
    (hl : ix.live deleted loc) (hm : locPerPopulate * m ≤ loc) :
    countBelow (ix.live deleted) (locPerPopulate * m) ≤ ix.newIdAt deleted sched loc := by
  refine le_trans ?_ (sched.le_idxOf locPerPopulate_pos (fun _ h => live_lt h) hl)
  apply countBelow_mono
  exact mul_le_mul_left _ ((le_div_iff_mul_le locPerPopulate_pos).mpr (by rwa [mul_comm] at hm))

/-- Every id below the number of nodes that stay before `b` is in use. -/
theorem exists_newIdAt_of_lt_countBelow {newId b : Nat}
    (h : newId < countBelow (ix.live deleted) b) :
    ∃ loc, ix.live deleted loc ∧ ix.newIdAt deleted sched loc = newId := by
  have hlen : newId < (sched.flat.filter (ix.live deleted)).length := by
    rw [((sched.flat_perm locPerPopulate_pos).filter _).length_eq]
    apply lt_of_lt_of_le h
    rcases le_total b ix.curLoc with hb | hb
    · exact countBelow_mono _ hb
    · exact (countBelow_of_le (fun _ h => live_lt h) hb).le
  exact ⟨_, (mem_filter_live sched).mp (getElem_mem hlen),
    ((nodup_flat sched).filter _).idxOf_getElem newId hlen⟩

/-- At safe boundaries every order keeps the write buffer safe. -/
theorem safe_of_boundariesSafe (h : BoundariesSafe ix deleted)
    (sched : Schedule locPerPopulate ix.curLoc)
    (msched : Schedule (locPerMerge ix.nnodesPerSector) ix.curLoc) :
    Safe (locPerMerge ix.nnodesPerSector) (ix.mergeRounds deleted sched msched) := by
  refine (safe_iff sched msched).mpr fun k hk => ?_
  have hsafe := h k hk
  unfold BoundarySafe at hsafe
  have hw := mul_div_le (countBelow (ix.live deleted) (locPerMerge ix.nnodesPerSector * (k + 1)))
    (locPerMerge ix.nnodesPerSector)
  have hv := lt_mul_div_succ (countBelow (ix.live deleted) (locPerMerge ix.nnodesPerSector * k))
    (locPerMerge_pos ix.nnodesPerSector)
  have hstep := countBelow_add_le (ix.live deleted) (locPerMerge ix.nnodesPerSector * k)
    (locPerMerge ix.nnodesPerSector)
  rw [← mul_succ] at hstep
  rw [mul_succ] at hv
  generalize locPerMerge ix.nnodesPerSector * (k + 1) = b at *
  have hc : locPerPopulate * (b / locPerPopulate) ≤ b := mul_div_le b locPerPopulate
  have hc' : b < locPerPopulate * (b / locPerPopulate + 1) :=
    lt_mul_div_succ b locPerPopulate_pos
  have hcb := countBelow_mono (ix.live deleted) hc
  have hbc := countBelow_mono (ix.live deleted) hc'.le
  simp only [← mul_add_one] at hsafe
  refine ⟨fun newId hnew => ?_, fun loc hl hlt => ?_⟩
  · -- An id on disk belongs to a location; it is before the boundary.
    obtain ⟨loc, hl, hid⟩ := exists_newIdAt_of_lt_countBelow sched (hnew.trans_le hw)
    refine ⟨loc, hl, not_le.mp fun hle => ?_, hid⟩
    rcases lt_or_ge loc (locPerPopulate * (b / locPerPopulate + 1)) with hin | hout
    · have h1 := countBelow_le_newIdAt sched hl (hc.trans hle)
      have h2 := countBelow_lt hle hin hl
      omega
    · have h1 := countBelow_le_newIdAt sched hl hout
      omega
  · rcases lt_or_ge loc (locPerPopulate * (b / locPerPopulate)) with hout | hin
    · have h1 := newIdAt_lt_countBelow sched hl hout
      omega
    · have h1 := newIdAt_lt_countBelow sched hl (hlt.trans hc')
      have h2 := countBelow_lt hin hlt hl
      omega

/-- If every order keeps the write buffer safe, the boundaries are safe: the first location
behind a bad boundary may get the first id of its chunk, the last location before it the last
id. -/
theorem boundariesSafe_of_safe (h : ∀ (sched : Schedule locPerPopulate ix.curLoc)
      (msched : Schedule (locPerMerge ix.nnodesPerSector) ix.curLoc),
      Safe (locPerMerge ix.nnodesPerSector) (ix.mergeRounds deleted sched msched)) :
    BoundariesSafe ix deleted := by
  intro k hk
  unfold BoundarySafe
  have hsafe := fun sched => (safe_iff sched (Schedule.inOrder _ _)).mp (h _ _) k hk
  set batch := locPerMerge ix.nnodesPerSector with hbatch
  set below := countBelow (ix.live deleted) with hbelow
  intro b c
  have hc : c ≤ b := mul_div_le b locPerPopulate
  have hc' : b < c + locPerPopulate := by
    have := lt_mul_div_succ b locPerPopulate_pos
    rwa [mul_succ] at this
  have hdiv : ∀ loc, c ≤ loc → loc < c + locPerPopulate →
      loc / locPerPopulate = b / locPerPopulate :=
    fun loc h1 h2 => Nat.div_eq_of_lt_le (by rwa [mul_comm]) (by rwa [mul_comm])
  by_contra hbad
  obtain ⟨hne1, hbad⟩ := not_or.mp hbad
  obtain ⟨hne2, hbad⟩ := not_or.mp hbad
  have h1 : below c < below b := lt_of_le_of_ne (countBelow_mono _ hc) hne1
  have h2 : below b < below (c + locPerPopulate) :=
    lt_of_le_of_ne (countBelow_mono _ hc'.le) hne2
  by_cases hw : batch * (below b / batch) ≤ below c
  · -- The last location before the boundary gets the last id of its chunk.
    obtain ⟨loc, hcl, hlb, hl⟩ := exists_of_countBelow_lt h1
    obtain ⟨sched, hid⟩ := Schedule.exists_last locPerPopulate_pos (fun _ h => live_lt h) hl
    have := (hsafe sched).2 loc hl hlb
    rw [hdiv loc hcl (hlb.trans hc')] at hid
    have hid : ix.newIdAt deleted sched loc + 1 = below (c + locPerPopulate) := hid
    exact hbad ⟨hw, by rw [← hid]; exact this⟩
  · obtain ⟨loc, hbl, hlc, hl⟩ := exists_of_countBelow_lt h2
    obtain ⟨sched, hid⟩ := Schedule.exists_first locPerPopulate_pos (fun _ h => live_lt h) hl
    rw [hdiv loc (hc.trans hbl) hlc] at hid
    obtain ⟨loc', -, hlt, he⟩ := (hsafe sched).1 (below c) (not_le.mp hw)
    have := newIdAt_inj sched hl (hid.trans he.symm)
    omega

/-- **When a merge leaves the right file.**  For every index, every set of deleted tags and
all parameters: the two passes leave every record in the slot of its new id, for every order
of the locations within the chunks of both passes, if and only if the boundaries between the
chunks of the second pass are safe. -/
theorem mergePass_correct_iff (ix : SSDIndex ν α τ) (deleted : τ → Bool) (params : MergeParams δ) :
    (∀ (sched : Schedule locPerPopulate ix.curLoc)
        (msched : Schedule (locPerMerge ix.nnodesPerSector) ix.curLoc),
      ∃ st, ix.mergePass deleted params (ix.populate deleted params sched) msched = some st ∧
        FileCorrect ix deleted params sched st) ↔ BoundariesSafe ix deleted := by
  constructor
  · intro h
    exact boundariesSafe_of_safe fun sched msched =>
      (fileCorrect_iff params sched msched).mp (h _ _)
  · intro h sched msched
    exact (fileCorrect_iff params sched msched).mpr (safe_of_boundariesSafe h sched msched)

/-! ## A merge that loses a record -/

/-- `131076` nodes with three nodes to a page and no edges; the node with id `id` is at
location `id`. -/
def fullFile : SSDIndex Unit Unit Nat where
  nnodesPerSector := 3
  curLoc := 131076
  loc2id := some
  loc2id_inj := fun _ _ _ _ _ h h' => Option.some.inj (h.trans h'.symm)
  id2tag := fun id => id
  node := fun _ => ⟨(), [], by decide, ()⟩
  nbrs_exist := fun _ _ _ _ _ h => absurd h not_mem_nil

/-- In the last chunk of the first pass location `131073` comes before location `131072`. -/
def swapped : Schedule locPerPopulate fullFile.curLoc :=
  (Schedule.inOrder _ _).withOrder 128 [131073, 131072, 131074, 131075]
    (List.Perm.swap 131072 131073 [131074, 131075])

theorem live_fullFile {loc : Nat} (h : loc < 131076) : fullFile.live (fun _ => false) loc := by
  simp [live, fullFile, h]

theorem countBelow_fullFile {x : Nat} (h : x ≤ 131076) :
    countBelow (fullFile.live fun _ => false) x = x := by
  rw [countBelow, filter_eq_self.mpr, length_range]
  exact fun loc hloc => live_fullFile (lt_of_lt_of_le (mem_range.mp hloc) h)

theorem newIdAt_swapped : fullFile.newIdAt (fun _ => false) swapped 131073 = 131072 := by
  rw [newIdAt,
    swapped.idxOf_eq locPerPopulate_pos (fun _ h => live_lt h) (live_fullFile (by decide))]
  have hfirst : (swapped.order (131073 / locPerPopulate)).filter (fullFile.live fun _ => false) =
      [131073, 131072, 131074, 131075] := by decide +kernel
  have hchunk : locPerPopulate * (131073 / locPerPopulate) = 131072 := by decide
  rw [hfirst, idxOf_cons_self, hchunk, countBelow_fullFile (by decide)]

/-- **A lost record.**  The node at location `131073` becomes node `131072`.  The second pass
ends its first chunk before this location and writes back the slots of the ids below
`131073`, the one of this node among them. -/
theorem mergePass_loses_record :
    (fullFile.populate (fun _ => false) smallParams swapped).idMap.lookup 131073 = some 131072 ∧
    ∃ st, fullFile.mergePass (fun _ => false) smallParams
        (fullFile.populate (fun _ => false) smallParams swapped) (Schedule.inOrder _ _) = some st ∧
      ¬ FileCorrect fullFile (fun _ => false) smallParams swapped st := by
  refine ⟨(lookup_idMap rfl).mpr
    ⟨131073, live_fullFile (by decide), rfl, newIdAt_swapped⟩, ?_⟩
  refine ⟨_, mergePass_eq _ rfl, fun hfile => ?_⟩
  have hsafe := (fileCorrect_iff smallParams swapped (Schedule.inOrder _ _)).mp
    ⟨_, mergePass_eq _ rfl, hfile⟩
  have hbatch : locPerMerge fullFile.nnodesPerSector = 131073 := by decide
  have hboundary := ((safe_iff swapped (Schedule.inOrder _ _)).mp hsafe 0 (by decide)).1
  rw [countBelow_fullFile (by decide)] at hboundary
  obtain ⟨loc, -, hlt, hid⟩ := hboundary 131072 (by decide)
  have hloc := newIdAt_inj swapped (live_fullFile (by decide)) (newIdAt_swapped.trans hid.symm)
  rw [← hloc] at hlt
  exact absurd hlt (by decide)

end SSDIndex
end PipeANN
