import Mathlib.Data.Prod.Basic
import Mathlib.Data.List.Zip
import PipeANN.GuardedRuns
import PipeANN.SlotAllocator

/-! # Runs of reservations and commits

Inserts share the maps `id2loc` and `loc2id`.  Each one takes a new id for its
vector, reserves slots by `alloc_loc`, and later commits: `id2loc` of the new
vector and of its neighbours is pointed at the reserved slots, and
`erase_and_set_loc` hands the slots over and frees the old ones.  A run is any
interleaving of these two kinds of steps, by any number of inserts
(`direct_insert.cpp`, `insert_in_place`).

The vector locks an insert holds while it commits only restrict which
interleavings can occur; the results of this module hold for all of them.

The invariant is `IndexMap.Inv`.  Its heart is that a slot below the tail is in
exactly one of three states: free, reserved by one pending insert, or holding the
record that `id2loc` points to.  The maps are functions here; the arrays behind
them are the subject of `AllocatorBounds`.
-/
namespace PipeANN
open List Function

/-- What an insert keeps between its reservation and its commit.  `locs` has one
slot for each neighbour and, last, the slot of the target. -/
structure Reservation where
  target : Nat
  nbrs : List Nat
  locs : List Nat
  /-- `pages_need_to_read`. -/
  need : List Nat
  deriving DecidableEq, Repr

/-- `new_nhood` after `new_nhood.push_back(target_id)`. -/
def Reservation.ids (r : Reservation) : List Nat := r.nbrs ++ [r.target]

/-- The slot of each id of a reservation, the target's being the last. -/
theorem Reservation.mem_zip_ids {r : Reservation} (hlen : r.locs.length = r.nbrs.length + 1)
    {id loc : Nat} : (loc, id) ∈ r.locs.zip r.ids ↔
      (id, loc) ∈ r.nbrs.zip r.locs ∨ id = r.target ∧ r.locs[r.nbrs.length]? = some loc := by
  obtain ⟨init, last, hlocs⟩ : ∃ init last, r.locs = init ++ [last] :=
    ⟨_, _, (dropLast_append_getLast (ne_nil_of_length_pos (by omega))).symm⟩
  have hinit : init.length = r.nbrs.length := by simpa [hlocs] using hlen
  have hzip : r.nbrs.zip (init ++ [last]) = r.nbrs.zip init := by
    have : (r.nbrs ++ []).zip (init ++ [last]) = _ := zip_append hinit.symm
    simpa using this
  have hswap : (loc, id) ∈ init.zip r.nbrs ↔ (id, loc) ∈ r.nbrs.zip init := by
    rw [← zip_swap r.nbrs init]
    exact mem_map_of_injective Prod.swap_injective (a := (id, loc))
  rw [Reservation.ids, hlocs, zip_append hinit, hzip, ← hinit, mem_append, hswap]
  simp [and_comm, eq_comm]

/-- Every slot of a reservation belongs to one of its ids, and conversely. -/
theorem Reservation.exists_zip {r : Reservation} (hlen : r.locs.length = r.nbrs.length + 1) :
    (∀ l ∈ r.locs, ∃ id, (l, id) ∈ r.locs.zip r.ids) ∧
      ∀ id ∈ r.ids, ∃ l, (l, id) ∈ r.locs.zip r.ids := by
  have hids : r.locs.length = r.ids.length := by simp [Reservation.ids, hlen]
  constructor
  · intro l hl
    have hfst : (r.locs.zip r.ids).map Prod.fst = r.locs := map_fst_zip hids.le
    obtain ⟨p, hp, rfl⟩ := mem_map.mp (hfst.symm ▸ hl)
    exact ⟨p.2, hp⟩
  · intro id hid
    have hsnd : (r.locs.zip r.ids).map Prod.snd = r.ids := map_snd_zip hids.ge
    obtain ⟨p, hp, rfl⟩ := mem_map.mp (hsnd.symm ▸ hid)
    exact ⟨p.1, hp⟩

/-- The maps shared by all inserts, and the inserts between reservation and
commit, by thread. -/
structure IndexMap where
  slots : SlotMap
  id2loc : Nat → Option Nat
  /-- The ids handed out by `cur_id++`, in whatever order inserts got them. -/
  idTaken : Nat → Bool
  pending : Nat → Option Reservation

namespace IndexMap

variable (m : DiskLayout)

/-- The state after `load` without a partition file: id `i` at location `i`, and
`cur_loc` rounded up to a whole page. -/
def identity (npoints : Nat) : IndexMap where
  slots :=
    { loc2id := fun l => if l < npoints then .id l
        else if l < roundUp npoints m.nnodesPerSector then .invalid else .id 0
      emptyPages := []
      curLoc := roundUp npoints m.nnodesPerSector }
  id2loc := fun i => if i < npoints then some i else none
  idTaken := fun i => decide (i < npoints)
  pending := fun _ => none

/-- An insert that found the neighbours `nbrs` for its new id `target` reserves
its slots.  The neighbours come from a search, so they are distinct and committed. -/
def reserve (s : IndexMap) (tid target : Nat) (nbrs hints : List Nat) :
    Option IndexMap :=
  if s.pending tid = none ∧ s.idTaken target = false ∧ nbrs.Nodup ∧
      ∀ n ∈ nbrs, s.id2loc n ≠ none then
    match allocLoc m (nbrs.length + 1) hints s.slots with
    | .error _ => none
    | .ok (slots, locs, need) =>
      some { s with
        slots := slots
        idTaken := update s.idTaken target true
        pending := update s.pending tid (some ⟨target, nbrs, locs, need⟩) }
  else none

/-- The loop `orig_locs.emplace_back(id2loc(nbr)); set_id2loc(nbr, loc)`. -/
def relocate : List (Nat × Nat) → (Nat → Option Nat) → List Nat → (Nat → Option Nat) × List Nat
  | [], f, orig => (f, orig)
  | (nbr, loc) :: ps, f, orig =>
    relocate ps (update f nbr (some loc)) (orig ++ (f nbr).toList)

/-- The commit of a reservation: `set_id2loc` for the target, then for the
neighbours, then `erase_and_set_loc`. -/
def commitMaps (r : Reservation) (s : IndexMap) : SlotMap × (Nat → Option Nat) :=
  let f := update s.id2loc r.target r.locs[r.nbrs.length]?
  let (f, origLocs) := relocate (r.nbrs.zip r.locs) f []
  (eraseAndSetLoc m origLocs r.locs r.ids s.slots, f)

/-- The insert of thread `tid` commits. -/
def commit (s : IndexMap) (tid : Nat) : Option IndexMap :=
  (s.pending tid).map fun r =>
    { s with
      slots := (commitMaps m r s).1
      id2loc := (commitMaps m r s).2
      pending := update s.pending tid none }

/-- The steps of the allocator: who reserves or commits. -/
inductive Action where
  | reserve (tid target : Nat) (nbrs hints : List Nat)
  | commit (tid : Nat)

/-- One step. -/
def step (s : IndexMap) : Action → Option IndexMap
  | .reserve tid target nbrs hints => s.reserve m tid target nbrs hints
  | .commit tid => s.commit m tid

/-- **Safe maps**: `id2loc` and `loc2id` are inverse on committed ids; whatever `alloc_loc` hands
out is neither reserved nor occupied; the queue of empty pages holds completely free pages, each
once, and `alloc_loc` does not abort; and the tail is page aligned and moves by whole pages. -/
structure Safe (m : DiskLayout) (s : IndexMap) : Prop where
  inverse : ∀ id l, s.id2loc id = some l ↔ s.slots.loc2id l = .id id ∧ l < s.slots.curLoc
  handedOut : ∀ n hints slots locs need, 0 < n →
    allocLoc m n hints s.slots = .ok (slots, locs, need) → locs.length = n ∧ locs.Nodup ∧
      ∀ l ∈ locs, (∀ t r, s.pending t = some r → l ∉ r.locs) ∧ ∀ id, s.id2loc id ≠ some l
  queue : s.slots.emptyPages.Nodup ∧
    (∀ page ∈ s.slots.emptyPages, ∀ l ∈ m.pageSlots page, s.slots.loc2id l = .invalid) ∧
    ∀ n hints, 0 < n → ∃ res, allocLoc m n hints s.slots = .ok res
  tail : m.nnodesPerSector ∣ s.slots.curLoc ∧ ∀ a s', step m s a = some s' →
    ∃ k, s'.slots.curLoc = s.slots.curLoc + k * m.nnodesPerSector

/-! ## The invariant -/

/-- What holds of one pending reservation. -/
structure PendingOk (s : IndexMap) (r : Reservation) : Prop where
  length : r.locs.length = r.nbrs.length + 1
  locsNodup : r.locs.Nodup
  nbrsNodup : r.nbrs.Nodup
  taken : s.idTaken r.target = true
  targetNew : s.id2loc r.target = none
  nbrsCommitted : ∀ n ∈ r.nbrs, s.id2loc n ≠ none
  reserved : ∀ l ∈ r.locs, s.slots.loc2id l = .allocated ∧ l < s.slots.curLoc

/-- **The invariant of the maps.** -/
structure Inv (m : DiskLayout) (s : IndexMap) : Prop where
  wf : s.slots.WellFormed m
  inverse : ∀ id l, s.id2loc id = some l ↔ s.slots.loc2id l = .id id ∧ l < s.slots.curLoc
  taken : ∀ id, s.id2loc id ≠ none → s.idTaken id = true
  pending : ∀ t r, s.pending t = some r → s.PendingOk r
  apart : ∀ t t' r r', t ≠ t' → s.pending t = some r → s.pending t' = some r' →
    r.target ≠ r'.target ∧ ∀ l ∈ r.locs, l ∉ r'.locs

variable {m : DiskLayout} (hnpp : 0 < m.nnodesPerSector)

include hnpp in
/-- The loaded identity layout satisfies the invariant. -/
theorem inv_identity (npoints : Nat) : (identity m npoints).Inv m := by
  have hle := le_roundUp npoints hnpp
  refine ⟨⟨dvd_roundUp .., fun l hge => ?_, nodup_nil, by simp [identity]⟩,
    fun id l => ?_, fun id h => ?_, by simp [identity], by simp [identity]⟩
  · grind [identity]
  · grind [identity]
  · grind [identity]

variable {s s' : IndexMap} {tid : Nat} {nbrs hints : List Nat}

/-- What a successful reservation is. -/
theorem reserve_cases {target : Nat} (h : s.reserve m tid target nbrs hints = some s') :
    ∃ slots locs need, allocLoc m (nbrs.length + 1) hints s.slots = .ok (slots, locs, need) ∧
      s.pending tid = none ∧ s.idTaken target = false ∧ nbrs.Nodup ∧
      (∀ n ∈ nbrs, s.id2loc n ≠ none) ∧
      s' = { s with
        slots := slots
        idTaken := update s.idTaken target true
        pending := update s.pending tid (some ⟨target, nbrs, locs, need⟩) } := by
  unfold reserve at h
  split at h
  · rename_i hg
    split at h
    · cases h
    · rename_i slots locs need halloc
      exact ⟨slots, locs, need, halloc, hg.1, hg.2.1, hg.2.2.1, hg.2.2.2, (Option.some.inj h).symm⟩
  · cases h

include hnpp in
/-- An insert without neighbours can always reserve. -/
theorem exists_reserve {target : Nat} (hi : s.Inv m) (tid : Nat) (hfree : s.pending tid = none)
    (hnew : s.idTaken target = false) : ∃ s' r, s.reserve m tid target [] [] = some s' ∧
      s'.pending tid = some r ∧ r.target = target := by
  obtain ⟨slots, locs, need, halloc, -⟩ := allocLoc_spec hnpp Nat.one_pos [] hi.wf
  rw [reserve, if_pos ⟨hfree, hnew, nodup_nil, fun n hn => absurd hn not_mem_nil⟩, length_nil,
    Nat.zero_add, halloc]
  exact ⟨_, _, rfl, update_self .., rfl⟩

include hnpp in
/-- `reserve` preserves the invariant. -/
theorem inv_reserve {target : Nat} (hi : s.Inv m)
    (h : s.reserve m tid target nbrs hints = some s') : s'.Inv m := by
  obtain ⟨slots, locs, need, halloc, hfree, hnew, hnd, hcomm, rfl⟩ := reserve_cases h
  have hr := reserved_of_allocLoc hnpp (Nat.succ_pos nbrs.length) hi.wf halloc
  have hnone : s.id2loc target = none := by
    by_contra hne
    exact Bool.false_ne_true (hnew.symm.trans (hi.taken target hne))
  -- the reservations made before are kept, and none of their slots is handed out
  have hkeep : ∀ t r, s.pending t = some r → ∀ l ∈ r.locs, l ∉ locs ∧
      slots.loc2id l = .allocated ∧ l < slots.curLoc := by
    intro t r hp l hl
    obtain ⟨ha, hlt⟩ := (hi.pending t r hp).reserved l hl
    obtain ⟨h1, h2, h3⟩ := hr.keeps (by rw [ha]; exact SlotId.noConfusion) hlt
    exact ⟨h1, h2.trans ha, h3⟩
  have htarget : ∀ t r, s.pending t = some r → target ≠ r.target := by
    rintro t r hp rfl
    exact Bool.false_ne_true (hnew.symm.trans (hi.pending t r hp).taken)
  have hpending : ∀ {t r}, update s.pending tid (some ⟨target, nbrs, locs, need⟩) t = some r →
      t = tid ∧ r = ⟨target, nbrs, locs, need⟩ ∨ t ≠ tid ∧ s.pending t = some r := by
    grind
  refine ⟨hr.wf, fun id l => ?_, fun id hid => ?_, fun t r hp => ?_, fun t t' r r' hne hp hp' => ?_⟩
  · rw [show s.id2loc id = some l ↔ _ from hi.inverse id l]
    constructor
    · rintro ⟨hid, hlt⟩
      obtain ⟨-, h2, h3⟩ := hr.keeps (by rw [hid]; exact SlotId.noConfusion) hlt
      exact ⟨h2.trans hid, h3⟩
    · rintro ⟨hid, hlt⟩
      exact hr.id_before hid hlt
  · grind [hi.taken id hid]
  · rcases hpending hp with ⟨rfl, rfl⟩ | ⟨-, hp⟩
    · exact ⟨hr.length, hr.nodup, hnd, by simp, hnone, hcomm,
        fun l hl => ⟨hr.marked l hl, hr.below l hl⟩⟩
    · obtain ⟨h1, h2, h3, h4, h5, h6, -⟩ := hi.pending t r hp
      refine ⟨h1, h2, h3, ?_, h5, h6, fun l hl => (hkeep t r hp l hl).2⟩
      simpa [(htarget t r hp).symm] using h4
  · rcases hpending hp with ⟨rfl, rfl⟩ | ⟨-, hq⟩ <;>
      rcases hpending hp' with ⟨rfl, rfl⟩ | ⟨-, hq'⟩
    · exact absurd rfl hne
    · exact ⟨htarget t' r' hq', fun l hl hl' => (hkeep t' r' hq' l hl').1 hl⟩
    · exact ⟨(htarget t r hq).symm, fun l hl => (hkeep t r hq l hl).1⟩
    · exact hi.apart t t' r r' hne hq hq'

/-! ## Commits -/

/-- The relocation loop over distinct neighbours collects their old locations and
points each at its new one. -/
theorem relocate_spec : ∀ (ps : List (Nat × Nat)) (f : Nat → Option Nat) (orig : List Nat),
    (ps.map Prod.fst).Nodup →
    (relocate ps f orig).2 = orig ++ ps.filterMap (fun p => f p.1) ∧
      (∀ p ∈ ps, (relocate ps f orig).1 p.1 = some p.2) ∧
      ∀ id, id ∉ ps.map Prod.fst → (relocate ps f orig).1 id = f id
  | [], f, orig, _ => by simp [relocate]
  | (nbr, loc) :: ps, f, orig, hnd => by
    obtain ⟨hn, hnd'⟩ := nodup_cons.mp hnd
    obtain ⟨h1, h2, h3⟩ := relocate_spec ps (update f nbr (some loc)) (orig ++ (f nbr).toList) hnd'
    refine ⟨?_, fun p hp => ?_, fun id hid => ?_⟩
    · have hcongr : ps.filterMap (fun p => update f nbr (some loc) p.1)
          = ps.filterMap (fun p => f p.1) := by
        refine filterMap_congr fun p hp => update_of_ne ?_ _ _
        rintro rfl
        exact hn (mem_map.mpr ⟨p, hp, rfl⟩)
      rw [relocate, h1, hcongr, filterMap_cons]
      cases f nbr <;> simp
    · rcases mem_cons.mp hp with rfl | hp
      · exact (h3 nbr hn).trans (update_self ..)
      · exact h2 p hp
    · rw [map_cons, mem_cons, not_or] at hid
      rw [relocate, h3 id hid.2, update_of_ne hid.1]

/-- **The maps after a commit.**  Each id of the reservation is at its reserved
slot and every other id where it was; `loc2id` says so too, with the old slots of
the neighbours free. -/
structure Committed (m : DiskLayout) (r : Reservation) (s : IndexMap) (slots : SlotMap)
    (id2loc : Nat → Option Nat) : Prop where
  wf : slots.WellFormed m
  curLoc : slots.curLoc = s.slots.curLoc
  moved : ∀ l id, (l, id) ∈ r.locs.zip r.ids → id2loc id = some l ∧ slots.loc2id l = .id id
  others : ∀ id, id ∉ r.ids → id2loc id = s.id2loc id
  freed : ∀ n ∈ r.nbrs, ∀ l, s.id2loc n = some l → slots.loc2id l = .invalid
  kept : ∀ l, l ∉ r.locs → (∀ n ∈ r.nbrs, s.id2loc n ≠ some l) → slots.loc2id l = s.slots.loc2id l

include hnpp in
theorem commitMaps_spec {t : Nat} {r : Reservation} (hi : s.Inv m) (hp : s.pending t = some r) :
    Committed m r s (commitMaps m r s).1 (commitMaps m r s).2 := by
  have hok := hi.pending t r hp
  have hlen := hok.length
  have htn : r.target ∉ r.nbrs := fun h => hok.nbrsCommitted _ h hok.targetNew
  have hfst : (r.nbrs.zip r.locs).map Prod.fst = r.nbrs := map_fst_zip (by omega)
  set f := update s.id2loc r.target r.locs[r.nbrs.length]? with hf
  obtain ⟨horig, hset, hrest⟩ :=
    relocate_spec (r.nbrs.zip r.locs) f [] (hfst.symm ▸ hok.nbrsNodup)
  rw [hfst] at hrest
  have hfn : ∀ n ∈ r.nbrs, f n = s.id2loc n := fun n hn =>
    update_of_ne (ne_of_mem_of_not_mem hn htn) _ _
  -- the old locations are those of the neighbours
  have horig' : (relocate (r.nbrs.zip r.locs) f []).2 = r.nbrs.filterMap s.id2loc := by
    have hmap : (r.nbrs.zip r.locs).filterMap (fun p => f p.1) = r.nbrs.filterMap f := by
      conv_rhs => rw [← hfst, filterMap_map]
      rfl
    rw [horig, hmap]
    exact filterMap_congr hfn
  have hmem : ∀ l, l ∈ r.nbrs.filterMap s.id2loc ↔ ∃ n ∈ r.nbrs, s.id2loc n = some l := fun l =>
    mem_filterMap
  have hold : (r.nbrs.filterMap s.id2loc).Nodup := by
    refine hok.nbrsNodup.filterMap fun a b l ha hb => ?_
    have h1 := ((hi.inverse a l).mp ha).1
    have h2 := ((hi.inverse b l).mp hb).1
    exact SlotId.id.inj (h1.symm.trans h2)
  obtain ⟨hwf, hcur, hnew, hfree, hkeep⟩ := eraseAndSetLoc_spec hnpp
    (r.nbrs.filterMap s.id2loc) r.locs r.ids hi.wf
    (by simp [Reservation.ids, hlen]) hok.locsNodup (fun l hl => (hok.reserved l hl).1) hold
    (fun l hl => by
      obtain ⟨n, -, hn⟩ := (hmem l).mp hl
      obtain ⟨h1, h2⟩ := (hi.inverse n l).mp hn
      exact ⟨⟨n, h1⟩, h2⟩)
  have heq : commitMaps m r s = (eraseAndSetLoc m (r.nbrs.filterMap s.id2loc) r.locs r.ids s.slots,
      (relocate (r.nbrs.zip r.locs) f []).1) := by
    rw [← horig']; rfl
  rw [heq]
  refine ⟨hwf, hcur, fun l id hmemz => ⟨?_, hnew _ hmemz⟩, fun id hid => ?_,
    fun n hn l hl => hfree l ((hmem l).mpr ⟨n, hn, hl⟩),
    fun l hl hno => hkeep l (fun hm => ?_) hl⟩
  · rcases (Reservation.mem_zip_ids hlen).mp hmemz with h | ⟨rfl, hl⟩
    · exact hset _ h
    · exact (hrest _ htn).trans ((update_self ..).trans hl)
  · simp only [Reservation.ids, mem_append, mem_singleton, not_or] at hid
    exact (hrest id hid.1).trans (update_of_ne hid.2 _ _)
  · obtain ⟨n, hn, hl'⟩ := (hmem l).mp hm
    exact hno n hn hl'

include hnpp in
/-- `commit` preserves the invariant. -/
theorem inv_commit (hi : s.Inv m) (h : s.commit m tid = some s') : s'.Inv m := by
  obtain ⟨r, hp, rfl⟩ := Option.map_eq_some_iff.mp h
  have hok := hi.pending tid r hp
  obtain ⟨hlocs, hids⟩ := Reservation.exists_zip hok.length
  obtain ⟨hwf, hcur, hmoved, hothers, hfreed, hkept⟩ := commitMaps_spec hnpp hi hp
  have hmem : ∀ id, id ∈ r.ids ↔ id ∈ r.nbrs ∨ id = r.target := by simp [Reservation.ids]
  have hinv : ∀ id l, s.id2loc id = some l ↔ s.slots.loc2id l = .id id ∧ l < s.slots.curLoc :=
    hi.inverse
  obtain ⟨-, -, -, htaken, hnone, hcomm, hres⟩ := hok
  refine ⟨hwf, fun id l => ⟨fun hid => ?_, fun ⟨hid, hlt⟩ => ?_⟩, fun id hid => ?_,
    fun t r' ht => ?_, fun t t' r₁ r₂ hne h1 h2 => ?_⟩
  · by_cases hm : id ∈ r.ids
    · obtain ⟨l', hl'⟩ := hids id hm
      grind [hres l' (of_mem_zip hl').1]
    · grind
  · by_cases hl : l ∈ r.locs <;> grind
  · grind [hi.taken id]
  · have ht' : t ≠ tid ∧ s.pending t = some r' := by grind
    obtain ⟨h1, h2, h3, h4, h5, h6, h7⟩ := hi.pending t r' ht'.2
    obtain ⟨htgt, hdisj⟩ := hi.apart t tid r' r ht'.1 ht'.2 hp
    refine ⟨h1, h2, h3, h4, ?_, fun n hn => ?_, fun l hl => ?_⟩ <;> grind
  · grind [hi.apart t t' r₁ r₂]

include hnpp in
theorem inv_step {a : Action} (hi : s.Inv m) (h : step m s a = some s') : s'.Inv m := by
  cases a with
  | reserve tid target nbrs hints => exact inv_reserve hnpp hi h
  | commit tid => exact inv_commit hnpp hi h

include hnpp in
/-- **Every state of every run satisfies the invariant.** -/
theorem inv_of_reach {ok : IndexMap → Action → Prop} {npoints : Nat}
    (h : Reach (step m) ok (identity m npoints) s) : s.Inv m :=
  h.invariant (inv_identity hnpp npoints) fun _ _ _ hi _ hs => inv_step hnpp hi hs

include hnpp in
/-- A step grows the file by whole pages. -/
theorem curLoc_step {a : Action} (hi : s.Inv m) (h : step m s a = some s') :
    ∃ k, s'.slots.curLoc = s.slots.curLoc + k * m.nnodesPerSector := by
  cases a with
  | commit tid =>
    obtain ⟨r, hp, rfl⟩ := Option.map_eq_some_iff.mp h
    exact ⟨0, by simpa using (commitMaps_spec hnpp hi hp).curLoc⟩
  | reserve tid target nbrs hints =>
    have haligned := (inv_reserve hnpp hi h).wf.aligned
    obtain ⟨slots, locs, need, halloc, -, -, -, -, rfl⟩ := reserve_cases h
    have hr := reserved_of_allocLoc hnpp (Nat.succ_pos nbrs.length) hi.wf halloc
    obtain ⟨k, hk⟩ := Nat.dvd_sub haligned hi.wf.aligned
    have hgrows := hr.grows
    refine ⟨k, ?_⟩
    rw [Nat.mul_comm, ← hk]
    dsimp only
    omega

include hnpp in
/-- Maps with the invariant are safe. -/
theorem Inv.safe (hi : s.Inv m) : s.Safe m := by
  refine ⟨hi.inverse, fun n hints slots locs need hn halloc => ?_,
    ⟨hi.wf.queueNodup, fun page hp l hl => ?_, fun n hints hn => ?_⟩,
    hi.wf.aligned, fun a s' => curLoc_step hnpp hi⟩
  · have hr := reserved_of_allocLoc hnpp hn hi.wf halloc
    refine ⟨hr.length, hr.nodup, fun l hl => ⟨fun t r hp hlr => ?_, fun id hid => ?_⟩⟩
    · obtain ⟨ha, hlt⟩ := (hi.pending t r hp).reserved l hlr
      exact (hr.keeps (by rw [ha]; exact SlotId.noConfusion) hlt).1 hl
    · obtain ⟨ha, hlt⟩ := (hi.inverse id l).mp hid
      exact (hr.keeps (by rw [ha]; exact SlotId.noConfusion) hlt).1 hl
  · exact hi.wf.queueFree page hp l ((DiskLayout.mem_pageSlots hnpp).mp hl)
  · obtain ⟨slots, locs, need, halloc, -⟩ := allocLoc_spec hnpp hn hints hi.wf
    exact ⟨_, halloc⟩

end IndexMap
end PipeANN
