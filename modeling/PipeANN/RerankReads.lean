import PipeANN.DiskLayout
import PipeANN.GuardedRuns

/-! # Reads of the pre-filter strategy

The pre-filter strategy re-ranks its candidates on their records.  It looks up where a record is
and reads that page; when the page has come, it looks up the location again to find the record in
it.  No index lock is held in between, so inserts may move the record, and reuse its slot.

`rerank_own_iff` says that this goes well in every interleaving just if the candidate is not moved
in between.

A move writes the record to a slot that no record is in and then commits; here this is one step.
-/
namespace PipeANN
open Function Option

/-- Where records are.  `disk` also has what is left of records that were moved. -/
structure RecordMap where
  layout : DiskLayout
  id2loc : Nat → Option Nat
  disk : Nat → Option Nat
  curLoc : Nat
  stored : ∀ id loc, id2loc id = some loc → disk loc = some id
  bounded : ∀ id loc, id2loc id = some loc → loc < curLoc

namespace RecordMap
variable (s : RecordMap)

/-- No record is in the slot. -/
def Free (loc : Nat) : Prop := ∀ id ∈ s.disk loc, s.id2loc id ≠ some loc

instance (loc : Nat) : Decidable (s.Free loc) :=
  inferInstanceAs (Decidable (∀ id ∈ s.disk loc, s.id2loc id ≠ some loc))

theorem stored_move {id loc : Nat} (hfree : s.Free loc) (i l : Nat)
    (h : update s.id2loc id (some loc) i = some l) : update s.disk loc (some id) l = some i := by
  by_cases hi : i = id
  · subst hi
    rw [update_self] at h
    cases h
    exact update_self ..
  · rw [update_of_ne hi] at h
    have hstored := s.stored i l h
    have hl : l ≠ loc := fun heq => hfree i (heq ▸ hstored) (heq ▸ h)
    rw [update_of_ne hl, hstored]

theorem bounded_move {id loc : Nat} (i l : Nat)
    (h : update s.id2loc id (some loc) i = some l) : l < max s.curLoc (loc + 1) := by
  by_cases hi : i = id
  · subst hi
    rw [update_self] at h
    cases h
    omega
  · rw [update_of_ne hi] at h
    have := s.bounded i l h
    omega

/-- An insert writes a record, new or moved, to a free slot. -/
def move (id loc : Nat) (hfree : s.Free loc) : RecordMap where
  layout := s.layout
  id2loc := update s.id2loc id (some loc)
  disk := update s.disk loc (some id)
  curLoc := max s.curLoc (loc + 1)
  stored := s.stored_move hfree
  bounded := s.bounded_move

/-- One insert step. -/
def step (s : RecordMap) (m : Nat × Nat) : Option RecordMap :=
  if hfree : s.Free m.2 then some (s.move m.1 m.2 hfree) else none

/-- The slot that is parsed for a location, on the page that was read for another one. -/
def parsedSlot (loc loc' : Nat) : Nat :=
  if s.layout.nnodesPerSector = 0 then loc
  else loc / s.layout.nnodesPerSector * s.layout.nnodesPerSector + loc' % s.layout.nnodesPerSector

/-- A candidate is re-ranked, with moves before its page is read and before it is parsed.  The
result is whose record is parsed. -/
def rerank (id : Nat) (before after : List (Nat × Nat)) : Option (Option Nat) := do
  let loc ← s.id2loc id
  let sRead ← runSteps step s before
  let sParse ← runSteps step sRead after
  let loc' ← sParse.id2loc id
  return sRead.disk (s.parsedSlot loc loc')

variable {s} {s' : RecordMap} {id loc l : Nat} {moves : List (Nat × Nat)}

/-- A record that is not moved stays where it is. -/
theorem id2loc_of_moves (h : runSteps step s moves = some s') (hid : id ∉ moves.map Prod.fst) :
    s'.id2loc id = s.id2loc id := by
  induction moves generalizing s with
  | nil => cases h; rfl
  | cons m moves ih =>
    obtain ⟨hne, hid⟩ := not_or.mp (mt List.mem_cons.mpr hid)
    obtain ⟨s₁, h₁, h⟩ := bind_eq_some_iff.mp h
    rw [step] at h₁
    split at h₁
    · cases h₁
      rw [ih h hid]
      exact update_of_ne hne ..
    · cases h₁

theorem parsedSlot_self : s.parsedSlot loc loc = loc := by
  rw [parsedSlot]
  split
  · rfl
  · exact Nat.div_add_mod' ..

/-- A new slot has another page and may have the same place in it. -/
theorem parsedSlot_add (n : Nat) :
    s.parsedSlot loc (l + max s.layout.nnodesPerSector 1 * n) = s.parsedSlot loc l := by
  rw [parsedSlot, parsedSlot]
  split
  · rfl
  · next h => rw [Nat.max_eq_left (Nat.pos_of_ne_zero h), Nat.add_mul_mod_self_left]

/-- The slot of a record is free after the record has been moved behind the tail. -/
theorem free_move {l' : Nat} (hid : s.id2loc id = some l) (hloc : s.Free loc ∨ l = loc)
    (hne : loc ≠ l') (hfree : s.Free l') : (s.move id l' hfree).Free loc := by
  intro i hi hat
  change update s.disk l' (some id) loc = some i at hi
  change update s.id2loc id (some l') i = some loc at hat
  rw [update_of_ne hne] at hi
  by_cases heq : i = id
  · subst heq
    rw [update_self] at hat
    exact hne (some.inj hat).symm
  · rw [update_of_ne heq] at hat
    rcases hloc with hloc | rfl
    · exact hloc i hi hat
    · exact heq (some.inj (hi.symm.trans (s.stored id l hid)))

/-- Any number of moves after which the record is parsed at the same place. -/
theorem exists_moves (n : Nat) (hid : s.id2loc id = some l) (hslot : s.parsedSlot loc l = loc)
    (hloc : s.Free loc ∨ l = loc) (hlt : loc < s.curLoc) :
    ∃ moves s' l', runSteps step s moves = some s' ∧ moves.map Prod.fst = List.replicate n id ∧
      s'.id2loc id = some l' ∧ s.parsedSlot loc l' = loc ∧ (0 < n ∨ s.Free loc → s'.Free loc) := by
  induction n generalizing s l with
  | zero => exact ⟨[], s, l, rfl, rfl, hid, hslot, fun h => h.resolve_left (lt_irrefl 0)⟩
  | succ n ih =>
    have hle : s.curLoc ≤ l + max s.layout.nnodesPerSector 1 * s.curLoc :=
      (Nat.le_mul_of_pos_left _ (by omega)).trans (Nat.le_add_left ..)
    have hfree : s.Free (l + max s.layout.nnodesPerSector 1 * s.curLoc) := fun i _ hat =>
      absurd (s.bounded i _ hat) (not_lt.mpr hle)
    have hloc' := free_move hid hloc (ne_of_lt (hlt.trans_le hle)) hfree
    obtain ⟨moves, s', l', hrun, hids, hid', hslot', hfree'⟩ := ih
      (s := s.move id _ hfree) (update_self ..) ((parsedSlot_add _).trans hslot)
      (.inl hloc') (lt_of_lt_of_le hlt (le_max_left ..))
    refine ⟨(id, l + max s.layout.nnodesPerSector 1 * s.curLoc) :: moves, s', l', ?_,
      congrArg (id :: ·) hids, hid', hslot', fun _ => hfree' (.inr hloc')⟩
    rw [runSteps, step, dif_pos hfree]
    exact hrun

/-- **Own records.** -/
theorem rerank_own_iff (hid : s.id2loc id = some loc) (k : Nat) :
    (∀ before after found, ((before ++ after).map Prod.fst).count id = k →
      s.rerank id before after = some found → found = some id) ↔ k = 0 := by
  constructor
  · -- the record is moved, and another one written to its slot before the page is read
    intro h
    by_contra hk
    obtain ⟨moves, s', l', hrun, hids, hid', hslot, hfree⟩ := exists_moves k hid parsedSlot_self
      (.inr rfl) (s.bounded id loc hid)
    have hfree := hfree (.inl (Nat.pos_of_ne_zero hk))
    have hread :
        runSteps step s (moves ++ [(id + 1, loc)]) = some (s'.move (id + 1) loc hfree) := by
      rw [runSteps_append, hrun, bind_some, runSteps, step, dif_pos hfree]
      rfl
    have hat : (s'.move (id + 1) loc hfree).id2loc id = some l' :=
      (update_of_ne (ne_of_lt (Nat.lt_succ_self id)) ..).trans hid'
    have hfound := h (moves ++ [(id + 1, loc)]) [] (some (id + 1)) (by simp [hids]) (by
      rw [rerank, hid, hread]
      change (s'.move (id + 1) loc hfree).id2loc id >>= _ = _
      rw [hat]
      change some ((s'.move (id + 1) loc hfree).disk (s.parsedSlot loc l')) = _
      rw [hslot]
      exact congrArg some (update_self ..))
    exact Nat.succ_ne_self id (some.inj hfound)
  · rintro rfl before after found hcount hrerank
    have hnot : id ∉ before.map Prod.fst ++ after.map Prod.fst := by
      rw [← List.map_append]
      exact List.count_eq_zero.mp hcount
    obtain ⟨loc₀, hloc, hrerank⟩ := bind_eq_some_iff.mp hrerank
    cases hloc.symm.trans hid
    obtain ⟨sRead, hread, hrerank⟩ := bind_eq_some_iff.mp hrerank
    obtain ⟨sParse, hparse, hrerank⟩ := bind_eq_some_iff.mp hrerank
    obtain ⟨loc', hloc', hrerank⟩ := bind_eq_some_iff.mp hrerank
    have hatRead := (id2loc_of_moves hread fun h => hnot (List.mem_append_left _ h)).trans hid
    have hatParse :=
      (id2loc_of_moves hparse fun h => hnot (List.mem_append_right _ h)).trans hatRead
    cases hloc'.symm.trans hatParse
    rw [parsedSlot_self] at hrerank
    exact (some.inj hrerank).symm.trans (sRead.stored id loc hatRead)

/-- Two records on one page. -/
def twoRecords : RecordMap where
  layout := ⟨0, 2⟩
  id2loc i := if i < 2 then some i else none
  disk i := if i < 2 then some i else none
  curLoc := 2
  stored i l h := by
    split at h
    · cases h; exact if_pos ‹_›
    · cases h
  bounded i l h := by
    split at h
    · cases h; assumption
    · cases h

/-- The record of `0` is found when only others are moved. -/
theorem rerank_own_twoRecords :
    ∃ found, twoRecords.rerank 0 [(1, 2)] [(5, 1)] = some found ∧ found = some 0 :=
  ⟨_, rfl, (rerank_own_iff (s := twoRecords) rfl 0).mpr rfl [(1, 2)] [(5, 1)] _ rfl rfl⟩

/-- The record of `0` is moved to the second place of another page, and the record of `1` is
parsed. -/
theorem other_record_parsed : twoRecords.rerank 0 [] [(0, 3)] = some (some 1) := by
  decide

end RecordMap
end PipeANN
