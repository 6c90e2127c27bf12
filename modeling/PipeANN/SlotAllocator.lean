import PipeANN.DiskLayout
import PipeANN.LastWrites

/-! # Slot allocation: `alloc_loc`, `erase_loc2id`, `erase_and_set_loc`

An insert writes its record, and a new version of the record of every neighbour
it links to, into slots that nobody uses.  The map `loc2id` says what a slot
holds: a record (its id), nothing (`kInvalidID`), or a reservation
(`kAllocatedID`) made by an insert that has not committed yet.  `emptyPages` is
the queue of pages that became completely free, and `curLoc` the tail of the
file.  The three functions below run under `alloc_lock`, so each is atomic; they
are embedded from `ssd_index.cpp` loop by loop.

`allocLoc_spec` is the one lemma the rest of the development uses: on a
well-formed map the reservation succeeds, the slots handed out were free, nothing
else changes below the tail, and a page that the caller is *not* told to read was
completely free when it was reserved.
-/
namespace PipeANN
open List Function Nat

/-- The content of `loc2id_[loc]`. -/
inductive SlotId where
  /-- `kInvalidID`: the slot is free. -/
  | invalid
  /-- `kAllocatedID`: the slot is reserved by an insert in progress. -/
  | allocated
  /-- The slot holds the record of an id. -/
  | id (n : Nat)
  deriving DecidableEq, Repr

/-- The state guarded by `alloc_lock`.  `loc2id` is total: `resize` fills with `0`, the id `0`.
`AllocatorBounds` has the vector's size. -/
structure SlotMap where
  loc2id : Nat → SlotId
  emptyPages : List Nat
  curLoc : Nat

/-- `crash()` in `alloc_loc`: "Page ... is not empty". -/
inductive AllocCrash where
  | pageNotEmpty (page loc : Nat) (found : SlotId)
  deriving DecidableEq, Repr

/-- The loop state of `alloc_loc`: the map and the slots handed out so far, whose
number is the counter `cur`. -/
structure Picking where
  loc2id : Nat → SlotId
  ret : List Nat

namespace Picking

/-- `loc2id_[i] = kAllocatedID; ret.push_back(i); ++cur;` -/
def pick (p : Picking) (i : Nat) : Picking :=
  ⟨update p.loc2id i .allocated, p.ret ++ [i]⟩

/-- `cur == n`: the request is satisfied and `alloc_loc` returns. -/
def full (p : Picking) (n : Nat) : Bool := p.ret.length == n

end Picking

open Picking

/-- The inner loop of step 1, over the slots of a page popped from the queue. -/
def fillEmptyPage (n page : Nat) : List Nat → Picking → Except AllocCrash Picking
  | [], p => .ok p
  | i :: is, p =>
    if p.loc2id i ≠ .invalid then .error (.pageNotEmpty page i (p.loc2id i))
    else
      let p' := p.pick i
      if p'.full n then .ok p' else fillEmptyPage n page is p'

/-- Step 1 of `alloc_loc`: pop empty pages until the request is satisfied or the
queue is exhausted.  Returns what is left of the queue. -/
def useEmptyPages (m : DiskLayout) (n : Nat) :
    List Nat → Picking → Except AllocCrash (Picking × List Nat)
  | [], p => .ok (p, [])
  | page :: q, p => do
      let p' ← fillEmptyPage n page (m.pageSlots page) p
      if p'.full n then .ok (p', q) else useEmptyPages m n q p'

/-- The second inner loop of step 2: take the holes of a hint page. -/
def fillHintPage (n : Nat) : List Nat → Picking → Picking
  | [], p => p
  | i :: is, p =>
    if p.loc2id i = .invalid then
      let p' := p.pick i
      if p'.full n then p' else fillHintPage n is p'
    else fillHintPage n is p

/-- `cnt`: the number of holes of a page. -/
def countHoles (m : DiskLayout) (loc2id : Nat → SlotId) (page : Nat) : Nat :=
  (m.pageSlots page).countP (fun i => loc2id i = .invalid)

/-- `(nnodes_per_sector + INDEX_SIZE_FACTOR - 1) / INDEX_SIZE_FACTOR`, with the
factor `2`. -/
def reuseThreshold (m : DiskLayout) : Nat := (m.nnodesPerSector + 2 - 1) / 2

/-- Step 2 of `alloc_loc`: take the holes of hint pages that have enough of them.
A page that keeps a slot in use is added to `page_need_to_read`. -/
def useHintPages (m : DiskLayout) (n : Nat) :
    List Nat → Picking → List Nat → Picking × List Nat
  | [], p, need => (p, need)
  | page :: hs, p, need =>
    let cnt := countHoles m p.loc2id page
    if cnt < reuseThreshold m then useHintPages m n hs p need
    else
      let need' := if cnt < m.nnodesPerSector then need.insert page else need
      let p' := fillHintPage n (m.pageSlots page) p
      if p'.full n then (p', need') else useHintPages m n hs p' need'

/-- The loop that keeps `cur_loc` aligned: the rest of the last page becomes
free slots.  It stops after fewer than `nnodesPerSector` rounds. -/
def alignTail (npp : Nat) : Nat → (Nat → SlotId) × Nat → (Nat → SlotId) × Nat
  | 0, t => t
  | fuel + 1, (f, cur) =>
    if npp ≠ 0 ∧ cur % npp ≠ 0 then
      alignTail npp fuel (update f cur .invalid, cur + 1)
    else (f, cur)

/-- Step 3 of `alloc_loc`: `remaining` slots at the tail of the file. -/
def useNewPages (m : DiskLayout) (remaining : Nat) (p : Picking) (cur : Nat) :
    Picking × Nat :=
  let fresh := List.range' cur remaining
  let f := fresh.foldl (fun f i => update f i .allocated) p.loc2id
  let (g, cur') := alignTail m.nnodesPerSector m.nnodesPerSector (f, cur + remaining)
  (⟨g, p.ret ++ fresh⟩, cur')

/-- `alloc_loc(n, hint_pages, page_need_to_read)`: the new state, the slots handed
out, and the pages the caller has to read before it rewrites them. -/
def allocLoc (m : DiskLayout) (n : Nat) (hints : List Nat) (s : SlotMap) :
    Except AllocCrash (SlotMap × List Nat × List Nat) := do
  let (p, q) ← useEmptyPages m n s.emptyPages ⟨s.loc2id, []⟩
  if p.full n then .ok (⟨p.loc2id, q, s.curLoc⟩, p.ret, [])
  else
    let (p, need) := useHintPages m n hints p []
    if p.full n then .ok (⟨p.loc2id, q, s.curLoc⟩, p.ret, need)
    else
      let (p, cur) := useNewPages m (n - p.ret.length) p s.curLoc
      .ok (⟨p.loc2id, q, cur⟩, p.ret, need)

/-- `erase_loc2id(loc)`: free the slot and, if its page is now completely free,
queue the page. -/
def eraseLoc2id (m : DiskLayout) (s : SlotMap) (loc : Nat) : SlotMap :=
  let f := update s.loc2id loc .invalid
  let page := m.locSectorNo loc
  if (m.pageSlots page).all (fun i => f i = .invalid) then
    { s with loc2id := f, emptyPages := s.emptyPages ++ [page] }
  else { s with loc2id := f }

/-- `set_loc2id(loc, id)`. -/
def setLoc2id (s : SlotMap) (loc id : Nat) : SlotMap :=
  { s with loc2id := update s.loc2id loc (.id id) }

/-- `erase_and_set_loc(old_locs, new_locs, new_ids)`. -/
def eraseAndSetLoc (m : DiskLayout) (oldLocs newLocs newIds : List Nat) (s : SlotMap) : SlotMap :=
  oldLocs.foldl (eraseLoc2id m)
    ((newLocs.zip newIds).foldl (fun s p => setLoc2id s p.1 p.2) s)

/-! ## What a loop of `alloc_loc` does to the map -/

/-- `Picks f g locs`: the map `g` is `f` with the free slots `locs` reserved. -/
structure Picks (f g : Nat → SlotId) (locs : List Nat) : Prop where
  free : ∀ l ∈ locs, f l = .invalid
  nodup : locs.Nodup
  result : ∀ l, g l = if l ∈ locs then .allocated else f l

namespace Picks
variable {f g h : Nat → SlotId} {l₁ l₂ : List Nat}

theorem nil (f : Nat → SlotId) : Picks f f [] := ⟨by simp, nodup_nil, by simp⟩

theorem single {i : Nat} (hi : f i = .invalid) : Picks f (update f i .allocated) [i] := by
  refine ⟨by simpa using hi, nodup_singleton i, fun l => ?_⟩
  by_cases hl : l = i <;> simp [hl]

variable {l : Nat}

theorem of_not_mem (h : Picks f g l₁) (hl : l ∉ l₁) : g l = f l := by
  rw [h.result, if_neg hl]

theorem of_mem (h : Picks f g l₁) (hl : l ∈ l₁) : g l = .allocated := by
  rw [h.result, if_pos hl]

/-- A slot that is free afterwards was free before and has not been taken. -/
theorem free_before (h : Picks f g l₁) (hl : g l = .invalid) : l ∉ l₁ ∧ f l = .invalid := by
  have hn : l ∉ l₁ := fun hm => by rw [h.of_mem hm] at hl; cases hl
  exact ⟨hn, by rwa [h.of_not_mem hn] at hl⟩

theorem trans (h1 : Picks f g l₁) (h2 : Picks g h l₂) : Picks f h (l₁ ++ l₂) := by
  have hfree : ∀ l ∈ l₂, l ∉ l₁ ∧ f l = .invalid := fun l hl => h1.free_before (h2.free l hl)
  obtain ⟨hfree₁, hnd₁, hg⟩ := h1
  obtain ⟨-, hnd₂, hh⟩ := h2
  refine ⟨?_, nodup_append.mpr ⟨hnd₁, hnd₂, ?_⟩, ?_⟩ <;> grind

end Picks

/-- A loop of `alloc_loc` extended the request by `locs`. -/
structure Picked (p p' : Picking) (locs : List Nat) : Prop where
  ret : p'.ret = p.ret ++ locs
  picks : Picks p.loc2id p'.loc2id locs

namespace Picked
variable {p p' p'' : Picking} {l₁ l₂ : List Nat} {n : Nat}

theorem refl (p : Picking) : Picked p p [] := ⟨by simp, .nil _⟩

theorem pick {i : Nat} (hi : p.loc2id i = .invalid) : Picked p (p.pick i) [i] :=
  ⟨rfl, .single hi⟩

theorem trans (h1 : Picked p p' l₁) (h2 : Picked p' p'' l₂) : Picked p p'' (l₁ ++ l₂) :=
  ⟨by rw [h2.ret, h1.ret, append_assoc], h1.picks.trans h2.picks⟩

end Picked

variable {n : Nat} {p : Picking} {locs need : List Nat}

@[simp] theorem full_iff : p.full n = true ↔ p.ret.length = n := by
  simp [full]

theorem Picking.lt_of_not_full {i : Nat} (hlt : p.ret.length < n)
    (hfull : ¬ (p.pick i).full n) : (p.pick i).ret.length < n := by
  simp only [full_iff, pick, length_append, length_singleton] at hfull ⊢
  omega

/-- Step 1 on one page: if all slots of the page are free the loop takes them from
the front, until the request is satisfied or the page is used up. -/
theorem fillEmptyPage_spec (page : Nat) {slots : List Nat} (hnd : slots.Nodup)
    (hfree : ∀ i ∈ slots, p.loc2id i = .invalid) (hlt : p.ret.length < n) :
    ∃ p' locs, fillEmptyPage n page slots p = .ok p' ∧ Picked p p' locs ∧
      (∀ l ∈ locs, l ∈ slots) ∧
      (p'.ret.length = n ∨ p'.ret.length < n ∧ ∀ l ∈ slots, l ∈ locs) := by
  fun_induction fillEmptyPage n page slots p with
  | case1 p => exact ⟨p, [], rfl, .refl p, by simp, .inr ⟨hlt, by simp⟩⟩
  | case2 i is p hi => exact absurd (hfree i mem_cons_self) hi
  | case3 i is p hi p₁ hfull =>
    exact ⟨p₁, [i], rfl, .pick (not_not.mp hi), by simp, .inl (full_iff.mp hfull)⟩
  | case4 i is p hi p₁ hfull ih =>
    obtain ⟨hni, hnd⟩ := nodup_cons.mp hnd
    have hfree₁ : ∀ j ∈ is, p₁.loc2id j = .invalid := by
      intro j hj
      have hne : j ≠ i := fun he => hni (he ▸ hj)
      exact (update_of_ne hne _ _).trans (hfree j (mem_cons_of_mem _ hj))
    obtain ⟨p', locs, hok, hpk, hsub, hend⟩ := ih hnd hfree₁ (lt_of_not_full hlt hfull)
    refine ⟨p', i :: locs, hok, (Picked.pick (not_not.mp hi)).trans hpk, fun l hl => ?_, ?_⟩
    · exact cons_subset_cons i hsub hl
    · exact hend.imp_right fun h => ⟨h.1, fun l hl => cons_subset_cons i h.2 hl⟩

/-- Step 2 on one page: only holes of the page are taken. -/
theorem fillHintPage_spec (slots : List Nat) (hlt : p.ret.length < n) :
    ∃ locs, Picked p (fillHintPage n slots p) locs ∧ (∀ l ∈ locs, l ∈ slots) ∧
      (fillHintPage n slots p).ret.length ≤ n := by
  fun_induction fillHintPage n slots p with
  | case1 p => exact ⟨[], .refl p, by simp, le_of_lt hlt⟩
  | case2 i is p hi p₁ hfull =>
    exact ⟨[i], .pick hi, by simp, le_of_eq (full_iff.mp hfull)⟩
  | case3 i is p hi p₁ hfull ih =>
    obtain ⟨locs, hpk, hsub, hle⟩ := ih (lt_of_not_full hlt hfull)
    exact ⟨i :: locs, (Picked.pick hi).trans hpk, fun l hl => cons_subset_cons i hsub hl, hle⟩
  | case4 i is p hi ih =>
    obtain ⟨locs, hpk, hsub, hle⟩ := ih hlt
    exact ⟨locs, hpk, fun l hl => mem_cons_of_mem _ (hsub l hl), hle⟩

section Packed
variable {m : DiskLayout} (hnpp : 0 < m.nnodesPerSector)
include hnpp

/-- Step 1 of `alloc_loc`: on a queue of distinct, completely free pages the step
never meets an occupied slot, and it takes slots of popped pages only. -/
theorem useEmptyPages_spec {n : Nat} : ∀ {q : List Nat} {p : Picking}, q.Nodup →
    (∀ page ∈ q, ∀ l, m.locSectorNo l = page → p.loc2id l = .invalid) → p.ret.length < n →
    ∃ p' rest used locs, useEmptyPages m n q p = .ok (p', rest) ∧ q = used ++ rest ∧
      Picked p p' locs ∧ (∀ l ∈ locs, m.locSectorNo l ∈ used) ∧
      (p'.ret.length = n ∨ p'.ret.length < n ∧ rest = [])
  | [], p, _, _, hlt => ⟨p, [], [], [], rfl, rfl, .refl p, by simp, .inr ⟨hlt, rfl⟩⟩
  | page :: q, p, hnd, hfree, hlt => by
    obtain ⟨hnp, hnd'⟩ := nodup_cons.mp hnd
    obtain ⟨p₁, l₁, hok, hpk, hsub, hend⟩ := fillEmptyPage_spec page (m.nodup_pageSlots page)
      (fun i hi => hfree page mem_cons_self i ((DiskLayout.mem_pageSlots hnpp).mp hi)) hlt
    have hpage : ∀ l ∈ l₁, m.locSectorNo l = page := fun l hl =>
      (DiskLayout.mem_pageSlots hnpp).mp (hsub l hl)
    have hunf : useEmptyPages m n (page :: q) p
        = if p₁.full n then .ok (p₁, q) else useEmptyPages m n q p₁ := by
      simp only [useEmptyPages, hok]; rfl
    rw [hunf]
    by_cases hfull : p₁.full n
    · rw [if_pos hfull]
      exact ⟨p₁, q, [page], l₁, rfl, rfl, hpk,
        fun l hl => mem_singleton.mpr (hpage l hl), .inl (full_iff.mp hfull)⟩
    · rw [if_neg hfull]
      have hlt₁ := (hend.resolve_left (mt full_iff.mpr hfull)).1
      -- the pages that are still queued are not the one just used
      have hfree₁ : ∀ pg ∈ q, ∀ l, m.locSectorNo l = pg → p₁.loc2id l = .invalid := by
        intro pg hpg l hl
        have hnl : l ∉ l₁ := fun hm => hnp ((hpage l hm).symm.trans hl ▸ hpg)
        rw [hpk.picks.of_not_mem hnl]
        exact hfree pg (mem_cons_of_mem _ hpg) l hl
      obtain ⟨p', rest, used, locs, hok', hq, hpk', hused, hend'⟩ :=
        useEmptyPages_spec hnd' hfree₁ hlt₁
      refine ⟨p', rest, page :: used, l₁ ++ locs, hok', by rw [hq]; rfl, hpk.trans hpk', ?_, hend'⟩
      intro l hl
      rcases mem_append.mp hl with hl | hl
      · exact mem_cons.mpr (.inl (hpage l hl))
      · exact mem_cons_of_mem _ (hused l hl)

/-- A page all of whose slots are counted as holes is completely free. -/
theorem free_of_countHoles {f : Nat → SlotId} {page l : Nat} (hl : m.locSectorNo l = page)
    (hcnt : ¬ countHoles m f page < m.nnodesPerSector) {l' : Nat} (hl' : m.locSectorNo l' = page) :
    f l' = .invalid := by
  have hp : page ≠ 0 := hl ▸ (m.locSectorNo_pos l).ne'
  have hlen : (m.pageSlots page).length = m.nnodesPerSector := by
    rw [DiskLayout.pageSlots_eq hnpp hp, length_range']
  have hle : countHoles m f page ≤ (m.pageSlots page).length := countP_le_length
  have hall : countHoles m f page = (m.pageSlots page).length :=
    le_antisymm hle (hlen.trans_le (not_lt.mp hcnt))
  have := countP_eq_length.mp hall l' ((DiskLayout.mem_pageSlots hnpp).mpr hl')
  simpa using this

/-- Step 2 of `alloc_loc`: every slot it takes is on a page the caller is told to
read, or on a page that was completely free. -/
theorem useHintPages_spec {n : Nat} (hs : List Nat) {p : Picking} (need : List Nat)
    (hlt : p.ret.length < n) :
    ∃ locs, Picked p (useHintPages m n hs p need).1 locs ∧
      (useHintPages m n hs p need).1.ret.length ≤ n ∧
      (∀ pg ∈ need, pg ∈ (useHintPages m n hs p need).2) ∧
      ∀ l ∈ locs, m.locSectorNo l ∉ (useHintPages m n hs p need).2 →
        ∀ l', m.locSectorNo l' = m.locSectorNo l → p.loc2id l' = .invalid := by
  -- one page, with the pages to read afterwards
  have hpage : ∀ page {p : Picking} (need : List Nat), p.ret.length < n →
      ∃ locs, Picked p (fillHintPage n (m.pageSlots page) p) locs ∧
        (fillHintPage n (m.pageSlots page) p).ret.length ≤ n ∧ ∀ need',
        need' = (if countHoles m p.loc2id page < m.nnodesPerSector then need.insert page
          else need) →
        (∀ pg ∈ need, pg ∈ need') ∧ ∀ l ∈ locs, m.locSectorNo l ∉ need' →
          ∀ l', m.locSectorNo l' = m.locSectorNo l → p.loc2id l' = .invalid := by
    intro page p need hlt
    obtain ⟨locs, hpk, hsub, hle⟩ := fillHintPage_spec (m.pageSlots page) hlt
    refine ⟨locs, hpk, hle, fun need' hneed => ⟨fun pg hpg => ?_, fun l hl hnot l' hl' => ?_⟩⟩
    · rw [hneed]
      split
      · exact mem_insert_of_mem hpg
      · exact hpg
    · have hl := (DiskLayout.mem_pageSlots hnpp).mp (hsub l hl)
      rw [hl] at hnot hl'
      refine free_of_countHoles hnpp hl (fun hc => hnot ?_) hl'
      rw [hneed, if_pos hc]
      exact mem_insert_self
  fun_induction useHintPages m n hs p need with
  | case1 p need => exact ⟨[], .refl p, le_of_lt hlt, fun _ h => h, by simp⟩
  | case2 page hs p need cnt hth ih => exact ih hlt
  | case3 page hs p need cnt hth need' p' hfull =>
    obtain ⟨locs, hpk, hle, hneed⟩ := hpage page need hlt
    exact ⟨locs, hpk, hle, hneed need' rfl⟩
  | case4 page hs p need cnt hth need' p' hfull ih =>
    obtain ⟨l₁, hpk, hle, hneed⟩ := hpage page need hlt
    obtain ⟨hmono, hblind⟩ := hneed need' rfl
    obtain ⟨locs, hpk', hle', hmono', hblind'⟩ :=
      ih (lt_of_le_of_ne hle (mt full_iff.mpr hfull))
    refine ⟨l₁ ++ locs, hpk.trans hpk', hle', fun pg h => hmono' pg (hmono pg h), ?_⟩
    intro l hl hnot l' hl'
    rcases mem_append.mp hl with hl | hl
    · exact hblind l hl (fun h => hnot (hmono' _ h)) l' hl'
    · exact (hpk.picks.free_before (hblind' l hl hnot l' hl')).2

/-! ## Step 3: the tail of the file -/

omit hnpp in
/-- The alignment loop frees the slots it passes and stops at a page boundary. -/
theorem alignTail_spec {npp : Nat} (hpos : 0 < npp) : ∀ (fuel : Nat) (f : Nat → SlotId) {cur : Nat},
    npp ∣ cur ∨ npp ≤ fuel + cur % npp →
    ∃ g cur', alignTail npp fuel (f, cur) = (g, cur') ∧ cur ≤ cur' ∧ npp ∣ cur' ∧
      ∀ l, g l = if cur ≤ l ∧ l < cur' then .invalid else f l
  | 0, f, cur, h => by
    have hmod := mod_lt cur hpos
    have hdvd : npp ∣ cur := h.resolve_right (by omega)
    refine ⟨f, cur, rfl, le_rfl, hdvd, fun l => ?_⟩
    rw [if_neg (by omega)]
  | fuel + 1, f, cur, h => by
    by_cases hdvd : npp ∣ cur
    · refine ⟨f, cur, ?_, le_rfl, hdvd, fun l => by rw [if_neg (by omega)]⟩
      rw [alignTail, if_neg (fun hc => hc.2 (mod_eq_zero_of_dvd hdvd))]
    · have hne : cur % npp ≠ 0 := mt dvd_of_mod_eq_zero hdvd
      have hnext : npp ∣ cur + 1 ∨ npp ≤ fuel + (cur + 1) % npp := by
        rcases lt_or_ge (cur % npp + 1) npp with hlt | hge
        · rw [add_mod, mod_eq_of_lt (a := 1) (by omega), mod_eq_of_lt hlt]
          omega
        · left
          have hmod := mod_lt cur hpos
          exact (dvd_iff_mod_eq_zero ..).mpr (by
            rw [← mod_add_mod, show cur % npp + 1 = npp by omega, mod_self])
      obtain ⟨g, cur', heq, hle, hd, hg⟩ :=
        alignTail_spec hpos fuel (update f cur .invalid) hnext
      refine ⟨g, cur', ?_, by omega, hd, fun l => ?_⟩
      · rw [alignTail, if_pos ⟨by omega, hne⟩, heq]
      · rw [hg, update_apply]
        split_ifs <;> first | rfl | omega

/-- Step 3 of `alloc_loc`: `remaining` new slots, then free slots up to the next
page boundary. -/
theorem useNewPages_spec (remaining : Nat) (p : Picking) (cur : Nat) :
    ∃ p' cur', useNewPages m remaining p cur = (p', cur') ∧
      p'.ret = p.ret ++ range' cur remaining ∧ cur + remaining ≤ cur' ∧
      m.nnodesPerSector ∣ cur' ∧
      ∀ l, p'.loc2id l = if cur ≤ l ∧ l < cur + remaining then .allocated
        else if cur + remaining ≤ l ∧ l < cur' then .invalid else p.loc2id l := by
  obtain ⟨g, cur', heq, hle, hd, hg⟩ := alignTail_spec hnpp m.nnodesPerSector
    ((range' cur remaining).foldl (fun f i => update f i .allocated) p.loc2id)
    (.inr (le_add_right _ ((cur + remaining) % m.nnodesPerSector)))
  refine ⟨⟨g, p.ret ++ range' cur remaining⟩, cur', ?_, rfl, hle, hd, fun l => ?_⟩
  · rw [useNewPages, heq]
  · change g l = _
    rw [hg, LastWrites.foldl_update_const]
    simp only [mem_range'_1]
    by_cases h1 : cur ≤ l ∧ l < cur + remaining
    · rw [if_neg (by omega), if_pos h1, if_pos h1]
    · rw [if_neg h1, if_neg h1]

end Packed

/-! ## The allocator's own invariant, and what a reservation guarantees -/

/-- What `alloc_loc` relies on: the tail is page aligned and holds no free slot,
and the queue holds distinct, completely free pages. -/
structure SlotMap.WellFormed (m : DiskLayout) (s : SlotMap) : Prop where
  aligned : m.nnodesPerSector ∣ s.curLoc
  tail : ∀ l, s.curLoc ≤ l → s.loc2id l ≠ .invalid
  queueNodup : s.emptyPages.Nodup
  queueFree : ∀ page ∈ s.emptyPages, ∀ l, m.locSectorNo l = page → s.loc2id l = .invalid

/-- The effect of `alloc_loc(n, ..)` on the map, in terms of the slots handed out. -/
structure Reserved (m : DiskLayout) (n : Nat) (s s' : SlotMap) (locs need : List Nat) : Prop where
  length : locs.length = n
  nodup : locs.Nodup
  /-- A slot handed out was free, or lay beyond the tail. -/
  fresh : ∀ l ∈ locs, s.loc2id l = .invalid ∨ s.curLoc ≤ l
  below : ∀ l ∈ locs, l < s'.curLoc
  marked : ∀ l ∈ locs, s'.loc2id l = .allocated
  kept : ∀ l, l < s.curLoc → l ∉ locs → s'.loc2id l = s.loc2id l
  holes : ∀ l, s.curLoc ≤ l → l < s'.curLoc → l ∉ locs → s'.loc2id l = .invalid
  tail : ∀ l, s'.curLoc ≤ l → s'.loc2id l = s.loc2id l
  grows : s.curLoc ≤ s'.curLoc
  wf : s'.WellFormed m
  /-- A page with a new slot that is not to be read was completely free. -/
  blind : ∀ l ∈ locs, m.locSectorNo l ∉ need → ∀ l', m.locSectorNo l' = m.locSectorNo l →
    s.loc2id l' = .invalid ∨ s.curLoc ≤ l'

/-- A slot in use, by a record or by a reservation, is not handed out, and keeps
its content. -/
theorem Reserved.keeps {m : DiskLayout} {s s' : SlotMap}
    (hr : Reserved m n s s' locs need) {l : Nat} (huse : s.loc2id l ≠ .invalid)
    (hlt : l < s.curLoc) : l ∉ locs ∧ s'.loc2id l = s.loc2id l ∧ l < s'.curLoc := by
  have hn : l ∉ locs := fun hm => (hr.fresh l hm).elim huse (not_le.mpr hlt)
  exact ⟨hn, hr.kept l hlt hn, lt_of_lt_of_le hlt hr.grows⟩

/-- A slot that holds a record after a reservation held it before. -/
theorem Reserved.id_before {m : DiskLayout} {s s' : SlotMap}
    (hr : Reserved m n s s' locs need) {l id : Nat} (hid : s'.loc2id l = .id id)
    (hlt : l < s'.curLoc) : s.loc2id l = .id id ∧ l < s.curLoc := by
  have hn : l ∉ locs := fun hm => by rw [hr.marked l hm] at hid; cases hid
  have hold : l < s.curLoc := by
    by_contra hge
    rw [hr.holes l (by omega) hlt hn] at hid
    cases hid
  exact ⟨hr.kept l hold hn ▸ hid, hold⟩

section Packed
variable {m : DiskLayout} (hnpp : 0 < m.nnodesPerSector)
include hnpp

variable {n : Nat} {s : SlotMap} {locs need : List Nat}

omit hnpp in
theorem Picks.lt_curLoc {g : Nat → SlotId} (hwf : s.WellFormed m) (hpk : Picks s.loc2id g locs) :
    ∀ l ∈ locs, l < s.curLoc := fun l hl =>
  Nat.lt_of_not_le fun hge => hwf.tail l hge (hpk.free l hl)

omit hnpp in
/-- A request that steps 1 and 2 satisfy: `locs` are old free slots and the queue
loses the pages in front. -/
theorem Reserved.of_picks {g : Nat → SlotId} {used q : List Nat}
    (hwf : s.WellFormed m) (hq : s.emptyPages = used ++ q) (hpk : Picks s.loc2id g locs)
    (hlen : locs.length = n) (hdisj : ∀ l ∈ locs, m.locSectorNo l ∉ q)
    (hblind : ∀ l ∈ locs, m.locSectorNo l ∉ need → ∀ l', m.locSectorNo l' = m.locSectorNo l →
      s.loc2id l' = .invalid) :
    Reserved m n s ⟨g, q, s.curLoc⟩ locs need := by
  have hbelow := hpk.lt_curLoc hwf
  have hkeep : ∀ l, s.curLoc ≤ l → g l = s.loc2id l := fun l hge =>
    hpk.of_not_mem fun hm => not_lt.mpr hge (hbelow l hm)
  refine ⟨hlen, hpk.nodup, fun l hl => .inl (hpk.free l hl), hbelow, fun l => hpk.of_mem,
    fun l _ => hpk.of_not_mem, fun l h1 h2 => absurd h2 (not_lt.mpr h1), hkeep, le_rfl, ?_,
    fun l hl hn l' hl' => .inl (hblind l hl hn l' hl')⟩
  refine ⟨hwf.aligned, fun l hge => ?_, ?_, fun pg hpg l hl => ?_⟩
  · exact fun h => hwf.tail l hge ((hkeep l hge).symm.trans h)
  · exact (nodup_append.mp (hq ▸ hwf.queueNodup)).2.1
  · have hnl : l ∉ locs := fun hm => hdisj l hm (hl.symm ▸ hpg)
    exact (hpk.of_not_mem hnl).trans (hwf.queueFree pg (hq ▸ mem_append_right _ hpg) l hl)

/-- A request that ends in step 3: `locs` are old free slots and the rest comes
from the tail.  The queue is exhausted by then. -/
theorem Reserved.of_newPages {p p' : Picking}
    {cur' : Nat} (hwf : s.WellFormed m) (hpk : Picks s.loc2id p.loc2id locs) (hret : p.ret = locs)
    (hle : locs.length ≤ n) (hnew : useNewPages m (n - p.ret.length) p s.curLoc = (p', cur'))
    (hblind : ∀ l ∈ locs, m.locSectorNo l ∉ need → ∀ l', m.locSectorNo l' = m.locSectorNo l →
      s.loc2id l' = .invalid) :
    Reserved m n s ⟨p'.loc2id, [], cur'⟩ p'.ret need := by
  obtain ⟨p₂, cur₂, heq, hret₂, hcur, hdvd, hmap⟩ :=
    useNewPages_spec hnpp (n - p.ret.length) p s.curLoc
  obtain ⟨rfl, rfl⟩ := Prod.mk.inj (heq.symm.trans hnew)
  rw [hret] at hret₂ hcur hmap
  have hbelow := hpk.lt_curLoc hwf
  have hmem : ∀ l, l ∈ p₂.ret ↔ l ∈ locs ∨ s.curLoc ≤ l ∧ l < s.curLoc + (n - locs.length) := by
    intro l; rw [hret₂, mem_append, mem_range'_1]
  have htail : ∀ l, cur₂ ≤ l → p₂.loc2id l = s.loc2id l := by
    intro l hl
    rw [hmap, if_neg (by omega), if_neg (by omega)]
    exact hpk.of_not_mem fun hm => by have := hbelow l hm; omega
  refine ⟨?_, ?_, ?_, ?_, ?_, ?_, ?_, htail, by dsimp only; omega, ?_, ?_⟩
  · rw [hret₂, length_append, length_range']; omega
  · rw [hret₂]
    refine nodup_append.mpr ⟨hpk.nodup, nodup_range', fun a ha b hb hab => ?_⟩
    have h1 := hbelow a ha
    have h2 := (mem_range'_1.mp hb).1
    omega
  · grind [hpk.free]
  · grind
  · grind [hpk.of_mem]
  · grind [hpk.of_not_mem]
  · grind
  · refine ⟨hdvd, fun l hge h => ?_, nodup_nil, by simp⟩
    change cur₂ ≤ l at hge
    exact hwf.tail l (by omega) ((htail l hge).symm.trans h)
  · intro l hl hnot l' hl'
    rcases (hmem l).mp hl with hl | hl
    · exact .inl (hblind l hl hnot l' hl')
    · -- the page of a slot beyond an aligned tail lies beyond it as a whole
      refine .inr (Nat.le_of_not_lt fun hlt => ?_)
      exact absurd (DiskLayout.lt_of_same_page hnpp hwf.aligned hl' hlt) (not_lt.mpr hl.1)

/-- **`alloc_loc` on a well-formed map.**  The request succeeds (the "page is not
empty" abort is not taken), and its effect is `Reserved`. -/
theorem allocLoc_spec (hn : 0 < n) (hints : List Nat) (hwf : s.WellFormed m) :
    ∃ s' locs need, allocLoc m n hints s = .ok (s', locs, need) ∧ Reserved m n s s' locs need := by
  obtain ⟨p₁, q, used, l₁, hok, hq, hpk₁, hused, hend₁⟩ := useEmptyPages_spec hnpp
    (p := ⟨s.loc2id, []⟩) hwf.queueNodup hwf.queueFree hn
  have hret₁ : p₁.ret = l₁ := by simpa using hpk₁.ret
  have hfree₁ : ∀ l ∈ l₁, ∀ l', m.locSectorNo l' = m.locSectorNo l → s.loc2id l' = .invalid :=
    fun l hl l' hl' => hwf.queueFree _ (hq ▸ mem_append_left _ (hused l hl)) l' hl'
  simp only [allocLoc, hok, bind, Except.bind]
  by_cases hfull₁ : p₁.full n
  · refine ⟨⟨p₁.loc2id, q, s.curLoc⟩, p₁.ret, [], by rw [if_pos hfull₁], ?_⟩
    have hqnd : (used ++ q).Nodup := hq ▸ hwf.queueNodup
    rw [hret₁]
    exact .of_picks hwf hq hpk₁.picks (hret₁ ▸ full_iff.mp hfull₁)
      (fun l hl h => (nodup_append.mp hqnd).2.2 _ (hused l hl) _ h rfl)
      (fun l hl _ => hfree₁ l hl)
  · -- step 1 ran out of pages
    obtain ⟨hlt₁, rfl⟩ := hend₁.resolve_left (mt full_iff.mpr hfull₁)
    obtain ⟨l₂, hpk₂, hle₂, -, hblind₂⟩ :=
      useHintPages_spec hnpp hints [] hlt₁
    set r := useHintPages m n hints p₁ [] with hr
    have hpk : Picked ⟨s.loc2id, []⟩ r.1 (l₁ ++ l₂) := hpk₁.trans hpk₂
    have hret : r.1.ret = l₁ ++ l₂ := by simpa using hpk.ret
    have hblind : ∀ l ∈ l₁ ++ l₂, m.locSectorNo l ∉ r.2 →
        ∀ l', m.locSectorNo l' = m.locSectorNo l → s.loc2id l' = .invalid := by
      intro l hl hnot l' hl'
      rcases mem_append.mp hl with hl | hl
      · exact hfree₁ l hl l' hl'
      · exact (hpk₁.picks.free_before (hblind₂ l hl hnot l' hl')).2
    rw [if_neg hfull₁]
    by_cases hfull₂ : r.1.full n
    · refine ⟨⟨r.1.loc2id, [], s.curLoc⟩, r.1.ret, r.2, by rw [if_pos hfull₂], ?_⟩
      rw [hret]
      exact .of_picks hwf hq hpk.picks (hret ▸ full_iff.mp hfull₂) (fun _ _ => not_mem_nil) hblind
    · refine ⟨⟨_, [], _⟩, _, r.2, by rw [if_neg hfull₂], ?_⟩
      exact .of_newPages hnpp hwf hpk.picks hret (hret ▸ hle₂) rfl hblind

/-- What `alloc_loc` returned is a reservation. -/
theorem reserved_of_allocLoc (hn : 0 < n) {hints : List Nat} {s' : SlotMap} (hwf : s.WellFormed m)
    (h : allocLoc m n hints s = .ok (s', locs, need)) : Reserved m n s s' locs need := by
  obtain ⟨s₁, locs₁, need₁, h₁, hr⟩ := allocLoc_spec hnpp hn hints hwf
  obtain ⟨rfl, rfl, rfl⟩ : s' = s₁ ∧ locs = locs₁ ∧ need = need₁ := by
    simpa using h.symm.trans h₁
  exact hr

/-! ## Committing a relocation -/

omit hnpp in
/-- Setting reserved slots does not touch a queued page. -/
theorem SlotMap.WellFormed.setLoc2id (hwf : s.WellFormed m) {loc : Nat} (id : Nat)
    (hloc : s.loc2id loc ≠ .invalid) : (setLoc2id s loc id).WellFormed m := by
  obtain ⟨haligned, htail, hnodup, hfree⟩ := hwf
  unfold PipeANN.setLoc2id
  refine ⟨haligned, ?_, hnodup, ?_⟩ <;> grind

/-- `erase_loc2id` of an occupied slot below the tail keeps the map well formed:
a page is queued when its last slot is freed, so it was not queued before. -/
theorem SlotMap.WellFormed.eraseLoc2id (hwf : s.WellFormed m) {loc : Nat}
    (hloc : s.loc2id loc ≠ .invalid) (hlt : loc < s.curLoc) :
    (eraseLoc2id m s loc).WellFormed m := by
  have hfree : ∀ l, s.loc2id l = .invalid → update s.loc2id loc .invalid l = .invalid := by
    grind
  have htail : ∀ l, s.curLoc ≤ l → update s.loc2id loc .invalid l ≠ .invalid := by
    grind [hwf.tail]
  unfold PipeANN.eraseLoc2id
  by_cases hempty : (m.pageSlots (m.locSectorNo loc)).all
      (fun i => update s.loc2id loc .invalid i = .invalid)
  · simp only [hempty]
    refine ⟨hwf.aligned, htail, ?_, fun page hp l hl => ?_⟩
    · refine nodup_append.mpr ⟨hwf.queueNodup, nodup_singleton _, ?_⟩
      rintro a ha b hb rfl
      exact hloc (hwf.queueFree _ (mem_singleton.mp hb ▸ ha) loc rfl)
    · rcases mem_append.mp hp with hp | hp
      · exact hfree l (hwf.queueFree page hp l hl)
      · have hmem := (DiskLayout.mem_pageSlots hnpp).mpr (hl.trans (mem_singleton.mp hp))
        simpa using all_eq_true.mp hempty l hmem
  · simp only [hempty]
    exact ⟨hwf.aligned, htail, hwf.queueNodup,
      fun page hp l hl => hfree l (hwf.queueFree page hp l hl)⟩

omit hnpp in
@[simp] theorem eraseLoc2id_loc2id (s : SlotMap) (loc : Nat) :
    (eraseLoc2id m s loc).loc2id = update s.loc2id loc .invalid := by
  unfold eraseLoc2id; dsimp only; split <;> rfl

omit hnpp in
@[simp] theorem eraseLoc2id_curLoc (s : SlotMap) (loc : Nat) :
    (eraseLoc2id m s loc).curLoc = s.curLoc := by
  unfold eraseLoc2id; dsimp only; split <;> rfl

/-- The second loop of `erase_and_set_loc`, over distinct occupied slots. -/
theorem eraseAll_spec : ∀ {old : List Nat} {s : SlotMap}, s.WellFormed m → old.Nodup →
    (∀ l ∈ old, s.loc2id l ≠ .invalid ∧ l < s.curLoc) →
    (old.foldl (eraseLoc2id m) s).WellFormed m ∧ (old.foldl (eraseLoc2id m) s).curLoc = s.curLoc ∧
      ∀ l, (old.foldl (eraseLoc2id m) s).loc2id l = if l ∈ old then .invalid else s.loc2id l
  | [], s, hwf, _, _ => ⟨hwf, rfl, by simp⟩
  | a :: old, s, hwf, hnd, hocc => by
    obtain ⟨hna, hnd'⟩ := nodup_cons.mp hnd
    obtain ⟨ha, halt⟩ := hocc a mem_cons_self
    have hocc' : ∀ l ∈ old, (eraseLoc2id m s a).loc2id l ≠ .invalid ∧
        l < (eraseLoc2id m s a).curLoc := by
      simp only [eraseLoc2id_loc2id, eraseLoc2id_curLoc]
      grind
    obtain ⟨hwf', hcur, hmap⟩ := eraseAll_spec (hwf.eraseLoc2id hnpp ha halt) hnd' hocc'
    refine ⟨hwf', hcur.trans (eraseLoc2id_curLoc s a), fun l => ?_⟩
    rw [foldl_cons, hmap, eraseLoc2id_loc2id]
    grind

omit hnpp in
/-- The first loop of `erase_and_set_loc`, over distinct reserved slots. -/
theorem setAll_spec : ∀ (ps : List (Nat × Nat)) {s : SlotMap}, s.WellFormed m →
    (ps.map Prod.fst).Nodup → (∀ p ∈ ps, s.loc2id p.1 ≠ .invalid) →
    (ps.foldl (fun s p => setLoc2id s p.1 p.2) s).WellFormed m ∧
      (ps.foldl (fun s p => setLoc2id s p.1 p.2) s).curLoc = s.curLoc ∧
      (∀ p ∈ ps, (ps.foldl (fun s p => setLoc2id s p.1 p.2) s).loc2id p.1 = .id p.2) ∧
      ∀ l, l ∉ ps.map Prod.fst → (ps.foldl (fun s p => setLoc2id s p.1 p.2) s).loc2id l = s.loc2id l
  | [], s, hwf, _, _ => ⟨hwf, rfl, by simp, by simp⟩
  | a :: ps, s, hwf, hnd, hres => by
    obtain ⟨hna, hnd'⟩ := nodup_cons.mp hnd
    have hres' : ∀ p ∈ ps, (setLoc2id s a.1 a.2).loc2id p.1 ≠ .invalid := by
      unfold setLoc2id
      grind
    obtain ⟨hwf', hcur, hset, hkeep⟩ :=
      setAll_spec ps (hwf.setLoc2id a.2 (hres a mem_cons_self)) hnd' hres'
    refine ⟨hwf', hcur, forall_mem_cons.mpr ⟨?_, hset⟩, fun l hl => ?_⟩
    · rw [foldl_cons, hkeep _ hna]
      simp [setLoc2id]
    · rw [map_cons, mem_cons, not_or] at hl
      rw [foldl_cons, hkeep l hl.2]
      simp [setLoc2id, hl.1]

/-- **`erase_and_set_loc`.**  The new slots, so far reserved, hold the new ids; the
old slots, so far occupied, are free; nothing else changes. -/
theorem eraseAndSetLoc_spec (old new ids : List Nat) (hwf : s.WellFormed m)
    (hlen : new.length = ids.length) (hnew : new.Nodup) (hres : ∀ l ∈ new, s.loc2id l = .allocated)
    (hold : old.Nodup) (hocc : ∀ l ∈ old, (∃ id, s.loc2id l = .id id) ∧ l < s.curLoc) :
    (eraseAndSetLoc m old new ids s).WellFormed m ∧
      (eraseAndSetLoc m old new ids s).curLoc = s.curLoc ∧
      (∀ p ∈ new.zip ids, (eraseAndSetLoc m old new ids s).loc2id p.1 = .id p.2) ∧
      (∀ l ∈ old, (eraseAndSetLoc m old new ids s).loc2id l = .invalid) ∧
      ∀ l, l ∉ old → l ∉ new → (eraseAndSetLoc m old new ids s).loc2id l = s.loc2id l := by
  have hfst : (new.zip ids).map Prod.fst = new := map_fst_zip hlen.le
  have hdisj : ∀ l ∈ old, l ∉ new := by
    intro l ho hn
    obtain ⟨id, hid⟩ := (hocc l ho).1
    rw [hres l hn] at hid
    cases hid
  obtain ⟨hwf₁, hcur₁, hset, hkeep⟩ := setAll_spec (new.zip ids) hwf (hfst.symm ▸ hnew)
    (fun p hp => by
      have : p.1 ∈ new := hfst ▸ mem_map_of_mem hp
      simp [hres _ this])
  rw [hfst] at hkeep
  obtain ⟨hwf₂, hcur₂, hmap⟩ := eraseAll_spec hnpp hwf₁ hold (fun l hl => by
    obtain ⟨⟨id, hid⟩, hlt⟩ := hocc l hl
    rw [hkeep l (hdisj l hl), hid, hcur₁]
    exact ⟨by simp, hlt⟩)
  refine ⟨hwf₂, hcur₂.trans hcur₁, fun p hp => ?_, fun l hl => ?_, fun l ho hn => ?_⟩
  · have hpn : p.1 ∈ new := hfst ▸ mem_map_of_mem hp
    rw [eraseAndSetLoc, hmap, if_neg (fun h => hdisj _ h hpn), hset p hp]
  · rw [eraseAndSetLoc, hmap, if_pos hl]
  · rw [eraseAndSetLoc, hmap, if_neg ho, hkeep l hn]

end Packed

end PipeANN
