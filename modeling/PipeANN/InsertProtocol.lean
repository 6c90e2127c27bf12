import Mathlib.Data.List.Sort
import Mathlib.Data.List.Dedup
import PipeANN.AllocatorRuns

/-! # Concurrent in-place inserts

`insert_in_place` (`direct_insert.cpp`) after its search: reserve slots, lock the
pages they are on in ascending order, lock the vectors it touches, read, build
the new pages in memory, write them, commit, unlock.  The module embeds one call
as a little program, `Phase` being its program counter together with what is left
of the loop it is in, and the system as any interleaving of such calls.

The content of a page is what `read_alloc` returns for it; the page cache behind
it is the subject of `PageCache`.  A page is read and written atomically.

Two points of the source matter below.  `alloc_loc` decides at reservation time
which pages must be read before they are rewritten, *before* any page is locked;
and the buffer of a page that is not read is whatever `alloc_io_buf` returned.
-/
namespace PipeANN
open List Function

/-- Ascending and without duplicates: the iteration order of `std::set`. -/
def sortedSet (l : List Nat) : List Nat := l.dedup.insertionSort (· ≤ ·)

@[simp] theorem mem_sortedSet {l : List Nat} {a : Nat} : a ∈ sortedSet l ↔ a ∈ l := by
  simp [sortedSet]

theorem nodup_sortedSet (l : List Nat) : (sortedSet l).Nodup :=
  (perm_insertionSort _ _).nodup_iff.mpr (nodup_dedup l)

/-- The two record computations of an insert, left open: the record of the target
from its neighbours and their records (two-hop neighbours are sampled from them),
and the record of a neighbour with the target linked in (`delta_prune_neighbors`
included). -/
structure RecordOps (ρ : Type) where
  newRecord : Nat → List Nat → List ρ → ρ
  addLink : Nat → Nat → ρ → ρ

/-- Where a call is.  A list is what its loop still has to do. -/
inductive Phase where
  | lockPages (todo : List Nat)
  | lockVecs (todo : List Nat)
  | readNbrs (todo : List Nat)
  | readRmw (todo : List Nat)
  | modify
  | write (todo : List Nat)
  | commit
  | unlockVecs (todo : List Nat)
  | unlockPages (todo : List Nat)
  deriving DecidableEq, Repr

namespace Phase

/-- `erase_and_set_loc` has not happened yet. -/
def uncommitted : Phase → Bool
  | .unlockVecs _ | .unlockPages _ => false
  | _ => true

/-- The call is between the start of its page writes and its commit. -/
def writing : Phase → Bool
  | .write _ | .commit => true
  | _ => false

end Phase

/-- A call in progress.  `nbrBuf` and `rmwBuf` are the two halves of `update_buf`,
indexed by location: the pages read for the neighbours' records, and the pages to
be rewritten. -/
structure Insert (ρ : Type) where
  res : Reservation
  phase : Phase
  nbrBuf : Nat → ρ
  rmwBuf : Nat → ρ

/-- `pages_to_rmw_set`, in order. -/
def Reservation.rmwPages (m : DiskLayout) (r : Reservation) : List Nat :=
  sortedSet (r.locs.map m.locSectorNo)

theorem Reservation.mem_rmwPages {m : DiskLayout} {r : Reservation} {p : Nat} :
    p ∈ r.rmwPages m ↔ ∃ l ∈ r.locs, m.locSectorNo l = p := by
  simp [Reservation.rmwPages]

/-- The order in which `lock_vec` locks. -/
def Reservation.vecOrder (r : Reservation) : List Nat := sortedSet r.ids

/-- The shared state. -/
structure InsertState (ρ : Type) where
  maps : IndexMap
  /-- The calls in progress, by caller. -/
  inserts : Nat → Option (Insert ρ)
  /-- `page_lock_table`: the holder of each page lock. -/
  pageLock : Nat → Option Nat
  /-- `vec_lock_table`. -/
  vecLock : Nat → Option Nat
  /-- The content of each slot. -/
  disk : Nat → ρ
  /-- The last record written for each id (history variable). -/
  written : Nat → ρ

/-- Copy the slots of one page. -/
def copyPage {ρ : Type} (m : DiskLayout) (page : Nat) (src dst : Nat → ρ) : Nat → ρ := fun l =>
  if m.locSectorNo l = page then src l else dst l

namespace InsertState
variable {ρ : Type} (m : DiskLayout) (ops : RecordOps ρ) (s : InsertState ρ) (t : Nat)
  (X : Insert ρ)

/-- A loaded index: the identity layout, nothing in progress. -/
def initial (npoints : Nat) (disk : Nat → ρ) : InsertState ρ where
  maps := .identity m npoints
  inserts := fun _ => none
  pageLock := fun _ => none
  vecLock := fun _ => none
  disk := disk
  written := disk

/-- Replace the call of `t`. -/
def setInsert : InsertState ρ :=
  { s with inserts := update s.inserts t (some X) }

/-- `node_from_page(page_buf_map[..], id2loc(id))`: the buffer of a page to be
rewritten takes precedence over the one it was read into for a neighbour. -/
def readRecord (rmwBuf : Nat → ρ) (id : Nat) : ρ :=
  let loc := (s.maps.id2loc id).getD 0
  if m.locSectorNo loc ∈ X.res.rmwPages m then rmwBuf loc else X.nbrBuf loc

/-- The in-memory modification: the target's record into its slot, then each
neighbour's record, with the target linked in, into its new slot. -/
def modify : Nat → ρ :=
  let r := X.res
  let recs := r.nbrs.map (readRecord m s X X.rmwBuf)
  let buf := match r.locs[r.nbrs.length]? with
    | some loc => update X.rmwBuf loc (ops.newRecord r.target r.nbrs recs)
    | none => X.rmwBuf
  (r.nbrs.zip r.locs).foldl
    (fun buf p => update buf p.2 (ops.addLink p.1 r.target (readRecord m s X buf p.1))) buf

/-- The history variable after the page `page` has been written. -/
def recordWritten (page : Nat) (X : Insert ρ) (written : Nat → ρ) : Nat → ρ :=
  (X.res.locs.zip X.res.ids).foldl
    (fun w p => if m.locSectorNo p.1 = page then update w p.2 (X.rmwBuf p.1) else w) written

/-- What follows a finished loop. -/
def nextPhase : Phase → Option Phase
  | .lockPages [] => some (.lockVecs X.res.vecOrder)
  | .lockVecs [] => some (.readNbrs ((X.res.nbrs.filterMap s.maps.id2loc).map m.locSectorNo))
  | .readNbrs [] => some (.readRmw ((X.res.rmwPages m).filter (· ∈ X.res.need)))
  | .readRmw [] => some .modify
  | .write [] => some .commit
  | .unlockVecs [] => some (.unlockPages (X.res.rmwPages m))
  | _ => none

/-- The next step of the call of `t`; `none` if it waits for a lock. -/
def advance : Option (InsertState ρ) :=
  match X.phase with
  | .lockPages (p :: ps) =>
    if s.pageLock p = none then
      some { s.setInsert t { X with phase := .lockPages ps } with
        pageLock := update s.pageLock p (some t) }
    else none
  | .lockVecs (v :: vs) =>
    if s.vecLock v = none then
      some { s.setInsert t { X with phase := .lockVecs vs } with
        vecLock := update s.vecLock v (some t) }
    else none
  | .readNbrs (p :: ps) =>
    some (s.setInsert t
      { X with phase := .readNbrs ps, nbrBuf := copyPage m p s.disk X.nbrBuf })
  | .readRmw (p :: ps) =>
    some (s.setInsert t
      { X with phase := .readRmw ps, rmwBuf := copyPage m p s.disk X.rmwBuf })
  | .modify =>
    some (s.setInsert t
      { X with phase := .write (X.res.rmwPages m), rmwBuf := modify m ops s X })
  | .write (p :: ps) =>
    some { s.setInsert t { X with phase := .write ps } with
      disk := copyPage m p X.rmwBuf s.disk
      written := recordWritten m p X s.written }
  | .commit =>
    (s.maps.commit m t).map fun maps =>
      { s.setInsert t { X with phase := .unlockVecs X.res.vecOrder } with maps := maps }
  | .unlockVecs (v :: vs) =>
    some { s.setInsert t { X with phase := .unlockVecs vs } with
      vecLock := update s.vecLock v none }
  | .unlockPages (p :: ps) =>
    some { s.setInsert t { X with phase := .unlockPages ps } with
      pageLock := update s.pageLock p none }
  | .unlockPages [] => some { s with inserts := update s.inserts t none }
  | ph => (nextPhase m s X ph).map fun ph' => s.setInsert t { X with phase := ph' }

/-- The steps of the system.  `start` is the `alloc_loc` critical section of a new
call, with the hint pages its search collected and the uninitialised content of
its buffer. -/
inductive Action (ρ : Type) where
  | start (t target : Nat) (nbrs hints : List Nat) (junk : Nat → ρ)
  | advance (t : Nat)

/-- One step. -/
def step : Action ρ → Option (InsertState ρ)
  | .start t target nbrs hints junk =>
    if (s.inserts t).isNone then
      (s.maps.reserve m t target nbrs hints).bind fun maps =>
        (maps.pending t).map fun r =>
          { s.setInsert t ⟨r, .lockPages (r.rmwPages m), junk, junk⟩ with maps := maps }
    else none
  | .advance t => (s.inserts t).bind (s.advance m ops t)

/-- No call is between the start of its page writes and its commit. -/
def NoWritePending : Prop :=
  ∀ t X, s.inserts t = some X → X.phase.writing = false

/-- Every committed record is on disk as it was last written. -/
def RecordsIntact : Prop :=
  ∀ id l, s.maps.id2loc id = some l → s.disk l = s.written id

/-! ## What a step is -/

variable {m : DiskLayout} {ops : RecordOps ρ} {s s' : InsertState ρ} {t : Nat}

theorem start_cases {target : Nat} {nbrs hints : List Nat} {junk : Nat → ρ}
    (h : step m ops s (.start t target nbrs hints junk) = some s') :
    ∃ maps r, s.inserts t = none ∧ s.maps.reserve m t target nbrs hints = some maps ∧
      maps.pending t = some r ∧
      s' = { s.setInsert t ⟨r, .lockPages (r.rmwPages m), junk, junk⟩ with maps := maps } := by
  simp only [step] at h
  split at h
  · obtain ⟨maps, hmaps, h⟩ := Option.bind_eq_some_iff.mp h
    obtain ⟨r, hr, rfl⟩ := Option.map_eq_some_iff.mp h
    exact ⟨maps, r, Option.isNone_iff_eq_none.mp ‹_›, hmaps, hr, rfl⟩
  · cases h

/-- The caller a step belongs to. -/
def Action.caller : Action ρ → Nat
  | .start t .. | .advance t => t

/-- A step changes its own call only. -/
theorem inserts_step {a : Action ρ} (h : step m ops s a = some s') {t' : Nat}
    (ht : t' ≠ a.caller) : s'.inserts t' = s.inserts t' := by
  cases a with
  | start t target nbrs hints junk =>
    obtain ⟨maps, r, -, -, -, rfl⟩ := start_cases h
    exact update_of_ne ht _ _
  | advance t =>
    obtain ⟨X, -, h⟩ := Option.bind_eq_some_iff.mp h
    revert h
    fun_cases advance with
    -- the commit and the end of a loop
    | case9 | case13 =>
      intro h
      obtain ⟨_, -, rfl⟩ := Option.map_eq_some_iff.mp h
      exact update_of_ne ht _ _
    | _ => rintro ⟨⟩ <;> exact update_of_ne ht _ _

/-- A caller that takes no step of a run is where it was. -/
theorem inserts_run {l : List (Action ρ)} (h : runSteps (step m ops) s l = some s') {t' : Nat}
    (ht : ∀ a ∈ l, t' ≠ a.caller) : s'.inserts t' = s.inserts t' := by
  induction l generalizing s with
  | nil => cases h; rfl
  | cons a as ih =>
    obtain ⟨s₁, h1, h2⟩ := Option.bind_eq_some_iff.mp h
    rw [ih h2 fun b hb => ht b (mem_cons_of_mem _ hb), inserts_step h1 (ht a mem_cons_self)]

/-! ## A lost record

Four records per page, ids `0` to `3` on page `1`.  Call `0` inserts `4` next to
all of them, which moves them to page `2` and leaves page `1` empty.  Call `1`
(for `5`, next to `0`) gets two slots of the empty page and will write the page
without reading it; call `2` (for `6`, next to `4`), whose search still has page
`1` as a hint, gets the other two slots of that page, and is faster.  When call
`1` then writes its page, the records of `6` and `4` are gone. -/

/-- Records as lists: the id and its neighbours. -/
def listRecords : RecordOps (List Nat) where
  newRecord := fun target nbrs _ => target :: nbrs
  addLink := fun _ target r => r ++ [target]

/-- The schedule described above. -/
def lostRecordRun : List (Action (List Nat)) :=
  [.start 0 4 [0, 1, 2, 3] [] (fun _ => [])] ++ List.replicate 29 (.advance 0) ++
  [.start 1 5 [0] [] (fun _ => []), .start 2 6 [4] [1] (fun _ => [])] ++
  List.replicate 18 (.advance 2) ++ List.replicate 17 (.advance 1)

/-- **A committed record can be lost**: after the schedule every call has returned,
and the slot of `6` no longer holds the record written for it. -/
theorem lostRecordRun_loses :
    ∃ s, Reach (step ⟨1024, 4⟩ listRecords) anyStep (initial ⟨1024, 4⟩ 4 (fun l => [l])) s ∧
      s.NoWritePending ∧ ¬ s.RecordsIntact := by
  have hrun : (runSteps (step ⟨1024, 4⟩ listRecords) (initial ⟨1024, 4⟩ 4 (fun l => [l]))
      lostRecordRun).map (fun s => ((range 3).all fun t => (s.inserts t).isNone,
        s.maps.id2loc 6, s.disk 3, s.written 6)) = some (true, some 3, [], [6, 4]) := by
    decide +kernel
  obtain ⟨s, hs, hobs⟩ := Option.map_eq_some_iff.mp hrun
  simp only [Prod.mk.injEq, all_eq_true, mem_range, Option.isNone_iff_eq_none] at hobs
  obtain ⟨hdone, hid, hdisk, hwritten⟩ := hobs
  refine ⟨s, Reach.of_run hs, fun t X hX => ?_, fun hint => ?_⟩
  · by_cases ht : t < 3
    · rw [hdone t ht] at hX; cases hX
    · have hother : ∀ a ∈ lostRecordRun, t ≠ a.caller := by
        simp [lostRecordRun, Action.caller]; omega
      rw [inserts_run hs hother] at hX
      cases hX
  · have := hint 6 3 hid
    rw [hdisk, hwritten] at this
    cases this

end InsertState
end PipeANN
