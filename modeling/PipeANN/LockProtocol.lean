import PipeANN.DiskLayout
import PipeANN.RwLocks
import PipeANN.SortedLists

/-! # The locks of inserts and searches

Three tables of reader-writer locks (`RWSpinLock` in a `SparseLockTable`) are used under three
disciplines.

* `page_lock_table`: an insert takes the locks of the pages it rewrites, in ascending order.
  They go with its writes to the background thread, which releases them.
* `vec_lock_table`: then it takes the locks of the new point and of its neighbours, in ascending
  order.
* `idx_lock_table`: then it tries to take the locks of the same ids in the table of locations,
  and if one of them is not free it releases those it has and starts over.  A search holds such a
  lock for reading for every page it has asked for, taken in any order, and waits for the next one
  with the others in hand.

The search of an insert comes before, and holds nothing when it is over.

A thread that waits in `rdlock` or `wrlock`, and one that starts over without having had a lock,
takes no step: `LockThread.turn` is then `none`.  `LockProgress` shows that there is no deadlock
all the same.
-/
namespace PipeANN
open RwLock SortedLists

/-- `std::numeric_limits<int>::max()`, the most readers that a lock can count. -/
def intMax : Nat := 2147483647

def kInvalidID : Nat := 4294967295

/-- The sectors that a request of a length at an offset covers. -/
def reqSectors (offset len : Nat) : List Nat :=
  (List.range (divRoundUp len sectorLen)).map fun i => (offset + i * sectorLen) / sectorLen

/-- The pages that `lockReqs` locks, in this order. -/
def lockReqs (reqs : List (Nat × Nat)) : List Nat :=
  sortUnique (reqs.flatMap fun req => reqSectors req.1 req.2)

/-- `get_to_lock_idx`, which is also what `lock_vec` and `unlock_vec` begin with. -/
def getToLockIdx (target : Nat) (neighbors : List Nat) : List Nat :=
  sortUnique (neighbors ++ if target ≠ kInvalidID then [target] else [])

/-- What an insert has chosen when it begins to lock. -/
structure UpdatePlan where
  /-- Offsets and lengths of the pages to rewrite. -/
  reqs : List (Nat × Nat)
  target : Nat
  neighbors : List Nat
  /-- The pages that the insert refers to when it commits. -/
  pageRef : List Nat
  /-- The new point has an id. -/
  valid : target ≠ kInvalidID

namespace UpdatePlan

variable (u : UpdatePlan)

def pages : List Nat := lockReqs u.reqs

def ids : List Nat := getToLockIdx u.target u.neighbors

/-- What `unlock_vec` releases: by then `new_nhood` contains the new point as well. -/
def idsToUnlock : List Nat :=
  getToLockIdx u.target (u.neighbors ++ [u.target])

theorem pages_ascending : Ascending u.pages := (sortUnique_spec _).1

theorem ids_ascending : Ascending u.ids := (sortUnique_spec _).1

/-- What is released is what was taken. -/
theorem idsToUnlock_eq : u.idsToUnlock = u.ids := by
  refine Ascending.ext (sortUnique_spec _).1 (sortUnique_spec _).1 fun x => ?_
  rw [idsToUnlock, ids, getToLockIdx, getToLockIdx, if_pos u.valid, (sortUnique_spec _).2,
    (sortUnique_spec _).2, List.append_assoc]
  simp only [List.mem_append, or_self]

end UpdatePlan

/-- A thread.  A search runs a list of operations: `some id` sends a read, under the lock of the
id; `none` takes the oldest read that has landed. -/
inductive LockThread where
  /-- In a search: what it will do, the ids whose reads are on the way (oldest first), and what
  the insert that it belongs to has planned. -/
  | searching (ops : List (Option Nat)) (inFlight : List Nat) (plan : Option UpdatePlan)
  /-- `lockReqs`, with `k` pages locked. -/
  | lockPages (u : UpdatePlan) (k : Nat)
  /-- `lock_vec`, with `k` ids locked. -/
  | lockVecs (u : UpdatePlan) (k : Nat)
  /-- `lock_idx`, with `k` ids locked. -/
  | lockIdx (u : UpdatePlan) (k : Nat)
  /-- The release after a failed try: the ids still locked, the last one first. -/
  | releaseIdx (u : UpdatePlan) (held : List Nat)
  /-- `unlock_idx`, with `k` ids released. -/
  | unlockIdx (u : UpdatePlan) (k : Nat)
  /-- `unlock_vec`, with `k` ids released. -/
  | unlockVecs (u : UpdatePlan) (k : Nat)
  /-- About to hand the pages to the background thread. -/
  | commit (u : UpdatePlan)
  /-- `unlockReqs` without the background thread, with `k` pages released. -/
  | unlockPages (u : UpdatePlan) (k : Nat)
  | finished

/-- The three lock tables, by the word of each lock. -/
structure LockTables where
  page : Nat → Int
  vec : Nat → Int
  idx : Nat → Int

/-- What a step of a thread comes to: the tables, the thread, and the pages it hands over. -/
structure LockTurn where
  tables : LockTables
  thread : LockThread
  pushed : List (List Nat)

/-- The loop that takes the locks of a list in order, with `k` of them taken: the next one, if
it is free, or what comes after the loop. -/
def lockNext (tbl : Nat → Int) (l : List Nat) (k : Nat) (after : LockTurn)
    (locked : (Nat → Int) → LockTurn) : Option LockTurn :=
  match l[k]? with
  | none => some after
  | some x => (lockWrite tbl x).map locked

/-- The loop that releases the locks of a list in order, with `k` of them released. -/
def unlockNext (tbl : Nat → Int) (l : List Nat) (k : Nat) (after : LockTurn)
    (unlocked : (Nat → Int) → LockTurn) : Option LockTurn :=
  match l[k]? with
  | none => some after
  | some x => some (unlocked (unlock tbl x))

namespace LockThread

/-- The next step of a thread, if it does not have to wait. -/
def turn (T : LockTables) : LockThread → Option LockTurn
  | .searching (some id :: ops) inFlight plan =>
    (lockRead intMax T.idx id).map fun idx =>
      ⟨{ T with idx := idx }, .searching ops (inFlight ++ [id]) plan, []⟩
  | .searching (none :: ops) [] plan => some ⟨T, .searching ops [] plan, []⟩
  | .searching (none :: ops) (id :: inFlight) plan =>
    some ⟨{ T with idx := unlock T.idx id }, .searching ops inFlight plan, []⟩
  | .searching [] (id :: inFlight) plan =>
    some ⟨{ T with idx := unlock T.idx id }, .searching [] inFlight plan, []⟩
  | .searching [] [] none => some ⟨T, .finished, []⟩
  | .searching [] [] (some u) => some ⟨T, .lockPages u 0, []⟩
  | .lockPages u k =>
    lockNext T.page u.pages k ⟨T, .lockVecs u 0, []⟩ fun page =>
      ⟨{ T with page := page }, .lockPages u (k + 1), []⟩
  | .lockVecs u k =>
    lockNext T.vec u.ids k ⟨T, .lockIdx u 0, []⟩ fun vec =>
      ⟨{ T with vec := vec }, .lockVecs u (k + 1), []⟩
  | .lockIdx u k =>
    match u.ids[k]? with
    | none => some ⟨T, .unlockIdx u 0, []⟩
    | some x =>
      match lockWrite T.idx x with
      | some idx => some ⟨{ T with idx := idx }, .lockIdx u (k + 1), []⟩
      -- with nothing to release, the thread just tries again
      | none => if k = 0 then none else some ⟨T, .releaseIdx u (u.ids.take k).reverse, []⟩
  | .releaseIdx u [] => some ⟨T, .lockIdx u 0, []⟩
  | .releaseIdx u (x :: held) => some ⟨{ T with idx := unlock T.idx x }, .releaseIdx u held, []⟩
  | .unlockIdx u k =>
    unlockNext T.idx u.ids k ⟨T, .unlockVecs u 0, []⟩ fun idx =>
      ⟨{ T with idx := idx }, .unlockIdx u (k + 1), []⟩
  | .unlockVecs u k =>
    unlockNext T.vec u.idsToUnlock k ⟨T, .commit u, []⟩ fun vec =>
      ⟨{ T with vec := vec }, .unlockVecs u (k + 1), []⟩
  | .commit u =>
    if u.pageRef = [] then some ⟨T, .unlockPages u 0, []⟩ else some ⟨T, .finished, [u.pages]⟩
  | .unlockPages u k =>
    unlockNext T.page u.pages k ⟨T, .finished, []⟩ fun page =>
      ⟨{ T with page := page }, .unlockPages u (k + 1), []⟩
  | .finished => none

end LockThread

/-! ## The system -/

structure LockState where
  tables : LockTables
  threads : List LockThread
  /-- The queue of the background threads, by the pages to unlock. -/
  bgTasks : List (List Nat)
  /-- The background threads: the pages of the task in hand that are still locked. -/
  writers : List (Option (List Nat))

/-- Who takes a step. -/
inductive LockAction where
  | thread (t : Nat)
  | writer (i : Nat)

/-- The threads of a run.  Lock words and thread ids are of type `int`, so that a lock has room
for one reader a thread. -/
structure Crew where
  /-- The operations of each search, and the plan of the insert it belongs to. -/
  scripts : List (List (Option Nat) × Option UpdatePlan)
  /-- A search reads an id once. -/
  distinct : ∀ p ∈ scripts, (p.1.filterMap id).Nodup
  few : scripts.length < intMax
  /-- The number of background threads. -/
  nBg : Nat
  nBg_pos : 0 < nBg

namespace LockState

def start (crew : Crew) : LockState where
  tables := ⟨fun _ => 0, fun _ => 0, fun _ => 0⟩
  threads := crew.scripts.map fun p => .searching p.1 [] p.2
  bgTasks := []
  writers := List.replicate crew.nBg none

def afterTurn (s : LockState) (t : Nat) (o : LockTurn) : LockState :=
  { s with
    tables := o.tables
    threads := s.threads.set t o.thread
    bgTasks := s.bgTasks ++ o.pushed }

/-- A step of a background thread: it takes a task, whose writes it executes, or unlocks a page,
or is done with the task. -/
def bgIoThread (s : LockState) (i : Nat) : Option (List Nat) → Option LockState
  | none =>
    match s.bgTasks with
    | [] => none
    | pages :: rest =>
      some { s with bgTasks := rest, writers := s.writers.set i (some pages) }
  | some (p :: rest) =>
    some { s with
      tables := { s.tables with page := unlock s.tables.page p }
      writers := s.writers.set i (some rest) }
  | some [] => some { s with writers := s.writers.set i none }

def step (s : LockState) : LockAction → Option LockState
  | .thread t => s.threads[t]?.bind fun w => (w.turn s.tables).map (s.afterTurn t)
  | .writer i => s.writers[i]?.bind (s.bgIoThread i)

end LockState
end PipeANN
