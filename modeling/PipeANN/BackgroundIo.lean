import Mathlib.Data.List.Basic

/-! # Scratch buffers and background writes

`SSDIndex` owns a pool of `2 * max_nthreads` scratch buffers (`init_buffers`).  A search takes
one buffer and returns it.  `insert_in_place` takes one, then runs a search of its own, which
takes a second one and returns it; the first one goes with the insert's page writes to the queue
`bg_tasks`, and it is a background thread (`bg_io_thread`) that executes the writes and returns
the buffer.  `pop_query_buf` waits until the pool has a buffer.

A thread here runs a list of operations, one step at a time, and only what touches the pool and
the queue is kept: what an insert does in between needs locks, but no buffer.  `merge_deletes`
is followed up to the end of the loop in which it waits for the background writes.

`BufferPool` asks whether everybody can wait for a buffer, and `BackgroundWrites` whether the
writes are on disk when `merge_deletes` goes on.
-/
namespace PipeANN
open Option

/-- A page write of an insert: which task it belongs to, its place there, and its sector. -/
structure PageWrite where
  task : Nat
  idx : Nat
  sector : Nat
deriving DecidableEq, Repr

/-- What an insert found out before it commits: the sectors it writes, and the pages that it
still refers to (`page_ref`). -/
structure InsertCall where
  sectors : List Nat
  pageRef : List Nat
deriving DecidableEq, Repr

/-- An operation of a thread on the index. -/
inductive Operation where
  | insert (call : InsertCall)
  | search
deriving DecidableEq, Repr

/-- Where a thread is. -/
inductive IoPhase where
  /-- Between two operations. -/
  | ready
  /-- An insert has its first buffer; its search waits for another one. -/
  | first (call : InsertCall)
  /-- The search of an insert has its buffer. -/
  | nested (call : InsertCall)
  /-- The search of an insert is over; the insert has not committed. -/
  | linking (call : InsertCall)
  /-- An insert has committed these writes and is about to return. -/
  | returning (writes : List PageWrite)
  /-- A search has its buffer. -/
  | searching
deriving DecidableEq, Repr

/-- A thread: where it is, and the operations it has not begun. -/
structure IoThread where
  phase : IoPhase
  ops : List Operation
deriving DecidableEq, Repr

/-- `merge_deletes`: it is not called, or waits, or is past the waiting loop.  `before` are the
writes of the inserts that had returned when it was called. -/
inductive MergeWait where
  | notCalled
  | waiting (before : List PageWrite)
  | past (before : List PageWrite)
deriving DecidableEq, Repr

structure IoState where
  /-- How many buffers `thread_data_queue` has. -/
  free : Nat
  threads : List IoThread
  /-- The queue `bg_tasks`, oldest first. -/
  bgTasks : List (List PageWrite)
  /-- The number of tasks that have been queued. -/
  nTasks : Nat
  /-- The background threads: the task in hand, by its writes that are not executed yet. -/
  writers : List (Option (List PageWrite))
  /-- The writes that have been executed. -/
  disk : List PageWrite
  /-- The writes of the inserts that have returned. -/
  returned : List PageWrite
  merge : MergeWait
deriving DecidableEq, Repr

/-- Who takes a step. -/
inductive IoAction where
  | thread (t : Nat)
  | writer (i : Nat)
  | callMerge
  | exitMerge
deriving DecidableEq, Repr

/-- What a step of a thread comes to: the thread and the pool after it, and what it adds to the
queue and to the writes of returned inserts. -/
structure IoTurn where
  thread : IoThread
  free : Nat
  pushed : List (List PageWrite)
  returned : List PageWrite

/-- The writes of a task, numbered. -/
def taskWrites (task : Nat) (sectors : List Nat) : List PageWrite :=
  sectors.zipIdx.map fun p => ⟨task, p.2, p.1⟩

namespace IoThread

/-- `pop_query_buf`: the thread goes on if the pool has a buffer. -/
def popQueryBuf (free : Nat) (next : IoThread) : Option IoTurn :=
  if 0 < free then some ⟨next, free - 1, [], []⟩ else none

/-- `push_query_buf`. -/
def pushQueryBuf (free : Nat) (next : IoThread) : Option IoTurn :=
  some ⟨next, free + 1, [], []⟩

/-- The next step of a thread, with `free` buffers in the pool and `nTasks` tasks queued. -/
def turn (free nTasks : Nat) (w : IoThread) : Option IoTurn :=
  match w.phase with
  | .ready =>
    match w.ops with
    | [] => none
    | .insert call :: ops => popQueryBuf free ⟨.first call, ops⟩
    | .search :: ops => popQueryBuf free ⟨.searching, ops⟩
  | .first call => popQueryBuf free ⟨.nested call, w.ops⟩
  | .nested call => pushQueryBuf free ⟨.linking call, w.ops⟩
  | .linking call =>
    if call.pageRef = [] then
      -- no task is queued: the buffer is in nobody's hands from here on
      some ⟨⟨.returning [], w.ops⟩, free, [], []⟩
    else
      let writes := taskWrites nTasks call.sectors
      some ⟨⟨.returning writes, w.ops⟩, free, [writes], []⟩
  | .returning writes => some ⟨⟨.ready, w.ops⟩, free, [], writes⟩
  | .searching => pushQueryBuf free ⟨.ready, w.ops⟩

end IoThread

namespace IoState

/-- `init_buffers` with `n` threads, `m` background threads, and threads that are to run the
given operations. -/
def start (n m : Nat) (scripts : List (List Operation)) : IoState where
  free := n * 2
  threads := scripts.map fun ops => ⟨.ready, ops⟩
  bgTasks := []
  nTasks := 0
  writers := List.replicate m none
  disk := []
  returned := []
  merge := .notCalled

/-- The state after a step of thread `t`. -/
def afterTurn (s : IoState) (t : Nat) (o : IoTurn) : IoState :=
  { s with
    free := o.free
    threads := s.threads.set t o.thread
    bgTasks := s.bgTasks ++ o.pushed
    nTasks := s.nTasks + o.pushed.length
    returned := s.returned ++ o.returned }

/-- A step of a background thread: it takes a task, executes a write of the one in hand, or
returns the buffer of the one it is done with. -/
def bgIoThread (s : IoState) (i : Nat) : Option (List PageWrite) → Option IoState
  | none =>
    match s.bgTasks with
    | [] => none
    | writes :: rest =>
      some { s with bgTasks := rest, writers := s.writers.set i (some writes) }
  | some (w :: rest) =>
    some { s with disk := s.disk ++ [w], writers := s.writers.set i (some rest) }
  | some [] => some { s with free := s.free + 1, writers := s.writers.set i none }

def step (s : IoState) : IoAction → Option IoState
  | .thread t => s.threads[t]?.bind fun w => (w.turn s.free s.nTasks).map (s.afterTurn t)
  | .writer i => s.writers[i]?.bind (s.bgIoThread i)
  | .callMerge =>
    match s.merge with
    | .notCalled => some { s with merge := .waiting s.returned }
    | _ => none
  | .exitMerge =>
    match s.merge with
    | .waiting before => if s.bgTasks = [] then some { s with merge := .past before } else none
    | _ => none

variable {s s' : IoState}

/-- What a step is. -/
theorem step_cases {a : IoAction} (h : step s a = some s') :
    (∃ t w o, a = .thread t ∧ s.threads[t]? = some w ∧ w.turn s.free s.nTasks = some o ∧
      s' = s.afterTurn t o) ∨
    (∃ i j, a = .writer i ∧ s.writers[i]? = some j ∧ s.bgIoThread i j = some s') ∨
    (a = .callMerge ∧ s' = { s with merge := .waiting s.returned }) ∨
    ∃ before, a = .exitMerge ∧ s.merge = .waiting before ∧ s.bgTasks = [] ∧
      s' = { s with merge := .past before } := by
  revert h
  fun_cases step s a with
  | case1 t =>
    intro h
    obtain ⟨w, hw, h⟩ := bind_eq_some_iff.mp h
    obtain ⟨o, ho, rfl⟩ := map_eq_some_iff.mp h
    exact .inl ⟨t, w, o, rfl, hw, ho, rfl⟩
  | case2 i =>
    intro h
    obtain ⟨j, hj, h⟩ := bind_eq_some_iff.mp h
    exact .inr (.inl ⟨i, j, rfl, hj, h⟩)
  | case3 => exact fun h => .inr (.inr (.inl ⟨rfl, (some.inj h).symm⟩))
  | case5 before hm ht => exact fun h => .inr (.inr (.inr ⟨before, rfl, hm, ht, (some.inj h).symm⟩))
  | _ => rintro ⟨⟩

variable {j : Option (List PageWrite)}

/-- What a background thread does. -/
theorem bgIoThread_cases {i : Nat} (h : s.bgIoThread i j = some s') :
    (∃ writes rest, j = none ∧ s.bgTasks = writes :: rest ∧
      s' = { s with bgTasks := rest, writers := s.writers.set i (some writes) }) ∨
    (∃ w rest, j = some (w :: rest) ∧
      s' = { s with disk := s.disk ++ [w], writers := s.writers.set i (some rest) }) ∨
    (j = some [] ∧ s' = { s with free := s.free + 1, writers := s.writers.set i none }) := by
  revert h
  fun_cases bgIoThread s i j with
  | case1 => rintro ⟨⟩
  | case2 writes rest ht => exact fun h => .inl ⟨writes, rest, rfl, ht, (some.inj h).symm⟩
  | case3 w rest => exact fun h => .inr (.inl ⟨w, rest, rfl, (some.inj h).symm⟩)
  | case4 => exact fun h => .inr (.inr ⟨rfl, (some.inj h).symm⟩)

end IoState

/-! ## The steps of a thread -/

namespace IoThread

/-- The steps of a thread, as a relation. -/
inductive Turns (free nTasks : Nat) : IoThread → IoTurn → Prop where
  | insert {call ops} (h : 0 < free) :
      Turns free nTasks ⟨.ready, .insert call :: ops⟩ ⟨⟨.first call, ops⟩, free - 1, [], []⟩
  | search {ops} (h : 0 < free) :
      Turns free nTasks ⟨.ready, .search :: ops⟩ ⟨⟨.searching, ops⟩, free - 1, [], []⟩
  | nest {call ops} (h : 0 < free) :
      Turns free nTasks ⟨.first call, ops⟩ ⟨⟨.nested call, ops⟩, free - 1, [], []⟩
  | unnest {call ops} :
      Turns free nTasks ⟨.nested call, ops⟩ ⟨⟨.linking call, ops⟩, free + 1, [], []⟩
  | lose {call ops} (h : call.pageRef = []) :
      Turns free nTasks ⟨.linking call, ops⟩ ⟨⟨.returning [], ops⟩, free, [], []⟩
  | commit {call ops} (h : call.pageRef ≠ []) :
      Turns free nTasks ⟨.linking call, ops⟩
        ⟨⟨.returning (taskWrites nTasks call.sectors), ops⟩, free,
          [taskWrites nTasks call.sectors], []⟩
  | finish {writes ops} :
      Turns free nTasks ⟨.returning writes, ops⟩ ⟨⟨.ready, ops⟩, free, [], writes⟩
  | searched {ops} : Turns free nTasks ⟨.searching, ops⟩ ⟨⟨.ready, ops⟩, free + 1, [], []⟩

theorem popQueryBuf_eq_some {free : Nat} {next : IoThread} {o : IoTurn}
    (h : popQueryBuf free next = some o) : 0 < free ∧ o = ⟨next, free - 1, [], []⟩ := by
  unfold popQueryBuf at h
  split at h
  · next hfree => exact ⟨hfree, (some.inj h).symm⟩
  · cases h

theorem turns_of_turn {free nTasks : Nat} {w : IoThread} {o : IoTurn}
    (h : w.turn free nTasks = some o) : Turns free nTasks w o := by
  obtain ⟨phase, ops⟩ := w
  cases phase with
  | ready =>
    cases ops with
    | nil => cases h
    | cons op ops =>
      cases op <;> obtain ⟨hfree, rfl⟩ := popQueryBuf_eq_some h
      · exact .insert hfree
      · exact .search hfree
  | first call =>
    obtain ⟨hfree, rfl⟩ := popQueryBuf_eq_some h
    exact .nest hfree
  | nested call =>
    cases h
    exact .unnest
  | linking call =>
    simp only [turn] at h
    by_cases hp : call.pageRef = []
    · rw [if_pos hp] at h
      cases h
      exact .lose hp
    · rw [if_neg hp] at h
      cases h
      exact .commit hp
  | returning writes =>
    cases h
    exact .finish
  | searching =>
    cases h
    exact .searched

end IoThread

end PipeANN
