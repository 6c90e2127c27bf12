import PipeANN.BackgroundIo
import PipeANN.GuardedRuns
import PipeANN.PartyLists

/-! # Can everybody wait for a buffer?

An insert that holds its first buffer and has not finished its search is *pending*.  If all
buffers are with pending inserts, then nobody moves: each waits for a buffer that another one
holds (`exists_stuck`).

Otherwise there is always a buffer with somebody who does not wait: the pool, a search, the
search of an insert, an insert that is past its search, a task, or a background thread.  This is
an argument by counting (`PoolInv`), and it goes through in the runs in which inserts begin only
while there would be fewer pending ones than buffers (`Admits`).  The insert must not lose its
buffer either, which is what happens to one that refers to no page when it commits (`Refers`).
-/
namespace PipeANN
open List Function IoThread

/-! ## How much is left to do, and who has the buffers -/

/-- The steps of the background thread that a commit calls for. -/
def InsertCall.cost (call : InsertCall) : Nat := call.sectors.length + 2

def Operation.work : Operation → Nat
  | .insert call => call.cost + 5
  | .search => 2

def IoPhase.work : IoPhase → Nat
  | .ready => 0
  | .first call => call.cost + 4
  | .nested call => call.cost + 3
  | .linking call => call.cost + 2
  | .returning _ => 1
  | .searching => 1

/-- The buffers that a thread holds. -/
def IoPhase.held : IoPhase → Nat
  | .ready => 0
  | .first _ => 1
  | .nested _ => 2
  | .linking _ => 1
  | .returning _ => 0
  | .searching => 1

/-- The insert that the thread is in, until it commits. -/
def IoPhase.call? : IoPhase → Option InsertCall
  | .first call => some call
  | .nested call => some call
  | .linking call => some call
  | _ => none

/-- One for an insert that has its first buffer and has not finished its search. -/
def IoPhase.pending : IoPhase → Nat
  | .first _ => 1
  | .nested _ => 1
  | _ => 0

def IoThread.work (w : IoThread) : Nat := w.phase.work + (w.ops.map Operation.work).sum

def taskWork (writes : List PageWrite) : Nat := writes.length + 2

def writerWork : Option (List PageWrite) → Nat
  | none => 0
  | some writes => writes.length + 1

/-- One for a background thread with a task in hand. -/
def writerHeld : Option (List PageWrite) → Nat
  | none => 0
  | some _ => 1

theorem length_taskWrites (task : Nat) (sectors : List Nat) :
    (taskWrites task sectors).length = sectors.length := by
  rw [taskWrites, length_map, length_zipIdx]

namespace IoThread

variable {free nTasks : Nat} {w : IoThread} {o : IoTurn}

section
variable (h : w.turn free nTasks = some o)
include h

/-- A step is work done, whatever it leaves to the background threads. -/
theorem turn_work : o.thread.work + (o.pushed.map taskWork).sum < w.work := by
  cases turns_of_turn h with
  | commit =>
    simp only [work, IoPhase.work, taskWork, InsertCall.cost, length_taskWrites, map_cons,
      map_nil, sum_cons, sum_nil]
    omega
  | _ =>
    simp only [work, IoPhase.work, Operation.work, map_cons, map_nil, sum_cons, sum_nil]
    omega

/-- Whether the pool can stand the next step of a thread: it does not begin an insert that
would leave no buffer to the pending ones. -/
def Admitted (n pending : Nat) (w : IoThread) : Prop :=
  match w with
  | ⟨.ready, .insert _ :: _⟩ => pending + 1 < n * 2
  | _ => True

instance (n pending : Nat) (w : IoThread) : Decidable (w.Admitted n pending) := by
  unfold Admitted
  split <;> infer_instance

/-- All inserts of the thread refer to some page when they commit. -/
def Refers (w : IoThread) : Prop :=
  (∀ call ∈ w.phase.call?, call.pageRef ≠ []) ∧
    ∀ call, Operation.insert call ∈ w.ops → call.pageRef ≠ []

theorem turn_refers (hw : w.Refers) : o.thread.Refers := by
  obtain ⟨hphase, hops⟩ := hw
  have hnone : ∀ call ∈ (none : Option InsertCall), call.pageRef ≠ [] := fun _ hc => by cases hc
  cases turns_of_turn h with
  | insert =>
    refine ⟨fun call hcall => ?_, fun call hcall => hops call (mem_cons_of_mem _ hcall)⟩
    cases hcall
    exact hops _ mem_cons_self
  | search => exact ⟨hnone, fun call hcall => hops call (mem_cons_of_mem _ hcall)⟩
  | nest | unnest => exact ⟨hphase, hops⟩
  | _ => exact ⟨hnone, hops⟩

/-- Buffers go from hand to hand. -/
theorem turn_held (hw : w.Refers) :
    o.free + o.thread.phase.held + o.pushed.length = free + w.phase.held := by
  cases turns_of_turn h with
  | lose hp => exact absurd hp (hw.1 _ rfl)
  | insert hfree | search hfree | nest hfree =>
    simp only [IoPhase.held, length_nil]
    omega
  | _ => simp only [IoPhase.held, length_nil, length_singleton]

theorem turn_pending {n pending : Nat} (hw : w.Admitted n pending) :
    o.thread.phase.pending ≤ w.phase.pending ∨
      o.thread.phase.pending = w.phase.pending + 1 ∧ pending + 1 < n * 2 := by
  cases turns_of_turn h with
  | insert => exact .inr ⟨rfl, hw⟩
  | _ => exact .inl (by simp [IoPhase.pending])

end

end IoThread

namespace IoState

variable (s : IoState)

/-- The steps that all threads together still have to take. -/
def work : Nat :=
  (s.threads.map IoThread.work).sum + (s.bgTasks.map taskWork).sum +
    (s.writers.map writerWork).sum

/-- The number of pending inserts. -/
def pending : Nat := (s.threads.map fun w => w.phase.pending).sum

/-- The buffers that the threads hold. -/
def held : Nat := (s.threads.map fun w => w.phase.held).sum

/-- All operations are over and all their writes are executed. -/
def Completed : Prop :=
  (∀ w ∈ s.threads, w = ⟨.ready, []⟩) ∧ s.bgTasks = [] ∧ ∀ j ∈ s.writers, j = none

variable {s : IoState}

theorem work_thread {t : Nat} {w : IoThread} {o : IoTurn} (hw : s.threads[t]? = some w)
    (ho : w.turn s.free s.nTasks = some o) : (s.afterTurn t o).work < s.work := by
  have hset := sum_map_set (f := IoThread.work) hw o.thread
  have hturn := IoThread.turn_work ho
  simp only [work, afterTurn, map_append, sum_append]
  omega

variable {s' : IoState} {j : Option (List PageWrite)}

theorem work_writer {i : Nat}
    (hj : s.writers[i]? = some j) (h : s.bgIoThread i j = some s') : s'.work < s.work := by
  have hset := fun j' => sum_map_set (f := writerWork) hj j'
  rcases bgIoThread_cases h with ⟨writes, rest, rfl, ht, rfl⟩ | ⟨w, rest, rfl, rfl⟩ | ⟨rfl, rfl⟩
  · have := hset (some writes)
    simp only [work, ht, writerWork, taskWork, map_cons, sum_cons] at this ⊢
    omega
  · have := hset (some rest)
    simp only [work, writerWork, length_cons] at this ⊢
    omega
  · have := hset none
    simp only [work, writerWork] at this ⊢
    omega

/-! ## Progress -/

/-- The runs that the pool can stand. -/
def Admits (n : Nat) (s : IoState) : IoAction → Prop
  | .thread t => ∀ w ∈ s.threads[t]?, w.Admitted n s.pending
  | _ => True

instance (n : Nat) (s : IoState) : (a : IoAction) → Decidable (Admits n s a)
  | .thread t => inferInstanceAs (Decidable (∀ w ∈ s.threads[t]?, w.Admitted n s.pending))
  | .writer _ => isTrue trivial
  | .callMerge => isTrue trivial
  | .exitMerge => isTrue trivial

/-- No buffer is lost, and one is not with a pending insert. -/
structure PoolInv (n : Nat) (s : IoState) : Prop where
  conserved : s.free + s.held + s.bgTasks.length + (s.writers.map writerHeld).sum = n * 2
  pending_lt : s.pending < n * 2
  writer : 0 < s.writers.length
  refers : ∀ w ∈ s.threads, w.Refers

variable {n : Nat}

theorem PoolInv.thread (h : PoolInv n s) {t : Nat} {w : IoThread}
    {o : IoTurn} (hw : s.threads[t]? = some w) (ho : w.turn s.free s.nTasks = some o)
    (hadm : w.Admitted n s.pending) : PoolInv n (s.afterTurn t o) where
  conserved := by
    have hset := sum_map_set (f := fun w => w.phase.held) hw o.thread
    have hturn := turn_held ho (h.refers w (mem_of_getElem? hw))
    have hinv := h.conserved
    simp only [held, afterTurn, length_append] at hinv ⊢
    omega
  pending_lt := by
    have hset := sum_map_set (f := fun w => w.phase.pending) hw o.thread
    have hturn := turn_pending ho hadm
    have hinv := h.pending_lt
    simp only [pending, afterTurn] at hinv hturn ⊢
    omega
  writer := h.writer
  refers w' hw' := by
    rcases mem_or_eq_of_mem_set hw' with hmem | rfl
    · exact h.refers w' hmem
    · exact turn_refers ho (h.refers w (mem_of_getElem? hw))

theorem PoolInv.bgIoThread (h : PoolInv n s) {i : Nat} (hj : s.writers[i]? = some j)
    (hs : s.bgIoThread i j = some s') : PoolInv n s' := by
  have hset := fun j' => sum_map_set (f := writerHeld) hj j'
  have hne (j') : 0 < (s.writers.set i j').length := by
    rw [length_set]
    exact h.writer
  have hinv := h.conserved
  rcases bgIoThread_cases hs with ⟨writes, rest, rfl, ht, rfl⟩ | ⟨w, rest, rfl, rfl⟩ | ⟨rfl, rfl⟩
  all_goals refine ⟨?_, h.pending_lt, hne _, h.refers⟩
  · have := hset (some writes)
    simp only [ht, held, writerHeld, length_cons] at this hinv ⊢
    omega
  · have := hset (some rest)
    simp only [held, writerHeld] at this hinv ⊢
    omega
  · have := hset none
    simp only [held, writerHeld] at this hinv ⊢
    omega

theorem PoolInv.step {a : IoAction} (h : PoolInv n s)
    (ha : Admits n s a) (hs : IoState.step s a = some s') : PoolInv n s' := by
  rcases step_cases hs with ⟨t, w, o, rfl, hw, ho, rfl⟩ | ⟨i, j, rfl, hj, hs⟩ | ⟨rfl, rfl⟩ |
    ⟨before, rfl, -, -, rfl⟩
  · exact h.thread hw ho (ha w hw)
  · exact h.bgIoThread hj hs
  · exact { h with }
  · exact { h with }

/-- A background thread can move while there is a task. -/
theorem PoolInv.exists_writer (h : PoolInv n s)
    (hbusy : s.bgTasks ≠ [] ∨ ∃ j ∈ s.writers, j ≠ none) :
    ∃ i s', IoState.step s (.writer i) = some s' ∧ s'.work < s.work := by
  have hstep : ∀ i j, s.writers[i]? = some j → (∃ s', s.bgIoThread i j = some s') →
      ∃ i s', IoState.step s (.writer i) = some s' ∧ s'.work < s.work := by
    rintro i j hj ⟨s', hs⟩
    exact ⟨i, s', by rw [IoState.step, hj, Option.bind_some, hs], work_writer hj hs⟩
  by_cases hw : ∃ j ∈ s.writers, j ≠ none
  · obtain ⟨j, hmem, hne⟩ := hw
    obtain ⟨i, hi⟩ := mem_iff_getElem?.mp hmem
    rcases j with _ | _ | ⟨w, rest⟩
    · exact absurd rfl hne
    · exact hstep i _ hi ⟨_, rfl⟩
    · exact hstep i _ hi ⟨_, rfl⟩
  · -- all background threads are idle, and the first one takes the task
    have hidle : s.writers[0]? = some none := by
      have h0 := getElem?_eq_getElem h.writer
      rw [h0, Classical.byContradiction fun hne => hw ⟨_, getElem_mem h.writer, hne⟩]
    obtain ⟨writes, rest, ht⟩ := exists_cons_of_ne_nil (hbusy.resolve_right hw)
    refine hstep 0 none hidle ⟨?_, ?_⟩
    · exact { s with bgTasks := rest, writers := s.writers.set 0 (some writes) }
    · rw [IoState.bgIoThread, ht]

end IoState

/-- A thread that needs no buffer for its next step. -/
def IoPhase.goesOn : IoPhase → Bool
  | .ready => false
  | .first _ => false
  | _ => true

theorem IoThread.turn_of_goesOn {w : IoThread} (h : w.phase.goesOn) (free nTasks : Nat) :
    ∃ o, w.turn free nTasks = some o := by
  obtain ⟨phase, ops⟩ := w
  cases phase with
  | ready => cases h
  | first call => cases h
  | linking call =>
    by_cases hp : call.pageRef = []
    · exact ⟨_, if_pos hp⟩
    · exact ⟨_, if_neg hp⟩
  | _ => exact ⟨_, rfl⟩

theorem IoPhase.held_of_not_goesOn {p : IoPhase} (h : ¬ p.goesOn) : p.held = p.pending := by
  cases p with
  | ready | first => rfl
  | _ => exact absurd rfl h

theorem IoThread.popQueryBuf_of_pos {free : Nat} (h : 0 < free) (next : IoThread) :
    ∃ o, popQueryBuf free next = some o :=
  ⟨_, if_pos h⟩

namespace IoState

variable {n : Nat} {s : IoState}

/-- A thread can move if nothing is left to the background threads. -/
theorem PoolInv.exists_thread (h : PoolInv n s) (hn : 0 < n) (htasks : s.bgTasks = [])
    (hidle : ∀ j ∈ s.writers, j = none) (hleft : ∃ w ∈ s.threads, w ≠ ⟨.ready, []⟩) :
    ∃ t s', Admits n s (.thread t) ∧ IoState.step s (.thread t) = some s' ∧ s'.work < s.work := by
  have hstep : ∀ w ∈ s.threads, w.Admitted n s.pending → (∃ o, w.turn s.free s.nTasks = some o) →
      ∃ t s', Admits n s (.thread t) ∧ IoState.step s (.thread t) = some s' ∧ s'.work < s.work := by
    rintro w hmem hadm ⟨o, ho⟩
    obtain ⟨t, ht⟩ := mem_iff_getElem?.mp hmem
    refine ⟨t, s.afterTurn t o, fun w' hw' => ?_, ?_, work_thread ht ho⟩
    · obtain rfl : w = w' := Option.some.inj (ht.symm.trans hw')
      exact hadm
    · rw [IoState.step, ht, Option.bind_some, ho, Option.map_some]
  by_cases hgo : ∃ w ∈ s.threads, w.phase.goesOn
  · obtain ⟨⟨phase, ops⟩, hmem, hgo⟩ := hgo
    refine hstep _ hmem ?_ (turn_of_goesOn hgo ..)
    cases phase with
    | ready => cases hgo
    | _ => trivial
  · -- only pending inserts hold buffers, so that the pool has one
    have hall : ∀ w ∈ s.threads, ¬ w.phase.goesOn := fun w hw hg => hgo ⟨w, hw, hg⟩
    have hheld : s.held = s.pending := by
      rw [held, pending, map_congr_left fun w hw => IoPhase.held_of_not_goesOn (hall w hw)]
    have hbusy : (s.writers.map writerHeld).sum = 0 := by
      rw [map_congr_left (g := fun _ => 0) fun j hj => by rw [hidle j hj, writerHeld]]
      simp
    have hfree : 0 < s.free := by
      have hinv := h.conserved
      have hlt := h.pending_lt
      rw [htasks, length_nil] at hinv
      omega
    by_cases hfirst : ∃ w ∈ s.threads, ∃ call, w.phase = .first call
    · obtain ⟨⟨phase, ops⟩, hmem, call, rfl⟩ := hfirst
      exact hstep _ hmem trivial (popQueryBuf_of_pos hfree _)
    · -- no insert is pending, and the next operation can begin
      have hready : ∀ w ∈ s.threads, w.phase = .ready := by
        intro w hw
        have hng := hall w hw
        cases hp : w.phase with
        | ready => rfl
        | first call => exact absurd ⟨w, hw, call, hp⟩ hfirst
        | _ => exact absurd (by rw [hp]; rfl) hng
      have hpending : s.pending = 0 := by
        rw [pending, map_congr_left (g := fun _ => 0) fun w hw =>
          congrArg IoPhase.pending (hready w hw)]
        simp
      obtain ⟨⟨phase, ops⟩, hmem, hne⟩ := hleft
      obtain rfl : phase = .ready := hready _ hmem
      rcases ops with _ | ⟨_ | _, ops⟩
      · exact absurd rfl hne
      · exact hstep _ hmem (by rw [hpending]; show 0 + 1 < n * 2; omega)
          (popQueryBuf_of_pos hfree _)
      · exact hstep _ hmem trivial (popQueryBuf_of_pos hfree _)

/-- Some thread can move, within the runs that the pool can stand. -/
theorem PoolInv.exists_admitted (h : PoolInv n s) (hn : 0 < n) (hs : ¬ s.Completed) :
    ∃ a s', Admits n s a ∧ IoState.step s a = some s' ∧ s'.work < s.work := by
  by_cases hbusy : s.bgTasks ≠ [] ∨ ∃ j ∈ s.writers, j ≠ none
  · obtain ⟨i, s', hstep, hlt⟩ := h.exists_writer hbusy
    exact ⟨.writer i, s', trivial, hstep, hlt⟩
  · obtain ⟨htasks, hidle⟩ := not_or.mp hbusy
    have htasks : s.bgTasks = [] := Decidable.not_not.mp htasks
    have hidle : ∀ j ∈ s.writers, j = none := fun j hj =>
      Classical.byContradiction fun hne => hidle ⟨j, hj, hne⟩
    have hleft : ∃ w ∈ s.threads, w ≠ ⟨.ready, []⟩ :=
      Classical.byContradiction fun hno => hs
        ⟨fun w hw => Classical.byContradiction fun hne => hno ⟨w, hw, hne⟩, htasks, hidle⟩
    obtain ⟨t, s', hadm, hstep, hlt⟩ := h.exists_thread hn htasks hidle hleft
    exact ⟨.thread t, s', hadm, hstep, hlt⟩

section
variable {m : Nat} (hn : 0 < n) (hm : 0 < m) {scripts : List (List Operation)}
  (hrefs : ∀ ops ∈ scripts, ∀ call, .insert call ∈ ops → call.pageRef ≠ [])
include hn hm hrefs

theorem PoolInv.start : PoolInv n (start n m scripts) where
  conserved := by
    have hheld : (IoState.start n m scripts).held = 0 := by
      simp [held, IoState.start, comp_def, IoPhase.held]
    rw [hheld]
    simp [IoState.start, writerHeld]
  pending_lt := by
    have hpending : (IoState.start n m scripts).pending = 0 := by
      simp [pending, IoState.start, comp_def, IoPhase.pending]
    omega
  writer := by
    rw [IoState.start, length_replicate]
    exact hm
  refers w hw := by
    obtain ⟨ops, hops, rfl⟩ := mem_map.mp hw
    exact ⟨fun call hcall => (by cases hcall), hrefs ops hops⟩

theorem poolInv_of_reach (h : Reach step (Admits n) (start n m scripts) s) : PoolInv n s :=
  h.invariant (PoolInv.start hn hm hrefs) fun _ _ _ hinv ha hs => hinv.step ha hs

/-- **The pool does not block.**  As long as inserts begin only while there would be fewer
pending ones than buffers, and every insert refers to a page when it commits, some thread can
move in every state that is not the end, and all operations can be completed from there. -/
theorem exists_completed {s : IoState} (h : Reach step (Admits n) (start n m scripts) s) :
    (s.Completed ∨ ∃ a s', Admits n s a ∧ step s a = some s' ∧ s'.work < s.work) ∧
      ∃ t, Reach step (Admits n) s t ∧ t.Completed := by
  have hstep : ∀ s, Reach step (Admits n) (start n m scripts) s → ¬ s.Completed →
      ∃ a s', Admits n s a ∧ step s a = some s' ∧ s'.work < s.work :=
    fun s hs => (poolInv_of_reach hn hm hrefs hs).exists_admitted hn
  refine ⟨?_, h.exists_done hstep⟩
  by_cases hdone : s.Completed
  · exact .inl hdone
  · exact .inr (hstep s h hdone)

end

/-- Two threads with an insert each, and one with a search. -/
def threeThreads : List (List Operation) :=
  [[.insert ⟨[3], [3]⟩], [.insert ⟨[5], [5]⟩], [.search]]

theorem exists_completed_threeThreads :
    ∃ s, Reach step (Admits 2) (start 2 1 threeThreads) s ∧ s.pending = 2 ∧
      ∃ t, Reach step (Admits 2) s t ∧ t.Completed := by
  have hrun : ((runSteps (fun s a => if Admits 2 s a then step s a else none)
      (start 2 1 threeThreads) [.thread 0, .thread 2, .thread 1]).map pending) = some 2 := by
    decide +kernel
  obtain ⟨s, hs, hp⟩ := Option.map_eq_some_iff.mp hrun
  have hreach := Reach.of_run_checked hs
  exact ⟨s, hreach, hp,
    (exists_completed (by decide) (by decide) (by simp [threeThreads]) hreach).2⟩

/-- Two inserts with their first buffers, and no other buffer. -/
def bothPending : IoState where
  free := 0
  threads := [⟨.first ⟨[3], [3]⟩, []⟩, ⟨.first ⟨[5], [5]⟩, []⟩]
  bgTasks := []
  nTasks := 0
  writers := [none]
  disk := []
  returned := []
  merge := .notCalled

/-- **Two inserts block each other** if `max_nthreads` is one: each has a buffer and waits for
another one, and neither they nor the background thread can move. -/
theorem exists_stuck :
    Reach step anyStep (start 1 1 [[.insert ⟨[3], [3]⟩], [.insert ⟨[5], [5]⟩]]) bothPending ∧
      ¬ bothPending.Completed ∧ (∀ t, step bothPending (.thread t) = none) ∧
      ∀ i, step bothPending (.writer i) = none := by
  refine ⟨Reach.of_run (l := [.thread 0, .thread 1]) rfl, fun h => ?_, fun t => ?_, fun i => ?_⟩
  · have hfirst := h.1 ⟨.first ⟨[3], [3]⟩, []⟩ mem_cons_self
    cases hfirst
  · rcases t with _ | _ | t <;> rfl
  · rcases i with _ | i <;> rfl

end IoState

end PipeANN
