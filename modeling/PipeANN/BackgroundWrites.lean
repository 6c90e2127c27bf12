import PipeANN.BackgroundIo
import PipeANN.GuardedRuns
import PipeANN.Holdings

/-! # Are the writes on disk when the merge goes on?

`merge_deletes` first waits until the queue `bg_tasks` is empty.  A task leaves the queue before
its writes are executed, so that an empty queue says nothing about the task that a background
thread has in hand.

A write that was queued is in one place: in the queue, in the hands of a background thread, or
on disk (`WritesInv`, with the books kept by `Balanced`).  At the end of the waiting loop the
first place is empty, and the writes of the inserts that had returned are on disk just if none
of them is in the second one (`executed_iff`).
-/
namespace PipeANN
open List
open Multiset (coe_add coe_nil mem_add)

/-- The writes that an insert is about to return with. -/
def IoPhase.writes : IoPhase → List PageWrite
  | .returning writes => writes
  | _ => []

def MergeWait.before : MergeWait → List PageWrite
  | .notCalled => []
  | .waiting before => before
  | .past before => before

theorem nodup_taskWrites (task : Nat) (sectors : List Nat) : (taskWrites task sectors).Nodup := by
  refine Nodup.of_map PageWrite.idx ?_
  have hidx : (taskWrites task sectors).map PageWrite.idx = range' 0 sectors.length := by
    rw [taskWrites, map_map]
    exact zipIdx_map_snd 0 sectors
  rw [hidx]
  exact nodup_range'

theorem task_of_mem_taskWrites {task : Nat} {sectors : List Nat} {w : PageWrite}
    (h : w ∈ taskWrites task sectors) : w.task = task := by
  obtain ⟨p, -, rfl⟩ := mem_map.mp h
  rfl

namespace IoThread

/-- A step queues nothing, or one task with a new number. -/
theorem turn_pushed {free nTasks : Nat} {w : IoThread} {o : IoTurn}
    (h : w.turn free nTasks = some o) :
    o.pushed = [] ∨ ∃ sectors, o.pushed = [taskWrites nTasks sectors] := by
  cases turns_of_turn h with
  | @commit call _ _ => exact .inr ⟨call.sectors, rfl⟩
  | _ => exact .inl rfl

/-- An insert returns with the writes it has queued. -/
theorem turn_writes {free nTasks : Nat} {w : IoThread} {o : IoTurn}
    (h : w.turn free nTasks = some o) {x : PageWrite}
    (hx : x ∈ o.returned ∨ x ∈ o.thread.phase.writes) :
    x ∈ w.phase.writes ∨ x ∈ o.pushed.flatten := by
  cases turns_of_turn h with
  | commit =>
    refine .inr ?_
    rw [flatten_singleton]
    exact hx.resolve_left not_mem_nil
  | finish => exact .inl (hx.resolve_right not_mem_nil)
  | _ => exact absurd hx (by simp [IoPhase.writes])

end IoThread

namespace IoState

/-- The writes that background thread `i` has in hand. -/
def inHand (s : IoState) (i : Nat) : Multiset PageWrite :=
  (((s.writers[i]?.getD none).getD [] : List PageWrite) : Multiset PageWrite)

/-- The writes that wait in the queue or have been executed. -/
def settled (s : IoState) : Multiset PageWrite :=
  (s.bgTasks.flatten : Multiset PageWrite) + (s.disk : Multiset PageWrite)

/-- The writes of inserts that have returned, are about to return, or returned before the
merge. -/
def Committed (s : IoState) (x : PageWrite) : Prop :=
  x ∈ s.returned ∨ (∃ w ∈ s.threads, x ∈ w.phase.writes) ∨ x ∈ s.merge.before

/-- Every write that was queued is in one place: the queue, a background thread, the disk. -/
structure WritesInv (s : IoState) (total : Multiset PageWrite) : Prop where
  balanced : Balanced s.inHand s.settled total
  nodup : total.Nodup
  task_lt : ∀ x ∈ total, x.task < s.nTasks
  committed : ∀ x, s.Committed x → x ∈ total

variable {s : IoState} {i : Nat} {j : Option (List PageWrite)}

theorem inHand_of (h : s.writers[i]? = some j) : s.inHand i = (j.getD [] : List PageWrite) := by
  rw [inHand, h, Option.getD_some]

theorem WritesInv.start (n m : Nat) (scripts : List (List Operation)) :
    WritesInv (start n m scripts) 0 where
  balanced := by
    refine Balanced.start (fun i => ?_) 0
    by_cases hi : i < m
    · exact inHand_of (j := none) (by simp [IoState.start, hi])
    · simp [inHand, IoState.start, hi]
  nodup := Multiset.nodup_zero
  task_lt x hx := absurd hx (Multiset.notMem_zero x)
  committed x hx := by
    rcases hx with hx | ⟨w, hw, hx⟩ | hx
    · exact absurd hx not_mem_nil
    · obtain ⟨ops, -, rfl⟩ := mem_map.mp hw
      exact absurd hx not_mem_nil
    · exact absurd hx not_mem_nil

variable {total : Multiset PageWrite}

theorem WritesInv.thread (h : WritesInv s total) {t : Nat} {w : IoThread} {o : IoTurn}
    (hw : s.threads[t]? = some w) (ho : w.turn s.free s.nTasks = some o) :
    WritesInv (s.afterTurn t o) (total + (o.pushed.flatten : Multiset PageWrite)) where
  balanced := by
    refine h.balanced.step 0 (fun _ _ => rfl) ?_
    simp only [settled, inHand, afterTurn, flatten_append, ← coe_add]
    abel
  nodup := by
    rcases IoThread.turn_pushed ho with he | ⟨sectors, he⟩
    · rw [he, flatten_nil, coe_nil, add_zero]
      exact h.nodup
    · rw [he, flatten_singleton]
      refine Multiset.nodup_add.mpr ⟨h.nodup, nodup_taskWrites s.nTasks sectors,
        Multiset.disjoint_left.mpr fun {x} hx hx' => ?_⟩
      -- the new task has a new number
      exact ne_of_lt (h.task_lt x hx) (task_of_mem_taskWrites hx')
  task_lt x hx := by
    rcases mem_add.mp hx with hx | hx
    · exact Nat.lt_add_right _ (h.task_lt x hx)
    · rcases IoThread.turn_pushed ho with he | ⟨sectors, he⟩
      · rw [he] at hx
        exact absurd hx not_mem_nil
      · rw [he, flatten_singleton] at hx
        rw [task_of_mem_taskWrites hx, afterTurn, he]
        exact Nat.lt_succ_self _
  committed x hx := by
    have hthread : x ∈ o.returned ∨ x ∈ o.thread.phase.writes →
        x ∈ total + (o.pushed.flatten : Multiset PageWrite) := by
      intro hx
      rcases IoThread.turn_writes ho hx with hx | hx
      · exact mem_add.mpr (.inl (h.committed x (.inr (.inl ⟨w, mem_of_getElem? hw, hx⟩))))
      · exact mem_add.mpr (.inr hx)
    have hold : s.Committed x → x ∈ total + (o.pushed.flatten : Multiset PageWrite) :=
      fun hx => mem_add.mpr (.inl (h.committed x hx))
    rcases hx with hx | ⟨w', hw', hx⟩ | hx
    · rcases mem_append.mp hx with hx | hx
      · exact hold (.inl hx)
      · exact hthread (.inl hx)
    · rcases mem_or_eq_of_mem_set hw' with hmem | rfl
      · exact hold (.inr (.inl ⟨w', hmem, hx⟩))
      · exact hthread (.inr hx)
    · exact hold (.inr (.inr hx))

variable {s' : IoState}

/-- A background thread moves its writes between the queue, its hands and the disk. -/
theorem WritesInv.hands (h : WritesInv s total)
    {j' : Option (List PageWrite)} (hj : s.writers[i]? = some j)
    (hw : s'.writers = s.writers.set i j')
    (hlocal : ((j'.getD [] : List PageWrite) : Multiset PageWrite) + s'.settled =
      (j.getD [] : List PageWrite) + s.settled) :
    Balanced s'.inHand s'.settled total := by
  refine h.balanced.step i (fun k hk => ?_) ?_
  · rw [inHand, hw, getElem?_set_ne hk.symm, inHand]
  · have hi : i < s.writers.length := (List.getElem?_eq_some_iff.mp hj).1
    have hj' : s'.writers[i]? = some j' := by rw [hw, getElem?_set_self hi]
    rw [inHand_of hj, inHand_of hj', hlocal]

theorem WritesInv.bgIoThread (h : WritesInv s total)
    (hj : s.writers[i]? = some j) (hs : s.bgIoThread i j = some s') : WritesInv s' total := by
  rcases bgIoThread_cases hs with ⟨writes, rest, rfl, ht, rfl⟩ | ⟨w, rest, rfl, rfl⟩ | ⟨rfl, rfl⟩
  · refine { h with balanced := h.hands hj rfl ?_ }
    simp only [settled, ht, Option.getD_some, flatten_cons, ← coe_add]
    abel
  · refine { h with balanced := h.hands hj rfl ?_ }
    simp only [settled, Option.getD_some, ← coe_add, ← Multiset.cons_coe,
      ← Multiset.singleton_add]
    abel
  · exact { h with balanced := h.hands hj rfl rfl }

theorem WritesInv.step {a : IoAction} (h : ∃ total, WritesInv s total)
    (hs : IoState.step s a = some s') : ∃ total, WritesInv s' total := by
  obtain ⟨total, h⟩ := h
  rcases step_cases hs with ⟨t, w, o, -, hw, ho, rfl⟩ | ⟨i, j, -, hj, hs⟩ | ⟨-, rfl⟩ |
    ⟨before, -, hm, -, rfl⟩
  · exact ⟨_, h.thread hw ho⟩
  · exact ⟨total, h.bgIoThread hj hs⟩
  · refine ⟨total, { h with committed := fun x hx => h.committed x ?_ }⟩
    rcases hx with hx | hx | hx
    · exact .inl hx
    · exact .inr (.inl hx)
    · exact .inl hx
  · refine ⟨total, { h with committed := fun x hx => h.committed x ?_ }⟩
    rcases hx with hx | hx | hx
    · exact .inl hx
    · exact .inr (.inl hx)
    · refine .inr (.inr ?_)
      rw [hm]
      exact hx

/-- **When the merge goes on**, the writes of the inserts that returned before it was called
are executed just if no background thread has one of them in hand. -/
theorem executed_iff {n m : Nat} {scripts : List (List Operation)} {s s' : IoState}
    (h : Reach step anyStep (start n m scripts) s) (hexit : step s .exitMerge = some s') :
    (∀ x ∈ s'.merge.before, x ∈ s'.disk) ↔
      ∀ (i : Nat) (writes : List PageWrite), s.writers[i]? = some (some writes) →
        ∀ x ∈ writes, x ∉ s.merge.before := by
  obtain ⟨total, hinv⟩ : ∃ total, WritesInv s total :=
    h.invariant (I := fun s => ∃ total, WritesInv s total) ⟨0, WritesInv.start n m scripts⟩
      fun _ _ _ hinv _ hs => WritesInv.step hinv hs
  obtain ⟨before, hm, htasks, rfl⟩ : ∃ before, s.merge = .waiting before ∧ s.bgTasks = [] ∧
      s' = { s with merge := .past before } := by
    rcases step_cases hexit with ⟨t, w, o, ha, -⟩ | ⟨i, j, ha, -⟩ | ⟨ha, -⟩ | ⟨before, -, hexit⟩
    · cases ha
    · cases ha
    · cases ha
    · exact ⟨before, hexit⟩
  have hsettled : s.settled = (s.disk : Multiset PageWrite) := by
    rw [settled, htasks, flatten_nil, coe_nil, zero_add]
  have hbalanced := hsettled ▸ hinv.balanced
  rw [hm]
  constructor
  · intro hall i writes hw x hx hbefore
    have hhand : x ∈ s.inHand i := by
      rw [inHand_of hw]
      exact hx
    exact hbalanced.key_ne (by rw [Multiset.map_id]; exact hinv.nodup) hhand
      (hall x hbefore) rfl
  · intro hnone x hx
    have htotal : x ∈ total := hinv.committed x (.inr (.inr (by rw [hm]; exact hx)))
    refine hbalanced.mem_store htotal fun i hhand => ?_
    cases hw : s.writers[i]? with
    | none =>
      rw [inHand, hw] at hhand
      exact absurd hhand not_mem_nil
    | some j =>
      rw [inHand_of hw] at hhand
      cases j with
      | none => exact absurd hhand not_mem_nil
      | some writes => exact hnone i writes hw x hhand hx

/-- One thread, one insert of one page. -/
def oneInsert : List (List Operation) := [[.insert ⟨[7], [7]⟩]]

/-- A run up to the end of the waiting loop, with what was returned before and what is on disk
after it. -/
def runExit (l : List IoAction) : Option (List PageWrite × List PageWrite) :=
  (runSteps step (start 1 1 oneInsert) l).bind fun s =>
    (step s .exitMerge).map fun s' => (s'.merge.before, s'.disk)

theorem exists_of_runExit {l : List IoAction} {before disk : List PageWrite}
    (h : runExit l = some (before, disk)) :
    ∃ s s', Reach step anyStep (start 1 1 oneInsert) s ∧ step s .exitMerge = some s' ∧
      runSteps step (start 1 1 oneInsert) l = some s ∧ s'.merge.before = before ∧
      s'.disk = disk := by
  obtain ⟨s, hrun, h⟩ := Option.bind_eq_some_iff.mp h
  obtain ⟨s', hexit, h⟩ := Option.map_eq_some_iff.mp h
  obtain ⟨hbefore, hdisk⟩ := Prod.mk.inj h
  exact ⟨s, s', Reach.of_run hrun, hexit, hrun, hbefore, hdisk⟩

/-- The insert returns, the background thread writes its page, and the merge is called. -/
def writeFirst : List IoAction :=
  List.replicate 5 (.thread 0) ++ [.writer 0, .writer 0, .callMerge]

theorem executed_oneInsert :
    ∃ s s', Reach step anyStep (start 1 1 oneInsert) s ∧ step s .exitMerge = some s' ∧
      s'.merge.before = [⟨0, 0, 7⟩] ∧ ∀ x ∈ s'.merge.before, x ∈ s'.disk := by
  obtain ⟨s, s', hreach, hexit, hrun, hbefore, -⟩ :=
    exists_of_runExit (show runExit writeFirst = some ([⟨0, 0, 7⟩], [⟨0, 0, 7⟩]) by
      decide +kernel)
  refine ⟨s, s', hreach, hexit, hbefore, (executed_iff hreach hexit).mpr fun i writes hw x hx => ?_⟩
  have hwriters : (runSteps step (start 1 1 oneInsert) writeFirst).map writers =
      some [some []] := by decide +kernel
  rw [hrun] at hwriters
  rw [Option.some.inj hwriters] at hw
  obtain rfl : [] = writes :=
    Option.some.inj (mem_singleton.mp (mem_of_getElem? hw)).symm
  exact absurd hx not_mem_nil

/-- The insert returns, the background thread takes its task, and the merge is called. -/
def takeFirst : List IoAction :=
  List.replicate 5 (.thread 0) ++ [.writer 0, .callMerge]

/-- **The merge goes on before a write is executed**: the background thread has taken the task
of the insert from the queue and has not written its page. -/
theorem exitMerge_before_write :
    ∃ s s', Reach step anyStep (start 1 1 oneInsert) s ∧ step s .exitMerge = some s' ∧
      s'.merge.before = [⟨0, 0, 7⟩] ∧ s'.disk = [] := by
  obtain ⟨s, s', hreach, hexit, -, hbefore, hdisk⟩ :=
    exists_of_runExit (show runExit takeFirst = some ([⟨0, 0, 7⟩], []) by decide +kernel)
  exact ⟨s, s', hreach, hexit, hbefore, hdisk⟩

end IoState
end PipeANN
