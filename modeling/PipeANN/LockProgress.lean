import PipeANN.GuardedRuns
import PipeANN.LockProtocol
import PipeANN.PartyLists

/-! # The locks of inserts and searches do not block each other

In every state reached in which something is left to do, some thread or background thread takes
a step (`exists_step`).  The words of the three tables are what the holders make them
(`LockInv`), so that a lock that cannot be taken is held by somebody.  With everybody waiting,
nobody holds an id for writing: an insert that has one of its ids and cannot get the next one
releases what it has.  Hence no search waits, hence nobody holds an id at all, and no insert
waits for one.  The waiters for vectors are ordered by what they wait for, since each has taken
its locks in ascending order, and the one that waits for the largest waits for a lock that nobody
holds (`RwLock.eq_nil_of_larger`); then the same is said of the pages.
-/
namespace PipeANN
open List RwLock SortedLists LockThread Option

/-! ## The two loops -/

variable {l : List Nat} {k : Nat}

theorem take_of_getElem?_none (h : l[k]? = none) : l.take k = l :=
  take_of_length_le (getElem?_eq_none_iff.mp h)

theorem take_of_getElem? {x : Nat} (h : l[k]? = some x) : l.take (k + 1) = l.take k ++ [x] := by
  rw [take_add_one, h, toList_some]

/-- The locks taken so far come before the next one. -/
theorem lt_of_mem_take {x y : Nat} (h : Ascending l) (hx : x ∈ l.take k)
    (hy : l[k]? = some y) : x < y := by
  have htake : Ascending (l.take k ++ [y]) := take_of_getElem? hy ▸ h.sublist (take_sublist ..)
  exact (pairwise_append.mp htake).2.2 x hx y (mem_singleton_self y)

section
variable {tbl : Nat → Int} {l : List Nat} {k : Nat} {after o : LockTurn}
  {next : (Nat → Int) → LockTurn}

/-- All locks of the list are held at the end of the loop, and one more after each step. -/
theorem lockNext_eq_some (h : lockNext tbl l k after next = some o) : (l.take k = l ∧ o = after) ∨
      ∃ tbl', (∀ rd, Keeps tbl tbl' (l.take k) rd (l.take (k + 1)) rd) ∧ o = next tbl' := by
  unfold lockNext at h
  split at h
  · next hk => exact .inl ⟨take_of_getElem?_none hk, (some.inj h).symm⟩
  · next hk =>
    obtain ⟨tbl', htbl, rfl⟩ := map_eq_some_iff.mp h
    refine .inr ⟨tbl', fun rd => ?_, rfl⟩
    rw [take_of_getElem? hk]
    exact .lockWrite htbl

theorem lockNext_eq_none (h : lockNext tbl l k after next = none) :
    ∃ x, l[k]? = some x ∧ tryWrite (tbl x) = none := by
  unfold lockNext at h
  split at h
  · cases h
  · next x hk => exact ⟨x, hk, map_eq_none_iff.mp (map_eq_none_iff.mp h)⟩

/-- No lock of the list is held at the end of the loop, and one less after each step. -/
theorem unlockNext_eq_some (h : unlockNext tbl l k after next = some o) :
    (l.drop k = [] ∧ o = after) ∨
      ∃ tbl', (∀ rd, Keeps tbl tbl' (l.drop k) rd (l.drop (k + 1)) rd) ∧ o = next tbl' := by
  unfold unlockNext at h
  split at h
  · next hk =>
    exact .inl ⟨drop_eq_nil_of_le (getElem?_eq_none_iff.mp hk), (some.inj h).symm⟩
  · next hk =>
    obtain ⟨hlt, rfl⟩ := List.getElem?_eq_some_iff.mp hk
    exact .inr ⟨_, fun rd => .unlockWrite (.of_eq (drop_eq_getElem_cons hlt)), (some.inj h).symm⟩

end

namespace LockThread

/-! ## What a thread holds -/

def pageHeld : LockThread → List Nat
  | .lockPages u k => u.pages.take k
  | .lockVecs u _ | .lockIdx u _ | .releaseIdx u _ | .unlockIdx u _ | .unlockVecs u _
  | .commit u => u.pages
  | .unlockPages u k => u.pages.drop k
  | _ => []

def vecHeld : LockThread → List Nat
  | .lockVecs u k => u.ids.take k
  | .lockIdx u _ | .releaseIdx u _ | .unlockIdx u _ => u.ids
  | .unlockVecs u k => u.ids.drop k
  | _ => []

/-- The ids that are locked for writing. -/
def idxHeld : LockThread → List Nat
  | .lockIdx u k => u.ids.take k
  | .releaseIdx _ held => held
  | .unlockIdx u k => u.ids.drop k
  | _ => []

/-- The ids that are locked for reading. -/
def readHeld : LockThread → List Nat
  | .searching _ inFlight _ => inFlight
  | _ => []

/-- A thread keeps the three tables right, if the pages it hands over still count as held. -/
structure KeepsTables (T : LockTables) (w : LockThread) (o : LockTurn) : Prop where
  page : Keeps T.page o.tables.page w.pageHeld [] (o.pushed.flatten ++ o.thread.pageHeld) []
  vec : Keeps T.vec o.tables.vec w.vecHeld [] o.thread.vecHeld []
  idx : Keeps T.idx o.tables.idx w.idxHeld w.readHeld o.thread.idxHeld o.thread.readHeld

variable {T : LockTables} {o : LockTurn} {w : LockThread}

/-- **A thread accounts for its locks**, in every step it takes. -/
theorem keepsTables_of_turn (h : w.turn T = some o) : KeepsTables T w o := by
  revert h
  fun_cases turn T w with
  | case1 =>
    intro h
    obtain ⟨idx, hidx, rfl⟩ := map_eq_some_iff.mp h
    exact ⟨.refl, .refl, .lockRead hidx⟩
  | case2 | case5 | case6 | case13 =>
    rintro ⟨⟩
    exact ⟨.refl, .refl, .refl⟩
  | case3 | case4 =>
    -- a read on the way is taken in
    rintro ⟨⟩
    exact ⟨.refl, .refl, .unlockRead (.refl _)⟩
  | case7 =>
    intro h
    rcases lockNext_eq_some h with ⟨hall, rfl⟩ | ⟨page, hkeeps, rfl⟩
    · exact ⟨.of_perm (.of_eq hall) (.refl _), .refl, .refl⟩
    · exact ⟨hkeeps [], .refl, .refl⟩
  | case8 =>
    intro h
    rcases lockNext_eq_some h with ⟨hall, rfl⟩ | ⟨vec, hkeeps, rfl⟩
    · exact ⟨.refl, .of_perm (.of_eq hall) (.refl _), .refl⟩
    · exact ⟨.refl, hkeeps [], .refl⟩
  | case9 u k hk =>
    rintro ⟨⟩
    exact ⟨.refl, .refl, .of_perm (.of_eq (take_of_getElem?_none hk)) (.refl _)⟩
  | case10 u k x hk idx hl =>
    rintro ⟨⟩
    refine ⟨.refl, .refl, ?_⟩
    show Keeps _ _ (u.ids.take k) _ (u.ids.take (k + 1)) _
    rw [take_of_getElem? hk]
    exact .lockWrite hl
  | case12 =>
    rintro ⟨⟩
    exact ⟨.refl, .refl, .of_perm (reverse_perm _).symm (.refl _)⟩
  | case14 =>
    rintro ⟨⟩
    exact ⟨.refl, .refl, .unlockWrite (.refl _)⟩
  | case15 =>
    intro h
    rcases unlockNext_eq_some h with ⟨hnone, rfl⟩ | ⟨idx, hkeeps, rfl⟩
    · exact ⟨.refl, .refl, .of_perm (.of_eq hnone) (.refl _)⟩
    · exact ⟨.refl, .refl, hkeeps []⟩
  | case16 u =>
    rw [u.idsToUnlock_eq]
    intro h
    rcases unlockNext_eq_some h with ⟨hnone, rfl⟩ | ⟨vec, hkeeps, rfl⟩
    · exact ⟨.refl, .of_perm (.of_eq hnone) (.refl _), .refl⟩
    · exact ⟨.refl, hkeeps [], .refl⟩
  | case17 =>
    rintro ⟨⟩
    exact ⟨.refl, .refl, .refl⟩
  | case18 =>
    rintro ⟨⟩
    refine ⟨.of_perm (.of_eq ?_) (.refl _), .refl, .refl⟩
    simp [pageHeld]
  | case19 =>
    intro h
    rcases unlockNext_eq_some h with ⟨hnone, rfl⟩ | ⟨page, hkeeps, rfl⟩
    · exact ⟨.of_perm (.of_eq hnone) (.refl _), .refl, .refl⟩
    · exact ⟨hkeeps [], .refl, .refl⟩
  | _ => exact fun h => by cases h

/-! ## When a thread waits -/

/-- A thread that takes no step is finished or waits for a lock: a search for an id that it
cannot read, an insert for a page or a vector that is not free, or for its first id. -/
inductive Waits (T : LockTables) : LockThread → Prop where
  | finished : Waits T .finished
  | read {id ops inFlight plan} (h : tryRead intMax (T.idx id) = none) :
      Waits T (.searching (some id :: ops) inFlight plan)
  | page {u k p} (hk : u.pages[k]? = some p) (h : tryWrite (T.page p) = none) :
      Waits T (.lockPages u k)
  | vec {u k v} (hk : u.ids[k]? = some v) (h : tryWrite (T.vec v) = none) :
      Waits T (.lockVecs u k)
  | idx {u x} (h : tryWrite (T.idx x) = none) : Waits T (.lockIdx u 0)

theorem waits_of_turn (h : w.turn T = none) : Waits T w := by
  revert h
  fun_cases turn T w with
  | case1 => exact fun h => .read (map_eq_none_iff.mp (map_eq_none_iff.mp h))
  | case7 =>
    intro h
    obtain ⟨p, hk, hp⟩ := lockNext_eq_none h
    exact .page hk hp
  | case8 =>
    intro h
    obtain ⟨v, hk, hv⟩ := lockNext_eq_none h
    exact .vec hk hv
  | case11 u x hl => exact fun _ => .idx (map_eq_none_iff.mp hl)
  | case15 | case16 | case19 =>
    unfold unlockNext
    split <;> exact fun h => by cases h
  | case20 => exact fun _ => .finished
  | _ => exact fun h => by cases h

/-- The vector that the thread locks next. -/
def nextVec : LockThread → Option Nat
  | .lockVecs u k => u.ids[k]?
  | _ => none

/-- The page that the thread locks next. -/
def nextPage : LockThread → Option Nat
  | .lockPages u k => u.pages[k]?
  | _ => none

/-! ## A search locks an id once -/

/-- The ids that a search has locked and will lock are different. -/
def Distinct : LockThread → Prop
  | .searching ops inFlight _ => (inFlight ++ ops.filterMap id).Nodup
  | _ => True

theorem distinct_of_turn (h : w.turn T = some o) (hw : w.Distinct) : o.thread.Distinct := by
  revert h hw
  fun_cases turn T w with
  | case1 id ops inFlight plan =>
    intro h hw
    obtain ⟨idx, -, rfl⟩ := map_eq_some_iff.mp h
    rw [Distinct, append_assoc]
    exact hw
  | _ => grind [lockNext, unlockNext, Distinct, map_eq_some_iff]

theorem count_readHeld_le (hw : w.Distinct) (x : Nat) : w.readHeld.count x ≤ 1 := by
  cases w with
  | searching ops inFlight plan =>
    exact nodup_iff_count_le_one.mp (Nodup.of_append_left hw) x
  | _ => exact Nat.zero_le _

end LockThread

namespace LockState

variable (held : LockThread → List Nat)

/-- How often a lock is held by the threads, where `held` says which ones a thread holds. -/
def share (s : LockState) (x : Nat) : Nat :=
  (s.threads.map fun w => (held w).count x).sum

/-- How often a page is locked on behalf of the background threads. -/
def bgShare (s : LockState) (x : Nat) : Nat :=
  (s.bgTasks.map (List.count x)).sum + (s.writers.map fun j => (j.getD []).count x).sum

/-- The words of all locks are what the holders make them. -/
structure LockInv (s : LockState) : Prop where
  page : ∀ x, Accounts (s.tables.page x) (s.share LockThread.pageHeld x + s.bgShare x) 0
  vec : ∀ x, Accounts (s.tables.vec x) (s.share LockThread.vecHeld x) 0
  idx : ∀ x, Accounts (s.tables.idx x) (s.share LockThread.idxHeld x)
    (s.share LockThread.readHeld x)
  distinct : ∀ w ∈ s.threads, w.Distinct
  few : s.threads.length < intMax
  writer : 0 < s.writers.length

/-- How often a lock is held by the threads other than `t`. -/
def othersShare (s : LockState) (t x : Nat) : Nat :=
  ((s.threads.eraseIdx t).map fun w => (held w).count x).sum

variable {s : LockState} {t : Nat} {w : LockThread}

theorem share_eq (hw : s.threads[t]? = some w) (x : Nat) :
    s.share held x = s.othersShare held t x + (held w).count x :=
  sum_map_eraseIdx hw

theorem share_afterTurn (hw : s.threads[t]? = some w) (o : LockTurn) (x : Nat) :
    (s.afterTurn t o).share held x = s.othersShare held t x + (held o.thread).count x :=
  sum_map_set_eraseIdx hw o.thread

theorem bgShare_afterTurn (s : LockState) (t : Nat) (o : LockTurn) (x : Nat) :
    (s.afterTurn t o).bgShare x = s.bgShare x + o.pushed.flatten.count x := by
  simp only [bgShare, afterTurn, map_append, sum_append, count_flatten]
  omega

theorem share_start (crew : Crew) (h : ∀ ops plan, held (.searching ops [] plan) = []) (x : Nat) :
    (start crew).share held x = 0 := by
  refine Nat.eq_zero_of_not_pos fun hpos => ?_
  obtain ⟨w, hw, hpos⟩ := exists_pos_of_sum hpos
  obtain ⟨p, -, rfl⟩ := mem_map.mp hw
  rw [h] at hpos
  cases hpos

theorem LockInv.start (crew : Crew) : LockInv (start crew) where
  page x := by
    have hbg : (LockState.start crew).bgShare x = 0 := by simp [bgShare, LockState.start]
    rw [share_start _ _ (fun _ _ => rfl), hbg]
    exact .free
  vec x := by
    rw [share_start _ _ (fun _ _ => rfl)]
    exact .free
  idx x := by
    rw [share_start _ _ (fun _ _ => rfl), share_start _ _ (fun _ _ => rfl)]
    exact .free
  distinct w hw := by
    obtain ⟨p, hp, rfl⟩ := mem_map.mp hw
    exact crew.distinct p hp
  few := by
    rw [LockState.start, length_map]
    exact crew.few
  writer := by
    rw [LockState.start, length_replicate]
    exact crew.nBg_pos

theorem LockInv.thread (h : LockInv s) {o : LockTurn} (hw : s.threads[t]? = some w)
    (ho : w.turn s.tables = some o) : LockInv (s.afterTurn t o) := by
  have hkeeps := keepsTables_of_turn ho
  refine ⟨fun x => ?_, fun x => ?_, fun x => ?_, fun w' hw' => ?_, ?_, h.writer⟩
  · -- the pages handed over are held on behalf of the background threads
    have hpage := hkeeps.page (fun x => s.othersShare pageHeld t x + s.bgShare x)
      (fun _ => 0) (fun y => ?_) x
    · rw [count_append, ← add_assoc, add_right_comm,
        add_right_comm (s.othersShare _ t x), ← share_afterTurn _ hw, add_assoc,
        ← bgShare_afterTurn s t o] at hpage
      exact hpage
    · rw [add_right_comm, ← share_eq _ hw]
      exact h.page y
  · rw [share_afterTurn _ hw]
    refine hkeeps.vec (s.othersShare vecHeld t) (fun _ => 0) (fun y => ?_) x
    rw [← share_eq _ hw]
    exact h.vec y
  · rw [share_afterTurn _ hw, share_afterTurn _ hw]
    refine hkeeps.idx (s.othersShare idxHeld t) (s.othersShare readHeld t) (fun y => ?_) x
    rw [← share_eq _ hw, ← share_eq _ hw]
    exact h.idx y
  · rcases mem_or_eq_of_mem_set hw' with hw' | rfl
    · exact h.distinct w' hw'
    · exact distinct_of_turn ho (h.distinct w (mem_of_getElem? hw))
  · rw [afterTurn, length_set]
    exact h.few

variable {s' : LockState} {j : Option (List Nat)}

/-- How often a page is locked by the threads, for the tasks of a queue, and for the background
threads other than `i`. -/
def restShare (s : LockState) (i : Nat) (tasks : List (List Nat)) (x : Nat) : Nat :=
  s.share LockThread.pageHeld x + (tasks.map (List.count x)).sum +
    ((s.writers.eraseIdx i).map fun j => (j.getD []).count x).sum

theorem LockInv.bgIoThread (h : LockInv s) {i : Nat}
    (hj : s.writers[i]? = some j) (hs : s.bgIoThread i j = some s') : LockInv s' := by
  have hlen (j') : 0 < (s.writers.set i j').length := by
    rw [length_set]
    exact h.writer
  have hbefore (x : Nat) : s.share pageHeld x + s.bgShare x =
      s.restShare i s.bgTasks x + (j.getD []).count x := by
    rw [bgShare, sum_map_eraseIdx hj, restShare]
    omega
  have hafter (j' : Option (List Nat)) (tasks : List (List Nat)) (x : Nat) :
      s.share pageHeld x + ((tasks.map (List.count x)).sum +
        ((s.writers.set i j').map fun j => (j.getD []).count x).sum) =
      s.restShare i tasks x + (j'.getD []).count x := by
    rw [sum_map_set_eraseIdx hj, restShare]
    omega
  have hpage (x) := hbefore x ▸ h.page x
  revert hs
  fun_cases LockState.bgIoThread with
  | case1 => rintro ⟨⟩
  | case2 pages tasks ht =>
    rintro ⟨⟩
    refine { h with page := fun x => ?_, writer := hlen _ }
    have htasks : s.restShare i tasks x + ((some pages).getD []).count x =
        s.restShare i s.bgTasks x + ((none : Option (List Nat)).getD []).count x := by
      simp only [restShare, ht, map_cons, sum_cons, getD_some, getD_none, count_nil]
      omega
    show Accounts _ (s.share _ x + (_ + _)) 0
    rw [hafter, htasks]
    exact hpage x
  | case3 p pages =>
    rintro ⟨⟩
    refine { h with page := fun x => ?_, writer := hlen _ }
    show Accounts _ (s.share _ x + (_ + _)) 0
    rw [hafter]
    have hkeeps : Keeps s.tables.page (unlock s.tables.page p) (p :: pages) [] pages [] :=
      .unlockWrite (.refl _)
    exact hkeeps (s.restShare i s.bgTasks) (fun _ => 0) hpage x
  | case4 =>
    rintro ⟨⟩
    refine { h with page := fun x => ?_, writer := hlen _ }
    show Accounts _ (s.share _ x + (_ + _)) 0
    rw [hafter]
    exact hpage x

theorem LockInv.step {a : LockAction} (h : LockInv s)
    (hs : LockState.step s a = some s') : LockInv s' := by
  cases a with
  | thread t =>
    obtain ⟨w, hw, hs⟩ := bind_eq_some_iff.mp hs
    obtain ⟨o, ho, rfl⟩ := map_eq_some_iff.mp hs
    exact h.thread hw ho
  | writer i =>
    obtain ⟨j, hj, hs⟩ := bind_eq_some_iff.mp hs
    exact h.bgIoThread hj hs

/-! ## No deadlock -/

/-- Something is left to do: an operation, or a task of the background threads. -/
def Unfinished (s : LockState) : Prop :=
  (∃ w ∈ s.threads, w ≠ .finished) ∨ s.bgTasks ≠ [] ∨ ∃ j ∈ s.writers, j ≠ none

/-- Nobody takes a step. -/
structure Stuck (s : LockState) : Prop where
  threads : ∀ w ∈ s.threads, w.Waits s.tables
  bgTasks : s.bgTasks = []
  writers : ∀ j ∈ s.writers, j = none

theorem LockInv.stuck (h : LockInv s) (hno : ∀ a, LockState.step s a = none) : Stuck s := by
  have hwriter : ∀ i j, s.writers[i]? = some j → s.bgIoThread i j = none := by
    intro i j hj
    have hi := hno (.writer i)
    rwa [LockState.step, hj] at hi
  have hidle : ∀ j ∈ s.writers, j = none := by
    intro j hj
    obtain ⟨i, hi⟩ := mem_iff_getElem?.mp hj
    rcases j with _ | _ | ⟨p, pages⟩
    · rfl
    · cases hwriter i _ hi
    · cases hwriter i _ hi
  refine ⟨fun w hw => ?_, ?_, hidle⟩
  · obtain ⟨t, ht⟩ := mem_iff_getElem?.mp hw
    have hturn := hno (.thread t)
    rw [LockState.step, ht] at hturn
    exact waits_of_turn (map_eq_none_iff.mp hturn)
  · have h0 : s.writers[0]? = some none := by
      rw [getElem?_eq_getElem h.writer, hidle _ (getElem_mem h.writer)]
    have htake := hwriter 0 none h0
    rw [LockState.bgIoThread] at htake
    split at htake
    · next ht => exact ht
    · cases htake

/-- A lock that is held is held by some thread. -/
theorem exists_of_share {held : LockThread → List Nat} {x : Nat}
    (h : 0 < s.share held x) : ∃ w ∈ s.threads, x ∈ held w := by
  obtain ⟨w, hw, hpos⟩ := exists_pos_of_sum h
  exact ⟨w, hw, count_pos_iff.mp hpos⟩

/-- With everybody waiting, no id is locked for writing. -/
theorem Stuck.idx_writers (hs : Stuck s) (x : Nat) : s.share idxHeld x = 0 := by
  refine Nat.eq_zero_of_not_pos fun hpos => ?_
  obtain ⟨w, hw, hx⟩ := exists_of_share hpos
  cases hs.threads w hw with
  | @idx u =>
    rw [idxHeld, take_zero] at hx
    cases hx
  | _ => cases hx

theorem Stuck.bgShare_eq_zero (hs : Stuck s) (x : Nat) : s.bgShare x = 0 := by
  refine Nat.eq_zero_of_not_pos fun hpos => ?_
  rw [bgShare, hs.bgTasks, map_nil, sum_nil, zero_add] at hpos
  obtain ⟨j, hj, hpos⟩ := exists_pos_of_sum hpos
  rw [hs.writers j hj] at hpos
  cases hpos

/-- The lock that a thread takes next, of those that are taken in ascending order. -/
theorem eq_none_of_larger (next : LockThread → Option Nat)
    (h : ∀ w ∈ s.threads, ∀ x, next w = some x → ∃ w' ∈ s.threads, ∃ y, next w' = some y ∧ x < y)
    (hw : w ∈ s.threads) : next w = none := by
  have hnil : s.threads.filterMap next = [] := by
    refine eq_nil_of_larger fun x hx => ?_
    obtain ⟨w, hw, hx⟩ := mem_filterMap.mp hx
    obtain ⟨w', hw', y, hy, hlt⟩ := h w hw x hx
    exact ⟨y, mem_filterMap.mpr ⟨w', hw', hy⟩, hlt⟩
  exact filterMap_eq_nil_iff.mp hnil w hw

section
variable {s : LockState} (h : LockInv s) (hs : Stuck s)
include h hs

/-- Hence no search waits. -/
theorem LockInv.no_search {ops : List (Option Nat)} {inFlight : List Nat}
    {plan : Option UpdatePlan} : searching ops inFlight plan ∉ s.threads := by
  intro hw
  cases hs.threads _ hw with
  | @read id _ _ _ hread =>
    rcases (h.idx id).of_tryRead_none hread with hheld | hfull
    · have hnone := hs.idx_writers id
      omega
    · -- every thread reads the id at most once
      have hle : s.share readHeld id ≤ s.threads.length * 1 :=
        sum_map_le fun w hw => count_readHeld_le (h.distinct w hw) id
      have hfew := h.few
      omega

variable {u : UpdatePlan} {k : Nat}

/-- Hence no id is locked, and no insert waits for one. -/
theorem LockInv.no_lockIdx : lockIdx u k ∉ s.threads := by
  intro hw
  cases hs.threads _ hw with
  | @idx _ x hx =>
    rcases (h.idx x).of_tryWrite_none hx with hheld | hheld
    · have hnone := hs.idx_writers x
      omega
    · obtain ⟨w', hw', hx'⟩ := exists_of_share hheld
      cases w' with
      | searching ops inFlight plan => exact h.no_search hs hw'
      | _ => cases hx'

/-- No insert waits for a vector: the one that waits for the largest waits for one that nobody
holds. -/
theorem LockInv.no_lockVecs : lockVecs u k ∉ s.threads := by
  intro hw
  have hnext : u.ids[k]? = none := by
    refine eq_none_of_larger nextVec (fun w hw x hx => ?_) hw
    cases w with
    | lockVecs u k =>
      cases hs.threads _ hw with
      | @vec _ _ v hk hv =>
        obtain rfl : v = x := some.inj (hk.symm.trans hx)
        have hheld := ((h.vec v).of_tryWrite_none hv).resolve_right (lt_irrefl 0)
        obtain ⟨w', hw', hmem⟩ := exists_of_share hheld
        refine ⟨w', hw', ?_⟩
        cases hs.threads w' hw' with
        | @vec u' _ y hk' => exact ⟨y, hk', lt_of_mem_take u'.ids_ascending hmem hk'⟩
        | idx => exact absurd hw' (h.no_lockIdx hs)
        | _ => cases hmem
    | _ => cases hx
  cases hs.threads _ hw with
  | vec hk => rw [hnext] at hk; cases hk

/-- No insert waits for a page, for the same reason. -/
theorem LockInv.no_lockPages : lockPages u k ∉ s.threads := by
  intro hw
  have hnext : u.pages[k]? = none := by
    refine eq_none_of_larger nextPage (fun w hw x hx => ?_) hw
    cases w with
    | lockPages u k =>
      cases hs.threads _ hw with
      | @page _ _ p hk hp =>
        obtain rfl : p = x := some.inj (hk.symm.trans hx)
        have hheld := ((h.page p).of_tryWrite_none hp).resolve_right (lt_irrefl 0)
        rw [hs.bgShare_eq_zero] at hheld
        obtain ⟨w', hw', hmem⟩ := exists_of_share hheld
        refine ⟨w', hw', ?_⟩
        cases hs.threads w' hw' with
        | @page u' _ y hk' => exact ⟨y, hk', lt_of_mem_take u'.pages_ascending hmem hk'⟩
        | vec => exact absurd hw' (h.no_lockVecs hs)
        | idx => exact absurd hw' (h.no_lockIdx hs)
        | _ => cases hmem
    | _ => cases hx
  cases hs.threads _ hw with
  | page hk => rw [hnext] at hk; cases hk

theorem LockInv.all_finished {w : LockThread} (hw : w ∈ s.threads) : w = .finished := by
  cases hs.threads w hw with
  | finished => rfl
  | read => exact absurd hw (h.no_search hs)
  | page => exact absurd hw (h.no_lockPages hs)
  | vec => exact absurd hw (h.no_lockVecs hs)
  | idx => exact absurd hw (h.no_lockIdx hs)

end

/-- **No deadlock.**  In every state reached in which something is left to do, some thread or
background thread takes a step. -/
theorem exists_step {crew : Crew} {s : LockState} (h : Reach step anyStep (start crew) s)
    (hleft : s.Unfinished) : ∃ a s', step s a = some s' := by
  have hinv : LockInv s := h.invariant (LockInv.start crew) fun _ _ _ hi _ hs => hi.step hs
  by_contra hno
  have hnone : ∀ a, step s a = none := fun a =>
    eq_none_iff_forall_ne_some.mpr fun s' hs' => hno ⟨a, s', hs'⟩
  have hstuck := hinv.stuck hnone
  rcases hleft with ⟨w, hw, hne⟩ | htasks | ⟨j, hj, hne⟩
  · exact hne (hinv.all_finished hstuck hw)
  · exact htasks hstuck.bgTasks
  · exact hne (hstuck.writers j hj)

/-- An insert of point 9 next to points 4 and 7, with pages 2 and 3 to rewrite. -/
def planA : UpdatePlan := ⟨[(12288, 4096), (8192, 4096)], 9, [7, 4], [2], by decide⟩

/-- An insert of point 8 next to point 4, with page 3 to rewrite. -/
def planB : UpdatePlan := ⟨[(12288, 4096)], 8, [4], [3], by decide⟩

/-- Two inserts, the first with a search of two reads, and a search. -/
def smallCrew : Crew where
  scripts := [([some 7, some 4, none], some planA), ([], some planB), ([some 4], none)]
  distinct := by decide
  few := by decide
  nBg := 1
  nBg_pos := by decide

/-- The second insert has locked page 3 and a search is not over. -/
def pageThreeLocked (s : LockState) : Bool :=
  s.tables.page 3 == -1 && s.threads.any fun w => !w.readHeld.isEmpty

theorem exists_step_smallCrew : ∃ s, Reach step anyStep (start smallCrew) s ∧ s.tables.page 3 = -1 ∧
      (∃ w ∈ s.threads, w ≠ .finished) ∧ ∃ a s', step s a = some s' := by
  have hrun : ((runSteps step (start smallCrew)
      [.thread 1, .thread 1, .thread 0, .thread 2]).any pageThreeLocked) = true := by
    decide +kernel
  obtain ⟨s, hs, hlocked⟩ := (Option.any_eq_true ..).mp hrun
  obtain ⟨hpage, hany⟩ := Bool.and_eq_true_iff.mp hlocked
  obtain ⟨w, hw, hread⟩ := any_eq_true.mp hany
  have hleft : ∃ w ∈ s.threads, w ≠ .finished := by
    refine ⟨w, hw, ?_⟩
    rintro rfl
    cases hread
  have hreach := Reach.of_run hs
  exact ⟨s, hreach, of_decide_eq_true hpage, hleft, exists_step hreach (.inl hleft)⟩

end LockState
end PipeANN
