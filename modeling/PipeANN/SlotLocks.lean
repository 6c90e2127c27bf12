import PipeANN.GuardedRuns
import PipeANN.PartyLists

/-! # Mutexes of many slots

A `ReaderOptSharedMutex` consists of 128 shared mutexes, its slots.  A reader locks only the slot
of its thread, a writer locks all of them, one after the other.  A filtered search holds the
mutexes of several attribute indexes at once, in any order, so no order of the mutexes rules a
deadlock out.

But a thread uses the same slot of every mutex.  A reader that holds slot `k` of one mutex waits for
slot `k` of another, and there for a writer that is past it (`exists_ahead`).  So the writer that
is furthest on does not wait.
-/
namespace PipeANN.SlotLocks
open List

/-- `Selector::lock_shared` of a thread on some indexes, or `lock` of the mutex of one. -/
inductive Caller
  | reader (id : Nat) (indexes : List Nat)
  | writer (index : Nat)
  deriving DecidableEq

/-- The slots, as index and number, in the order in which they are locked and unlocked. -/
def Caller.slots : Caller → List (Nat × Nat)
  | .reader id indexes => indexes.map (·, id % 128)
  | .writer index => (range 128).map (index, ·)

def Caller.isWriter : Caller → Bool
  | .reader .. => false
  | .writer _ => true

/-- A caller and the number of its calls on slots that have returned. -/
structure Call where
  caller : Caller
  pos : Nat
  deriving DecidableEq

namespace Call

/-- The slots that were locked and not unlocked yet. -/
def held (c : Call) : List (Nat × Nat) :=
  (c.caller.slots.take c.pos).drop (c.pos - c.caller.slots.length)

/-- The slot to be locked next is held, by a writer or against one. -/
def waits (calls : List Call) (c : Call) : Bool :=
  c.caller.slots[c.pos]?.any fun slot => calls.any fun d =>
    d.held.contains slot && (c.caller.isWriter || d.caller.isWriter)

/-- What is left to do: every slot is locked once and unlocked once. -/
def work (c : Call) : Nat := 2 * c.caller.slots.length - c.pos

end Call

/-- One caller locks or unlocks its next slot. -/
def step (calls : List Call) (i : Nat) : Option (List Call) := do
  let c ← calls[i]?
  if c.work = 0 || c.waits calls then none
  else some (calls.set i { c with pos := c.pos + 1 })

variable {calls : List Call} {c d : Call} {slot : Nat × Nat}

theorem work_pos (h : slot ∈ c.held) : 0 < c.work := by
  have hlen := length_pos_of_mem h
  rw [Call.held, length_drop, length_take] at hlen
  unfold Call.work
  omega

/-- A writer that holds a slot is past it. -/
theorem lt_pos (hd : d.caller.isWriter) (h : slot ∈ d.held) : slot.2 < d.pos := by
  have h := mem_of_mem_drop h
  cases hc : d.caller with
  | reader => simp [hc, Caller.isWriter] at hd
  | writer index =>
    rw [hc, Caller.slots, ← map_take, take_range] at h
    obtain ⟨k, hk, rfl⟩ := mem_map.mp h
    exact (Nat.lt_min.mp (mem_range.mp hk)).1

/-- A reader uses one slot of every mutex. -/
theorem snd_eq {slot' : Nat × Nat} (hc : ¬ c.caller.isWriter) (h : slot ∈ c.caller.slots)
    (h' : slot' ∈ c.caller.slots) : slot'.2 = slot.2 := by
  cases hcaller : c.caller with
  | reader id indexes =>
    rw [hcaller] at h h'
    obtain ⟨_, _, rfl⟩ := mem_map.mp h
    obtain ⟨_, _, rfl⟩ := mem_map.mp h'
    rfl
  | writer => simp [hcaller, Caller.isWriter] at hc

theorem writer_pos (hc : c.caller.isWriter) (h : c.caller.slots[c.pos]? = some slot) :
    slot.2 = c.pos ∧ c.pos < 128 := by
  cases hcaller : c.caller with
  | reader => simp [hcaller, Caller.isWriter] at hc
  | writer index =>
    rw [hcaller] at h
    obtain ⟨hlt, rfl⟩ := List.getElem?_eq_some_iff.mp h
    simpa [Caller.slots] using hlt

theorem exists_holder (h : c.waits calls) : ∃ slot, c.caller.slots[c.pos]? = some slot ∧
    ∃ d ∈ calls, slot ∈ d.held ∧ (c.caller.isWriter ∨ d.caller.isWriter) := by
  obtain ⟨slot, hslot, hd⟩ := (Option.any_eq_true ..).mp h
  exact ⟨slot, hslot, by simpa using hd⟩

/-- If all calls that are not done wait, then behind each of them is a writer that waits, and it
is past the slot that the call waits for. -/
theorem exists_ahead (hall : ∀ c ∈ calls, 0 < c.work → c.waits calls) (h : c.waits calls) :
    ∃ slot, c.caller.slots[c.pos]? = some slot ∧
      ∃ d ∈ calls, d.caller.isWriter ∧ slot.2 < d.pos ∧ d.waits calls := by
  obtain ⟨slot, hslot, d, hd, hheld, hw⟩ := exists_holder h
  have hwait := hall d hd (work_pos hheld)
  refine ⟨slot, hslot, ?_⟩
  by_cases hdw : d.caller.isWriter
  · exact ⟨d, hd, hdw, lt_pos hdw hheld, hwait⟩
  · -- a reader waits for the same slot of another mutex
    obtain ⟨slot', hslot', e, he, hheld', hw'⟩ := exists_holder hwait
    have hew := hw'.resolve_left hdw
    have hsnd := snd_eq hdw (mem_of_mem_take (mem_of_mem_drop hheld)) (mem_of_getElem? hslot')
    exact ⟨e, he, hew, hsnd ▸ lt_pos hew hheld', hall e he (work_pos hheld')⟩

/-- **Some call can go on**, as long as not all are done. -/
theorem exists_not_waiting (hdone : ¬ ∀ c ∈ calls, c.work = 0) :
    ∃ d ∈ calls, 0 < d.work ∧ ¬ d.waits calls := by
  by_contra hno
  have hall : ∀ c ∈ calls, 0 < c.work → c.waits calls := fun c hc hwork =>
    Classical.byContradiction fun h => hno ⟨c, hc, hwork, h⟩
  -- there would be writers further and further on
  have hfar : ∀ n, ∃ d ∈ calls, d.caller.isWriter ∧ n ≤ d.pos ∧ d.waits calls := by
    intro n
    induction n with
    | zero =>
      obtain ⟨c, hc⟩ := not_forall.mp hdone
      obtain ⟨hc, hwork⟩ := Classical.not_imp.mp hc
      obtain ⟨_, _, d, hd, hdw, -, hwait⟩ :=
        exists_ahead hall (hall c hc (Nat.pos_of_ne_zero hwork))
      exact ⟨d, hd, hdw, Nat.zero_le _, hwait⟩
    | succ n ih =>
      obtain ⟨d, -, hdw, hn, hwait⟩ := ih
      obtain ⟨slot, hslot, e, he, hew, hlt, hwait'⟩ := exists_ahead hall hwait
      exact ⟨e, he, hew, by have := writer_pos hdw hslot; omega, hwait'⟩
  obtain ⟨d, -, hdw, hfar, hwait⟩ := hfar 128
  obtain ⟨slot, hslot, -⟩ := exists_holder hwait
  have := writer_pos hdw hslot
  omega

/-- **No deadlock.**  In every state that the callers can get into, all are done or one of them can
lock or unlock its next slot, and all of them can be completed from there. -/
theorem no_deadlock {callers : List Caller} (h : Reach step anyStep (callers.map (⟨·, 0⟩)) calls) :
    ((∀ c ∈ calls, c.work = 0) ∨ ∃ i calls', step calls i = some calls') ∧
      ∃ calls', Reach step anyStep calls calls' ∧ ∀ c ∈ calls', c.work = 0 := by
  have hstep : ∀ calls : List Call, (¬ ∀ c ∈ calls, c.work = 0) → ∃ i calls', anyStep calls i ∧
      step calls i = some calls' ∧ (calls'.map Call.work).sum < (calls.map Call.work).sum := by
    intro calls hdone
    obtain ⟨c, hc, hwork, hwait⟩ := exists_not_waiting hdone
    obtain ⟨i, hi⟩ := mem_iff_getElem?.mp hc
    refine ⟨i, _, trivial, by simp [step, hi, Nat.ne_of_gt hwork, hwait]; rfl, ?_⟩
    have hsum := sum_map_set (f := Call.work) hi { c with pos := c.pos + 1 }
    have hless : Call.work { c with pos := c.pos + 1 } < c.work :=
      Nat.sub_lt_sub_left (Nat.lt_of_sub_pos hwork) c.pos.lt_succ_self
    omega
  refine ⟨?_, h.exists_done fun calls _ => hstep calls⟩
  by_cases hdone : ∀ c ∈ calls, c.work = 0
  · exact .inl hdone
  · obtain ⟨i, calls', -, hs, -⟩ := hstep calls hdone
    exact .inr ⟨i, calls', hs⟩

/-- Two readers with their indexes in different orders, and a writer, all of them under way. -/
theorem no_deadlock_crossed : ∃ i calls',
    step [⟨.reader 5 [0, 1], 1⟩, ⟨.reader 6 [1, 0], 1⟩, ⟨.writer 1, 5⟩] i = some calls' := by
  have h : Reach step anyStep ([.reader 5 [0, 1], .reader 6 [1, 0], .writer 1].map (⟨·, 0⟩))
      [⟨.reader 5 [0, 1], 1⟩, ⟨.reader 6 [1, 0], 1⟩, ⟨.writer 1, 5⟩] :=
    .of_run (l := [0, 1, 2, 2, 2, 2, 2]) (by decide +kernel)
  exact (no_deadlock h).1.resolve_left (by decide)

end PipeANN.SlotLocks
