import PipeANN.FairRuns
import PipeANN.SpdkBooks

/-! # Every request comes back

No completion is lost in the runs of `SpdkState.Admits`, so that a request is reported when its
last command comes back, and not again.  Every step is work done (`work_step`), and there is a
step to take until the worker is done (`SpdkInv.exists_step_of_not_done`).  Hence in a fair run
all requests come back, and a worker that waits for them goes on (`eventually_reported`).
-/
namespace PipeANN
open List Option Function SpdkLane
namespace SpdkState

/-! ## Work -/

def opWork : SpdkOp → Nat
  | .send req => 8 * req.len + 2
  | _ => 1

def sendingWork : Option (List SpdkCmd) → Nat
  | none => 0
  | some todo => 8 * todo.length + 1

/-- The steps that are left, at most. -/
def work (s : SpdkState) : Nat :=
  (s.ops.map opWork).sum + sendingWork s.sending + (s.lanes.map SpdkLane.work).sum

variable {s s' : SpdkState} {cfg : SpdkConfig}

theorem work_worker (h : s.workerStep cfg = some s') : s'.work < s.work := by
  obtain ⟨c, todo, lane, hsend, hl, rfl⟩ | ⟨hsend, rfl⟩ |
    ⟨hsend, op, rest, hops, ⟨req, rfl, rfl⟩ | ⟨rfl | ⟨rfl, -⟩, rfl⟩⟩ := workerStep_cases h
  · have hset := sum_map_set (f := SpdkLane.work) hl { lane with queue := lane.queue ++ [c] }
    simp only [SpdkLane.work, length_append, length_singleton] at hset
    simp only [work, pushed, setLane, hsend, sendingWork, length_cons]
    omega
  · simp only [work, hsend, sendingWork]
    omega
  · have hlen := length_sendIoLoop_le cfg s.reqs.length req req.len 0
    simp only [work, beginSend, hops, sendingWork, opWork, sendIoCmds, map_cons, sum_cons]
    omega
  all_goals
    simp only [work, hops, opWork, map_cons, sum_cons]
    omega

theorem work_pop {i : Nat} (h : s.popStep i = some s') : s'.work < s.work := by
  obtain ⟨-, lane, c, cq, hl, hcq, rfl⟩ := popStep_cases h
  have hset := sum_map_set (f := SpdkLane.work) hl { lane with cq := cq }
  simp only [SpdkLane.work, hcq, length_cons] at hset
  obtain ⟨hops, hsending, -, -, hlanes⟩ := popped_frame s i lane c cq
  rw [work, hops, hsending, hlanes]
  simp only [work, setLane]
  omega

/-- Every step is work done. -/
theorem work_step {a : SpdkAction} (h : step cfg s a = some s') : s'.work < s.work := by
  cases a with
  | worker => exact work_worker h
  | pop i => exact work_pop h
  | lane i a =>
    obtain ⟨lane, hl, h⟩ := bind_eq_some_iff.mp h
    obtain ⟨lane', ha, rfl⟩ := map_eq_some_iff.mp h
    have hset := sum_map_set (f := SpdkLane.work) hl lane'
    have hlane := work_act ha
    simp only [work, setLane]
    omega

variable {cfg : SpdkConfig} {ops : List SpdkOp} {s s' : SpdkState}

/-! ## Something can always be done -/

/-- The worker has no further operation. -/
def Done (s : SpdkState) : Prop := s.ops = [] ∧ s.sending = none

theorem exists_lane_step {i : Nat} {lane : SpdkLane} (hl : s.lanes[i]? = some lane)
    (h : 0 < lane.taken ∨ lane.queue ≠ [] ∨ lane.batch ≠ [] ∨ lane.inFlight ≠ [] ∨
      lane.completed ≠ []) : ∃ a s', step cfg s a = some s' := by
  obtain ⟨a, lane', ha⟩ := exists_act cfg h
  refine ⟨.lane i a, { s.setLane i lane' with landed := s.landed ++ lane.landedBy a }, ?_⟩
  rw [step, hl, bind_some, ha, map_some]

/-- A worker that waits for a request can take a completion, or a poller or a device moves. -/
theorem SpdkInv.exists_of_waiting (h : SpdkInv cfg ops s) (hpoll : s.isPolling) {r : Nat}
    (hr : r < s.reqs.length) (hf : s.finished r = false) :
    ∃ a s', SpdkState.step cfg s a = some s' := by
  have hcmds : 0 < s.cmdsOf r := by
    refine Nat.pos_of_ne_zero fun hzero => ?_
    have hfin := (h.finished r).mpr ⟨hr, hzero, not_isSending (sending_of_isPolling hpoll) r⟩
    rw [hf] at hfin
    cases hfin
  obtain ⟨lane, hlane, hpos⟩ := exists_pos_of_sum hcmds
  obtain ⟨c, hc, -⟩ := countP_pos_iff.mp hpos
  obtain ⟨i, hi⟩ := mem_iff_getElem?.mp hlane
  by_cases hcq : lane.cq = []
  · refine exists_lane_step hi (Classical.byContradiction fun hno => ?_)
    simp only [not_or, Classical.not_not] at hno
    obtain ⟨-, hq, hb, hin, hco⟩ := hno
    rw [cmds, hq, hb, hin, hco, hcq] at hc
    cases hc
  · obtain ⟨d, cq, hd⟩ := exists_cons_of_ne_nil hcq
    refine ⟨.pop i, s.popped i lane d cq, ?_⟩
    rw [SpdkState.step, popStep, if_pos hpoll, hi, bind_some, hd]

theorem SpdkInv.exists_step_of_not_done (h : SpdkInv cfg ops s) (hdone : ¬ s.Done) :
    ∃ a s', SpdkState.step cfg s a = some s' := by
  cases hsend : s.sending with
  | some todo =>
    cases todo with
    | nil => exact ⟨.worker, by simp [SpdkState.step, workerStep, hsend]⟩
    | cons c todo =>
      have hssd := (h.sending _ hsend c mem_cons_self).2
      rw [← h.lanes_length] at hssd
      have hl := getElem?_eq_getElem hssd
      by_cases hroom : s.lanes[c.ssd].queue.length + s.lanes[c.ssd].taken < pollerQueueCap
      · exact ⟨.worker, by simp [SpdkState.step, workerStep, hsend, pushCmd, hl, hroom]⟩
      · -- the queue is full, and the poller has something to do
        refine exists_lane_step hl ?_
        grind [pollerQueueCap]
  | none =>
    cases hops : s.ops with
    | nil => exact absurd ⟨hops, hsend⟩ hdone
    | cons op rest =>
      by_cases hall : (range s.reqs.length).all s.finished
      · exact ⟨.worker, by cases op <;> simp [SpdkState.step, workerStep, hsend, hops, hall]⟩
      · cases op with
        | wait =>
          have hpoll : s.isPolling := by rw [isPolling, hsend, hops]
          obtain ⟨r, hr, hf⟩ : ∃ r, r < s.reqs.length ∧ s.finished r = false := by
            simpa using hall
          exact h.exists_of_waiting hpoll hr hf
        | _ => exact ⟨.worker, by simp [SpdkState.step, workerStep, hsend, hops]⟩

/-! ## Requests come back, once -/

/-- No request is reported twice, and a request is finished only when all its commands have been
completed. -/
structure Sound (cfg : SpdkConfig) (s : SpdkState) : Prop where
  once : ∀ r, s.reports.count r ≤ 1
  complete : ∀ r req, s.reqs[r]? = some req → s.finished r = true →
    ∀ c ∈ sendIoCmds cfg r req, c ∈ s.landed

theorem SpdkInv.sound (h : SpdkInv cfg ops s) : Sound cfg s where
  once r := by
    rw [h.reports]
    split
    · exact le_rfl
    · exact Nat.zero_le _
  complete r req hr hf c hc := by
    obtain ⟨hlt, hzero, hno⟩ := (h.finished r).mp hf
    have hparent : c.parent = r := (mem_sendIoLoop hc).1
    rcases h.landed r req hr c hc with hlanded | ⟨todo, htodo, hmem⟩ | ⟨lane, hlane, hearly⟩
    · exact hlanded
    · exact absurd ⟨todo, htodo, c, hmem, hparent⟩ hno
    · -- a command on its way would be pending
      have hcmds : c ∈ lane.cmds := mem_append_left _ (mem_append_left _ hearly)
      obtain ⟨i, hi⟩ := mem_iff_getElem?.mp hlane
      have hcount : 0 < lane.cmds.countP fun c => c.parent == r :=
        countP_pos_iff.mpr ⟨c, hcmds, beq_iff_eq.mpr hparent⟩
      have hsum : s.cmdsOf r = _ := sum_map_eraseIdx hi
      omega

/-- The worker is done, all its requests were sent, and each of them is finished and was reported
once. -/
structure Settled (ops : List SpdkOp) (s : SpdkState) : Prop where
  done : s.Done
  sent : s.reqs = sends ops
  reported : ∀ r < s.reqs.length, s.finished r = true ∧ s.reports.count r = 1

/-- The last operation is to wait; when it is over, all requests are finished. -/
def EndsWaiting (s : SpdkState) : Prop :=
  s.ops.getLast? = some .wait ∨
    s.ops = [] ∧ s.sending = none ∧ ∀ r < s.reqs.length, s.finished r = true

theorem EndsWaiting.worker (h : s.EndsWaiting) (hs : s.workerStep cfg = some s') :
    s'.EndsWaiting := by
  unfold EndsWaiting at h ⊢
  obtain ⟨c, todo, lane, hsend, hl, rfl⟩ | ⟨hsend, rfl⟩ |
    ⟨hsend, op, rest, hops, ⟨req, rfl, rfl⟩ | ⟨hop, rfl⟩⟩ := workerStep_cases hs
  · exact .inl (h.resolve_right (by simp [hsend]))
  · exact .inl (h.resolve_right (by simp [hsend]))
  · grind [beginSend]
  · grind

theorem EndsWaiting.step (h : s.EndsWaiting) {a : SpdkAction}
    (hs : SpdkState.step cfg s a = some s') : s'.EndsWaiting := by
  cases a with
  | worker => exact h.worker hs
  | pop i =>
    obtain ⟨hpoll, lane, c, cq, -, -, rfl⟩ := popStep_cases hs
    obtain ⟨hops, -⟩ := popped_frame s i lane c cq
    rcases h with h | ⟨hnil, hnone, -⟩
    · exact .inl (hops ▸ h)
    · rw [isPolling, hnone, hnil] at hpoll
      cases hpoll
  | lane i a =>
    obtain ⟨lane, -, hs⟩ := bind_eq_some_iff.mp hs
    obtain ⟨lane', -, rfl⟩ := map_eq_some_iff.mp hs
    exact h

/-- **Every request is reported once, and waiting ends.**  In a fair run in which the worker never
has more commands outstanding at an SSD than the completion queue holds, and sends no empty
request, a request is finished only when all its commands have been completed, none is reported
twice, and from some instant on the worker is done, with all its requests finished and reported. -/
theorem eventually_reported (ρ : FairRun (step cfg) SpdkAction.agent (start cfg ops))
    (hadm : ∀ n a, ρ.act n = some a → (ρ.state n).Admits a) :
    (∀ n, Sound cfg (ρ.state n)) ∧ ∃ N, ∀ n, N ≤ n → Settled ops (ρ.state n) := by
  have hreach (n : Nat) : Reach (step cfg) Admits (start cfg ops) (ρ.state n) := ρ.reach hadm n
  have hinv (n : Nat) : SpdkInv cfg ops (ρ.state n) :=
    (hreach n).invariant (SpdkInv.start cfg ops) fun _ _ _ hi ha hs => hi.step ha hs
  have hwait (n : Nat) : (ρ.state n).EndsWaiting := by
    refine (hreach n).invariant (.inl ?_) fun _ _ _ hi _ hs => hi.step hs
    exact getLast?_concat
  refine ⟨fun n => (hinv n).sound, ?_⟩
  obtain ⟨N, hN⟩ := ρ.eventually_done (fun _ _ _ => work_step) Done fun n hd =>
    (hinv n).exists_step_of_not_done hd
  refine ⟨N, fun n hn => ?_⟩
  obtain ⟨hops, hsend⟩ := hN n hn
  have hfin : ∀ r < (ρ.state n).reqs.length, (ρ.state n).finished r = true := by
    rcases hwait n with hlast | ⟨-, -, hfin⟩
    · rw [hops] at hlast
      cases hlast
    · exact hfin
  refine ⟨⟨hops, hsend⟩, ?_, fun r hr => ⟨hfin r hr, ?_⟩⟩
  · have hscript := (hinv n).script
    rw [hops] at hscript
    exact (append_nil _).symm.trans hscript
  · rw [(hinv n).reports, hfin r hr]
    rfl

/-- One SSD with blocks of 512 bytes that takes two commands at a time. -/
def oneSsd : SpdkConfig := ⟨1, 9, 2, Nat.one_pos, Nat.two_pos⟩

/-- A worker that is done with nothing on its way: no further step. -/
theorem step_eq_none (hops : s.ops = []) (hsend : s.sending = none)
    (hlanes : s.lanes = [.empty]) (a : SpdkAction) : step cfg s a = none := by
  cases a with
  | worker => rw [step, workerStep, hsend, hops]
  | pop i =>
    have hpoll : s.isPolling = false := by rw [isPolling, hsend, hops]
    rw [step, popStep, hpoll, if_neg Bool.false_ne_true]
  | lane i a =>
    rw [step, hlanes]
    cases i with
    | zero => cases a <;> rfl
    | succ i => rfl

/-- The steps for a read of two stripes. -/
def twoStripes : List SpdkAction :=
  [.worker, .worker, .worker, .worker, .lane 0 .take, .lane 0 .submit, .lane 0 .submit,
    .lane 0 .endBatch, .lane 0 (.complete 1), .lane 0 (.complete 0), .lane 0 .callback,
    .lane 0 .callback, .pop 0, .pop 0, .worker]

theorem eventually_reported_twoStripes :
    ∃ ρ : FairRun (step oneSsd) SpdkAction.agent (start oneSsd [.send ⟨0, 8192, false⟩]),
      (∀ n a, ρ.act n = some a → (ρ.state n).Admits a) ∧
        ∃ N, ∀ n, N ≤ n → Settled [.send ⟨0, 8192, false⟩] (ρ.state n) := by
  have hrun : ((runSteps (fun s a => if s.Admits a then step oneSsd s a else none)
      (start oneSsd [.send ⟨0, 8192, false⟩]) twoStripes).map
        fun s => (s.ops, s.sending, s.lanes)) = some ([], none, [.empty]) := by decide +kernel
  obtain ⟨s, hs, hrun⟩ := map_eq_some_iff.mp hrun
  simp only [Prod.mk.injEq] at hrun
  obtain ⟨hops, hsend, hlanes⟩ := hrun
  obtain ⟨hs, hadm⟩ := stateAt_ok hs
  let ρ : FairRun (step oneSsd) SpdkAction.agent (start oneSsd [.send ⟨0, 8192, false⟩]) :=
    .ofRun _ hs (step_eq_none hops hsend hlanes)
  exact ⟨ρ, hadm, (eventually_reported ρ hadm).2⟩

end SpdkState

/-! ## A completion can be lost

A request of one stripe more than the completion queue holds, to one SSD: all its commands are sent
before the worker polls, and if the poller runs the callbacks as the commands complete, then the
last one finds the queue full.  From there on there is always one pending command more than there
are commands on their way (`Lost`), so that the request is never finished and the worker never
stops waiting. -/

namespace SpdkState
variable {cfg : SpdkConfig} {s s' : SpdkState} {todo cq : List SpdkCmd}

/-- More commands of the first request are pending than are on their way. -/
structure Lost (s : SpdkState) : Prop where
  sent : s.reqs ≠ []
  unfinished : s.finished 0 = false
  missing : s.cmdsOf 0 < s.nPending 0

theorem Lost.worker (h : Lost s) (hs : s.workerStep cfg = some s') : Lost s' := by
  obtain ⟨hsent, hunfinished, hmissing⟩ := h
  obtain ⟨c, todo, lane, -, hl, rfl⟩ | ⟨-, rfl⟩ | ⟨-, op, rest, -, ⟨req, -, rfl⟩ | ⟨-, rfl⟩⟩ :=
    workerStep_cases hs
  · refine ⟨hsent, hunfinished, ?_⟩
    rw [cmdsOf_pushed hl]
    simp only [pushed]
    grind
  · exact ⟨hsent, hunfinished, hmissing⟩
  · -- the new request has another number
    have hne : 0 ≠ s.reqs.length := fun he => hsent (eq_nil_of_length_eq_zero he.symm)
    refine ⟨append_ne_nil_of_right_ne_nil _ (cons_ne_nil _ _), ?_, ?_⟩
    · exact (update_of_ne hne ..).trans hunfinished
    · exact hmissing.trans_eq (update_of_ne hne ..).symm
  · exact ⟨hsent, hunfinished, hmissing⟩

/-- **What is lost stays lost.** -/
theorem Lost.step {a : SpdkAction} (h : Lost s) (hs : step cfg s a = some s') : Lost s' := by
  cases a with
  | worker => exact h.worker hs
  | pop i =>
    obtain ⟨-, lane, c, cq, hl, hcq, rfl⟩ := popStep_cases hs
    obtain ⟨-, -, hreqs, -, -⟩ := popped_frame s i lane c cq
    have hcmds := cmdsOf_popped hl hcq 0
    have hmissing := h.missing
    refine ⟨hreqs ▸ h.sent, ?_, ?_⟩
    · -- at least two commands were pending, so that one still is
      rw [popped_finished, h.unfinished]
      grind
    · rw [popped_nPending]
      grind
  | lane i a =>
    obtain ⟨lane, hl, hs⟩ := Option.bind_eq_some_iff.mp hs
    obtain ⟨lane', ha, rfl⟩ := Option.map_eq_some_iff.mp hs
    refine ⟨h.sent, h.unfinished, ?_⟩
    have hset := cmdsOf_setLane hl lane' 0
    have hle := countP_act_le ha fun c => c.parent == 0
    have hmissing := h.missing
    show (s.setLane i lane').cmdsOf 0 < s.nPending 0
    omega

/-! ## A run that loses a completion -/

/-- A lane with nothing but completions. -/
def onlyCq (cq : List SpdkCmd) : SpdkLane := ⟨[], [], 0, [], [], cq⟩

theorem cmds_onlyCq (cq : List SpdkCmd) : (onlyCq cq).cmds = cq := rfl

/-- A command is pushed, submitted, completed, and its callback is run. -/
def roundTrip : List SpdkAction :=
  [.worker, .lane 0 .take, .lane 0 .submit, .lane 0 .endBatch, .lane 0 (.complete 0),
    .lane 0 .callback]

theorem exists_roundTrip {c : SpdkCmd} (hc : c.ssd = 0 ∧ c.parent = 0)
    (hsend : s.sending = some (c :: todo)) (hlanes : s.lanes = [onlyCq cq]) :
    ∃ t, Reach (step oneSsd) anyStep s t ∧ t.sending = some todo ∧
      t.lanes = [onlyCq (pushCq cq c)] ∧ t.nPending 0 = s.nPending 0 + 1 ∧
      t.finished = s.finished ∧ t.reqs = s.reqs ∧ t.landed = s.landed ++ [c] := by
  obtain ⟨ops, sending, reqs, nPending, finished, reports, lanes, landed⟩ := s
  obtain ⟨start, ssd, lba, lbaCount, write, parent⟩ := c
  obtain ⟨rfl, rfl⟩ : ssd = 0 ∧ parent = 0 := hc
  obtain rfl : sending = _ := hsend
  obtain rfl : lanes = _ := hlanes
  let c : SpdkCmd := ⟨start, 0, lba, lbaCount, write, 0⟩
  refine ⟨⟨ops, some todo, reqs, update nPending 0 (nPending 0 + 1), finished, reports,
    [onlyCq (pushCq cq c)], landed ++ [] ++ [] ++ [] ++ [c] ++ []⟩,
    Reach.of_run (l := roundTrip) rfl, rfl, rfl, ?_, rfl, rfl, ?_⟩
  · exact update_self 0 (nPending 0 + 1) nPending
  · simp only [append_nil]
    rfl

/-- All commands of a request are sent and come back before the worker polls. -/
theorem exists_allSent (htodo : ∀ c ∈ todo, c.ssd = 0 ∧ c.parent = 0)
    (hsend : s.sending = some todo) (hlanes : s.lanes = [onlyCq cq]) :
    ∃ t, Reach (step oneSsd) anyStep s t ∧ t.lanes = [onlyCq (todo.foldl pushCq cq)] ∧
      t.nPending 0 = s.nPending 0 + todo.length ∧ t.finished = s.finished ∧ t.reqs = s.reqs ∧
      t.landed = s.landed ++ todo := by
  induction todo generalizing s cq with
  | nil => exact ⟨s, .refl, hlanes, rfl, rfl, rfl, (append_nil _).symm⟩
  | cons c todo ih =>
    obtain ⟨u, hu, hsend', hlanes', hpending, hfinished, hreqs, hlanded⟩ :=
      exists_roundTrip (htodo c mem_cons_self) hsend hlanes
    obtain ⟨t, ht, hlanes'', hpending', hfinished', hreqs', hlanded'⟩ :=
      ih (fun d hd => htodo d (mem_cons_of_mem _ hd)) hsend' hlanes'
    refine ⟨t, hu.trans ht, hlanes'', ?_, hfinished'.trans hfinished, hreqs'.trans hreqs, ?_⟩
    · rw [length_cons]
      omega
    · rw [hlanded', hlanded, append_assoc]
      rfl

theorem length_foldl_pushCq_le {cq : List SpdkCmd} (h : cq.length ≤ pollerQueueCap)
    (todo : List SpdkCmd) : (todo.foldl pushCq cq).length ≤ pollerQueueCap := by
  induction todo generalizing cq with
  | nil => exact h
  | cons c todo ih =>
    exact ih (by grind [pushCq])

/-- A request of `k` whole stripes from the beginning has `k` commands. -/
theorem length_sendIoLoop_stripes (cfg : SpdkConfig) (parent k : Nat) (write : Bool) :
    ∀ fuel j, k ≤ j + fuel → j ≤ k →
      (sendIoLoop cfg parent ⟨0, k * stripeSize, write⟩ fuel (j * stripeSize)).length = k - j
  | 0, j, h, hle => by
    rw [sendIoLoop, length_nil]
    omega
  | fuel + 1, j, h, hle => by
    have hpos : 0 < stripeSize := by decide
    rw [sendIoLoop]
    by_cases hj : j < k
    · have hlt : j * stripeSize < k * stripeSize := Nat.mul_lt_mul_of_pos_right hj hpos
      have hsize : min (k * stripeSize - j * stripeSize)
          (stripeSize - (0 + j * stripeSize) % stripeSize) = stripeSize := by
        rw [zero_add, Nat.mul_mod_left, ← Nat.sub_mul]
        exact Nat.min_eq_right (Nat.le_mul_of_pos_left _ (by omega))
      have hnext : j * stripeSize + stripeSize = (j + 1) * stripeSize :=
        (Nat.succ_mul ..).symm
      rw [if_pos hlt, length_cons]
      simp only [hsize, hnext]
      rw [length_sendIoLoop_stripes cfg parent k write fuel (j + 1) (by omega) hj]
      omega
    · obtain rfl : j = k := by omega
      rw [if_neg (lt_irrefl _), length_nil, Nat.sub_self]

/-- A read of one stripe more than the completion queue holds. -/
def largeRead : SpdkRequest := ⟨0, (pollerQueueCap + 1) * stripeSize, false⟩

/-- **A completion is lost**, and with it the request: the device has completed all its commands,
and the worker waits for it for ever. -/
theorem exists_lost : ∃ s, Reach (step oneSsd) anyStep (start oneSsd [.send largeRead]) s ∧
      s.reqs = [largeRead] ∧ (∀ c ∈ sendIoCmds oneSsd 0 largeRead, c ∈ s.landed) ∧
      ∀ t, Reach (step oneSsd) anyStep s t → t.finished 0 = false ∧ ¬ t.Done := by
  have hbegin : Reach (step oneSsd) anyStep (start oneSsd [.send largeRead])
      ((start oneSsd [.send largeRead]).beginSend oneSsd largeRead [.wait]) :=
    .step .worker .refl trivial rfl
  have hcmds : ∀ c ∈ sendIoCmds oneSsd 0 largeRead, c.ssd = 0 ∧ c.parent = 0 := by
    intro c hc
    obtain ⟨hparent, hssd⟩ := mem_sendIoLoop hc
    exact ⟨Nat.lt_one_iff.mp hssd, hparent⟩
  obtain ⟨s, hs, hlanes, hpending, hfinished, hreqs, hlanded⟩ :=
    exists_allSent (s := (start oneSsd [.send largeRead]).beginSend oneSsd largeRead [.wait])
      hcmds rfl (rfl : _ = [onlyCq []])
  have hreach := hbegin.trans hs
  have hlength : (sendIoCmds oneSsd 0 largeRead).length = pollerQueueCap + 1 := by
    have hstripes := length_sendIoLoop_stripes oneSsd 0 (pollerQueueCap + 1) false largeRead.len 0
      (by decide) (Nat.zero_le _)
    exact hstripes
  have hlost : Lost s := by
    refine ⟨hreqs ▸ cons_ne_nil _ _, hfinished ▸ rfl, ?_⟩
    have hle : s.cmdsOf 0 ≤ pollerQueueCap := by
      rw [cmdsOf, hlanes, map_singleton, sum_singleton, cmds_onlyCq]
      refine le_trans (countP_le_length ..) ?_
      exact length_foldl_pushCq_le (Nat.zero_le _) _
    omega
  refine ⟨s, hreach, hreqs, fun c hc => ?_, fun t ht => ?_⟩
  · rw [hlanded]
    exact mem_append_right _ hc
  · have hlost' : Lost t := ht.invariant hlost fun _ _ _ hl _ hs => hl.step hs
    have hwait : t.EndsWaiting := by
      refine (hreach.trans ht).invariant (.inl ?_) fun _ _ _ hw _ hs => hw.step hs
      exact getLast?_concat
    refine ⟨hlost'.unfinished, fun hdone => ?_⟩
    rcases hwait with hlast | ⟨-, -, hfin⟩
    · rw [hdone.1] at hlast
      cases hlast
    · have hzero := hfin 0 (length_pos_iff.mpr hlost'.sent)
      rw [hlost'.unfinished] at hzero
      cases hzero

end SpdkState
end PipeANN
