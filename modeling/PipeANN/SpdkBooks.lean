import PipeANN.PartyLists
import PipeANN.SpdkLanes

/-! # What is pending, finished and reported

As long as a worker never has more commands outstanding at an SSD than the completion queue holds
and sends no empty request (`SpdkState.Admits`), no completion is lost: the number of pending
commands of a request is the number of its commands that were sent and have not come back
(`SpdkInv`).  A request is finished, and reported, when its last command comes back.
-/
namespace PipeANN
open List Function SpdkLane Option

/-! ## The commands of a request -/

theorem length_sendIoLoop_le (cfg : SpdkConfig) (parent : Nat) (req : SpdkRequest)
    (fuel done : Nat) : (sendIoLoop cfg parent req fuel done).length ≤ fuel := by
  fun_induction sendIoLoop <;> simp [*]

/-- The commands go to the SSDs there are and name their request. -/
theorem mem_sendIoLoop {cfg : SpdkConfig} {parent : Nat} {req : SpdkRequest} {c : SpdkCmd}
    {fuel done : Nat} (h : c ∈ sendIoLoop cfg parent req fuel done) :
    c.parent = parent ∧ c.ssd < cfg.nSsds := by
  fun_induction sendIoLoop with
  | case2 _ _ _ _ _ _ _ _ ih =>
    rcases mem_cons.mp h with rfl | h
    · exact ⟨rfl, Nat.mod_lt _ cfg.nSsds_pos⟩
    · exact ih h
  | _ => cases h

theorem sendIoCmds_ne_nil (cfg : SpdkConfig) (parent : Nat) {req : SpdkRequest}
    (h : 0 < req.len) : sendIoCmds cfg parent req ≠ [] := by
  obtain ⟨fuel, hfuel⟩ : ∃ fuel, req.len = fuel + 1 := ⟨req.len - 1, by omega⟩
  rw [sendIoCmds, hfuel, sendIoLoop, if_pos h]
  exact cons_ne_nil _ _

namespace SpdkState

/-- What a step of the worker can be. -/
theorem workerStep_cases {cfg : SpdkConfig} {s s' : SpdkState} (h : s.workerStep cfg = some s') :
    (∃ c todo lane, s.sending = some (c :: todo) ∧ s.lanes[c.ssd]? = some lane ∧
      s' = s.pushed c todo lane) ∨
    s.sending = some [] ∧ s' = { s with sending := none } ∨
    s.sending = none ∧ ∃ op rest, s.ops = op :: rest ∧
      ((∃ req, op = .send req ∧ s' = s.beginSend cfg req rest) ∨
        (op = .poll ∨ op = .wait ∧ ∀ r < s.reqs.length, s.finished r) ∧
          s' = { s with ops := rest }) := by
  revert h
  fun_cases workerStep with
  | case1 c todo hsend =>
    intro h
    obtain ⟨lane, hl, h⟩ := bind_eq_some_iff.mp h
    obtain ⟨-, ⟨⟩⟩ := ite_none_right_eq_some.mp h
    exact .inl ⟨c, todo, lane, hsend, hl, rfl⟩
  | _ => grind

/-! ## A completion -/

variable {i : Nat}

theorem popStep_cases {s s' : SpdkState} (h : s.popStep i = some s') :
    s.isPolling ∧ ∃ lane c cq, s.lanes[i]? = some lane ∧ lane.cq = c :: cq ∧
      s' = s.popped i lane c cq := by
  unfold popStep at h
  grind

section
variable (s : SpdkState) (i : Nat) (lane : SpdkLane) (c : SpdkCmd) (cq : List SpdkCmd)

/-- A completion changes its queue and what is known of the request. -/
theorem popped_frame :
    (s.popped i lane c cq).ops = s.ops ∧ (s.popped i lane c cq).sending = s.sending ∧
      (s.popped i lane c cq).reqs = s.reqs ∧ (s.popped i lane c cq).landed = s.landed ∧
      (s.popped i lane c cq).lanes = (s.setLane i { lane with cq := cq }).lanes := by
  unfold popped popDone
  split <;> exact ⟨rfl, rfl, rfl, rfl, rfl⟩

theorem popped_nPending : (s.popped i lane c cq).nPending =
    update s.nPending c.parent (s.nPending c.parent - 1) := by
  unfold popped popDone
  split <;> rfl

theorem popped_reports : (s.popped i lane c cq).reports =
    s.reports ++ if s.nPending c.parent - 1 = 0 then [c.parent] else [] := by
  grind [popped, popDone, setLane]

theorem popped_finished (r : Nat) : (s.popped i lane c cq).finished r =
    (decide (r = c.parent ∧ s.nPending c.parent - 1 = 0) || s.finished r) := by
  unfold popped popDone setLane
  split <;> grind

end

/-! ## What is pending, finished and reported -/

variable (s : SpdkState)

/-- The commands of request `r` that were sent and have not come back. -/
def cmdsOf (r : Nat) : Nat :=
  (s.lanes.map fun lane => lane.cmds.countP fun c => c.parent == r).sum

/-- A command of request `r` is still to be pushed. -/
def IsSending (r : Nat) : Prop :=
  ∃ todo, s.sending = some todo ∧ ∃ c ∈ todo, c.parent = r

/-- A command that has not landed: it is still to be pushed, or waits, or is in the device. -/
def OnTheWay (c : SpdkCmd) : Prop :=
  (∃ todo, s.sending = some todo ∧ c ∈ todo) ∨ ∃ lane ∈ s.lanes, c ∈ lane.early

/-- The requests that a list of operations sends. -/
def sends (ops : List SpdkOp) : List SpdkRequest :=
  ops.filterMap fun
    | .send req => some req
    | _ => none

/-- Whether the worker would have no more commands outstanding at an SSD than the completion
queue holds, and does not begin an empty request. -/
def admitsWorker : Option (List SpdkCmd) → List SpdkOp → Bool
  | some (c :: _), _ => s.lanes[c.ssd]?.all fun lane => lane.cmds.length < pollerQueueCap
  | none, .send req :: _ => 0 < req.len
  | _, _ => true

/-- The steps of a worker that never has more commands outstanding at an SSD than the completion
queue holds, and sends no empty request. -/
def Admits : SpdkAction → Prop
  | .worker => s.admitsWorker s.sending s.ops = true
  | _ => True

instance (s : SpdkState) : (a : SpdkAction) → Decidable (s.Admits a)
  | .worker => inferInstanceAs (Decidable (s.admitsWorker s.sending s.ops = true))
  | .pop _ => isTrue trivial
  | .lane _ _ => isTrue trivial

structure SpdkInv (cfg : SpdkConfig) (ops : List SpdkOp) (s : SpdkState) : Prop where
  lanes_length : s.lanes.length = cfg.nSsds
  room : ∀ lane ∈ s.lanes, lane.cmds.length ≤ pollerQueueCap
  parent_lt : ∀ lane ∈ s.lanes, ∀ c ∈ lane.cmds, c.parent < s.reqs.length
  sending : ∀ todo, s.sending = some todo →
    ∀ c ∈ todo, c.parent + 1 = s.reqs.length ∧ c.ssd < cfg.nSsds
  pending : ∀ r, s.nPending r = s.cmdsOf r
  finished : ∀ r, s.finished r = true ↔ r < s.reqs.length ∧ s.cmdsOf r = 0 ∧ ¬ s.IsSending r
  reports : ∀ r, s.reports.count r = if s.finished r then 1 else 0
  landed : ∀ r req, s.reqs[r]? = some req →
    ∀ c ∈ sendIoCmds cfg r req, c ∈ s.landed ∨ s.OnTheWay c
  script : s.reqs ++ sends s.ops = sends ops

variable {s : SpdkState} {c : SpdkCmd} {cq : List SpdkCmd}

theorem cmdsOf_setLane {lane : SpdkLane}
    (hl : s.lanes[i]? = some lane) (lane' : SpdkLane) (r : Nat) :
    (s.setLane i lane').cmdsOf r + lane.cmds.countP (fun c => c.parent == r) =
      s.cmdsOf r + lane'.cmds.countP fun c => c.parent == r :=
  sum_map_set hl lane'

/-- One command more is on its way after a push. -/
theorem cmdsOf_pushed {lane : SpdkLane} (hl : s.lanes[c.ssd]? = some lane) (todo : List SpdkCmd)
    (r : Nat) : (s.pushed c todo lane).cmdsOf r = s.cmdsOf r + if c.parent = r then 1 else 0 := by
  have hset := cmdsOf_setLane hl { lane with queue := lane.queue ++ [c] } r
  rw [(cmds_push lane c).countP_eq, countP_cons] at hset
  simp only [beq_iff_eq] at hset
  show (s.setLane c.ssd { lane with queue := lane.queue ++ [c] }).cmdsOf r = _
  omega

/-- One command less is on its way after a completion. -/
theorem cmdsOf_popped {lane : SpdkLane} (hl : s.lanes[i]? = some lane) (hcq : lane.cq = c :: cq)
    (r : Nat) : s.cmdsOf r = (s.popped i lane c cq).cmdsOf r + if c.parent = r then 1 else 0 := by
  have hset := cmdsOf_setLane hl { lane with cq := cq } r
  rw [(cmds_pop hcq).countP_eq, countP_cons] at hset
  simp only [beq_iff_eq] at hset
  have hlanes := (popped_frame s i lane c cq).2.2.2.2
  rw [cmdsOf, cmdsOf, hlanes, ← cmdsOf, ← cmdsOf]
  omega

/-- What holds of the lanes holds after one has moved, if it holds of this one. -/
theorem forall_setLane {lane' : SpdkLane} {p : SpdkLane → Prop} (h : ∀ lane ∈ s.lanes, p lane)
    (h' : p lane') : ∀ lane ∈ (s.setLane i lane').lanes, p lane := by
  intro lane hlane
  rcases mem_or_eq_of_mem_set hlane with hlane | rfl
  · exact h lane hlane
  · exact h'

variable {cfg : SpdkConfig} {ops : List SpdkOp} {s s' : SpdkState} {rest : List SpdkOp}

theorem SpdkInv.start (cfg : SpdkConfig) (ops : List SpdkOp) : SpdkInv cfg ops (start cfg ops) where
  lanes_length := length_replicate
  room lane hl := by
    rw [(mem_replicate.mp hl).2]
    exact Nat.zero_le _
  parent_lt lane hl c hc := by
    rw [(mem_replicate.mp hl).2] at hc
    cases hc
  sending todo h := by cases h
  pending r := by
    simp [SpdkState.start, cmdsOf, cmds, empty]
  finished r := by
    simp [SpdkState.start]
  reports r := rfl
  landed r req h := by cases h
  script := by
    simp [SpdkState.start, sends]

theorem not_isSending (hsend : s.sending = none) (r : Nat) : ¬ s.IsSending r := by
  simp [IsSending, hsend]

theorem sending_of_isPolling (h : s.isPolling) : s.sending = none := by
  grind [isPolling]

section
variable (h : SpdkInv cfg ops s)
include h

/-- A step of a poller or of a device keeps the books. -/
theorem SpdkInv.lane {a : LaneAction} {lane lane' : SpdkLane}
    (hl : s.lanes[i]? = some lane) (ha : lane.act cfg a = some lane') :
    SpdkInv cfg ops { s.setLane i lane' with landed := s.landed ++ lane.landedBy a } := by
  have hmem := mem_of_getElem? hl
  have hperm := act_perm ha (h.room lane hmem)
  have hcmds (r : Nat) : (s.setLane i lane').cmdsOf r = s.cmdsOf r := by
    have hset := cmdsOf_setLane hl lane' r
    rw [hperm.countP_eq] at hset
    exact Nat.add_right_cancel hset
  refine ⟨?_, ?_, ?_, h.sending, fun r => ?_, fun r => ?_, h.reports, ?_, h.script⟩
  · exact length_set.trans h.lanes_length
  · exact forall_setLane h.room (hperm.length_eq ▸ h.room lane hmem)
  · exact forall_setLane h.parent_lt fun c hc => h.parent_lt lane hmem c (hperm.mem_iff.mp hc)
  · exact (h.pending r).trans (hcmds r).symm
  · exact (h.finished r).trans (by rw [← hcmds r]; exact Iff.rfl)
  · intro r req hr c hc
    have happ : c ∈ s.landed ∨ c ∈ lane.landedBy a → c ∈ s.landed ++ lane.landedBy a :=
      mem_append.mpr
    rcases h.landed r req hr c hc with hlanded | hsend | hway
    · exact .inl (happ (.inl hlanded))
    · exact .inr (.inl hsend)
    · rcases exists_mem_set hl lane' hway with hearly | hway
      · rcases mem_early ha hearly with hearly | hland
        · have hi : i < s.lanes.length := (List.getElem?_eq_some_iff.mp hl).1
          exact .inr (.inr ⟨lane', mem_set hi lane', hearly⟩)
        · exact .inl (happ (.inr hland))
      · exact .inr (.inr hway)

/-- A push keeps the books: there is one command more, and one more is pending. -/
theorem SpdkInv.push {todo : List SpdkCmd} (hsend : s.sending = some (c :: todo)) {lane : SpdkLane}
    (hl : s.lanes[c.ssd]? = some lane) (hroom : lane.cmds.length < pollerQueueCap) :
    SpdkInv cfg ops (s.pushed c todo lane) := by
  have hmem := mem_of_getElem? hl
  have hperm := cmds_push lane c
  have hcmds := cmdsOf_pushed hl todo
  have hc := h.sending _ hsend
  have hi : c.ssd < s.lanes.length := (List.getElem?_eq_some_iff.mp hl).1
  have hsending (r : Nat) : s.IsSending r ↔ c.parent = r ∨ (s.pushed c todo lane).IsSending r := by
    simp [IsSending, hsend, pushed]
  refine ⟨length_set.trans h.lanes_length, ?_, ?_, ?_, fun r => ?_, fun r => ?_, h.reports, ?_,
    h.script⟩
  · exact forall_setLane h.room (hperm.length_eq.trans_le hroom)
  · refine forall_setLane h.parent_lt fun d hd => ?_
    change d.parent < s.reqs.length
    have hold := h.parent_lt lane hmem d
    grind
  · rintro _ ⟨⟩ d hd
    exact hc d (mem_cons_of_mem _ hd)
  · rw [hcmds, ← h.pending]
    simp only [pushed]
    grind
  · -- the request being sent is not finished before or after
    have hf : (s.pushed c todo lane).finished r ↔ _ := h.finished r
    grind [pushed, setLane]
  · intro r req hr d hd
    have hearly : ∀ d, d ∈ early { lane with queue := lane.queue ++ [c] } ↔
        d ∈ lane.early ∨ d = c := by
      simp only [early]
      grind
    have hset := mem_set hi { lane with queue := lane.queue ++ [c] }
    rcases h.landed r req hr d hd with hlanded | ⟨todo', htodo, hd⟩ | hway
    · exact .inl hlanded
    · obtain rfl : c :: todo = todo' := some.inj (hsend.symm.trans htodo)
      rcases mem_cons.mp hd with rfl | hd
      · exact .inr (.inr ⟨_, hset, (hearly d).mpr (.inr rfl)⟩)
      · exact .inr (.inl ⟨todo, rfl, hd⟩)
    · rcases exists_mem_set hl { lane with queue := lane.queue ++ [c] } hway with hd | hway
      · exact .inr (.inr ⟨_, hset, (hearly d).mpr (.inl hd)⟩)
      · exact .inr (.inr hway)

/-- A worker begins to send a request that is not empty. -/
theorem SpdkInv.beginSend (hsend : s.sending = none)
    {req : SpdkRequest} (hops : s.ops = .send req :: rest)
    (hlen : 0 < req.len) : SpdkInv cfg ops (s.beginSend cfg req rest) := by
  have hcmds (r : Nat) : (s.beginSend cfg req rest).cmdsOf r = s.cmdsOf r := rfl
  -- no command of the new request is on its way, and its number is new
  have hnew : s.cmdsOf s.reqs.length = 0 := by
    refine Nat.eq_zero_of_not_pos fun hpos => ?_
    obtain ⟨lane, hlane, hpos⟩ := exists_pos_of_sum hpos
    obtain ⟨c, hc, hp⟩ := countP_pos_iff.mp hpos
    grind [h.parent_lt lane hlane c hc]
  have hlen' : (s.beginSend cfg req rest).reqs.length = s.reqs.length + 1 := by
    simp [SpdkState.beginSend]
  have hsending (r : Nat) : (s.beginSend cfg req rest).IsSending r ↔ r = s.reqs.length := by
    obtain ⟨c, todo, htodo⟩ := exists_cons_of_ne_nil (sendIoCmds_ne_nil cfg s.reqs.length hlen)
    have hc : c ∈ sendIoCmds cfg s.reqs.length req := htodo ▸ mem_cons_self
    constructor
    · rintro ⟨_, ⟨⟩, d, hd, rfl⟩
      exact (mem_sendIoLoop hd).1
    · rintro rfl
      exact ⟨_, rfl, c, hc, (mem_sendIoLoop hc).1⟩
  have hno := not_isSending hsend
  refine ⟨h.lanes_length, h.room, fun lane hlane c hc => ?_, ?_, fun r => ?_, fun r => ?_,
    fun r => ?_, fun r req' hr c hc => ?_, ?_⟩
  · exact hlen' ▸ Nat.lt_succ_of_lt (h.parent_lt lane hlane c hc)
  · rintro _ ⟨⟩ c hc
    obtain ⟨hp, hs⟩ := mem_sendIoLoop hc
    exact ⟨hlen' ▸ hp ▸ rfl, hs⟩
  · rw [hcmds r]
    simp only [SpdkState.beginSend]
    grind [h.pending r]
  · have hold := h.finished r
    rw [hsending, hcmds]
    simp only [SpdkState.beginSend]
    grind
  · have hold := h.finished r
    have hcount := h.reports r
    simp only [SpdkState.beginSend]
    grind
  · rw [SpdkState.beginSend, getElem?_append] at hr
    split_ifs at hr with hlt
    · rcases h.landed r req' hr c hc with hlanded | ⟨todo, htodo, -⟩ | hway
      · exact .inl hlanded
      · cases hsend.symm.trans htodo
      · exact .inr (.inr hway)
    · obtain ⟨rfl, rfl⟩ : r = s.reqs.length ∧ req = req' := by grind
      exact .inr (.inl ⟨_, rfl, hc⟩)
  · rw [← h.script, hops]
    simp [SpdkState.beginSend, sends]

/-- The end of `send_io`. -/
theorem SpdkInv.endSend (hsend : s.sending = some []) :
    SpdkInv cfg ops { s with sending := none } := by
  have hno (r : Nat) : ¬ s.IsSending r := by simp [IsSending, hsend]
  refine { h with
    sending := fun todo htodo => (by cases htodo)
    finished := fun r => ?_
    landed := fun r req hr c hc => ?_ }
  · refine (h.finished r).trans (and_congr_right fun _ => and_congr_right fun _ => ?_)
    exact iff_of_true (hno r) (not_isSending rfl r)
  · refine (h.landed r req hr c hc).imp_right (Or.imp_left ?_)
    rintro ⟨todo, htodo, hc⟩
    obtain rfl : [] = todo := some.inj (hsend.symm.trans htodo)
    cases hc

/-- A completion that comes back: one command less is on its way, and one less is pending. -/
theorem SpdkInv.pop (hpoll : s.isPolling) {lane : SpdkLane} (hl : s.lanes[i]? = some lane)
    (hcq : lane.cq = c :: cq) : SpdkInv cfg ops (s.popped i lane c cq) := by
  have hmem := mem_of_getElem? hl
  have hperm := cmds_pop hcq
  obtain ⟨hops, hsending, hreqs, hlanded, hlanes⟩ := popped_frame s i lane c cq
  have hcmds := cmdsOf_popped hl hcq
  have hnone : s.sending = none := sending_of_isPolling hpoll
  have hno := not_isSending (hsending.trans hnone)
  have hno' := not_isSending hnone
  have hlt := h.parent_lt lane hmem c (hperm.mem_iff.mpr mem_cons_self)
  have hpending := h.pending
  refine ⟨?_, ?_, ?_, ?_, fun r => ?_, fun r => ?_, fun r => ?_, ?_, ?_⟩
  · exact hlanes ▸ length_set.trans h.lanes_length
  · rw [hlanes]
    refine forall_setLane h.room (le_trans ?_ (h.room lane hmem))
    rw [hperm.length_eq]
    exact Nat.le_succ _
  · rw [hlanes, hreqs]
    exact forall_setLane h.parent_lt fun d hd =>
      h.parent_lt lane hmem d (hperm.mem_iff.mpr (mem_cons_of_mem _ hd))
  · simp [hsending, hnone]
  · rw [popped_nPending]
    grind
  · have hold := h.finished r
    rw [popped_finished]
    grind
  · -- the request has a command on its way, so that it was not finished
    have hold := h.finished r
    have hcount := h.reports r
    rw [popped_reports, popped_finished]
    grind
  · intro r req hr d hd
    rw [hreqs] at hr
    rw [hlanded, OnTheWay, hlanes]
    rcases h.landed r req hr d hd with hland | ⟨todo, htodo, -⟩ | hway
    · exact .inl hland
    · cases hnone.symm.trans htodo
    · refine .inr (.inr ?_)
      rcases exists_mem_set hl { lane with cq := cq } hway with hearly | hway
      · exact ⟨_, mem_set (List.getElem?_eq_some_iff.mp hl).1 _, hearly⟩
      · exact hway
  · exact hreqs ▸ hops ▸ h.script

theorem SpdkInv.worker (hadm : s.Admits .worker)
    (hs : s.workerStep cfg = some s') : SpdkInv cfg ops s' := by
  unfold Admits at hadm
  obtain ⟨c, todo, lane, hsend, hl, rfl⟩ | ⟨hsend, rfl⟩ |
    ⟨hsend, op, rest, hops, ⟨req, rfl, rfl⟩ | ⟨hop, rfl⟩⟩ := workerStep_cases hs
  · rw [hsend, admitsWorker, hl] at hadm
    exact h.push hsend hl (of_decide_eq_true hadm)
  · exact h.endSend hsend
  · rw [hsend, hops] at hadm
    exact h.beginSend hsend hops (of_decide_eq_true hadm)
  · have hsends : sends s.ops = sends rest := by
      rw [hops]
      rcases hop with rfl | ⟨rfl, -⟩ <;> rfl
    exact { h with script := hsends ▸ h.script }

theorem SpdkInv.step {a : SpdkAction} (hadm : s.Admits a)
    (hs : SpdkState.step cfg s a = some s') : SpdkInv cfg ops s' := by
  cases a with
  | worker => exact h.worker hadm hs
  | pop i =>
    obtain ⟨hpoll, lane, c, cq, hl, hcq, rfl⟩ := popStep_cases hs
    exact h.pop hpoll hl hcq
  | lane i a =>
    obtain ⟨lane, hl, hs⟩ := bind_eq_some_iff.mp hs
    obtain ⟨lane', ha, rfl⟩ := map_eq_some_iff.mp hs
    exact h.lane hl ha

end

end SpdkState
end PipeANN
