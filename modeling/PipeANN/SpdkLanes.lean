import Mathlib.Data.List.Perm.Basic
import PipeANN.SpdkReader

/-! # One SSD and its poller

What a step of a poller or of a device does to the commands that are on their way: each step is
work done (`work_act`), a step loses no command while the completion queue has room (`act_perm`),
and while there are commands that have not come back to the worker, some step can be taken
(`exists_act`).
-/
namespace PipeANN
open List
namespace SpdkLane

variable {cfg : SpdkConfig} {lane lane' : SpdkLane} {a : LaneAction}

theorem length_pushCq_le (cq : List SpdkCmd) (c : SpdkCmd) :
    (pushCq cq c).length ≤ cq.length + 1 := by
  grind [pushCq]

theorem cmds_push (lane : SpdkLane) (c : SpdkCmd) :
    ({ lane with queue := lane.queue ++ [c] } : SpdkLane).cmds.Perm (c :: lane.cmds) := by
  refine perm_iff_count.mpr fun x => ?_
  simp only [cmds, count_append, count_cons, count_nil]
  omega

theorem cmds_pop {c : SpdkCmd} {cq : List SpdkCmd} (h : lane.cq = c :: cq) :
    lane.cmds.Perm (c :: ({ lane with cq := cq } : SpdkLane).cmds) := by
  refine perm_iff_count.mpr fun x => ?_
  simp only [cmds, h, count_append, count_cons]
  omega

section
variable (h : lane.act cfg a = some lane')
include h

/-! ## Work -/

/-- The steps that the commands of a lane are away from the worker, with the slots that the
poller has to free. -/
def work (lane : SpdkLane) : Nat :=
  7 * lane.queue.length + 4 * lane.batch.length + lane.taken + 3 * lane.inFlight.length +
    2 * lane.completed.length + lane.cq.length

/-- Every step of a lane is work done. -/
theorem work_act : lane'.work < lane.work := by
  revert h
  fun_cases act with
  | case1 hc =>
    rintro ⟨⟩
    have hpos := length_pos_iff.mpr hc.2
    simp only [work, length_nil, length_append]
    omega
  | case5 c batch hb hf =>
    rintro ⟨⟩
    simp only [work, hb, length_cons, length_append, length_nil]
    omega
  | case6 hc =>
    rintro ⟨⟩
    simp only [work]
    omega
  | case9 c completed hc =>
    rintro ⟨⟩
    have hle := length_pushCq_le lane.cq c
    simp only [work, hc, length_cons]
    omega
  | case12 k c hk =>
    rintro ⟨⟩
    obtain ⟨hlt, -⟩ := List.getElem?_eq_some_iff.mp hk
    simp only [work, length_eraseIdx_of_lt hlt, length_append, length_singleton]
    omega
  | _ => rintro ⟨⟩

/-! ## Nothing gets lost -/

/-- A step moves commands on and loses none, unless it is a callback that finds the completion
queue full. -/
theorem act_cmds : lane'.cmds.Perm lane.cmds ∨
      (pollerQueueCap < lane.cmds.length ∧ ∃ c, lane.cmds.Perm (c :: lane'.cmds)) := by
  revert h
  fun_cases act with
  | case1 =>
    rintro ⟨⟩
    refine .inl (perm_iff_count.mpr fun x => ?_)
    simp only [cmds, count_append, count_nil]
    omega
  | case5 c batch hb hf =>
    rintro ⟨⟩
    refine .inl (perm_iff_count.mpr fun x => ?_)
    simp only [cmds, hb, count_append, count_cons, count_nil]
    omega
  | case6 =>
    rintro ⟨⟩
    exact .inl (.refl _)
  | case9 c completed hc =>
    rintro ⟨⟩
    by_cases hroom : lane.cq.length < pollerQueueCap
    · refine .inl (perm_iff_count.mpr fun x => ?_)
      simp only [cmds, hc, pushCq, if_pos hroom, count_append, count_cons, count_nil]
      omega
    · refine .inr ⟨?_, c, perm_iff_count.mpr fun x => ?_⟩
      · simp only [cmds, hc, length_append, length_cons]
        omega
      · simp only [cmds, hc, pushCq, if_neg hroom, count_append, count_cons]
        omega
  | case12 k c hk =>
    rintro ⟨⟩
    obtain ⟨hlt, rfl⟩ := List.getElem?_eq_some_iff.mp hk
    have hcount (x) := (getElem_cons_eraseIdx_perm hlt).count_eq x
    simp only [count_cons] at hcount
    refine .inl (perm_iff_count.mpr fun x => ?_)
    have hx := hcount x
    simp only [cmds, count_append, count_cons, count_nil]
    omega
  | _ => rintro ⟨⟩

/-- With no more commands on their way than the completion queue holds, none is lost. -/
theorem act_perm (hle : lane.cmds.length ≤ pollerQueueCap) : lane'.cmds.Perm lane.cmds :=
  (act_cmds h).resolve_right fun hlost => absurd hlost.1 (not_lt.mpr hle)

/-- No step makes commands. -/
theorem countP_act_le (p : SpdkCmd → Bool) : lane'.cmds.countP p ≤ lane.cmds.countP p := by
  rcases act_cmds h with hperm | ⟨-, c, hperm⟩
  · rw [hperm.countP_eq]
  · rw [hperm.countP_eq, countP_cons]
    exact Nat.le_add_right _ _

/-- The commands that have not landed: in a queue or in the device. -/
def early (lane : SpdkLane) : List SpdkCmd := lane.queue ++ lane.batch ++ lane.inFlight

/-- A command stays on its way or lands. -/
theorem mem_early {c : SpdkCmd} (hc : c ∈ lane.early) : c ∈ lane'.early ∨ c ∈ lane.landedBy a := by
  simp only [early, mem_append] at hc
  revert h
  fun_cases act with
  | case1 | case5 =>
    rintro ⟨⟩
    simp only [early]
    grind
  | case6 | case9 =>
    rintro ⟨⟩
    exact .inl (by simpa only [early, mem_append] using hc)
  | case12 k d hk =>
    rintro ⟨⟩
    simp only [early, mem_append]
    rcases hc with hc | hc
    · exact .inl (.inl hc)
    · -- the command that completes is the one that leaves the device
      obtain ⟨hlt, rfl⟩ := List.getElem?_eq_some_iff.mp hk
      rcases mem_cons.mp ((getElem_cons_eraseIdx_perm hlt).mem_iff.mpr hc) with rfl | hc
      · exact .inr (by rw [landedBy, hk]; exact mem_singleton_self _)
      · exact .inl (.inr hc)
  | _ => rintro ⟨⟩

end

/-- **A lane moves on** while it has commands that have not come back to the worker. -/
theorem exists_act (cfg : SpdkConfig)
    (h : 0 < lane.taken ∨ lane.queue ≠ [] ∨ lane.batch ≠ [] ∨ lane.inFlight ≠ [] ∨
      lane.completed ≠ []) : ∃ a lane', lane.act cfg a = some lane' := by
  have hdepth := cfg.depth_pos
  have hsome (a : LaneAction) (ha : (lane.act cfg a).isSome) :
      ∃ a lane', lane.act cfg a = some lane' :=
    ⟨a, Option.isSome_iff_exists.mp ha⟩
  by_cases hb : lane.batch = []
  · by_cases ht : lane.taken = 0
    · by_cases hq : lane.queue = []
      · by_cases hc : lane.completed = []
        · exact hsome (.complete 0) (by grind [act, eq_nil_of_length_eq_zero])
        · exact hsome .callback (by grind [act])
      · exact hsome .take (by grind [act])
    · exact hsome .endBatch (by grind [act])
  · -- the next command is submitted, unless the device is full
    by_cases hfull : lane.isFull cfg
    · by_cases hc : lane.completed = []
      · exact hsome (.complete 0) (by grind [act, isFull])
      · exact hsome .callback (by grind [act])
    · exact hsome .submit (by grind [act])

end SpdkLane

end PipeANN
