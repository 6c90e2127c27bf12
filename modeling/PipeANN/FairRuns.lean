import PipeANN.GuardedRuns

/-! # Infinite runs that are fair

An infinite run of a labelled transition function takes a step or idles at each instant.  Each
step belongs to an agent, and the run is fair if no agent is left out for ever: at instants as
late as one likes, the agent takes a step or has none to take.

Where every step is work done and a step is always possible until the end, a fair run comes to
its end (`FairRun.eventually_done`).  A finite run that ends in a state without a further step is
such a run, idle from there on (`FairRun.ofRun`).
-/
namespace PipeANN
open List Option Nat

variable {σ α ι : Type}

/-- A fair infinite run from `s₀`, where `agent` says who takes a step. -/
structure FairRun (step : σ → α → Option σ) (agent : α → ι) (s₀ : σ) where
  state : Nat → σ
  /-- The step taken at an instant, or nothing. -/
  act : Nat → Option α
  start : state 0 = s₀
  idle : ∀ n, act n = none → state (n + 1) = state n
  next : ∀ n a, act n = some a → step (state n) a = some (state (n + 1))
  /-- No agent is left out: it acts again and again, or it cannot. -/
  fair : ∀ (i : ι) (n : Nat), ∃ m, n ≤ m ∧
    ((∃ a, act m = some a ∧ agent a = i) ∨ ∀ a, agent a = i → step (state m) a = none)

namespace FairRun
variable {step : σ → α → Option σ} {agent : α → ι} {s₀ : σ} (ρ : FairRun step agent s₀)

/-- The states of a run whose steps are admitted are reached by admitted steps. -/
theorem reach {ok : σ → α → Prop} (hok : ∀ n a, ρ.act n = some a → ok (ρ.state n) a) (n : Nat) :
    Reach step ok s₀ (ρ.state n) := by
  induction n with
  | zero =>
    rw [ρ.start]
    exact .refl
  | succ n ih =>
    cases ha : ρ.act n with
    | none =>
      rw [ρ.idle n ha]
      exact ih
    | some a => exact .step a ih (hok n a ha) (ρ.next n a ha)

section
variable {work : σ → Nat} (hwork : ∀ s a s', step s a = some s' → work s' < work s)
include hwork

theorem work_succ_le (n : Nat) : work (ρ.state (n + 1)) ≤ work (ρ.state n) := by
  cases ha : ρ.act n with
  | none => exact Nat.le_of_eq (congrArg work (ρ.idle n ha))
  | some a => exact Nat.le_of_lt (hwork _ a _ (ρ.next n a ha))

/-- From some instant on, the work does not get less. -/
theorem exists_least : ∃ N, ∀ n, N ≤ n → work (ρ.state n) = work (ρ.state N) := by
  have hmono (N n : Nat) (h : N ≤ n) : work (ρ.state n) ≤ work (ρ.state N) := by
    induction h with
    | refl => exact Nat.le_refl _
    | step _ ih => exact Nat.le_trans (ρ.work_succ_le hwork _) ih
  -- induction on the work that is left, to the last instant at which it gets less
  have hfrom (k : Nat) : ∀ M, work (ρ.state M) ≤ k →
      ∃ N, ∀ n, N ≤ n → work (ρ.state n) = work (ρ.state N) := by
    induction k with
    | zero =>
      intro M hM
      refine ⟨M, fun n hn => ?_⟩
      have := hmono M n hn
      omega
    | succ k ih =>
      intro M hM
      by_cases hless : ∃ n, M ≤ n ∧ work (ρ.state n) < work (ρ.state M)
      · obtain ⟨n, -, hlt⟩ := hless
        exact ih n (by omega)
      · refine ⟨M, fun n hn => Nat.le_antisymm (hmono M n hn) (Nat.le_of_not_lt fun hlt => ?_)⟩
        exact hless ⟨n, hn, hlt⟩
  exact hfrom (work (ρ.state 0)) 0 (Nat.le_refl _)

/-- **A fair run comes to its end**, if every step is work done and some step is possible in
every state that is not the end. -/
theorem eventually_done (done : σ → Prop)
    (hstep : ∀ n, ¬ done (ρ.state n) → ∃ a s', step (ρ.state n) a = some s') :
    ∃ N, ∀ n, N ≤ n → done (ρ.state n) := by
  obtain ⟨N, hN⟩ := ρ.exists_least hwork
  have hidle (n : Nat) (hn : N ≤ n) : ρ.act n = none := by
    cases ha : ρ.act n with
    | none => rfl
    | some a =>
      have hlt := hwork _ a _ (ρ.next n a ha)
      rw [hN n hn, hN (n + 1) (le_succ_of_le hn)] at hlt
      exact absurd hlt (Nat.lt_irrefl _)
  have hsame (n : Nat) (hn : N ≤ n) : ρ.state n = ρ.state N := by
    induction hn with
    | refl => rfl
    | step hle ih => rw [ρ.idle _ (hidle _ hle), ih]
  refine ⟨N, fun n hn => ?_⟩
  by_contra hdone
  obtain ⟨a, s', hs⟩ := hstep n hdone
  obtain ⟨m, hm, ⟨b, hb, -⟩ | hnone⟩ := ρ.fair (agent a) N
  · rw [hidle m hm] at hb
    cases hb
  · rw [hsame n hn, ← hsame m hm, hnone a rfl] at hs
    cases hs

end

end FairRun

/-- The state of a finite run at an instant; at the end it stays. -/
def stateAt (step : σ → α → Option σ) (s₀ : σ) (l : List α) (n : Nat) : σ :=
  (runSteps step s₀ (l.take n)).getD s₀

section
variable {step : σ → α → Option σ} {agent : α → ι} {s₀ s : σ} {l : List α}

theorem stateAt_idle {n : Nat} (hn : l[n]? = none) :
    stateAt step s₀ l (n + 1) = stateAt step s₀ l n := by
  have hlen := getElem?_eq_none_iff.mp hn
  rw [stateAt, stateAt, take_of_length_le hlen, take_of_length_le (le_succ_of_le hlen)]

section
variable (h : runSteps step s₀ l = some s)
include h

/-- The beginning of a run is a run. -/
theorem exists_runSteps_take (n : Nat) : ∃ t, runSteps step s₀ (l.take n) = some t := by
  rw [← take_append_drop n l, runSteps_append] at h
  obtain ⟨t, ht, -⟩ := bind_eq_some_iff.mp h
  exact ⟨t, ht⟩

theorem stateAt_next {n : Nat} {a : α} (hn : l[n]? = some a) :
    step (stateAt step s₀ l n) a = some (stateAt step s₀ l (n + 1)) := by
  obtain ⟨s₂, h₂⟩ := exists_runSteps_take h (n + 1)
  have hsplit := h₂
  rw [take_add_one, hn, runSteps_append] at hsplit
  obtain ⟨s₁, h₁, hlast⟩ := bind_eq_some_iff.mp hsplit
  obtain ⟨s₂', hstep, hend⟩ := bind_eq_some_iff.mp hlast
  cases hend
  rw [stateAt, stateAt, h₁, h₂]
  exact hstep

theorem stateAt_fair (hend : ∀ a, step s a = none) (i : ι)
    (n : Nat) : ∃ m, n ≤ m ∧ ((∃ a, l[m]? = some a ∧ agent a = i) ∨
      ∀ a, agent a = i → step (stateAt step s₀ l m) a = none) := by
  refine ⟨max n l.length, Nat.le_max_left .., .inr fun a _ => ?_⟩
  rw [stateAt, take_of_length_le (Nat.le_max_right ..), h]
  exact hend a

end

/-- The steps of a run that was evaluated together with a side condition meet it. -/
theorem stateAt_ok {ok : σ → α → Prop} [∀ s a, Decidable (ok s a)]
    (h : runSteps (fun s a => if ok s a then step s a else none) s₀ l = some s) :
    runSteps step s₀ l = some s ∧ ∀ n a, l[n]? = some a → ok (stateAt step s₀ l n) a := by
  induction l generalizing s₀ with
  | nil => exact ⟨h, fun n a hn => by cases hn⟩
  | cons b l ih =>
    obtain ⟨s₁, h₁, h₂⟩ := bind_eq_some_iff.mp h
    dsimp only at h₁
    split at h₁
    · next hok =>
      obtain ⟨hrun, hrest⟩ := ih h₂
      refine ⟨bind_eq_some_iff.mpr ⟨s₁, h₁, hrun⟩, fun n a hn => ?_⟩
      cases n with
      | zero =>
        cases hn
        exact hok
      | succ n =>
        have hstate : stateAt step s₀ (b :: l) (n + 1) = stateAt step s₁ l n := by
          obtain ⟨t, ht⟩ := exists_runSteps_take hrun n
          rw [stateAt, stateAt, take_succ_cons, runSteps, h₁, bind_some, ht, getD_some, getD_some]
        rw [hstate]
        exact hrest n a hn
    · cases h₁

/-- A finite run that cannot be continued, idle from its end on. -/
def FairRun.ofRun (agent : α → ι) (h : runSteps step s₀ l = some s)
    (hend : ∀ a, step s a = none) : FairRun step agent s₀ where
  state := stateAt step s₀ l
  act n := l[n]?
  start := rfl
  idle _ := stateAt_idle
  next _ _ := stateAt_next h
  fair := stateAt_fair h hend

end
end PipeANN
