import Mathlib.Data.List.Induction
import Mathlib.Data.List.Basic

/-! # Runs of a labelled transition function

A system is given by a partial transition function `step : σ → α → Option σ`: the
label says which party moves and resolves whatever the system leaves open, and
`none` means that the labelled step is not enabled.  A run is a finite sequence
of labels, and an interleaving of several parties is just such a sequence.

`Reach step ok s₀ s` is reachability through steps that satisfy a side condition
`ok` in the state they are taken from.  With `ok` always true it is plain
reachability; with a proper condition it speaks about exactly those runs all of
whose steps meet it.  `Reach.invariant` is the induction rule every safety
theorem uses, `Reach.exists_done` the one for progress: where a step to less work is
always possible, the work can be finished.  `Reach.of_run` turns an evaluated run into a
reachable state, and `Reach.map` carries reachability across a simulation that may stutter.

For one given run, `Always` says that a property holds in every state it passes and
`EachStep` that a condition holds wherever it takes a step.  `always_iff_eachStep` relates
the two: if the property can only be lost by a step that violates the condition, and is lost
then, it holds throughout exactly if the condition does.
-/
namespace PipeANN
open List Option

variable {σ α τ β : Type}

/-- Take the steps of a list of labels in order. -/
def runSteps (step : σ → α → Option σ) : σ → List α → Option σ
  | s, [] => some s
  | s, a :: as => (step s a).bind (fun s' => runSteps step s' as)

theorem runSteps_append (step : σ → α → Option σ) (s : σ) (l₁ l₂ : List α) :
    runSteps step s (l₁ ++ l₂) = (runSteps step s l₁).bind fun s' => runSteps step s' l₂ := by
  induction l₁ generalizing s with
  | nil => rfl
  | cons a l₁ ih =>
    rw [cons_append, runSteps, runSteps]
    cases step s a with
    | none => rfl
    | some s' => exact ih s'

/-- The states reached from `s₀` by steps that satisfy `ok` where they are taken. -/
inductive Reach (step : σ → α → Option σ) (ok : σ → α → Prop) (s₀ : σ) : σ → Prop where
  | refl : Reach step ok s₀ s₀
  | step {s s' : σ} (a : α) : Reach step ok s₀ s → ok s a → step s a = some s' →
      Reach step ok s₀ s'

/-- Every step is admitted. -/
def anyStep : σ → α → Prop := fun _ _ => True

namespace Reach
variable {step : σ → α → Option σ} {ok : σ → α → Prop} {s₀ s : σ} {l : List α}

/-- **The invariant rule.**  What holds at the start and is preserved by every
admitted step holds in every state reached. -/
theorem invariant {I : σ → Prop} (h0 : I s₀)
    (hstep : ∀ s a s', I s → ok s a → step s a = some s' → I s') (h : Reach step ok s₀ s) :
    I s := by
  induction h with
  | refl => exact h0
  | step a _ ha hs ih => exact hstep _ a _ ih ha hs

/-- The invariant rule, relative to a property that is already known of every state
reached. -/
theorem invariant_of {I J : σ → Prop} (hJ : ∀ s, Reach step ok s₀ s → J s) (h0 : I s₀)
    (hstep : ∀ s a s', J s → J s' → I s → ok s a → step s a = some s' → I s')
    (h : Reach step ok s₀ s) : I s := by
  induction h with
  | refl => exact h0
  | step a hr ha hs ih => exact hstep _ a _ (hJ _ hr) (hJ _ (.step a hr ha hs)) ih ha hs

/-- A weaker side condition admits more runs. -/
theorem mono {ok' : σ → α → Prop} (hle : ∀ s a, ok s a → ok' s a)
    (h : Reach step ok s₀ s) : Reach step ok' s₀ s := by
  induction h with
  | refl => exact .refl
  | step a _ ha hs ih => exact .step a ih (hle _ a ha) hs

/-- Reachability composes. -/
theorem trans {s' : σ} (h : Reach step ok s₀ s) (h' : Reach step ok s s') :
    Reach step ok s₀ s' := by
  induction h' with
  | refl => exact h
  | step a _ ha hs ih => exact .step a ih ha hs

/-- An evaluated run all of whose steps are admitted, as an invariant of the run
shows. -/
theorem of_run_guarded {J : σ → Prop} (h0 : J s₀)
    (hJ : ∀ s a s', a ∈ l → J s → step s a = some s' → ok s a ∧ J s')
    (h : runSteps step s₀ l = some s) : Reach step ok s₀ s := by
  induction l generalizing s₀ with
  | nil =>
    cases h
    exact .refl
  | cons a as ih =>
    obtain ⟨s₁, h1, h2⟩ := bind_eq_some_iff.mp h
    obtain ⟨hok, hJ₁⟩ := hJ s₀ a s₁ mem_cons_self h0 h1
    exact trans (.step a .refl hok h1)
      (ih hJ₁ (fun s b s' hb => hJ s b s' (mem_cons_of_mem _ hb)) h2)

/-- An evaluated run reaches its last state. -/
theorem of_run (h : runSteps step s₀ l = some s) : Reach step anyStep s₀ s :=
  of_run_guarded trivial (fun _ _ _ _ _ _ => ⟨trivial, trivial⟩) h

/-- A run evaluated together with a decidable side condition. -/
theorem of_run_checked [∀ s a, Decidable (ok s a)]
    (h : runSteps (fun s a => if ok s a then step s a else none) s₀ l = some s) :
    Reach step ok s₀ s := by
  have hr := of_run h
  clear h
  induction hr with
  | refl => exact .refl
  | step a _ _ hs ih =>
    split at hs
    · exact .step a ih ‹_› hs
    · cases hs

/-- **Completion.**  If every state reached is done or has an admitted step to less work, then
from every state reached a state that is done can be reached. -/
theorem exists_done {done : σ → Prop} {work : σ → Nat} (hstep : ∀ s, Reach step ok s₀ s → ¬ done s →
      ∃ a s', ok s a ∧ step s a = some s' ∧ work s' < work s)
    (h : Reach step ok s₀ s) : ∃ t, Reach step ok s t ∧ done t := by
  generalize hn : work s = n
  induction n using Nat.strongRecOn generalizing s with
  | ind n ih =>
    by_cases hd : done s
    · exact ⟨s, .refl, hd⟩
    · obtain ⟨a, s', hok, hs, hlt⟩ := hstep s h hd
      obtain ⟨t, ht, hdone⟩ := ih (work s') (hn ▸ hlt) (.step a h hok hs) rfl
      exact ⟨t, trans (.step a .refl hok hs) ht, hdone⟩

/-- **Simulation.**  If every admitted step of one system is a step of another on
the projected states, or leaves the projection alone, then projections of
reachable states are reachable. -/
theorem map {step' : τ → β → Option τ} (f : σ → τ) (hsim : ∀ s a s', ok s a → step s a = some s' →
      f s' = f s ∨ ∃ b, step' (f s) b = some (f s'))
    (h : Reach step ok s₀ s) : Reach step' anyStep (f s₀) (f s) := by
  induction h with
  | refl => exact .refl
  | step a _ ha hs ih =>
    rcases hsim _ a _ ha hs with he | ⟨b, hb⟩
    · rw [he]; exact ih
    · exact .step b ih trivial hb

end Reach

/-! ## The states and steps of one run -/

/-- A property of every state that a run passes. -/
def Always (step : σ → α → Option σ) (s₀ : σ) (ops : List α) (P : σ → Prop) : Prop :=
  ∀ pre s, pre <+: ops → runSteps step s₀ pre = some s → P s

/-- A condition on every step of a run, in the state it is taken from. -/
def EachStep (step : σ → α → Option σ) (s₀ : σ) (ops : List α) (ok : σ → α → Prop) : Prop :=
  ∀ pre a s, pre ++ [a] <+: ops → runSteps step s₀ pre = some s → ok s a

section
variable {step : σ → α → Option σ} {s₀ s : σ} {ops : List α} {ok : σ → α → Prop} {J : σ → Prop}

theorem runSteps_concat {pre : List α} {a : α} (h : runSteps step s₀ pre = some s) :
    runSteps step s₀ (pre ++ [a]) = step s a := by
  rw [runSteps_append, h, bind_some, runSteps]
  cases step s a with
  | none => rfl
  | some s' => rfl

/-- The beginning of a run is a run. -/
theorem exists_runSteps_of_isPrefix {pre : List α} (h : runSteps step s₀ ops = some s)
    (hpre : pre <+: ops) : ∃ t, runSteps step s₀ pre = some t := by
  obtain ⟨rest, rfl⟩ := hpre
  rw [runSteps_append] at h
  obtain ⟨t, ht, -⟩ := bind_eq_some_iff.mp h
  exact ⟨t, ht⟩

/-- What every step preserves holds throughout a run. -/
theorem always_of_step (h0 : J s₀)
    (hstep : ∀ s a s', J s → step s a = some s' → J s') : Always step s₀ ops J := by
  intro pre t _ ht
  exact Reach.invariant h0 (fun s a s' hs _ h => hstep s a s' hs h) (Reach.of_run ht)

/-- What every step that meets a condition preserves holds throughout a run whose steps all
meet it. -/
theorem EachStep.always (h : EachStep step s₀ ops ok) (h0 : J s₀)
    (hstep : ∀ s a s', J s → ok s a → step s a = some s' → J s') : Always step s₀ ops J := by
  intro pre
  -- the prefixes of the run, from the shortest on
  induction pre using reverseRecOn with
  | nil =>
    intro t _ ht
    exact some.inj ht ▸ h0
  | append_singleton pre a ih =>
    intro t' hpre ht'
    have hpre' : pre <+: ops := (prefix_append pre [a]).trans hpre
    obtain ⟨t, ht⟩ := exists_runSteps_of_isPrefix ht' (prefix_append pre [a])
    rw [runSteps_concat ht] at ht'
    exact hstep t a t' (ih t hpre' ht) (h pre a t hpre ht) ht'

/-- **The run rule.**  If a step keeps the property exactly when it meets the condition, then
the property holds throughout a run exactly if every step of the run meets the condition. -/
theorem always_iff_eachStep {I J : σ → Prop}
    (hrun : runSteps step s₀ ops = some s) (hJ : Always step s₀ ops J) (h0 : I s₀)
    (hstep : ∀ s a s', J s → I s → step s a = some s' → (I s' ↔ ok s a)) :
    Always step s₀ ops I ↔ EachStep step s₀ ops ok := by
  constructor
  · intro h pre a t hpre ht
    have hpre' : pre <+: ops := (prefix_append pre [a]).trans hpre
    obtain ⟨t', ht'⟩ := exists_runSteps_of_isPrefix hrun hpre
    exact (hstep t a t' (hJ pre t hpre' ht) (h pre t hpre' ht)
      ((runSteps_concat ht).symm.trans ht')).mp (h _ t' hpre ht')
  · intro h
    have hboth : EachStep step s₀ ops fun s a => J s ∧ ok s a := fun pre a t hpre ht =>
      ⟨hJ pre t ((prefix_append pre [a]).trans hpre) ht, h pre a t hpre ht⟩
    exact hboth.always h0 fun s a s' hs hok h => (hstep s a s' hok.1 hs h).mpr hok.2

/-- **The run rule for a property that cannot be regained**: it holds at the end of a run
exactly if every step of the run meets the condition. -/
theorem final_iff_eachStep {I J : σ → Prop}
    (hrun : runSteps step s₀ ops = some s) (hJ : Always step s₀ ops J) (h0 : I s₀)
    (hstep : ∀ s a s', J s → step s a = some s' → (I s' ↔ I s ∧ ok s a)) :
    I s ↔ EachStep step s₀ ops ok := by
  induction ops using reverseRecOn generalizing s with
  | nil =>
    cases hrun
    refine iff_of_true h0 fun pre a t hpre => ?_
    exact absurd (prefix_nil.mp hpre) (append_ne_nil_of_right_ne_nil _ (cons_ne_nil _ _))
  | append_singleton ops a ih =>
    have hpre : ops <+: ops ++ [a] := prefix_append ops [a]
    obtain ⟨t, ht⟩ := exists_runSteps_of_isPrefix hrun hpre
    rw [runSteps_concat ht] at hrun
    rw [hstep t a s (hJ ops t hpre ht) hrun,
      ih ht fun pre u hpre' hu => hJ pre u (hpre'.trans hpre) hu]
    constructor
    · rintro ⟨h, hok⟩ pre b u hpre' hu
      rcases prefix_concat_iff.mp hpre' with heq | hpre'
      · obtain ⟨rfl, hb⟩ := append_inj' heq rfl
        obtain rfl := singleton_inj.mp hb
        exact some.inj (ht.symm.trans hu) ▸ hok
      · exact h pre b u hpre' hu
    · intro h
      exact ⟨fun pre b u hpre' hu => h pre b u (hpre'.trans hpre) hu, h ops a t prefix_rfl ht⟩

/-- Two conditions that agree as long as an invariant holds, which the steps that meet them
keep, are met by the same runs. -/
theorem eachStep_congr {ok ok' : σ → α → Prop} (h0 : J s₀) (hiff : ∀ s a, J s → (ok s a ↔ ok' s a))
    (hstep : ∀ s a s', J s → ok s a → step s a = some s' → J s') :
    EachStep step s₀ ops ok ↔ EachStep step s₀ ops ok' := by
  constructor
  · intro h pre a t hpre ht
    have hJ := h.always h0 hstep pre t ((prefix_append pre [a]).trans hpre) ht
    exact (hiff t a hJ).mp (h pre a t hpre ht)
  · intro h pre a t hpre ht
    have hJ := h.always h0 (fun s a s' hs hok => hstep s a s' hs ((hiff s a hs).mpr hok)) pre t
      ((prefix_append pre [a]).trans hpre) ht
    exact (hiff t a hJ).mpr (h pre a t hpre ht)

end
end PipeANN
