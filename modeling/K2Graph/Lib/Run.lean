import Mathlib.Tactic.Common

/-!
# Runs of a transition system

A system is a function `step : σ → α → Option σ`: the state after an action, if
the action is possible.  A run may be restricted to steps that meet a condition
`ok` on the state before the step and the action.

## Main definitions

* `Reach` — what is reached by steps that meet the condition.
* `run` — the run of a given list of actions.

## Main results

* `Reach.invariant` — the induction over runs.
* `exists_reach_of_run` — a run that was computed is a run.
-/

namespace K2Graph

variable {σ α : Type} {step : σ → α → Option σ} {ok : σ → α → Prop} {s t u : σ}

/-- The states reached from `s` by steps that meet `ok`. -/
inductive Reach (step : σ → α → Option σ) (ok : σ → α → Prop) (s : σ) : σ → Prop
  | refl : Reach step ok s s
  | tail {t u : σ} {a : α} : Reach step ok s t → ok t a → step t a = some u → Reach step ok s u

/-- What holds at first and is kept by every step that meets the condition holds
in every state reached. -/
theorem Reach.invariant {I : σ → Prop} (hinit : I s)
    (hstep : ∀ t a u, I t → ok t a → step t a = some u → I u) (h : Reach step ok s t) : I t := by
  induction h with
  | refl => exact hinit
  | tail _ hok hs ih => exact hstep _ _ _ ih hok hs

/-- What a step that meets the condition establishes, from an invariant of the
state before it, holds in every state reached but the first. -/
theorem Reach.last {I : σ → Prop} {P : σ → Prop} (hinv : ∀ t, Reach step ok s t → I t)
    (hinit : P s) (hstep : ∀ t a u, I t → ok t a → step t a = some u → P u)
    (h : Reach step ok s t) : P t := by
  cases h with
  | refl => exact hinit
  | tail hr hok hs => exact hstep _ _ _ (hinv _ hr) hok hs

/-- Runs a list of actions, as long as each is possible and meets the
condition. -/
def run (step : σ → α → Option σ) (ok : σ → α → Prop) [∀ s a, Decidable (ok s a)] :
    σ → List α → Option σ
  | s, [] => some s
  | s, a :: acts =>
      if ok s a then
        match step s a with
        | some t => run step ok t acts
        | none => none
      else none

theorem reach_of_run [∀ s a, Decidable (ok s a)] {acts : List α} (h : Reach step ok s t)
    (hrun : run step ok t acts = some u) : Reach step ok s u := by
  induction acts generalizing t with
  | nil =>
    simp only [run, Option.some.injEq] at hrun
    exact hrun ▸ h
  | cons a acts ih =>
    simp only [run] at hrun
    split at hrun
    · rename_i hok
      split at hrun
      · rename_i hs
        exact ih (.tail h hok hs) hrun
      · cases hrun
    · cases hrun

theorem exists_reach_of_run (step : σ → α → Option σ) (ok : σ → α → Prop)
    [∀ s a, Decidable (ok s a)] (s : σ) (P : σ → Bool) (acts : List α)
    (h : (run step ok s acts).any P = true) : ∃ t, Reach step ok s t ∧ P t = true := by
  cases hrun : run step ok s acts with
  | none => simp [hrun] at h
  | some t => exact ⟨t, reach_of_run .refl hrun, by simpa [hrun] using h⟩

end K2Graph
