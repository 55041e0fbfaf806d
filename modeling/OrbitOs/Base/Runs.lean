import Mathlib.Tactic

/-!
# Runs of a transition system

A system starts in a state of `start` and takes steps of `step`.  An invariant
of the steps that holds at the start holds in every state a run reaches.  A
system whose steps are, in the image of a map, steps of another system or none
at all reaches only states whose images the other one reaches.
-/

set_option autoImplicit false

namespace OrbitOs.Base

variable {σ : Type}

inductive Reach (start : σ → Prop) (step : σ → σ → Prop) : σ → Prop
  | start {s : σ} : start s → Reach start step s
  | step {s s' : σ} : Reach start step s → step s s' → Reach start step s'

theorem Reach.invariant {start : σ → Prop} {step : σ → σ → Prop} {inv : σ → Prop}
    (holds : ∀ s, start s → inv s) (kept : ∀ s s', inv s → step s s' → inv s') {s : σ}
    (reached : Reach start step s) : inv s := by
  induction reached with
  | start begins => exact holds _ begins
  | step _ taken ih => exact kept _ _ ih taken

theorem Reach.image {τ : Type} {start : σ → Prop} {step : σ → σ → Prop} {start' : τ → Prop}
    {step' : τ → τ → Prop} {inv : σ → Prop} {f : σ → τ} (holds : ∀ s, start s → inv s)
    (kept : ∀ s s', inv s → step s s' → inv s') (starts : ∀ s, start s → start' (f s))
    (matched : ∀ s s', inv s → step s s' → f s' = f s ∨ step' (f s) (f s')) {s : σ}
    (reached : Reach start step s) : Reach start' step' (f s) := by
  induction reached with
  | start begins => exact .start (starts _ begins)
  | @step s s' before taken ih =>
      rcases matched s s' (before.invariant holds kept) taken with stutter | moved
      · rw [stutter]
        exact ih
      · exact .step ih moved

end OrbitOs.Base
