import Mathlib.Logic.Basic

/-!
# Runs of a labelled step relation

A run starts in a fixed state and takes one labelled step after another. The
labels are kept, newest first, so that a property of a run may speak about its
history. A label carries whatever is observable: the operation, its arguments
and its answer.

The rules below are all that a client needs. The invariant rule turns one step
lemma into a statement about every reachable state, runs can be put one after the
other and cut again, and the map rule moves a run along a simulation.
-/
namespace Zohara.Runs

variable {σ τ α : Type}

inductive Run (step : σ → α → σ → Prop) (s₀ : σ) : List α → σ → Prop
  | start : Run step s₀ [] s₀
  | next {h : List α} {s s' : σ} {a : α} :
      Run step s₀ h s → step s a s' → Run step s₀ (a::h) s'

variable {step : σ → α → σ → Prop} {h : List α}

/-- The step lemma may use the history that led to the state. -/
theorem Run.invariant {s₀ : σ} {P : List α → σ → Prop} (h₀ : P [] s₀)
    (hstep : ∀ h s a s', P h s → step s a s' → P (a::h) s') {s : σ} (r : Run step s₀ h s) : P h s := by
  induction r with
  | start => exact h₀
  | next _ hs ih => exact hstep _ _ _ _ ih hs

theorem Run.mono {step step' : σ → α → σ → Prop} {s₀ : σ}
    (hstep : ∀ s a s', step s a s' → step' s a s') {s : σ} (r : Run step s₀ h s) :
    Run step' s₀ h s := by
  induction r with
  | start => exact .start
  | next _ hs ih => exact .next ih (hstep _ _ _ hs)

theorem Run.append {s₀ s s' : σ} {h l : List α}
    (r : Run step s₀ h s) (r' : Run step s l s') : Run step s₀ (l++h) s' := by
  induction r' with
  | start => exact r
  | next _ hs ih => exact .next ih hs

theorem Run.split {s₀ s : σ} (l : List α)
    (r : Run step s₀ (l++h) s) : ∃ m, Run step s₀ h m ∧ Run step m l s := by
  induction l generalizing s with
  | nil => exact ⟨s,r,.start⟩
  | cons a l ih =>
    cases r with
    | next r hs =>
      obtain ⟨m,hm,hl⟩ := ih r
      exact ⟨m,hm,.next hl hs⟩

/-- A function that carries steps to steps carries runs to runs with the same
labels, as long as an invariant of the source run is at hand. -/
theorem Run.map {abstract : τ → α → τ → Prop} {s₀ : σ}
    {P : List α → σ → Prop} (f : σ → τ) (h₀ : P [] s₀)
    (hstep : ∀ h s a s', P h s → step s a s' → P (a::h) s')
    (hsim : ∀ h s a s', P h s → step s a s' → abstract (f s) a (f s')) {s : σ} (r : Run step s₀ h s) : Run abstract (f s₀) h (f s) := by
  induction r with
  | start => exact .start
  | next r hs ih => exact .next ih (hsim _ _ _ _ (r.invariant h₀ hstep) hs)

end Zohara.Runs
