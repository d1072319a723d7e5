import Zohara.FallibleState

/-!
# Two runs of an action

Started in two related states, two actions may end alike: both return, with related values, or both
fail in the same way, and the states are related again. The rules follow the way actions are put
together.
-/
namespace Zohara.FallibleState

variable {σ α β : Type} {R : σ → σ → Prop} {S : α → α → Prop} {T : β → β → Prop}
  {x y : Action σ α} {f g : α → Action σ β} {a b : α} {s t : σ}

inductive SameEnd (R : σ → σ → Prop) (S : α → α → Prop) :
    EStateM.Result Fault σ α → EStateM.Result Fault σ α → Prop
  | ok {a b : α} {s t : σ} : S a b → R s t → SameEnd R S (.ok a s) (.ok b t)
  | error {e : Fault} {s t : σ} : R s t → SameEnd R S (.error e s) (.error e t)

def Alike (R : σ → σ → Prop) (S : α → α → Prop) (x y : Action σ α) : Prop :=
  ∀ s t, R s t → SameEnd R S (x s) (y t)

theorem alike_pure (h : S a b) : Alike R S (pure a) (pure b) := fun _ _ hst => .ok h hst

theorem alike_throw (e : Fault) : Alike R S (throw e) (throw e) := fun _ _ hst => .error hst

theorem Alike.bind (h : Alike R S x y) (hf : ∀ a b, S a b → Alike R T (f a) (g b)) :
    Alike R T (x >>= f) (y >>= g) := by
  intro s t hst
  have hxy := h s t hst
  change SameEnd R T (EStateM.bind x f s) (EStateM.bind y g t)
  unfold EStateM.bind
  generalize x s = r at hxy ⊢
  generalize y t = r' at hxy ⊢
  cases hxy with
  | ok hab hst' => exact hf _ _ hab _ _ hst'
  | error hst' => exact .error hst'

theorem Alike.imp {S' : α → α → Prop} (h : Alike R S x y) (hS : ∀ a b, S a b → S' a b) :
    Alike R S' x y := by
  intro s t hst
  have hxy := h s t hst
  generalize x s = r at hxy ⊢
  generalize y t = r' at hxy ⊢
  cases hxy with
  | ok hab hst' => exact .ok (hS _ _ hab) hst'
  | error hst' => exact .error hst'

theorem Alike.answer (h : Alike R Eq x y) (hst : R s t) : answer x s = answer y t := by
  have hxy := h s t hst
  unfold FallibleState.answer
  generalize x s = r at hxy ⊢
  generalize y t = r' at hxy ⊢
  cases hxy with
  | ok hab _ => rw [hab]
  | error _ => rfl

end Zohara.FallibleState
