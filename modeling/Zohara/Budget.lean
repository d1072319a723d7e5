import Mathlib.Data.Nat.Notation

/-!
# Computations that use up a supply

`free` counts what is left in a state. A computation that may fail costs `n` when it succeeds exactly
if `n` is left, and has then used `n`. Costs add up over a sequence. `Ok` is an invariant that comes
along, and `state` is the state inside of a result.
-/
namespace Zohara.Budget

section
variable {σ : Type} {free : σ → ℕ} {Ok : σ → Prop} {s s₁ s₂ : σ} {n k : ℕ}

structure Takes (free : σ → ℕ) (Ok : σ → Prop) (s s' : σ) (n : ℕ) : Prop where
  ok : Ok s'
  left : free s = free s'+n

theorem Takes.refl (h : Ok s) : Takes free Ok s s 0 := ⟨h,rfl⟩

theorem Takes.trans (h₁ : Takes free Ok s s₁ n) (h₂ : Takes free Ok s₁ s₂ k) :
    Takes free Ok s s₂ (n+k) := by
  refine ⟨h₂.ok,?_⟩
  rw [h₁.left, h₂.left]
  omega

end

section
variable {σ β γ : Type} {free : σ → ℕ} {Ok : σ → Prop} {state : β → σ} {state' : γ → σ} {s : σ}
  {n k : ℕ} {x : Option β} {f : β → Option γ}

structure Costs (free : σ → ℕ) (Ok : σ → Prop) (state : β → σ) (s : σ) (n : ℕ) (x : Option β) :
    Prop where
  enough : n ≤ free s → ∃ b, x = some b
  takes : ∀ b, x = some b → Takes free Ok s (state b) n

theorem Costs.succeeds_iff (h : Costs free Ok state s n x) : (∃ b, x = some b) ↔ n ≤ free s := by
  refine ⟨?_,h.enough⟩
  rintro ⟨b,hb⟩
  rw [(h.takes b hb).left]
  exact Nat.le_add_left _ _

theorem costs_some {b : β} (h : Takes free Ok s (state b) 0) : Costs free Ok state s 0 (some b) := by
  refine ⟨fun _ => ⟨b,rfl⟩,fun c hc => ?_⟩
  cases hc
  exact h

theorem Costs.after_free {s₁ : σ} (h : Takes free Ok s s₁ 0) (hx : Costs free Ok state s₁ n x) :
    Costs free Ok state s n x := by
  have hleft : free s = free s₁ := h.left
  refine ⟨fun hle => hx.enough (hleft ▸ hle),fun b hb => ?_⟩
  obtain ⟨hok,hb⟩ := hx.takes b hb
  exact ⟨hok,hleft.trans hb⟩

theorem Costs.bind (hx : Costs free Ok state s n x)
    (hf : ∀ b, x = some b → Costs free Ok state' (state b) k (f b)) :
    Costs free Ok state' s (n+k) (x.bind f) := by
  constructor
  · intro hle
    obtain ⟨b,hb⟩ := hx.enough (by omega)
    have hleft := (hx.takes b hb).left
    rw [hb, Option.bind_some]
    exact (hf b hb).enough (by omega)
  · intro c hc
    obtain ⟨b,hb,hc⟩ := Option.bind_eq_some_iff.mp hc
    exact (hx.takes b hb).trans ((hf b hb).takes c hc)

theorem Costs.then_free (hx : Costs free Ok state s n x) {g : β → γ}
    (hg : ∀ b, x = some b → Takes free Ok (state b) (state' (g b)) 0) :
    Costs free Ok state' s n (x.bind fun b => some (g b)) :=
  hx.bind fun b hb => costs_some (hg b hb)

end

end Zohara.Budget
