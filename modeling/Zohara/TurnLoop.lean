import Mathlib.Data.Fintype.Card
import Mathlib.Data.Set.Finite.Basic
import Mathlib.Logic.Relation
import Mathlib.Order.WellFounded
import Zohara.FallibleState

/-!
# Loops that are given a number of turns

A loop without a bound is a family of actions, one for each number of turns that it may take. It
ends from a state if from some number on more turns make no difference. It does not end if it
takes all turns it is given, whatever their number; a clock in the state, which counts at least one
for each turn, tells these runs apart. What one turn does is an equation between two members of
the family.

The places that a loop comes to are the other half: a walk over finitely many places comes to an
end, or back to a place where it has been.
-/
namespace Zohara.TurnLoop
open FallibleState Relation

section
variable {σ α β : Type} {x y : ℕ → Action σ α} {f : ℕ → α → Action σ β} {clock : σ → ℕ} {s s' : σ}
  {a : α} {e : Fault} {k : ℕ}

def Settles (x : ℕ → Action σ α) (s : σ) : Prop := ∃ n, ∀ m, n ≤ m → x m s = x n s

/-- All turns are taken. -/
def Endless (clock : σ → ℕ) (x : ℕ → Action σ α) (s : σ) : Prop :=
  ∀ n, ∃ s', x n s = .error .panic s' ∧ clock s+n ≤ clock s'

theorem Endless.not_settles (h : Endless clock x s) : ¬Settles x s := by
  rintro ⟨n,hn⟩
  obtain ⟨s₁,hs₁,_⟩ := h n
  obtain ⟨s₂,hs₂,hle⟩ := h (n+clock s₁+1)
  rw [hn _ (by omega), hs₁] at hs₂
  cases hs₂
  omega

theorem settles_const (z : Action σ α) : Settles (fun _ => z) s := ⟨0,fun _ _ => rfl⟩

theorem settles_stop (h : ∀ n, x (n+1) s = x 1 s) : Settles x s := by
  refine ⟨1,fun m hm => ?_⟩
  obtain ⟨n,rfl⟩ := Nat.exists_eq_add_of_le' hm
  exact h n

theorem settles_shift (h : ∀ n, x (n+k) s = y n s') : Settles x s ↔ Settles y s' := by
  constructor
  · rintro ⟨n,hn⟩
    refine ⟨n,fun m hm => ?_⟩
    rw [← h m, ← h n, hn (m+k) (by omega), hn (n+k) (by omega)]
  · rintro ⟨n,hn⟩
    refine ⟨n+k,fun m hm => ?_⟩
    obtain ⟨j,rfl⟩ := Nat.exists_eq_add_of_le' ((Nat.le_add_left k n).trans hm)
    rw [h j, h n, hn j (by omega)]

theorem bind_ok {z : Action σ α} {g : α → Action σ β} (h : z s = .ok a s') : (z >>= g) s = g a s' := by
  change EStateM.bind z g s = g a s'
  unfold EStateM.bind
  rw [h]

theorem bind_error {z : Action σ α} {g : α → Action σ β} (h : z s = .error e s') :
    (z >>= g) s = .error e s' := by
  change EStateM.bind z g s = .error e s'
  unfold EStateM.bind
  rw [h]

theorem settles_bind_ok (h : ∀ n, k ≤ n → x n s = .ok a s') :
    Settles (fun n => x n >>= f n) s ↔ Settles (fun n => f n a) s' := by
  have hshift : ∀ n, (x (n+k) >>= f (n+k)) s = f (n+k) a s' := fun n => bind_ok (h _ (by omega))
  exact (settles_shift (y := fun n => f (n+k) a) hshift).trans
    (settles_shift (x := fun n => f n a) fun _ => rfl).symm

theorem settles_bind_error (h : ∀ n, k ≤ n → x n s = .error e s') :
    Settles (fun n => x n >>= f n) s :=
  ⟨k,fun _ hm => (bind_error (h _ hm)).trans (bind_error (h _ le_rfl)).symm⟩

theorem Settles.bind (h : Settles x s) (g : α → Action σ β) : Settles (fun n => x n >>= g) s := by
  obtain ⟨n,hn⟩ := h
  cases hx : x n s with
  | ok a s' =>
    exact (settles_bind_ok fun m hm => (hn m hm).trans hx).mpr (settles_const (g a))
  | error e s' => exact settles_bind_error fun m hm => (hn m hm).trans hx

theorem Endless.bind (h : Endless clock x s) : Endless clock (fun n => x n >>= f n) s := by
  intro n
  obtain ⟨s₁,hs₁,hle⟩ := h n
  exact ⟨s₁,bind_error hs₁,hle⟩

end

/-! ## Walks -/

section
variable {α : Type} {r : α → α → Prop} {a b : α}

/-- A walk from `a` comes to a place and from there back to it. -/
def Cycles (r : α → α → Prop) (a : α) : Prop := ∃ b, ReflTransGen r a b ∧ TransGen r b b

theorem Cycles.next (h : Cycles r a) : ∃ b, r a b ∧ Cycles r b := by
  obtain ⟨c,hreach,hback⟩ := h
  cases hreach.cases_head with
  | inl heq =>
    subst heq
    obtain ⟨b,hstep,hrest⟩ := TransGen.head'_iff.mp hback
    exact ⟨b,hstep,a,hrest,hback⟩
  | inr hnext =>
    obtain ⟨b,hstep,hrest⟩ := hnext
    exact ⟨b,hstep,c,hrest,hback⟩

/-- A walk over finitely many places ends, unless it comes back. -/
theorem exists_end (hfin : {b | ReflTransGen r a b}.Finite) (h : ¬Cycles r a) :
    ∃ b, ReflTransGen r a b ∧ ∀ c, ¬r b c := by
  let S := {b // ReflTransGen r a b}
  have hS : Finite S := hfin
  let after : S → S → Prop := fun b c => TransGen r c.1 b.1
  have hirrefl : Std.Irrefl after := ⟨fun b hback => h ⟨b.1,b.2,hback⟩⟩
  have htrans : IsTrans S after := ⟨fun _ _ _ hbc hcd => hcd.trans hbc⟩
  obtain ⟨b,_,hb⟩ := (Finite.wellFounded_of_trans_of_irrefl after).has_min Set.univ
    ⟨⟨a,.refl⟩,trivial⟩
  exact ⟨b.1,b.2,fun c hstep => hb ⟨c,b.2.tail hstep⟩ trivial (.single hstep)⟩

theorem end_unique {c : α} (hr : Relator.RightUnique r) (hb : ReflTransGen r a b)
    (hc : ReflTransGen r a c) (hbend : ∀ d, ¬r b d) (hcend : ∀ d, ¬r c d) : b = c := by
  rcases ReflTransGen.total_of_right_unique hr hb hc with hbc | hcb
  · rcases hbc.cases_head with heq | ⟨d,hstep,_⟩
    · exact heq
    · exact absurd hstep (hbend d)
  · rcases hcb.cases_head with heq | ⟨d,hstep,_⟩
    · exact heq.symm
    · exact absurd hstep (hcend d)

end

end Zohara.TurnLoop
