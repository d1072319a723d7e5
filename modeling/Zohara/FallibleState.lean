import Mathlib.Logic.Basic

/-!
# Actions that change a state and may fail

An action is a function of the core state-and-exception monad: it returns a value or
fails, and in both cases leaves a state behind. A failure is an error that the caller
sees, or a panic. What an action does from a given state is one statement with a
condition on the value and the state it returns and a condition on the failure and the
state it leaves; the rules follow the way actions are put together.
-/
namespace Zohara.FallibleState

inductive Fault where
  | err (msg : String)
  | panic
  deriving DecidableEq

abbrev Action (σ α : Type) := EStateM Fault σ α

variable {σ τ α β : Type}

/-- The state that an action leaves behind, whatever its answer. -/
def after (x : Action σ α) (s : σ) : σ :=
  match x s with
  | .ok _ s' => s'
  | .error _ s' => s'

def answer (x : Action σ α) (s : σ) : Except Fault α :=
  match x s with
  | .ok a _ => .ok a
  | .error e _ => .error e

/-- An action on a part of the state. -/
def zoom (get : σ → τ) (set : σ → τ → σ) (x : Action τ α) : Action σ α := fun s =>
  match x (get s) with
  | .ok a t => .ok a (set s t)
  | .error e t => .error e (set s t)

/-- From `s` the action returns as `Q` says or fails as `E` says. -/
def Ends (x : Action σ α) (s : σ) (Q : α → σ → Prop) (E : Fault → σ → Prop) : Prop :=
  match x s with
  | .ok a s' => Q a s'
  | .error e s' => E e s'

/-- From `s` the action returns. -/
def Returns (x : Action σ α) (s : σ) (Q : α → σ → Prop) : Prop := Ends x s Q fun _ _ => False

section
variable {x : Action σ α} {f : α → Action σ β} {s s' : σ} {a : α} {e : Fault}
  {Q R : α → σ → Prop} {Q' : β → σ → Prop} {E F : Fault → σ → Prop}

theorem after_ok (hx : x s = .ok a s') : after x s = s' := by
  unfold after
  rw [hx]

theorem after_error (hx : x s = .error e s') : after x s = s' := by
  unfold after
  rw [hx]

theorem answer_ok (hx : x s = .ok a s') : answer x s = .ok a := by
  unfold answer
  rw [hx]

theorem answer_error (hx : x s = .error e s') : answer x s = .error e := by
  unfold answer
  rw [hx]

theorem ok_of_answer (ha : answer x s = .ok a) : x s = .ok a (after x s) := by
  unfold answer at ha
  unfold after
  cases hx : x s with
  | ok b s' =>
    rw [hx] at ha
    rw [Except.ok.inj ha]
  | error e s' =>
    rw [hx] at ha
    cases ha

theorem error_of_answer (ha : answer x s = .error e) : x s = .error e (after x s) := by
  unfold answer at ha
  unfold after
  cases hx : x s with
  | ok b s' =>
    rw [hx] at ha
    cases ha
  | error e' s' =>
    rw [hx] at ha
    rw [Except.error.inj ha]

section

variable (h : Ends x s Q E)
include h

theorem Ends.ok (hx : x s = .ok a s') : Q a s' := by
  unfold Ends at h
  rw [hx] at h
  exact h

theorem Ends.error (hx : x s = .error e s') : E e s' := by
  unfold Ends at h
  rw [hx] at h
  exact h

theorem Ends.mono (hq : ∀ a s', Q a s' → R a s') (he : ∀ e s', E e s' → F e s') : Ends x s R F := by
  unfold Ends at h ⊢
  cases hx : x s with
  | ok a s' =>
    rw [hx] at h
    exact hq a s' h
  | error e s' =>
    rw [hx] at h
    exact he e s' h

theorem Ends.imp (hq : ∀ a s', Q a s' → R a s') : Ends x s R E :=
  h.mono hq fun _ _ h => h

theorem Ends.fails (he : ∀ e s', E e s' → F e s') : Ends x s Q F :=
  h.mono (fun _ _ h => h) he

theorem Ends.bind (hf : ∀ a s', Q a s' → Ends (f a) s' Q' E) : Ends (x >>= f) s Q' E := by
  unfold Ends at h ⊢
  change match EStateM.bind x f s with
    | .ok a s' => Q' a s'
    | .error e s' => E e s'
  unfold EStateM.bind
  cases hx : x s with
  | ok a s' =>
    rw [hx] at h
    exact hf a s' h
  | error e s' =>
    rw [hx] at h
    exact h

end

theorem ends_pure (h : Q a s) : Ends (pure a) s Q E := h

theorem ends_throw (h : E e s) : Ends (throw e : Action σ α) s Q E := h

theorem get_bind {f : σ → Action σ β} : (get >>= f) s = f s s := rfl

theorem set_bind {f : PUnit → Action σ β} : (set s' >>= f) s = f ⟨⟩ s' := rfl

theorem ends_get {f : σ → Action σ β} (h : Ends (f s) s Q' E) : Ends (get >>= f) s Q' E := h

theorem ends_modify {Q : Unit → σ → Prop} (g : σ → σ) (h : Q () (g s)) :
    Ends (modify g : Action σ Unit) s Q E := h

theorem ends_modify_bind {f : Unit → Action σ β} (g : σ → σ) (h : Ends (f ()) (g s) Q' E) :
    Ends (modify g >>= f) s Q' E := h

theorem ends_set_bind {f : PUnit → Action σ β} (h : Ends (f ⟨⟩) s' Q' E) :
    Ends (set s' >>= f) s Q' E := h

theorem ends_zoom {get : σ → τ} {set : σ → τ → σ} {y : Action τ α}
    (h : Ends y (get s) (fun a t => Q a (set s t)) fun e t => E e (set s t)) :
    Ends (zoom get set y) s Q E := by
  unfold Ends zoom at *
  cases hy : y (get s) with
  | ok a t =>
    rw [hy] at h
    exact h
  | error e t =>
    rw [hy] at h
    exact h

theorem Ends.after {P : σ → Prop} (h : Ends x s (fun _ s' => P s') fun _ s' => P s') :
    P (after x s) := by
  unfold Ends at h
  unfold FallibleState.after
  cases hx : x s with
  | ok a s' =>
    rw [hx] at h
    exact h
  | error e s' =>
    rw [hx] at h
    exact h

theorem Ends.returns (h : Ends x s Q E) (he : ∀ e s', ¬E e s') : Returns x s Q :=
  h.fails he

theorem Returns.ends (h : Returns x s Q) : Ends x s Q E :=
  h.fails fun _ _ h => h.elim

theorem Returns.exists (h : Returns x s Q) : ∃ a s', x s = .ok a s' ∧ Q a s' := by
  unfold Returns Ends at h
  cases hx : x s with
  | ok a s' =>
    rw [hx] at h
    exact ⟨a,s',rfl,h⟩
  | error e s' =>
    rw [hx] at h
    exact h.elim

theorem Returns.answer {b : α} (h : Returns x s fun a _ => a = b) : answer x s = .ok b := by
  obtain ⟨a,s',hx,ha⟩ := h.exists
  rw [answer_ok hx, ha]

end

end Zohara.FallibleState
