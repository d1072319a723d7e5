import Mathlib.Data.List.Basic
import Zohara.Runs

/-!
# A lock as a queue

Agents enter a queue, the head of the queue becomes the holder when there is none,
and the holder leaves. Nothing else can happen, so there is one holder at a time and
the agents are granted the lock in the order in which they entered.

An agent is any value; a lock that hands out numbers will take the agent and its
number as one value. `first` is the number of grants that belong to the head of the
queue, when the grants are counted from 0.
-/
namespace Zohara.QueueLock
open Runs

variable {κ : Type}

structure Queue (κ : Type) where
  served : ℕ
  holder : Option κ
  waiting : List κ

def Queue.empty : Queue κ := ⟨0,none,[]⟩

def Queue.first (q : Queue κ) : ℕ := q.served+q.holder.toList.length

inductive Op (κ : Type) where
  | enter (k : κ)
  | grant (k : κ)
  | leave (k : κ)

inductive Step : Queue κ → Op κ → Queue κ → Prop
  | enter (q : Queue κ) (k : κ) : Step q (.enter k) {q with waiting := q.waiting++[k]}
  | grant (served : ℕ) (k : κ) (rest : List κ) :
      Step ⟨served,none,k::rest⟩ (.grant k) ⟨served,some k,rest⟩
  | leave (served : ℕ) (k : κ) (waiting : List κ) :
      Step ⟨served,some k,waiting⟩ (.leave k) ⟨served+1,none,waiting⟩

/-! ## Histories, newest first -/

def entered : List (Op κ) → List κ
  | [] => []
  | .enter k::h => entered h++[k]
  | .grant _::h => entered h
  | .leave _::h => entered h

def granted : List (Op κ) → List κ
  | [] => []
  | .enter _::h => granted h
  | .grant k::h => granted h++[k]
  | .leave _::h => granted h

def left : List (Op κ) → ℕ
  | [] => 0
  | .enter _::h => left h
  | .grant _::h => left h
  | .leave _::h => left h+1

theorem entered_append (l h : List (Op κ)) : entered (l++h) = entered h++entered l := by
  induction l with
  | nil => simp [entered]
  | cons a l ih => cases a <;> simp [entered, ih]

theorem left_append (l h : List (Op κ)) : left (l++h) = left h+left l := by
  induction l with
  | nil => simp [left]
  | cons a l ih => cases a <;> simp [left, ih, Nat.add_assoc]

/-! ## Runs -/

section
variable {h : List (Op κ)} {q : Queue κ}

section

variable (r : Run Step Queue.empty h q)
include r

theorem run_entered : entered h = granted h++q.waiting := by
  induction r with
  | start => rfl
  | next _ hs ih =>
    cases hs <;> simp [entered, granted, ih]

theorem run_granted : (granted h).length = q.first := by
  induction r with
  | start => rfl
  | next _ hs ih =>
    cases hs <;> simpa [granted, Queue.first] using ih

theorem run_left : left h = q.served := by
  induction r with
  | start => rfl
  | next _ hs ih =>
    cases hs with
    | enter q k | grant served k rest => exact ih
    | leave served k waiting => exact congrArg (·+1) ih

theorem run_fifo : granted h <+: entered h := by
  rw [run_entered r]
  exact List.prefix_append _ _

theorem run_length : (entered h).length = q.first+q.waiting.length := by
  rw [run_entered r, List.length_append, run_granted r]

end

/-- As long as the head of the queue takes no step, nobody gets the lock. -/
theorem run_head {k : κ} {q₀ : Queue κ} (r : Run Step q₀ h q) (hh : q₀.holder = none)
    (hw : q₀.waiting.head? = some k) (hk : Op.grant k ∉ h) :
    q.holder = none ∧ q.waiting.head? = some k ∧ q.served = q₀.served := by
  induction r with
  | start => exact ⟨hh,hw,rfl⟩
  | next _ hs ih =>
    obtain ⟨hnone,hhead,hserved⟩ := ih fun hin => hk (List.mem_cons_of_mem _ hin)
    cases hs with
    | enter q k' =>
      refine ⟨hnone,?_,hserved⟩
      rw [List.head?_append, hhead]
      rfl
    | grant served k' rest =>
      rw [List.head?_cons] at hhead
      rw [Option.some.inj hhead] at hk
      exact (hk List.mem_cons_self).elim
    | leave served k' waiting => cases hnone

end

end Zohara.QueueLock
