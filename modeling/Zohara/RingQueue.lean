import Mathlib.Data.Nat.ModEq
import Mathlib.Logic.Function.Basic
import Zohara.Runs

/-!
# A circular array as a bounded queue

The array has a position for the next write, a position for the next read and a
counter. The three are redundant: a ring holds the list that starts at the read
position, the counter is its length and the write position is where it ends.

The specification is a list of at most `n` elements with the labels of `Fifo`, and
`Circular.run_fifo` turns every run of the ring into a run of the list. In a run of the
list the elements taken out, followed by those still inside, are the accepted ones
in their order.
-/
namespace Zohara.RingQueue
open Runs

variable {α : Type}

structure Circular (α : Type) where
  slots : ℕ → Option α
  head : ℕ
  tail : ℕ
  count : ℕ

namespace Circular

def empty : Circular α := ⟨fun _ => none,0,0,0⟩

/-- Refused when all `n` slots are taken. -/
def push (n : ℕ) (r : Circular α) (a : α) : Bool × Circular α :=
  if r.count ≥ n then (false,r)
  else (true,⟨Function.update r.slots r.head (some a),(r.head+1)%n,r.tail,r.count+1⟩)

def pop (n : ℕ) (r : Circular α) : Option α × Circular α :=
  if r.count = 0 then (none,r)
  else (r.slots r.tail,⟨Function.update r.slots r.tail none,r.head,(r.tail+1)%n,r.count-1⟩)

end Circular

/-- A call and its answer. -/
inductive Op (α : Type) where
  | push (a : α) (ok : Bool)
  | pop (answer : Option α)

def Circular.Step (n : ℕ) (r : Circular α) : Op α → Circular α → Prop
  | .push a ok,r' => r.push n a = (ok,r')
  | .pop answer,r' => r.pop n = (answer,r')

/-! ## The specification -/

inductive Fifo (n : ℕ) : List α → Op α → List α → Prop
  | accept {l : List α} (a : α) : l.length < n → Fifo n l (.push a true) (l++[a])
  | refuse {l : List α} (a : α) : l.length = n → Fifo n l (.push a false) l
  | oldest (a : α) (l : List α) : Fifo n (a::l) (.pop (some a)) l
  | nothing : Fifo n [] (.pop none) []

/-- The accepted elements of a history, oldest first. -/
def pushed : List (Op α) → List α
  | [] => []
  | .push a true::h => pushed h++[a]
  | _::h => pushed h

/-- The elements taken out, oldest first. -/
def popped : List (Op α) → List α
  | [] => []
  | .pop (some a)::h => popped h++[a]
  | _::h => popped h

theorem Fifo.popped_append {n : ℕ} {h : List (Op α)} {l : List α} (r : Run (Fifo n) [] h l) :
    popped h++l = pushed h := by
  refine r.invariant (P := fun h l => popped h++l = pushed h) rfl ?_
  intro h l op l' ih hs
  cases hs with
  | accept a _ =>
    change popped h++(l++[a]) = pushed h++[a]
    rw [← ih, List.append_assoc]
  | refuse a _ => exact ih
  | oldest a l =>
    change popped h++[a]++l' = pushed h
    rw [← ih, List.append_assoc]
    rfl
  | nothing => exact ih

/-! ## The ring -/

structure Holds (n : ℕ) (r : Circular α) (l : List α) : Prop where
  count : r.count = l.length
  fits : l.length ≤ n
  tail : r.tail < n
  head : r.head = (r.tail+l.length)%n
  slots : ∀ i < l.length, r.slots ((r.tail+i)%n) = l[i]?

theorem offset_ne {n t i j : ℕ} (hi : i < n) (hj : j < n) (hij : i ≠ j) :
    (t+i)%n ≠ (t+j)%n := by
  intro h
  have hmod : i%n = j%n := Nat.ModEq.add_left_cancel' t h
  rw [Nat.mod_eq_of_lt hi, Nat.mod_eq_of_lt hj] at hmod
  exact hij hmod

namespace Holds

variable {n : ℕ} {r r' : Circular α} {l : List α} {a : α}

theorem empty (hn : 0 < n) : Holds n (Circular.empty : Circular α) [] := by
  refine ⟨rfl,Nat.zero_le n,hn,?_,nofun⟩
  exact (Nat.zero_mod n).symm

theorem push_full (h : Holds n r l) (hfull : l.length = n) : r.push n a = (false,r) := by
  unfold Circular.push
  rw [if_pos (by rw [h.count]; exact hfull.ge)]

theorem push_room (h : Holds n r l) (hroom : l.length < n) :
    (r.push n a).1 = true ∧ Holds n (r.push n a).2 (l++[a]) := by
  unfold Circular.push
  rw [if_neg (by rw [h.count]; omega)]
  have hlen : (l++[a]).length = l.length+1 := by rw [List.length_append, List.length_singleton]
  refine ⟨rfl,?_,?_,h.tail,?_,?_⟩
  · rw [hlen]
    exact congrArg (·+1) h.count
  · rw [hlen]
    exact hroom
  · rw [hlen]
    dsimp only
    rw [h.head, Nat.mod_add_mod, Nat.add_assoc]
  · intro i hi
    rw [hlen] at hi
    dsimp only
    rw [h.head]
    by_cases hl : i = l.length
    · rw [hl, Function.update_self, List.getElem?_concat_length]
    · have hlt : i < l.length := by omega
      rw [Function.update_of_ne (offset_ne (by omega) hroom hl), h.slots i hlt,
        List.getElem?_append_left hlt]

theorem pop_empty (h : Holds n r []) : r.pop n = (none,r) := by
  unfold Circular.pop
  rw [if_pos (show r.count = 0 from h.count)]

theorem pop_cons (h : Holds n r (a::l)) : (r.pop n).1 = some a ∧ Holds n (r.pop n).2 l := by
  have hcount : r.count = l.length+1 := h.count
  have hfits : l.length+1 ≤ n := h.fits
  have hfirst := h.slots 0 (Nat.succ_pos _)
  rw [Nat.add_zero, Nat.mod_eq_of_lt h.tail] at hfirst
  unfold Circular.pop
  rw [if_neg (by omega)]
  refine ⟨hfirst,?_,by omega,Nat.mod_lt _ (by omega),?_,?_⟩
  · dsimp only
    omega
  · dsimp only
    rw [h.head, Nat.mod_add_mod, List.length_cons]
    congr 1
    omega
  · intro i hi
    dsimp only
    have hoff : ((r.tail+1)%n+i)%n = (r.tail+(i+1))%n := by
      rw [Nat.mod_add_mod]
      congr 1
      omega
    -- the slot that was read is the one at offset 0
    have hne : (r.tail+(i+1))%n ≠ r.tail := by
      have h0 := offset_ne (t := r.tail) (show i+1 < n by omega) (show 0 < n by omega) (Nat.succ_ne_zero i)
      rwa [Nat.add_zero r.tail, Nat.mod_eq_of_lt h.tail] at h0
    rw [hoff, Function.update_of_ne hne, h.slots (i+1) (Nat.succ_lt_succ hi),
      List.getElem?_cons_succ]

theorem step (h : Holds n r l) {op : Op α} (hs : r.Step n op r') :
    ∃ l', Fifo n l op l' ∧ Holds n r' l' := by
  cases op with
  | push a ok =>
    replace hs : r.push n a = (ok,r') := hs
    by_cases hroom : l.length < n
    · obtain ⟨h₁,h₂⟩ := h.push_room (a := a) hroom
      rw [hs] at h₁ h₂
      obtain rfl : ok = true := h₁
      exact ⟨_,.accept a hroom,h₂⟩
    · have hfull : l.length = n := Nat.le_antisymm h.fits (not_lt.mp hroom)
      rw [h.push_full hfull] at hs
      cases hs
      exact ⟨l,.refuse a hfull,h⟩
  | pop answer =>
    replace hs : r.pop n = (answer,r') := hs
    cases l with
    | nil =>
      rw [h.pop_empty] at hs
      cases hs
      exact ⟨[],.nothing,h⟩
    | cons a l =>
      obtain ⟨h₁,h₂⟩ := h.pop_cons
      rw [hs] at h₁ h₂
      obtain rfl : answer = some a := h₁
      exact ⟨l,.oldest a l,h₂⟩

end Holds

/-- Every run of the ring is a run of the list with the same calls and answers. -/
theorem Circular.run_fifo {n : ℕ} {r : Circular α} {h : List (Op α)} (hn : 0 < n)
    (run : Run (Circular.Step n) .empty h r) : ∃ l, Run (Fifo n) [] h l ∧ Holds n r l := by
  refine run.invariant (P := fun h r => ∃ l, Run (Fifo n) [] h l ∧ Holds n r l)
    ⟨[],.start,.empty hn⟩ ?_
  intro h r op r' ⟨l,hl,hr⟩ hs
  obtain ⟨l',hf,hr'⟩ := hr.step hs
  exact ⟨l',.next hl hf,hr'⟩

end Zohara.RingQueue
