import Mathlib.Order.Basic

/-!
# Nearest places on a circle

The places `0, …, n-1` stand on a circle. `ahead n a j` counts the steps from `a` to the next
visit of `j`, so that `a` itself is a whole turn away. A search that always takes the nearest
candidate passes over a waiting place only while it comes closer to it.
-/
namespace Zohara.CyclicSearch

def ahead (n a j : ℕ) : ℕ := if a < j then j-a else n+j-a

structure Nearest (p : ℕ → Prop) (n a k : ℕ) : Prop where
  place : k < n
  holds : p k
  least : ∀ j < n, p j → ahead n a k ≤ ahead n a j

section
variable {n a j k d : ℕ}

theorem ahead_bounds (ha : a < n) (hj : j < n) : 1 ≤ ahead n a j ∧ ahead n a j ≤ n := by
  unfold ahead
  split_ifs <;> omega

theorem ahead_inj (ha : a < n) (hj : j < n) (hk : k < n) (h : ahead n a j = ahead n a k) : j = k := by
  unfold ahead at h
  split_ifs at h <;> omega

theorem ahead_rest (ha : a < n) (hj : j < n) (hk : k < n) (h : ahead n a k < ahead n a j) :
    ahead n a k+ahead n k j = ahead n a j := by
  unfold ahead at h ⊢
  split_ifs at h ⊢ <;> omega

theorem ahead_place (ha : a < n) (hd : 0 < d) (hn : d ≤ n) : ahead n a ((a+d)%n) = d := by
  by_cases hlt : a+d < n
  · rw [Nat.mod_eq_of_lt hlt, ahead, if_pos (by omega)]
    omega
  · rw [Nat.mod_eq_sub_mod (Nat.le_of_not_lt hlt), Nat.mod_eq_of_lt (by omega), ahead,
      if_neg (by omega)]
    omega

theorem place_ahead (ha : a < n) (hj : j < n) : (a+ahead n a j)%n = j := by
  obtain ⟨hpos,hle⟩ := ahead_bounds ha hj
  exact ahead_inj ha (Nat.mod_lt _ (by omega)) hj (ahead_place ha hpos hle)

theorem Nearest.closer {p : ℕ → Prop} (h : Nearest p n a k) (ha : a < n) (hj : j < n) (hp : p j)
    (hne : j ≠ k) : ahead n k j < ahead n a j := by
  have hle := h.least j hj hp
  have hstrict : ahead n a k ≠ ahead n a j := fun he => hne (ahead_inj ha hj h.place he.symm)
  have hrest := ahead_rest ha hj h.place (by omega)
  have hpos := (ahead_bounds ha h.place).1
  omega

end

end Zohara.CyclicSearch
