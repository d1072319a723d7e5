import Mathlib.Data.Finset.Card
import Mathlib.Algebra.BigOperators.Group.List.Basic
import Mathlib.Tactic.Ring
import Mathlib.Tactic.Linarith

/-!
# Sets of naturals stored in 64-bit words

A bitmap is a total map from word indices to 64-bit words; element `n` is bit
`n%64` of word `n/64`. Insertion and removal are the usual read-modify-write
of one word. The least clear bit and the population count are list scans over
the 64 positions, so both evaluate.

The module knows nothing about what the elements stand for. Its clients use
only the membership equations, the position of the least clear bit, the
word-by-word count and the number of clear bits below a bound.
-/
namespace Zohara.WordBitmap
open List Option Function BitVec

abbrev Bitmap := ℕ → BitVec 64

def member (b : Bitmap) (n : ℕ) : Bool := (b (n/64)).getLsbD (n%64)

def insert (b : Bitmap) (n : ℕ) : Bitmap :=
  Function.update b (n/64) (b (n/64) ||| (1#64 <<< (n%64)))

def erase (b : Bitmap) (n : ℕ) : Bitmap :=
  Function.update b (n/64) (b (n/64) &&& ~~~(1#64 <<< (n%64)))

/-- Number of consecutive one bits from bit zero upwards. -/
def trailingOnes (w : BitVec 64) : ℕ :=
  ((List.range 64).find? fun i => !w.getLsbD i).getD 64

def countOnes (w : BitVec 64) : ℕ := (List.range 64).countP fun i => w.getLsbD i

theorem getLsbD_one_shiftLeft {k i : ℕ} (hi : i < 64) :
    (1#64 <<< k).getLsbD i = decide (k = i) := by
  rw [getLsbD_shiftLeft]
  by_cases h : i < k
  · simp [h, hi, show ¬k = i by omega]
  · by_cases he : k = i
    · subst he
      simp [hi]
    · have hne : i-k ≠ 0 := by omega
      simp [hi, h, he, getLsbD_one, hne]

theorem member_insert (b : Bitmap) (n k : ℕ) :
    member (insert b n) k = (decide (k = n) || member b k) := by
  unfold member insert
  by_cases hw : k/64 = n/64
  · rw [hw, update_self, getLsbD_or,
      getLsbD_one_shiftLeft (Nat.mod_lt _ (by decide)), Bool.or_comm]
    congr 1
    simp only [decide_eq_decide]
    omega
  · have hk : k ≠ n := fun h => hw (by rw [h])
    rw [update_of_ne hw]
    simp [hk]

theorem member_foldl_insert (l : List ℕ) (b : Bitmap) (k : ℕ) :
    member (l.foldl insert b) k = (decide (k ∈ l) || member b k) := by
  induction l generalizing b with
  | nil => simp
  | cons n l ih =>
    rw [foldl_cons, ih, member_insert, Bool.eq_iff_iff]
    simp only [Bool.or_eq_true, decide_eq_true_eq, mem_cons]
    tauto

theorem member_erase (b : Bitmap) (n k : ℕ) :
    member (erase b n) k = (decide (k ≠ n) && member b k) := by
  unfold member erase
  by_cases hw : k/64 = n/64
  · have hb : k%64 < 64 := Nat.mod_lt _ (by decide)
    rw [hw, update_self, getLsbD_and, getLsbD_not,
      getLsbD_one_shiftLeft hb, Bool.and_comm]
    congr 1
    simp only [hb, decide_true, Bool.true_and, ← decide_not, decide_eq_decide]
    omega
  · have hk : k ≠ n := fun h => hw (by rw [h])
    rw [update_of_ne hw]
    simp [hk]

/-- A word that is not all ones has a clear bit, and everything below the
least one is set. -/
theorem trailingOnes_spec {w : BitVec 64} (h : w ≠ BitVec.allOnes 64) :
    trailingOnes w < 64 ∧ w.getLsbD (trailingOnes w) = false ∧
      ∀ i < trailingOnes w, w.getLsbD i = true := by
  cases hf : (List.range 64).find? fun i => !w.getLsbD i with
  | none =>
    refine (h ?_).elim
    apply eq_of_getLsbD_eq
    intro i hi
    have hall := find?_eq_none.mp hf i (mem_range.mpr hi)
    rw [getLsbD_allOnes, decide_eq_true hi]
    simpa only [Bool.not_eq_true, Bool.not_eq_false'] using hall
  | some i =>
    have hi := find?_range_eq_some.mp hf
    simp only [trailingOnes, hf, getD_some]
    refine ⟨mem_range.mp hi.2.1, by simpa using hi.1, ?_⟩
    intro j hj
    simpa using hi.2.2 j hj

theorem getLsbD_lowMask {k : ℕ} (hk : k < 64) (i : ℕ) :
    ((1#64 <<< k) - 1#64).getLsbD i = decide (i < k) := by
  have hp : 2^k < 2^64 := Nat.pow_lt_pow_right (by decide) hk
  have h1 : 1 ≤ 2^k := Nat.one_le_two_pow
  have hs : (1#64 <<< k).toNat = 2^k := by
    rw [toNat_shiftLeft, Nat.shiftLeft_eq]
    simpa using Nat.mod_eq_of_lt hp
  have hv : ((1#64 <<< k) - 1#64).toNat = 2^k-1 := by
    rw [toNat_sub_of_le (by rw [le_def, hs]; simpa using h1), hs]
    rfl
  rw [BitVec.getLsbD, hv, Nat.testBit_two_pow_sub_one]

theorem countOnes_eq (w : ℕ) (p : ℕ → Bool) (v : BitVec 64)
    (h : ∀ i < 64, v.getLsbD i = p (64*w+i)) :
    countOnes v = ((List.range 64).map (64*w+·)).countP p := by
  rw [countOnes, countP_map]
  apply countP_congr
  intro i hi
  rw [h i (mem_range.mp hi)]
  rfl

theorem sum_words (words : ℕ) (p : ℕ → Bool) (c : ℕ → ℕ)
    (h : ∀ w < words, c w = ((List.range 64).map (64*w+·)).countP p) :
    ((List.range words).map c).sum = (List.range (64*words)).countP p := by
  induction words with
  | zero => rfl
  | succ n ih =>
    rw [range_succ, map_append, sum_append, ih fun w hw => h w (by omega),
      show 64*(n+1) = 64*n+64 by ring, range_add, countP_append]
    simp [h n (by omega)]

/-! ## Clear bits -/

/-- The elements below `n` that are not in the set. -/
def clear (b : Bitmap) (n : ℕ) : Finset ℕ := (Finset.range n).filter fun k => member b k = false

variable {b : Bitmap}

theorem mem_clear {n k : ℕ} : k ∈ clear b n ↔ k < n ∧ member b k = false := by
  simp [clear]

theorem clear_foldl_insert (l : List ℕ) (b : Bitmap) (n : ℕ) :
    clear (l.foldl insert b) n = clear b n \ l.toFinset := by
  ext k
  simp only [mem_clear, member_foldl_insert, Finset.mem_sdiff, List.mem_toFinset,
    Bool.or_eq_false_iff, decide_eq_false_iff_not]
  tauto

theorem card_clear_foldl_insert {l : List ℕ} {n : ℕ} (hl : l.Nodup)
    (hclear : ∀ k ∈ l, k ∈ clear b n) :
    (clear (l.foldl insert b) n).card+l.length = (clear b n).card := by
  have hsub : l.toFinset ⊆ clear b n := fun k hk => hclear k (mem_toFinset.mp hk)
  rw [clear_foldl_insert, ← toFinset_card_of_nodup hl]
  exact Finset.card_sdiff_add_card_eq_card hsub

end Zohara.WordBitmap
