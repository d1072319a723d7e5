import Zohara.UserTransfer

/-!
# The copy loop turn by turn

The loop of copy_from_user and copy_to_user visits one address in each page: the given one, and then
the page starts after it. `afterTurns` is the address and the state after a number of turns that were
all followed by another one, and every outcome is read off from the last of them.

The addresses are known in advance (`pageAt`), and so is the number of bytes moved before each of
them (`offsetOf`). A transfer whose state is a function of that number is described by `Tracks`. The
loop then comes to its `k`-th address exactly when all addresses before it have passed. After the
last page of the address space it goes on with page 0.

Nothing is assumed about the tables.
-/
namespace Zohara.UserCopy
open Mmu List Option

def nextPage (a : ℕ) : ℕ := (a/4096*4096+4096)%2^64

def chunkLen (fin a : ℕ) : ℕ := (min fin (nextPage a)+2^64-a)%2^64

section
variable {σ : Type} (mapped reach : σ → ℕ → Bool) (move : σ → ℕ → ℕ → Option σ) (fin : ℕ)

/-- One turn that is followed by another one. -/
def copyTurn (x : ℕ × σ) : Option (ℕ × σ) :=
  if x.1 < fin ∧ mapped x.2 x.1 = true ∧ reach x.2 x.1 = true then
    (move x.2 x.1 (chunkLen fin x.1)).map fun s => (nextPage x.1,s)
  else none

def afterTurns : ℕ → ℕ × σ → Option (ℕ × σ)
  | 0,x => some x
  | k+1,x => (copyTurn mapped reach move fin x).bind (afterTurns k)

/-- The sums page_start + 4096 that the loop computes, before they are reduced to 64 bits. -/
def pageSums : ℕ → ℕ × σ → List ℕ
  | 0,_ => []
  | k+1,x =>
    if x.1 < fin then
      (x.1/4096*4096+4096)::((copyTurn mapped reach move fin x).map (pageSums k)).getD []
    else []

variable {mapped reach move fin} {a b k n len : ℕ} {s s' : σ} {x y : ℕ × σ} {touched : List (ℕ × ℕ)}

theorem afterTurns_succ : afterTurns mapped reach move fin (k+1) x =
    (afterTurns mapped reach move fin k x).bind (copyTurn mapped reach move fin) := by
  induction k generalizing x with
  | zero =>
    simp only [afterTurns, bind_some]
    cases copyTurn mapped reach move fin x <;> rfl
  | succ k ih =>
    rw [afterTurns, afterTurns]
    cases copyTurn mapped reach move fin x with
    | none => rfl
    | some y => exact ih

theorem copyTurn_eq_some : copyTurn mapped reach move fin (a,s) = some (b,s') ↔
    a < fin ∧ mapped s a = true ∧ reach s a = true ∧ move s a (chunkLen fin a) = some s' ∧
      b = nextPage a := by
  unfold copyTurn
  dsimp only
  split_ifs with h
  · rw [map_eq_some_iff]
    constructor
    · rintro ⟨t,ht,heq⟩
      obtain ⟨hb,rfl⟩ := Prod.mk.inj heq
      exact ⟨h.1,h.2.1,h.2.2,ht,hb.symm⟩
    · rintro ⟨-,-,-,ht,hb⟩
      exact ⟨s',ht,by rw [hb]⟩
  · exact ⟨nofun,fun hc => absurd ⟨hc.1,hc.2.1,hc.2.2.1⟩ h⟩

theorem copyChunks_turn (h : copyTurn mapped reach move fin (a,s) = some (b,s')) :
    copyChunks mapped reach move len fin (n+1) a s touched =
      copyChunks mapped reach move len fin n b s' (touched++[(a,chunkLen fin a)]) := by
  obtain ⟨hlt,hm,hr,hmove,hb⟩ := copyTurn_eq_some.mp h
  rw [hb]
  unfold chunkLen nextPage at hmove ⊢
  rw [copyChunks, if_pos hlt, hm]
  simp only [Bool.not_true, Bool.false_eq_true, if_false, hmove, hr, if_true]

theorem copyChunks_after (len n : ℕ) (touched : List (ℕ × ℕ))
    (h : afterTurns mapped reach move fin k (a,s) = some (b,s')) :
    ∃ chunks : List (ℕ × ℕ), chunks.length = k ∧
      copyChunks mapped reach move len fin (n+k) a s touched =
        copyChunks mapped reach move len fin n b s' (touched++chunks) := by
  induction k generalizing a s touched with
  | zero =>
    cases h
    exact ⟨[],rfl,by rw [append_nil, Nat.add_zero]⟩
  | succ k ih =>
    obtain ⟨⟨c,s₁⟩,hturn,hrest⟩ := bind_eq_some_iff.mp h
    obtain ⟨chunks,hlen,heq⟩ := ih (touched++[(a,chunkLen fin a)]) hrest
    refine ⟨(a,chunkLen fin a)::chunks,by rw [length_cons, hlen],?_⟩
    rw [← Nat.add_assoc, copyChunks_turn hturn, heq, append_assoc, singleton_append]

theorem exists_last (mapped reach : σ → ℕ → Bool) (move : σ → ℕ → ℕ → Option σ) (fin n a : ℕ)
    (s : σ) : (∃ x, afterTurns mapped reach move fin n (a,s) = some x) ∨
      ∃ k < n, ∃ b s', afterTurns mapped reach move fin k (a,s) = some (b,s') ∧
        copyTurn mapped reach move fin (b,s') = none := by
  induction n with
  | zero => exact .inl ⟨_,rfl⟩
  | succ n ih =>
    rcases ih with ⟨⟨b,s'⟩,hb⟩ | ⟨k,hk,hlast⟩
    · cases hturn : copyTurn mapped reach move fin (b,s') with
      | none => exact .inr ⟨n,Nat.lt_succ_self n,b,s',hb,hturn⟩
      | some y =>
        refine .inl ⟨y,?_⟩
        rw [afterTurns_succ, hb, bind_some, hturn]
    · exact .inr ⟨k,Nat.lt_succ_of_lt hk,hlast⟩

theorem copyChunks_last (len n : ℕ) (touched : List (ℕ × ℕ))
    (h : copyTurn mapped reach move fin (a,s) = none) :
    (fin ≤ a ∧ copyChunks mapped reach move len fin (n+1) a s touched = ⟨.ok len,s,touched⟩) ∨
      (a < fin ∧ mapped s a = false ∧
        copyChunks mapped reach move len fin (n+1) a s touched = ⟨.err efault,s,touched⟩) ∨
      (a < fin ∧ mapped s a = true ∧
        ((copyChunks mapped reach move len fin (n+1) a s touched).outcome = .panic ∨
          (copyChunks mapped reach move len fin (n+1) a s touched).outcome = .fault a)) := by
  rw [copyChunks]
  by_cases hlt : a < fin
  · rw [if_pos hlt]
    cases hm : mapped s a with
    | false => exact .inr (.inl ⟨hlt,rfl,rfl⟩)
    | true =>
      refine .inr (.inr ⟨hlt,rfl,?_⟩)
      simp only [Bool.not_true, Bool.false_eq_true, if_false]
      cases hmove : move s a (chunkLen fin a) with
      | none =>
        unfold chunkLen nextPage at hmove
        rw [hmove]
        exact .inl rfl
      | some s' =>
        cases hr : reach s a with
        | true =>
          have hturn : copyTurn mapped reach move fin (a,s) = some (nextPage a,s') :=
            copyTurn_eq_some.mpr ⟨hlt,hm,hr,hmove,rfl⟩
          rw [h] at hturn
          cases hturn
        | false =>
          unfold chunkLen nextPage at hmove
          rw [hmove]
          exact .inr rfl
  · rw [if_neg hlt]
    exact .inl ⟨not_lt.mp hlt,rfl⟩

theorem copyTurn_end (h : ¬a < fin) : copyTurn mapped reach move fin (a,s) = none :=
  if_neg fun hc => h hc.1

section

variable (hk : k < n) (h : afterTurns mapped reach move fin k (a,s) = some (b,s'))
include hk h

theorem copyChunks_efault (hlt : b < fin)
    (hm : mapped s' b = false) : ∃ chunks : List (ℕ × ℕ), chunks.length = k ∧
      copyChunks mapped reach move len fin n a s touched =
        ⟨.err efault,s',touched++chunks⟩ := by
  obtain ⟨j,rfl⟩ := Nat.exists_eq_add_of_le' hk
  obtain ⟨chunks,hlen,heq⟩ := copyChunks_after len (j+1) touched h
  refine ⟨chunks,hlen,?_⟩
  rw [show j+k.succ = j+1+k by omega, heq, copyChunks, if_pos hlt, hm]
  rfl

end

theorem copyChunks_answer (mapped reach : σ → ℕ → Bool) (move : σ → ℕ → ℕ → Option σ)
    (len fin n a : ℕ) (s : σ) (touched : List (ℕ × ℕ)) :
    ((copyChunks mapped reach move len fin n a s touched).outcome = .err efault →
      ∃ k < n, ∃ b s', afterTurns mapped reach move fin k (a,s) = some (b,s') ∧ b < fin ∧
        mapped s' b = false) ∧
    ((copyChunks mapped reach move len fin n a s touched).outcome = .ok len →
      ∃ k < n, ∃ b s', afterTurns mapped reach move fin k (a,s) = some (b,s') ∧ fin ≤ b) := by
  rcases exists_last mapped reach move fin n a s with ⟨⟨b,s'⟩,hall⟩ | ⟨k,hk,b,s',hb,hlast⟩
  · obtain ⟨chunks,-,heq⟩ := copyChunks_after len 0 touched hall
    rw [Nat.zero_add] at heq
    rw [heq, copyChunks]
    simp
  · obtain ⟨j,rfl⟩ := Nat.exists_eq_add_of_le' hk
    obtain ⟨chunks,-,heq⟩ := copyChunks_after len (j+1) touched hb
    rw [show j+k.succ = j+1+k by omega, heq]
    rcases copyChunks_last len j (touched++chunks) hlast with
      ⟨hge,hc⟩ | ⟨hlt,hm,hc⟩ | ⟨-,-,hc⟩
    · rw [hc]
      exact ⟨by simp,fun _ => ⟨k,by omega,b,s',hb,hge⟩⟩
    · rw [hc]
      exact ⟨fun _ => ⟨k,by omega,b,s',hb,hlt,hm⟩,by simp⟩
    · rcases hc with hc | hc
      · rw [hc]
        simp
      · rw [hc]
        simp

theorem mem_pageSums {p : ℕ} : p ∈ pageSums mapped reach move fin n x ↔
    ∃ k < n, ∃ y, afterTurns mapped reach move fin k x = some y ∧ y.1 < fin ∧
      p = y.1/4096*4096+4096 := by
  induction n generalizing x with
  | zero => simp [pageSums]
  | succ n ih =>
    rw [pageSums]
    split_ifs with hlt
    · rw [mem_cons]
      constructor
      · rintro (rfl | hp)
        · exact ⟨0,Nat.succ_pos n,x,rfl,hlt,rfl⟩
        · cases hturn : copyTurn mapped reach move fin x with
          | none => simp [hturn] at hp
          | some z =>
            rw [hturn, map_some, getD_some, ih] at hp
            obtain ⟨k,hk,y,hy,hrest⟩ := hp
            refine ⟨k+1,Nat.succ_lt_succ hk,y,?_,hrest⟩
            rw [afterTurns, hturn, bind_some, hy]
      · rintro ⟨k,hk,y,hy,hyf,rfl⟩
        cases k with
        | zero =>
          cases hy
          exact .inl rfl
        | succ k =>
          obtain ⟨z,hturn,hz⟩ := bind_eq_some_iff.mp hy
          refine .inr ?_
          rw [hturn, map_some, getD_some, ih]
          exact ⟨k,Nat.lt_of_succ_lt_succ hk,y,hz,hyf,rfl⟩
    · constructor
      · intro hp
        cases hp
      · rintro ⟨k,hk,y,hy,hyf,rfl⟩
        cases k with
        | zero =>
          cases hy
          exact absurd hyf hlt
        | succ k =>
          have hnone : copyTurn mapped reach move fin x = none := copyTurn_end hlt
          rw [afterTurns, hnone] at hy
          cases hy

end

/-! ## The pages of the walk -/

/-- The `k`-th address of the walk from `ptr`. -/
def pageAt (ptr k : ℕ) : ℕ := if k = 0 then ptr else (ptr/4096+k)*4096%2^64

/-- The number of bytes in front of it. -/
def offsetOf (ptr k : ℕ) : ℕ := if k = 0 then 0 else (ptr/4096+k)*4096-ptr

section
variable {ptr fin k j : ℕ}

theorem pageAt_zero : pageAt ptr 0 = ptr := if_pos rfl

theorem offsetOf_zero : offsetOf ptr 0 = 0 := if_pos rfl

theorem pageAt_succ : pageAt ptr (k+1) = (ptr/4096+(k+1))*4096%2^64 := if_neg (Nat.succ_ne_zero k)

theorem offsetOf_succ : offsetOf ptr (k+1) = (ptr/4096+(k+1))*4096-ptr := if_neg (Nat.succ_ne_zero k)

theorem pageAt_eq (hptr : ptr < 2^64) (k : ℕ) : pageAt ptr k = (ptr+offsetOf ptr k)%2^64 := by
  cases k with
  | zero =>
    rw [pageAt_zero, offsetOf_zero]
    omega
  | succ k =>
    rw [pageAt_succ, offsetOf_succ]
    omega

theorem nextPage_pageAt (k : ℕ) : nextPage (pageAt ptr k) = pageAt ptr (k+1) := by
  unfold nextPage
  cases k with
  | zero =>
    rw [pageAt_zero, pageAt_succ]
    omega
  | succ k =>
    rw [pageAt_succ, pageAt_succ]
    omega

theorem offsetOf_mono (ptr : ℕ) (h : j ≤ k) : offsetOf ptr j ≤ offsetOf ptr k := by
  unfold offsetOf
  split_ifs <;> omega

theorem offsetOf_lt_succ (ptr k : ℕ) : offsetOf ptr k < offsetOf ptr (k+1) := by
  rw [offsetOf_succ]
  unfold offsetOf
  split_ifs <;> omega

theorem chunkLen_page (hptr : ptr < 2^64) (hnext : pageAt ptr (k+1) < fin) :
    chunkLen fin (pageAt ptr k) = offsetOf ptr (k+1)-offsetOf ptr k := by
  unfold chunkLen
  rw [nextPage_pageAt, Nat.min_eq_right hnext.le]
  cases k with
  | zero =>
    rw [pageAt_zero, pageAt_succ, offsetOf_zero, offsetOf_succ]
    omega
  | succ k =>
    rw [pageAt_succ, pageAt_succ, offsetOf_succ, offsetOf_succ]
    omega

/-- Between two visits to a page the walk comes through addresses that are not canonical. -/
theorem canonical_bound (hptr : ptr < 2^64) (h : ∀ j < k, Canonical (pageAt ptr j)) : k ≤ 2^36 := by
  by_contra hk
  have h0 := h 0 (by omega)
  rw [pageAt_zero] at h0
  unfold Canonical at h0
  rcases h0 with hlow | hhigh
  · -- the walk has come to the end of the lower half
    obtain ⟨j,hj⟩ : ∃ j, ptr/4096+(j+1) = 2^35 := ⟨2^35-ptr/4096-1,by omega⟩
    have hbad := h (j+1) (by omega)
    rw [pageAt_succ, hj] at hbad
    exact absurd hbad (by decide)
  · obtain ⟨j,hj⟩ : ∃ j, ptr/4096+(j+1) = 2^52+2^35 := ⟨2^52+2^35-ptr/4096-1,by omega⟩
    have hbad := h (j+1) (by omega)
    rw [pageAt_succ, hj] at hbad
    exact absurd hbad (by decide)

theorem offsetOf_small (ptr : ℕ) (hk : k ≤ 2^37) : offsetOf ptr k ≤ 2^49 := by
  unfold offsetOf
  split_ifs <;> omega

end

/-! ## Transfers -/

/-- The state after `n` bytes is `S n`, and no transfer goes beyond `limit` bytes. -/
structure Tracks {σ : Type} (mapped reach : σ → ℕ → Bool) (move : σ → ℕ → ℕ → Option σ)
    (ptr limit : ℕ) (S : ℕ → σ) : Prop where
  reach_eq : ∀ s a, mapped s a = true → reach s a = decide (Canonical a)
  move_eq : ∀ n c, (ptr+n)%2^64+c ≤ 2^64 → n+c < 2^64 →
    move (S n) ((ptr+n)%2^64) c = if n+c ≤ limit then some (S (n+c)) else none

/-- The first `k` addresses pass, each when the bytes in front of it have been moved. -/
def Passed {σ : Type} (mapped : σ → ℕ → Bool) (S : ℕ → σ) (ptr fin k : ℕ) : Prop :=
  ∀ j < k, pageAt ptr j < fin ∧ mapped (S (offsetOf ptr j)) (pageAt ptr j) = true ∧
    Canonical (pageAt ptr j)

section
variable {σ : Type} {mapped reach : σ → ℕ → Bool} {move : σ → ℕ → ℕ → Option σ}
  {ptr limit fin k : ℕ} {S : ℕ → σ}

theorem Passed.succ_iff : Passed mapped S ptr fin (k+1) ↔ Passed mapped S ptr fin k ∧
    pageAt ptr k < fin ∧ mapped (S (offsetOf ptr k)) (pageAt ptr k) = true ∧
      Canonical (pageAt ptr k) :=
  Nat.forall_lt_succ_right

theorem Passed.bound (hptr : ptr < 2^64) (h : Passed mapped S ptr fin k) : k ≤ 2^36 :=
  canonical_bound hptr fun j hj => (h j hj).2.2

section

variable (ht : Tracks mapped reach move ptr limit S) (hptr : ptr < 2^64) (hfin : fin < 2^64)
include ht hptr hfin

theorem Tracks.turn_iff (hk : k ≤ 2^36) {b : ℕ} {s : σ} :
    copyTurn mapped reach move fin (pageAt ptr k,S (offsetOf ptr k)) = some (b,s) ↔
      (pageAt ptr k < fin ∧ mapped (S (offsetOf ptr k)) (pageAt ptr k) = true ∧
        Canonical (pageAt ptr k)) ∧ b = pageAt ptr (k+1) ∧
      offsetOf ptr k+chunkLen fin (pageAt ptr k) ≤ limit ∧
      s = S (offsetOf ptr k+chunkLen fin (pageAt ptr k)) := by
  have hmove : pageAt ptr k < fin → move (S (offsetOf ptr k)) (pageAt ptr k)
      (chunkLen fin (pageAt ptr k)) = if offsetOf ptr k+chunkLen fin (pageAt ptr k) ≤ limit then
        some (S (offsetOf ptr k+chunkLen fin (pageAt ptr k))) else none := by
    intro hlt
    have hoff := offsetOf_small ptr (show k+1 ≤ 2^37 by omega)
    have hnext := offsetOf_lt_succ ptr k
    have hsize : pageAt ptr k+chunkLen fin (pageAt ptr k) ≤ 2^64 ∧
        chunkLen fin (pageAt ptr k) ≤ 4096 := by
      unfold chunkLen nextPage
      omega
    rw [pageAt_eq hptr] at hsize ⊢
    exact ht.move_eq _ _ hsize.1 (by omega)
  rw [copyTurn_eq_some, nextPage_pageAt]
  constructor
  · rintro ⟨hlt,hm,hr,hmv,rfl⟩
    rw [ht.reach_eq _ _ hm, decide_eq_true_eq] at hr
    rw [hmove hlt] at hmv
    split_ifs at hmv with hlim
    exact ⟨⟨hlt,hm,hr⟩,rfl,hlim,(some.inj hmv).symm⟩
  · rintro ⟨⟨hlt,hm,hc⟩,rfl,hlim,rfl⟩
    refine ⟨hlt,hm,?_,?_,rfl⟩
    · rw [ht.reach_eq _ _ hm, decide_eq_true hc]
    · rw [hmove hlt, if_pos hlim]

theorem Tracks.after_iff {b : ℕ} {s : σ} (hb : b < fin) :
    afterTurns mapped reach move fin k (ptr,S 0) = some (b,s) ↔
      Passed mapped S ptr fin k ∧ b = pageAt ptr k ∧ offsetOf ptr k ≤ limit ∧
        s = S (offsetOf ptr k) := by
  induction k generalizing b s with
  | zero =>
    rw [afterTurns, pageAt_zero, offsetOf_zero]
    constructor
    · intro h
      cases h
      exact ⟨nofun,rfl,Nat.zero_le _,rfl⟩
    · rintro ⟨-,rfl,-,rfl⟩
      rfl
  | succ k ih =>
    rw [afterTurns_succ, bind_eq_some_iff, Passed.succ_iff]
    have hchunk : pageAt ptr (k+1) < fin →
        offsetOf ptr k+chunkLen fin (pageAt ptr k) = offsetOf ptr (k+1) := by
      intro hnext
      have hlt := offsetOf_lt_succ ptr k
      rw [chunkLen_page hptr hnext]
      omega
    constructor
    · rintro ⟨⟨b',s'⟩,hprev,hturn⟩
      have hb' := (copyTurn_eq_some.mp hturn).1
      obtain ⟨hpass,rfl,hlim,rfl⟩ := (ih hb').mp hprev
      obtain ⟨hhere,rfl,hlim',rfl⟩ := (ht.turn_iff hptr hfin (hpass.bound hptr)).mp hturn
      rw [hchunk hb] at hlim' ⊢
      exact ⟨⟨hpass,hhere⟩,rfl,by omega,rfl⟩
    · rintro ⟨⟨hpass,hhere⟩,rfl,hlim,rfl⟩
      have hlt := offsetOf_lt_succ ptr k
      refine ⟨(pageAt ptr k,S (offsetOf ptr k)),(ih hhere.1).mpr ⟨hpass,rfl,by omega,rfl⟩,?_⟩
      rw [ht.turn_iff hptr hfin (hpass.bound hptr), hchunk hb]
      exact ⟨hhere,rfl,by omega,rfl⟩

end

end

end Zohara.UserCopy
