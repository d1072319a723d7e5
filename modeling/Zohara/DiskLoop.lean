import Mathlib.Data.FinEnum
import Mathlib.Data.Set.Finite.Range
import Zohara.DiskImage
import Zohara.TurnLoop

/-!
# Loops that walk over a disk

A loop reads its next place from the disk and perhaps writes to the disk on the way. A turn, as far
as the decision to go on, is an action whose answer is the next place, or 0 when the turn is the
last one. Places are numbers of 28 bits, and the driver reaches 2^28 sectors, so there are finitely
many places and images to come to: the loop ends unless it comes to the same place with the same
image again. If a transfer is going to fail it ends in any case.
-/
namespace Zohara.IdeDisk
open ByteMemory FallibleState TurnLoop Relation

variable {α : Type} {disk : IdeDisk} {x : ℕ → ℕ → Action Drives α} {turn : ℕ → Action Drives ℕ}
  {c d : ℕ} {w w' : Drives} {p q : ℕ × Memory}

variable (disk) in
/-- The loop `x`, given a number of turns and a place, and one turn of it. -/
structure DiskLoop (x : ℕ → ℕ → Action Drives α) (turn : ℕ → Action Drives ℕ) : Prop where
  out : ∀ c w, x 0 c w = .error .panic w
  goes : ∀ {c d w w'}, turn c w = .ok d w' → d ≠ 0 → ∀ n, x (n+1) c w = x n d w'
  ends : ∀ {c w w'}, turn c w = .ok 0 w' → ∀ n, x (n+1) c w = x 1 c w
  fails : ∀ {c e w w'}, turn c w = .error e w' → ∀ n, x (n+1) c w = x 1 c w
  byImage : ∀ c, ByImage disk (turn c)
  confined : ∀ c w, Ends (turn c) w
    (fun d w' => d < 2^28 ∧ (d ≠ 0 → w.transfers < w'.transfers) ∧
      ∀ a, 2^37 ≤ a → disk.contents w' a = disk.contents w a) fun _ _ => True

variable (disk) in
/-- From one place and image to the next. -/
def Leads (turn : ℕ → Action Drives ℕ) (p q : ℕ × Memory) : Prop :=
  onImage disk (turn p.1) p.2 = some q ∧ q.1 ≠ 0

theorem leads_unique : Relator.RightUnique (Leads disk turn) := fun _ _ _ hb hc =>
  Option.some.inj (hb.1.symm.trans hc.1)

theorem cycles_of_answer {m : Memory} (hkeeps : ∀ w, Ends (turn c) w
    (fun _ w' => disk.contents w' = disk.contents w) fun _ _ => True)
    (h : answer (turn c) (still m) = .ok c) (hc : c ≠ 0) : Cycles (Leads disk turn) (c,m) := by
  have hrun := ok_of_answer h
  have hlead : Leads disk turn (c,m) (c,m) := by
    refine ⟨?_,hc⟩
    unfold onImage
    rw [hrun]
    exact congrArg (fun m => some (c,m)) ((hkeeps _).ok hrun)
  exact ⟨_,.refl,.single hlead⟩

namespace DiskLoop

theorem of_turn (rest : ℕ → Action Drives α) (hout : ∀ c, x 0 c = throw .panic)
    (hx : ∀ n c, x (n+1) c = turn c >>= fun d => if d = 0 then rest c else x n d)
    (himage : ∀ c, ByImage disk (turn c))
    (hconfined : ∀ c w, Ends (turn c) w
      (fun d w' => d < 2^28 ∧ (d ≠ 0 → w.transfers < w'.transfers) ∧
        ∀ a, 2^37 ≤ a → disk.contents w' a = disk.contents w a) fun _ _ => True) :
    DiskLoop disk x turn where
  out c w := by
    rw [hout]
    rfl
  goes := by
    intro c d w w' hturn hd n
    rw [hx, bind_ok hturn, if_neg hd]
  ends := by
    intro c w w' hturn n
    rw [hx, hx, bind_ok hturn, bind_ok hturn, if_pos rfl, if_pos rfl]
  fails := by
    intro c e w w' hturn n
    rw [hx, hx, bind_error hturn, bind_error hturn]
  byImage := himage
  confined := hconfined

section

variable (h : DiskLoop disk x turn)
include h

theorem turn_cases (c : ℕ) (w : Drives) :
    (∀ n, x (n+1) c w = x 1 c w) ∧ ((∀ q, ¬Leads disk turn (c,disk.contents w) q) ∨ ¬w.Quiet) ∨
      ∃ d w', Leads disk turn (c,disk.contents w) (d,disk.contents w') ∧ Later w w' ∧
        w.transfers < w'.transfers ∧ ∀ n, x (n+1) c w = x n d w' := by
  have himage := h.byImage c w
  cases hturn : turn c w with
  | error e w' =>
    refine .inl ⟨h.fails hturn,(himage.error hturn).imp_left fun hnone q hq => ?_⟩
    rw [hq.1] at hnone
    cases hnone
  | ok d w' =>
    obtain ⟨hd,hlater⟩ := himage.ok hturn
    by_cases hzero : d = 0
    · subst hzero
      refine .inl ⟨h.ends hturn,.inl fun q hq => ?_⟩
      cases hd.symm.trans hq.1
      exact hq.2 rfl
    · exact .inr ⟨d,w',⟨hd,hzero⟩,hlater,((h.confined c w).ok hturn).2.1 hzero,h.goes hturn hzero⟩

theorem leads_cases (hq : w.Quiet) (hlead : Leads disk turn (c,disk.contents w) q) :
    ∃ w', disk.contents w' = q.2 ∧ Later w w' ∧ w.transfers < w'.transfers ∧
      ∀ n, x (n+1) c w = x n q.1 w' := by
  rcases h.turn_cases c w with ⟨_,hno | hfail⟩ | ⟨d,w',hlead',hlater,hlt,hnext⟩
  · exact absurd hlead (hno q)
  · exact absurd hq hfail
  · obtain rfl := leads_unique hlead' hlead
    exact ⟨w',rfl,hlater,hlt,hnext⟩

theorem settles_of_failure (hfail : ¬w.Quiet) : Settles (fun n => x n c) w := by
  unfold Drives.Quiet at hfail
  push Not at hfail
  obtain ⟨k,hk,hkfail⟩ := hfail
  -- the failing transfer comes nearer with every turn
  induction hj : k-w.transfers using Nat.strong_induction_on generalizing c w with
  | h j ih =>
    rcases h.turn_cases c w with ⟨hstop,_⟩ | ⟨d,w',_,hlater,hlt,hnext⟩
    · exact settles_stop hstop
    · have hk' : w'.transfers ≤ k := by
        by_contra hlt'
        exact hkfail (hlater.passed k hk (by omega))
      refine (settles_shift (y := fun n => x n d) hnext).mpr ?_
      refine ih (k-w'.transfers) (by omega) hk' ?_ rfl
      rwa [hlater.fails]

theorem endless (hq : w.Quiet) (hc : Cycles (Leads disk turn) (c,disk.contents w)) :
    Endless Drives.transfers (fun n => x n c) w := by
  intro n
  induction n generalizing c w with
  | zero => exact ⟨w,h.out c w,le_rfl⟩
  | succ n ih =>
    obtain ⟨q,hlead,hc'⟩ := hc.next
    obtain ⟨w',hw',hlater,hlt,hnext⟩ := h.leads_cases hq hlead
    have hc' : Cycles (Leads disk turn) (q.1,disk.contents w') := by rwa [hw']
    obtain ⟨w'',hout,hle⟩ := ih (hlater.quiet_iff.mpr hq) hc'
    exact ⟨w'',(hnext n).trans hout,by omega⟩

theorem reach (hq : w.Quiet) (hreach : ReflTransGen (Leads disk turn) (c,disk.contents w) q) :
    ∃ k w', disk.contents w' = q.2 ∧ Later w w' ∧ ∀ n, x (n+k) c w = x n q.1 w' := by
  induction hreach with
  | refl => exact ⟨0,w,rfl,.refl,fun _ => rfl⟩
  | @tail p _ _ hlead ih =>
    obtain ⟨k,w₁,hw₁,hlater₁,hgo₁⟩ := ih
    rw [← Prod.mk.eta (p := p), ← hw₁] at hlead
    obtain ⟨w₂,hw₂,hlater₂,_,hgo₂⟩ := h.leads_cases (hlater₁.quiet_iff.mpr hq) hlead
    refine ⟨k+1,w₂,hw₂,hlater₁.trans hlater₂,fun n => ?_⟩
    rw [show n+(k+1) = n+1+k by omega, hgo₁, hgo₂]

end

/-! ## Finitely many places -/

theorem leads_confined (h : DiskLoop disk x turn) (hlead : Leads disk turn p q) :
    q.1 < 2^28 ∧ ∀ a, 2^37 ≤ a → q.2 a = p.2 a := by
  have hends := Ends.mono (R := fun d w' => d < 2^28 ∧
    ∀ a, 2^37 ≤ a → disk.contents w' a = p.2 a) (h.confined p.1 (still p.2))
    (fun _ _ hd => ⟨hd.1,hd.2.2⟩) fun _ _ h => h
  exact Ends.onImage (Q := fun d m => d < 2^28 ∧ ∀ a, 2^37 ≤ a → m a = p.2 a) hends hlead.1

theorem finite_places (k n : ℕ) (m : Memory) :
    {q : ℕ × Memory | q.1 < k ∧ ∀ a, n ≤ a → q.2 a = m a}.Finite := by
  let place : Fin k × (Fin n → UInt8) → ℕ × Memory := fun t =>
    (t.1,fun a => if ha : a < n then t.2 ⟨a,ha⟩ else m a)
  refine (Set.finite_range place).subset ?_
  rintro ⟨c,m'⟩ ⟨hc,hm'⟩
  refine ⟨(⟨c,hc⟩,fun i => m' i),Prod.ext rfl (funext fun a => ?_)⟩
  by_cases ha : a < n
  · exact dif_pos ha
  · exact (dif_neg ha).trans (hm' a (not_lt.mp ha)).symm

theorem finite_reach (h : DiskLoop disk x turn) (p : ℕ × Memory) :
    {q | ReflTransGen (Leads disk turn) p q}.Finite := by
  refine ((finite_places (2^28) (2^37) p.2).insert p).subset ?_
  intro q hreach
  induction hreach with
  | refl => exact .inl rfl
  | tail _ hlead ih =>
    obtain ⟨hq,hm⟩ := h.leads_confined hlead
    refine .inr ⟨hq,fun a ha => (hm a ha).trans ?_⟩
    rcases ih with rfl | ⟨_,hm'⟩
    · rfl
    · exact hm' a ha

theorem finish (h : DiskLoop disk x turn) (hq : w.Quiet)
    (hc : ¬Cycles (Leads disk turn) (c,disk.contents w)) :
    ∃ k c' w', ReflTransGen (Leads disk turn) (c,disk.contents w) (c',disk.contents w') ∧
      (∀ q, ¬Leads disk turn (c',disk.contents w') q) ∧ Later w w' ∧
        ∀ n, k < n → x n c w = x 1 c' w' := by
  obtain ⟨⟨c',m'⟩,hreach,hend⟩ := exists_end (h.finite_reach _) hc
  obtain ⟨k,w',rfl,hlater,hgo⟩ := h.reach hq hreach
  refine ⟨k,c',w',hreach,hend,hlater,fun n hn => ?_⟩
  obtain ⟨j,rfl⟩ := Nat.exists_eq_add_of_lt hn
  rw [show k+j+1 = j+1+k by omega, hgo]
  rcases h.turn_cases c' w' with ⟨hstop,_⟩ | ⟨d,w'',hlead,_⟩
  · exact hstop j
  · exact absurd hlead (hend _)

theorem settles_iff (h : DiskLoop disk x turn) :
    Settles (fun n => x n c) w ↔ ¬(w.Quiet ∧ Cycles (Leads disk turn) (c,disk.contents w)) := by
  constructor
  · exact fun hsettles hc => (h.endless hc.1 hc.2).not_settles hsettles
  · intro hc
    by_cases hq : w.Quiet
    · obtain ⟨k,c',w',_,_,_,hlast⟩ := h.finish hq fun hcycle => hc ⟨hq,hcycle⟩
      exact ⟨k+1,fun m hm => (hlast m hm).trans (hlast (k+1) k.lt_succ_self).symm⟩
    · exact h.settles_of_failure hq

theorem settles_bind_iff {β : Type} (h : DiskLoop disk x turn) (g : α → Action Drives β) :
    Settles (fun n => x n c >>= g) w ↔
      ¬(w.Quiet ∧ Cycles (Leads disk turn) (c,disk.contents w)) := by
  constructor
  · intro hsettles hc
    have hendless : Endless Drives.transfers (fun n => x n c >>= g) w := (h.endless hc.1 hc.2).bind
    exact hendless.not_settles hsettles
  · exact fun hc => (h.settles_iff.mpr hc).bind g

end DiskLoop

end Zohara.IdeDisk
