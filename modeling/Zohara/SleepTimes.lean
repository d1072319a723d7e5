import Mathlib.Data.Rat.Floor
import Zohara.NativeSyscalls

/-!
# How long a sleep lasts (src/timer.rs, src/syscall.rs, src/linux_compat.rs)

The time a program asks for, through the native call or through a Timespec, is compared with
the tick that its task is put to sleep for. Every sum and product on the way is written down in
exact integers; the code computes them in 64 bits. Time is the tick count: how much of the
current tick has passed already is not modelled, and neither is the wait for the scheduler
after the wake-up.
-/
namespace Zohara.SleepTimes
open ByteMemory PageTables Isolation Tasks System UserMemory UserTransfer
  LinuxCompat OpenFiles KernelRuns UserTables SegmentPages

/-- What ms_to_ticks and sleep_ms compute. -/
def sleepSums (now : ℕ) (ms : ℤ) : List ℤ := [ms+10,ms+10-1,now+(ms+10-1)/10]

/-- What the casts and the conversion of a Timespec compute. -/
def timespecSums (tvSec tvNsec : ℤ) : List ℤ :=
  [tvSec,tvSec*1000,tvNsec,tvSec*1000+tvNsec/1000000]

section
variable {ν : Type} (fs : FileSystem ν) (s : State ν)

def wakeTick : ℕ := (s.sys.tasks s.sys.current).wakeTick

/-- The Timespec at a pointer that is not null, if the processor can load it. -/
def timespecAt (req : ℕ) : Option (ℤ × ℤ) :=
  if req ≠ 0 ∧ complete s.sys.machine s.root req 8 = true ∧
      complete s.sys.machine s.root ((req+8)%2^64) 8 = true then
    some (FdTable.asIsize (leNat (loadBytes s.sys.machine s.root req 8)),
      FdTable.asIsize (leNat (loadBytes s.sys.machine s.root ((req+8)%2^64) 8)))
  else none

/-- The sleep that takes `s` to `s'` is exact: no value on the way leaves 64 bits, the task
waits for the tick that lies `ms` milliseconds ahead, rounded up, and these ticks last for the
`ns` nanoseconds asked for. -/
structure OnTime (s s' : State ν) (sums : List ℤ) (ms ns : ℤ) : Prop where
  fits : ∀ x ∈ sums, 0 ≤ x ∧ x < 2^64
  wake : (wakeTick s' : ℤ) = s.sys.ticks+⌈(ms : ℚ)/10⌉
  enough : ns ≤ (wakeTick s'-s.sys.ticks)*10000000

theorem ceil_tenth (ms : ℤ) : ⌈(ms : ℚ)/10⌉ = (ms+10-1)/10 := by
  have h := Rat.ceil_intCast_div_natCast ms 10
  rw [Nat.cast_ofNat] at h
  rw [h]
  omega

theorem wakeTick_sleepMs (ms : ℕ) :
    wakeTick {s with sys := s.sys.sleepMs ms} = (s.sys.ticks+(ms+10-1)%2^64/10)%2^64 := by
  unfold wakeTick sleepMs sleepUntil
  simp [setTaskState, setTask, msToTicks, msPerTick]

theorem mem_sleepSums {now : ℕ} {ms : ℤ} :
    (∀ x ∈ sleepSums now ms, 0 ≤ x ∧ x < 2^64) ↔
      (0 ≤ ms+10 ∧ ms+10 < 2^64) ∧ (0 ≤ ms+10-1 ∧ ms+10-1 < 2^64) ∧
        0 ≤ now+(ms+10-1)/10 ∧ now+(ms+10-1)/10 < 2^64 := by
  simp [sleepSums]

variable {tvSec tvNsec : ℤ}

theorem mem_timespecSums : (∀ x ∈ timespecSums tvSec tvNsec, 0 ≤ x ∧ x < 2^64) ↔
      (0 ≤ tvSec ∧ tvSec < 2^64) ∧ (0 ≤ tvSec*1000 ∧ tvSec*1000 < 2^64) ∧
        (0 ≤ tvNsec ∧ tvNsec < 2^64) ∧
        0 ≤ tvSec*1000+tvNsec/1000000 ∧ tvSec*1000+tvNsec/1000000 < 2^64 := by
  simp [timespecSums]

theorem sleepMs_wake {ms : ℕ} (h : ∀ x ∈ sleepSums s.sys.ticks ms, 0 ≤ x ∧ x < 2^64) :
    (wakeTick {s with sys := s.sys.sleepMs ms} : ℤ) = s.sys.ticks+⌈((ms : ℤ) : ℚ)/10⌉ := by
  obtain ⟨-,hms,hwake⟩ := mem_sleepSums.mp h
  rw [ceil_tenth, wakeTick_sleepMs]
  omega

theorem sleepMs_onTime_iff (ms : ℕ) :
    OnTime s {s with sys := s.sys.sleepMs ms} (sleepSums s.sys.ticks ms) ms (ms*1000000) ↔
      ms+10 < 2^64 ∧ (s.sys.ticks : ℤ)+⌈((ms : ℤ) : ℚ)/10⌉ < 2^64 := by
  rw [ceil_tenth]
  constructor
  · intro h
    obtain ⟨hsum,-,hwake⟩ := mem_sleepSums.mp h.fits
    omega
  · rintro ⟨hsum,hwake⟩
    have hfits := mem_sleepSums.mpr (by omega : (0 ≤ (ms : ℤ)+10 ∧ (ms : ℤ)+10 < 2^64) ∧
      (0 ≤ (ms : ℤ)+10-1 ∧ (ms : ℤ)+10-1 < 2^64) ∧
      0 ≤ s.sys.ticks+((ms : ℤ)+10-1)/10 ∧ s.sys.ticks+((ms : ℤ)+10-1)/10 < 2^64)
    have hw := sleepMs_wake s hfits
    refine ⟨hfits,hw,?_⟩
    rw [hw, ceil_tenth]
    omega

theorem asIsize_of_nonneg {n : ℕ} (hn : n < 2^64) (h : 0 ≤ FdTable.asIsize n) :
    FdTable.asIsize n = n := by
  rw [FdTable.asIsize_eq hn] at h ⊢
  split_ifs at h ⊢ with hsmall
  · rfl
  · omega

theorem loadBytes_lt (m : Machine) (root a : ℕ) : leNat (loadBytes m root a 8) < 2^64 := by
  have h := leNat_lt (loadBytes m root a 8)
  rwa [show (loadBytes m root a 8).length = 8 by simp [loadBytes]] at h

theorem sleepFor_state {req : ℕ} (hts : timespecAt s req = some (tvSec,tvNsec)) :
    ∃ a < 2^64, ∃ b < 2^64, FdTable.asIsize a = tvSec ∧ FdTable.asIsize b = tvNsec ∧
      (sleepFor s req).state =
        {s with sys := s.sys.sleepMs ((a*1000+b/1000000)%2^64)} := by
  unfold timespecAt at hts
  split at hts
  case isFalse => exact nomatch hts
  case isTrue hload =>
    obtain ⟨hreq,hc,hc'⟩ := hload
    obtain ⟨hsec,hnsec⟩ := Prod.mk.inj (Option.some.inj hts)
    refine ⟨_,loadBytes_lt _ _ _,_,loadBytes_lt _ _ _,hsec,hnsec,?_⟩
    unfold sleepFor
    simp only [if_neg hreq, loadAll, if_pos hc, if_pos hc']

theorem sleepFor_onTime_iff {req : ℕ} (hts : timespecAt s req = some (tvSec,tvNsec)) :
    OnTime s (sleepFor s req).state
        (timespecSums tvSec tvNsec++sleepSums s.sys.ticks (tvSec*1000+tvNsec/1000000))
        (tvSec*1000+tvNsec/1000000) (tvSec*1000000000+tvNsec) ↔
      0 ≤ tvSec ∧ 0 ≤ tvNsec ∧ tvSec*1000+tvNsec/1000000+10 < 2^64 ∧
      (s.sys.ticks : ℤ)+⌈((tvSec*1000+tvNsec/1000000 : ℤ) : ℚ)/10⌉ < 2^64 ∧
      (tvNsec%1000000 = 0 ∨ (tvSec*1000+tvNsec/1000000)%10 ≠ 0) := by
  obtain ⟨a,hseclt,b,hnseclt,hsec,hnsec,hstate⟩ := sleepFor_state s hts
  rw [hstate, ceil_tenth]
  constructor
  · rintro ⟨hfits,hwake,henough⟩
    rw [List.forall_mem_append] at hfits
    obtain ⟨hs,-,hn,-⟩ := mem_timespecSums.mp hfits.1
    obtain ⟨hsum,-,hlast⟩ := mem_sleepSums.mp hfits.2
    rw [hwake, ceil_tenth] at henough
    refine ⟨hs.1,hn.1,hsum.2,hlast.2,?_⟩
    omega
  · rintro ⟨hs,hn,hsum,hlast,hwhole⟩
    rw [← hsec] at hs
    rw [← hnsec] at hn
    rw [asIsize_of_nonneg hseclt hs] at hsec
    rw [asIsize_of_nonneg hnseclt hn] at hnsec
    subst hsec hnsec
    have hms : ((a : ℤ)*1000+(b : ℤ)/1000000) = ((a*1000+b/1000000)%2^64 : ℕ) := by omega
    have hsums := mem_timespecSums.mpr (by omega : (0 ≤ (a : ℤ) ∧ (a : ℤ) < 2^64) ∧
      (0 ≤ (a : ℤ)*1000 ∧ (a : ℤ)*1000 < 2^64) ∧ (0 ≤ (b : ℤ) ∧ (b : ℤ) < 2^64) ∧
      0 ≤ (a : ℤ)*1000+(b : ℤ)/1000000 ∧ (a : ℤ)*1000+(b : ℤ)/1000000 < 2^64)
    have henough : (a : ℤ)*1000000000+b ≤
        ((a*1000+b/1000000+10-1)/10 : ℤ)*10000000 := by omega
    rw [hms] at hsum hlast henough ⊢
    generalize (a*1000+b/1000000)%2^64 = ms at *
    have h := (sleepMs_onTime_iff s ms).mpr ⟨by omega,by rw [ceil_tenth]; exact hlast⟩
    refine ⟨List.forall_mem_append.mpr ⟨?_,h.fits⟩,h.wake,?_⟩
    · exact hsums
    · rw [h.wake, ceil_tenth]
      omega

/-- A sleep is exact only for durations away from the limits: the rounding must not leave
64 bits, the wake-up must lie within the tick count, the fields of a Timespec must not be
negative, and nanoseconds below a millisecond must not be all that is missing to a full tick. -/
theorem sleep_onTime_iff (versionText : ℕ) :
    (∀ durationMs arg1 : UInt64,
      OnTime s (NativeSyscalls.dispatch fs s versionText 2 durationMs arg1).state
          (sleepSums s.sys.ticks durationMs.toNat) durationMs.toNat (durationMs.toNat*1000000) ↔
        durationMs.toNat+10 < 2^64 ∧
        (s.sys.ticks : ℤ)+⌈((durationMs.toNat : ℤ) : ℚ)/10⌉ < 2^64) ∧
    ∀ (req arg0 arg1 arg2 : UInt64) (tvSec tvNsec : ℤ),
      timespecAt s req.toNat = some (tvSec,tvNsec) →
      ∀ r ∈ [LinuxCompat.dispatch fs s 230 arg0 arg1 req,LinuxCompat.dispatch fs s 231 req arg1 arg2],
        (OnTime s r.state
          (timespecSums tvSec tvNsec++sleepSums s.sys.ticks (tvSec*1000+tvNsec/1000000))
          (tvSec*1000+tvNsec/1000000) (tvSec*1000000000+tvNsec) ↔
        0 ≤ tvSec ∧ 0 ≤ tvNsec ∧ tvSec*1000+tvNsec/1000000+10 < 2^64 ∧
        (s.sys.ticks : ℤ)+⌈((tvSec*1000+tvNsec/1000000 : ℤ) : ℚ)/10⌉ < 2^64 ∧
        (tvNsec%1000000 = 0 ∨ (tvSec*1000+tvNsec/1000000)%10 ≠ 0)) := by
  constructor
  · intro durationMs arg1
    exact sleepMs_onTime_iff s durationMs.toNat
  · intro req arg0 arg1 arg2 tvSec tvNsec hts r hr
    have hstate : r.state = (sleepFor s req.toNat).state := by
      simp only [List.mem_cons, List.not_mem_nil, or_false] at hr
      rcases hr with rfl | rfl <;> rfl
    rw [hstate]
    exact sleepFor_onTime_iff s hts

end

theorem exists_timespec : ∃ m root, ∃ tvSec tvNsec : ℤ,
    timespecAt (caller m root) 0x400000 = some (tvSec,tvNsec) := by
  obtain ⟨m₁,r,U,frames,m,ds,-,hreach,-,hreq,-,hok⟩ := exists_task [] (by decide)
  have hload : ∀ a, 0x400000 ≤ a → a+8 ≤ 0x401000 → complete m (U*4096) a 8 = true := by
    intro a hlow hhigh
    rw [complete_iff]
    intro i hi
    rw [Nat.mod_eq_of_lt (by omega)]
    exact reachable_of_test (codePage_mapped hreach.ok hreq hok (by omega)) (canonical_low (by omega))
  refine ⟨m,U*4096,_,_,if_pos ?_⟩
  rw [caller_machine, caller_root]
  exact ⟨by decide,hload _ (by decide) (by decide),hload _ (by decide) (by decide)⟩

/-- Ten milliseconds take one tick; the Timespec of the second part can be loaded. -/
theorem sleep_onTime_ten : ∃ m root, ∃ tvSec tvNsec : ℤ,
    OnTime (caller m root) (NativeSyscalls.dispatch noFiles (caller m root) 0 2 10 0).state
      (sleepSums 0 10) 10 10000000 ∧
    timespecAt (caller m root) 0x400000 = some (tvSec,tvNsec) ∧
    (0 ≤ tvSec ∧ 0 ≤ tvNsec ∧ tvSec*1000+tvNsec/1000000+10 < 2^64 ∧
        ((0 : ℕ) : ℤ)+⌈((tvSec*1000+tvNsec/1000000 : ℤ) : ℚ)/10⌉ < 2^64 ∧
        (tvNsec%1000000 = 0 ∨ (tvSec*1000+tvNsec/1000000)%10 ≠ 0) →
      OnTime (caller m root) (LinuxCompat.dispatch noFiles (caller m root) 231 0x400000 0 0).state
        (timespecSums tvSec tvNsec++sleepSums 0 (tvSec*1000+tvNsec/1000000))
        (tvSec*1000+tvNsec/1000000) (tvSec*1000000000+tvNsec)) := by
  obtain ⟨m,root,tvSec,tvNsec,hts⟩ := exists_timespec
  obtain ⟨hms,hspec⟩ := sleep_onTime_iff noFiles (caller m root) 0
  refine ⟨m,root,tvSec,tvNsec,?_,hts,?_⟩
  · apply (hms 10 0).mpr
    rw [ceil_tenth, show (caller m root).sys.ticks = 0 from rfl]
    decide
  · exact (hspec 0x400000 0 0 0 tvSec tvNsec hts _ (by simp)).mpr

/-- The longest sleep ends at once. -/
theorem sleep_longest_ends_at_once :
    wakeTick (NativeSyscalls.dispatch noFiles (caller (bootMachine 0x900000 0x10000000) 0) 0 2
      0xFFFFFFFFFFFFFFFF 0).state = (caller (bootMachine 0x900000 0x10000000) 0).sys.ticks := by
  have h := wakeTick_sleepMs (caller (bootMachine 0x900000 0x10000000) 0)
    (UInt64.toNat 0xFFFFFFFFFFFFFFFF)
  rw [show (caller (bootMachine 0x900000 0x10000000) 0).sys.ticks = 0 from rfl] at h ⊢
  exact h.trans (by decide)

end Zohara.SleepTimes
