import Zohara.SchedulerRuns

/-!
# Sleeping tasks (src/task.rs, src/timer.rs)

A run starts after init_scheduler and consists of spawns, sleeps, yields, exits and ticks. The
calls are those of the current task. sleep_until does not return before the state of its caller
has changed, so a task that is asleep neither sleeps, yields nor exits; ticks and spawns may
come at any time.

The events of a run record the caller and the tick count. From them `asleep` tells which tasks
have to be asleep, and until when. Task 0 is left out: the search falls back to it in every
state.
-/
namespace Zohara.WakeUps
open Runs SchedulerRuns Tasks System

/-- A call that changes the state of its caller. -/
def ownCall : Op → Bool
  | .sleepUntil _ | .yieldNow | .exitCurrentTask => true
  | _ => false

structure Event where
  op : Op
  caller : ℕ
  ticks : ℕ

structure Step (s : System) (e : Event) (s' : System) : Prop where
  exec : e.op.exec s = some s'
  awake : ownCall e.op = true → (s.tasks s.current).state ≠ .sleeping
  caller : e.caller = s.current
  ticks : e.ticks = s'.ticks

/-- The tick that task `i` sleeps for: it has called sleep_until, and the count has been below
that tick at every tick since. -/
def asleep : List Event → ℕ → Option ℕ
  | [],_ => none
  | ⟨.sleepUntil w,caller,_⟩::h,i => if caller = i then some w else asleep h i
  | ⟨.timer _,_,ticks⟩::h,i => (asleep h i).filter (ticks < ·)
  | _::h,i => asleep h i

/-! ## What a tick does to sleeping tasks -/

section
variable {s s' : System} {i sp ret : ℕ}

theorem wakeSleeping_sleeping (s : System) (i : ℕ) :
    (s.wakeSleeping.tasks i).wakeTick = (s.tasks i).wakeTick ∧
      ((s.wakeSleeping.tasks i).state = .sleeping ↔ (s.tasks i).state = .sleeping ∧
        ¬((1 ≤ i ∧ i < maxTasks) ∧ (s.tasks i).wakeTick ≤ s.ticks)) := by
  rw [wakeSleeping_eq]
  dsimp only
  unfold woken
  split_ifs with hi hw
  · simp [hi, hw]
  · simp only [hi, and_self, true_and]
    exact ⟨fun hs => ⟨hs,fun hle => hw ⟨hs,hle⟩⟩,fun h => h.1⟩
  · simp [hi]

theorem timer_sleeping (hi : 1 ≤ i) (ht : s.timerHandlerRust sp = some (ret,s')) :
    s'.ticks = s.tick.ticks ∧ (s'.tasks i).wakeTick = (s.tick.wakeSleeping.tasks i).wakeTick ∧
      ((s'.tasks i).state = .sleeping ↔ (s.tick.wakeSleeping.tasks i).state = .sleeping) := by
  have hcur := (wakeSleeping_current s).1
  have hticks := wakeSleeping_ticks s
  have hcases := timer_cases s sp
  unfold Elected at hcases
  generalize s.tick.wakeSleeping = w at hcur hticks hcases ⊢
  rw [ht] at hcases
  have hkept : (w.suspend sp).ticks = w.ticks := by rw [suspend_eq]; rfl
  -- what the suspension leaves of the state of task i
  have hsusp : ((w.suspend sp).tasks i).wakeTick = (w.tasks i).wakeTick ∧
      (((w.suspend sp).tasks i).state = .sleeping ↔ (w.tasks i).state = .sleeping) := by
    rw [suspend_eq]
    by_cases hic : i = w.current
    · rw [hic, setTask_same]
      dsimp only
      split_ifs with hr
      · simp [hr]
      · simp
    · rw [setTask_other _ hic]
      simp
  rcases hcases with hsame | ⟨j,-,hready,⟨-,hsame⟩ | ⟨-,hsame⟩⟩
  · cases hsame
    exact ⟨hticks,rfl,Iff.rfl⟩
  · cases hsame
    refine ⟨hkept.trans hticks,?_⟩
    by_cases hij : i = j
    · have hr := hready.resolve_right (by omega)
      subst hij
      rw [hr] at hsusp
      simp only [setTaskState, setTask_same]
      exact ⟨hsusp.1,by simpa using hsusp.2⟩
    · simp only [setTaskState, setTask_other _ hij]
      exact hsusp
  · cases hsame
    refine ⟨hkept.trans hticks,?_⟩
    obtain ⟨hrun,-,hother⟩ := switchTo_tasks (w.suspend sp) j
    by_cases hij : i = j
    · have hr := hready.resolve_right (by omega)
      subst hij
      rw [hr] at hsusp
      rw [hrun]
      refine ⟨?_,by simpa using hsusp.2⟩
      simp only [switchTo, setTaskState, setTask_same]
      exact hsusp.1
    · rw [hother i hij]
      exact hsusp

theorem timer_time_left (hi : 1 ≤ i) (hlt : i < maxTasks)
    (ht : s.timerHandlerRust sp = some (ret,s')) (hs : (s'.tasks i).state = .sleeping) :
    s'.ticks < (s'.tasks i).wakeTick := by
  obtain ⟨hticks,hwake,hstate⟩ := timer_sleeping hi ht
  obtain ⟨htick,hscan⟩ := wakeSleeping_sleeping s.tick i
  have hleft := (hscan.mp (hstate.mp hs)).2
  rw [hticks, hwake, htick]
  exact Nat.lt_of_not_le fun hle => hleft ⟨⟨hi,hlt⟩,hle⟩

theorem timer_sleeps_on (hi : 1 ≤ i) (ht : s.timerHandlerRust sp = some (ret,s'))
    (hs : (s.tasks i).state = .sleeping) (hleft : s'.ticks < (s.tasks i).wakeTick) :
    (s'.tasks i).state = .sleeping ∧ (s'.tasks i).wakeTick = (s.tasks i).wakeTick := by
  obtain ⟨hticks,hwake,hstate⟩ := timer_sleeping hi ht
  obtain ⟨htick,hscan⟩ := wakeSleeping_sleeping s.tick i
  rw [hticks] at hleft
  refine ⟨hstate.mpr (hscan.mpr ⟨hs,fun hle => ?_⟩),hwake.trans htick⟩
  exact Nat.not_le_of_lt hleft hle.2

end

/-! ## Runs -/

section
variable {s s' : System} {e : Event} {h : List Event}

theorem call_keeps {i : ℕ} {op : Op} (hexec : op.exec s = some s') (htimer : ∀ sp, op ≠ .timer sp)
    (hs : (s.tasks i).state = .sleeping) (hother : ownCall op = true → i ≠ s.current) :
    s'.tasks i = s.tasks i := by
  have hslot : ∀ k, s.freeSlot = some k → i ≠ k := by
    intro k hk hik
    have hunused := (freeSlot_some hk).2.2
    rw [← hik, hs] at hunused
    cases hunused
  rcases Op.call_cases hexec htimer with ⟨rfl,-⟩ | ⟨-,k,hf,hfill⟩ | ⟨hfills,ho⟩
  · rfl
  · exact hfill.others i (hslot k hf)
  · refine ho.others i (hother ?_)
    cases op with
    | timer sp => exact absurd rfl (htimer sp)
    | _ => first | rfl | cases hfills

/-- The tasks that have to be asleep are. -/
def Asleep (h : List Event) (s : System) : Prop :=
  ∀ i w, 1 ≤ i → asleep h i = some w → (s.tasks i).state = .sleeping ∧ (s.tasks i).wakeTick = w

theorem Asleep.call (ok : Asleep h s) (hstep : Step s e s') (htimer : ∀ sp, e.op ≠ .timer sp)
    {i w : ℕ} (hi : 1 ≤ i) (ha : asleep h i = some w) :
    (s'.tasks i).state = .sleeping ∧ (s'.tasks i).wakeTick = w := by
  obtain ⟨hs,hw⟩ := ok i w hi ha
  have hother : ownCall e.op = true → i ≠ s.current := by
    intro hown hic
    apply hstep.awake hown
    rw [← hic]
    exact hs
  rw [call_keeps hstep.exec htimer hs hother]
  exact ⟨hs,hw⟩

theorem Asleep.step (ok : Asleep h s) (hstep : Step s e s') : Asleep (e::h) s' := by
  obtain ⟨op,caller,ticks⟩ := e
  intro i w hi ha
  cases op with
  | spawn func => exact ok.call hstep (fun _ hc => by cases hc) hi ha
  | spawnUserspace entry sp root frames => exact ok.call hstep (fun _ hc => by cases hc) hi ha
  | yieldNow => exact ok.call hstep (fun _ hc => by cases hc) hi ha
  | exitCurrentTask => exact ok.call hstep (fun _ hc => by cases hc) hi ha
  | sleepUntil w' =>
    by_cases hic : caller = i
    · simp only [asleep, if_pos hic, Option.some.injEq] at ha
      have hcaller : caller = s.current := hstep.caller
      cases hstep.exec
      rw [← hic, hcaller]
      simp only [System.sleepUntil, setTaskState, setTask_same]
      refine ⟨trivial,?_⟩
      simp [ha]
    · simp only [asleep, if_neg hic] at ha
      exact ok.call hstep (fun _ hc => by cases hc) hi ha
  | timer sp =>
    simp only [asleep, Option.filter_eq_some_iff, decide_eq_true_eq] at ha
    obtain ⟨hs,hw⟩ := ok i w hi ha.1
    have hexec := hstep.exec
    simp only [Op.exec] at hexec
    obtain ⟨⟨ret,s₁⟩,ht,rfl⟩ := Option.map_eq_some_iff.mp hexec
    have hticks : ticks = s₁.ticks := hstep.ticks
    have hon := timer_sleeps_on hi ht hs (by rw [← hticks, hw]; exact ha.2)
    exact ⟨hon.1,hon.2.trans hw⟩

/-- In every run, a task other than task 0 that has called sleep_until is asleep as long as the
tick count has stayed below its wake-up tick; and the next tick, which always completes, leaves
none of them asleep whose time has come. -/
theorem sleepers_wake_on_time {machine : PageTables.Machine} {stackOf : ℕ → ℕ}
    {ticks cr3 rsp0 : ℕ} (r : Run Step (boot machine stackOf ticks cr3 rsp0).initScheduler h s) :
    (∀ i w, 1 ≤ i → asleep h i = some w →
      (s.tasks i).state = .sleeping ∧ (s.tasks i).wakeTick = w) ∧
    ∀ sp, ∃ ret s', s.timerHandlerRust sp = some (ret,s') ∧
      ∀ i, 1 ≤ i → i < maxTasks → (s'.tasks i).state = .sleeping →
        s'.ticks < (s'.tasks i).wakeTick := by
  constructor
  · apply r.invariant (P := Asleep)
    · intro i w _ ha
      cases ha
    · intro h s e s' ok hstep
      exact ok.step hstep
  · intro sp
    have hends : ∃ ret s', s.timerHandlerRust sp = some (ret,s') := by
      rcases timer_cases s sp with ht | ⟨j,-,-,⟨-,ht⟩ | ⟨-,ht⟩⟩ <;> exact ⟨_,_,ht⟩
    obtain ⟨ret,s',ht⟩ := hends
    exact ⟨ret,s',ht,fun i hi hlt hs => timer_time_left hi hlt ht hs⟩

end

/-- Task 1 is spawned, takes over at the tenth tick, sleeps until the twelfth and is asleep
after the eleventh. -/
theorem sleepers_wake_on_time_one_nap : ∃ h s,
    Run Step (boot ⟨fun _ => 0,{},0⟩ (fun i => 0x200000+i*0x9000) 9 0 0).initScheduler h s ∧
      s.ticks = 11 ∧ (s.tasks 1).state = .sleeping ∧ (s.tasks 1).wakeTick = 12 := by
  let s₀ := (boot ⟨fun _ => 0,{},0⟩ (fun i => 0x200000+i*0x9000) 9 0 0).initScheduler
  have hfill : Filled s₀ (s₀.spawn 0x100000) 1 := spawn_filled 0x100000 (by decide)
  have hspawn : Step s₀ ⟨.spawn 0x100000,0,9⟩ (s₀.spawn 0x100000) := ⟨rfl,by simp [ownCall],rfl,rfl⟩
  obtain ⟨ret,s₂,ht,hto⟩ := timer_selects_neighbour (s := s₀.spawn 0x100000) 0x8000
    (by decide) (by decide) hfill.state
  have hcur : s₂.current = 1 := hto
  obtain ⟨hticks,-,hawake⟩ := timer_sleeping (Nat.le_refl 1) ht
  have hready := wakeSleeping_ready hfill.state
  have hswitch : Step (s₀.spawn 0x100000) ⟨.timer 0x8000,0,10⟩ s₂ :=
    ⟨by simp [Op.exec, ht],by simp [ownCall],rfl,hticks.symm⟩
  have hnap : Step s₂ ⟨.sleepUntil 12,1,10⟩ (s₂.sleepUntil 12) := by
    refine ⟨rfl,fun _ => ?_,hcur.symm,hticks.symm⟩
    rw [hcur, ne_eq, hawake, hready]
    decide
  have r₃ := Run.next (.next (.next .start hspawn) hswitch) hnap
  obtain ⟨ret₄,s₄,ht₄,-⟩ := (sleepers_wake_on_time r₃).2 0x9000
  have hcount : s₄.ticks = 11 := by
    rw [(timer_sleeping (Nat.le_refl 1) ht₄).1]
    have hten : (s₂.sleepUntil 12).ticks = 10 := hticks
    simp only [tick, hten]
    rfl
  have htick : Step (s₂.sleepUntil 12) ⟨.timer 0x9000,1,11⟩ s₄ :=
    ⟨by simp [Op.exec, ht₄],by simp [ownCall],hcur.symm,hcount.symm⟩
  have hall := (sleepers_wake_on_time (.next r₃ htick)).1 1 12 (Nat.le_refl 1) rfl
  exact ⟨_,s₄,.next r₃ htick,hcount,hall⟩

end Zohara.WakeUps
