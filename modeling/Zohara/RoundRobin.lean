import Zohara.CyclicSearch
import Zohara.SchedulerRuns

/-!
# The round-robin search of the tick (src/task.rs, timer_handler_rust)

Every tenth tick takes the ready task that comes next in the circular table, the task that is
preempted last of all, and task 0 when none is ready. Between two such ticks the current task
stays the same, whatever else happens to the table; so a task that is ready and passed over has
come closer.

Time counts in switching ticks here. Nothing is said about tasks that are not ready when such
a tick comes.
-/
namespace Zohara.RoundRobin
open CyclicSearch Runs SchedulerRuns Tasks System

/-- The next tick searches for a task. -/
def Switches (s : System) : Prop := ¬(s.tick.ticks = 0 ∨ s.tick.ticks%10 ≠ 0)

/-- Task `j` is ready when the next tick searches; the task that is preempted counts. -/
def Candidate (s : System) (j : ℕ) : Prop :=
  (s.tick.wakeSleeping.tasks j).state = .ready ∨
    j = s.current ∧ (s.tick.wakeSleeping.tasks j).state = .running

/-- Any operation but a tick that searches. -/
structure QuietStep (s : System) (op : Op) (s' : System) : Prop where
  exec : op.exec s = some s'
  quiet : ∀ sp, op = .timer sp → ¬Switches s

/-- Up to `s`, task `j` has been a candidate at `n` searches in a row and was not selected. -/
inductive PassedOver (j : ℕ) : ℕ → System → Prop
  | start {s : System} (current : s.current < maxTasks) : PassedOver j 0 s
  | quiet {n : ℕ} {s s' : System} {op : Op} (before : PassedOver j n s) (step : QuietStep s op s') :
      PassedOver j n s'
  | passed {n sp ret : ℕ} {s s' : System} (before : PassedOver j n s) (switches : Switches s)
      (tick : s.timerHandlerRust sp = some (ret,s')) (candidate : Candidate s j)
      (other : s'.current ≠ j) : PassedOver j (n+1) s'

/-! ## One search -/

section
variable {tasks : ℕ → Task} {cur : ℕ}

def isReady (tasks : ℕ → Task) (j : ℕ) : Prop := (tasks j).state = .ready

theorem selectNext_from (hcur : cur < maxTasks) (turns d : ℕ) (hd : 0 < d)
    (hturns : d+turns = maxTasks+1)
    (hbefore : ∀ j < maxTasks, isReady tasks j → d ≤ ahead maxTasks cur j) (ht : 0 < turns) :
    ∃ k, selectNext tasks ((cur+1)%maxTasks) turns ((cur+d)%maxTasks) = some k ∧
      (Nearest (isReady tasks) maxTasks cur k ∨ (∀ j < maxTasks, ¬isReady tasks j) ∧ k = 0) := by
  induction turns generalizing d with
  | zero => exact absurd ht (Nat.lt_irrefl 0)
  | succ turns ih =>
    have hle : d ≤ maxTasks := by omega
    have hplace : ahead maxTasks cur ((cur+d)%maxTasks) = d := ahead_place hcur hd hle
    have hlt : (cur+d)%maxTasks < maxTasks := Nat.mod_lt _ (by decide)
    have hnext : ((cur+d)%maxTasks+1)%maxTasks = (cur+(d+1))%maxTasks := by
      simp only [maxTasks]
      omega
    rw [selectNext]
    by_cases hr : (tasks ((cur+d)%maxTasks)).state = .ready
    · refine ⟨_,if_pos hr,.inl ⟨hlt,hr,fun j hj hp => ?_⟩⟩
      rw [hplace]
      exact hbefore j hj hp
    · have hafter : ∀ j < maxTasks, isReady tasks j → d+1 ≤ ahead maxTasks cur j := by
        intro j hj hp
        have hne : ahead maxTasks cur j ≠ d := by
          intro he
          apply hr
          have hsame : j = (cur+d)%maxTasks := by rw [← he, place_ahead hcur hj]
          rw [← hsame]
          exact hp
        have := hbefore j hj hp
        omega
      rw [if_neg hr, hnext]
      by_cases hlast : d = maxTasks
      · have hback : (cur+(d+1))%maxTasks = (cur+1)%maxTasks := by
          simp only [maxTasks] at hlast ⊢
          omega
        refine ⟨0,if_pos hback,.inr ⟨fun j hj hp => ?_,rfl⟩⟩
        have := hafter j hj hp
        have := (ahead_bounds hcur hj).2
        omega
      · have hon : (cur+(d+1))%maxTasks ≠ (cur+1)%maxTasks := by
          simp only [maxTasks] at hcur hlast hle ⊢
          omega
        rw [if_neg hon]
        exact ih (d+1) (Nat.succ_pos d) (by omega) hafter (by omega)

theorem selectNext_nearest (tasks : ℕ → Task) (hcur : cur < maxTasks) :
    ∃ k, selectNext tasks ((cur+1)%maxTasks) maxTasks ((cur+1)%maxTasks) = some k ∧
      (Nearest (isReady tasks) maxTasks cur k ∨ (∀ j < maxTasks, ¬isReady tasks j) ∧ k = 0) :=
  selectNext_from hcur maxTasks 1 Nat.one_pos (by decide) (fun _ hj _ => (ahead_bounds hcur hj).1)
    (by decide)

end

/-! ## One tick -/

section
variable {s s' : System} {op : Op} {j sp ret : ℕ}

theorem suspended_ready (s : System) (sp j : ℕ) :
    isReady (s.tick.wakeSleeping.suspend sp).tasks j ↔ Candidate s j := by
  have hcur := (wakeSleeping_current s).1
  unfold isReady Candidate
  rw [suspend_eq, hcur]
  by_cases hj : j = s.current
  · subst hj
    rw [setTask_same]
    dsimp only
    split_ifs with hr <;> simp [hr]
  · rw [setTask_other _ hj]
    simp [hj]

theorem timer_nearest (hcur : s.current < maxTasks) (hs : Switches s) (sp : ℕ) :
    ∃ ret s', s.timerHandlerRust sp = some (ret,s') ∧
      (Nearest (Candidate s) maxTasks s.current s'.current ∨
        (∀ j < maxTasks, ¬Candidate s j) ∧ s'.current = 0) := by
  obtain ⟨hw,-⟩ := wakeSleeping_current s
  obtain ⟨-,-,-,-,hsusp,-⟩ := suspend_tasks s.tick.wakeSleeping sp
  obtain ⟨k,hsel,hk⟩ := selectNext_nearest (s.tick.wakeSleeping.suspend sp).tasks hcur
  have hready : isReady (s.tick.wakeSleeping.suspend sp).tasks = Candidate s := by
    funext i
    exact propext (suspended_ready s sp i)
  rw [hready] at hk
  unfold timerHandlerRust
  dsimp only
  rw [wakeSleeping_ticks, if_neg hs, hsusp, hw, hsel]
  dsimp only
  split_ifs with hself
  · refine ⟨_,_,rfl,?_⟩
    simp only [setTaskState_current, hsusp, hw]
    rwa [hself] at hk
  · exact ⟨_,_,rfl,hk⟩

theorem selected_nearest (hcur : s.current < maxTasks) (hs : Switches s)
    (ht : s.timerHandlerRust sp = some (ret,s')) (hj : j < maxTasks) (hc : Candidate s j) :
    Nearest (Candidate s) maxTasks s.current s'.current := by
  obtain ⟨ret₁,s₁,ht₁,hsel⟩ := timer_nearest hcur hs sp
  rw [ht] at ht₁
  cases ht₁
  exact hsel.resolve_right fun hnone => hnone.1 j hj hc

theorem QuietStep.current_eq (h : QuietStep s op s') : s'.current = s.current := by
  obtain ⟨hexec,hquiet⟩ := h
  by_cases htimer : ∀ sp, op ≠ .timer sp
  · rcases Op.call_cases hexec htimer with ⟨rfl,-⟩ | ⟨-,i,-,hfill⟩ | ⟨-,ho⟩
    · rfl
    · exact hfill.current
    · exact ho.current
  · simp only [not_forall, not_not] at htimer
    obtain ⟨sp,rfl⟩ := htimer
    have hidle := timer_idle sp (not_not.mp (hquiet sp rfl))
    simp only [Op.exec, hidle, Option.map_some] at hexec
    obtain rfl := Option.some.inj hexec
    exact (wakeSleeping_current s).1

theorem quiet_current {ops : List Op} (r : Run QuietStep s ops s') : s'.current = s.current := by
  induction r with
  | start => rfl
  | next _ hs ih => exact hs.current_eq.trans ih

theorem PassedOver.bound {n : ℕ} (h : PassedOver j n s) (hj : j < maxTasks) :
    s.current < maxTasks ∧ n+ahead maxTasks s.current j ≤ maxTasks := by
  induction h with
  | start hcur =>
    rw [Nat.zero_add]
    exact ⟨hcur,(ahead_bounds hcur hj).2⟩
  | quiet _ hs ih =>
    rw [hs.current_eq]
    exact ih
  | passed _ hsw ht hc hne ih =>
    have hsel := selected_nearest ih.1 hsw ht hj hc
    have hcloser := hsel.closer ih.1 hj hc hne.symm
    exact ⟨hsel.place,by omega⟩

end

/-- For every table and current task, a switching tick ends and selects the candidate at the
smallest distance, or task 0 if there is none. A candidate of two switching ticks in a row that
the first one does not select is closer at the second one, whatever happens in between, and
fewer than MAX_TASKS searches in a row pass over a task. -/
theorem round_robin :
    (∀ s : System, s.current < maxTasks → Switches s → ∀ sp,
      ∃ ret s', s.timerHandlerRust sp = some (ret,s') ∧
        (Nearest (Candidate s) maxTasks s.current s'.current ∨
          (∀ j < maxTasks, ¬Candidate s j) ∧ s'.current = 0)) ∧
    (∀ (s₁ s s₂ : System) (sp ret : ℕ) (ops : List Op), s₁.current < maxTasks → Switches s₁ →
      s₁.timerHandlerRust sp = some (ret,s) → Run QuietStep s ops s₂ → Switches s₂ →
      ∀ j < maxTasks, Candidate s₁ j → Candidate s₂ j → s.current ≠ j →
        ahead maxTasks s₂.current j < ahead maxTasks s₁.current j) ∧
    ∀ j < maxTasks, ∀ n s, PassedOver j n s → n ≤ maxTasks-1 := by
  refine ⟨fun s hcur hs sp => timer_nearest hcur hs sp,?_,?_⟩
  · intro s₁ s s₂ sp ret ops hcur hs ht hrun _ j hj hc _ hne
    rw [quiet_current hrun]
    exact (selected_nearest hcur hs ht hj hc).closer hcur hj hc hne.symm
  · intro j hj n s h
    obtain ⟨hcur,hbound⟩ := h.bound hj
    have hpos := (ahead_bounds hcur hj).1
    omega

/-- The kernel's task at its ninth tick, with two tasks ready. -/
def twoReady : System :=
  {(boot ⟨fun _ => 0,{},0⟩ (fun i => 0x200000+i*0x9000) 9 0 0).initScheduler with
    tasks := fun i => {unusedTask with
      state := if i = 0 then .running else if i ≤ 2 then .ready else .unused}}

/-- The tenth tick selects task 1; task 2 has been passed over once and is next. -/
theorem round_robin_two_ready : ∃ ret s, twoReady.timerHandlerRust 0 = some (ret,s) ∧
    s.current = 1 ∧ PassedOver 2 1 s ∧ ahead maxTasks s.current 2 = 1 ∧ 1 ≤ maxTasks-1 := by
  have hcur : twoReady.current < maxTasks := by decide
  have hs : Switches twoReady := by
    unfold Switches
    decide
  have h₁ : Candidate twoReady 1 := .inl (wakeSleeping_ready rfl)
  have h₂ : Candidate twoReady 2 := .inl (wakeSleeping_ready rfl)
  obtain ⟨ret,s,ht,hsel⟩ := round_robin.1 twoReady hcur hs 0
  have hnear := hsel.resolve_right fun hnone => hnone.1 1 (by decide) h₁
  have hone : s.current = 1 := by
    have hle := hnear.least 1 (by decide) h₁
    have hpos := (ahead_bounds hcur hnear.place).1
    exact ahead_inj hcur hnear.place (by decide) (Nat.le_antisymm hle hpos)
  have hpassed : PassedOver 2 1 s := .passed (.start hcur) hs ht h₂ (by simp [hone])
  exact ⟨ret,s,ht,hone,hpassed,by rw [hone]; rfl,round_robin.2.2 2 (by decide) 1 s hpassed⟩

end Zohara.RoundRobin
