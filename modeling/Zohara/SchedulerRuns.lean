import Zohara.Runs
import Zohara.Tasks

/-!
# Runs of the scheduler

A run starts after init_scheduler and consists of spawns, sleeps, yields, exits
and timer ticks in any order, with any arguments. A label records what can be
seen of a step from outside: the operation, the slot a spawn would fill, and the
task that is current before and after. From the labels alone `lastSp` finds the
stack pointer a task must be resumed with: the one handed in when it was last
switched away from, or its initial frame.

A slot may be filled only while the current task is alive. Between exit and the
next switch the exited task is still current, and the switch stores a stack
pointer into its slot.
-/
namespace Zohara.SchedulerRuns
open Runs Tasks System List Option Function

inductive Op where
  | spawn (func : ℕ)
  | spawnUserspace (userEntry userSp pageTableRoot : ℕ) (userDataFrames : List ℕ)
  | sleepUntil (wakeTick : ℕ)
  | yieldNow
  | exitCurrentTask
  | timer (savedSp : ℕ)
  deriving DecidableEq, Repr

def Op.exec : Op → System → Option System
  | spawn func,s => some (s.spawn func)
  | spawnUserspace e sp root frames,s => some (s.spawnUserspace e sp root frames).2
  | sleepUntil w,s => some (s.sleepUntil w)
  | yieldNow,s => some s.yieldNow
  | exitCurrentTask,s => some s.exitCurrentTask.2
  | timer sp,s => (s.timerHandlerRust sp).map Prod.snd

def Op.fills : Op → Bool
  | spawn _ | spawnUserspace _ _ _ _ => true
  | _ => false

structure Label where
  op : Op
  slot : Option ℕ
  before : ℕ
  after : ℕ
  deriving DecidableEq, Repr

structure Step (s : System) (e : Label) (s' : System) : Prop where
  exec : e.op.exec s = some s'
  alive : e.op.fills = true → (s.tasks s.current).state ≠ .unused
  slot : e.slot = s.freeSlot
  before : e.before = s.current
  after : e.after = s'.current

/-- Task `j` has been current since its slot was last filled; the kernel's task is
current from the start. -/
def hasRun : List Label → ℕ → Bool
  | [],j => j == 0
  | ⟨op,slot,before,after⟩::h,j =>
    if op.fills = true ∧ slot = some j then false
    else if before ≠ j ∧ after = j then true
    else hasRun h j

/-- The stack pointer with which task `j` has to be resumed. -/
def lastSp (stackOf : ℕ → ℕ) : List Label → ℕ → Option ℕ
  | [],_ => none
  | ⟨.timer sp,_,before,after⟩::h,j =>
    if before = j ∧ after ≠ j then
      if hasRun h j then some sp else some (initialSp (stackOf j))
    else lastSp stackOf h j
  | ⟨op,slot,_,_⟩::h,j =>
    if op.fills = true ∧ slot = some j then some (initialSp (stackOf j)) else lastSp stackOf h j

/-! ## One lemma for each function -/

section
variable {s : System} {i : ℕ}

theorem freeSlot_some (h : s.freeSlot = some i) :
    0 < i ∧ i < maxTasks ∧ (s.tasks i).state = .unused := by
  have hp := find?_some h
  have hm := mem_range'_1.mp (mem_of_find?_eq_some h)
  exact ⟨by omega,by omega,by simpa using hp⟩

/-- What a wake-up does to a task. -/
def woken (ticks : ℕ) (t : Task) : Task :=
  if t.state = .sleeping ∧ t.wakeTick ≤ ticks then {t with state := .ready} else t

theorem wakeSlot_eq (s : System) (i : ℕ) :
    s.wakeSlot i = s.setTask i (woken s.ticks) := by
  unfold wakeSlot woken setTaskState setTask
  split_ifs with h
  · simp only [if_pos h]
  · simp only [if_neg h, update_eq_self]

theorem wakeLoop (n : ℕ) (s : System) :
    ((List.range' 1 n).foldl wakeSlot s) =
      {s with tasks := fun i => if 1 ≤ i ∧ i < 1+n then woken s.ticks (s.tasks i) else s.tasks i} := by
  induction n with
  | zero =>
    have : (fun i => if 1 ≤ i ∧ i < 1+0 then woken s.ticks (s.tasks i) else s.tasks i) = s.tasks := by
      funext i
      rw [if_neg (by omega)]
    rw [this]
    rfl
  | succ n ih =>
    rw [range'_1_concat, foldl_append, ih, foldl_cons, foldl_nil, wakeSlot_eq]
    unfold setTask
    congr 1
    funext i
    by_cases hi : i = 1+n
    · subst hi
      rw [update_self]
      simp
    · rw [update_of_ne hi]
      simp only [show (1 ≤ i ∧ i < 1+(n+1)) ↔ (1 ≤ i ∧ i < 1+n) by omega]

theorem wakeSleeping_eq (s : System) : s.wakeSleeping =
    {s with tasks := fun i => if 1 ≤ i ∧ i < maxTasks then woken s.ticks (s.tasks i) else s.tasks i} :=
  wakeLoop (maxTasks-1) s

theorem woken_cases (ticks : ℕ) (t : Task) : woken ticks t = t ∨
    (t.state = .sleeping ∧ woken ticks t = {t with state := .ready}) := by
  unfold woken
  split_ifs with h
  · exact .inr ⟨h.1,rfl⟩
  · exact .inl rfl

theorem selectNext_turns (tasks : ℕ → Task) {start : ℕ} (hs : start < maxTasks) (turns : ℕ) :
    ∀ k, k < maxTasks → k+turns = maxTasks →
      ∃ j < maxTasks, selectNext tasks start turns ((start+k)%maxTasks) = some j ∧
        ((tasks j).state = .ready ∨ j = 0) := by
  induction turns with
  | zero => intro k hk hsum; omega
  | succ n ih =>
    intro k hk hsum
    have hpos : 0 < maxTasks := by decide
    rw [selectNext]
    by_cases hr : (tasks ((start+k)%maxTasks)).state = .ready
    · exact ⟨_,Nat.mod_lt _ hpos,if_pos hr,.inl hr⟩
    · rw [if_neg hr]
      by_cases hback : ((start+k)%maxTasks+1)%maxTasks = start
      · exact ⟨0,hpos,if_pos hback,.inr rfl⟩
      · have hmod : ((start+k)%maxTasks+1)%maxTasks = (start+(k+1))%maxTasks := by
          rw [Nat.mod_add_mod, Nat.add_assoc]
        have hk' : k+1 ≠ maxTasks := by
          intro he
          rw [hmod, he, Nat.add_mod_right, Nat.mod_eq_of_lt hs] at hback
          exact hback rfl
        rw [if_neg hback, hmod]
        exact ih (k+1) (by omega) (by omega)

theorem selectNext_spec (tasks : ℕ → Task) {start : ℕ} (hs : start < maxTasks) :
    ∃ j < maxTasks, selectNext tasks start maxTasks start = some j ∧
      ((tasks j).state = .ready ∨ j = 0) := by
  have h := selectNext_turns tasks hs maxTasks 0 (by decide) (by decide)
  rwa [Nat.add_zero, Nat.mod_eq_of_lt hs] at h

theorem suspend_eq (s : System) (sp : ℕ) : s.suspend sp = s.setTask s.current fun t =>
    {t with savedSp := sp, state := if t.state = .running then .ready else t.state} := by
  unfold suspend setTaskState setTask
  by_cases h : (s.tasks s.current).state = .running <;> simp [h]

theorem switchTo_tasks (s : System) (j : ℕ) :
    ((s.switchTo j).tasks j).state = .running ∧
      ((s.switchTo j).tasks j).savedSp = (s.tasks j).savedSp ∧
      ∀ k, k ≠ j → (s.switchTo j).tasks k = s.tasks k := by
  unfold switchTo setTaskState
  dsimp only
  exact ⟨by rw [setTask_same],by rw [setTask_same],fun k hk => setTask_other _ hk⟩

theorem suspend_tasks (s : System) (sp : ℕ) :
    ((s.suspend sp).tasks s.current).savedSp = sp ∧
      ((s.suspend sp).tasks s.current).state ≠ .running ∧
      ((s.tasks s.current).state ≠ .unused → ((s.suspend sp).tasks s.current).state ≠ .unused) ∧
      (∀ j, j ≠ s.current → (s.suspend sp).tasks j = s.tasks j) ∧
      (s.suspend sp).current = s.current ∧ (s.suspend sp).stackOf = s.stackOf := by
  rw [suspend_eq]
  refine ⟨by rw [setTask_same],?_,?_,fun j hj => setTask_other _ hj,rfl,rfl⟩
  · rw [setTask_same]
    dsimp only
    split_ifs with hr
    · decide
    · exact hr
  · intro hu
    rw [setTask_same]
    dsimp only
    split_ifs with hr
    · decide
    · exact hu

theorem wakeSleeping_current (s : System) : s.tick.wakeSleeping.current = s.current ∧
    s.tick.wakeSleeping.stackOf = s.stackOf := by
  rw [wakeSleeping_eq]
  exact ⟨rfl,rfl⟩

/-- At most the entry of the current task has changed, and task 0 has not vanished. -/
structure Own (s s' : System) : Prop where
  current : s'.current = s.current
  stackOf : s'.stackOf = s.stackOf
  others : ∀ j, j ≠ s.current → s'.tasks j = s.tasks j
  kernel : s.current = 0 → (s.tasks 0).state ≠ .unused → (s'.tasks 0).state ≠ .unused

theorem Own.refl (s : System) : Own s s := ⟨rfl,rfl,fun _ _ => rfl,fun _ h => h⟩

theorem own_setTaskState {s' : System} {state : TaskState} (hc : s'.current = s.current)
    (hst : s'.stackOf = s.stackOf) (ht : ∀ j, j ≠ s.current → s'.tasks j = s.tasks j)
    (hstate : state ≠ .unused) : Own s (s'.setTaskState s.current state) := by
  refine ⟨hc,hst,fun j hj => ?_,fun h0 _ => ?_⟩
  · rw [setTaskState, setTask_other _ hj, ht j hj]
  · rw [setTaskState, h0, setTask_same]
    exact hstate

theorem exitCurrentTask_own (s : System) : Own s s.exitCurrentTask.2 := by
  unfold exitCurrentTask
  split_ifs with h0
  · exact .refl s
  · exact ⟨rfl,rfl,fun j hj => update_of_ne hj ..,fun hz => (h0 hz).elim⟩

/-- A slot has been filled with an initial frame, and nothing else in the table. -/
structure Filled (s s' : System) (i : ℕ) : Prop where
  current : s'.current = s.current
  stackOf : s'.stackOf = s.stackOf
  others : ∀ j, j ≠ i → s'.tasks j = s.tasks j
  state : (s'.tasks i).state = .ready
  savedSp : (s'.tasks i).savedSp = initialSp (s.stackOf i)

theorem filled_setTask (i : ℕ) (mem : ByteMemory.Memory) (f : Task → Task)
    (hf : (f (s.tasks i)).state = .ready) (hsp : (f (s.tasks i)).savedSp = initialSp (s.stackOf i)) :
    Filled s ((s.setMem mem).setTask i f) i := by
  refine ⟨rfl,rfl,fun j hj => setTask_other _ hj,?_,?_⟩
  · rw [setTask_same]
    exact hf
  · rw [setTask_same]
    exact hsp

theorem spawn_filled (func : ℕ) (h : s.freeSlot = some i) : Filled s (s.spawn func) i := by
  have hs : s.spawn func = (s.setMem (buildKernelFrame func (s.stackTop i) s.machine.mem).2).setTask i
      fun t => {t with
        pageTableRoot := s.cr3
        savedSp := (buildKernelFrame func (s.stackTop i) s.machine.mem).1
        state := .ready} := by
    rw [System.spawn, h]
  rw [hs, stackTop, buildKernelFrame_sp]
  exact filled_setTask _ _ _ rfl rfl

theorem spawnUserspace_filled (entry sp root : ℕ) (frames : List ℕ) (h : s.freeSlot = some i) :
    Filled s (s.spawnUserspace entry sp root frames).2 i := by
  have hs : (s.spawnUserspace entry sp root frames).2 =
      (s.setMem (buildUserspaceFrame entry sp (s.stackTop i) s.machine.mem).2).setTask i
        fun t => {t with
          pageTableRoot := root
          savedSp := (buildUserspaceFrame entry sp (s.stackTop i) s.machine.mem).1
          state := .ready
          userDataFrames := frames.take maxUserFrames} := by
    rw [System.spawnUserspace, h]
  rw [hs, stackTop, buildUserspaceFrame_sp]
  exact filled_setTask _ _ _ rfl rfl

theorem wakeSleeping_ticks (s : System) : s.tick.wakeSleeping.ticks = s.tick.ticks := by
  rw [wakeSleeping_eq]

theorem wakeSleeping_cases (s : System) (i : ℕ) : s.tick.wakeSleeping.tasks i = s.tasks i ∨
    ((s.tasks i).state = .sleeping ∧
      s.tick.wakeSleeping.tasks i = {s.tasks i with state := .ready}) := by
  rw [wakeSleeping_eq]
  dsimp only
  split_ifs
  · exact woken_cases _ _
  · exact .inl rfl

theorem wakeSleeping_ready (h : (s.tasks i).state = .ready) :
    (s.tick.wakeSleeping.tasks i).state = .ready := by
  rcases wakeSleeping_cases s i with he | ⟨-,he⟩ <;> rw [he]
  exact h

/-- Everything a call can do that is not a tick. -/
theorem Op.call_cases {op : Op} {s' : System} (hexec : op.exec s = some s')
    (htimer : ∀ sp, op ≠ .timer sp) :
    (s' = s ∧ s.freeSlot = none) ∨ (op.fills = true ∧ ∃ i, s.freeSlot = some i ∧ Filled s s' i) ∨
      (op.fills = false ∧ Own s s') := by
  cases op with
  | spawn func =>
    cases hexec
    cases hf : s.freeSlot with
    | none => exact .inl ⟨by rw [System.spawn, hf],rfl⟩
    | some i => exact .inr (.inl ⟨rfl,i,rfl,spawn_filled func hf⟩)
  | spawnUserspace entry sp root frames =>
    cases hexec
    cases hf : s.freeSlot with
    | none => exact .inl ⟨by rw [System.spawnUserspace, hf],rfl⟩
    | some i => exact .inr (.inl ⟨rfl,i,rfl,spawnUserspace_filled entry sp root frames hf⟩)
  | sleepUntil w =>
    cases hexec
    refine .inr (.inr ⟨rfl,own_setTaskState rfl rfl (fun j hj => ?_) (by decide)⟩)
    exact setTask_other _ hj
  | yieldNow =>
    cases hexec
    exact .inr (.inr ⟨rfl,own_setTaskState rfl rfl (fun _ _ => rfl) (by decide)⟩)
  | exitCurrentTask =>
    cases hexec
    exact .inr (.inr ⟨rfl,exitCurrentTask_own s⟩)
  | timer sp => exact absurd rfl (htimer sp)

/-- Task `j` is selected, and the tick goes back to it or switches to it. -/
def Elected (s : System) (sp j : ℕ) : Prop :=
  (((s.tick.wakeSleeping.suspend sp).tasks j).state = .ready ∨ j = 0) ∧
    ((j = s.current ∧ s.timerHandlerRust sp =
        some (sp,(s.tick.wakeSleeping.suspend sp).setTaskState j .running)) ∨
      (j ≠ s.current ∧ s.timerHandlerRust sp =
        some ((s.tick.wakeSleeping.tasks j).savedSp,
          (s.tick.wakeSleeping.suspend sp).switchTo j)))

theorem timer_idle {s : System} (sp : ℕ) (h : s.tick.ticks = 0 ∨ s.tick.ticks%10 ≠ 0) :
    s.timerHandlerRust sp = some (sp,s.tick.wakeSleeping) := by
  unfold timerHandlerRust
  dsimp only
  rw [wakeSleeping_ticks, if_pos h]

theorem timer_elects {s : System} (sp : ℕ) (h : ¬(s.tick.ticks = 0 ∨ s.tick.ticks%10 ≠ 0)) :
    ∃ j < maxTasks, Elected s sp j := by
  obtain ⟨hw,-⟩ := wakeSleeping_current s
  obtain ⟨-,-,-,hother,hcur,-⟩ := suspend_tasks s.tick.wakeSleeping sp
  rw [hw] at hcur hother
  obtain ⟨j,hj,hsel,hready⟩ := selectNext_spec (s.tick.wakeSleeping.suspend sp).tasks
    (Nat.mod_lt (s.current+1) (show 0 < maxTasks by decide))
  refine ⟨j,hj,hready,?_⟩
  unfold timerHandlerRust
  dsimp only
  rw [wakeSleeping_ticks, if_neg h]
  simp only [hcur, hsel]
  by_cases hself : j = s.current
  · exact .inl ⟨hself,if_pos hself⟩
  · refine .inr ⟨hself,?_⟩
    rw [if_neg hself, (switchTo_tasks _ j).2.1, hother j hself]

/-- Everything a tick can do. -/
theorem timer_cases (s : System) (sp : ℕ) :
    s.timerHandlerRust sp = some (sp,s.tick.wakeSleeping) ∨ ∃ j < maxTasks, Elected s sp j := by
  by_cases h : s.tick.ticks = 0 ∨ s.tick.ticks%10 ≠ 0
  · exact .inl (timer_idle sp h)
  · exact .inr (timer_elects sp h)

end

/-! ## The invariant -/

/-- Only the current task may be running, the kernel's task is alive, and the
table holds the right stack pointer for every task that is not current. -/
structure SchedOk (h : List Label) (s : System) : Prop where
  current_lt : s.current < maxTasks
  running : ∀ i < maxTasks, (s.tasks i).state = .running → i = s.current
  kernel_alive : (s.tasks 0).state ≠ .unused
  ran : hasRun h s.current = true
  resume : ∀ j < maxTasks, j ≠ s.current → (s.tasks j).state ≠ .unused →
    lastSp s.stackOf h j = some (s.tasks j).savedSp

theorem initScheduler_ok (machine : PageTables.Machine) (stackOf : ℕ → ℕ) (ticks cr3 rsp0 : ℕ) :
    SchedOk [] (boot machine stackOf ticks cr3 rsp0).initScheduler := by
  have hother : ∀ j, j ≠ 0 →
      (boot machine stackOf ticks cr3 rsp0).initScheduler.tasks j = unusedTask := by
    intro j hj
    unfold initScheduler
    rw [setTask_other _ hj]
    rfl
  refine ⟨Nat.zero_lt_succ 255,fun i _ hr => ?_,?_,rfl,fun j _ hj hu => ?_⟩
  · by_contra hi
    rw [hother i hi] at hr
    cases hr
  · unfold initScheduler
    rw [setTask_same]
    simp
  · rw [hother j hj] at hu
    exact (hu rfl).elim

section
variable {h : List Label} {s s' : System} {e : Label}

section

variable (ok : SchedOk h s)
include ok

theorem SchedOk.own (ho : Own s s') (hran : hasRun (e::h) s.current = hasRun h s.current)
    (hl : ∀ j, lastSp s.stackOf (e::h) j = lastSp s.stackOf h j) : SchedOk (e::h) s' := by
  obtain ⟨hc,hst,ht,h0⟩ := ho
  refine ⟨hc ▸ ok.current_lt,fun i hi hr => ?_,?_,?_,fun j hj hne hu => ?_⟩
  · rw [hc]
    by_contra hne
    rw [ht i hne] at hr
    exact hne (ok.running i hi hr)
  · by_cases h00 : s.current = 0
    · exact h0 h00 ok.kernel_alive
    · rw [ht 0 fun he => h00 he.symm]
      exact ok.kernel_alive
  · rw [hc, hran]
    exact ok.ran
  · rw [hc] at hne
    rw [hst, hl, ht j hne]
    rw [ht j hne] at hu
    exact ok.resume j hj hne hu

theorem SchedOk.fill {i : ℕ} (hslot : s.freeSlot = some i)
    (halive : (s.tasks s.current).state ≠ .unused) (hf : Filled s s' i)
    (hran : ∀ j, i ≠ j → hasRun (e::h) j = hasRun h j)
    (hl : ∀ j, lastSp s.stackOf (e::h) j =
      if some i = some j then some (initialSp (s.stackOf j)) else lastSp s.stackOf h j) :
    SchedOk (e::h) s' := by
  obtain ⟨hpos,-,hunused⟩ := freeSlot_some hslot
  refine ⟨hf.current ▸ ok.current_lt,fun k hk hr => ?_,?_,?_,fun j hj hcur hu => ?_⟩
  · by_cases hki : k = i
    · rw [hki, hf.state] at hr
      cases hr
    · rw [hf.others k hki] at hr
      rw [hf.current]
      exact ok.running k hk hr
  · rw [hf.others 0 (by omega)]
    exact ok.kernel_alive
  · rw [hf.current, hran]
    · exact ok.ran
    · intro he
      rw [he] at hunused
      exact halive hunused
  · rw [hf.stackOf, hl]
    by_cases hji : j = i
    · rw [hji, if_pos rfl, hf.savedSp]
    · rw [hf.current] at hcur
      rw [hf.others j hji] at hu ⊢
      rw [if_neg fun he => hji (some.inj he).symm]
      exact ok.resume j hj hcur hu

theorem SchedOk.wake : SchedOk h s.tick.wakeSleeping := by
  have hw := wakeSleeping_cases s
  obtain ⟨hcur,hst⟩ := wakeSleeping_current s
  generalize s.tick.wakeSleeping = w at *
  refine ⟨hcur ▸ ok.current_lt,fun i hi hr => ?_,?_,hcur ▸ ok.ran,fun j hj hne hu => ?_⟩
  · rcases hw i with he | ⟨-,he⟩ <;> rw [he] at hr
    · rw [hcur]
      exact ok.running i hi hr
    · cases hr
  · rcases hw 0 with he | ⟨-,he⟩ <;> rw [he]
    · exact ok.kernel_alive
    · simp
  · rw [hcur] at hne
    rw [hst]
    rcases hw j with he | ⟨hs,he⟩ <;> rw [he] at hu ⊢
    · exact ok.resume j hj hne hu
    · exact ok.resume j hj hne (by simp [hs])

/-- A switch: the stack pointer of the suspended task is the newest one. -/
theorem SchedOk.switch {sp j : ℕ} (hj : j < maxTasks) (hran : hasRun (e::h) j = true)
    (hl : ∀ k, lastSp s.stackOf (e::h) k =
      if k = s.current then some sp else lastSp s.stackOf h k) :
    SchedOk (e::h) ((s.suspend sp).switchTo j) := by
  obtain ⟨hsp,hrun,halive,hother,hcur,hst⟩ := suspend_tasks s sp
  obtain ⟨hself,-,ht⟩ := switchTo_tasks (s.suspend sp) j
  refine ⟨hj,fun k hk hr => ?_,?_,hran,fun k hk hkj hu => ?_⟩
  · by_contra hkj
    rw [ht k hkj] at hr
    by_cases hkc : k = s.current
    · rw [hkc] at hr
      exact hrun hr
    · rw [hother k hkc] at hr
      exact hkc (ok.running k hk hr)
  · by_cases h0j : (0 : ℕ) = j
    · rw [h0j, hself]
      decide
    · rw [ht 0 h0j]
      by_cases h0c : (0 : ℕ) = s.current
      · have hk := ok.kernel_alive
        rw [h0c] at hk ⊢
        exact halive hk
      · rw [hother 0 h0c]
        exact ok.kernel_alive
  · have hkj' : k ≠ j := hkj
    rw [ht k hkj'] at hu ⊢
    have hst' : ((s.suspend sp).switchTo j).stackOf = s.stackOf := hst
    rw [hst', hl]
    by_cases hkc : k = s.current
    · rw [if_pos hkc, hkc, hsp]
    · rw [hother k hkc] at hu ⊢
      rw [if_neg hkc]
      exact ok.resume k hk hkc hu

omit ok in
theorem lastSp_call {op : Op} (htimer : ∀ sp, op ≠ .timer sp) (stackOf : ℕ → ℕ)
    (slot : Option ℕ) (before after j : ℕ) : lastSp stackOf (⟨op,slot,before,after⟩::h) j =
      if op.fills = true ∧ slot = some j then some (initialSp (stackOf j)) else lastSp stackOf h j := by
  cases op with
  | timer sp => exact absurd rfl (htimer sp)
  | _ => rfl

theorem step_ok (hs : Step s e s') : SchedOk (e::h) s' := by
  obtain ⟨hexec,halive,hslot,hbefore,hafter⟩ := hs
  obtain ⟨op,slot,before,after⟩ := e
  dsimp only at hexec halive hslot hbefore hafter
  subst hslot hbefore
  by_cases htimer : ∀ sp, op ≠ .timer sp
  · rcases Op.call_cases hexec htimer with ⟨rfl,hf⟩ | ⟨hfills,i,hf,hfill⟩ | ⟨hfills,ho⟩
    · exact ok.own (.refl _) (by simp [hasRun, hafter, hf]) fun j => by simp [lastSp_call htimer, hf]
    · rw [hfill.current] at hafter
      exact ok.fill hf (halive hfills) hfill (fun j hj => by simp [hasRun, hafter, hf, hj])
        fun j => by simp [lastSp_call htimer, hfills, hf]
    · rw [ho.current] at hafter
      exact ok.own ho (by simp [hasRun, hfills, hafter]) fun j => by simp [lastSp_call htimer, hfills]
  · simp only [not_forall, not_not] at htimer
    obtain ⟨sp,rfl⟩ := htimer
    simp only [Op.exec] at hexec
    obtain ⟨⟨ret,s₁⟩,htimer,rfl⟩ := map_eq_some_iff.mp hexec
    have hw := ok.wake
    obtain ⟨hcur,hst⟩ := wakeSleeping_current s
    have htc := timer_cases s sp
    unfold Elected at htc
    generalize s.tick.wakeSleeping = w at hw hcur hst htc
    have hstay : ∀ s₁, after = s₁.current → Own w s₁ →
        SchedOk (⟨.timer sp,s.freeSlot,s.current,after⟩::h) s₁ := by
      intro s₁ ha ho
      rw [ho.current, hcur] at ha
      refine hw.own ho (by simp [hasRun, Op.fills, ha]) fun k => ?_
      rw [ha]
      simp [lastSp]
    rcases htc with ht | ⟨j,hj,-,⟨hself,ht⟩ | ⟨hne,ht⟩⟩ <;>
      cases htimer.symm.trans ht
    · exact hstay _ hafter (.refl _)
    · obtain ⟨-,-,-,hother,hcur',hst'⟩ := suspend_tasks w sp
      rw [hself.trans hcur.symm] at hafter ⊢
      exact hstay _ hafter (own_setTaskState hcur' hst' hother (by decide))
    · have hafter' : after = j := hafter.trans (switchTo_current _ j)
      have hran := ok.ran
      refine hw.switch hj (by simp [hasRun, Op.fills, hafter', hne.symm]) fun k => ?_
      rw [hafter', hcur, hst]
      by_cases hk : k = s.current
      · subst hk
        simp [lastSp, hne, hran]
      · have hk' : s.current ≠ k := fun he => hk he.symm
        simp [lastSp, hk, hk']

end

end

/-- For every run: the current task is in range, no other task is running, the
kernel's task is alive; and whatever stack pointer the next tick hands in, it
completes, and if it switches, it selects a task that is ready or task 0 and
returns the stack pointer that the history of the run demands. -/
theorem scheduler_run_safe {machine : PageTables.Machine} {stackOf : ℕ → ℕ} {ticks cr3 rsp0 : ℕ}
    {h : List Label} {s : System}
    (r : Run Step (boot machine stackOf ticks cr3 rsp0).initScheduler h s) :
    s.current < maxTasks ∧ (∀ i < maxTasks, (s.tasks i).state = .running → i = s.current) ∧
    (s.tasks 0).state ≠ .unused ∧
    ∀ sp, ∃ ret s', s.timerHandlerRust sp = some (ret,s') ∧
      (s'.current ≠ s.current →
        ((s.tick.wakeSleeping.tasks s'.current).state = .ready ∨ s'.current = 0) ∧
        lastSp s.stackOf h s'.current = some ret) := by
  have ok : SchedOk h s := r.invariant (P := SchedOk) (initScheduler_ok _ _ _ _ _)
    fun _ _ _ _ ok hs => step_ok ok hs
  refine ⟨ok.current_lt,ok.running,ok.kernel_alive,fun sp => ?_⟩
  have hw := ok.wake
  obtain ⟨hcur,hst⟩ := wakeSleeping_current s
  obtain ⟨-,-,-,hother,hcur',-⟩ := suspend_tasks s.tick.wakeSleeping sp
  rcases timer_cases s sp with ht | ⟨j,hj,hready,⟨hself,ht⟩ | ⟨hne,ht⟩⟩
  · exact ⟨_,_,ht,fun hne => (hne hcur).elim⟩
  · refine ⟨_,_,ht,fun hne => ?_⟩
    rw [setTaskState_current, hcur', hcur] at hne
    exact (hne rfl).elim
  · refine ⟨_,_,ht,fun _ => ?_⟩
    rw [hother j (by rw [hcur]; exact hne)] at hready
    rw [switchTo_current]
    refine ⟨hready,?_⟩
    have hu : (s.tick.wakeSleeping.tasks j).state ≠ .unused := by
      rcases hready with hr | h0
      · rw [hr]
        decide
      · rw [h0]
        exact hw.kernel_alive
    rw [← hst]
    exact hw.resume j hj (by rw [hcur]; exact hne) hu

theorem timer_selects_neighbour {s : System} (sp : ℕ)
    (ht : ¬(s.tick.ticks = 0 ∨ s.tick.ticks%10 ≠ 0)) (hne : (s.current+1)%maxTasks ≠ s.current)
    (hr : (s.tasks ((s.current+1)%maxTasks)).state = .ready) :
    ∃ ret s', s.timerHandlerRust sp = some (ret,s') ∧ s'.current = (s.current+1)%maxTasks := by
  obtain ⟨hcur,-⟩ := wakeSleeping_current s
  have hticks := wakeSleeping_ticks s
  have hready := wakeSleeping_ready hr
  obtain ⟨-,-,-,hother,hcur',-⟩ := suspend_tasks s.tick.wakeSleeping sp
  unfold timerHandlerRust
  generalize s.tick.wakeSleeping = w at *
  have hsel : selectNext (w.suspend sp).tasks ((s.current+1)%maxTasks) maxTasks
      ((s.current+1)%maxTasks) = some ((s.current+1)%maxTasks) := by
    rw [show maxTasks = 255+1 from rfl, selectNext, if_pos]
    rw [hother _ (hcur ▸ hne)]
    exact hready
  dsimp only
  rw [hticks, if_neg ht, hcur', hcur, hsel]
  dsimp only
  rw [if_neg hne]
  exact ⟨_,_,rfl,rfl⟩

/-- A kernel task is spawned and the next tick is the tenth: it is resumed with its
initial frame. -/
theorem scheduler_run_safe_first_switch : ∃ s ret s',
    Run Step (boot ⟨fun _ => 0,{},0⟩ (fun i => 0x200000+i*0x9000) 9 0 0).initScheduler
      [⟨.spawn 0x100000,some 1,0,0⟩] s ∧
    s.timerHandlerRust 0x8000 = some (ret,s') ∧ s'.current = 1 ∧
    ret = initialSp 0x209000 := by
  have hstep : Step (boot ⟨fun _ => 0,{},0⟩ (fun i => 0x200000+i*0x9000) 9 0 0).initScheduler
      ⟨.spawn 0x100000,some 1,0,0⟩
      ((boot ⟨fun _ => 0,{},0⟩ (fun i => 0x200000+i*0x9000) 9 0 0).initScheduler.spawn 0x100000) :=
    ⟨rfl,fun _ => by decide,by decide,rfl,rfl⟩
  have hfill := spawn_filled 0x100000 hstep.slot.symm
  obtain ⟨ret,s',htimer,hto⟩ := timer_selects_neighbour
    (s := (boot ⟨fun _ => 0,{},0⟩ (fun i => 0x200000+i*0x9000) 9 0 0).initScheduler.spawn 0x100000)
    0x8000 (by decide) (by decide) hfill.state
  obtain ⟨-,-,-,hswitch⟩ := scheduler_run_safe (.next .start hstep)
  obtain ⟨ret',s'',htimer',hsafe⟩ := hswitch 0x8000
  cases htimer.symm.trans htimer'
  have hto' : s'.current = 1 := hto
  have hlast := (hsafe (by rw [hto', hfill.current]; decide)).2
  rw [hto', hfill.stackOf] at hlast
  exact ⟨_,ret,s',.next .start hstep,htimer,hto',(some.inj hlast).symm⟩

end Zohara.SchedulerRuns
