import Zohara.FdTable
import Zohara.SchedulerRuns

/-!
# The history of a task slot

A kernel is the scheduler's system together with the global descriptor table. A
run starts after init_scheduler and interleaves, in any order and with any
arguments, the operations of the scheduler (spawn, spawn_userspace, exit, sleep,
yield, ticks) with descriptor calls. The current task makes all calls but the
tick, and it makes them only while its slot is in use: exit_current_task does
not return.

The histories below say from the labels alone who owns a slot, which frames were
recorded for it and which descriptors its tasks hold. `SlotOk` compares them with
the state. The page tables that exit frees are not part of the record, and only
the record is followed here.
-/
namespace Zohara.SlotHistory
open Runs Tasks System FdTable List Option Function

structure Kernel where
  sys : System
  fds : Table

inductive Act where
  | task (op : SchedulerRuns.Op)
  | fd (op : FdOp)
  deriving DecidableEq, Repr

/-- The call, the slot a spawn would fill, the task that makes it, the frames that
an exit passes from the record to deallocate_frame, and the descriptor that a
descriptor call answers. -/
structure Label where
  act : Act
  slot : Option ℕ
  before : ℕ
  freed : List ℕ
  answer : Option ℕ
  deriving DecidableEq, Repr

def Act.exec (k : Kernel) : Act → Option (Option ℕ × Kernel)
  | .task op => (op.exec k.sys).map fun s => (none,{k with sys := s})
  | .fd op => some ((op.exec k.fds k.sys.current).1,{k with fds := (op.exec k.fds k.sys.current).2})

def Act.isTick : Act → Bool
  | .task (.timer _) => true
  | _ => false

/-- The loop of exit_current_task skips zero entries. -/
def passed (k : Kernel) : Act → List ℕ
  | .task .exitCurrentTask =>
    if k.sys.current = 0 then []
    else (k.sys.tasks k.sys.current).userDataFrames.filter (· ≠ 0)
  | _ => []

structure Step (k : Kernel) (e : Label) (k' : Kernel) : Prop where
  exec : e.act.exec k = some (e.answer,k')
  alive : e.act.isTick = false → (k.sys.tasks k.sys.current).state ≠ .unused
  slot : e.slot = k.sys.freeSlot
  before : e.before = k.sys.current
  freed : e.freed = passed k e.act

def start (machine : PageTables.Machine) (stackOf : ℕ → ℕ) (ticks cr3 rsp0 : ℕ) : Kernel :=
  ⟨(boot machine stackOf ticks cr3 rsp0).initScheduler,emptyTable⟩

/-! ## Histories -/

inductive Fill where
  | kernel
  | user (frames : List ℕ)
  deriving DecidableEq, Repr

namespace Label

/-- How the call fills slot `i`, if it does. -/
def fill (e : Label) (i : ℕ) : Option Fill :=
  if e.slot = some i then
    match e.act with
    | .task (.spawn _) => some .kernel
    | .task (.spawnUserspace _ _ _ frames) => some (.user (frames.take maxUserFrames))
    | _ => none
  else none

/-- The task in slot `i` exits. Task 0 is refused. -/
def exits (e : Label) (i : ℕ) : Prop := e.act = .task .exitCurrentTask ∧ e.before = i ∧ i ≠ 0

instance (e : Label) (i : ℕ) : Decidable (e.exits i) := inferInstanceAs (Decidable (_ ∧ _ ∧ _))

/-- The task in slot `i` makes a call that may open a descriptor. -/
def obtains (e : Label) (i : ℕ) : Prop :=
  e.before = i ∧ ∃ op : FdOp, e.act = .fd op ∧ op.obtains = true

end Label

/-- The frames recorded for slot `i` since it was last filled. -/
def recorded : List Label → ℕ → List ℕ
  | [],_ => []
  | e::h,i =>
    match e.fill i with
    | some (.user frames) => frames
    | some .kernel => []
    | none => recorded h i

/-- The frames of the last user task that slot `i` was given to. -/
def lastRecord : List Label → ℕ → List ℕ
  | [],_ => []
  | e::h,i =>
    match e.fill i with
    | some (.user frames) => frames
    | _ => lastRecord h i

/-- Slot `i` was last filled by `spawn`. -/
def byKernel : List Label → ℕ → Bool
  | [],_ => false
  | e::h,i =>
    match e.fill i with
    | some (.user _) => false
    | some .kernel => true
    | none => byKernel h i

/-- Slot `i` is in use. -/
def live : List Label → ℕ → Bool
  | [],i => i == 0
  | e::h,i => if (e.fill i).isSome then true else if e.exits i then false else live h i

/-- How often the record that slot `i` holds has been passed to deallocate_frame. -/
def timesFreed : List Label → ℕ → ℕ
  | [],_ => 0
  | e::h,i =>
    match e.fill i with
    | some (.user _) => 0
    | _ => if e.exits i ∧ e.freed ≠ [] then timesFreed h i+1 else timesFreed h i

/-- The descriptors that tasks of slot `i` have obtained and not closed. -/
def heldFds : List Label → ℕ → Finset ℕ
  | [],_ => ∅
  | e::h,i =>
    match e.act with
    | .fd op => if e.before = i then op.held (heldFds h i) e.answer else heldFds h i
    | .task _ => heldFds h i

/-! ## What the scheduler's operations do to a slot -/

/-- The records are the same, and the same slots are in use. -/
def Kept (s s' : System) : Prop :=
  ∀ i, (s'.tasks i).userDataFrames = (s.tasks i).userDataFrames ∧
    ((s'.tasks i).state = .unused ↔ (s.tasks i).state = .unused)

section
variable {s s' s'' : System} {i : ℕ}

theorem Kept.refl (s : System) : Kept s s := fun _ => ⟨rfl,Iff.rfl⟩

theorem Kept.trans (h : Kept s s') (h' : Kept s' s'') : Kept s s'' := by
  intro i
  exact ⟨(h' i).1.trans (h i).1,(h' i).2.trans (h i).2⟩

theorem kept_setTask (f : Task → Task) (hf : (f (s.tasks i)).userDataFrames = (s.tasks i).userDataFrames)
    (hu : (s.tasks i).state ≠ .unused) (hu' : (f (s.tasks i)).state ≠ .unused) :
    Kept s (s.setTask i f) := by
  intro j
  by_cases hj : j = i
  · rw [hj, setTask_same]
    exact ⟨hf,iff_of_false hu' hu⟩
  · rw [setTask_other _ hj]
    exact ⟨rfl,Iff.rfl⟩

theorem kept_wake (s : System) : Kept s s.tick.wakeSleeping := by
  intro i
  rcases SchedulerRuns.wakeSleeping_cases s i with he | ⟨hs,he⟩ <;> rw [he]
  · exact ⟨rfl,Iff.rfl⟩
  · exact ⟨rfl,by simp [hs]⟩

theorem kept_suspend (s : System) (sp : ℕ) : Kept s (s.suspend sp) := by
  intro i
  rw [SchedulerRuns.suspend_eq]
  by_cases hi : i = s.current
  · rw [hi, setTask_same]
    dsimp only
    refine ⟨rfl,?_⟩
    split_ifs with hr
    · rw [hr]
      decide
    · rfl
  · rw [setTask_other _ hi]
    exact ⟨rfl,Iff.rfl⟩

theorem kept_setTaskState {state : TaskState} (hu : (s.tasks i).state ≠ .unused)
    (hstate : state ≠ .unused) : Kept s (s.setTaskState i state) :=
  kept_setTask (fun t => {t with state := state}) rfl hu hstate

theorem kept_switchTo (hu : (s.tasks i).state ≠ .unused) : Kept s (s.switchTo i) := by
  intro j
  exact kept_setTaskState (s := {s with current := i}) hu (by decide) j

theorem kept_timer {sp ret : ℕ} (h0 : (s.tasks 0).state ≠ .unused)
    (h : s.timerHandlerRust sp = some (ret,s')) : Kept s s' := by
  have hw := kept_wake s
  have hsp := hw.trans (kept_suspend s.tick.wakeSleeping sp)
  have hready : ∀ j, ((s.tick.wakeSleeping.suspend sp).tasks j).state = .ready ∨ j = 0 →
      ((s.tick.wakeSleeping.suspend sp).tasks j).state ≠ .unused := by
    intro j hj
    rcases hj with hj | rfl
    · rw [hj]
      decide
    · exact fun hu => h0 ((hsp 0).2.mp hu)
  have hcases := SchedulerRuns.timer_cases s sp
  unfold SchedulerRuns.Elected at hcases
  generalize s.tick.wakeSleeping = w at hw hsp hready hcases
  rcases hcases with ht | ⟨j,-,hj,⟨-,ht⟩ | ⟨-,ht⟩⟩ <;>
    cases h.symm.trans ht
  · exact hw
  · exact hsp.trans (kept_setTaskState (hready j hj) (by decide))
  · exact hsp.trans (kept_switchTo (hready j hj))

theorem spawn_record (func : ℕ) (h : s.freeSlot = some i) :
    ((s.spawn func).tasks i).userDataFrames = (s.tasks i).userDataFrames := by
  unfold System.spawn
  rw [h]
  dsimp only
  rw [setTask_same]
  rfl

theorem spawnUserspace_record (entry sp root : ℕ) (frames : List ℕ) (h : s.freeSlot = some i) :
    ((s.spawnUserspace entry sp root frames).2.tasks i).userDataFrames =
      frames.take maxUserFrames := by
  unfold System.spawnUserspace
  rw [h]
  dsimp only
  rw [setTask_same]

theorem exit_record (hc : s.current ≠ 0) (i : ℕ) :
    (s.exitCurrentTask.2.tasks i).userDataFrames = (s.tasks i).userDataFrames ∧
      ((s.exitCurrentTask.2.tasks i).state = .unused ↔
        i = s.current ∨ (s.tasks i).state = .unused) := by
  by_cases hi : i = s.current
  · have hself : s.exitCurrentTask.2.tasks i = {s.tasks i with state := .unused} := by
      unfold System.exitCurrentTask
      rw [if_neg hc, hi]
      exact update_self ..
    rw [hself]
    exact ⟨rfl,iff_of_true rfl (.inl hi)⟩
  · rw [(SchedulerRuns.exitCurrentTask_own s).others i hi]
    exact ⟨rfl,(or_iff_right hi).symm⟩

end

/-! ## Histories and states agree -/

structure SlotOk (h : List Label) (k : Kernel) : Prop where
  record : ∀ i, (k.sys.tasks i).userDataFrames = lastRecord h i
  inUse : ∀ i, (k.sys.tasks i).state = .unused ↔ live h i = false
  kernel : live h 0 = true
  fds : ∀ i, Held k.fds i (heldFds h i)

theorem start_ok (machine : PageTables.Machine) (stackOf : ℕ → ℕ) (ticks cr3 rsp0 : ℕ) :
    SlotOk [] (start machine stackOf ticks cr3 rsp0) := by
  have hother : ∀ j, j ≠ 0 → (start machine stackOf ticks cr3 rsp0).sys.tasks j = unusedTask := by
    intro j hj
    unfold start initScheduler
    rw [setTask_other _ hj]
    rfl
  have hzero : (start machine stackOf ticks cr3 rsp0).sys.tasks 0 =
      {unusedTask with state := .running, userId := 0, pageTableRoot := cr3} := by
    unfold start initScheduler
    rw [setTask_same]
    rfl
  refine ⟨fun i => ?_,fun i => ?_,rfl,held_empty⟩
  · by_cases hi : i = 0
    · rw [hi, hzero]
      rfl
    · rw [hother i hi]
      rfl
  · by_cases hi : i = 0
    · rw [hi, hzero]
      exact iff_of_false (by simp) (by decide)
    · rw [hother i hi]
      exact iff_of_true rfl (beq_eq_false_iff_ne.mpr hi)

section
variable {h : List Label} {k k' : Kernel} {e : Label}

theorem SlotOk.keep (ok : SlotOk h k) (hkept : Kept k.sys k'.sys) (hfill : ∀ i, e.fill i = none)
    (hexit : ∀ i, ¬e.exits i) (hfds : ∀ i, Held k'.fds i (heldFds (e::h) i)) : SlotOk (e::h) k' := by
  have hlive : ∀ i, live (e::h) i = live h i := by
    intro i
    rw [live, hfill i, if_neg (by simp), if_neg (hexit i)]
  refine ⟨fun i => ?_,fun i => ?_,?_,hfds⟩
  · rw [lastRecord, hfill i, (hkept i).1]
    exact ok.record i
  · rw [hlive i, (hkept i).2]
    exact ok.inUse i
  · rw [hlive 0]
    exact ok.kernel

theorem SlotOk.fill (ok : SlotOk h k) {i : ℕ} {f : Fill} (hslot : k.sys.freeSlot = some i)
    (hf : SchedulerRuns.Filled k.sys k'.sys i) (hfill : e.fill i = some f)
    (hother : ∀ j, j ≠ i → e.fill j = none) (hexit : ∀ j, ¬e.exits j)
    (hrec : (k'.sys.tasks i).userDataFrames = lastRecord (e::h) i)
    (hfds : ∀ j, Held k'.fds j (heldFds (e::h) j)) : SlotOk (e::h) k' := by
  obtain ⟨hpos,-,-⟩ := SchedulerRuns.freeSlot_some hslot
  have hlive : ∀ j, j ≠ i → live (e::h) j = live h j := by
    intro j hj
    rw [live, hother j hj, if_neg (by simp), if_neg (hexit j)]
  refine ⟨fun j => ?_,fun j => ?_,?_,hfds⟩
  · by_cases hj : j = i
    · rw [hj]
      exact hrec
    · rw [lastRecord, hother j hj, hf.others j hj]
      exact ok.record j
  · by_cases hj : j = i
    · rw [hj, hf.state, live, hfill]
      simp
    · rw [hlive j hj, hf.others j hj]
      exact ok.inUse j
  · rw [hlive 0 (by omega)]
    exact ok.kernel

theorem SlotOk.exit (ok : SlotOk h k) (hc : k.sys.current ≠ 0) (hact : e.act = .task .exitCurrentTask)
    (hbefore : e.before = k.sys.current) (hsys : k'.sys = k.sys.exitCurrentTask.2)
    (hfill : ∀ i, e.fill i = none) (hfds : ∀ i, Held k'.fds i (heldFds (e::h) i)) :
    SlotOk (e::h) k' := by
  have hlive : ∀ i, live (e::h) i = if i = k.sys.current then false else live h i := by
    intro i
    rw [live, hfill i, if_neg (by simp)]
    by_cases hi : i = k.sys.current
    · rw [if_pos hi, if_pos ⟨hact,hbefore.trans hi.symm,by rw [hi]; exact hc⟩]
    · rw [if_neg hi, if_neg fun he => hi (he.2.1.symm.trans hbefore)]
  refine ⟨fun i => ?_,fun i => ?_,?_,hfds⟩
  · rw [lastRecord, hfill i, hsys, (exit_record hc i).1]
    exact ok.record i
  · rw [hlive i, hsys, (exit_record hc i).2]
    by_cases hi : i = k.sys.current
    · simp [hi]
    · rw [if_neg hi, or_iff_right hi]
      exact ok.inUse i
  · rw [hlive 0, if_neg hc.symm]
    exact ok.kernel

theorem step_slots (ok : SlotOk h k) (hs : Step k e k') : SlotOk (e::h) k' := by
  obtain ⟨hexec,halive,hslot,hbefore,-⟩ := hs
  obtain ⟨act,slot,before,freed,answer⟩ := e
  dsimp only at hexec halive hslot hbefore
  subst hslot hbefore
  have h0 : (k.sys.tasks 0).state ≠ .unused := by
    rw [Ne, ok.inUse, ok.kernel]
    decide
  cases act with
  | fd op =>
    cases hexec
    have hw := op.exec_writes k.fds k.sys.current
    refine ok.keep (Kept.refl _) (fun i => by simp [Label.fill]) (fun i => by simp [Label.exits])
      fun i => ?_
    rw [heldFds]
    dsimp only
    split_ifs with hi
    · rw [← hi]
      exact (ok.fds _).writes hw
    · exact (ok.fds i).other hw fun he => hi he.symm
  | task op =>
    obtain ⟨s',hop,he⟩ := map_eq_some_iff.mp hexec
    cases he
    cases op with
    | spawn func =>
      cases hop
      cases hf : k.sys.freeSlot with
      | none =>
        have hid : k.sys.spawn func = k.sys := by rw [System.spawn, hf]
        rw [hid]
        exact ok.keep (Kept.refl _) (fun i => by simp [Label.fill])
          (fun i => by simp [Label.exits]) ok.fds
      | some i =>
        refine ok.fill hf (SchedulerRuns.spawn_filled func hf) (f := .kernel)
          (by simp [Label.fill]) (fun j hj => by simp [Label.fill, hj.symm])
          (fun j => by simp [Label.exits]) ?_ ok.fds
        rw [spawn_record func hf, ok.record i]
        simp [lastRecord, Label.fill]
    | spawnUserspace entry sp root frames =>
      cases hop
      cases hf : k.sys.freeSlot with
      | none =>
        have hid : (k.sys.spawnUserspace entry sp root frames).2 = k.sys := by
          rw [System.spawnUserspace, hf]
        rw [hid]
        exact ok.keep (Kept.refl _) (fun i => by simp [Label.fill])
          (fun i => by simp [Label.exits]) ok.fds
      | some i =>
        refine ok.fill hf (SchedulerRuns.spawnUserspace_filled entry sp root frames hf)
          (f := .user (frames.take maxUserFrames)) (by simp [Label.fill])
          (fun j hj => by simp [Label.fill, hj.symm]) (fun j => by simp [Label.exits]) ?_ ok.fds
        rw [spawnUserspace_record entry sp root frames hf]
        simp [lastRecord, Label.fill]
    | sleepUntil w =>
      cases hop
      have hcur := halive rfl
      refine ok.keep ?_ (fun i => by simp [Label.fill]) (fun i => by simp [Label.exits]) ok.fds
      refine (kept_setTask (fun t => {t with wakeTick := w}) rfl hcur hcur).trans ?_
      refine kept_setTaskState ?_ (by decide)
      rw [setTask_same]
      exact hcur
    | yieldNow =>
      cases hop
      refine ok.keep ?_ (fun i => by simp [Label.fill]) (fun i => by simp [Label.exits]) ok.fds
      exact kept_setTaskState (halive rfl) (by decide)
    | exitCurrentTask =>
      cases hop
      by_cases hc : k.sys.current = 0
      · have hid : k.sys.exitCurrentTask.2 = k.sys := by rw [System.exitCurrentTask, if_pos hc]
        rw [hid]
        refine ok.keep (Kept.refl _) (fun i => by simp [Label.fill]) (fun i hi => ?_) ok.fds
        exact hi.2.2 (hi.2.1.symm.trans hc)
      · exact ok.exit hc rfl rfl rfl (fun i => by simp [Label.fill]) ok.fds
    | timer sp =>
      simp only [SchedulerRuns.Op.exec] at hop
      obtain ⟨⟨ret,s₁⟩,ht,rfl⟩ := map_eq_some_iff.mp hop
      exact ok.keep (kept_timer h0 ht) (fun i => by simp [Label.fill])
        (fun i => by simp [Label.exits]) ok.fds

end

theorem SlotOk.run {h l : List Label} {k k' : Kernel} (ok : SlotOk h k) (r : Run Step k l k') :
    SlotOk (l++h) k' := by
  induction r with
  | start => exact ok
  | next _ hs ih => exact step_slots ih hs

theorem run_slots {machine : PageTables.Machine} {stackOf : ℕ → ℕ} {ticks cr3 rsp0 : ℕ}
    {h : List Label} {k : Kernel} (r : Run Step (start machine stackOf ticks cr3 rsp0) h k) :
    SlotOk h k := by
  have ok := (start_ok machine stackOf ticks cr3 rsp0).run r
  rwa [append_nil] at ok

end Zohara.SlotHistory
