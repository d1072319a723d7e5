import Mathlib.Logic.Function.Basic
import Zohara.PageTables

/-!
# The task table and the timer (src/task.rs, src/timer.rs)

The system is the machine, the table TASKS, CURRENT_TASK, the tick counter and
the two registers that a context switch loads. The x86_64 paths are modelled.
Tasks are numbered below MAX_TASKS. `stackOf` is the place the linker gave to
each task's kernel stack; the stacks themselves are physical memory. The array
user_data_frames and its count are one list, of which the source only ever reads
the first `count` cells.

sleep_until and syscall_yield end in a loop that halts until the scheduler has
moved on, and exit_current_task never returns: the functions below are their
effect up to that loop. Printing and statistics are left out.
-/
namespace Zohara.Tasks
open ByteMemory PageTables

def maxTasks : ℕ := 256
def stackSize : ℕ := 32768
def maxUserFrames : ℕ := 32

inductive TaskState where
  | unused
  | ready
  | running
  | sleeping
  deriving DecidableEq, Repr

structure Task where
  savedSp : ℕ
  state : TaskState
  pageTableRoot : ℕ
  userDataFrames : List ℕ
  wakeTick : ℕ
  userId : ℕ
  deriving DecidableEq, Repr

def unusedTask : Task := ⟨0,.unused,0,[],0,1000⟩

structure System where
  machine : Machine
  tasks : ℕ → Task
  current : ℕ
  ticks : ℕ
  cr3 : ℕ
  rsp0 : ℕ
  stackOf : ℕ → ℕ

namespace System

/-- The statics before init_scheduler. -/
def boot (machine : Machine) (stackOf : ℕ → ℕ) (ticks cr3 rsp0 : ℕ) : System :=
  ⟨machine,fun _ => unusedTask,0,ticks,cr3,rsp0,stackOf⟩

def setTask (s : System) (i : ℕ) (f : Task → Task) : System :=
  {s with tasks := Function.update s.tasks i (f (s.tasks i))}

def setTaskState (s : System) (i : ℕ) (state : TaskState) : System :=
  s.setTask i fun t => {t with state := state}

/-- TASKS[i].stack.as_ptr() + STACK_SIZE. -/
def stackTop (s : System) (i : ℕ) : ℕ := s.stackOf i+stackSize

def initScheduler (s : System) : System :=
  s.setTask 0 fun t => {t with state := .running, userId := 0, pageTableRoot := s.cr3}

/-- The first unused slot; slot 0 belongs to the kernel. -/
def freeSlot (s : System) : Option ℕ :=
  (List.range' 1 (maxTasks-1)).find? fun i => (s.tasks i).state == .unused

def hasFreeSlot (s : System) : Bool :=
  (List.range' 1 (maxTasks-1)).any fun i => (s.tasks i).state == .unused

end System

/-! ## Initial frames -/

/-- `sp -= 8; *(sp as *mut u64) = w`. -/
def push (st : ℕ × Memory) (w : ℕ) : ℕ × Memory :=
  (st.1-8,writeU64 st.2 (st.1-8) (BitVec.ofNat 64 w))

/-- The frame that the interrupt return path pops: SS, RSP, RFLAGS, CS and RIP,
fifteen zero registers and 256 zero bytes for SSE. -/
def buildFrame (ss rsp cs rip top : ℕ) (mem : Memory) : ℕ × Memory :=
  let st := ([ss,rsp,0x202,cs,rip]++List.replicate 15 0).foldl push (top,mem)
  (st.1-256,fill st.2 (st.1-256) 256 0)

/-- The initial frame of a task whose stack is at `base`. -/
def initialSp (base : ℕ) : ℕ := base+stackSize-416

theorem foldl_push (ws : List ℕ) (st : ℕ × Memory) (h : 8*ws.length ≤ st.1) :
    (ws.foldl push st).1 = st.1-8*ws.length ∧
      ∀ x, x < st.1-8*ws.length ∨ st.1 ≤ x → (ws.foldl push st).2 x = st.2 x := by
  induction ws generalizing st with
  | nil => exact ⟨rfl,fun _ _ => rfl⟩
  | cons w ws ih =>
    rw [List.length_cons] at h
    have hsp : (push st w).1 = st.1-8 := rfl
    obtain ⟨h₁,h₂⟩ := ih (push st w) (by omega)
    rw [List.foldl_cons, List.length_cons]
    refine ⟨by omega,fun x hx => ?_⟩
    rw [h₂ x (by omega)]
    exact writeU64_outside _ _ (by omega)

theorem buildFrame_spec (ss rsp cs rip base : ℕ) (mem : Memory) :
    (buildFrame ss rsp cs rip (base+stackSize) mem).1 = initialSp base ∧
      ∀ x, x < base ∨ base+stackSize ≤ x →
        (buildFrame ss rsp cs rip (base+stackSize) mem).2 x = mem x := by
  have hlen : ([ss,rsp,0x202,cs,rip]++List.replicate 15 0).length = 20 := by simp
  have hsize : stackSize = 32768 := rfl
  obtain ⟨h₁,h₂⟩ := foldl_push ([ss,rsp,0x202,cs,rip]++List.replicate 15 0) (base+stackSize,mem)
    (by rw [hlen]; omega)
  rw [hlen] at h₁ h₂
  dsimp only at h₁ h₂
  unfold buildFrame initialSp
  refine ⟨by dsimp only; omega,fun x hx => ?_⟩
  dsimp only
  rw [fill_outside _ _ (by omega)]
  exact h₂ x (by omega)

def buildKernelFrame (func top : ℕ) (mem : Memory) : ℕ × Memory :=
  buildFrame 0x10 top 0x08 func top mem

def buildUserspaceFrame (userEntry userSp top : ℕ) (mem : Memory) : ℕ × Memory :=
  buildFrame 0x23 userSp 0x1B userEntry top mem

def rebuildUserspaceFrame (entry userSp top : ℕ) (mem : Memory) : ℕ × Memory :=
  buildFrame 0x23 userSp 0x1B entry top mem

theorem buildKernelFrame_sp (func base : ℕ) (mem : Memory) :
    (buildKernelFrame func (base+stackSize) mem).1 = initialSp base :=
  (buildFrame_spec _ _ _ _ base mem).1

theorem buildUserspaceFrame_sp (userEntry userSp base : ℕ) (mem : Memory) :
    (buildUserspaceFrame userEntry userSp (base+stackSize) mem).1 = initialSp base :=
  (buildFrame_spec _ _ _ _ base mem).1

namespace System

def setMem (s : System) (mem : Memory) : System := {s with machine := {s.machine with mem := mem}}

/-- A task of the kernel runs on the tables that are loaded now. The slot keeps
the frame list of its previous owner. -/
def spawn (s : System) (func : ℕ) : System :=
  match s.freeSlot with
  | none => s
  | some i =>
    let frame := buildKernelFrame func (s.stackTop i) s.machine.mem
    (s.setMem frame.2).setTask i fun t =>
      {t with pageTableRoot := s.cr3, savedSp := frame.1, state := .ready}

def spawnUserspace (s : System) (userEntry userSp pageTableRoot : ℕ) (userDataFrames : List ℕ) :
    Except String ℕ × System :=
  match s.freeSlot with
  | none => (.error "out of task slots",s)
  | some i =>
    let frame := buildUserspaceFrame userEntry userSp (s.stackTop i) s.machine.mem
    (.ok i,(s.setMem frame.2).setTask i fun t =>
      {t with
        pageTableRoot := pageTableRoot
        savedSp := frame.1
        state := .ready
        userDataFrames := userDataFrames.take maxUserFrames})

/-! ## Sleeping, yielding and exiting -/

def sleepUntil (s : System) (wakeTick : ℕ) : System :=
  (s.setTask s.current fun t => {t with wakeTick := wakeTick}).setTaskState s.current .sleeping

def msPerTick : ℕ := 10

def msToTicks (ms : ℕ) : ℕ := (ms+msPerTick-1)%2^64/msPerTick

def sleepMs (s : System) (durationMs : ℕ) : System :=
  s.sleepUntil ((s.ticks+msToTicks durationMs)%2^64)

/-- syscall_yield. -/
def yieldNow (s : System) : System := s.setTaskState s.current .ready

/-- Deallocate the recorded frames, zero entries excepted. -/
def reclaim (m : Machine) (frames : List ℕ) : Machine :=
  frames.foldl (fun m pa => if pa ≠ 0 then m.deallocate pa else m) m

/-- The answer is -1 for task 0; otherwise the call does not return. -/
def exitCurrentTask (s : System) : Option Int × System :=
  if s.current = 0 then (some (-1),s) else
  let task := s.tasks s.current
  let kernelCr3 := (s.tasks 0).pageTableRoot
  let m := reclaim s.machine task.userDataFrames
  let m :=
    if task.pageTableRoot ≠ kernelCr3 ∧ task.pageTableRoot ≠ 0 then
      freeUserPageTables m task.pageTableRoot
    else m
  (none,{({s with machine := m} : System).setTaskState s.current .unused with cr3 := kernelCr3})

/-! ## The tick -/

def tick (s : System) : System := {s with ticks := (s.ticks+1)%2^64}

/-- One iteration of the wake-up loop. -/
def wakeSlot (s : System) (i : ℕ) : System :=
  if (s.tasks i).state = .sleeping ∧ (s.tasks i).wakeTick ≤ s.ticks then s.setTaskState i .ready
  else s

def wakeSleeping (s : System) : System := (List.range' 1 (maxTasks-1)).foldl wakeSlot s

/-- The round-robin search, with a bound on the number of turns. -/
def selectNext (tasks : ℕ → Task) (start : ℕ) : ℕ → ℕ → Option ℕ
  | 0,_ => none
  | turns+1,next =>
    if (tasks next).state = .ready then some next
    else if (next+1)%maxTasks = start then some 0
    else selectNext tasks start turns ((next+1)%maxTasks)

/-- The current task keeps its stack pointer and is no longer running. -/
def suspend (s : System) (savedSp : ℕ) : System :=
  let s := s.setTask s.current fun t => {t with savedSp := savedSp}
  if (s.tasks s.current).state = .running then s.setTaskState s.current .ready else s

/-- CURRENT_TASK, CR3 and TSS.RSP0 of the selected task. -/
def switchTo (s : System) (next : ℕ) : System :=
  let s := ({s with current := next} : System).setTaskState next .running
  {s with cr3 := (s.tasks next).pageTableRoot, rsp0 := s.stackTop next}

def timerHandlerRust (s : System) (savedSp : ℕ) : Option (ℕ × System) :=
  let s := s.tick.wakeSleeping
  if s.ticks = 0 ∨ s.ticks%10 ≠ 0 then some (savedSp,s) else
  let s := s.suspend savedSp
  let start := (s.current+1)%maxTasks
  match selectNext s.tasks start maxTasks start with
  | none => none
  | some next =>
    if next = s.current then some (savedSp,s.setTaskState next .running)
    else some (((s.switchTo next).tasks next).savedSp,s.switchTo next)

/-! ## Small facts about the updates -/

section
variable (s : System) (i : ℕ)

@[simp] theorem setTask_same (f : Task → Task) : (s.setTask i f).tasks i = f (s.tasks i) :=
  Function.update_self ..

@[simp] theorem setTask_machine (f : Task → Task) : (s.setTask i f).machine = s.machine := rfl

@[simp] theorem setMem_machine (mem : Memory) :
    (s.setMem mem).machine = {s.machine with mem := mem} := rfl

@[simp] theorem setTaskState_current (state : TaskState) :
    (s.setTaskState i state).current = s.current := rfl

@[simp] theorem switchTo_current : (s.switchTo i).current = i := rfl

variable {s i}

theorem setTask_other {j : ℕ} (f : Task → Task) (h : j ≠ i) :
    (s.setTask i f).tasks j = s.tasks j := Function.update_of_ne h ..

end

end System

end Zohara.Tasks
