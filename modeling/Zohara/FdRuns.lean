import Zohara.FdTable
import Zohara.Runs
import Zohara.Tasks

/-!
# Runs of the descriptor table (src/fd_table.rs)

All tasks share one array. A run is any sequence of calls by any tasks below
MAX_TASKS, and its history keeps the task, the operation and the answer of every
call. Three kinds of calls do not fit the picture of one table for each task: a dup2
of a closed descriptor to itself succeeds, an lseek to offset 2^64-1 answers -1
although it moves, and a dup of a closed descriptor fails for another reason than
a full table. `Proper` leaves them out.
-/
namespace Zohara.FdTable
open Runs Tasks

def IsOpen (t : Table) (taskId fd : ℕ) : Prop :=
  fd < maxFds ∧ (t (fdIndex taskId fd)).isFree = false

def IsUnused (t : Table) (taskId fd : ℕ) : Prop :=
  fd < maxFds ∧ (t (fdIndex taskId fd)).isFree = true

/-- Where lseek moves an entry to. -/
def seekTarget (e : FdEntry) (off size : ℕ) : ℕ → Option ℕ
  | 0 => some off
  | 1 => some ((e.offset+off)%2^64)
  | 2 => some ((size+off)%2^64)
  | _ => none

namespace FdOp

/-- The answer is an error; set_offset has none. -/
def Fails (t : Table) (taskId : ℕ) : FdOp → Prop
  | .openFd n => ∃ e, (FdTable.openFd t taskId n).1 = .error e
  | .close fd => ∃ e, (FdTable.close t taskId fd).1 = .error e
  | .setOffset _ _ => False
  | .dup old => ∃ e, (FdTable.dup t taskId old).1 = .error e
  | .dup2 old new => ∃ e, (FdTable.dup2 t taskId old new).1 = .error e
  | .lseek fd off whence size => (FdTable.lseek t taskId fd off whence size).1 = -1

/-- The call is about what the descriptor names. -/
def Uses (fd : ℕ) : FdOp → Prop
  | .close a | .dup a | .dup2 a _ | .lseek a _ _ _ => a = fd
  | .openFd _ | .setOffset _ _ => False

/-- VFS node indices are below 2^31. -/
def Indexed : FdOp → Prop
  | .openFd n => n < 2^31
  | _ => True

def Proper (t : Table) (taskId : ℕ) : FdOp → Prop
  | .dup old => IsOpen t taskId old
  | .dup2 old new => old = new → IsOpen t taskId old
  | .lseek fd off whence size =>
    ∀ target, seekTarget (t (fdIndex taskId fd)) off size whence = some target →
      asIsize target = -1 → (t (fdIndex taskId fd)).offset = target
  | _ => True

end FdOp

structure Call where
  taskId : ℕ
  op : FdOp
  answer : Option ℕ

def Step (t : Table) (c : Call) (t' : Table) : Prop :=
  c.taskId < maxTasks ∧ c.op.Indexed ∧ c.op.Proper t c.taskId ∧
    c.op.exec t c.taskId = (c.answer,t')

/-- Everything a call may do to the table. -/
structure Effect (t : Table) (c : Call) (t' : Table) : Prop where
  one : ∃ fd < maxFds, ∀ i, i ≠ fdIndex c.taskId fd → t' i = t i
  others : ∀ j ≠ c.taskId, (∀ fd, node t' j fd = node t j fd ∧ offset t' j fd = offset t j fd) ∧
    openCount t' j = openCount t j
  failed : c.op.Fails t c.taskId → t' = t

/-- The answer is the smallest unused descriptor, and an error when there is none. -/
def Lowest (t : Table) (taskId : ℕ) (r : Except String ℕ) : Prop :=
  (∀ fd, r = .ok fd ↔ IsUnused t taskId fd ∧ ∀ b < fd, ¬IsUnused t taskId b) ∧
  ((∃ e, r = .error e) ↔ ∀ fd < maxFds, IsOpen t taskId fd)

def FdOp.Grants (t : Table) (taskId : ℕ) : FdOp → Prop
  | .openFd n => 0 < taskId → Lowest t taskId (FdTable.openFd t taskId n).1
  | .dup old => Lowest t taskId (FdTable.dup t taskId old).1
  | _ => True

/-- The call has given the task the descriptor. -/
def Call.Opens (taskId fd : ℕ) (c : Call) : Prop :=
  c.taskId = taskId ∧ c.op.obtains = true ∧ c.answer = some fd

/-- The descriptor was closed and has not been opened since. -/
def Closed (taskId fd : ℕ) : List Call → Prop
  | [] => False
  | c::h => (c.taskId = taskId ∧ c.op = .close fd ∧ c.answer = some fd) ∨
      (¬c.Opens taskId fd ∧ Closed taskId fd h)

/-- The call dup2 fd fd is the one that is not refused. -/
def IsError (t : Table) (taskId fd : ℕ) : Prop :=
  node t taskId fd = .error "bad file descriptor" ∧
    ∀ op : FdOp, op.Uses fd → op ≠ .dup2 fd fd → op.Fails t taskId

section
variable {t t' : Table} {taskId fd : ℕ}

theorem isUnused_or_isOpen (h : fd < maxFds) : IsUnused t taskId fd ∨ IsOpen t taskId fd := by
  cases he : (t (fdIndex taskId fd)).isFree with
  | true => exact .inl ⟨h,he⟩
  | false => exact .inr ⟨h,he⟩

theorem IsOpen.not_isUnused (h : IsOpen t taskId fd) : ¬IsUnused t taskId fd := by
  intro hu
  rw [IsUnused, h.2] at hu
  cases hu.2

theorem lowestFree_none (h : lowestFree t taskId = none) : ∀ fd < maxFds, IsOpen t taskId fd := by
  intro fd hfd
  have hne := List.find?_eq_none.mp h fd (List.mem_range.mpr hfd)
  exact ⟨hfd,Bool.eq_false_iff.mpr hne⟩

theorem lowestFree_least (h : lowestFree t taskId = some fd) : ∀ b < fd, ¬IsUnused t taskId b := by
  intro b hb hu
  obtain ⟨-,n,hn,hget,hbefore⟩ := List.find?_eq_some_iff_getElem.mp h
  rw [List.getElem_range] at hget
  subst hget
  have hused := hbefore b hb
  rw [List.getElem_range, hu.2] at hused
  cases hused

theorem lowest_some (h : lowestFree t taskId = some fd) : Lowest t taskId (.ok fd) := by
  have hfree : IsUnused t taskId fd := lowestFree_some h
  constructor
  · intro a
    constructor
    · intro ha
      cases ha
      exact ⟨hfree,lowestFree_least h⟩
    · intro ⟨ha,hleast⟩
      -- two smallest unused descriptors are the same
      have hfa : ¬fd < a := fun hlt => hleast fd hlt hfree
      have haf : ¬a < fd := fun hlt => lowestFree_least h a hlt ha
      rw [show a = fd by omega]
  · constructor
    · intro ⟨_,he⟩
      cases he
    · intro hall
      exact ((hall fd hfree.1).not_isUnused hfree).elim

theorem lowest_none (e : String) (h : lowestFree t taskId = none) : Lowest t taskId (.error e) := by
  have hall := lowestFree_none h
  constructor
  · intro a
    constructor
    · intro ha
      cases ha
    · intro ⟨ha,_⟩
      exact ((hall a ha.1).not_isUnused ha).elim
  · exact ⟨fun _ => hall,fun _ => ⟨e,rfl⟩⟩

theorem openFd_lowest (n : ℕ) (h : 0 < taskId) : Lowest t taskId (openFd t taskId n).1 := by
  unfold openFd
  rw [if_neg h.ne']
  cases hl : lowestFree t taskId with
  | none => exact lowest_none _ hl
  | some fd => exact lowest_some hl

theorem dup_lowest {old : ℕ} (h : IsOpen t taskId old) : Lowest t taskId (dup t taskId old).1 := by
  unfold dup
  rw [if_neg h.1.not_ge, h.2, if_neg Bool.false_ne_true]
  cases hl : lowestFree t taskId with
  | none => exact lowest_none _ hl
  | some fd => exact lowest_some hl

theorem Writes.one {held : Finset ℕ → Finset ℕ} (h : Writes t taskId held t') :
    ∃ fd < maxFds, ∀ i, i ≠ fdIndex taskId fd → t' i = t i := by
  cases h with
  | nothing _ => exact ⟨0,by decide,fun _ _ => rfl⟩
  | keep hfd _ _ => exact ⟨_,hfd,fun _ hi => Function.update_of_ne hi _ _⟩
  | close hfd _ _ => exact ⟨_,hfd,fun _ hi => Function.update_of_ne hi _ _⟩
  | grant hfd _ _ => exact ⟨_,hfd,fun _ hi => Function.update_of_ne hi _ _⟩

theorem queries_congr (h : ∀ fd < maxFds, t' (fdIndex taskId fd) = t (fdIndex taskId fd)) :
    (∀ fd, node t' taskId fd = node t taskId fd ∧ offset t' taskId fd = offset t taskId fd) ∧
    openCount t' taskId = openCount t taskId := by
  constructor
  · intro fd
    unfold node offset
    by_cases hfd : fd < maxFds
    · rw [h fd hfd]
      exact ⟨rfl,rfl⟩
    · have hge : fd ≥ maxFds := not_lt.mp hfd
      simp only [if_pos hge]
      exact ⟨trivial,trivial⟩
  · apply List.countP_congr
    intro fd hfd
    rw [h fd (List.mem_range.mp hfd)]

theorem lseek_failed {off whence size : ℕ}
    (hp : (FdOp.lseek fd off whence size).Proper t taskId)
    (h : (lseek t taskId fd off whence size).1 = -1) :
    (lseek t taskId fd off whence size).2 = t := by
  have hmove : ∀ target, seekTarget (t (fdIndex taskId fd)) off size whence = some target →
      asIsize target = -1 → Function.update t (fdIndex taskId fd)
        {t (fdIndex taskId fd) with offset := target} = t := by
    intro target ht hans
    rw [← hp target ht hans]
    exact Function.update_eq_self _ t
  unfold lseek at h ⊢
  split_ifs at h ⊢ with hfd
  · rfl
  · dsimp only at h ⊢
    split_ifs at h ⊢ with hfree
    · rfl
    · match whence with
      | 0 => exact hmove _ rfl h
      | 1 => exact hmove _ rfl h
      | 2 => exact hmove _ rfl h
      | _+3 => rfl

theorem FdOp.exec_failed {op : FdOp} (hp : op.Proper t taskId) (h : op.Fails t taskId) :
    (op.exec t taskId).2 = t := by
  cases op with
  | openFd n =>
    obtain ⟨e,he⟩ := h
    unfold exec
    dsimp only
    unfold FdTable.openFd at he ⊢
    split_ifs at he ⊢
    · rfl
    · cases hl : lowestFree t taskId with
      | none => rfl
      | some fd =>
        rw [hl] at he
        cases he
  | close fd =>
    obtain ⟨e,he⟩ := h
    unfold exec
    dsimp only
    unfold FdTable.close at he ⊢
    split_ifs at he ⊢
    · rfl
    · rfl
  | setOffset _ _ => exact h.elim
  | dup old =>
    obtain ⟨e,he⟩ := h
    unfold exec
    dsimp only
    unfold FdTable.dup at he ⊢
    split_ifs at he ⊢
    · rfl
    · rfl
    · cases hl : lowestFree t taskId with
      | none => rfl
      | some fd =>
        rw [hl] at he
        cases he
  | dup2 old new =>
    obtain ⟨e,he⟩ := h
    unfold exec
    dsimp only
    unfold FdTable.dup2 at he ⊢
    split_ifs at he ⊢
    · rfl
    · rfl
  | lseek fd off whence size => exact lseek_failed hp h

theorem Step.effect {c : Call} (h : Step t c t') : Effect t c t' := by
  obtain ⟨-,-,hp,he⟩ := h
  have hw := c.op.exec_writes t c.taskId
  rw [he] at hw
  constructor
  · exact hw.one
  · intro j hj
    exact queries_congr fun fd hfd => hw.other hj hfd
  · intro hf
    have hsame := FdOp.exec_failed hp hf
    rw [he] at hsame
    exact hsame

theorem Step.grants {c : Call} (h : Step t c t') : c.op.Grants t c.taskId := by
  obtain ⟨-,-,hp,-⟩ := h
  cases hop : c.op with
  | openFd n => exact openFd_lowest n
  | dup old =>
    rw [hop] at hp
    exact dup_lowest hp
  | close _ | setOffset _ _ | dup2 _ _ | lseek _ _ _ _ => exact trivial

theorem IsUnused.isError (h : IsUnused t taskId fd) : IsError t taskId fd := by
  have hfd : ¬fd ≥ maxFds := Nat.not_le_of_lt h.1
  constructor
  · unfold node
    rw [if_neg hfd, if_pos h.2]
  · intro op huse hne
    cases op with
    | openFd _ | setOffset _ _ => exact huse.elim
    | close a =>
      obtain rfl : a = fd := huse
      simp only [FdOp.Fails]
      unfold FdTable.close
      rw [if_neg hfd, if_pos h.2]
      exact ⟨_,rfl⟩
    | dup a =>
      obtain rfl : a = fd := huse
      simp only [FdOp.Fails]
      unfold FdTable.dup
      rw [if_neg hfd, if_pos h.2]
      exact ⟨_,rfl⟩
    | dup2 a b =>
      obtain rfl : a = fd := huse
      have hab : ¬a = b := fun hab => hne (by rw [hab])
      simp only [FdOp.Fails]
      unfold FdTable.dup2
      by_cases hb : a ≥ maxFds ∨ b ≥ maxFds
      · rw [if_pos hb]
        exact ⟨_,rfl⟩
      · rw [if_neg hb, if_neg hab, if_pos h.2]
        exact ⟨_,rfl⟩
    | lseek a off whence size =>
      obtain rfl : a = fd := huse
      simp only [FdOp.Fails]
      unfold FdTable.lseek
      rw [if_neg hfd]
      dsimp only
      rw [if_pos h.2]

theorem close_answered {answer : Option ℕ} (h : (FdOp.close fd).exec t taskId = (answer,t'))
    (ha : answer = some fd) : IsUnused t' taskId fd := by
  obtain ⟨h₁,h₂⟩ := Prod.mk.inj h
  subst h₁ h₂
  unfold FdTable.close at ha ⊢
  split_ifs at ha ⊢ with hfd
  · cases ha
  · cases ha
  · have hlt := not_le.mp hfd
    refine ⟨hlt,?_⟩
    dsimp only
    rw [Function.update_self]
    rfl

theorem FdOp.mem_held {op : FdOp} {fds : Finset ℕ} {answer : Option ℕ}
    (h : fd ∈ op.held fds answer) (hn : fd ∉ fds) : op.obtains = true ∧ answer = some fd := by
  have hinsert : ∀ a, fd ∈ insert a fds → some a = some fd := by
    intro a ha
    rw [Finset.mem_insert, or_iff_left hn] at ha
    rw [ha]
  cases answer with
  | none => cases op <;> exact absurd h hn
  | some a =>
    cases op with
    | openFd n =>
      simp only [held] at h
      split_ifs at h
      · exact absurd h hn
      · exact ⟨rfl,hinsert a h⟩
    | dup old => exact ⟨rfl,hinsert a h⟩
    | dup2 old new =>
      simp only [held] at h
      split_ifs at h
      · exact absurd h hn
      · exact ⟨rfl,hinsert a h⟩
    | close b => exact absurd (Finset.mem_of_mem_erase h) hn
    | setOffset _ _ | lseek _ _ _ _ => exact absurd h hn

theorem held_open (t : Table) (taskId : ℕ) : Held t taskId
    ((Finset.range maxFds).filter fun fd => (t (fdIndex taskId fd)).isFree = false) := by
  intro fd
  rw [Finset.mem_filter, Finset.mem_range]

theorem Step.keeps_unused {c : Call} (h : Step t c t') (hu : IsUnused t taskId fd)
    (hn : ¬c.Opens taskId fd) : IsUnused t' taskId fd := by
  obtain ⟨-,-,hp,he⟩ := h
  have hw := c.op.exec_writes t c.taskId
  rw [he] at hw
  by_cases htask : taskId = c.taskId
  · subst htask
    have hheld := held_open t c.taskId
    refine (isUnused_or_isOpen hu.1).resolve_right fun hopen => hn ⟨rfl,?_⟩
    apply FdOp.mem_held (((hheld.writes hw) fd).mpr hopen)
    intro hmem
    exact IsOpen.not_isUnused ((hheld fd).mp hmem) hu
  · refine ⟨hu.1,?_⟩
    have hsame : t' (fdIndex taskId fd) = t (fdIndex taskId fd) := hw.other htask hu.1
    rw [hsame, hu.2]

theorem Closed.isUnused {h : List Call} (r : Run Step emptyTable h t) (hc : Closed taskId fd h) :
    IsUnused t taskId fd := by
  revert hc
  refine r.invariant (P := fun h t => Closed taskId fd h → IsUnused t taskId fd) ?_ ?_
  · intro hc
    exact hc.elim
  · intro h t c t' ih hs hc
    rcases hc with ⟨htask,hop,hans⟩ | ⟨hn,hc⟩
    · have he := hs.2.2.2
      rw [htask, hop] at he
      exact close_answered he hans
    · exact hs.keeps_unused (ih hc) hn

/-- One shared array serves as one descriptor table for each task. -/
theorem descriptor_tables_independent {h : List Call} (r : Run Step emptyTable h t) :
    (∀ c t', Step t c t' → Effect t c t' ∧ c.op.Grants t c.taskId) ∧
    ∀ taskId fd, Closed taskId fd h → IsError t taskId fd := by
  constructor
  · intro c t' hs
    exact ⟨hs.effect,hs.grants⟩
  · intro taskId fd hc
    exact (Closed.isUnused r hc).isError

theorem open_close_run : Run Step emptyTable [⟨1,.close 0,some 0⟩,⟨1,.openFd 5,some 0⟩]
    (Function.update (Function.update emptyTable 32 ⟨5#32,0⟩) 32 .empty) := by
  have hopen : Step emptyTable ⟨1,.openFd 5,some 0⟩ (Function.update emptyTable 32 ⟨5#32,0⟩) :=
    ⟨by decide,show 5 < 2^31 by decide,trivial,rfl⟩
  exact .next (.next .start hopen) ⟨by decide,trivial,trivial,rfl⟩

theorem closed_descriptor_is_error : ∃ h t, Run Step emptyTable h t ∧ Closed 1 0 h ∧
    IsError t 1 0 ∧ Lowest t 1 (openFd t 1 7).1 := by
  refine ⟨_,_,open_close_run,.inl ⟨rfl,rfl,rfl⟩,?_,?_⟩
  · exact (descriptor_tables_independent open_close_run).2 1 0 (.inl ⟨rfl,rfl,rfl⟩)
  · exact ((descriptor_tables_independent open_close_run).1 ⟨1,.openFd 7,some 0⟩ _
      ⟨by decide,show 7 < 2^31 by decide,trivial,rfl⟩).2 (by decide)

/-- A closed descriptor can be duplicated to itself, a seek that answers -1 moves, and a
dup fails although no descriptor is in use. -/
theorem descriptor_exceptions :
    (∃ t t', openFd emptyTable 1 5 = (.ok 0,t) ∧ close t 1 0 = (.ok (),t') ∧
      dup2 t' 1 0 0 = (.ok 0,t')) ∧
    (∃ t t', openFd emptyTable 1 5 = (.ok 0,t) ∧ lseek t 1 0 (2^64-1) 0 0 = (-1,t') ∧
      offset t 1 0 = 0 ∧ offset t' 1 0 = 2^64-1) ∧
    (dup emptyTable 1 0).1 = .error "bad file descriptor" := by
  refine ⟨⟨_,_,rfl,rfl,rfl⟩,⟨_,_,rfl,rfl,rfl,rfl⟩,rfl⟩

end

end Zohara.FdTable
