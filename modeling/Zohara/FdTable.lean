import Mathlib.Data.Finset.Basic
import Mathlib.Tactic.Ring

/-!
# The file descriptor table (src/fd_table.rs)

One global array with MAX_FDS entries for each task, outside the task table. A
node index is stored as an i32, with -1 for an unused entry, so `open` with a
node index that truncates to -1 leaves the entry unused. File sizes come from
the VFS; `lseek` takes the size of the node as an argument. `dump` only prints
and is left out.

All operations name their entries by `fdIndex` with a descriptor below MAX_FDS,
and so never leave the part of the array that belongs to their task
(`Writes.other`).
-/
namespace Zohara.FdTable

def maxFds : ℕ := 32

structure FdEntry where
  nodeIdx : BitVec 32
  offset : ℕ
  deriving DecidableEq, Repr

namespace FdEntry

def empty : FdEntry := ⟨-1#32,0⟩

def isFree (e : FdEntry) : Bool := e.nodeIdx == -1#32

end FdEntry

abbrev Table : Type := ℕ → FdEntry

def emptyTable : Table := fun _ => .empty

def fdIndex (taskId fd : ℕ) : ℕ := taskId*maxFds+fd

/-- The lowest unused descriptor. -/
def lowestFree (t : Table) (taskId : ℕ) : Option ℕ :=
  (List.range maxFds).find? fun fd => (t (fdIndex taskId fd)).isFree

def openFd (t : Table) (taskId vfsNodeIdx : ℕ) : Except String ℕ × Table :=
  if taskId = 0 then (.error "kernel task cannot open fds",t) else
  match lowestFree t taskId with
  | some fd => (.ok fd,Function.update t (fdIndex taskId fd) ⟨BitVec.ofNat 32 vfsNodeIdx,0⟩)
  | none => (.error "too many open files",t)

def close (t : Table) (taskId fd : ℕ) : Except String Unit × Table :=
  if fd ≥ maxFds then (.error "bad file descriptor",t) else
  if (t (fdIndex taskId fd)).isFree then (.error "bad file descriptor",t)
  else (.ok (),Function.update t (fdIndex taskId fd) .empty)

/-- The stored i32 is sign-extended to a usize. -/
def node (t : Table) (taskId fd : ℕ) : Except String ℕ :=
  if fd ≥ maxFds then .error "bad file descriptor" else
  if (t (fdIndex taskId fd)).isFree then .error "bad file descriptor"
  else .ok ((t (fdIndex taskId fd)).nodeIdx.signExtend 64).toNat

def offset (t : Table) (taskId fd : ℕ) : ℕ :=
  if fd ≥ maxFds then 0 else (t (fdIndex taskId fd)).offset

def setOffset (t : Table) (taskId fd newOffset : ℕ) : Table :=
  if fd < maxFds then
    Function.update t (fdIndex taskId fd) {t (fdIndex taskId fd) with offset := newOffset}
  else t

def openCount (t : Table) (taskId : ℕ) : ℕ :=
  (List.range maxFds).countP fun fd => !(t (fdIndex taskId fd)).isFree

def dup (t : Table) (taskId oldFd : ℕ) : Except String ℕ × Table :=
  if oldFd ≥ maxFds then (.error "bad file descriptor",t) else
  if (t (fdIndex taskId oldFd)).isFree then (.error "bad file descriptor",t) else
  match lowestFree t taskId with
  | some fd => (.ok fd,Function.update t (fdIndex taskId fd) (t (fdIndex taskId oldFd)))
  | none => (.error "too many open files",t)

/-- Equal descriptors are answered before the old one is looked at. -/
def dup2 (t : Table) (taskId oldFd newFd : ℕ) : Except String ℕ × Table :=
  if oldFd ≥ maxFds ∨ newFd ≥ maxFds then (.error "bad file descriptor",t) else
  if oldFd = newFd then (.ok newFd,t) else
  if (t (fdIndex taskId oldFd)).isFree then (.error "bad file descriptor",t)
  else (.ok newFd,Function.update t (fdIndex taskId newFd) (t (fdIndex taskId oldFd)))

/-- A 64-bit pattern read as an isize. -/
def asIsize (n : ℕ) : Int := (BitVec.ofNat 64 n).toInt

def lseek (t : Table) (taskId fd offset whence fileSize : ℕ) : Int × Table :=
  if fd ≥ maxFds then (-1,t) else
  let e := t (fdIndex taskId fd)
  if e.isFree then (-1,t) else
  let move (newOffset : ℕ) : Int × Table :=
    (asIsize newOffset,Function.update t (fdIndex taskId fd) {e with offset := newOffset})
  match whence with
  | 0 => move offset
  | 1 => move ((e.offset+offset)%2^64)
  | 2 => move ((fileSize+offset)%2^64)
  | _ => (-1,t)

/-! ## The operations as one step of a task -/

inductive FdOp where
  | openFd (vfsNodeIdx : ℕ)
  | close (fd : ℕ)
  | setOffset (fd newOffset : ℕ)
  | dup (oldFd : ℕ)
  | dup2 (oldFd newFd : ℕ)
  | lseek (fd offset whence fileSize : ℕ)
  deriving DecidableEq, Repr

/-- The table after a call, and the descriptor of a successful one. -/
def FdOp.exec (t : Table) (taskId : ℕ) : FdOp → Option ℕ × Table
  | .openFd n => ((FdTable.openFd t taskId n).1.toOption,(FdTable.openFd t taskId n).2)
  | .close fd => ((FdTable.close t taskId fd).1.toOption.map fun _ => fd,(FdTable.close t taskId fd).2)
  | .setOffset fd off => (none,FdTable.setOffset t taskId fd off)
  | .dup fd => ((FdTable.dup t taskId fd).1.toOption,(FdTable.dup t taskId fd).2)
  | .dup2 old new => ((FdTable.dup2 t taskId old new).1.toOption,(FdTable.dup2 t taskId old new).2)
  | .lseek fd off whence size => (none,(FdTable.lseek t taskId fd off whence size).2)

/-- A call that may give the task a descriptor. -/
def FdOp.obtains : FdOp → Bool
  | .openFd _ | .dup _ | .dup2 _ _ => true
  | _ => false

/-- What a call with answer `fd` does to the set of open descriptors. -/
def FdOp.held (fds : Finset ℕ) : FdOp → Option ℕ → Finset ℕ
  | .openFd n,some fd => if BitVec.ofNat 32 n = -1#32 then fds else insert fd fds
  | .close _,some fd => fds.erase fd
  | .dup _,some fd => insert fd fds
  | .dup2 old new,some fd => if old = new then fds else insert fd fds
  | _,_ => fds

section
variable {t : Table} {taskId fd : ℕ}

theorem fdIndex_inj {i j a b : ℕ} (ha : a < maxFds) (hb : b < maxFds)
    (h : fdIndex i a = fdIndex j b) : i = j ∧ a = b := by
  unfold fdIndex maxFds at *
  omega

theorem isFree_iff (e : FdEntry) : e.isFree = true ↔ e.nodeIdx = -1#32 := by
  unfold FdEntry.isFree
  exact beq_iff_eq

theorem lowestFree_some (h : lowestFree t taskId = some fd) :
    fd < maxFds ∧ (t (fdIndex taskId fd)).isFree = true := by
  have hfree := List.find?_some (p := fun fd => (t (fdIndex taskId fd)).isFree) h
  exact ⟨List.mem_range.mp (List.mem_of_find?_eq_some h),hfree⟩

theorem asIsize_eq {n : ℕ} (hn : n < 2^64) :
    asIsize n = if n < 2^63 then (n : Int) else n-2^64 := by
  unfold asIsize
  rw [BitVec.toInt_eq_toNat_cond, BitVec.toNat_ofNat, Nat.mod_eq_of_lt hn]
  split_ifs <;> omega

theorem update_fdIndex {j : ℕ} {e : FdEntry} (hfd : fd < maxFds) {b : ℕ} (hb : b < maxFds) :
    Function.update t (fdIndex taskId fd) e (fdIndex j b) =
      if j = taskId ∧ b = fd then e else t (fdIndex j b) := by
  split_ifs with h
  · rw [h.1, h.2, Function.update_self]
  · rw [Function.update_of_ne fun he => h (fdIndex_inj hb hfd he)]

/-- Everything a call can do: nothing, or the write of one entry of its task, which
keeps, closes or opens a descriptor. -/
inductive Writes (t : Table) (taskId : ℕ) (held : Finset ℕ → Finset ℕ) : Table → Prop
  | nothing : (∀ fds, held fds = fds) → Writes t taskId held t
  | keep {fd : ℕ} {e : FdEntry} : fd < maxFds → e.isFree = (t (fdIndex taskId fd)).isFree →
      (∀ fds, held fds = fds) →
      Writes t taskId held (Function.update t (fdIndex taskId fd) e)
  | close {fd : ℕ} {e : FdEntry} : fd < maxFds → e.isFree = true →
      (∀ fds, held fds = fds.erase fd) →
      Writes t taskId held (Function.update t (fdIndex taskId fd) e)
  | grant {fd : ℕ} {e : FdEntry} : fd < maxFds → e.isFree = false →
      (∀ fds, held fds = insert fd fds) →
      Writes t taskId held (Function.update t (fdIndex taskId fd) e)

theorem openFd_writes (t : Table) (taskId n : ℕ) : Writes t taskId
    ((FdOp.openFd n).held · (openFd t taskId n).1.toOption) (openFd t taskId n).2 := by
  unfold openFd
  split_ifs
  · exact .nothing fun _ => rfl
  · cases h : lowestFree t taskId with
    | none => exact .nothing fun _ => rfl
    | some fd =>
      obtain ⟨hfd,hfree⟩ := lowestFree_some h
      by_cases hn : BitVec.ofNat 32 n = -1#32
      · refine .keep hfd ?_ fun _ => if_pos hn
        rw [hfree]
        exact (isFree_iff _).mpr hn
      · refine .grant hfd ?_ fun _ => if_neg hn
        exact Bool.eq_false_iff.mpr fun h => hn ((isFree_iff _).mp h)

theorem close_writes (t : Table) (taskId fd : ℕ) : Writes t taskId
    ((FdOp.close fd).held · ((close t taskId fd).1.toOption.map fun _ => fd))
    (close t taskId fd).2 := by
  unfold close
  split_ifs with hfd
  · exact .nothing fun _ => rfl
  · exact .nothing fun _ => rfl
  · exact .close (not_le.mp hfd) rfl fun _ => rfl

theorem dup_writes (t : Table) (taskId old : ℕ) : Writes t taskId
    ((FdOp.dup old).held · (dup t taskId old).1.toOption) (dup t taskId old).2 := by
  unfold dup
  split_ifs with _ hold
  · exact .nothing fun _ => rfl
  · exact .nothing fun _ => rfl
  · cases h : lowestFree t taskId with
    | none => exact .nothing fun _ => rfl
    | some fd =>
      exact .grant (lowestFree_some h).1 (Bool.eq_false_iff.mpr hold) fun _ => rfl

theorem dup2_writes (t : Table) (taskId old new : ℕ) : Writes t taskId
    ((FdOp.dup2 old new).held · (dup2 t taskId old new).1.toOption) (dup2 t taskId old new).2 := by
  unfold dup2
  split_ifs with hbad heq hold
  · exact .nothing fun _ => rfl
  · exact .nothing fun _ => if_pos heq
  · exact .nothing fun _ => rfl
  · exact .grant (Nat.lt_of_not_le fun h => hbad (.inr h)) (Bool.eq_false_iff.mpr hold)
      fun _ => if_neg heq

theorem lseek_writes (t : Table) (taskId fd off whence size : ℕ) : Writes t taskId
    ((FdOp.lseek fd off whence size).held · none) (lseek t taskId fd off whence size).2 := by
  unfold lseek
  split_ifs with hfd
  · exact .nothing fun _ => rfl
  · dsimp only
    split_ifs
    · exact .nothing fun _ => rfl
    · have hlt := not_le.mp hfd
      split
      · exact .keep hlt rfl fun _ => rfl
      · exact .keep hlt rfl fun _ => rfl
      · exact .keep hlt rfl fun _ => rfl
      · exact .nothing fun _ => rfl

theorem FdOp.exec_writes (op : FdOp) (t : Table) (taskId : ℕ) :
    Writes t taskId (op.held · (op.exec t taskId).1) (op.exec t taskId).2 := by
  cases op with
  | openFd n => exact openFd_writes t taskId n
  | close fd => exact close_writes t taskId fd
  | setOffset fd off =>
    by_cases hfd : fd < maxFds
    · have hw : Writes t taskId (fun fds => fds) (Function.update t (fdIndex taskId fd)
          {t (fdIndex taskId fd) with offset := off}) := .keep hfd rfl fun _ => rfl
      simp only [exec, FdTable.setOffset, if_pos hfd]
      exact hw
    · simp only [exec, FdTable.setOffset, if_neg hfd]
      exact .nothing fun _ => rfl
  | dup old => exact dup_writes t taskId old
  | dup2 old new => exact dup2_writes t taskId old new
  | lseek fd off whence size => exact lseek_writes t taskId fd off whence size

variable {held : Finset ℕ → Finset ℕ}

theorem Writes.other {t' : Table} (h : Writes t taskId held t')
    {j : ℕ} (hj : j ≠ taskId) (hfd : fd < maxFds) : t' (fdIndex j fd) = t (fdIndex j fd) := by
  have hne : ∀ b, ¬(j = taskId ∧ fd = b) := fun _ h => hj h.1
  cases h with
  | nothing _ => rfl
  | keep hb _ _ => rw [update_fdIndex hb hfd, if_neg (hne _)]
  | close hb _ _ => rw [update_fdIndex hb hfd, if_neg (hne _)]
  | grant hb _ _ => rw [update_fdIndex hb hfd, if_neg (hne _)]

/-- The open descriptors of a task. -/
def Held (t : Table) (taskId : ℕ) (fds : Finset ℕ) : Prop :=
  ∀ fd, fd ∈ fds ↔ fd < maxFds ∧ (t (fdIndex taskId fd)).isFree = false

theorem held_empty (taskId : ℕ) : Held emptyTable taskId ∅ := by
  intro fd
  refine ⟨fun h => absurd h (Finset.notMem_empty fd),fun h => ?_⟩
  cases h.2

variable {fds : Finset ℕ}

theorem Held.writes {t' : Table}
    (h : Held t taskId fds) (hw : Writes t taskId held t') : Held t' taskId (held fds) := by
  intro b
  cases hw with
  | nothing hheld =>
    rw [hheld]
    exact h b
  | @keep fd e hfd he hheld =>
    rw [hheld, h b]
    refine and_congr_right fun hb => ?_
    rw [update_fdIndex hfd hb]
    by_cases hbf : b = fd
    · rw [if_pos ⟨rfl,hbf⟩, hbf, he]
    · rw [if_neg fun h => hbf h.2]
  | @close fd e hfd he hheld =>
    rw [hheld, Finset.mem_erase, h b]
    constructor
    · rintro ⟨hbf,hb,hopen⟩
      rw [update_fdIndex hfd hb, if_neg fun h => hbf h.2]
      exact ⟨hb,hopen⟩
    · rintro ⟨hb,hopen⟩
      rw [update_fdIndex hfd hb] at hopen
      by_cases hbf : b = fd
      · rw [if_pos ⟨rfl,hbf⟩, he] at hopen
        cases hopen
      · rw [if_neg fun h => hbf h.2] at hopen
        exact ⟨hbf,hb,hopen⟩
  | @grant fd e hfd he hheld =>
    rw [hheld, Finset.mem_insert, h b]
    by_cases hbf : b = fd
    · subst hbf
      rw [update_fdIndex hfd hfd, if_pos ⟨rfl,rfl⟩]
      exact ⟨fun _ => ⟨hfd,he⟩,fun _ => .inl rfl⟩
    · rw [or_iff_right hbf]
      refine and_congr_right fun hb => ?_
      rw [update_fdIndex hfd hb, if_neg fun h => hbf h.2]

theorem Held.other {t' : Table} {j : ℕ}
    (h : Held t j fds) (hw : Writes t taskId held t') (hj : j ≠ taskId) : Held t' j fds := by
  intro b
  refine (h b).trans (and_congr_right fun hb => ?_)
  rw [hw.other hj hb]

/-- open_count and node see exactly the open descriptors. -/
theorem Held.none_open (h : Held t taskId fds) :
    (openCount t taskId = 0 ∧ ∀ fd, node t taskId fd = .error "bad file descriptor") ↔ fds = ∅ := by
  rw [Finset.eq_empty_iff_forall_notMem]
  constructor
  · rintro ⟨-,hnode⟩ fd hfd
    obtain ⟨hlt,hopen⟩ := (h fd).mp hfd
    have herr := hnode fd
    unfold node at herr
    rw [if_neg hlt.not_ge, hopen] at herr
    cases herr
  · intro hnone
    have hfree : ∀ fd < maxFds, (t (fdIndex taskId fd)).isFree = true := by
      intro fd hfd
      by_contra hopen
      exact hnone fd ((h fd).mpr ⟨hfd,Bool.eq_false_iff.mpr hopen⟩)
    refine ⟨List.countP_eq_zero.mpr fun fd hfd => ?_,fun fd => ?_⟩
    · rw [hfree fd (List.mem_range.mp hfd)]
      decide
    · unfold node
      by_cases hfd : fd ≥ maxFds
      · rw [if_pos hfd]
      · rw [if_neg hfd, if_pos (hfree fd (not_le.mp hfd))]

theorem FdOp.held_subset (op : FdOp) (h : op.obtains = false) (fds : Finset ℕ) (fd : Option ℕ) :
    op.held fds fd ⊆ fds := by
  cases op with
  | openFd _ | dup _ | dup2 _ _ => cases h
  | close c =>
    cases fd with
    | none => exact fun _ h => h
    | some fd => exact Finset.erase_subset fd fds
  | setOffset _ _ => cases fd <;> exact fun _ h => h
  | lseek _ _ _ _ => cases fd <;> exact fun _ h => h

end

end Zohara.FdTable
