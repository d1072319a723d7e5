import Zohara.CopyRanges
import Zohara.OpenFiles

/-!
# The native system calls (src/syscall.rs)

The dispatch table with all its handlers. They act on the state of the Linux calls, of which
they share syscall_write and syscall_execve. Names, argument counts and flags of the table are
only printed or not read at all, and left out with the statistics. The address of the version
text is a parameter. A call that sleeps or yields is modelled up to the point where the task
halts.

The Linux write hands its arguments on to syscall_write in other places than the native one.
-/
namespace Zohara.NativeSyscalls
open ByteMemory FrameAllocator PageTables Mmu Tasks UserCopy UserTransfer LinuxCompat
  OpenFiles KernelRuns UserTables

def eperm : Int := -13

inductive Handler where
  | write
  | exit
  | sleep
  | read
  | getpid
  | yieldNow
  | gettime
  | getuptime
  | version
  | kernelinfo
  | memoryinfo
  | taskinfo
  | debuglog
  | execve
  deriving DecidableEq

structure SyscallEntry where
  handler : Handler
  requiredUid : Option ℕ

def syscallTable : ℕ → Option SyscallEntry
  | 0 => some ⟨.write,none⟩
  | 1 => some ⟨.exit,none⟩
  | 2 => some ⟨.sleep,none⟩
  | 3 => some ⟨.read,none⟩
  | 4 => some ⟨.getpid,none⟩
  | 5 => some ⟨.yieldNow,none⟩
  | 6 => some ⟨.gettime,none⟩
  | 7 => some ⟨.getuptime,none⟩
  | 8 => some ⟨.version,none⟩
  | 9 => some ⟨.kernelinfo,none⟩
  | 10 => some ⟨.memoryinfo,none⟩
  | 11 => some ⟨.taskinfo,none⟩
  | 12 => some ⟨.debuglog,some 0⟩
  | 13 => some ⟨.execve,none⟩
  | _ => none

section
variable {ν : Type} (fs : FileSystem ν) (s : State ν)

def syscallExit : Result ν :=
  match s.sys.exitCurrentTask with
  | (some v,sys) => {s with sys := sys}.ret v
  | (none,sys) => ⟨.exited,{s with sys := sys},[]⟩

def syscallSleep (durationMs : ℕ) : Result ν := {s with sys := s.sys.sleepMs durationMs}.ret 0

def syscallYield : Result ν := {s with sys := s.sys.yieldNow}.ret 0

/-- Three words, one after the other. -/
def words (a b c : ℕ) : List UInt8 := toLe 8 a++toLe 8 b++toLe 8 c

def syscallMemoryinfo (buf : ℕ) : Result ν :=
  if s.sys.current = 0 then
    let total := s.sys.machine.frames.totalRam/frameSize
    let free := freeFrameCount s.sys.machine.frames
    s.stores [(buf,words total free ((total+2^64-free)%2^64))] 0
  else s.ret efault

def stateValue : TaskState → ℕ
  | .unused => 0
  | .ready => 1
  | .running => 2
  | .sleeping => 3

def syscallTaskinfo (pid buf : ℕ) : Result ν :=
  if pid ≥ maxTasks then s.ret einval else
  if s.sys.current = 0 then
    s.stores [(buf,words pid (stateValue (s.sys.tasks pid).state) (s.sys.tasks pid).userId)] 0
  else s.ret efault

/-- Behind its own length check the body is that of syscall_write. -/
def syscallDebuglog (buf len : ℕ) : Result ν :=
  if len > 256 then s.ret einval else syscallWrite s buf len

def Handler.run (versionText arg0 arg1 : ℕ) : Handler → Result ν
  | .write => syscallWrite s arg0 arg1
  | .exit => syscallExit s
  | .sleep => syscallSleep s arg0
  | .read => s.ret 0
  | .getpid => s.ret s.sys.current
  | .yieldNow => syscallYield s
  | .gettime => s.ret (FdTable.asIsize (uptimeMs s.sys))
  | .getuptime => s.ret (FdTable.asIsize s.sys.ticks)
  | .version => s.ret (FdTable.asIsize versionText)
  | .kernelinfo => s.ret 0x100000007
  | .memoryinfo => syscallMemoryinfo s arg0
  | .taskinfo => syscallTaskinfo s arg0 arg1
  | .debuglog => syscallDebuglog s arg0 arg1
  | .execve => sysExecve fs s arg0

/-- No handler looks at the third argument. -/
def dispatch (versionText : ℕ) (num arg0 arg1 : UInt64) : Result ν :=
  if num.toNat ≥ 256 then s.ret enosys else
  match syscallTable num.toNat with
  | none => s.ret enosys
  | some entry =>
    if entry.requiredUid.all (· = (s.sys.tasks s.sys.current).userId) then
      entry.handler.run fs s versionText arg0.toNat arg1.toNat
    else s.ret eperm

end

/-! ## Writing to the serial line -/

section
variable {ν : Type} (s : State ν)

/-- The value of a call that returns. -/
def returned : Answer → Option Int
  | .ret v => some v
  | _ => none

/-- Two calls on the same state give the same value and the same serial output. -/
def Agree (r r' : Result ν) : Prop :=
  returned r.answer = returned r'.answer ∧ r.state.serial = r'.state.serial

/-- The caller can write from the first page: the kernel's task if the page is there, any other
task if the page test lets it pass. -/
def firstPage : Bool :=
  if s.sys.current = 0 then reachable s.sys.machine s.root 0 else isUserMapped s.sys.machine s.root 0

theorem reachable_page {m : Machine} {root a b : ℕ} (h : a/4096 = b/4096) :
    reachable m root a = reachable m root b := by
  obtain ⟨h1,h2,h3,h4⟩ := idx_page h
  have hc : Canonical a ↔ Canonical b := ⟨canonical_page h,canonical_page h.symm⟩
  unfold reachable Mmu.translate
  simp only [h1, h2, h3, h4, hc]
  split_ifs <;> rfl

section
variable {σ : Type} {mapped reach : σ → ℕ → Bool} {move : σ → ℕ → ℕ → Option σ} {len fin n a : ℕ}
  {w : σ} {touched : List (ℕ × ℕ)}

theorem turns_pos : 0 < turns := by
  unfold turns
  omega

theorem copyChunks_first (hn : 0 < n) (hlt : a < fin) (hm : mapped w a = false) :
    (copyChunks mapped reach move len fin n a w touched).outcome = .err efault := by
  cases n with
  | zero => exact absurd hn (Nat.lt_irrefl 0)
  | succ n =>
    rw [copyChunks, if_pos hlt, hm]
    rfl

theorem copyChunks_err {code : Int}
    (h : (copyChunks mapped reach move len fin n a w touched).outcome = .err code) :
    code = efault := by
  induction n generalizing a w touched with
  | zero => cases h
  | succ n ih =>
    rw [copyChunks] at h
    dsimp only at h
    by_cases hlt : a < fin
    · rw [if_pos hlt] at h
      cases hm : mapped w a with
      | false =>
        rw [hm] at h
        exact (Outcome.err.inj h).symm
      | true =>
        simp only [hm, Bool.not_true, Bool.false_eq_true, if_false] at h
        split at h
        · cases h
        · split at h
          · exact ih h
          · cases h
    · rw [if_neg hlt] at h
      cases h

theorem copyFromUser_err {m : Machine} {root ptr : ℕ} {buf : Memory} {code : Int}
    (h : (copyFromUser m root ptr len buf).outcome = .err code) : code = efault := by
  unfold copyFromUser at h
  split at h
  · exact (Outcome.err.inj h).symm
  · split at h
    · exact nomatch h
    · split at h
      · exact (Outcome.err.inj h).symm
      · exact copyChunks_err h

end

theorem syscallWrite_accessible {a n : ℕ} (h0 : s.sys.current ≠ 0)
    (h : Accessible s.sys.machine s.root a n) (hn : n ≤ 256) :
    (syscallWrite s a n).answer = .ret n ∧
      (syscallWrite s a n).state.serial = s.serial++bytesAt s.sys.machine s.root a n := by
  have hmax : n ≤ maxUserCopy := by
    unfold maxUserCopy
    omega
  obtain ⟨ho,hread⟩ := copyFromUser_bytes h hmax
  unfold syscallWrite
  rw [if_neg hn.not_gt, if_neg h0]
  simp only [ho, stopped, hread, and_self]

theorem syscallWrite_low {a n : ℕ} (ha : a ≤ 256) (hn : n ≤ 256) :
    returned (syscallWrite s a n).answer =
      (if n = 0 ∨ firstPage s = true then some (n : Int)
        else if s.sys.current = 0 then none else some efault) ∧
    (syscallWrite s a n).state.serial = s.serial++
      (if firstPage s = true then bytesAt s.sys.machine s.root a n else []) := by
  have hpage : ∀ i < n, (a+i)/4096 = 0/4096 := by omega
  unfold firstPage
  by_cases h0 : s.sys.current = 0
  · have hcomplete : complete s.sys.machine s.root a n = true ↔
        n = 0 ∨ reachable s.sys.machine s.root 0 = true := by
      rw [complete_iff]
      constructor
      · intro h
        by_cases hz : n = 0
        · exact .inl hz
        · right
          have hfirst := h 0 (by omega)
          rwa [Nat.mod_eq_of_lt (by omega), reachable_page (hpage 0 (by omega))] at hfirst
      · rintro (rfl | h) i hi
        · cases hi
        · rw [Nat.mod_eq_of_lt (by omega), reachable_page (hpage i hi)]
          exact h
    have hload : loadBytes s.sys.machine s.root a n = bytesAt s.sys.machine s.root a n := by
      unfold loadBytes bytesAt
      apply List.map_congr_left
      intro i hi
      have hlt := List.mem_range.mp hi
      rw [Nat.mod_eq_of_lt (by omega)]
      rfl
    unfold syscallWrite
    rw [if_neg hn.not_gt]
    simp only [if_pos h0, loadAll]
    by_cases hc : complete s.sys.machine s.root a n = true
    · simp only [if_pos hc, if_pos (hcomplete.mp hc), hload, returned]
      rcases hcomplete.mp hc with rfl | hr
      · simp [bytesAt]
      · simp [hr]
    · have hno := fun h => hc (hcomplete.mpr h)
      have hr : ¬reachable s.sys.machine s.root 0 = true := fun h => hno (.inr h)
      simp only [if_neg hc, if_neg hno, if_neg hr, returned, List.append_nil, and_self]
  · simp only [if_neg h0]
    by_cases hz : n = 0
    · subst hz
      simp [syscallWrite, h0, copyFromUser, stopped, returned, ByteMemory.read, bytesAt, maxUserCopy]
    · by_cases hm : isUserMapped s.sys.machine s.root 0 = true
      · have hacc : Accessible s.sys.machine s.root a n :=
          ⟨by omega,fun i hi => (isUserMapped_page (hpage i hi)).trans hm⟩
        obtain ⟨hans,hser⟩ := syscallWrite_accessible s h0 hacc hn
        simp [hans, hser, returned, hm, h0]
      · have hfirst : isUserMapped s.sys.machine s.root a = false := by
          rw [isUserMapped_page (show a/4096 = 0/4096 by omega)]
          exact Bool.eq_false_iff.mpr hm
        have ho : (copyFromUser s.sys.machine s.root a n fun _ => 0).outcome = .err efault := by
          rw [copyFromUser_loop (by unfold maxUserCopy; omega) (by omega) (by omega)]
          exact copyChunks_first turns_pos (by omega) hfirst
        simp [syscallWrite, Nat.not_lt_of_le hn, h0, ho, stopped, returned, hm, hz]

theorem syscallWrite_ne {a n : ℕ} (hn : n ≤ 256) :
    returned (syscallWrite s a n).answer ≠ some (-1) := by
  have hcount : (n : Int) ≠ -1 := by omega
  unfold syscallWrite
  rw [if_neg (by omega)]
  by_cases h0 : s.sys.current = 0
  · simp only [if_pos h0]
    split
    · exact nofun
    · exact fun h => hcount (Option.some.inj h)
  · simp only [if_neg h0]
    cases ho : (copyFromUser s.sys.machine s.root a n fun _ => 0).outcome with
    | ok k => exact fun h => hcount (Option.some.inj h)
    | err code =>
      rw [copyFromUser_err ho]
      exact fun h => absurd (Option.some.inj h) (by decide)
    | panic | fault b | hang => exact nofun

theorem dispatch_write (fs : FileSystem ν) (versionText : ℕ) (buf len : UInt64) :
    dispatch fs s versionText 0 buf len = syscallWrite s buf.toNat len.toNat := rfl

theorem linux_write (fs : FileSystem ν) {fd : UInt64} (hfd : fd = 1 ∨ fd = 2) (buf len : UInt64) :
    LinuxCompat.dispatch fs s 1 fd buf len = syscallWrite s fd.toNat buf.toNat := by
  rcases hfd with rfl | rfl <;> rfl

theorem failing_agree {a n current : ℕ} :
    (if a = 0 then some (a : Int) else if current = 0 then none else some efault) =
      (if n = 0 then some (n : Int) else if current = 0 then none else some efault) ↔
      (a = 0 ↔ n = 0) := by
  have hneg : efault < 0 := by decide
  split_ifs <;> simp_all <;> omega

theorem bytesAt_inj {m : Machine} {root a b n : ℕ} :
    bytesAt m root a n = bytesAt m root b n ↔
      ∀ i < n, byteAt m root (a+i) = byteAt m root (b+i) := by
  unfold bytesAt
  rw [List.map_inj_left]
  simp only [List.mem_range]

/-- The two calls write the same only where the buffer address happens to be a length that
fits: in the first page, if it is usable, the address is the length and the bytes at the
descriptor's number are those of the buffer; if it is not, both calls fail or write nothing. -/
theorem console_write_agrees_iff (fs : FileSystem ν) (versionText : ℕ) {fd buf len : UInt64}
    (hfd : fd = 1 ∨ fd = 2) (hlen : len.toNat ≤ 256) :
    Agree (LinuxCompat.dispatch fs s 1 fd buf len) (dispatch fs s versionText 0 buf len) ↔
      buf.toNat ≤ 256 ∧
      if firstPage s = true then
        buf.toNat = len.toNat ∧ ∀ i < len.toNat,
          byteAt s.sys.machine s.root (fd.toNat+i) = byteAt s.sys.machine s.root (buf.toNat+i)
      else (buf.toNat = 0 ↔ len.toNat = 0) := by
  have hfd256 : fd.toNat ≤ 256 := by
    rcases hfd with rfl | rfl <;> decide
  rw [linux_write s fs hfd, dispatch_write]
  by_cases hbuf : buf.toNat ≤ 256
  · obtain ⟨hl,hls⟩ := syscallWrite_low s hfd256 hbuf
    obtain ⟨hn,hns⟩ := syscallWrite_low s hbuf hlen
    unfold Agree
    rw [hl, hls, hn, hns]
    simp only [hbuf, true_and, List.append_cancel_left_eq]
    by_cases hp : firstPage s = true
    · simp only [hp, or_true, if_true, Option.some.injEq, Nat.cast_inj]
      constructor
      · rintro ⟨heq,hbytes⟩
        rw [heq] at hbytes
        exact ⟨heq,bytesAt_inj.mp (heq ▸ hbytes)⟩
      · rintro ⟨heq,hbytes⟩
        refine ⟨heq,?_⟩
        rw [show bytesAt s.sys.machine s.root fd.toNat buf.toNat =
          bytesAt s.sys.machine s.root fd.toNat len.toNat by rw [heq]]
        exact bytesAt_inj.mpr hbytes
    · simp only [Bool.not_eq_true] at hp
      simp only [hp, Bool.false_eq_true, or_false, if_false, and_true]
      exact failing_agree
  · have hlinux : (syscallWrite s fd.toNat buf.toNat).answer = .ret (-1) := by
      unfold syscallWrite
      rw [if_pos (by omega)]
      rfl
    constructor
    · intro h
      rw [Agree, hlinux] at h
      exact absurd h.1.symm (syscallWrite_ne s hlen)
    · exact fun h => absurd h.1 hbuf

end

/-- Writing nothing from address 0 is such a case. -/
theorem console_write_agrees_nothing :
    Agree (LinuxCompat.dispatch noFiles (caller (bootMachine 0x900000 0x10000000) 0) 1 1 0 0)
      (dispatch noFiles (caller (bootMachine 0x900000 0x10000000) 0) 0 0 0 0) := by
  apply (console_write_agrees_iff _ noFiles 0 (.inl rfl) (by decide)).mpr
  refine ⟨by decide,?_⟩
  split
  · exact ⟨rfl,nofun⟩
  · exact Iff.rfl

/-- One byte from the code page of a task: the Linux call prints nothing and answers -1. -/
theorem console_write_differs : ∃ m root,
    (LinuxCompat.dispatch noFiles (caller m root) 1 1 0x400000 1).answer = .ret (-1) ∧
    (LinuxCompat.dispatch noFiles (caller m root) 1 1 0x400000 1).state.serial = [] ∧
    (dispatch noFiles (caller m root) 0 0 0x400000 1).answer = .ret 1 ∧
    (dispatch noFiles (caller m root) 0 0 0x400000 1).state.serial = [0x61] := by
  obtain ⟨m,root,-,hacc,ha,-⟩ := exists_path
  have hone : Accessible (caller m root).sys.machine (caller m root).root 0x400000 1 := by
    rw [caller_machine, caller_root]
    exact ⟨by decide,fun i hi => hacc.2 i (by omega)⟩
  obtain ⟨hans,hser⟩ := syscallWrite_accessible (caller m root) Nat.one_ne_zero hone (by decide)
  refine ⟨m,root,rfl,rfl,hans,hser.trans ?_⟩
  rw [caller_machine, caller_root]
  simp [bytesAt, byteAt, ha, caller]

end Zohara.NativeSyscalls
