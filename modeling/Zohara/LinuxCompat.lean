import Zohara.FrameOwnership
import Zohara.UserMemory

/-!
# The Linux system calls (src/linux_compat.rs)

Every handler is modelled with the accesses it makes through the pointers that it is
given. The checked helpers of src/usercopy.rs test every page first; getcwd, clock_gettime,
the two sleeps and capget use the pointer as it is. A raw access is made in kernel mode
under the caller's tables: it needs a canonical address and a present page, and the user bit
does not matter. An access that faults reads and writes nothing and ends the call.

The file system is a parameter: its answers and its state are arbitrary, it answers a read
with at most as many bytes as asked for, and it may stop the kernel. The same holds for the
program loader of execve, which gives the address and the bytes of the file or an error
code. Messages on the console and the statistics are left out; `serial` is what write_serial
has been given. A call that sleeps is modelled up to the point where the task is asleep.
-/
namespace Zohara.LinuxCompat
open ByteMemory FrameAllocator FrameRefinement PageTables TableHeap KernelRuns List Option Function
  UserTables SegmentPages Teardown Isolation Mmu UserCopy UserMemory ElfImage Tasks Process Execve

def enoent : Int := -2
def ebadf : Int := -9
def enomem : Int := -12
def eio : Int := -5
def einval : Int := -22
def enosys : Int := -38

structure FileSystem (ν : Type) where
  readFileByNode : ν → (nodeIdx offset len : ℕ) → Except String (List UInt8)
  writeFileByNode : ν → (nodeIdx offset : ℕ) → List UInt8 → Option (Except String ℕ × ν)
  resolvePathIdx : ν → List UInt8 → Option ℕ
  createDir : ν → List UInt8 → Option (Except String ℕ × ν)
  nodeSize : ν → ℕ → ℕ
  loadProgram : ν → List UInt8 → Except Int (ℕ × List UInt8)
  read_le : ∀ v i off len bytes, readFileByNode v i off len = .ok bytes → bytes.length ≤ len

structure State (ν : Type) where
  sys : System
  fds : FdTable.Table
  vfs : ν
  serial : List UInt8

inductive Answer where
  | ret (value : Int)
  | exited
  | panic
  | fault (addr : ℕ)
  | hang

/-- What a call has done; `accessed` are the ranges it has read or written through
pointers of the caller. -/
structure Result (ν : Type) where
  answer : Answer
  state : State ν
  accessed : List (ℕ × ℕ)

/-! ## Raw accesses -/

/-- The processor completes an access in kernel mode. -/
def complete (m : Machine) (root a n : ℕ) : Bool :=
  (List.range n).all fun i => reachable m root ((a+i)%2^64)

def storeBytes (root : ℕ) (m : Machine) (a : ℕ) (bs : List UInt8) : Machine :=
  (List.range bs.length).foldl (fun m i => storeVirt root m ((a+i)%2^64) (bs.getD i 0)) m

def loadBytes (m : Machine) (root a n : ℕ) : List UInt8 :=
  (List.range n).map fun i => (readVirt m root ((a+i)%2^64)).getD 0

structure Raw where
  fault : Option ℕ
  machine : Machine
  accessed : List (ℕ × ℕ)

/-- Stores one after the other, up to the first that faults. -/
def storeAll (root : ℕ) : List (ℕ × List UInt8) → Machine → Raw
  | [],m => ⟨none,m,[]⟩
  | (a,bs)::rest,m =>
    if complete m root a bs.length then
      let r := storeAll root rest (storeBytes root m a bs)
      {r with accessed := (a,bs.length)::r.accessed}
    else ⟨some a,m,[]⟩

/-- Loads one after the other, up to the first that faults. -/
def loadAll (m : Machine) (root : ℕ) : List (ℕ × ℕ) → Option ℕ × List (ℕ × ℕ)
  | [] => (none,[])
  | (a,n)::rest =>
    if complete m root a n then
      let r := loadAll m root rest
      (r.1,(a,n)::r.2)
    else (some a,[])

section
variable {ν : Type} (fs : FileSystem ν) (s : State ν)

/-- current_page_table_root. -/
def State.root : ℕ := (s.sys.tasks s.sys.current).pageTableRoot

def State.ret (v : Int) : Result ν := ⟨.ret v,s,[]⟩

def State.setMachine (m : Machine) : State ν := {s with sys := {s.sys with machine := m}}

/-- A handler that only stores, and then answers. -/
def State.stores (plan : List (ℕ × List UInt8)) (v : Int) : Result ν :=
  let r := storeAll s.root plan s.sys.machine
  match r.fault with
  | some a => ⟨.fault a,s.setMachine r.machine,r.accessed⟩
  | none => ⟨.ret v,s.setMachine r.machine,r.accessed⟩

/-- How a copy ends the call, when it does. -/
def stopped : Outcome → Option Answer
  | .ok _ => none
  | .err code => some (.ret code)
  | .panic => some .panic
  | .fault a => some (.fault a)
  | .hang => some .hang

/-- syscall_write of src/syscall.rs. -/
def syscallWrite (buf len : ℕ) : Result ν :=
  if len > 256 then s.ret (-1) else
  if s.sys.current = 0 then
    let r := loadAll s.sys.machine s.root [(buf,len)]
    match r.1 with
    | some a => ⟨.fault a,s,r.2⟩
    | none => ⟨.ret len,{s with serial := s.serial++loadBytes s.sys.machine s.root buf len},r.2⟩
  else
    let c := copyFromUser s.sys.machine s.root buf len fun _ => 0
    match stopped c.outcome with
    | some answer => ⟨answer,s,c.completed⟩
    | none => ⟨.ret len,{s with serial := s.serial++read c.state 0 len},c.completed⟩

/-- The descriptor goes where syscall_write takes the buffer, and the buffer where it takes
the length. -/
def sysRead (fd buf len : ℕ) : Result ν :=
  if fd = 1 ∨ fd = 2 then syscallWrite s fd buf else
  match FdTable.node s.fds s.sys.current fd with
  | .error _ => s.ret ebadf
  | .ok nodeIdx =>
    let offset := FdTable.offset s.fds s.sys.current fd
    match fs.readFileByNode s.vfs nodeIdx offset (min len 512) with
    | .error _ => s.ret eio
    | .ok bytes =>
      let n := bytes.length
      if n = 0 then s.ret 0 else
      let fds := FdTable.setOffset s.fds s.sys.current fd ((offset+n)%2^64)
      if s.sys.current = 0 then
        let r := s.stores [(buf,bytes)] n
        match r.answer with
        | .ret _ => {r with state := {r.state with fds := fds}}
        | _ => r
      else
        let c := copyToUser s.sys.machine s.root buf (fun i => bytes.getD i 0) n
        let s := s.setMachine c.state.1
        match c.outcome with
        | .ok _ => ⟨.ret n,{s with fds := fds},c.completed⟩
        | .err _ => ⟨.ret n,{s with fds := fds},c.completed⟩
        | .panic => ⟨.panic,s,c.completed⟩
        | .fault a => ⟨.fault a,s,c.completed⟩
        | .hang => ⟨.hang,s,c.completed⟩

/-- The second half of write: the bytes are in the kernel's buffer. -/
def writeNode (nodeIdx offset fd : ℕ) (bytes : List UInt8) (accessed : List (ℕ × ℕ)) : Result ν :=
  match fs.writeFileByNode s.vfs nodeIdx offset bytes with
  | none => ⟨.panic,s,accessed⟩
  | some (.error _,vfs) => ⟨.ret eio,{s with vfs := vfs},accessed⟩
  | some (.ok n,vfs) =>
    ⟨.ret n,{s with
      vfs := vfs
      fds := FdTable.setOffset s.fds s.sys.current fd ((offset+n)%2^64)},accessed⟩

def sysWrite (fd buf len : ℕ) : Result ν :=
  if fd = 1 ∨ fd = 2 then syscallWrite s fd buf else
  match FdTable.node s.fds s.sys.current fd with
  | .error _ => s.ret ebadf
  | .ok nodeIdx =>
    let offset := FdTable.offset s.fds s.sys.current fd
    let toWrite := min len 512
    if s.sys.current = 0 then
      let r := loadAll s.sys.machine s.root [(buf,toWrite)]
      match r.1 with
      | some a => ⟨.fault a,s,r.2⟩
      | none =>
        writeNode fs s nodeIdx offset fd (loadBytes s.sys.machine s.root buf toWrite) r.2
    else
      let c := copyFromUser s.sys.machine s.root buf toWrite fun _ => 0
      match stopped c.outcome with
      | some answer => ⟨answer,s,c.completed⟩
      | none => writeNode fs s nodeIdx offset fd (read c.state 0 toWrite) c.completed

def sysClose (fd : ℕ) : Result ν :=
  match FdTable.close s.fds s.sys.current fd with
  | (.ok _,fds) => {s with fds := fds}.ret 0
  | (.error _,fds) => {s with fds := fds}.ret ebadf

def sysExit (code : Int) : Result ν :=
  match s.sys.exitCurrentTask with
  | (some _,sys) => {s with sys := sys}.ret code
  | (none,sys) => ⟨.exited,{s with sys := sys},[]⟩

/-- The stores of getcwd: zeros over the whole buffer, then a slash. -/
def getcwdStores (buf size : ℕ) : List (ℕ × List UInt8) :=
  if buf ≠ 0 ∧ 2 ≤ size then
    (List.range size).map (fun i => ((buf+i)%2^64,[0]))++[(buf,[0x2F])]
  else []

def sysGetcwd (buf size : ℕ) : Result ν := s.stores (getcwdStores buf size) 1

/-- uptime_ms. -/
def uptimeMs (sys : System) : ℕ := sys.ticks*System.msPerTick%2^64

def timespecStores (tp ms : ℕ) : List (ℕ × List UInt8) :=
  [(tp,toLe 8 (ms/1000)),((tp+8)%2^64,toLe 8 (ms%1000*1000000))]

def sysClockGettime (tp : ℕ) : Result ν :=
  if tp = 0 then s.ret einval else s.stores (timespecStores tp (uptimeMs s.sys)) 0

/-- The body of both sleeps. -/
def sleepFor (req : ℕ) : Result ν :=
  if req = 0 then s.ret 0 else
  let r := loadAll s.sys.machine s.root [(req,8),((req+8)%2^64,8)]
  match r.1 with
  | some a => ⟨.fault a,s,r.2⟩
  | none =>
    let tvSec := leNat (loadBytes s.sys.machine s.root req 8)
    let tvNsec := leNat (loadBytes s.sys.machine s.root ((req+8)%2^64) 8)
    let ms := (tvSec*1000+tvNsec/1000000)%2^64
    ⟨.ret 0,{s with sys := s.sys.sleepMs ms},r.2⟩

def sysClockNanosleep (req : ℕ) : Result ν := sleepFor s req

def sysNanosleep (req : ℕ) : Result ν := sleepFor s req

def sysGetuid : Result ν := s.ret (s.sys.tasks s.sys.current).userId

def capgetStores (hdrp datap : ℕ) : List (ℕ × List UInt8) :=
  if hdrp ≠ 0 then
    [(hdrp,toLe 4 0x20080522),((hdrp+4)%2^64,toLe 4 0)]++
      if datap ≠ 0 then [(datap,toLe 8 0),((datap+8)%2^64,toLe 8 0)] else []
  else []

def sysCapget (hdrp datap : ℕ) : Result ν := s.stores (capgetStores hdrp datap) 0

/-- A call that begins with a path. -/
def withPath (path : ℕ) (f : List UInt8 → List (ℕ × ℕ) → Result ν) : Result ν :=
  let c := copyFromUserCstr s.sys.machine s.root path 256
  match stopped c.outcome with
  | some answer => ⟨answer,s,c.completed⟩
  | none => f c.state c.completed

def sysOpenat (path : ℕ) : Result ν :=
  withPath s path fun pathStr accessed =>
    match fs.resolvePathIdx s.vfs pathStr with
    | none => ⟨.ret enoent,s,accessed⟩
    | some nodeIdx =>
      match FdTable.openFd s.fds s.sys.current nodeIdx with
      | (.ok fd,fds) => ⟨.ret fd,{s with fds := fds},accessed⟩
      | (.error _,fds) => ⟨.ret enomem,{s with fds := fds},accessed⟩

def sysMkdir (path : ℕ) : Result ν :=
  withPath s path fun pathStr accessed =>
    match fs.createDir s.vfs pathStr with
    | none => ⟨.panic,s,accessed⟩
    | some (.ok _,vfs) => ⟨.ret 0,{s with vfs := vfs},accessed⟩
    | some (.error _,vfs) => ⟨.ret (-1),{s with vfs := vfs},accessed⟩

def sysLseek (fd offset whence : ℕ) : Result ν :=
  let fileSize :=
    match FdTable.node s.fds s.sys.current fd with
    | .ok nodeIdx => fs.nodeSize s.vfs nodeIdx
    | .error _ => 0
  let r := FdTable.lseek s.fds s.sys.current fd offset whence fileSize
  {s with fds := r.2}.ret r.1

/-- The answer of dup and dup2. -/
def fdAnswer : Except String ℕ × FdTable.Table → Result ν
  | (.ok fd,fds) => {s with fds := fds}.ret fd
  | (.error _,fds) => {s with fds := fds}.ret (-1)

def sysDup (oldFd : ℕ) : Result ν := fdAnswer s (FdTable.dup s.fds s.sys.current oldFd)

def sysDup2 (oldFd newFd : ℕ) : Result ν :=
  fdAnswer s (FdTable.dup2 s.fds s.sys.current oldFd newFd)

/-- syscall_execve of src/syscall.rs, after the path has been copied. -/
def loadAndReplace (path : List UInt8) (accessed : List (ℕ × ℕ)) : Result ν :=
  match fs.loadProgram s.vfs path with
  | .error code => ⟨.ret code,s,accessed⟩
  | .ok (base,elf) =>
    match parseElf elf base with
    | none => ⟨.panic,s,accessed⟩
    | some (.error _) => ⟨.ret (-8),s,accessed⟩
    | some (.ok image) =>
      match replaceAddressSpace s.sys s.sys.current image elf with
      | none => ⟨.panic,s,accessed⟩
      | some (.ok _,sys) => ⟨.ret 0,{s with sys := sys},accessed⟩
      | some (.error _,sys) => ⟨.ret enomem,{s with sys := sys},accessed⟩

def sysExecve (pathPtr : ℕ) : Result ν :=
  if s.sys.current = 0 then
    let r := loadAll s.sys.machine s.root [(pathPtr,256)]
    match r.1 with
    | some a => ⟨.fault a,s,r.2⟩
    | none =>
      let path := (loadBytes s.sys.machine s.root pathPtr 256).takeWhile (· ≠ 0)
      if (ByteArray.mk path.toArray).validateUTF8 then loadAndReplace fs s path r.2
      else ⟨.ret (-8),s,r.2⟩
  else withPath s pathPtr (loadAndReplace fs s)

end

/-! ## Dispatch -/

inductive Syscall where
  | read
  | write
  | close
  | fstat
  | mmap
  | brk
  | getpid
  | execve
  | exit
  | getcwd
  | mkdir
  | getuid
  | capget
  | clockGettime
  | clockNanosleep
  | nanosleep
  | openat
  | noEntry
  | lseek
  | dup
  | dup2
  | unimplemented
  deriving DecidableEq

/-- The numbers of the match; those that the source answers with ENOSYS are not told from
unknown ones. -/
def decode : ℕ → Syscall
  | 0 => .read
  | 1 => .write
  | 3 => .close
  | 5 => .fstat
  | 9 => .mmap
  | 12 => .brk
  | 39 => .getpid
  | 59 => .execve
  | 60 => .exit
  | 79 => .getcwd
  | 83 => .mkdir
  | 102 => .getuid
  | 104 => .getuid
  | 107 => .getuid
  | 108 => .getuid
  | 125 => .capget
  | 228 => .clockGettime
  | 230 => .clockNanosleep
  | 231 => .nanosleep
  | 257 => .openat
  | 262 => .noEntry
  | 318 => .getuid
  | 319 => .getuid
  | 8 => .lseek
  | 32 => .dup
  | 33 => .dup2
  | 323 => .capget
  | _ => .unimplemented

/-- No handler looks at the last three arguments. -/
def dispatch {ν : Type} (fs : FileSystem ν) (s : State ν) (num arg0 arg1 arg2 : UInt64) :
    Result ν :=
  match decode num.toNat with
  | .read => sysRead fs s arg0.toNat arg1.toNat arg2.toNat
  | .write => sysWrite fs s arg0.toNat arg1.toNat arg2.toNat
  | .close => sysClose s arg0.toNat
  | .fstat => s.ret enoent
  | .mmap => s.ret enomem
  | .brk => s.ret 0x10000000
  | .getpid => s.ret s.sys.current
  | .execve => sysExecve fs s arg0.toNat
  | .exit => sysExit s (arg0.toUInt32.toBitVec).toInt
  | .getcwd => sysGetcwd s arg0.toNat arg1.toNat
  | .mkdir => sysMkdir fs s arg0.toNat
  | .getuid => sysGetuid s
  | .capget => sysCapget s arg0.toNat arg1.toNat
  | .clockGettime => sysClockGettime s arg1.toNat
  | .clockNanosleep => sysClockNanosleep s arg2.toNat
  | .nanosleep => sysNanosleep s arg0.toNat
  | .openat => sysOpenat fs s arg1.toNat
  | .noEntry => s.ret enoent
  | .lseek => sysLseek fs s arg0.toNat arg1.toNat arg2.toNat
  | .dup => sysDup s arg0.toNat
  | .dup2 => sysDup2 s arg0.toNat arg1.toNat
  | .unimplemented => s.ret enosys

/-! ## Raw accesses and the page test -/

section
variable {m m' : Machine} {root : ℕ}

theorem complete_iff {a n : ℕ} :
    complete m root a n = true ↔ ∀ i < n, reachable m root ((a+i)%2^64) = true := by
  unfold complete
  rw [List.all_eq_true]
  exact forall_congr' fun i => by rw [mem_range]

end

/-! ## Handlers -/

section
variable {ν : Type} {fs : FileSystem ν} {s : State ν}

end

/-! ## Every call -/

section
variable {ν : Type} {fs : FileSystem ν} {s : State ν}

end

/-! ## A task on a booted kernel -/

def noFiles : FileSystem Unit :=
  ⟨fun _ _ _ _ => .error "not found",fun v _ _ _ => some (.error "not found",v),fun _ _ => none,
    fun v _ => some (.error "not found",v),fun _ _ => 0,fun _ _ => .error enoent,
    fun _ _ _ _ _ h => by cases h⟩

/-- Task 1 runs on the tables at `root`. -/
def caller (m : Machine) (root : ℕ) : State Unit :=
  ⟨{(bootSystem m).setTask 1 (fun t => {t with state := .running, pageTableRoot := root}) with
    current := 1},FdTable.emptyTable,(),[]⟩

theorem caller_machine (m : Machine) (root : ℕ) : (caller m root).sys.machine = m := rfl

theorem caller_root (m : Machine) (root : ℕ) : (caller m root).root = root := by
  unfold State.root caller System.setTask
  dsimp only
  rw [update_self]

section
variable (m : Machine) (root : ℕ) {W : Set ℕ}

end

end Zohara.LinuxCompat
