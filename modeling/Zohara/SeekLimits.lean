import Zohara.FileContents

/-!
# Offsets of descriptors (src/fd_table.rs, src/linux_compat.rs, src/fs/mod.rs)

Runs of openat, lseek, read, write, dup and close on the in-memory tree, with any arguments.
Between two calls another task may run and user memory may change: every event brings its own
tasks, tables and memory, and only the descriptors and the tree are carried on. An event keeps
what it started from.

An offset and the length of a file should stay below 2^63, the largest isize. The failure of the
kernel heap is left out; a longer file could not be allocated.
-/
namespace Zohara.SeekLimits
open FdTable LinuxCompat OpenFiles Runs SparseWrites Vfs UserCopy FileContents

structure Files where
  fds : Table
  vfs : Vfs

inductive FileCall where
  | openat (path : UInt64)
  | lseek (fd offset whence : UInt64)
  | read (fd buf len : UInt64)
  | write (fd buf len : UInt64)
  | dup (oldFd : UInt64)
  | close (fd : UInt64)

section
variable (load : Vfs → List UInt8 → Except Int (ℕ × List UInt8)) (s : State Vfs)

def FileCall.run : FileCall → Result Vfs
  | .openat path => sysOpenat (vfsFiles load) s path.toNat
  | .lseek fd offset whence => sysLseek (vfsFiles load) s fd.toNat offset.toNat whence.toNat
  | .read fd buf len => sysRead (vfsFiles load) s fd.toNat buf.toNat len.toNat
  | .write fd buf len => sysWrite (vfsFiles load) s fd.toNat buf.toNat len.toNat
  | .dup oldFd => sysDup s oldFd.toNat
  | .close fd => sysClose s fd.toNat

/-- The arguments with which write calls write_file_by_node, if it comes to that. -/
def writeArgs (fd buf len : ℕ) : Option (ℕ × ℕ × List UInt8) :=
  if fd = 1 ∨ fd = 2 then none else
  match node s.fds s.sys.current fd with
  | .error _ => none
  | .ok nodeIdx =>
    let offset := offset s.fds s.sys.current fd
    let toWrite := min len 512
    if s.sys.current = 0 then
      match (loadAll s.sys.machine s.root [(buf,toWrite)]).1 with
      | some _ => none
      | none => some (nodeIdx,offset,loadBytes s.sys.machine s.root buf toWrite)
    else
      let c := copyFromUser s.sys.machine s.root buf toWrite fun _ => 0
      match stopped c.outcome with
      | some _ => none
      | none => some (nodeIdx,offset,ByteMemory.read c.state 0 toWrite)

/-- The size of the file that a descriptor stands for. -/
def fdSize (fd : ℕ) : ℕ :=
  match node s.fds s.sys.current fd with
  | .ok nodeIdx => getFileSize s.vfs nodeIdx
  | .error _ => 0

/-- The position that an offset is added to. -/
def seekBase (fd : ℕ) : ℕ → Option ℕ
  | 0 => some 0
  | 1 => some (offset s.fds s.sys.current fd)
  | 2 => some (fdSize s fd)
  | _ => none

end

/-- Every open descriptor stands below 2^63, and every file is shorter. -/
structure Bounded (f : Files) : Prop where
  offsets : ∀ i, (f.fds i).isFree = false → (f.fds i).offset < 2^63
  files : ∀ i, (f.vfs.node i).data.length < 2^63 ∧ (f.vfs.node i).size < 2^63

structure Event where
  before : Files
  sys : Tasks.System
  serial : List UInt8
  call : FileCall

section
variable (load : Vfs → List UInt8 → Except Int (ℕ × List UInt8))

def Event.start (e : Event) : State Vfs := ⟨e.sys,e.before.fds,e.before.vfs,e.serial⟩

def Event.result (e : Event) : Result Vfs := e.call.run load e.start

def Event.next (e : Event) : Files := ⟨(e.result load).state.fds,(e.result load).state.vfs⟩

def Step (f : Files) (e : Event) (f' : Files) : Prop := e.before = f ∧ f' = e.next load

/-- What a call should keep to: open descriptors stay below 2^63, the end of a write fits into
64 bits and the tree does not stop the kernel, and a seek to a negative position fails and leaves
the descriptor. -/
structure Sound (e : Event) : Prop where
  offsets : ∀ i, ((e.next load).fds i).isFree = false → ((e.next load).fds i).offset < 2^63
  writes : ∀ fd buf len, e.call = .write fd buf len → ∀ idx off bytes,
    writeArgs e.start fd.toNat buf.toNat len.toNat = some (idx,off,bytes) →
      off+bytes.length < 2^64 ∧ (vfsFiles load).writeFileByNode e.before.vfs idx off bytes ≠ none
  seeks : ∀ fd off whence, e.call = .lseek fd off whence → IsOpen e.before.fds e.sys.current fd.toNat →
    ∀ base, seekBase e.start fd.toNat whence.toNat = some base →
      (base : ℤ)+asIsize off.toNat < 0 →
        (e.result load).answer = .ret (-1) ∧ (e.next load).fds = e.before.fds

/-- A seek from an open descriptor goes to a position from 0 up to 2^63-1, and a write that
reaches a file ends there. -/
structure InLimits (e : Event) : Prop where
  seeks : ∀ fd off whence, e.call = .lseek fd off whence → IsOpen e.before.fds e.sys.current fd.toNat →
    ∀ base, seekBase e.start fd.toNat whence.toNat = some base →
      0 ≤ (base : ℤ)+asIsize off.toNat ∧ (base : ℤ)+asIsize off.toNat < 2^63
  writes : ∀ fd buf len, e.call = .write fd buf len → ∀ idx off bytes,
    writeArgs e.start fd.toNat buf.toNat len.toNat = some (idx,off,bytes) →
      IsFile e.before.vfs idx → off+bytes.length < 2^63

end

/-! ## What the calls do to descriptors and tree -/

/-- Every open descriptor of a table stands below 2^63. -/
def Low (t : Table) : Prop := ∀ i, (t i).isFree = false → (t i).offset < 2^63

section
variable {t : Table} {taskId fd : ℕ}

theorem Low.update (h : Low t) {i : ℕ} {e : FdEntry} (he : e.isFree = false → e.offset < 2^63) :
    Low (Function.update t i e) := by
  intro j hj
  by_cases hji : j = i
  · subst hji
    rw [Function.update_self] at hj ⊢
    exact he hj
  · rw [Function.update_of_ne hji] at hj ⊢
    exact h j hj

theorem low_openFd (taskId n : ℕ) (h : Low t) : Low (FdTable.openFd t taskId n).2 := by
  unfold FdTable.openFd
  split_ifs
  · exact h
  · cases lowestFree t taskId with
    | none => exact h
    | some fd => exact h.update fun _ => Nat.two_pow_pos 63

theorem Low.dup (h : Low t) (old : ℕ) : Low (FdTable.dup t taskId old).2 := by
  unfold FdTable.dup
  split_ifs
  · exact h
  · exact h
  · cases lowestFree t taskId with
    | none => exact h
    | some fd => exact h.update (h _)

theorem Low.close (h : Low t) (fd : ℕ) : Low (FdTable.close t taskId fd).2 := by
  unfold FdTable.close
  split_ifs
  · exact h
  · exact h
  · exact h.update fun _ => Nat.two_pow_pos 63

theorem isOpen_of_node {idx : ℕ} (h : node t taskId fd = .ok idx) : IsOpen t taskId fd := by
  unfold node at h
  split_ifs at h with hfd hfree
  exact ⟨not_le.mp hfd,Bool.eq_false_iff.mpr hfree⟩

theorem offset_of_isOpen (h : IsOpen t taskId fd) :
    offset t taskId fd = (t (fdIndex taskId fd)).offset := by
  unfold offset
  rw [if_neg h.1.not_ge]

theorem low_setOffset_iff (h : Low t) (ho : IsOpen t taskId fd) (new : ℕ) :
    Low (setOffset t taskId fd new) ↔ new < 2^63 := by
  unfold setOffset
  rw [if_pos ho.1]
  constructor
  · intro hl
    have hnew := hl (fdIndex taskId fd)
    rw [Function.update_self] at hnew
    exact hnew ho.2
  · intro hnew
    exact h.update fun _ => hnew

theorem lseek_open (h : IsOpen t taskId fd) (off whence size : ℕ) :
    FdTable.lseek t taskId fd off whence size =
      match seekTarget (t (fdIndex taskId fd)) off size whence with
      | some new => (asIsize new,setOffset t taskId fd new)
      | none => (-1,t) := by
  unfold FdTable.lseek setOffset
  rw [if_neg h.1.not_ge]
  dsimp only
  rw [h.2, if_neg Bool.false_ne_true]
  simp only [if_pos h.1]
  match whence with
  | 0 => rfl
  | 1 => rfl
  | 2 => rfl
  | _+3 => rfl

theorem lseek_closed (h : ¬IsOpen t taskId fd) (off whence size : ℕ) :
    FdTable.lseek t taskId fd off whence size = (-1,t) := by
  unfold FdTable.lseek
  by_cases hfd : fd ≥ maxFds
  · rw [if_pos hfd]
  · have hfree := ((isUnused_or_isOpen (not_le.mp hfd)).resolve_right h).2
    rw [if_neg hfd]
    rw [if_pos hfree]

theorem node_open (h : IsOpen t taskId fd) :
    node t taskId fd = .ok ((t (fdIndex taskId fd)).nodeIdx.signExtend 64).toNat := by
  unfold node
  rw [if_neg h.1.not_ge, h.2]
  rfl

end

section
variable {load : Vfs → List UInt8 → Except Int (ℕ × List UInt8)} {s : State Vfs} {fd : ℕ}

theorem seekTarget_base {off : ℕ} (hoff : off < 2^64) (whence : ℕ)
    (h : IsOpen s.fds s.sys.current fd) :
    seekTarget (s.fds (fdIndex s.sys.current fd)) off (fdSize s fd) whence =
      (seekBase s fd whence).map fun base => (base+off)%2^64 := by
  match whence with
  | 0 =>
    simp only [seekTarget, seekBase, Option.map_some, Nat.zero_add]
    rw [Nat.mod_eq_of_lt hoff]
  | 1 => simp only [seekTarget, seekBase, Option.map_some, offset_of_isOpen h]
  | 2 => rfl
  | _+3 => rfl

theorem sysLseek_fds (off whence : ℕ) : (sysLseek (vfsFiles load) s fd off whence).state.fds =
    (FdTable.lseek s.fds s.sys.current fd off whence (fdSize s fd)).2 := rfl

/-- lseek moves an open descriptor to the sum in 64 bits, if there is an origin; otherwise it
does nothing. -/
theorem sysLseek_cases {off : ℕ} (hoff : off < 2^64) (whence : ℕ) :
    (∃ base, IsOpen s.fds s.sys.current fd ∧ seekBase s fd whence = some base ∧
      (sysLseek (vfsFiles load) s fd off whence).state.fds =
        setOffset s.fds s.sys.current fd ((base+off)%2^64)) ∨
    (¬(IsOpen s.fds s.sys.current fd ∧ ∃ base, seekBase s fd whence = some base) ∧
      (sysLseek (vfsFiles load) s fd off whence).state.fds = s.fds) := by
  rw [sysLseek_fds]
  by_cases hopen : IsOpen s.fds s.sys.current fd
  · rw [lseek_open hopen, seekTarget_base hoff whence hopen]
    cases seekBase s fd whence with
    | none =>
      right
      simp
    | some base => exact .inl ⟨base,hopen,rfl,rfl⟩
  · rw [lseek_closed hopen]
    exact .inr ⟨fun h => hopen h.1,rfl⟩

theorem length_loadBytes (m : PageTables.Machine) (root a n : ℕ) :
    (loadBytes m root a n).length = n := by
  simp [loadBytes]

theorem syscallWrite_files (buf len : ℕ) : (syscallWrite s buf len).state.fds = s.fds ∧
    (syscallWrite s buf len).state.vfs = s.vfs := by
  unfold syscallWrite
  split_ifs
  · exact ⟨rfl,rfl⟩
  · dsimp only
    split <;> exact ⟨rfl,rfl⟩
  · dsimp only
    split <;> exact ⟨rfl,rfl⟩

theorem sysWrite_cases (fs : FileSystem Vfs) (buf len : ℕ) :
    (writeArgs s fd buf len = none ∧ (sysWrite fs s fd buf len).state.fds = s.fds ∧
      (sysWrite fs s fd buf len).state.vfs = s.vfs) ∨
    ∃ idx bytes accessed, writeArgs s fd buf len = some (idx,offset s.fds s.sys.current fd,bytes) ∧
      IsOpen s.fds s.sys.current fd ∧ bytes.length ≤ 512 ∧
      sysWrite fs s fd buf len =
        writeNode fs s idx (offset s.fds s.sys.current fd) fd bytes accessed := by
  unfold writeArgs sysWrite
  by_cases hserial : fd = 1 ∨ fd = 2
  · rw [if_pos hserial, if_pos hserial]
    exact .inl ⟨rfl,syscallWrite_files fd buf⟩
  · rw [if_neg hserial, if_neg hserial]
    cases hnode : node s.fds s.sys.current fd with
    | error e => exact .inl ⟨rfl,rfl,rfl⟩
    | ok idx =>
      have hopen := isOpen_of_node hnode
      have hle := Nat.min_le_right len 512
      dsimp only
      by_cases h0 : s.sys.current = 0
      · rw [if_pos h0, if_pos h0]
        cases (loadAll s.sys.machine s.root [(buf,min len 512)]).1 with
        | some a => exact .inl ⟨rfl,rfl,rfl⟩
        | none => exact .inr ⟨idx,_,_,rfl,hopen,by rw [length_loadBytes]; exact hle,rfl⟩
      · rw [if_neg h0, if_neg h0]
        cases stopped (copyFromUser s.sys.machine s.root buf (min len 512) fun _ => 0).outcome with
        | some a => exact .inl ⟨rfl,rfl,rfl⟩
        | none => exact .inr ⟨idx,_,_,rfl,hopen,by rw [ByteMemory.length_read]; exact hle,rfl⟩

theorem call_noFile {vfs : Vfs} {idx : ℕ} (h : ¬IsFile vfs idx) (off : ℕ) (bytes : List UInt8) :
    ∃ msg, call (Vfs.writeFileByNode idx off bytes) vfs = some (.error msg,vfs) := by
  unfold call Vfs.writeFileByNode
  simp only [FallibleState.get_bind]
  by_cases hlt : vfs.nodes.length ≤ idx
  · rw [if_pos hlt]
    exact ⟨_,rfl⟩
  · have htype : (vfs.node idx).nodeType ≠ .file := fun ht => h ⟨not_le.mp hlt,ht⟩
    rw [if_neg hlt, if_pos htype]
    exact ⟨_,rfl⟩

theorem writeNode_cases (idx off fd : ℕ) (bytes : List UInt8) (accessed : List (ℕ × ℕ))
    (hend : off+bytes.length < 2^64) :
    (vfsFiles load).writeFileByNode s.vfs idx off bytes ≠ none ∧
    ((¬IsFile s.vfs idx ∧
      (writeNode (vfsFiles load) s idx off fd bytes accessed).state.fds = s.fds ∧
      (writeNode (vfsFiles load) s idx off fd bytes accessed).state.vfs = s.vfs) ∨
    (IsFile s.vfs idx ∧
      (writeNode (vfsFiles load) s idx off fd bytes accessed).state.fds =
        setOffset s.fds s.sys.current fd (off+bytes.length) ∧
      Written s.vfs (writeNode (vfsFiles load) s idx off fd bytes accessed).state.vfs idx off
        bytes)) := by
  have hwrite : (vfsFiles load).writeFileByNode s.vfs idx off bytes =
      call (Vfs.writeFileByNode idx off bytes) s.vfs := rfl
  unfold writeNode
  rw [hwrite]
  by_cases hf : IsFile s.vfs idx
  · obtain ⟨n,vfs,hx,rfl,hw⟩ := (writeFileByNode_returns hf hend).exists
    have hcall : call (Vfs.writeFileByNode idx off bytes) s.vfs = some (.ok bytes.length,vfs) := by
      unfold call
      rw [hx]
    rw [hcall]
    refine ⟨nofun,.inr ⟨hf,?_,hw⟩⟩
    dsimp only
    rw [Nat.mod_eq_of_lt hend]
  · obtain ⟨msg,hcall⟩ : ∃ msg, call (Vfs.writeFileByNode idx off bytes) s.vfs =
        some (.error msg,s.vfs) := call_noFile hf off bytes
    rw [hcall]
    exact ⟨nofun,.inl ⟨hf,rfl,rfl⟩⟩

theorem stores_files (plan : List (ℕ × List UInt8)) (v : Int) :
    (s.stores plan v).state.fds = s.fds ∧ (s.stores plan v).state.vfs = s.vfs := by
  unfold State.stores
  dsimp only
  split <;> exact ⟨rfl,rfl⟩

theorem sysRead_cases (fs : FileSystem Vfs) (buf len : ℕ) :
    (sysRead fs s fd buf len).state.vfs = s.vfs ∧
    ((sysRead fs s fd buf len).state.fds = s.fds ∨ ∃ idx bytes,
      node s.fds s.sys.current fd = .ok idx ∧
      fs.readFileByNode s.vfs idx (offset s.fds s.sys.current fd) (min len 512) = .ok bytes ∧
      bytes.length ≠ 0 ∧ (sysRead fs s fd buf len).state.fds =
        setOffset s.fds s.sys.current fd ((offset s.fds s.sys.current fd+bytes.length)%2^64)) := by
  unfold sysRead
  by_cases hserial : fd = 1 ∨ fd = 2
  · rw [if_pos hserial]
    obtain ⟨hfds,hvfs⟩ := @syscallWrite_files s fd buf
    exact ⟨hvfs,.inl hfds⟩
  · rw [if_neg hserial]
    cases hnode : node s.fds s.sys.current fd with
    | error e => exact ⟨rfl,.inl rfl⟩
    | ok idx =>
      dsimp only
      cases hread : fs.readFileByNode s.vfs idx (offset s.fds s.sys.current fd) (min len 512) with
      | error e => exact ⟨rfl,.inl rfl⟩
      | ok bytes =>
        dsimp only
        by_cases hempty : bytes.length = 0
        · rw [if_pos hempty]
          exact ⟨rfl,.inl rfl⟩
        · rw [if_neg hempty]
          split_ifs with h0
          · obtain ⟨hfds,hvfs⟩ := @stores_files s [(buf,bytes)] bytes.length
            split
            · exact ⟨hvfs,.inr ⟨idx,bytes,rfl,hread,hempty,rfl⟩⟩
            · exact ⟨hvfs,.inl hfds⟩
          · split
            · exact ⟨rfl,.inr ⟨idx,bytes,rfl,hread,hempty,rfl⟩⟩
            · exact ⟨rfl,.inr ⟨idx,bytes,rfl,hread,hempty,rfl⟩⟩
            · exact ⟨rfl,.inl rfl⟩
            · exact ⟨rfl,.inl rfl⟩
            · exact ⟨rfl,.inl rfl⟩

theorem readFileByNode_inside {vfs : Vfs} {idx off len : ℕ} {bytes : List UInt8}
    (h : readFileByNode vfs idx off len = .ok bytes) (hne : bytes.length ≠ 0) :
    off+bytes.length ≤ (vfs.node idx).data.length := by
  rw [readFileByNode_eq h, List.length_take, List.length_drop] at hne ⊢
  omega

theorem sysOpenat_files (path : ℕ) :
    (sysOpenat (vfsFiles load) s path).state.vfs = s.vfs ∧
    (Low s.fds → Low (sysOpenat (vfsFiles load) s path).state.fds) := by
  unfold sysOpenat withPath
  dsimp only
  split
  · exact ⟨rfl,fun h => h⟩
  · split
    · exact ⟨rfl,fun h => h⟩
    · rename_i idx _
      have hlow := fun h : Low s.fds => low_openFd s.sys.current idx h
      cases hopen : FdTable.openFd s.fds s.sys.current idx with
      | mk answer fds =>
        rw [hopen] at hlow
        cases answer <;> exact ⟨rfl,hlow⟩

theorem sysDup_files (old : ℕ) : (sysDup s old).state.vfs = s.vfs ∧
    (sysDup s old).state.fds = (FdTable.dup s.fds s.sys.current old).2 := by
  unfold sysDup
  cases FdTable.dup s.fds s.sys.current old with
  | mk answer fds =>
    cases answer <;> exact ⟨rfl,rfl⟩

theorem sysClose_files (fd : ℕ) : (sysClose s fd).state.vfs = s.vfs ∧
    (sysClose s fd).state.fds = (FdTable.close s.fds s.sys.current fd).2 := by
  unfold sysClose
  cases FdTable.close s.fds s.sys.current fd with
  | mk answer fds =>
    cases answer <;> exact ⟨rfl,rfl⟩

end

/-! ## One call from a bounded state -/

/-- A sum in 64 bits is below 2^63 exactly if the signed sum is a position. -/
theorem wrapped_lt_iff {base off : ℕ} (hbase : base < 2^63) (hoff : off < 2^64) :
    (base+off)%2^64 < 2^63 ↔ 0 ≤ (base : ℤ)+asIsize off ∧ (base : ℤ)+asIsize off < 2^63 := by
  rw [asIsize_eq hoff]
  split_ifs with hsmall <;> omega

section
variable {load : Vfs → List UInt8 → Except Int (ℕ × List UInt8)} {e : Event}

theorem seekBase_lt (hb : Bounded e.before) {fd whence base : ℕ}
    (ho : IsOpen e.before.fds e.sys.current fd) (h : seekBase e.start fd whence = some base) :
    base < 2^63 := by
  match whence with
  | 0 =>
    cases h
    exact Nat.two_pow_pos 63
  | 1 =>
    cases h
    have hlow := hb.offsets _ ho.2
    rwa [← offset_of_isOpen ho] at hlow
  | 2 =>
    cases h
    unfold fdSize getFileSize
    split
    · split_ifs
      · exact (hb.files _).2
      · exact Nat.two_pow_pos 63
    · exact Nat.two_pow_pos 63
  | _+3 => exact nomatch h

theorem bounded_next (hb : Bounded e.before) (hvfs : (e.next load).vfs = e.before.vfs)
    (hs : Sound load e) : Bounded (e.next load) :=
  ⟨hs.offsets,fun i => by rw [hvfs]; exact hb.files i⟩

theorem plain_step (hseek : ∀ fd off whence, e.call ≠ .lseek fd off whence)
    (hwrite : ∀ fd buf len, e.call ≠ .write fd buf len) (hlow : Low (e.next load).fds) :
    Sound load e ↔ InLimits e := by
  apply iff_of_true
  · exact ⟨hlow,fun fd buf len hc => absurd hc (hwrite fd buf len),
      fun fd off whence hc => absurd hc (hseek fd off whence)⟩
  · exact ⟨fun fd off whence hc => absurd hc (hseek fd off whence),
      fun fd buf len hc => absurd hc (hwrite fd buf len)⟩

/-- Within the limits no seek goes to a negative position. -/
theorem InLimits.seeks_kept (h : InLimits e) : ∀ fd off whence, e.call = .lseek fd off whence →
    IsOpen e.before.fds e.sys.current fd.toNat →
    ∀ base, seekBase e.start fd.toNat whence.toNat = some base →
      (base : ℤ)+asIsize off.toNat < 0 →
        (e.result load).answer = .ret (-1) ∧ (e.next load).fds = e.before.fds := by
  intro fd off whence hc hopen base hbase hneg
  exact absurd hneg (Int.not_lt.mpr (h.seeks fd off whence hc hopen base hbase).1)

theorem lseek_step (hb : Bounded e.before) {fd off whence : UInt64}
    (hc : e.call = .lseek fd off whence)
    (hfds : (e.next load).fds = (sysLseek (vfsFiles load) e.start fd.toNat off.toNat whence.toNat).state.fds) :
    Sound load e ↔ InLimits e := by
  have hcases := @sysLseek_cases load e.start fd.toNat off.toNat off.toNat_lt whence.toNat
  have hlow₀ : Low e.start.fds := hb.offsets
  rw [← hfds] at hcases
  have hwrite : ∀ fd' buf len, e.call ≠ .write fd' buf len := by simp [hc]
  constructor
  · intro hs
    refine ⟨fun fd' off' whence' hc' hopen base hbase => ?_,fun _ _ _ hw => absurd hw (hwrite _ _ _)⟩
    cases hc.symm.trans hc'
    rcases hcases with ⟨base',-,hbase',hmoved⟩ | ⟨hnot,-⟩
    · cases hbase.symm.trans hbase'
      have hlow := hs.offsets
      rw [hmoved] at hlow
      rw [← wrapped_lt_iff (seekBase_lt hb hopen hbase) off.toNat_lt]
      exact (low_setOffset_iff hlow₀ hopen _).mp hlow
    · exact absurd ⟨hopen,base,hbase⟩ hnot
  · intro hl
    refine ⟨?_,fun _ _ _ hw => absurd hw (hwrite _ _ _),hl.seeks_kept⟩
    change Low (e.next load).fds
    rcases hcases with ⟨base,hopen,hbase,hmoved⟩ | ⟨-,hsame⟩
    · rw [hmoved, low_setOffset_iff hlow₀ hopen, wrapped_lt_iff (seekBase_lt hb hopen hbase) off.toNat_lt]
      exact hl.seeks fd off whence hc hopen base hbase
    · rw [hsame]
      exact hb.offsets

theorem Written.bounded {vfs vfs' : Vfs} {idx off : ℕ} {bytes : List UInt8}
    (hw : Written vfs vfs' idx off bytes) (hend : off+bytes.length < 2^63)
    (hb : ∀ i, (vfs.node i).data.length < 2^63 ∧ (vfs.node i).size < 2^63) (i : ℕ) :
    (vfs'.node i).data.length < 2^63 ∧ (vfs'.node i).size < 2^63 := by
  by_cases hi : i = idx
  · have hold := (hb idx).1
    have hlen : (ByteMemory.patch (extend (vfs.node idx).data (off+bytes.length)) off bytes).length <
        2^63 := by
      rw [ByteMemory.length_patch (by rw [length_extend]; exact Nat.le_max_right _ _), length_extend]
      exact Nat.max_lt.mpr ⟨hold,hend⟩
    rw [hi, hw.self]
    exact ⟨hlen,hlen⟩
  · rw [hw.other i hi]
    exact hb i

theorem write_step (hb : Bounded e.before) {fd buf len : UInt64} (hc : e.call = .write fd buf len)
    (hresult : e.result load = sysWrite (vfsFiles load) e.start fd.toNat buf.toNat len.toNat) :
    (Sound load e ↔ InLimits e) ∧ (Sound load e → Bounded (e.next load)) := by
  have hlow₀ : Low e.start.fds := hb.offsets
  have hkept : (e.result load).state.fds = e.start.fds → Low (e.next load).fds := by
    intro hfds
    unfold Event.next
    rw [hfds]
    exact hlow₀
  have hseek : ∀ fd' off whence, e.call ≠ .lseek fd' off whence := by simp [hc]
  rcases @sysWrite_cases e.start fd.toNat (vfsFiles load) buf.toNat len.toNat with
    ⟨hargs,hfds,hvfs⟩ | ⟨idx,bytes,accessed,hargs,hopen,hle,heq⟩
  · rw [← hresult] at hfds hvfs
    refine ⟨iff_of_true ⟨hkept hfds,?_,?_⟩ ⟨?_,?_⟩,bounded_next hb hvfs⟩
    · intro fd' buf' len' hc' idx off bytes ha
      cases hc.symm.trans hc'
      exact nomatch hargs.symm.trans ha
    · exact fun _ _ _ hs => absurd hs (hseek _ _ _)
    · exact fun _ _ _ hs => absurd hs (hseek _ _ _)
    · intro fd' buf' len' hc' idx off bytes ha
      cases hc.symm.trans hc'
      exact nomatch hargs.symm.trans ha
  · have hoff : offset e.start.fds e.start.sys.current fd.toNat < 2^63 := by
      rw [offset_of_isOpen hopen]
      exact hb.offsets _ hopen.2
    have hend : offset e.start.fds e.start.sys.current fd.toNat+bytes.length < 2^64 := by omega
    obtain ⟨hno,hcases⟩ := @writeNode_cases load e.start idx _ fd.toNat bytes accessed hend
    -- these are the only arguments that write_file_by_node can get in this event
    have hsound : Sound load e ↔ Low (e.next load).fds := by
      refine ⟨fun hs => hs.offsets,fun hl => ⟨hl,?_,fun _ _ _ hs => absurd hs (hseek _ _ _)⟩⟩
      intro fd' buf' len' hc' idx' off' bytes' ha
      cases hc.symm.trans hc'
      cases hargs.symm.trans ha
      exact ⟨hend,hno⟩
    have hlimits : InLimits e ↔ (IsFile e.before.vfs idx →
        offset e.start.fds e.start.sys.current fd.toNat+bytes.length < 2^63) := by
      refine ⟨fun hl => hl.writes fd buf len hc idx _ bytes hargs,
        fun hl => ⟨fun _ _ _ hs => absurd hs (hseek _ _ _),?_⟩⟩
      intro fd' buf' len' hc' idx' off' bytes' ha
      cases hc.symm.trans hc'
      cases hargs.symm.trans ha
      exact hl
    rw [← heq, ← hresult] at hcases
    rcases hcases with ⟨hnofile,hfds,hvfs⟩ | ⟨hfile,hfds,hw⟩
    · refine ⟨?_,bounded_next hb hvfs⟩
      rw [hsound, hlimits]
      exact iff_of_true (hkept hfds) fun hf => absurd hf hnofile
    · have hlow : Low (e.next load).fds ↔
          offset e.start.fds e.start.sys.current fd.toNat+bytes.length < 2^63 := by
        unfold Event.next
        rw [hfds]
        exact low_setOffset_iff hlow₀ hopen _
      constructor
      · rw [hsound, hlimits, hlow]
        exact ⟨fun hlt _ => hlt,fun hl => hl hfile⟩
      · intro hs
        exact ⟨hs.offsets,Written.bounded hw (hlow.mp hs.offsets) hb.files⟩

theorem read_low (hb : Bounded e.before) (fd buf len : ℕ) :
    Low (sysRead (vfsFiles load) e.start fd buf len).state.fds := by
  rcases (@sysRead_cases e.start fd (vfsFiles load) buf len).2 with
    hsame | ⟨idx,bytes,hnode,hread,hne,hmoved⟩
  · rw [hsame]
    exact hb.offsets
  · have hinside : offset e.start.fds e.start.sys.current fd+bytes.length ≤ _ :=
      readFileByNode_inside hread hne
    have hfile := (hb.files idx).1
    have hlt : offset e.start.fds e.start.sys.current fd+bytes.length < 2^63 :=
      hinside.trans_lt hfile
    have hlow₀ : Low e.start.fds := hb.offsets
    rw [hmoved, low_setOffset_iff hlow₀ (isOpen_of_node hnode)]
    omega

/-- From a bounded state a call is sound exactly within the limits, and then the next state is
bounded again. -/
theorem step_iff (hb : Bounded e.before) :
    (Sound load e ↔ InLimits e) ∧ (Sound load e → Bounded (e.next load)) := by
  obtain ⟨before,sys,serial,call⟩ := e
  cases call with
  | openat path =>
    obtain ⟨hvfs,hlow⟩ := @sysOpenat_files load ⟨sys,before.fds,before.vfs,serial⟩ path.toNat
    exact ⟨plain_step (by simp) (by simp) (hlow hb.offsets),bounded_next hb hvfs⟩
  | lseek fd off whence => exact ⟨lseek_step hb rfl rfl,bounded_next hb rfl⟩
  | read fd buf len =>
    have hvfs := (@sysRead_cases ⟨sys,before.fds,before.vfs,serial⟩ fd.toNat (vfsFiles load)
      buf.toNat len.toNat).1
    exact ⟨plain_step (by simp) (by simp) (read_low hb _ _ _),bounded_next hb hvfs⟩
  | write fd buf len => exact write_step hb rfl rfl
  | dup old =>
    obtain ⟨hvfs,hfds⟩ := @sysDup_files ⟨sys,before.fds,before.vfs,serial⟩ old.toNat
    have hlow : Low (sysDup ⟨sys,before.fds,before.vfs,serial⟩ old.toNat).state.fds := by
      rw [hfds]
      exact Low.dup hb.offsets _
    exact ⟨plain_step (by simp) (by simp) hlow,bounded_next hb hvfs⟩
  | close fd =>
    obtain ⟨hvfs,hfds⟩ := @sysClose_files ⟨sys,before.fds,before.vfs,serial⟩ fd.toNat
    have hlow : Low (sysClose ⟨sys,before.fds,before.vfs,serial⟩ fd.toNat).state.fds := by
      rw [hfds]
      exact Low.close hb.offsets _
    exact ⟨plain_step (by simp) (by simp) hlow,bounded_next hb hvfs⟩

end

/-- A run of file calls from a state with offsets and files below 2^63 is sound, that is, every
call of it is, exactly if every call keeps within the limits. -/
theorem run_sound_iff {load : Vfs → List UInt8 → Except Int (ℕ × List UInt8)} {f₀ f : Files}
    {h : List Event} (hb : Bounded f₀) (hr : Run (Step load) f₀ h f) :
    (∀ e ∈ h, Sound load e) ↔ ∀ e ∈ h, InLimits e := by
  have hall := hr.invariant (P := fun h f =>
    ((∀ e ∈ h, Sound load e) ↔ ∀ e ∈ h, InLimits e) ∧ ((∀ e ∈ h, Sound load e) → Bounded f))
    ⟨by simp,fun _ => hb⟩ ?_
  · exact hall.1
  · rintro h f e f' ⟨hiff,hbounded⟩ ⟨rfl,rfl⟩
    simp only [List.forall_mem_cons]
    constructor
    · rw [← hiff]
      exact and_congr_left fun hs => (step_iff (hbounded hs)).1
    · intro hs
      exact (step_iff (hbounded hs.2)).2 hs.1

/-- The descriptor 0 of task 1, on the file "a". -/
def opened : Table := (openFd emptyTable 1 1).2

theorem opened_bounded : Bounded ⟨opened,oneFile⟩ := by
  have hempty : Low emptyTable := fun i hi => nomatch hi
  constructor
  · exact low_openFd 1 1 hempty
  · intro i
    match i with
    | 0 => decide
    | 1 => decide
    | _+2 => exact ⟨Nat.two_pow_pos 63,Nat.two_pow_pos 63⟩

/-- A seek to position 5 keeps within the limits. -/
theorem seek_sound : Sound noPrograms ⟨⟨opened,oneFile⟩,
    (caller (KernelRuns.bootMachine 0x900000 0x10000000) 0).sys,[],.lseek 0 5 0⟩ := by
  refine (run_sound_iff opened_bounded (.next .start ⟨rfl,rfl⟩)).mpr ?_ _ (List.mem_singleton.mpr rfl)
  intro e he
  cases List.mem_singleton.mp he
  constructor
  · intro fd off whence hc _ base hbase
    cases hc
    cases hbase
    decide
  · intro fd buf len hc
    exact nomatch hc

/-- After a seek to -1, which answers -1, a write of one byte stops the kernel. -/
theorem seek_then_write_panics : ∃ m root,
    let l := sysLseek (vfsFiles noPrograms) (fileTask m root opened) 0 (2^64-1) 0
    l.answer = .ret (-1) ∧ offset l.state.fds 1 0 = 2^64-1 ∧
      (sysWrite (vfsFiles noPrograms) l.state 0 0x400000 1).answer = .panic := by
  obtain ⟨m,root,-,hacc,-,-⟩ := exists_path
  have hone : UserTransfer.Accessible m root 0x400000 1 :=
    ⟨by decide,fun i hi => hacc.2 i (by omega)⟩
  obtain ⟨hok,-⟩ := UserTransfer.copyFromUser_accessible hone (by decide) fun _ => 0
  refine ⟨m,root,rfl,rfl,?_⟩
  generalize hl : (sysLseek (vfsFiles noPrograms) (fileTask m root opened) 0 (2^64-1) 0).state = s
  have hsys : s.sys = (fileTask m root opened).sys := by
    rw [← hl]
    rfl
  have hnode : node s.fds s.sys.current 0 = .ok 1 ∧ offset s.fds s.sys.current 0 = 2^64-1 := by
    rw [← hl]
    exact ⟨rfl,rfl⟩
  have hvfs : s.vfs = oneFile := by
    rw [← hl]
    rfl
  have hroot : s.root = root := by
    unfold State.root
    rw [hsys]
    exact caller_root m root
  have hcur : s.sys.current ≠ 0 := by
    rw [hsys]
    exact Nat.one_ne_zero
  have hmachine : s.sys.machine = m := by
    rw [hsys]
    rfl
  unfold sysWrite
  rw [if_neg (by decide), hnode.1]
  dsimp only
  rw [if_neg hcur, hnode.2, hroot, hmachine, show min 1 512 = 1 by decide, hok]
  simp only [stopped]
  unfold writeNode
  rw [hvfs]
  have hpanic : ∀ b : UInt8, (vfsFiles noPrograms).writeFileByNode oneFile 1 (2^64-1) [b] = none :=
    fun b => rfl
  have hread : ∀ mem : ByteMemory.Memory, ByteMemory.read mem 0 1 = [mem 0] := fun mem => rfl
  rw [hread, hpanic]

end Zohara.SeekLimits
