import Zohara.CopyRanges
import Zohara.SeekLimits

/-!
# Where read puts its bytes (src/linux_compat.rs, src/usercopy.rs)

A task other than task 0 reads from a file into a buffer. sys_read drops the result of
copy_to_user: it answers with the number of bytes and moves the offset although nothing, or only
a part, has arrived.

The buffer is user-mapped if all its addresses are canonical and pass is_user_mapped. The tables
are those of a task: its pages hold no tables and share no memory, and nothing in the upper half
passes the test; this is proved for all tables that the kernel builds. The length of a file fits
into a usize.
-/
namespace Zohara.ReadDelivery
open FdTable LinuxCompat OpenFiles Vfs UserCopy UserTransfer Mmu PageTables
  UserTables SegmentPages TableHeap PageEntry KernelTables KernelRuns FrameAllocator FrameRefinement
  Isolation SeekLimits

def UserMapped (m : Machine) (root buf len : ℕ) : Prop :=
  ∀ i < len, Canonical (buf+i) ∧ isUserMapped m root (buf+i) = true

structure TaskTables (m : Machine) (root : ℕ) : Prop where
  space : UserSpace m root
  upper : ∀ a, 2^47 ≤ a → Canonical a → isUserMapped m root a = false

/-- The bytes that a read reports are in the buffer and the offset has moved behind them; and a
buffer that is not user-mapped is refused. -/
structure Delivers (fs : FileSystem Vfs) (s : State Vfs) (fd buf len : ℕ) : Prop where
  delivered : ∀ n : ℕ, 0 < n → (sysRead fs s fd buf len).answer = .ret n →
    ∃ idx, node s.fds s.sys.current fd = .ok idx ∧
      (∀ i < n, ∃ b, (s.vfs.node idx).data[offset s.fds s.sys.current fd+i]? = some b ∧
        readVirt (sysRead fs s fd buf len).state.sys.machine s.root (buf+i) = some b) ∧
      offset (sysRead fs s fd buf len).state.fds s.sys.current fd =
        offset s.fds s.sys.current fd+n
  refused : ¬UserMapped s.sys.machine s.root buf len →
    (sysRead fs s fd buf len).answer = .ret efault ∧
      offset (sysRead fs s fd buf len).state.fds s.sys.current fd = offset s.fds s.sys.current fd

theorem taskTables_of_userOk {m₀ m : Machine} {r U : ℕ} {owned : Finset ℕ} {done : List Mapping}
    (ok : KernelOk m₀ r) (id : IdentityOk m₀ r) (h : UserOk m₀ r m U owned done)
    (hframes : (done.map Mapping.frame).Nodup) : TaskTables m (U*4096) := by
  refine ⟨userSpace_of_userOk ok id h hframes,?_⟩
  intro a hlow hc
  have hidx : pml4Idx a ≠ 0 ∧ pml4Idx a < 512 := by
    unfold Canonical at hc
    rw [pml4Idx_eq]
    omega
  have hzero : m.entry (U*4096) (pml4Idx a) = 0 := h.root _ hidx.2 hidx.1
  unfold isUserMapped
  rw [hzero]
  rfl

section
variable {load : Vfs → List UInt8 → Except Int (ℕ × List UInt8)} {s : State Vfs} {fd idx : ℕ}

theorem UserMapped.accessible {m : Machine} {root buf len n : ℕ} (h : UserMapped m root buf len)
    (ht : TaskTables m root) (hn : 0 < n) (hle : n ≤ len) : Accessible m root buf n := by
  have hlow : ∀ i < n, buf+i < 2^47 := by
    intro i hi
    obtain ⟨hc,hm⟩ := h i (by omega)
    by_contra hhigh
    exact Bool.false_ne_true ((ht.upper _ (not_lt.mp hhigh) hc).symm.trans hm)
  have hlast := hlow (n-1) (by omega)
  exact ⟨by omega,fun i hi => (h i (by omega)).2⟩

theorem sysRead_user (hcur : s.sys.current ≠ 0) (hserial : ¬(fd = 1 ∨ fd = 2))
    (hnode : node s.fds s.sys.current fd = .ok idx) (buf len : ℕ) :
    (∃ e, readFileByNode s.vfs idx (offset s.fds s.sys.current fd) (min len 512) = .error e ∧
      sysRead (vfsFiles load) s fd buf len = s.ret eio) ∨
    ∃ bytes, readFileByNode s.vfs idx (offset s.fds s.sys.current fd) (min len 512) = .ok bytes ∧
      ((bytes.length = 0 ∧ sysRead (vfsFiles load) s fd buf len = s.ret 0) ∨
      bytes.length ≠ 0 ∧
        let c := copyToUser s.sys.machine s.root buf (fun i => bytes.getD i 0) bytes.length
        (sysRead (vfsFiles load) s fd buf len).state.sys.machine = c.state.1 ∧
        ((∀ v, (sysRead (vfsFiles load) s fd buf len).answer ≠ .ret v) ∨
          (sysRead (vfsFiles load) s fd buf len).answer = .ret bytes.length ∧
          (sysRead (vfsFiles load) s fd buf len).state.fds = setOffset s.fds s.sys.current fd
            ((offset s.fds s.sys.current fd+bytes.length)%2^64))) := by
  unfold sysRead
  rw [if_neg hserial, hnode]
  dsimp only
  have hread : (vfsFiles load).readFileByNode s.vfs idx (offset s.fds s.sys.current fd) (min len 512) =
      readFileByNode s.vfs idx (offset s.fds s.sys.current fd) (min len 512) := rfl
  rw [hread]
  cases readFileByNode s.vfs idx (offset s.fds s.sys.current fd) (min len 512) with
  | error e => exact .inl ⟨e,rfl,rfl⟩
  | ok bytes =>
    right
    refine ⟨bytes,rfl,?_⟩
    dsimp only
    by_cases h0 : bytes.length = 0
    · rw [if_pos h0]
      exact .inl ⟨h0,rfl⟩
    · rw [if_neg h0, if_neg hcur]
      right
      refine ⟨h0,?_⟩
      split
      · exact ⟨rfl,.inr ⟨rfl,rfl⟩⟩
      · exact ⟨rfl,.inr ⟨rfl,rfl⟩⟩
      · exact ⟨rfl,.inl fun v hv => nomatch hv⟩
      · exact ⟨rfl,.inl fun v hv => nomatch hv⟩
      · exact ⟨rfl,.inl fun v hv => nomatch hv⟩

theorem sysRead_ne_efault (hcur : s.sys.current ≠ 0) (hserial : ¬(fd = 1 ∨ fd = 2))
    (hnode : node s.fds s.sys.current fd = .ok idx) (buf len : ℕ) :
    (sysRead (vfsFiles load) s fd buf len).answer ≠ .ret efault := by
  rcases @sysRead_user load s fd idx hcur hserial hnode buf len with
    ⟨-,-,heq⟩ | ⟨bytes,-,⟨-,heq⟩ | ⟨-,-,hno | ⟨heq,-⟩⟩⟩
  · rw [heq]
    exact fun h => absurd (Answer.ret.inj h) (by decide)
  · rw [heq]
    exact fun h => absurd (Answer.ret.inj h) (by decide)
  · exact hno efault
  · rw [heq]
    intro h
    have hval : (bytes.length : Int) = efault := Answer.ret.inj h
    unfold efault at hval
    omega

theorem readFileByNode_bytes {vfs : Vfs} {off len i : ℕ} {bytes : List UInt8}
    (h : readFileByNode vfs idx off len = .ok bytes) (hi : i < bytes.length) :
    (vfs.node idx).data[off+i]? = some (bytes.getD i 0) := by
  have heq := readFileByNode_eq h
  have hlen : i < len := hi.trans_le (readFileByNode_le _ _ _ _ _ h)
  have hbyte : bytes[i]? = (vfs.node idx).data[off+i]? := by
    rw [heq, List.getElem?_take_of_lt hlen, List.getElem?_drop]
  rw [← hbyte, List.getD_eq_getElem?_getD, List.getElem?_eq_getElem hi]
  rfl

end

/-- A read from an open file keeps its word exactly if the whole buffer is user-mapped. -/
theorem read_delivers_iff {load : Vfs → List UInt8 → Except Int (ℕ × List UInt8)} {s : State Vfs}
    {fd : ℕ} (hcur : s.sys.current ≠ 0) (hopen : IsOpen s.fds s.sys.current fd)
    (hserial : ¬(fd = 1 ∨ fd = 2)) (ht : TaskTables s.sys.machine s.root)
    (hlength : ∀ i, (s.vfs.node i).data.length < 2^64) (buf len : ℕ) :
    Delivers (vfsFiles load) s fd buf len ↔ UserMapped s.sys.machine s.root buf len := by
  have hnode := node_open hopen
  constructor
  · intro h
    by_contra hno
    exact sysRead_ne_efault hcur hserial hnode buf len (h.refused hno).1
  · intro hmapped
    refine ⟨?_,fun hno => absurd hmapped hno⟩
    intro n hn hans
    rcases @sysRead_user load s fd _ hcur hserial hnode buf len with
      ⟨-,-,heq⟩ | ⟨bytes,hread,⟨-,heq⟩ | ⟨hne,hmachine,hno | ⟨heq,hfds⟩⟩⟩
    · rw [heq] at hans
      have hval : eio = (n : Int) := Answer.ret.inj hans
      unfold eio at hval
      omega
    · rw [heq] at hans
      have hval : (0 : Int) = n := Answer.ret.inj hans
      omega
    · exact absurd hans (hno n)
    · rw [heq] at hans
      have hval : (bytes.length : Int) = n := Answer.ret.inj hans
      obtain rfl : bytes.length = n := by omega
      have hle := readFileByNode_le _ _ _ _ _ hread
      have hacc := hmapped.accessible ht hn (by omega)
      obtain ⟨-,hbytes⟩ := copyToUser_accessible ht.space hacc fun i => bytes.getD i 0
      refine ⟨_,hnode,?_,?_⟩
      · intro i hi
        rw [hmachine]
        exact ⟨_,readFileByNode_bytes hread hi,hbytes i hi⟩
      · have hinside := readFileByNode_inside hread hne
        have hfit := hlength ((s.fds (fdIndex s.sys.current fd)).nodeIdx.signExtend 64).toNat
        rw [hfds, Nat.mod_eq_of_lt (hinside.trans_lt hfit)]
        unfold offset setOffset
        rw [if_neg hopen.1.not_ge, if_pos hopen.1, Function.update_self]

/-! ## One byte -/

/-- The root directory with a file that holds one byte. -/
def byteFile : Vfs :=
  ⟨[{VfsNode.newDir [slash] 0 with inode := 1, children := [1]},
    {VfsNode.newFile [0x61] 0 with data := [0x62], size := 1}],3⟩

theorem byteFile_length (i : ℕ) : (byteFile.node i).data.length < 2^64 := by
  match i with
  | 0 => decide
  | 1 => decide
  | _+2 => exact Nat.two_pow_pos 64

/-- Task 1 with descriptor 0 on that file. -/
def byteTask (m : Machine) (root : ℕ) : State Vfs := {fileTask m root opened with vfs := byteFile}

theorem byteTask_root (m : Machine) (root : ℕ) : (byteTask m root).root = root :=
  caller_root m root

theorem exists_tables : ∃ m root, TaskTables m root ∧ UserMapped m root 0x400000 1 ∧
    isUserMapped m root 0x401000 = false := by
  obtain ⟨m₁,r,U,frames,m,ds,-,hreach,-,hreq,hnodup,hok⟩ := exists_task [] (by decide)
  have id := hreach.identity (by decide)
  have hframes : (ds.reverse.map Mapping.frame).Nodup := by
    rw [List.map_reverse]
    exact List.nodup_reverse.mpr hnodup
  refine ⟨m,U*4096,taskTables_of_userOk hreach.ok id hok hframes,?_,
    behindCode_unmapped hreach.ok id hreq hok⟩
  intro i hi
  exact ⟨canonical_low (by omega),codePage_mapped hreach.ok hreq hok (by omega)⟩

theorem read_delivers_one_byte : ∃ m root, UserMapped m root 0x400000 1 ∧
    Delivers (vfsFiles noPrograms) (byteTask m root) 0 0x400000 1 := by
  obtain ⟨m,root,ht,hmapped,-⟩ := exists_tables
  refine ⟨m,root,hmapped,?_⟩
  have hroot := byteTask_root m root
  apply (read_delivers_iff Nat.one_ne_zero ⟨by decide,rfl⟩ (by decide) (hroot.symm ▸ ht)
    byteFile_length 0x400000 1).mpr
  exact hroot.symm ▸ hmapped

/-- A read into the page behind the code reports one byte and moves the offset, although the copy
is refused. -/
theorem read_lost_byte : ∃ m root, TaskTables m root ∧ ¬UserMapped m root 0x401000 1 ∧
    (copyToUser m root 0x401000 (fun _ => 0x62) 1).outcome = .err UserCopy.efault ∧
    (sysRead (vfsFiles noPrograms) (byteTask m root) 0 0x401000 1).answer = .ret 1 ∧
    offset (byteTask m root).fds 1 0 = 0 ∧
    offset (sysRead (vfsFiles noPrograms) (byteTask m root) 0 0x401000 1).state.fds 1 0 = 1 := by
  obtain ⟨m,root,ht,-,hbehind⟩ := exists_tables
  have hno : ¬UserMapped m root 0x401000 1 := by
    intro h
    exact Bool.false_ne_true (hbehind.symm.trans (h 0 (by decide)).2)
  have hrefused : ∀ src, (copyToUser m root 0x401000 src 1).outcome = .err efault := by
    intro src
    have hat : WriteRefused m root 0x401000 src 1 0 :=
      ⟨by decide,nofun,by decide,by decide,hbehind⟩
    exact (hat.result (by decide)).1
  have hread : sysRead (vfsFiles noPrograms) (byteTask m root) 0 0x401000 1 =
      ⟨.ret 1,{(byteTask m root).setMachine
        (copyToUser m root 0x401000 (fun i => [(0x62 : UInt8)].getD i 0) 1).state.1 with
        fds := setOffset opened 1 0 1},
        (copyToUser m root 0x401000 (fun i => [(0x62 : UInt8)].getD i 0) 1).completed⟩ := by
    have hnode : node (byteTask m root).fds (byteTask m root).sys.current 0 = .ok 1 := rfl
    have hbytes : (vfsFiles noPrograms).readFileByNode (byteTask m root).vfs 1
        (offset (byteTask m root).fds (byteTask m root).sys.current 0) (min 1 512) =
        .ok [(0x62 : UInt8)] := rfl
    unfold sysRead
    rw [if_neg (by decide), hnode]
    dsimp only
    rw [hbytes, byteTask_root]
    dsimp only
    rw [if_neg (by decide), if_neg (show ¬(byteTask m root).sys.current = 0 from Nat.one_ne_zero),
      show (byteTask m root).sys.machine = m from rfl,
      show ([(0x62 : UInt8)] : List UInt8).length = 1 from rfl, hrefused]
    rfl
  refine ⟨m,root,ht,hno,hrefused _,?_,rfl,?_⟩
  · rw [hread]
  · rw [hread]
    rfl

end Zohara.ReadDelivery
