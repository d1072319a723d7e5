import Zohara.FdRuns
import Zohara.LinuxCompat
import Zohara.UserTransfer
import Zohara.Vfs

/-!
# Files behind descriptors (src/linux_compat.rs, src/fs/mod.rs)

The file system of the system calls is the in-memory tree. A task opens a file, writes,
seeks back to the start and reads. write and read send the numbers 1 and 2 to the serial
line before they look at the descriptor table, and openat hands out these numbers like all
others; so it depends on the entries 0, 1 and 2 of the task whether the new descriptor
stands for the file.

A range of no bytes counts as accessible. Programs come from a loader that is a parameter.
-/
namespace Zohara.OpenFiles
open FallibleState FdTable LinuxCompat UserCopy UserMemory UserTransfer Vfs
  Mmu PageTables UserTables SegmentPages KernelRuns FrameAllocator FrameRefinement Isolation

def readFileByNode (fs : Vfs) (nodeIdx offset len : ℕ) : Except String (List UInt8) :=
  if fs.nodes.length ≤ nodeIdx then .error "invalid node"
  else if (fs.node nodeIdx).nodeType ≠ .file then .error "not a file"
  else if offset ≥ (fs.node nodeIdx).data.length then .ok []
  else .ok (((fs.node nodeIdx).data.drop offset).take len)

def getFileSize (fs : Vfs) (nodeIdx : ℕ) : ℕ :=
  if nodeIdx < fs.nodes.length then (fs.node nodeIdx).size else 0

/-- A call into the tree; `none` when the kernel stops. -/
def call (x : Action Vfs ℕ) (fs : Vfs) : Option (Except String ℕ × Vfs) :=
  match x fs with
  | .ok n fs => some (.ok n,fs)
  | .error (.err msg) fs => some (.error msg,fs)
  | .error .panic _ => none

theorem readFileByNode_eq {fs : Vfs} {i off len : ℕ} {bytes : List UInt8}
    (h : readFileByNode fs i off len = .ok bytes) :
    bytes = ((fs.node i).data.drop off).take len := by
  unfold readFileByNode at h
  split_ifs at h with hlt htype hpast
  · cases h
    rw [List.drop_of_length_le hpast, List.take_nil]
  · cases h
    rfl

theorem readFileByNode_le (fs : Vfs) (i off len : ℕ) (bytes : List UInt8)
    (h : readFileByNode fs i off len = .ok bytes) : bytes.length ≤ len := by
  rw [readFileByNode_eq h]
  exact List.length_take_le _ _

def vfsFiles (loadProgram : Vfs → List UInt8 → Except Int (ℕ × List UInt8)) : FileSystem Vfs where
  readFileByNode := readFileByNode
  writeFileByNode fs nodeIdx offset data := call (Vfs.writeFileByNode nodeIdx offset data) fs
  resolvePathIdx fs path := fs.resolvePath path
  createDir fs path := call (Vfs.createDir path) fs
  nodeSize := getFileSize
  loadProgram := loadProgram
  read_le := readFileByNode_le

/-- Everything that a write, a seek to the start and a read of the same length do. -/
def RoundTrip (fs : FileSystem Vfs) (s : State Vfs) (idx fd : ℕ) : Prop :=
  ∀ src dst len, len ≤ 512 → Accessible s.sys.machine s.root src len →
    Accessible s.sys.machine s.root dst len →
    let w := sysWrite fs s fd src len
    let l := sysLseek fs w.state fd 0 0
    let r := sysRead fs l.state fd dst len
    w.answer = .ret len ∧ l.answer = .ret 0 ∧ r.answer = .ret len ∧
      ∀ i < len, (r.state.vfs.node idx).data[i]? = some (byteAt s.sys.machine s.root (src+i)) ∧
        readVirt r.state.sys.machine s.root (dst+i) =
          some (byteAt s.sys.machine s.root (src+i))

/-! ## The tree -/

def IsFile (fs : Vfs) (idx : ℕ) : Prop :=
  idx < fs.nodes.length ∧ (fs.node idx).nodeType = .file

section
variable {fs : Vfs} {idx : ℕ} {data : List UInt8}

theorem call_write (data : List UInt8) (h : IsFile fs idx) (hlen : data.length < 2^64) : ∃ fs',
    call (Vfs.writeFileByNode idx 0 data) fs = some (.ok data.length,fs') ∧ IsFile fs' idx ∧
      (fs'.node idx).data = data++(fs.node idx).data.drop data.length := by
  have hsmall : ¬2^64 ≤ 0+data.length := by omega
  have hdata : ∀ old : List UInt8,
      (old++List.replicate (0+data.length-old.length) 0).take 0++data++
        (old++List.replicate (0+data.length-old.length) 0).drop (0+data.length) =
      data++old.drop data.length := by
    intro old
    rw [List.take_zero, List.nil_append, Nat.zero_add, List.drop_append, List.drop_replicate,
      show data.length-old.length-(data.length-old.length) = 0 by omega, List.replicate_zero,
      List.append_nil]
  unfold call Vfs.writeFileByNode
  simp only [get_bind, if_neg h.1.not_ge, h.2, ne_eq, not_true_eq_false, if_false, if_neg hsmall,
    set_bind, pure, EStateM.pure, hdata]
  refine ⟨_,rfl,⟨?_,?_⟩,?_⟩
  · rw [length_setNode]
    exact h.1
  · rw [node_set_self _ h.1]
  · rw [node_set_self _ h.1]

theorem readFileByNode_start (h : IsFile fs idx) {rest : List UInt8}
    (hd : (fs.node idx).data = data++rest) : readFileByNode fs idx 0 data.length = .ok data := by
  unfold readFileByNode
  rw [if_neg h.1.not_ge, if_neg (by rw [h.2]; exact fun hn => hn rfl), hd]
  split_ifs with h0
  · have hnil : data = [] := by
      rw [List.length_append] at h0
      exact List.length_eq_zero_iff.mp (by omega)
    rw [hnil]
  · rw [List.drop_zero, List.take_left]

end

/-! ## Descriptors -/

section
variable {t : Table} {taskId fd idx : ℕ}

theorem signExtend_small (h : idx < 2^31) : ((BitVec.ofNat 32 idx).signExtend 64).toNat = idx := by
  rw [BitVec.toNat_signExtend, BitVec.msb_eq_decide, BitVec.toNat_setWidth, BitVec.toNat_ofNat,
    Nat.mod_eq_of_lt (show idx < 2^32 by omega), Nat.mod_eq_of_lt (by omega)]
  rw [decide_eq_false (by omega)]
  exact Nat.add_zero idx

/-- An entry that stands for the node `idx` at offset `off`. -/
def Stands (t : Table) (taskId fd idx off : ℕ) : Prop :=
  node t taskId fd = .ok idx ∧ offset t taskId fd = off ∧ IsOpen t taskId fd

theorem openFd_stands {t' : Table} (h : openFd t taskId idx = (.ok fd,t')) (hidx : idx < 2^31) :
    lowestFree t taskId = some fd ∧ Stands t' taskId fd idx 0 := by
  unfold openFd at h
  by_cases h0 : taskId = 0
  · rw [if_pos h0] at h
    cases h
  rw [if_neg h0] at h
  cases hl : lowestFree t taskId with
  | none =>
    rw [hl] at h
    cases h
  | some a =>
    rw [hl] at h
    cases h
    have hfd := (lowestFree_some hl).1
    have hfree : FdEntry.isFree ⟨BitVec.ofNat 32 idx,0⟩ = false := by
      rw [Bool.eq_false_iff, ne_eq, isFree_iff]
      intro he
      have hnat := congrArg BitVec.toNat he
      rw [BitVec.toNat_ofNat, Nat.mod_eq_of_lt (by omega)] at hnat
      have hbound : idx = 2^32-1 := hnat
      omega
    refine ⟨rfl,?_,?_,hfd,?_⟩
    · unfold node
      rw [if_neg hfd.not_ge, Function.update_self, hfree, if_neg Bool.false_ne_true]
      exact congrArg Except.ok (signExtend_small hidx)
    · unfold offset
      rw [if_neg hfd.not_ge, Function.update_self]
    · rw [Function.update_self]
      exact hfree

theorem Stands.setOffset {off : ℕ} (h : Stands t taskId fd idx off) (new : ℕ) :
    Stands (FdTable.setOffset t taskId fd new) taskId fd idx new := by
  obtain ⟨hnode,-,hfd,hopen⟩ := h
  have hlt : ¬fd ≥ maxFds := Nat.not_le_of_lt hfd
  unfold FdTable.setOffset
  rw [if_pos hfd]
  refine ⟨?_,?_,hfd,?_⟩
  · unfold node at hnode ⊢
    rw [if_neg hlt] at hnode ⊢
    rw [Function.update_self]
    exact hnode
  · unfold offset
    rw [if_neg hlt, Function.update_self]
  · rw [Function.update_self]
    exact hopen

theorem Stands.rewind {off : ℕ} (h : Stands t taskId fd idx off) (size : ℕ) :
    (lseek t taskId fd 0 0 size).1 = 0 ∧
      Stands (lseek t taskId fd 0 0 size).2 taskId fd idx 0 := by
  have hset := h.setOffset 0
  unfold FdTable.setOffset at hset
  rw [if_pos h.2.2.1] at hset
  unfold lseek
  rw [if_neg h.2.2.1.not_ge]
  dsimp only
  rw [h.2.2.2, if_neg Bool.false_ne_true]
  exact ⟨rfl,hset⟩

theorem lowestFree_serial (h : lowestFree t taskId = some fd) : (fd = 1 ∨ fd = 2) ↔
    ¬(IsUnused t taskId 0 ∨ (IsOpen t taskId 1 ∧ IsOpen t taskId 2)) := by
  have hfree : IsUnused t taskId fd := lowestFree_some h
  have hleast := lowestFree_least h
  constructor
  · intro hfd hor
    rcases hor with h0 | ⟨h1,h2⟩
    · exact hleast 0 (by omega) h0
    · rcases hfd with rfl | rfl
      · exact h1.not_isUnused hfree
      · exact h2.not_isUnused hfree
  · intro hn
    by_contra hfd
    apply hn
    by_cases h0 : fd = 0
    · rw [h0] at hfree
      exact .inl hfree
    · right
      have h1 : IsOpen t taskId 1 := (isUnused_or_isOpen (by decide)).resolve_left (hleast 1 (by omega))
      have h2 : IsOpen t taskId 2 := (isUnused_or_isOpen (by decide)).resolve_left (hleast 2 (by omega))
      exact ⟨h1,h2⟩

end

/-! ## The system calls -/

variable {m : Machine}

theorem cstrLoop_err {root ptr : ℕ} {code : Int} (left i : ℕ) (buf : List UInt8)
    (touched : List (ℕ × ℕ)) (h : (cstrLoop m root ptr left i buf touched).outcome = .err code) :
    code = efault := by
  induction left generalizing i buf touched with
  | zero => cases h
  | succ left ih =>
    rw [cstrLoop] at h
    dsimp only at h
    split_ifs at h
    · cases h
      rfl
    · exact ih _ _ _ h

section
variable (load : Vfs → List UInt8 → Except Int (ℕ × List UInt8)) {s : State Vfs} {idx fd : ℕ}

theorem openat_answered {path : ℕ}
    (hpath : s.vfs.resolvePath (copyFromUserCstr s.sys.machine s.root path 256).state = some idx)
    (hopen : (sysOpenat (vfsFiles load) s path).answer = .ret fd) :
    ∃ t, openFd s.fds s.sys.current idx = (.ok fd,t) ∧
      (sysOpenat (vfsFiles load) s path).state = {s with fds := t} := by
  unfold sysOpenat withPath at hopen ⊢
  dsimp only at hopen ⊢
  cases ho : (copyFromUserCstr s.sys.machine s.root path 256).outcome with
  | ok n =>
    rw [ho] at hopen
    rw [show (vfsFiles load).resolvePathIdx s.vfs = s.vfs.resolvePath from rfl] at hopen ⊢
    simp only [stopped, hpath] at hopen ⊢
    cases hf : openFd s.fds s.sys.current idx with
    | mk r t =>
      rw [hf] at hopen
      cases r with
      | ok a =>
        obtain rfl : a = fd := Int.ofNat.inj (Answer.ret.inj hopen)
        exact ⟨t,rfl,rfl⟩
      | error e =>
        have hneg : enomem = (fd : Int) := Answer.ret.inj hopen
        unfold enomem at hneg
        omega
  | err code =>
    rw [ho] at hopen
    have hcode : code = (fd : Int) := Answer.ret.inj hopen
    have hfault := cstrLoop_err _ _ _ _ ho
    unfold efault at hfault
    omega
  | panic | fault a | hang => rw [ho] at hopen; cases hopen

/-- What the caller sees in a range. -/
def bytesAt (m : Machine) (root a n : ℕ) : List UInt8 :=
  (List.range n).map fun i => byteAt m root (a+i)

theorem length_bytesAt (m : Machine) (root a n : ℕ) : (bytesAt m root a n).length = n := by
  unfold bytesAt
  rw [List.length_map, List.length_range]

theorem getElem?_bytesAt {root a n i : ℕ} (h : i < n) :
    (bytesAt m root a n)[i]? = some (byteAt m root (a+i)) := by
  unfold bytesAt
  rw [List.getElem?_map, List.getElem?_range h]
  rfl

theorem copyFromUser_bytes {root a n : ℕ} (h : Accessible m root a n)
    (hn : n ≤ maxUserCopy) : (copyFromUser m root a n fun _ => 0).outcome = .ok n ∧
      ByteMemory.read (copyFromUser m root a n fun _ => 0).state 0 n = bytesAt m root a n := by
  obtain ⟨hok,hbytes⟩ := copyFromUser_accessible h hn fun _ => 0
  refine ⟨hok,?_⟩
  unfold ByteMemory.read bytesAt
  apply List.map_congr_left
  intro i hi
  rw [Nat.zero_add]
  exact hbytes i (List.mem_range.mp hi)

theorem sysWrite_file (hcur : s.sys.current ≠ 0) (hserial : ¬(fd = 1 ∨ fd = 2))
    (hst : Stands s.fds s.sys.current fd idx 0) (hfile : IsFile s.vfs idx) {src len : ℕ}
    (hlen : len ≤ 512) (hacc : Accessible s.sys.machine s.root src len) : ∃ vfs t rest accessed,
    sysWrite (vfsFiles load) s fd src len = ⟨.ret len,{s with vfs := vfs, fds := t},accessed⟩ ∧
      Stands t s.sys.current fd idx len ∧ IsFile vfs idx ∧
      (vfs.node idx).data = bytesAt s.sys.machine s.root src len++rest := by
  obtain ⟨hok,hread⟩ := copyFromUser_bytes hacc (show len ≤ maxUserCopy from hlen)
  have hb := length_bytesAt s.sys.machine s.root src len
  obtain ⟨vfs,hcall,hfile',hdata⟩ := call_write
    (bytesAt s.sys.machine s.root src len) hfile (by omega)
  rw [hb] at hcall
  have hadd : (0+len)%2^64 = len := by omega
  unfold sysWrite
  rw [if_neg hserial, hst.1]
  dsimp only
  rw [if_neg hcur, hst.2.1, Nat.min_eq_left hlen, hok]
  simp only [stopped]
  rw [hread]
  unfold writeNode
  rw [show (vfsFiles load).writeFileByNode s.vfs idx 0 _ = _ from hcall]
  dsimp only
  rw [hadd]
  exact ⟨vfs,_,_,_,rfl,hst.setOffset len,hfile',hdata⟩

theorem sysRead_file (data : List UInt8) (hcur : s.sys.current ≠ 0) (hserial : ¬(fd = 1 ∨ fd = 2))
    (hsp : UserSpace s.sys.machine s.root) (hst : Stands s.fds s.sys.current fd idx 0)
    (hfile : IsFile s.vfs idx) {rest : List UInt8} (hdata : (s.vfs.node idx).data = data++rest)
    {dst : ℕ} (hlen : data.length ≤ 512)
    (hacc : Accessible s.sys.machine s.root dst data.length) :
    (sysRead (vfsFiles load) s fd dst data.length).answer = .ret data.length ∧
    (sysRead (vfsFiles load) s fd dst data.length).state.vfs = s.vfs ∧
    ∀ i < data.length, readVirt (sysRead (vfsFiles load) s fd dst data.length).state.sys.machine
      s.root (dst+i) = some (data.getD i 0) := by
  obtain ⟨hok,hbytes⟩ := copyToUser_accessible hsp hacc fun i => data.getD i 0
  unfold sysRead
  rw [if_neg hserial, hst.1]
  dsimp only
  rw [hst.2.1, Nat.min_eq_left hlen,
    show (vfsFiles load).readFileByNode s.vfs idx 0 data.length = _ from
      readFileByNode_start hfile hdata]
  dsimp only
  by_cases h0 : data.length = 0
  · rw [if_pos h0, h0]
    exact ⟨rfl,rfl,nofun⟩
  · rw [if_neg h0, if_neg hcur, hok]
    exact ⟨rfl,rfl,hbytes⟩

theorem sysLseek_file (fs : FileSystem Vfs) {off : ℕ} (hst : Stands s.fds s.sys.current fd idx off) :
    ∃ t, sysLseek fs s fd 0 0 = ⟨.ret 0,{s with fds := t},[]⟩ ∧ Stands t s.sys.current fd idx 0 := by
  obtain ⟨hans,hst'⟩ := hst.rewind (fs.nodeSize s.vfs idx)
  unfold sysLseek
  rw [hst.1]
  dsimp only
  rw [hans]
  exact ⟨_,rfl,hst'⟩

theorem roundTrip_file (hcur : s.sys.current ≠ 0) (hserial : ¬(fd = 1 ∨ fd = 2))
    (hsp : UserSpace s.sys.machine s.root) (hst : Stands s.fds s.sys.current fd idx 0)
    (hfile : IsFile s.vfs idx) : RoundTrip (vfsFiles load) s idx fd := by
  intro src dst len hlen hsrc hdst
  have hb := length_bytesAt s.sys.machine s.root src len
  obtain ⟨vfs,t,rest,accessed,hw,hst₁,hfile₁,hdata⟩ := sysWrite_file load hcur hserial hst
    hfile hlen hsrc
  obtain ⟨t',hl,hst₂⟩ := sysLseek_file (s := {s with vfs := vfs, fds := t}) (vfsFiles load) hst₁
  obtain ⟨hans,hvfs,hbytes⟩ := sysRead_file load
    (s := {s with vfs := vfs, fds := t'}) (bytesAt s.sys.machine s.root src len) hcur hserial hsp hst₂ hfile₁ hdata
    (by rw [hb]; exact hlen) (by rw [hb]; exact hdst)
  rw [hb] at hans hvfs hbytes
  dsimp only
  rw [hw]
  dsimp only
  rw [hl]
  refine ⟨rfl,rfl,hans,fun i hi => ⟨?_,?_⟩⟩
  · rw [hvfs, hdata, List.getElem?_append_left (by rw [hb]; exact hi), getElem?_bytesAt hi]
  · refine (hbytes i hi).trans ?_
    rw [List.getD_eq_getElem?_getD, getElem?_bytesAt hi]
    rfl

/-- The numbers 1 and 2 never reach the table: a write of nothing from address 300 is a
write of 300 bytes to the serial line, and refused. -/
theorem not_roundTrip_serial (hserial : fd = 1 ∨ fd = 2) : ¬RoundTrip (vfsFiles load) s idx fd := by
  intro h
  have hnone : Accessible s.sys.machine s.root 300 0 :=
    ⟨by decide,nofun⟩
  have hw := (h 300 300 0 (by decide) hnone hnone).1
  unfold sysWrite at hw
  rw [if_pos hserial] at hw
  unfold syscallWrite at hw
  rw [if_pos (by decide)] at hw
  cases hw

end

/-- A descriptor from openat behaves as the file exactly when it is neither 1 nor 2. -/
theorem openat_roundTrip_iff {load : Vfs → List UInt8 → Except Int (ℕ × List UInt8)}
    {s : State Vfs} {path idx fd : ℕ} (hcur : s.sys.current ≠ 0)
    (hsp : UserSpace s.sys.machine s.root) (hnodes : s.vfs.nodes.length ≤ 2^31)
    (hpath : s.vfs.resolvePath (copyFromUserCstr s.sys.machine s.root path 256).state = some idx)
    (hfile : IsFile s.vfs idx) (hopen : (sysOpenat (vfsFiles load) s path).answer = .ret fd) :
    RoundTrip (vfsFiles load) (sysOpenat (vfsFiles load) s path).state idx fd ↔
      IsUnused s.fds s.sys.current 0 ∨
        (IsOpen s.fds s.sys.current 1 ∧ IsOpen s.fds s.sys.current 2) := by
  obtain ⟨t,hfd,hstate⟩ := openat_answered load hpath hopen
  obtain ⟨hlow,hst⟩ := openFd_stands hfd (by have := hfile.1; omega)
  have hserial := lowestFree_serial hlow
  rw [hstate]
  constructor
  · intro hrt
    by_contra hn
    exact not_roundTrip_serial load (hserial.mpr hn) hrt
  · intro hc
    exact roundTrip_file load (s := {s with fds := t}) hcur (fun hs => hserial.mp hs hc) hsp hst hfile

/-! ## A task on a booted kernel -/

/-- A root directory with the file "a". -/
def oneFile : Vfs :=
  ⟨[{VfsNode.newDir [slash] 0 with inode := 1, children := [1]},VfsNode.newFile [0x61] 0],3⟩

def noPrograms : Vfs → List UInt8 → Except Int (ℕ × List UInt8) := fun _ _ => .error enoent

/-- Task 1 with the descriptors `fds`. -/
def fileTask (m : Machine) (root : ℕ) (fds : Table) : State Vfs := ⟨(caller m root).sys,fds,oneFile,[]⟩

theorem fileTask_root (m : Machine) (root : ℕ) (fds : Table) : (fileTask m root fds).root = root :=
  caller_root m root

theorem exists_string (b : UInt8) : ∃ m root, UserSpace m root ∧ Accessible m root 0x400000 2 ∧
    readVirt m root 0x400000 = some b ∧ readVirt m root 0x400001 = some 0 := by
  obtain ⟨m₁,r,U,frames,m,ds,-,hreach,-,hreq,hnodup,hok⟩ := exists_task [] (by decide)
  have id := hreach.identity (by decide)
  have hframes : (ds.reverse.map Mapping.frame).Nodup := by
    rw [List.map_reverse]
    exact List.nodup_reverse.mpr hnodup
  have hpage : ∀ x, x/4096 = 0x400 → isUserMapped m (U*4096) x = true :=
    fun x hx => codePage_mapped hreach.ok hreq hok hx
  have hsp := userSpace_of_userOk hreach.ok id hok hframes
  -- the two bytes are stored one after the other
  have ha : (0x400000 : ℕ) < 2^47 := by decide
  have hb : (0x400001 : ℕ) < 2^47 := by decide
  have hok₁ := storeVirt_ok hreach.ok id hok (hpage 0x400000 (by decide)) (canonical_low ha) b
  obtain ⟨ho₁,hread₁,-⟩ := hsp.store (.refl m _) ha (hpage 0x400000 (by decide)) b
  have hpage₁ : isUserMapped (storeVirt (U*4096) m 0x400000 b) (U*4096) 0x400001 = true := by
    rw [(ho₁.walk hsp.apart _).1]
    exact hpage _ (by decide)
  have hok₂ := storeVirt_ok hreach.ok id hok₁ hpage₁ (canonical_low hb) 0
  obtain ⟨ho₂,hread₂,hkept⟩ := hsp.store ho₁ hb (hpage 0x400001 (by decide)) 0
  refine ⟨_,U*4096,userSpace_of_userOk hreach.ok id hok₂ hframes,⟨by decide,?_⟩,?_,hread₂⟩
  · intro i hi
    rw [(ho₂.walk hsp.apart _).1]
    exact hpage _ (by omega)
  · rw [hkept 0x400000 ha (hpage _ (by decide)) (by decide)]
    exact hread₁

theorem exists_path : ∃ m root, UserSpace m root ∧ Accessible m root 0x400000 2 ∧
    readVirt m root 0x400000 = some 0x61 ∧ readVirt m root 0x400001 = some 0 :=
  exists_string 0x61

theorem cstr_path {root : ℕ} (hacc : Accessible m root 0x400000 2)
    (h₁ : readVirt m root 0x400000 = some 0x61) (h₂ : readVirt m root 0x400001 = some 0) :
    copyFromUserCstr m root 0x400000 256 = ⟨.ok 1,[0x61],[(0x400000,1),(0x400001,1)]⟩ := by
  have hm₁ : isUserMapped m root 0x400000 = true := hacc.2 0 (by decide)
  have hm₂ : isUserMapped m root 0x400001 = true := hacc.2 1 (by decide)
  have hr₁ := reachable_of_test hm₁ (canonical_low (by decide))
  have hr₂ := reachable_of_test hm₂ (canonical_low (by decide))
  have hloop : cstrLoop m root 0x400000 255 0 [] [] = ⟨.ok 1,[0x61],[(0x400000,1),(0x400001,1)]⟩ := by
    change cstrLoop m root 0x400000 (253+1+1) 0 [] [] = _
    rw [cstrLoop]
    simp only [Nat.add_zero, show 0x400000%2^64 = 0x400000 by decide, hm₁, hr₁, h₁, Bool.not_true,
      Bool.false_eq_true, if_false, Option.getD_some]
    rw [if_neg (by decide), cstrLoop]
    simp only [Nat.zero_add, show (0x400000+1)%2^64 = 0x400001 by decide, hm₂, hr₂, h₂,
      Bool.not_true, Bool.false_eq_true, if_false, Option.getD_some, if_true]
    rfl
  unfold copyFromUserCstr
  rw [show min 256 255 = 255 by decide, hloop]
  rfl

theorem openat_path {root fd : ℕ} {fds t : Table}
    (hc : copyFromUserCstr m root 0x400000 256 = ⟨.ok 1,[0x61],[(0x400000,1),(0x400001,1)]⟩)
    (hfd : openFd fds 1 1 = (.ok fd,t)) :
    sysOpenat (vfsFiles noPrograms) (fileTask m root fds) 0x400000 =
      ⟨.ret fd,fileTask m root t,[(0x400000,1),(0x400001,1)]⟩ := by
  unfold sysOpenat withPath
  rw [fileTask_root, show (fileTask m root fds).sys.machine = m from rfl, hc]
  dsimp only [stopped]
  rw [show (vfsFiles noPrograms).resolvePathIdx (fileTask m root fds).vfs [0x61] = some 1 from rfl]
  dsimp only
  rw [show openFd (fileTask m root fds).fds (fileTask m root fds).sys.current 1 = (.ok fd,t) from hfd]
  rfl

theorem first_file_roundTrip : ∃ m root,
    RoundTrip (vfsFiles noPrograms) (sysOpenat (vfsFiles noPrograms)
      (fileTask m root emptyTable) 0x400000).state 1 0 := by
  obtain ⟨m,root,hsp,hacc,h₁,h₂⟩ := exists_path
  have hc := cstr_path hacc h₁ h₂
  have hroot := fileTask_root m root emptyTable
  refine ⟨m,root,(openat_roundTrip_iff Nat.one_ne_zero (hroot ▸ hsp)
    (show oneFile.nodes.length ≤ 2^31 by decide) ?_ (show IsFile oneFile 1 from ⟨by decide,rfl⟩) ?_).mpr (.inl ⟨by decide,rfl⟩)⟩
  · rw [hroot, show (fileTask m root emptyTable).sys.machine = m from rfl, hc]
    rfl
  · rw [openat_path hc (show openFd emptyTable 1 1 = (.ok 0,_) from rfl)]

/-- The second file of a task gets the number 1, and nothing can be written to it. -/
theorem second_file_not_written : ∃ m root fds,
    openFd emptyTable 1 1 = (.ok 0,fds) ∧
    (sysOpenat (vfsFiles noPrograms) (fileTask m root fds) 0x400000).answer = .ret 1 ∧
    Accessible m root 0x400000 1 ∧
    (sysWrite (vfsFiles noPrograms) (sysOpenat (vfsFiles noPrograms) (fileTask m root fds)
      0x400000).state 1 0x400000 1).answer = .ret (-1) ∧
    (sysWrite (vfsFiles noPrograms) (sysOpenat (vfsFiles noPrograms) (fileTask m root fds)
      0x400000).state 1 0x400000 1).state.vfs = oneFile := by
  obtain ⟨m,root,hsp,hacc,h₁,h₂⟩ := exists_path
  have hopen : openFd emptyTable 1 1 = (.ok 0,(openFd emptyTable 1 1).2) := rfl
  have hnext : openFd (openFd emptyTable 1 1).2 1 1 = (.ok 1,(openFd (openFd emptyTable 1 1).2 1 1).2) :=
    rfl
  refine ⟨m,root,_,hopen,?_⟩
  rw [openat_path (cstr_path hacc h₁ h₂) hnext]
  exact ⟨rfl,⟨by decide,fun i hi => hacc.2 i (by omega)⟩,rfl,rfl⟩

end Zohara.OpenFiles
