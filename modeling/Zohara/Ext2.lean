import Zohara.IdeDisk
import Zohara.Vfs

/-!
# Files and directories of ext2 (src/fs/ext2.rs)

A file is read through twelve direct pointers and one indirect block; the double and triple
indirect blocks are not used by the code. The two loops differ in where the pointers come from and
are one definition here. The buffer for a block is as long as a block, so every sector of it has
room. Sums and products of sector numbers wrap at 2^32.

A pointer that is zero is skipped without moving on in the file, so the blocks behind a hole come
too early. A directory record that is not in use ends the listing, and the name of a record is
taken without a look at the end of the directory.
-/
namespace Zohara.Ext2
open ByteMemory FallibleState IdeDisk List Option Nat

/-! ## The source -/

/-- The block size is 1024 shifted to the left. -/
structure Ext2Fs where
  logBlockSize : ℕ
  partitionOffset : ℕ

def Ext2Fs.blockSize (fs : Ext2Fs) : ℕ := 1024*2^fs.logBlockSize

/-- The fields that reading uses. -/
structure Ext2Inode where
  size : ℕ
  block : List ℕ

structure Ext2DirEntry where
  inode : ℕ
  name : List UInt8
  fileType : UInt8
  deriving DecidableEq

section
variable (fs : Ext2Fs) (disk : IdeDisk)

def readBlockFrom (startSector : ℕ) : ℕ → ℕ → Action Drives (List UInt8)
  | _,0 => pure []
  | s,n+1 => do
    let sector ← disk.readSector ((startSector+s)%2^32)
    let rest ← readBlockFrom startSector (s+1) n
    return sector++rest

def readBlock (block : ℕ) : Action Drives (List UInt8) :=
  let sectorsPerBlock := fs.blockSize/sectorSize
  readBlockFrom disk ((fs.partitionOffset+block*sectorsPerBlock)%2^32) 0 sectorsPerBlock

/-- The loop over block pointers; the state is the offset and the buffer. -/
def copyBlocks (size : ℕ) : List ℕ → ℕ × List UInt8 → Action Drives (ℕ × List UInt8)
  | [],s => pure s
  | block::blocks,(offset,buf) =>
    if offset ≥ buf.length ∨ offset ≥ size then pure (offset,buf)
    else if block = 0 then copyBlocks size blocks (offset,buf)
    else do
      let blockBuf ← readBlock fs disk block
      let toCopy := min (buf.length-offset) (min (size-offset) fs.blockSize)
      copyBlocks size blocks (offset+toCopy,patch buf offset (blockBuf.take toCopy))

/-- The pointers of an indirect block. -/
def entriesOf (indirectBuf : List UInt8) : List ℕ :=
  (List.range (fs.blockSize/4)).map fun i => leNat ((indirectBuf.drop (i*4)).take 4)

def readFileData (inode : Ext2Inode) (size : ℕ) (buf : List UInt8) :
    Action Drives (ℕ × List UInt8) := do
  let (offset,buf) ← copyBlocks fs disk size (inode.block.take 12) (0,buf)
  let indirect := inode.block.getD 12 0
  if offset < buf.length ∧ offset < size ∧ indirect ≠ 0 then
    let indirectBuf ← readBlock fs disk indirect
    copyBlocks fs disk size (entriesOf fs indirectBuf) (offset,buf)
  else return (offset,buf)

end

def recordLen (rest : List UInt8) : ℕ := leNat ((rest.drop 4).take 2)

/-- The record is in use and leads on. -/
def Used (rest : List UInt8) : Prop := 8 ≤ rest.length ∧ leNat (rest.take 4) ≠ 0 ∧ recordLen rest ≠ 0

instance (rest : List UInt8) : Decidable (Used rest) := inferInstanceAs (Decidable (_ ∧ _))

def nameLen (rest : List UInt8) : ℕ := (rest.getD 6 0).toNat

theorem drop_record {rest : List UInt8} (h : Used rest) :
    (rest.drop (recordLen rest)).length < rest.length := by
  have := h.1
  have := h.2.2
  rw [length_drop]
  omega

/-- The loop of readdir, from the bytes that are left; `none` is the panic of a slice that is out
of range. -/
def parseDir (rest : List UInt8) : Option (List Ext2DirEntry) :=
  if h : Used rest then
    if nameLen rest = 0 then parseDir (rest.drop (recordLen rest))
    else if rest.length < 8+nameLen rest then none
    else (parseDir (rest.drop (recordLen rest))).map
      (⟨leNat (rest.take 4),Vfs.Vfs.text ((rest.drop 8).take (nameLen rest)),rest.getD 7 0⟩::·)
  else some []
termination_by rest.length
decreasing_by all_goals exact drop_record h

def readdir (fs : Ext2Fs) (disk : IdeDisk) (inode : Ext2Inode) :
    Action Drives (List Ext2DirEntry) := do
  let (_,dirBuf) ← readFileData fs disk inode inode.size (List.replicate inode.size 0)
  match parseDir dirBuf with
  | some entries => return entries
  | none => throw .panic

/-! ## Files -/

section
variable {fs : Ext2Fs} {disk : IdeDisk} {w : Drives}

/-- The bytes of a block. -/
def Ext2Fs.bytes (fs : Ext2Fs) (m : Memory) (block : ℕ) : List UInt8 :=
  read m ((fs.partitionOffset+block*(fs.blockSize/sectorSize))*sectorSize) fs.blockSize

def Ext2Fs.Inside (fs : Ext2Fs) (disk : IdeDisk) (block : ℕ) : Prop :=
  fs.partitionOffset+(block+1)*(fs.blockSize/sectorSize) ≤ disk.totalSectors

/-- The direct pointers, and those of the indirect block if there is one. -/
def Ext2Fs.pointers (fs : Ext2Fs) (m : Memory) (inode : Ext2Inode) : List ℕ :=
  inode.block.take 12++
    if inode.block.getD 12 0 = 0 then [] else entriesOf fs (fs.bytes m (inode.block.getD 12 0))

/-- The byte of the file at an offset. -/
def Ext2Fs.byteAt (fs : Ext2Fs) (m : Memory) (inode : Ext2Inode) (o : ℕ) : UInt8 :=
  let block := (fs.pointers m inode).getD (o/fs.blockSize) 0
  if block = 0 then 0 else (fs.bytes m block).getD (o%fs.blockSize) 0

/-- Every block of the file is mapped. -/
def Ext2Fs.Dense (fs : Ext2Fs) (m : Memory) (inode : Ext2Inode) (size : ℕ) : Prop :=
  ∀ o < size, (fs.pointers m inode).getD (o/fs.blockSize) 0 ≠ 0

def tiny : Ext2Fs := ⟨0,0⟩

def drive : IdeDisk := ⟨0x1F0,false,100⟩

end

/-! ## Name ranges -/

/-- The places that the loop comes to, as the bytes that are left. -/
inductive Visited (dir : List UInt8) : List UInt8 → Prop
  | start : Visited dir dir
  | next {rest : List UInt8} : Visited dir rest → Used rest → Visited dir (rest.drop (recordLen rest))

theorem Visited.trans {a b c : List UInt8} (h : Visited a b) (h' : Visited b c) : Visited a c := by
  induction h' with
  | start => exact h
  | next _ hu ih => exact .next ih hu

/-- The names of all records that the loop comes to end inside of the directory. -/
def NamesInside (dir : List UInt8) : Prop :=
  ∀ rest, Visited dir rest → Used rest → 8+nameLen rest ≤ rest.length

theorem Visited.first {dir rest : List UInt8} (h : Visited dir rest) :
    rest = dir ∨ (Used dir ∧ Visited (dir.drop (recordLen dir)) rest) := by
  induction h with
  | start => exact .inl rfl
  | next _ hu ih =>
    rcases ih with rfl | ⟨hd,hv⟩
    · exact .inr ⟨hu,.start⟩
    · exact .inr ⟨hd,.next hv hu⟩

/-- The loop of readdir ends, and it stays inside of the directory exactly if the names of all
records that it comes to do. -/
theorem parseDir_inside_iff (dir : List UInt8) : (∃ es, parseDir dir = some es) ↔ NamesInside dir := by
  fun_induction parseDir dir with
  | case1 rest h hz ih =>
    rw [ih]
    constructor
    · intro hin r hv hu
      rcases hv.first with rfl | ⟨-,hv⟩
      · rw [hz]
        exact h.1
      · exact hin r hv hu
    · exact fun hin r hv => hin r ((Visited.next .start h).trans hv)
  | case2 rest h hz hlt =>
    constructor
    · rintro ⟨es,⟨⟩⟩
    · intro hin
      have := hin rest .start h
      omega
  | case3 rest h hz hlt ih =>
    simp only [map_eq_some_iff]
    constructor
    · rintro ⟨_,es,hes,rfl⟩ r hv hu
      rcases hv.first with rfl | ⟨-,hv⟩
      · omega
      · exact ih.mp ⟨es,hes⟩ r hv hu
    · intro hin
      obtain ⟨es,hes⟩ := ih.mpr fun r hv => hin r ((Visited.next .start h).trans hv)
      exact ⟨_,es,hes,rfl⟩
  | case4 rest h =>
    refine ⟨fun _ r hv hu => ?_,fun _ => ⟨_,rfl⟩⟩
    rcases hv.first with rfl | ⟨hd,-⟩
    · exact absurd hu h
    · exact absurd hd h

/-- A record at the end of the directory whose name has five bytes, of which two are there. -/
theorem parseDir_panics : ¬∃ es, parseDir [12,0,0,0,10,0,5,1,0x61,0x62] = some es := by
  rw [show parseDir [12,0,0,0,10,0,5,1,0x61,0x62] = none by decide +kernel]
  simp

/-! ## Well-formed directories -/

structure Record where
  inode : ℕ
  name : List UInt8
  fileType : UInt8
  /-- What stands behind the name. -/
  slack : List UInt8
  inode_lt : inode < 2^32
  name_ne : name ≠ []
  name_le : name.length ≤ 255
  len_lt : 8+name.length+slack.length < 2^16
  valid : (ByteArray.mk name.toArray).validateUTF8 = true

namespace Record

def encode (r : Record) : List UInt8 :=
  toLe 4 r.inode++toLe 2 (8+r.name.length+r.slack.length)++
    [UInt8.ofNat r.name.length,r.fileType]++r.name++r.slack

def entry (r : Record) : Ext2DirEntry := ⟨r.inode,r.name,r.fileType⟩

theorem length_encode (r : Record) : r.encode.length = 8+r.name.length+r.slack.length := by
  simp [encode]
  omega

variable (r : Record) (tail : List UInt8)

theorem recordLen_encode : recordLen (r.encode++tail) = r.encode.length := by
  have := r.len_lt
  rw [length_encode, recordLen, encode]
  simp [leNat_toLe]
  omega

theorem inode_encode : leNat ((r.encode++tail).take 4) = r.inode := by
  have := r.inode_lt
  simp [encode, leNat_toLe]
  omega

theorem nameLen_encode : nameLen (r.encode++tail) = r.name.length := by
  have := r.name_le
  simp [nameLen, encode, toLe]
  omega

theorem name_encode : ((r.encode++tail).drop 8).take r.name.length = r.name := by
  simp [encode, toLe]

theorem type_encode : (r.encode++tail).getD 7 0 = r.fileType := by
  simp [encode, toLe]

theorem used_encode : Used (r.encode++tail) ↔ r.inode ≠ 0 := by
  rw [Used, inode_encode, recordLen_encode, length_encode, length_append, length_encode]
  omega

theorem parseDir_encode : parseDir (r.encode++tail) =
    if r.inode = 0 then some [] else (parseDir tail).map (r.entry::·) := by
  have hname := length_pos_iff.mpr r.name_ne
  rw [parseDir]
  by_cases hz : r.inode = 0
  · simp [hz, used_encode]
  · have hfit : ¬(r.encode++tail).length < 8+r.name.length := by
      rw [length_append, length_encode]
      omega
    simp only [used_encode, nameLen_encode, recordLen_encode, inode_encode, name_encode,
      type_encode]
    rw [dif_pos hz, if_neg (by omega), if_neg hfit, if_neg hz, drop_left]
    simp [Vfs.Vfs.text, r.valid, entry]

end Record

/-- The listing of a well-formed directory ends at the first record that is not in use. -/
theorem parseDir_records (rs : List Record) : parseDir (rs.flatMap Record.encode) =
    some ((rs.takeWhile (·.inode ≠ 0)).map Record.entry) := by
  induction rs with
  | nil =>
    rw [flatMap_nil, parseDir, dif_neg (by decide)]
    rfl
  | cons r rs ih =>
    rw [flatMap_cons, Record.parseDir_encode, ih]
    by_cases hz : r.inode = 0 <;> simp [hz]

/-- The listing of a well-formed directory has exactly the records in use exactly if none of them
stands behind a record that is not. -/
theorem parseDir_records_iff (rs : List Record) :
    parseDir (rs.flatMap Record.encode) = some ((rs.filter (·.inode ≠ 0)).map Record.entry) ↔
      rs.Pairwise fun a b => b.inode ≠ 0 → a.inode ≠ 0 := by
  rw [parseDir_records, some_inj]
  induction rs with
  | nil => simp
  | cons r rs ih =>
    rw [pairwise_cons]
    by_cases hz : r.inode = 0
    · -- Nothing of the rest is listed.
      simp only [hz, ne_eq, not_true_eq_false, decide_false, takeWhile_cons, filter_cons,
        Bool.false_eq_true, if_false, map_nil]
      constructor
      · intro h
        have hall : ∀ b ∈ rs, b.inode = 0 := by simpa [filter_eq_nil_iff] using h.symm
        exact ⟨fun b hb hne => hne (hall b hb),
          pairwise_of_forall_mem_list fun _ _ b hb hne => absurd (hall b hb) hne⟩
      · intro h
        rw [filter_eq_nil_iff.mpr fun b hb => by simpa using h.1 b hb]
        rfl
    · simpa [hz] using ih

def deleted : Record := ⟨0,[0x61],1,[0,0,0],by decide,by decide,by decide,by decide,by decide +kernel⟩

def kept : Record := ⟨12,[0x62],1,[0,0,0],by decide,by decide,by decide,by decide,by decide +kernel⟩

/-- The first record of a directory has been deleted, and the other one is not listed. -/
theorem parseDir_hides_kept : parseDir ([deleted,kept].flatMap Record.encode) = some [] ∧
    [deleted,kept].filter (·.inode ≠ 0) = [kept] :=
  ⟨parseDir_records [deleted,kept],rfl⟩

end Zohara.Ext2
