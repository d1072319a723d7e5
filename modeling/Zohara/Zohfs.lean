import Zohara.BufferCache
import Zohara.ElfImage
import Zohara.WordBitmap

/-!
# ZohFS (src/fs/zohfs.rs)

The mounted volume is a set of statics: superblock, bitmap, inode table and root
directory, with copies of them on the disk that mkfs and flush_root_dir write and init
reads. Numbers are naturals, reduced modulo 2^32 where the source computes in u32; arrays
are total maps with explicit bounds. A name is the bytes of a string.

The reserved words of the records and the indirect block, which nothing uses, are written
as zeros and not kept. Two copies run over the end of their source: mkfs copies 128 bytes
from a superblock of 52, and init reads up to 64 directory entries from a buffer of 512
bytes. What lies behind is the argument `stack`. Messages on the console are left out.
-/
namespace Zohara.Zohfs
open ByteMemory FallibleState IdeDisk BufferCache WordBitmap ElfImage

def zohfsMagic : ℕ := 0x5A4F4853
def zohfsVersion : ℕ := 1
def blockSize : ℕ := 4096
def sectorsPerBlock : ℕ := 8
def maxInodes : ℕ := 32
def directBlockCount : ℕ := 10
def rootInode : ℕ := 1
def bitmapWords : ℕ := 64
def maxRootEntries : ℕ := 64

structure Superblock where
  magic : ℕ
  version : ℕ
  blockSize : ℕ
  totalBlocks : ℕ
  inodeCount : ℕ
  freeBlocks : ℕ
  rootInode : ℕ
  bitmapStartSector : ℕ
  inodeStartSector : ℕ
  dataStartSector : ℕ

structure Inode where
  mode : ℕ
  size : ℕ
  blockCount : ℕ
  directBlocks : ℕ → ℕ

structure DirEntry where
  inode : ℕ
  name : ℕ → UInt8
  entryType : ℕ

def Inode.empty : Inode := ⟨0,0,0,fun _ => 0⟩

def dirMode : ℕ := 0o40755

def fileMode : ℕ := 0o100644

def Inode.isFile (n : Inode) : Bool := n.mode &&& 0o100000 != 0

def DirEntry.empty : DirEntry := ⟨0,fun _ => 0,0⟩

/-! ## Records on the disk -/

def Superblock.fields (sb : Superblock) : List (List UInt8) :=
  [toLe 4 sb.magic,toLe 4 sb.version,toLe 4 sb.blockSize,toLe 4 sb.totalBlocks,
    toLe 4 sb.inodeCount,toLe 4 sb.freeBlocks,toLe 4 sb.rootInode,toLe 4 sb.bitmapStartSector,
    toLe 4 sb.inodeStartSector,toLe 4 sb.dataStartSector,List.replicate 12 0]

def Superblock.bytes (sb : Superblock) : List UInt8 := sb.fields.flatten

def Superblock.decode (bs : List UInt8) : Superblock :=
  ⟨field bs 0 4,field bs 4 4,field bs 8 4,field bs 12 4,field bs 16 4,field bs 20 4,
    field bs 24 4,field bs 28 4,field bs 32 4,field bs 36 4⟩

def Inode.fields (n : Inode) : List (List UInt8) :=
  [toLe 2 n.mode,[0,0],toLe 4 n.size,toLe 4 n.blockCount]++
    (List.range directBlockCount).map (fun i => toLe 4 (n.directBlocks i))++[List.replicate 12 0]

def Inode.bytes (n : Inode) : List UInt8 := n.fields.flatten

def Inode.decode (bs : List UInt8) : Inode :=
  ⟨field bs 0 2,field bs 4 4,field bs 8 4,
    fun i => if i < directBlockCount then field bs (12+4*i) 4 else 0⟩

def DirEntry.bytes (e : DirEntry) : List UInt8 :=
  toLe 4 e.inode++(List.range 56).map e.name++toLe 2 e.entryType++[0,0]

def DirEntry.decode (bs : List UInt8) : DirEntry :=
  ⟨field bs 0 4,fun i => if i < 56 then bs.getD (4+i) 0 else 0,field bs 60 2⟩

/-- A zeroed buffer with a record at each multiple of the stride. -/
def records (stride n : ℕ) (record : ℕ → List UInt8) : Memory := fun x =>
  if x/stride < n then (record (x/stride)).getD (x%stride) 0 else 0

/-! ## State -/

structure State where
  cache : Cache
  fsSuper : Superblock
  fsDisk : IdeDisk
  fsMounted : Bool
  bitmap : Bitmap
  inodes : ℕ → Inode
  rootDir : ℕ → DirEntry
  rootDirCount : ℕ

def onCache {α : Type} (x : Action Cache α) : Action State α :=
  zoom State.cache (fun s c => {s with cache := c}) x

/-- The first sector of a block. -/
def blockSector (dataStart block : ℕ) : ℕ := (dataStart+(block+2^32-1)*sectorsPerBlock)%2^32

def State.setInode (s : State) (i : ℕ) (n : Inode) : State :=
  {s with inodes := Function.update s.inodes i n}

/-! ## Formatting and mounting -/

/-- The bitmap and the inode table go to their sectors. -/
def writeTables (disk : IdeDisk) : Action State Unit := do
  let s ← get
  onCache (cachedWriteSectors disk 1 7
    (records 8 bitmapWords fun i => toLe 8 (s.bitmap i).toNat) 3584)
  onCache (cachedWriteSectors disk 8 64 (records 1024 maxInodes fun i => (s.inodes i).bytes) 32768)

/-- A sector that begins with the given bytes. -/
def sectorOf (bs : List UInt8) : List UInt8 := read (fun i => bs.getD i 0) 0 sectorSize

def freshSuper (totalSectors : ℕ) : Superblock where
  magic := zohfsMagic
  version := zohfsVersion
  blockSize := blockSize
  totalBlocks := (totalSectors-72)/sectorsPerBlock
  inodeCount := maxInodes
  freeBlocks := ((totalSectors-72)/sectorsPerBlock+2^32-72/sectorsPerBlock)%2^32
  rootInode := rootInode
  bitmapStartSector := 1
  inodeStartSector := 8
  dataStartSector := 72

def freshBitmap : Bitmap := insert ((List.range 10).foldl insert fun _ => 0) 1

def freshRoot : Inode := ⟨dirMode,0,1,Function.update (fun _ => 0) 0 1⟩

def freshInodes : ℕ → Inode := Function.update (fun _ => .empty) rootInode freshRoot

def mkfs (disk : IdeDisk) (stack : List UInt8) : Action State Unit :=
  if disk.isPresent = false then throw (.err "no disk present")
  else do
    modify fun s => {s with
      bitmap := freshBitmap
      inodes := freshInodes
      rootDir := fun _ => .empty
      rootDirCount := 0}
    onCache (cachedWrite disk 0
      (sectorOf ((freshSuper disk.totalSectors).bytes++stack.take (128-52))))
    writeTables disk
    onCache (onDrives (disk.writeSector 72 (List.replicate sectorSize 0)))

/-- The last part of init: the entries of the root directory. -/
def readRootDir (disk : IdeDisk) (stack : List UInt8) : Action State Unit := do
  let s ← get
  let root := s.inodes rootInode
  if 0 < root.blockCount ∧ 0 < root.directBlocks 0 then do
    let dirBuf ← onCache (cachedRead disk
      (blockSector s.fsSuper.dataStartSector (root.directBlocks 0)))
    let count := min (root.size/64) maxRootEntries
    modify fun s => {s with
      rootDirCount := count
      rootDir := fun i => if i < count then .decode ((dirBuf++stack).drop (i*64)) else s.rootDir i}
  else pure ()

def init (disk : IdeDisk) (stack : List UInt8) : Action State Unit :=
  if disk.isPresent = false then pure ()
  else do
    let buf ← onCache (cachedRead disk 0)
    if (Superblock.decode buf).magic ≠ zohfsMagic then pure ()
    else do
      modify fun s => {s with fsSuper := .decode buf, fsDisk := disk, fsMounted := true}
      let bitmapBuf ← onCache (cachedReadSectors disk 1 7 3584)
      modify fun s => {s with
        bitmap := fun i =>
          if i < bitmapWords then BitVec.ofNat 64 (field bitmapBuf (i*8) 8) else s.bitmap i}
      let inodeBuf ← onCache (cachedReadSectors disk 8 64 32768)
      modify fun s => {s with
        inodes := fun i => if i < maxInodes then .decode (inodeBuf.drop (i*1024)) else s.inodes i}
      readRootDir disk stack

/-! ## Allocation -/

def allocInode : Action State ℕ := do
  let s ← get
  match (List.range' 1 (maxInodes-1)).find? fun i => (s.inodes i).mode = 0 with
  | some i => return i
  | none => throw (.err "no free inodes")

def freeInode (inode : ℕ) : Action State Unit :=
  if inode = 0 ∨ maxInodes ≤ inode then throw (.err "invalid inode")
  else modify fun s => s.setInode inode .empty

/-- The turns of alloc_block from block `i` on. -/
def allocBlockFrom : ℕ → ℕ → Action State ℕ
  | _,0 => throw (.err "no free blocks")
  | i,n+1 => do
    let s ← get
    if bitmapWords ≤ i/64 then throw .panic
    else if member s.bitmap i then allocBlockFrom (i+1) n
    else do
      set {s with
        bitmap := insert s.bitmap i
        fsSuper := {s.fsSuper with freeBlocks := s.fsSuper.freeBlocks-1}}
      return i

def allocBlock : Action State ℕ := do
  let s ← get
  allocBlockFrom 0 s.fsSuper.totalBlocks

/-- The turns of free_inode_blocks from the i-th direct block on. -/
def freeBlocksFrom (inode : Inode) : ℕ → ℕ → Action State Unit
  | _,0 => pure ()
  | i,n+1 =>
    let block := inode.directBlocks i
    if block = 0 then freeBlocksFrom inode (i+1) n
    else if bitmapWords ≤ block/64 then throw .panic
    else do
      modify fun s => {s with
        bitmap := erase s.bitmap block
        fsSuper := {s.fsSuper with freeBlocks := (s.fsSuper.freeBlocks+1)%2^32}}
      freeBlocksFrom inode (i+1) n

def freeInodeBlocks (inodeNum : ℕ) : Action State Unit :=
  if inodeNum = 0 ∨ maxInodes ≤ inodeNum then throw (.err "invalid inode")
  else do
    let s ← get
    freeBlocksFrom (s.inodes inodeNum) 0 (min (s.inodes inodeNum).blockCount directBlockCount)

/-! ## The root directory -/

/-- The name up to the first zero, or nothing when it is no text. -/
def DirEntry.text (e : DirEntry) : List UInt8 :=
  let bytes := ((List.range 56).map e.name).takeWhile (· ≠ 0)
  if (ByteArray.mk bytes.toArray).validateUTF8 then bytes else []

def findInRoot (s : State) (name : List UInt8) : Option ℕ :=
  (List.range s.rootDirCount).find? fun i =>
    (s.rootDir i).inode ≠ 0 ∧ (s.rootDir i).text = name

def findFile (s : State) (name : List UInt8) : Option ℕ :=
  (findInRoot s name).map fun i => (s.rootDir i).inode

/-- A line of readdir_root: the name, or a question mark when it is no text, the inode and
whether it is a directory. -/
def DirEntry.line (e : DirEntry) : Option (List UInt8 × ℕ × Bool) :=
  if e.inode = 0 then none
  else
    let bytes := ((List.range 56).map e.name).takeWhile (· ≠ 0)
    let name := if (ByteArray.mk bytes.toArray).validateUTF8 then bytes else [0x3F]
    some (name,e.inode,decide (e.entryType = 1))

def readdirRoot (s : State) : List (List UInt8 × ℕ × Bool) :=
  (List.range s.rootDirCount).filterMap fun i => (s.rootDir i).line

def flushRootDir : Action State Unit := do
  let s ← get
  let block := (s.inodes rootInode).directBlocks 0
  if block = 0 then pure ()
  else do
    onCache (cachedWrite s.fsDisk (blockSector s.fsSuper.dataStartSector block)
      (read (records 64 (min s.rootDirCount 8) fun i => (s.rootDir i).bytes) 0 sectorSize))
    onCache (cachedWrite s.fsDisk 0 (sectorOf s.fsSuper.bytes))
    writeTables s.fsDisk

/-- The new name over the old one, at most 55 bytes and a zero. -/
def putName (old : ℕ → UInt8) (name : List UInt8) : ℕ → UInt8 := fun i =>
  let len := min name.length 55
  if i < len then name.getD i 0 else if i = len then 0 else old i

def State.setRootSize (s : State) : State :=
  s.setInode rootInode {s.inodes rootInode with size := s.rootDirCount*64%2^32}

def addToRoot (name : List UInt8) (inodeNum : ℕ) (isDir : Bool) : Action State ℕ := do
  let s ← get
  if maxRootEntries ≤ s.rootDirCount then throw (.err "root directory full")
  else do
    let entry : DirEntry :=
      ⟨inodeNum,putName (s.rootDir s.rootDirCount).name name,if isDir then 1 else 0⟩
    set {s with
      rootDir := Function.update s.rootDir s.rootDirCount entry
      rootDirCount := s.rootDirCount+1}.setRootSize
    flushRootDir
    return inodeNum

/-! ## Files -/

/-- create_file and create_dir differ in the message, the mode and the type. -/
def createNode (exists_ : String) (mode : ℕ) (isDir : Bool) (name : List UInt8) :
    Action State ℕ := do
  let s ← get
  if s.fsMounted = false then throw (.err "filesystem not mounted")
  else if (findInRoot s name).isSome then throw (.err exists_)
  else do
    let inodeNum ← allocInode
    modify fun s => s.setInode inodeNum {s.inodes inodeNum with mode := mode, size := 0}
    addToRoot name inodeNum isDir

def createFile (name : List UInt8) : Action State ℕ :=
  createNode "file exists" fileMode false name

def createDir (name : List UInt8) : Action State ℕ :=
  createNode "directory exists" dirMode true name

/-- The eight sectors of a block, from the i-th on. -/
def readBlockFrom (disk : IdeDisk) (sector : ℕ) : ℕ → ℕ → Action Cache (List UInt8)
  | _,0 => pure []
  | i,n+1 => do
    let sec ← cachedRead disk ((sector+i)%2^32)
    let rest ← readBlockFrom disk sector (i+1) n
    return sec++rest

def writeBlockFrom (disk : IdeDisk) (sector : ℕ) (buf : List UInt8) : ℕ → ℕ → Action Cache Unit
  | _,0 => pure ()
  | i,n+1 => do
    cachedWrite disk ((sector+i)%2^32) ((buf.drop (i*sectorSize)).take sectorSize)
    writeBlockFrom disk sector buf (i+1) n

/-- The loop of read_file_data; the answer are the bytes that are still to come. -/
def readLoop (inode : Inode) (toRead pos bytesRead : ℕ) : Action State (List UInt8) :=
  if h : bytesRead < toRead then
    if directBlockCount ≤ pos/blockSize then pure []
    else if inode.directBlocks (pos/blockSize) = 0 then pure []
    else do
      let s ← get
      let sector := blockSector s.fsSuper.dataStartSector (inode.directBlocks (pos/blockSize))
      let blockBuf ← onCache (readBlockFrom s.fsDisk sector 0 sectorsPerBlock)
      let n := min (toRead-bytesRead) (blockSize-pos%blockSize)
      let rest ← readLoop inode toRead (pos+n) (bytesRead+n)
      return (blockBuf.drop (pos%blockSize)).take n++rest
  else pure []
termination_by toRead-bytesRead
decreasing_by
  have hmod : pos%blockSize < blockSize := Nat.mod_lt _ (by decide)
  omega

/-- The bytes that a buffer of length `len` gets. -/
def readFileData (inodeNum offset len : ℕ) : Action State (List UInt8) := do
  let s ← get
  if s.fsMounted = false then throw (.err "filesystem not mounted")
  else if inodeNum = 0 ∨ maxInodes ≤ inodeNum then throw (.err "invalid inode")
  else if (s.inodes inodeNum).isFile = false then throw (.err "not a file")
  else if (s.inodes inodeNum).size ≤ offset then return []
  else readLoop (s.inodes inodeNum) (min len ((s.inodes inodeNum).size-offset)) offset 0

/-- The block behind an index of the inode, allocated when there is none. -/
def ensureBlock (inode : Inode) (blockIdx : ℕ) : Action State Inode :=
  if inode.directBlocks blockIdx = 0 then do
    let blockNum ← allocBlock
    return {inode with
      directBlocks := Function.update inode.directBlocks blockIdx blockNum
      blockCount := blockIdx+1}
  else return inode

/-- The loop of write_file_data; the answer is the number of bytes written in the end and
the copy of the inode. -/
def writeLoop (data : List UInt8) (pos written : ℕ) (inode : Inode) : Action State (ℕ × Inode) :=
  if h : written < data.length then
    if directBlockCount ≤ pos/blockSize then pure (written,inode)
    else do
      let inode ← ensureBlock inode (pos/blockSize)
      let s ← get
      let sector := blockSector s.fsSuper.dataStartSector (inode.directBlocks (pos/blockSize))
      let blockBuf ← onCache (readBlockFrom s.fsDisk sector 0 sectorsPerBlock)
      let n := min (data.length-written) (blockSize-pos%blockSize)
      onCache (writeBlockFrom s.fsDisk sector
        (patch blockBuf (pos%blockSize) ((data.drop written).take n)) 0 sectorsPerBlock)
      writeLoop data (pos+n) (written+n) inode
  else pure (written,inode)
termination_by data.length-written
decreasing_by
  have hmod : pos%blockSize < blockSize := Nat.mod_lt _ (by decide)
  omega

def writeFileData (inodeNum offset : ℕ) (data : List UInt8) : Action State ℕ := do
  let s ← get
  if s.fsMounted = false then throw (.err "filesystem not mounted")
  else if inodeNum = 0 ∨ maxInodes ≤ inodeNum then throw (.err "invalid inode")
  else if (s.inodes inodeNum).isFile = false then throw (.err "not a file")
  else do
    let r ← writeLoop data offset 0 (s.inodes inodeNum)
    let size := if r.2.size < offset+r.1 then (offset+r.1)%2^32 else r.2.size
    modify fun s => s.setInode inodeNum {r.2 with size := size}
    return r.1

def deleteFile (name : List UInt8) : Action State Unit := do
  let s ← get
  if s.fsMounted = false then throw (.err "filesystem not mounted")
  else
    match findInRoot s name with
    | none => throw (.err "file not found")
    | some idx => do
      let inodeNum := (s.rootDir idx).inode
      set {s with
        rootDir := Function.update s.rootDir idx .empty
        rootDirCount := s.rootDirCount-1}.setRootSize
      freeInodeBlocks inodeNum
      freeInode inodeNum
      flushRootDir

end Zohara.Zohfs
