import Zohara.ElfImage
import Zohara.IdeDisk

/-!
# FAT32 (src/fs/fat32.rs, and cat and write of src/shell.rs)

A mounted volume is a record of numbers from the boot sector; everything else is on the disk,
which is read and written sector by sector without a cache. Numbers are naturals, reduced modulo
2^32 where the source computes in u32 and the value may be larger; a division by zero and an
index outside a buffer are panics. Buffers are lists. A name is the bytes of a string.

Four loops of the source follow a chain of clusters without a bound. They are given one turn more
than there are clusters, which is enough for a chain inside the volume; a run that uses them up
ends in a panic. Chains of any kind, with any number of turns, are the subject of FatTermination.
The messages on the console and the dates of directory entries, which are always zero, are left
out.
-/
namespace Zohara.Fat32
open ByteMemory FallibleState IdeDisk ElfImage

/-- The mount state. init divides by the sectors per cluster, a byte of the boot sector. -/
structure Fat32Fs where
  bytesPerSector : ℕ
  sectorsPerCluster : ℕ
  reservedSectors : ℕ
  numFats : ℕ
  fatSize : ℕ
  rootCluster : ℕ
  dataStart : ℕ
  totalClusters : ℕ
  clusters : 0 < sectorsPerCluster
  byte : sectorsPerCluster < 256

structure DirEntry32 where
  name : List UInt8
  cluster : ℕ
  size : ℕ
  isDir : Bool
  deriving DecidableEq

def init (disk : IdeDisk) : Action Drives Fat32Fs := do
  let buf ← disk.readSector 0
  let fatSize := field buf 36 4
  let numFats := field buf 16 1
  let reservedSectors := field buf 14 2
  let totalSectors := if field buf 32 4 ≠ 0 then field buf 32 4 else field buf 19 2
  let dataStart := (reservedSectors+numFats*fatSize)%2^32
  if field buf 22 2 ≠ 0 then throw (.err "not FAT32 (FAT12/16 detected)")
  else if fatSize = 0 then throw (.err "invalid FAT32: fat_size_32 is 0")
  else if h : 0 < field buf 13 1 ∧ field buf 13 1 < 256 then
    return {
      bytesPerSector := field buf 11 2
      sectorsPerCluster := field buf 13 1
      reservedSectors := reservedSectors
      numFats := numFats
      fatSize := fatSize
      rootCluster := field buf 44 4
      dataStart := dataStart
      totalClusters := (totalSectors+2^32-dataStart)%2^32/field buf 13 1
      clusters := h.1
      byte := h.2}
  else throw .panic

/-! ## Names -/

def toAsciiUppercase (b : UInt8) : UInt8 := if 0x61 ≤ b ∧ b ≤ 0x7A then b-0x20 else b

/-- The first bytes in capitals, filled up with spaces. -/
def padded (n : ℕ) (bs : List UInt8) : List UInt8 :=
  (List.range n).map fun i => if i < bs.length then toAsciiUppercase (bs.getD i 0) else 0x20

def to83 (name : List UInt8) : List UInt8 × List UInt8 :=
  (padded 8 (name.takeWhile (· ≠ 0x2E)),
    padded 3 ((name.dropWhile (· ≠ 0x2E)).tail.takeWhile (· ≠ 0x2E)))

/-- A byte pushed to a string as a character. -/
def encodeChar (b : UInt8) : List UInt8 :=
  if b < 0x80 then [b] else [(0xC0 : UInt8) ||| (b >>> 6),(0x80 : UInt8) ||| (b &&& 0x3F)]

def eqIgnoreAsciiCase (a b : List UInt8) : Bool :=
  a.map toAsciiUppercase = b.map toAsciiUppercase

/-! ## Directory entries -/

/-- The bytes of a new Fat32DirEntry, of size zero. -/
def newEntry (short : List UInt8 × List UInt8) (isDir : Bool) (cluster : ℕ) : List UInt8 :=
  short.1++short.2++[if isDir then 0x10 else 0x20]++List.replicate 8 0++toLe 2 (cluster/2^16)++
    List.replicate 4 0++toLe 2 (cluster%2^16)++toLe 4 0

def slot (buf : List UInt8) (i : ℕ) : List UInt8 := (buf.drop (i*32)).take 32

/-- Characters 1 to 5 of a long name, those of ASCII. -/
def longChars (e : List UInt8) : List UInt8 :=
  ((List.range 5).map fun j => field e (1+j*2) 2).takeWhile (fun c => c ≠ 0xFFFF ∧ c ≠ 0) |>.filterMap
    fun c => if c < 0x80 then some (UInt8.ofNat c) else none

def shortName (e : List UInt8) : List UInt8 :=
  ((e.take 8).takeWhile (· ≠ 0x20)).flatMap encodeChar++
    if e.getD 8 0 ≠ 0x20 then 0x2E::(((e.drop 8).take 3).takeWhile (· ≠ 0x20)).flatMap encodeChar
    else []

/-- The entries of one cluster; `long` is the long name collected so far. -/
def parseEntries : List (List UInt8) → List UInt8 → List DirEntry32
  | [],_ => []
  | e::es,long =>
    if e.getD 0 0 = 0 then []
    else if e.getD 0 0 = 0xE5 then parseEntries es []
    else if e.getD 11 0 = 0x0F then parseEntries es (long++longChars e)
    else
      let entry : DirEntry32 := {
        name := if long ≠ [] then long else shortName e
        cluster := field e 20 2*2^16+field e 26 2
        size := field e 28 4
        isDir := e.getD 11 0 &&& 0x10 ≠ 0}
      if e.getD 11 0 &&& 0x02 ≠ 0 ∨ e.getD 11 0 &&& 0x04 ≠ 0 then parseEntries es []
      else entry::parseEntries es []

def slots (buf : List UInt8) (n : ℕ) : List (List UInt8) := (List.range n).map (slot buf)

namespace Fat32Fs
variable (fs : Fat32Fs) (disk : IdeDisk)

/-! ## Clusters -/

/-- sectors_per_sector in bytes. -/
def clusterBytes : ℕ := fs.sectorsPerCluster*sectorSize

def clusterSize : ℕ := fs.sectorsPerCluster*fs.bytesPerSector%2^32

def firstSector (cluster : ℕ) : ℕ := (fs.dataStart+(cluster+2^32-2)*fs.sectorsPerCluster)%2^32

/-- Sectors from the s-th of a cluster on. -/
def readSectors (first : ℕ) : ℕ → ℕ → Action Drives (List UInt8)
  | _,0 => pure []
  | s,n+1 => do
    let sector ← disk.readSector ((first+s)%2^32)
    let rest ← readSectors first (s+1) n
    return sector++rest

/-- A zeroed buffer of length `len` after read_cluster. -/
def readCluster (cluster len : ℕ) : Action Drives (List UInt8) :=
  if cluster < 2 then throw (.err "invalid cluster")
  else if len < fs.clusterBytes then throw (.err "buffer too small for cluster")
  else do
    let bytes ← readSectors disk (fs.firstSector cluster) 0 fs.sectorsPerCluster
    return bytes++List.replicate (len-fs.clusterBytes) 0

def writeSectors (first : ℕ) (data : List UInt8) : ℕ → ℕ → Action Drives Unit
  | _,0 => pure ()
  | s,n+1 => do
    disk.writeSector ((first+s)%2^32) (read (fun x => data.getD x 0) (s*sectorSize) sectorSize)
    writeSectors first data (s+1) n

def writeCluster (cluster : ℕ) (data : List UInt8) : Action Drives Unit :=
  writeSectors disk (fs.firstSector cluster) (data.take (min data.length fs.clusterSize)) 0
    fs.sectorsPerCluster

/-! ## The FAT -/

def nextCluster (cluster : ℕ) : Action Drives ℕ :=
  if fs.bytesPerSector = 0 then throw .panic
  else do
    let fatOffset := (fs.reservedSectors*fs.bytesPerSector+cluster*4)%2^32
    let buf ← disk.readSector (fatOffset/fs.bytesPerSector)
    if sectorSize < fatOffset%fs.bytesPerSector+4 then throw .panic
    else
      let entry := field buf (fatOffset%fs.bytesPerSector) 4
      if 0x0FFFFFF8 ≤ entry then return 0
      else if entry = 0x0FFFFFF7 then throw (.err "bad cluster")
      else return entry%2^28

/-- The scan of alloc_cluster from a sector of the FAT on. -/
def allocFrom : ℕ → ℕ → Action Drives ℕ
  | _,0 => throw (.err "no free clusters")
  | sec,n+1 => do
    let buf ← disk.readSector ((fs.reservedSectors+sec)%2^32)
    let perSector := fs.bytesPerSector/4
    match (List.range (min perSector 128)).find? fun i => field buf (i*4) 4%2^28 = 0 ∧
        2 ≤ (sec*perSector+i)%2^32 ∧ (sec*perSector+i)%2^32 < fs.totalClusters with
    | some i => return (sec*perSector+i)%2^32
    | none => if 128 < perSector then throw .panic else allocFrom (sec+1) n

def allocCluster : Action Drives ℕ := fs.allocFrom disk 0 fs.fatSize

/-- The copies of the FAT from the f-th on. -/
def writeCopies (sector : ℕ) (buf : List UInt8) : ℕ → ℕ → Action Drives Unit
  | _,0 => pure ()
  | f,n+1 => do
    disk.writeSector ((sector+f*fs.fatSize)%2^32) buf
    writeCopies sector buf (f+1) n

def setFatEntry (cluster value : ℕ) : Action Drives Unit :=
  if fs.bytesPerSector = 0 then throw .panic
  else do
    let fatOffset := cluster*4%2^32
    let sector := (fs.reservedSectors+fatOffset/fs.bytesPerSector)%2^32
    let buf ← disk.readSector sector
    if sectorSize < fatOffset%fs.bytesPerSector+4 then throw .panic
    else
      let patched := patch buf (fatOffset%fs.bytesPerSector) (toLe 4 (value%2^28))
      fs.writeCopies disk sector patched 0 fs.numFats

def markEoc (cluster : ℕ) : Action Drives Unit := fs.setFatEntry disk cluster 0x0FFFFFF8

def freeCluster (cluster : ℕ) : Action Drives Unit := fs.setFatEntry disk cluster 0

/-- The loop of free_cluster_chain. A cluster that comes again is free by then, and ends it. -/
def freeFrom : ℕ → ℕ → Action Drives Unit
  | 0,_ => throw .panic
  | n+1,cluster =>
    if cluster < 2 ∨ fs.totalClusters ≤ cluster then pure ()
    else do
      let next ← fs.nextCluster disk cluster
      fs.freeCluster disk cluster
      if next = 0 ∨ 0x0FFFFFF8 ≤ next then pure ()
      else freeFrom n next

def freeClusterChain (startCluster : ℕ) : Action Drives Unit :=
  fs.freeFrom disk (fs.totalClusters+1) startCluster

def lastFrom : ℕ → ℕ → Action Drives ℕ
  | 0,_ => throw .panic
  | n+1,cluster => do
    let next ← fs.nextCluster disk cluster
    if next = 0 then return cluster
    else lastFrom n next

def lastCluster (startCluster : ℕ) : Action Drives ℕ :=
  fs.lastFrom disk (fs.totalClusters+1) startCluster

/-! ## Files -/

/-- The loop of read_file_data; the answer are the bytes that are still to come. -/
def readLoop (size len cluster offset : ℕ) : Action Drives (List UInt8) :=
  if _h : offset < len ∧ offset < size then do
    let clusterBuf ← fs.readCluster disk cluster fs.clusterBytes
    let toCopy := min (min (size-offset) fs.clusterBytes) (len-offset)
    let next ← fs.nextCluster disk cluster
    if next = 0 then return clusterBuf.take toCopy
    else do
      let rest ← readLoop size len next (offset+toCopy)
      return clusterBuf.take toCopy++rest
  else pure []
termination_by len-offset
decreasing_by
  have hpos : 0 < fs.clusterBytes := Nat.mul_pos fs.clusters (by decide)
  omega

/-- The bytes that a buffer of length `len` gets. -/
def readFileData (startCluster size len : ℕ) : Action Drives (List UInt8) :=
  fs.readLoop disk size len startCluster 0

/-- The walk of write_file_data to the cluster of the offset. The cluster size is zero only when
bytes_per_sector is, and then next_cluster has panicked. -/
def walkTo (cluster pos : ℕ) : Action Drives (ℕ × ℕ) :=
  if _h : pos < fs.clusterSize then return (cluster,pos)
  else do
    let next ← fs.nextCluster disk cluster
    if next = 0 then throw (.err "offset beyond file")
    else if _hsize : fs.clusterSize = 0 then throw .panic
    else walkTo next (pos-fs.clusterSize)
termination_by pos

/-- The loop of write_file_data. -/
def writeLoop (data : List UInt8) (cluster pos written : ℕ) : Action Drives ℕ :=
  if _h : written < data.length then do
    let clusterBuf ← fs.readCluster disk cluster fs.clusterSize
    if _hpos : fs.clusterSize ≤ pos then throw .panic
    else do
      let n := min (data.length-written) (fs.clusterSize-pos)
      fs.writeCluster disk cluster (patch clusterBuf pos ((data.drop written).take n))
      if written+n < data.length then do
        let next ← fs.nextCluster disk cluster
        if next = 0 then do
          let newCluster ← fs.allocCluster disk
          fs.setFatEntry disk cluster newCluster
          fs.markEoc disk newCluster
          writeLoop data newCluster 0 (written+n)
        else writeLoop data next 0 (written+n)
      else return written+n
  else return written
termination_by data.length-written

def writeFileData (startCluster offset : ℕ) (data : List UInt8) : Action Drives ℕ := do
  let r ← fs.walkTo disk startCluster offset
  fs.writeLoop disk data r.1 r.2 0

/-! ## Directories -/

def freeSlot (buf : List UInt8) : Option ℕ :=
  (List.range (fs.clusterSize/32)).find? fun i => buf.getD (i*32) 0 = 0 ∨ buf.getD (i*32) 0 = 0xE5

def createFrom (entry : List UInt8) : ℕ → ℕ → Action Drives Unit
  | 0,_ => throw .panic
  | n+1,cluster => do
    let clusterBuf ← fs.readCluster disk cluster fs.clusterSize
    match fs.freeSlot clusterBuf with
    | some i => fs.writeCluster disk cluster (patch clusterBuf (i*32) entry)
    | none => do
      let next ← fs.nextCluster disk cluster
      if next = 0 then do
        let newCluster ← fs.allocCluster disk
        fs.setFatEntry disk cluster newCluster
        fs.markEoc disk newCluster
        fs.writeCluster disk newCluster (List.replicate fs.clusterSize 0)
        fs.writeCluster disk newCluster (patch (List.replicate fs.clusterSize 0) 0 entry)
      else createFrom entry n next

def createFileEntry (dirCluster : ℕ) (name : List UInt8) (isDir : Bool) : Action Drives ℕ := do
  let fileCluster ← fs.allocCluster disk
  fs.markEoc disk fileCluster
  fs.createFrom disk (newEntry (to83 name) isDir fileCluster) (fs.totalClusters+1) dirCluster
  return fileCluster

/-- The first slot that ends the directory or has the name. -/
def matchSlot (buf : List UInt8) (short : List UInt8 × List UInt8) : Option ℕ :=
  (List.range (fs.clusterSize/32)).find? fun i => buf.getD (i*32) 0 = 0 ∨
    buf.getD (i*32) 0 ≠ 0xE5 ∧ (slot buf i).take 8 = short.1 ∧ ((slot buf i).drop 8).take 3 = short.2

/-- The chain of the entry is freed, and the entry marked. -/
def deleteSlot (cluster : ℕ) (clusterBuf : List UInt8) (i : ℕ) : Action Drives Unit := do
  let cl := (clusterBuf.getD (i*32+20) 0).toNat*2^16+(clusterBuf.getD (i*32+26) 0).toNat
  if 2 ≤ cl then fs.freeClusterChain disk cl else pure ()
  fs.writeCluster disk cluster (patch clusterBuf (i*32) [0xE5])

def deleteFrom (short : List UInt8 × List UInt8) : ℕ → ℕ → Action Drives Unit
  | 0,_ => throw .panic
  | n+1,cluster => do
    let clusterBuf ← fs.readCluster disk cluster fs.clusterSize
    match fs.matchSlot clusterBuf short with
    | some i =>
      if clusterBuf.getD (i*32) 0 = 0 then throw (.err "file not found")
      else fs.deleteSlot disk cluster clusterBuf i
    | none => do
      let next ← fs.nextCluster disk cluster
      if next = 0 then throw (.err "file not found")
      else deleteFrom short n next

def deleteFileEntry (dirCluster : ℕ) (name : List UInt8) : Action Drives Unit :=
  fs.deleteFrom disk (to83 name) (fs.totalClusters+1) dirCluster

/-- The loop of readdir, with the number of clusters it may still read. -/
def readdirFrom : ℕ → ℕ → Action Drives (List DirEntry32)
  | 0,_ => pure []
  | n+1,cluster =>
    if cluster < 2 then pure []
    else do
      let clusterBuf ← fs.readCluster disk cluster fs.clusterBytes
      let entries := parseEntries (slots clusterBuf (fs.clusterBytes/32)) []
      let next ← fs.nextCluster disk cluster
      if next = 0 ∨ next < 2 then return entries
      else do
        let rest ← readdirFrom n next
        return entries++rest

def readdir (dirCluster : ℕ) : Action Drives (List DirEntry32) := fs.readdirFrom disk 1025 dirCluster

/-! ## Commands of the shell -/

/-- write, for a name that does not exist. -/
def shellWrite (name text : List UInt8) : Action Drives ℕ := do
  let cluster ← fs.createFileEntry disk fs.rootCluster name false
  fs.writeFileData disk cluster 0 text

/-- cat, with a buffer of length `len`. -/
def shellCat (name : List UInt8) (len : ℕ) : Action Drives (List UInt8) := do
  let entries ← fs.readdir disk fs.rootCluster
  match entries.find? fun e => eqIgnoreAsciiCase e.name name with
  | some entry =>
    if entry.isDir = false ∧ 2 ≤ entry.cluster then fs.readFileData disk entry.cluster entry.size len
    else throw (.err "is a directory")
  | none => throw (.err "No such file")

end Fat32Fs

end Zohara.Fat32
