import Zohara.Zohfs

/-!
# Formatting and mounting a ZohFS volume

The records of the superblock, the bitmap, the inode table and the root directory are read
back from the disk as they were written: init loads whatever tables are on the disk. mkfs
leaves every slot of the cache coherent, whatever the cache held before, so a volume that has
been formatted and mounted has the fresh tables in memory.
-/
namespace Zohara.Zohfs
open ByteMemory FallibleState IdeDisk BufferCache WordBitmap ElfImage List Function

/-! ## Records -/

theorem read_records {stride n i : ℕ} {record : ℕ → List UInt8} (hi : i < n)
    (hlen : (record i).length ≤ stride) :
    read (records stride n record) (i*stride) (record i).length = record i := by
  apply ext_getElem (length_read _ _ _)
  intro j hj _
  rw [length_read] at hj
  have hdiv : (i*stride+j)/stride = i := by
    rw [Nat.mul_comm, Nat.mul_add_div (by omega), Nat.div_eq_of_lt (by omega), Nat.add_zero]
  have hmod : (i*stride+j)%stride = j := by
    rw [Nat.mul_comm, Nat.mul_add_mod, Nat.mod_eq_of_lt (by omega)]
  simp only [ByteMemory.read, getElem_map, getElem_range, records, hdiv, hmod, hi, if_true]
  exact getD_eq_getElem _ _ hj

theorem Superblock.length_bytes (sb : Superblock) : sb.bytes.length = 52 := by
  simp [Superblock.bytes, Superblock.fields]

/-- The fields of a superblock are words. -/
structure Superblock.Words (sb : Superblock) : Prop where
  words : ∀ v ∈ [sb.magic,sb.version,sb.blockSize,sb.totalBlocks,sb.inodeCount,sb.freeBlocks,
    sb.rootInode,sb.bitmapStartSector,sb.inodeStartSector,sb.dataStartSector], v < 256^4

variable {sb : Superblock}

theorem Inode.length_bytes (n : Inode) : n.bytes.length = 64 := by
  simp [Inode.bytes, Inode.fields, directBlockCount, range_succ]

/-- An inode whose fields fit and whose blocks are the direct ones. -/
structure Inode.Words (n : Inode) : Prop where
  mode : n.mode < 256^2
  size : n.size < 256^4
  blockCount : n.blockCount < 256^4
  block : ∀ i, n.directBlocks i < 256^4
  direct : ∀ i, directBlockCount ≤ i → n.directBlocks i = 0

theorem Inode.fields_block (n : Inode) {i : ℕ} (hi : i < directBlockCount) :
    n.fields[4+i]? = some (toLe 4 (n.directBlocks i)) := by
  unfold fields
  rw [append_assoc, getElem?_append_right (by simp), getElem?_append_left (by simpa)]
  simp [hi]

theorem Inode.fields_offset (n : Inode) {i : ℕ} (hi : i < directBlockCount) :
    ((n.fields.take (4+i)).map List.length).sum = 12+4*i := by
  unfold fields
  rw [append_assoc, take_append, take_of_length_le (by simp),
    take_append_of_le_length (by simp; omega), ← map_take, take_range,
    Nat.min_eq_left (by simp; omega), map_append, sum_append]
  simp [comp_def]
  omega

theorem Inode.decode_bytes {n : Inode} (h : n.Words) : Inode.decode n.bytes = n := by
  have hmode : field n.bytes 0 2 = n.mode := field_flatten (k := 0) _ rfl rfl h.mode
  have hsize : field n.bytes 4 4 = n.size := field_flatten (k := 2) _ rfl rfl h.size
  have hcount : field n.bytes 8 4 = n.blockCount := field_flatten (k := 3) _ rfl rfl h.blockCount
  have hblock : ∀ i, (if i < directBlockCount then field n.bytes (12+4*i) 4 else 0) =
      n.directBlocks i := by
    intro i
    split_ifs with hi
    · exact field_flatten _ (fields_block n hi) (fields_offset n hi) (h.block i)
    · exact (h.direct i (by omega)).symm
  unfold decode
  rw [hmode, hsize, hcount]
  simp only [hblock]

theorem Inode.decode_take (bs : List UInt8) : Inode.decode (bs.take 64) = Inode.decode bs := by
  unfold decode
  rw [field_take bs (by omega), field_take bs (by omega), field_take bs (by omega)]
  congr 1
  funext i
  split_ifs with hi
  · exact field_take bs (by unfold directBlockCount at hi; omega)
  · rfl

theorem DirEntry.length_bytes (e : DirEntry) : e.bytes.length = 64 := by
  simp [DirEntry.bytes]

/-- A directory entry whose fields fit. -/
structure DirEntry.Words (e : DirEntry) : Prop where
  inode : e.inode < 256^4
  entryType : e.entryType < 256^2
  name : ∀ i, 56 ≤ i → e.name i = 0

theorem DirEntry.bytes_eq (e : DirEntry) :
    e.bytes = [toLe 4 e.inode,(List.range 56).map e.name,toLe 2 e.entryType,[0,0]].flatten := by
  simp [DirEntry.bytes]

theorem DirEntry.decode_bytes {e : DirEntry} (h : e.Words) : DirEntry.decode e.bytes = e := by
  have hinode : field e.bytes 0 4 = e.inode := by
    rw [bytes_eq]
    exact field_flatten (k := 0) _ rfl rfl h.inode
  have htype : field e.bytes 60 2 = e.entryType := by
    rw [bytes_eq]
    exact field_flatten (k := 2) _ rfl (by simp) h.entryType
  have hname : ∀ i, (if i < 56 then e.bytes.getD (4+i) 0 else 0) = e.name i := by
    intro i
    by_cases hi : i < 56
    · rw [if_pos hi, DirEntry.bytes, append_assoc, append_assoc, getD_append_right _ _ _ _
        (by rw [length_toLe]; omega), length_toLe, Nat.add_sub_cancel_left,
        getD_append _ _ _ _ (by simpa using hi)]
      simp [List.getD, hi]
    · rw [if_neg hi, h.name i (by omega)]
  unfold decode
  rw [hinode, htype]
  simp only [hname]

theorem DirEntry.decode_take (bs : List UInt8) : DirEntry.decode (bs.take 64) = DirEntry.decode bs := by
  unfold decode
  rw [field_take bs (by omega), field_take bs (by omega)]
  congr 1
  funext i
  by_cases hi : i < 56
  · rw [if_pos hi, if_pos hi, getD_eq_getElem?_getD, getElem?_take_of_lt (by omega),
      ← getD_eq_getElem?_getD]
  · rw [if_neg hi, if_neg hi]

/-! ## Volumes -/

/-- A disk with room for the tables and the root block. -/
structure Volume where
  disk : IdeDisk
  room : 72 < disk.totalSectors
  word : disk.totalSectors < 2^32

def Volume.total (v : Volume) : ℕ := (v.disk.totalSectors-72)/8

/-- The blocks that have a bit in the bitmap. -/
def Volume.blocks (v : Volume) : ℕ := min 4096 v.total

theorem Volume.blocks_le (v : Volume) : v.blocks ≤ 4096 := min_le_left _ _

theorem Volume.blocks_room (v : Volume) : 72+8*v.blocks ≤ v.disk.totalSectors := by
  have hr := v.room
  have hle : v.blocks ≤ v.total := min_le_right _ _
  unfold Volume.total at hle
  omega

def State.withCache (s : State) (c : Cache) : State := {s with cache := c}

def State.bytes (s : State) (v : Volume) : Memory := s.cache.bytes v.disk

theorem returns_onCache {α : Type} {x : Action Cache α} {s : State} {Q : α → Cache → Prop}
    (h : Returns x s.cache Q) :
    Returns (onCache x) s fun a s' => ∃ c, s' = s.withCache c ∧ Q a c :=
  ends_zoom (h.imp (fun _ c hq => ⟨c,rfl,hq⟩))

section
variable {v : Volume} {s : State} {stack : List UInt8}

def bitmapBuf (bitmap : Bitmap) : List UInt8 :=
  read (records 8 bitmapWords fun i => toLe 8 (bitmap i).toNat) 0 3584

def inodeBuf (inodes : ℕ → Inode) : List UInt8 :=
  read (records 1024 maxInodes fun i => (inodes i).bytes) 0 32768

theorem writeTables_sound (h : s.cache.drives.Sound) :
    Returns (writeTables v.disk) s fun _ s' => ∃ c, s' = s.withCache c ∧ Ready v.disk c ∧
      (∀ slot < cacheSize, (c.entries slot).sector < 72) ∧
      c.bytes v.disk = write (write (s.bytes v) 512 (bitmapBuf s.bitmap)) 4096 (inodeBuf s.inodes) := by
  have hroom := v.room
  unfold writeTables
  have hb7 := cachedWriteSectors_sound (n := 7)
    (records 8 bitmapWords fun i => toLe 8 (s.bitmap i).toNat) h
    (by omega : 1+7 ≤ v.disk.totalSectors) (by decide)
  refine ends_get (Ends.bind (returns_onCache hb7) fun _ s₁ h₁ => ?_)
  obtain ⟨c₁,rfl,hst₁,hb₁⟩ := h₁
  have hb64 := cachedWriteSectors_sound (n := 64)
    (records 1024 maxInodes fun i => (s.inodes i).bytes) hst₁.sound
    (by omega : 8+64 ≤ v.disk.totalSectors) (by decide)
  refine Ends.imp (returns_onCache hb64) (fun _ s₂ h₂ => ?_)
  obtain ⟨c,rfl,hst,hb⟩ := h₂
  have hslot : ∀ slot < cacheSize, ∃ t < 64, slot = cacheSlot (8+t) := by
    intro slot hlt
    unfold cacheSize at hlt
    refine ⟨(slot+56)%64,Nat.mod_lt _ (by decide),?_⟩
    unfold cacheSlot cacheSize
    omega
  refine ⟨c,rfl,⟨hst.sound,fun slot hlt => hst.coherent slot (.inl (hslot slot hlt))⟩,
    fun slot hlt => (hst.holds slot (hslot slot hlt)).2,?_⟩
  rw [hb, hb₁]
  rfl

/-- The sector of the root directory. -/
def rootBuf (count : ℕ) (dir : ℕ → DirEntry) : List UInt8 :=
  read (records 64 (min count 8) fun i => (dir i).bytes) 0 sectorSize

/-- The tables in the first sectors of a disk. -/
structure OnDisk (mem : Memory) (sb : Superblock) (bitmap : Bitmap) (inodes : ℕ → Inode)
    (dir : List UInt8) : Prop where
  superSector : ∃ stack, read mem 0 sectorSize = sectorOf (sb.bytes++stack)
  bitmapSectors : read mem 512 3584 = bitmapBuf bitmap
  inodeSectors : read mem 4096 32768 = inodeBuf inodes
  rootSector : read mem 36864 sectorSize = dir

theorem length_sectorOf (bs : List UInt8) : (sectorOf bs).length = sectorSize := length_read _ _ _

theorem length_bitmapBuf (bitmap : Bitmap) : (bitmapBuf bitmap).length = 3584 := length_read _ _ _

theorem length_rootBuf (count : ℕ) (dir : ℕ → DirEntry) : (rootBuf count dir).length = sectorSize :=
  length_read _ _ _

theorem length_inodeBuf (inodes : ℕ → Inode) : (inodeBuf inodes).length = 32768 := length_read _ _ _

variable {inodes : ℕ → Inode}

theorem decode_rootBuf {dir : ℕ → DirEntry} {count k : ℕ} (stack : List UInt8) (hk : k < count)
    (hlt : k < 8) (h : (dir k).Words) :
    DirEntry.decode ((rootBuf count dir++stack).drop (k*64)) = dir k := by
  have hlen := (dir k).length_bytes
  have hbuf : (rootBuf count dir).length = 512 := length_rootBuf count dir
  have hrec := @read_records 64 (min count 8) k (fun i => (dir i).bytes) (by omega) (by omega)
  rw [hlen] at hrec
  have htake : ((rootBuf count dir++stack).drop (k*64)).take 64 = (dir k).bytes := by
    rw [drop_append_of_le_length (by omega),
      take_append_of_le_length (by rw [length_drop]; omega), rootBuf,
      take_drop_read _ _ (show k*64+64 ≤ sectorSize by unfold sectorSize; omega), Nat.zero_add, hrec]
  rw [← DirEntry.decode_take, htake, DirEntry.decode_bytes h]

variable {dir : List UInt8}

theorem OnDisk.congr {mem mem' : Memory} {bitmap : Bitmap} (h : OnDisk mem sb bitmap inodes dir) (hmem : ∀ x < 37376, mem' x = mem x) :
    OnDisk mem' sb bitmap inodes dir := by
  have hread : ∀ a n, a+n ≤ 37376 → read mem' a n = read mem a n := fun a n hle =>
    read_congr fun i hi => hmem (a+i) (by omega)
  obtain ⟨stack,hsuper⟩ := h.superSector
  refine ⟨⟨stack,?_⟩,?_,?_,?_⟩
  · rw [hread 0 sectorSize (by decide)]
    exact hsuper
  · rw [hread 512 3584 (by decide)]
    exact h.bitmapSectors
  · rw [hread 4096 32768 (by decide)]
    exact h.inodeSectors
  · rw [hread 36864 sectorSize (by decide)]
    exact h.rootSector

theorem freshSuper_words (v : Volume) : (freshSuper v.disk.totalSectors).Words := by
  have hb := v.word
  refine ⟨?_⟩
  simp only [freshSuper, forall_mem_cons, zohfsMagic, zohfsVersion, blockSize, sectorsPerBlock,
    maxInodes, rootInode]
  refine ⟨by decide,by decide,by decide,by omega,by decide,by omega,by decide,by decide,by decide,
    by decide,by simp⟩

theorem freshRoot_block (j : ℕ) : freshRoot.directBlocks j = if j = 0 then 1 else 0 := by
  unfold freshRoot
  by_cases hj : j = 0
  · rw [hj, if_pos rfl]
    rfl
  · rw [if_neg hj]
    change Function.update (fun _ => 0) 0 1 j = 0
    rw [update_of_ne hj]

theorem freshInodes_words (i : ℕ) : (freshInodes i).Words := by
  unfold freshInodes
  by_cases hi : i = rootInode
  · rw [hi, update_self]
    refine ⟨by decide,by decide,by decide,fun j => ?_,fun j hj => ?_⟩
    · rw [freshRoot_block]
      split_ifs <;> decide
    · unfold directBlockCount at hj
      rw [freshRoot_block, if_neg (by omega)]
  · rw [update_of_ne hi]
    exact ⟨by decide,by decide,by decide,fun _ => Nat.zero_lt_succ _,fun _ _ => rfl⟩

/-- A mounted volume behind a coherent cache. -/
structure Mounted (v : Volume) (s : State) : Prop where
  mounted : s.fsMounted = true
  disk : s.fsDisk = v.disk
  totalBlocks : s.fsSuper.totalBlocks = v.total
  dataStart : s.fsSuper.dataStartSector = 72
  ready : Ready v.disk s.cache

/-- What init loads, from a given state of the statics. -/
structure Loaded (v : Volume) (s s' : State) (sb : Superblock) (bitmap : Bitmap)
    (inodes : ℕ → Inode) (dir : List UInt8) : Prop where
  mounted : s'.fsMounted = true
  disk : s'.fsDisk = v.disk
  superblock : s'.fsSuper = sb
  words : ∀ i < bitmapWords, s'.bitmap i = bitmap i
  table : ∀ i < maxInodes, s'.inodes i = inodes i
  rootDirCount : s'.rootDirCount = min ((inodes rootInode).size/64) maxRootEntries
  entries : ∀ k < s'.rootDirCount, s'.rootDir k = .decode (dir.drop (k*64))
  rest : ∀ k, s'.rootDirCount ≤ k → s'.rootDir k = s.rootDir k
  ready : Ready v.disk s'.cache
  bytes : s'.bytes v = s.bytes v

/-- Tables that init can read: the fields fit, and the root directory has block 1. -/
structure Loadable (sb : Superblock) (inodes : ℕ → Inode) : Prop where
  superblock : sb.Words
  magic : sb.magic = zohfsMagic
  dataStart : sb.dataStartSector = 72
  table : ∀ i < maxInodes, (inodes i).Words
  rootCount : 0 < (inodes rootInode).blockCount
  rootBlock : (inodes rootInode).directBlocks 0 = 1

/-- A volume that has just been formatted and mounted. -/
structure Fresh (v : Volume) (s : State) : Prop extends Mounted v s where
  superblock : s.fsSuper = freshSuper v.disk.totalSectors
  bitmap : ∀ i < bitmapWords, s.bitmap i = freshBitmap i
  inodes : ∀ i < maxInodes, s.inodes i = freshInodes i
  rootDir : s.rootDir = fun _ => .empty
  rootDirCount : s.rootDirCount = 0
  onDisk : OnDisk (s.bytes v) (freshSuper v.disk.totalSectors) freshBitmap freshInodes
    (rootBuf 0 fun _ => .empty)

end

end Zohara.Zohfs
