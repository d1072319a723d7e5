import Zohara.ZohfsDirectory

/-!
# Mounting a ZohFS volume again

Creations and deletions write all tables to the disk, but only one sector of the root
directory: eight entries. A write leaves the inode table on the disk as it was. Along every
run the disk holds the superblock but for the number of free blocks, the visible directory
entries up to the eighth, and some inode table; so what a new mount restores can be read off
from the state before it. What init finds behind the sector of the directory is arbitrary.
-/
namespace Zohara.Zohfs
open ByteMemory FallibleState IdeDisk BufferCache WordBitmap Runs List Function

variable {sb : Superblock} {name data stack : List UInt8} {n : Inode} {bitmap : Bitmap}

/-! ## Tables that can be stored -/

/-- The tables in memory have the form that the disk can hold. -/
structure Tables (s : State) : Prop where
  superblock : s.fsSuper.Words
  magic : s.fsSuper.magic = zohfsMagic
  table : ∀ i < maxInodes, (s.inodes i).Words
  rootCount : (s.inodes rootInode).blockCount = 1
  rootSize : (s.inodes rootInode).size = s.rootDirCount*64
  count : s.rootDirCount ≤ maxRootEntries
  entries : ∀ k, (s.rootDir k).Words

variable {free : ℕ}

theorem Superblock.Words.withFree (h : sb.Words) (hf : free < 2^32) :
    ({sb with freeBlocks := free} : Superblock).Words := by
  have hw := h.words
  simp only [forall_mem_cons] at hw
  obtain ⟨h0,h1,h2,h3,h4,h5,h6,h7,h8,h9,-⟩ := hw
  refine ⟨?_⟩
  simp only [forall_mem_cons]
  exact ⟨h0,h1,h2,h3,h4,hf,h6,h7,h8,h9,by simp⟩

theorem Superblock.Words.freeBlocks (h : sb.Words) : sb.freeBlocks < 2^32 :=
  h.words _ (by simp)

theorem DirEntry.Words.empty : DirEntry.empty.Words := ⟨by decide,by decide,fun _ _ => rfl⟩

theorem Inode.Words.empty : Inode.empty.Words :=
  ⟨by decide,by decide,by decide,fun _ => Nat.zero_lt_succ _,fun _ _ => rfl⟩

theorem Op.makes_mode {op : Op} {mode : ℕ} {isDir : Bool}
    (h : op.makes = some (name,mode,isDir)) : mode < 256^2 ∧ mode ≠ 0 := by
  cases op <;> simp only [Op.makes, Option.some.injEq, Prod.mk.injEq, reduceCtorEq] at h
  all_goals
    rw [← h.2.1]
    decide

section
variable {v : Volume} {s s' : State}

theorem Fresh.tables (h : Fresh v s) : Tables s := by
  have hroot : s.inodes rootInode = freshRoot := by
    rw [h.inodes rootInode (by decide)]
    exact update_self _ _ _
  refine ⟨?_,?_,fun i hi => ?_,?_,?_,?_,fun k => ?_⟩
  · rw [h.superblock]
    exact freshSuper_words v
  · rw [h.superblock]
    rfl
  · rw [h.inodes i hi]
    exact freshInodes_words i
  · rw [hroot]
    rfl
  · rw [hroot, h.rootDirCount]
    rfl
  · rw [h.rootDirCount]
    decide
  · rw [h.rootDir]
    exact .empty

theorem Inode.Words.withMode (h : n.Words) {mode : ℕ} (hm : mode < 256^2) :
    ({n with mode := mode, size := 0} : Inode).Words :=
  ⟨hm,show 0 < 256^4 by decide,h.blockCount,h.block,h.direct⟩

theorem Tables.setInode (h : Tables s) {i : ℕ} (hi : i ≠ rootInode) (hn : n.Words) :
    Tables (s.setInode i n) := by
  have hroot : (s.setInode i n).inodes rootInode = s.inodes rootInode :=
    update_of_ne hi.symm _ _
  refine ⟨h.superblock,h.magic,fun j hj => ?_,?_,?_,h.count,h.entries⟩
  · by_cases hji : j = i
    · rw [hji, s.setInode_self]
      exact hn
    · rw [s.setInode_of_ne hji]
      exact h.table j hj
  · rw [hroot]
    exact h.rootCount
  · rw [hroot]
    exact h.rootSize

theorem Tables.setRoot (h : Tables s) {dir : ℕ → DirEntry} {count : ℕ} (hdir : ∀ k, (dir k).Words)
    (hcount : count ≤ maxRootEntries) :
    Tables ({s with rootDir := dir, rootDirCount := count} : State).setRootSize := by
  have hsize : count*64%2^32 = count*64 := Nat.mod_eq_of_lt (by unfold maxRootEntries at hcount; omega)
  generalize ht : ({s with rootDir := dir, rootDirCount := count} : State).setRootSize = t
  have hroot : t.inodes rootInode = {s.inodes rootInode with size := count*64} := by
    have hself : t.inodes rootInode = {s.inodes rootInode with size := count*64%2^32} := by
      rw [← ht]
      simp only [State.setRootSize, State.setInode, update_self]
    rwa [hsize] at hself
  have hother : ∀ j, j ≠ rootInode → t.inodes j = s.inodes j := by
    intro j hj
    rw [← ht]
    exact update_of_ne hj _ _
  refine ⟨?_,?_,fun j hj => ?_,?_,?_,?_,?_⟩
  · rw [← ht]
    exact h.superblock
  · rw [← ht]
    exact h.magic
  · by_cases hjr : j = rootInode
    · have hold := h.table rootInode (by decide)
      rw [hjr, hroot]
      exact ⟨hold.mode,by unfold maxRootEntries at hcount; dsimp only; omega,hold.blockCount,hold.block,
        hold.direct⟩
    · rw [hother j hjr]
      exact h.table j hj
  · rw [hroot]
    exact h.rootCount
  · rw [hroot, ← ht]
    rfl
  · rw [← ht]
    exact hcount
  · rw [← ht]
    exact hdir

theorem putName_words {old : ℕ → UInt8} {i kind : ℕ}
    (hold : ∀ k, 56 ≤ k → old k = 0) (hi : i < maxInodes) (hkind : kind ≤ 1) :
    DirEntry.Words ⟨i,putName old name,kind⟩ := by
  refine ⟨?_,?_,fun k hk => ?_⟩
  · unfold maxInodes at hi
    dsimp only
    omega
  · dsimp only
    omega
  · have hlen : min name.length 55 ≤ 55 := min_le_right _ _
    dsimp only [putName]
    rw [if_neg (by omega), if_neg (by omega)]
    exact hold k hk

theorem Tables.created (h : Tables s) {i mode : ℕ} (hi : i < maxInodes) (hr : i ≠ rootInode)
    (hmode : mode < 256^2) (hroom : s.rootDirCount < maxRootEntries) (isDir : Bool)
    (name : List UInt8) : Tables (s.created i mode isDir name) := by
  refine (h.setInode hr ((h.table i hi).withMode hmode)).setRoot (fun k => ?_) hroom
  by_cases hk : k = s.rootDirCount
  · rw [hk, update_self]
    exact putName_words (h.entries s.rootDirCount).name hi (by split_ifs <;> decide)
  · rw [update_of_ne hk]
    exact h.entries k

theorem Tables.withFree (h : Tables s) (hf : free < 2^32) (bitmap : Bitmap) :
    Tables {s with bitmap := bitmap, fsSuper := {s.fsSuper with freeBlocks := free}} :=
  ⟨h.superblock.withFree hf,h.magic,h.table,h.rootCount,h.rootSize,h.count,h.entries⟩

theorem Tables.removed (h : Tables s) {idx free : ℕ} (hr : (s.rootDir idx).inode ≠ rootInode)
    (hf : free < 2^32) (bitmap : Bitmap) : Tables (s.removed idx bitmap free) := by
  have hroot : Tables ({s with
      rootDir := Function.update s.rootDir idx .empty
      rootDirCount := s.rootDirCount-1} : State).setRootSize := by
    refine h.setRoot (fun k => ?_) ((Nat.sub_le _ _).trans h.count)
    by_cases hk : k = idx
    · rw [hk, update_self]
      exact .empty
    · rw [update_of_ne hk]
      exact h.entries k
  exact (hroot.withFree hf bitmap).setInode hr .empty

theorem Tables.extends_ (h : Tables s) (he : Extends v s s') : Tables s' := by
  obtain ⟨free,hsuper,hfree⟩ := he.superblock
  refine ⟨?_,?_,?_,?_,?_,?_,?_⟩
  · rw [hsuper]
    exact h.superblock.withFree (hfree h.superblock.freeBlocks)
  · rw [hsuper]
    exact h.magic
  · rw [he.inodes]
    exact h.table
  · rw [he.inodes]
    exact h.rootCount
  · rw [he.inodes, he.rootDirCount]
    exact h.rootSize
  · rw [he.rootDirCount]
    exact h.count
  · rw [he.rootDir]
    exact h.entries

theorem Held.words (h : Held v bitmap n) (k : ℕ) :
    n.directBlocks k < 256^4 := by
  have hle := v.blocks_le
  by_cases h0 : n.directBlocks k = 0
  · omega
  · have := (h.inside k h0).2
    omega

theorem Wrote.tables {i off n : ℕ} (hw : Wrote v i off data n s s')
    (hi : Intact v s) (h : Tables s) : Tables s' := by
  obtain ⟨s₁,m,hwritten,-,rfl⟩ := hw.written
  have hold := h.table i hw.inode.2
  refine (h.extends_ hwritten.extends_).setInode (hi.isFile_ne_root hw.file) ⟨?_,?_,?_,?_,?_⟩
  · change m.mode < _
    rw [hwritten.mode]
    exact hold.mode
  · dsimp only
    split_ifs
    · exact Nat.mod_lt _ (by decide)
    · exact hold.size
  · change m.blockCount < _
    rcases hwritten.counted with rfl | ⟨k,-,hk,hcount⟩
    · exact hold.blockCount
    · rw [hcount]
      by_contra hbig
      exact hk (hwritten.held.direct k (by unfold directBlockCount; omega))
  · exact hwritten.held.words
  · exact hwritten.held.direct

theorem Effect.tables {op : Op} {ok : Bool} (he : Effect v s s' op ok) (hi : Intact v s)
    (h : Tables s) : Tables s' := by
  cases he with
  | read same ready bytes =>
    rw [same]
    exact ⟨h.superblock,h.magic,h.table,h.rootCount,h.rootSize,h.count,h.entries⟩
  | @created op name mode isDir i makes created =>
    obtain ⟨c,rfl,-⟩ := created.flushed
    have hc := h.created created.inode.2.1 created.inode.2.2 (Op.makes_mode makes).1 created.room
      isDir name
    exact ⟨hc.superblock,hc.magic,hc.table,hc.rootCount,hc.rootSize,hc.count,hc.entries⟩
  | notCreated makes notCreated =>
    rcases notCreated with ⟨rfl,-⟩ | ⟨-,i,hlt,hr,rfl⟩
    · exact h
    · exact h.setInode hr ((h.table i hlt).withMode (Op.makes_mode makes).1)
  | deleted deleted =>
    obtain ⟨bitmap,free,c,hfreed,rfl,-⟩ := deleted.flushed
    have hidx := (findInRoot_spec deleted.found).1
    have hd := h.removed (hi.entries _ hidx).1 (hfreed.small h.superblock.freeBlocks) bitmap
    exact ⟨hd.superblock,hd.magic,hd.table,hd.rootCount,hd.rootSize,hd.count,hd.entries⟩
  | notDeleted same absent =>
    rw [same]
    exact h
  | wrote wrote => exact wrote.tables hi h
  | notWritten notWritten => exact h.extends_ (notWritten.extends_ hi.toMounted)

/-- The disk holds the superblock and the directory of memory, but perhaps for the number of
free blocks, with some bitmap and some inode table. -/
def Saved (v : Volume) (s : State) : Prop := ∃ free bitmap inodes, free < 2^32 ∧
  OnDisk (s.bytes v) {s.fsSuper with freeBlocks := free} bitmap inodes
    (rootBuf s.rootDirCount s.rootDir)

theorem Saved.extends_ (h : Saved v s) (he : Extends v s s') : Saved v s' := by
  obtain ⟨free,bitmap,inodes,hfree,hdisk⟩ := h
  obtain ⟨free',hsuper,-⟩ := he.superblock
  refine ⟨free,bitmap,inodes,hfree,?_⟩
  rw [hsuper, he.rootDirCount, he.rootDir]
  exact hdisk.congr fun x hx => he.tables x (by omega)

end

/-! ## Restoring -/

section
variable {v : Volume} {s s' t u : State}

theorem Loaded.count {dir : List UInt8} (h : Tables s)
    (hl : Loaded v u t sb bitmap s.inodes dir) : t.rootDirCount = s.rootDirCount := by
  rw [hl.rootDirCount, h.rootSize, Nat.mul_div_cancel _ (by decide)]
  exact min_eq_left h.count

theorem Loaded.entry {k : ℕ} (h : Tables s)
    (hl : Loaded v u t sb bitmap s.inodes (rootBuf s.rootDirCount s.rootDir++stack))
    (hk : k < s.rootDirCount) (hlt : k < 8) : t.rootDir k = s.rootDir k := by
  rw [hl.entries k (by rw [hl.count h]; exact hk)]
  exact decode_rootBuf stack hk hlt (h.entries k)

end

/-- A file has been written, and another one created. -/
def stored : State :=
  exec (exec (exec mounted (.createFile [0x61])) (.write 2 0 [1,2,3])) (.createFile [0x62])

end Zohara.Zohfs
