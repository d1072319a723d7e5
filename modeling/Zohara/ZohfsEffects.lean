import Zohara.ZohfsStorage

/-!
# What the ZohFS operations do

The invariant of a mounted volume: the first ten blocks are marked, the root directory has
block 1, every other inode holds blocks of its own, and directory entries name inodes of the
table. On such a volume every operation is described by the tables it leaves in memory: a
creation adds an entry, a deletion removes one and frees blocks, both with all tables written
to the disk; a write changes one inode and the data area; what fails leaves the tables, and
may at most have taken blocks. The invariant is kept in every case.
-/
namespace Zohara.Zohfs
open ByteMemory FallibleState IdeDisk BufferCache WordBitmap List Option Function

variable {n n' : Inode} {bitmap : Bitmap} {message : String} {isDir : Bool} {name data : List UInt8}
  {E : Fault → State → Prop} {s' : State}

structure Intact (v : Volume) (s : State) : Prop extends Mounted v s where
  reserved : ∀ b < 10, member s.bitmap b = true
  root : ∀ k, (s.inodes rootInode).directBlocks k = if k = 0 then 1 else 0
  rootMode : (s.inodes rootInode).mode = dirMode
  held : ∀ i < maxInodes, i ≠ rootInode → Held v s.bitmap (s.inodes i)
  apart : ∀ i < maxInodes, ∀ j < maxInodes, i ≠ rootInode → j ≠ rootInode → i ≠ j → ∀ k l,
    (s.inodes i).directBlocks k ≠ 0 → (s.inodes i).directBlocks k ≠ (s.inodes j).directBlocks l
  entries : ∀ k < s.rootDirCount, (s.rootDir k).inode ≠ rootInode ∧ (s.rootDir k).inode < maxInodes

theorem State.setInode_self (s : State) (i : ℕ) (n : Inode) : (s.setInode i n).inodes i = n := by
  change Function.update s.inodes i n i = n
  rw [update_self]

theorem State.setInode_of_ne (s : State) {i j : ℕ} (h : j ≠ i) (n : Inode) :
    (s.setInode i n).inodes j = s.inodes j := by
  change Function.update s.inodes i n j = s.inodes j
  rw [update_of_ne h]

section
variable {v : Volume} {s s' : State}

theorem Intact.withCache (h : Intact v s) {c : Cache} (hc : Ready v.disk c) :
    Intact v (s.withCache c) :=
  ⟨h.toMounted.withCache hc,h.reserved,h.root,h.rootMode,h.held,h.apart,h.entries⟩

theorem Intact.extends_ (h : Intact v s) (he : Extends v s s') : Intact v s' := by
  refine ⟨he.mounted,fun b hb => he.grows b (h.reserved b hb),?_,?_,?_,?_,?_⟩
  · rw [he.inodes]
    exact h.root
  · rw [he.inodes]
    exact h.rootMode
  · intro i hlt hne
    rw [he.inodes]
    exact (h.held i hlt hne).mono he
  · rw [he.inodes]
    exact h.apart
  · rw [he.rootDir, he.rootDirCount]
    exact h.entries

variable {i : ℕ}

/-- An inode other than the root gets blocks that no other inode has. -/
theorem Intact.setInode (h : Intact v s) (hi : i ≠ rootInode)
    (hheld : Held v s.bitmap n) (hapart : ∀ j < maxInodes, j ≠ rootInode → j ≠ i → ∀ k l,
      n.directBlocks k ≠ 0 → n.directBlocks k ≠ (s.inodes j).directBlocks l) :
    Intact v (s.setInode i n) := by
  have hself : (s.setInode i n).inodes i = n := update_self _ _ _
  have hother : ∀ j, j ≠ i → (s.setInode i n).inodes j = s.inodes j :=
    fun j hj => update_of_ne hj _ _
  refine ⟨⟨h.mounted,h.disk,h.totalBlocks,h.dataStart,h.ready⟩,h.reserved,?_,?_,?_,?_,h.entries⟩
  · rw [hother _ hi.symm]
    exact h.root
  · rw [hother _ hi.symm]
    exact h.rootMode
  · intro j hlt hj
    by_cases hji : j = i
    · rw [hji, hself]
      exact hheld
    · rw [hother j hji]
      exact h.held j hlt hj
  · intro j hlt m hlt' hj hm hne k l hk he
    by_cases hji : j = i
    · rw [hji, hself, hother m fun he => hne (hji.trans he.symm)] at he
      rw [hji, hself] at hk
      exact hapart m hlt' hm (fun he => hne (hji.trans he.symm)) k l hk he
    · rw [hother j hji] at hk he
      by_cases hmi : m = i
      · rw [hmi, hself] at he
        exact hapart j hlt hj hji l k (he ▸ hk) he.symm
      · rw [hother m hmi] at he
        exact h.apart j hlt m hlt' hj hm hne k l hk he

theorem Held.congr (h : Held v bitmap n)
    (hb : n'.directBlocks = n.directBlocks) : Held v bitmap n' := by
  refine ⟨?_,?_,?_,?_⟩
  · rw [hb]
    exact h.direct
  · rw [hb]
    exact h.marked
  · rw [hb]
    exact h.inside
  · rw [hb]
    exact h.apart

theorem Intact.setFields (h : Intact v s) (hlt : i < maxInodes)
    (hi : i ≠ rootInode) (hb : n.directBlocks = (s.inodes i).directBlocks) :
    Intact v (s.setInode i n) := by
  refine h.setInode hi ((h.held i hlt hi).congr hb) fun j hj hjr hji k l => ?_
  rw [hb]
  exact h.apart i hlt j hj hi hjr hji.symm k l

theorem Intact.setRoot (h : Intact v s) {dir : ℕ → DirEntry} {count : ℕ}
    (hd : ∀ k < count, (dir k).inode ≠ rootInode ∧ (dir k).inode < maxInodes) :
    Intact v {s with rootDir := dir, rootDirCount := count}.setRootSize := by
  generalize ht : ({s with rootDir := dir, rootDirCount := count} : State).setRootSize = t
  have hself : t.inodes rootInode = {s.inodes rootInode with size := count*64%2^32} := by
    rw [← ht]
    unfold State.setRootSize State.setInode
    dsimp only
    rw [update_self]
  have hother : ∀ j, j ≠ rootInode → t.inodes j = s.inodes j := by
    intro j hj
    rw [← ht]
    unfold State.setRootSize State.setInode
    dsimp only
    rw [update_of_ne hj]
  have hbitmap : t.bitmap = s.bitmap := by rw [← ht]; rfl
  refine ⟨?_,?_,?_,?_,?_,?_,?_⟩
  · rw [← ht]
    exact ⟨h.mounted,h.disk,h.totalBlocks,h.dataStart,h.ready⟩
  · rw [hbitmap]
    exact h.reserved
  · rw [hself]
    exact h.root
  · rw [hself]
    exact h.rootMode
  · intro i hlt hi
    rw [hother i hi, hbitmap]
    exact h.held i hlt hi
  · intro i hlt j hlt' hi hj hne
    rw [hother i hi, hother j hj]
    exact h.apart i hlt j hlt' hi hj hne
  · rw [← ht]
    exact hd

/-- All tables of a state are on the disk, and the data area is as it was. -/
structure Flushed (v : Volume) (s : State) (c : Cache) : Prop where
  ready : Ready v.disk c
  onDisk : OnDisk (c.bytes v.disk) s.fsSuper s.bitmap s.inodes (rootBuf s.rootDirCount s.rootDir)
  data : ∀ x, 37376 ≤ x → c.bytes v.disk x = s.bytes v x

theorem flushRootDir_returns (h : Intact v s) :
    Returns flushRootDir s fun _ s' => ∃ c, s' = s.withCache c ∧ Flushed v s c := by
  have hroom := v.room
  have hblock : (s.inodes rootInode).directBlocks 0 = 1 := (h.root 0).trans (if_pos rfl)
  unfold flushRootDir
  refine ends_get ?_
  rw [hblock, if_neg (by decide), h.disk, h.dataStart, blockSector_eq le_rfl (by decide)]
  refine Ends.bind (returns_onCache (cachedWrite_sound h.ready.sound hroom (length_read _ _ _)))
    fun _ s₁ h₁ => ?_
  obtain ⟨c₁,rfl,hst₁,hb₁⟩ := h₁
  refine Ends.bind (returns_onCache (cachedWrite_sound hst₁.sound (by omega) (length_sectorOf _)))
    fun _ s₂ h₂ => ?_
  obtain ⟨c₂,rfl,hst₂,hb₂⟩ := h₂
  refine Ends.imp (writeTables_sound hst₂.sound) (fun _ s₃ h₃ => ?_)
  obtain ⟨c₃,rfl,hr₃,-,hb₃⟩ := h₃
  have hbytes : c₃.bytes v.disk = write (write (write (write (s.bytes v) 36864
      (rootBuf s.rootDirCount s.rootDir)) 0 (sectorOf s.fsSuper.bytes)) 512 (bitmapBuf s.bitmap))
      4096 (inodeBuf s.inodes) := by
    rw [hb₃]
    change write (write (c₂.bytes v.disk) _ _) _ _ = _
    rw [hb₂]
    change write (write (write (c₁.bytes v.disk) _ _) _ _) _ _ = _
    rw [hb₁]
    rfl
  have hinodes := length_inodeBuf s.inodes
  have hbitmap := length_bitmapBuf s.bitmap
  have hsuper := length_sectorOf s.fsSuper.bytes
  have hroot := length_rootBuf s.rootDirCount s.rootDir
  refine ⟨c₃,rfl,hr₃,⟨⟨[],?_⟩,?_,?_,?_⟩,fun x hx => ?_⟩
  · rw [hbytes, read_write_disjoint _ (.inl (by decide)), read_write_disjoint _ (.inl (by decide)),
      append_nil, ← hsuper]
    exact read_write_self _ 0 _
  · rw [hbytes, read_write_disjoint _ (.inl (by decide)), ← hbitmap]
    exact read_write_self _ 512 _
  · rw [hbytes, ← hinodes]
    exact read_write_self _ 4096 _
  · rw [hbytes, read_write_disjoint _ (.inr (by rw [hinodes])),
      read_write_disjoint _ (.inr (by rw [hbitmap]; decide)),
      read_write_disjoint _ (.inr (by rw [hsuper]; decide)), ← hroot]
    exact read_write_self _ 36864 _
  · unfold sectorSize at hsuper hroot
    rw [hbytes, write_outside _ (by omega), write_outside _ (by omega),
      write_outside _ (by omega), write_outside _ (by omega)]

/-! ## Creating -/

/-- The tables in memory with a new entry. -/
def State.created (s : State) (i mode : ℕ) (isDir : Bool) (name : List UInt8) : State :=
  {s.setInode i {s.inodes i with mode := mode, size := 0} with
    rootDir := Function.update s.rootDir s.rootDirCount
      ⟨i,putName (s.rootDir s.rootDirCount).name name,if isDir then 1 else 0⟩
    rootDirCount := s.rootDirCount+1}.setRootSize

theorem State.created_inodes (s : State) (hi : i ≠ rootInode) (mode : ℕ) (isDir : Bool)
    (name : List UInt8) (j : ℕ) : (s.created i mode isDir name).inodes j =
      if j = i then {s.inodes i with mode := mode, size := 0}
      else if j = rootInode then {s.inodes rootInode with size := (s.rootDirCount+1)*64%2^32}
      else s.inodes j := by
  generalize hn : {s.inodes i with mode := mode, size := 0} = n
  have hroot : Function.update s.inodes i n rootInode = s.inodes rootInode :=
    update_of_ne hi.symm _ _
  have hmap : (s.created i mode isDir name).inodes = Function.update (Function.update s.inodes i n)
      rootInode {Function.update s.inodes i n rootInode with size := (s.rootDirCount+1)*64%2^32} := by
    rw [← hn]
    rfl
  rw [hmap, hroot]
  split_ifs with hji hjr
  · rw [hji, update_of_ne hi, update_self]
  · rw [hjr, update_self]
  · rw [update_of_ne hjr, update_of_ne hji]

/-- A creation that has returned the inode number `i`, the first that was free. -/
structure Created (v : Volume) (s s' : State) (i mode : ℕ) (isDir : Bool) (name : List UInt8) :
    Prop where
  absent : findInRoot s name = none
  room : s.rootDirCount < maxRootEntries
  inode : 1 ≤ i ∧ i < maxInodes ∧ i ≠ rootInode
  free : (s.inodes i).mode = 0
  first : ∀ j, 1 ≤ j → j < i → (s.inodes j).mode ≠ 0
  flushed : ∃ c, s' = (s.created i mode isDir name).withCache c ∧
    Flushed v (s.created i mode isDir name) c

/-- A creation that has failed: the name exists, no inode is free, or an inode has been taken
and the directory is full. -/
def NotCreated (s s' : State) (mode : ℕ) (name : List UInt8) : Prop :=
  (s' = s ∧ ((findInRoot s name).isSome ∨ ∀ i, 1 ≤ i → i < maxInodes → (s.inodes i).mode ≠ 0)) ∨
  maxRootEntries ≤ s.rootDirCount ∧ ∃ i < maxInodes, i ≠ rootInode ∧
    s' = s.setInode i {s.inodes i with mode := mode, size := 0}

theorem Intact.created (h : Intact v s) (hlt : i < maxInodes) (hi : i ≠ rootInode)
    (mode : ℕ) (isDir : Bool) (name : List UInt8) : Intact v (s.created i mode isDir name) := by
  refine (h.setFields (n := {s.inodes i with mode := mode, size := 0}) hlt hi rfl).setRoot
    fun k hk => ?_
  by_cases hlast : k = s.rootDirCount
  · rw [hlast, update_self]
    exact ⟨hi,hlt⟩
  · rw [update_of_ne hlast]
    exact h.entries k (by omega)

/-- The inode that alloc_inode finds. -/
structure FirstFree (s : State) (i : ℕ) : Prop where
  range : 1 ≤ i ∧ i < maxInodes
  free : (s.inodes i).mode = 0
  first : ∀ j, 1 ≤ j → j < i → (s.inodes j).mode ≠ 0

def NoFreeInode (s : State) : Prop := ∀ i, 1 ≤ i → i < maxInodes → (s.inodes i).mode ≠ 0

theorem allocInode_ends (s : State) : Ends allocInode s (fun i s' => s' = s ∧ FirstFree s i)
    fun _ s' => s' = s ∧ NoFreeInode s := by
  unfold allocInode
  refine ends_get ?_
  cases hf : (List.range' 1 (maxInodes-1)).find? fun i => (s.inodes i).mode = 0 with
  | none =>
    refine ends_throw ⟨rfl,fun i hi hlt => ?_⟩
    have hmem : i ∈ List.range' 1 (maxInodes-1) := by
      rw [mem_range'_1]
      omega
    simpa using find?_eq_none.mp hf i hmem
  | some i =>
    obtain ⟨hzero,hmem,hbefore⟩ := find?_range'_eq_some.mp hf
    rw [mem_range'_1] at hmem
    exact ends_pure ⟨rfl,⟨hmem.1,by unfold maxInodes at *; omega⟩,of_decide_eq_true hzero,
      fun j hj hlt => by simpa using hbefore j hj hlt⟩

/-- A creation that stops before it has changed anything. -/
def Refused (s : State) (name : List UInt8) : Prop :=
  s.fsMounted = false ∨ (findInRoot s name).isSome ∨ NoFreeInode s

theorem createNode_steps {mode : ℕ}
    {Q : ℕ → State → Prop} (hrefused : ∀ e, Refused s name → E e s)
    (hfull : ∀ e i, FirstFree s i → ¬Refused s name → maxRootEntries ≤ s.rootDirCount →
      E e (s.setInode i {s.inodes i with mode := mode, size := 0}))
    (hroom : ∀ i, FirstFree s i → ¬Refused s name → s.rootDirCount < maxRootEntries →
      Ends flushRootDir (s.created i mode isDir name) (fun _ s' => Q i s') E) :
    Ends (createNode message mode isDir name) s Q E := by
  unfold createNode
  refine ends_get ?_
  by_cases hm : s.fsMounted = false
  · rw [if_pos hm]
    exact ends_throw (hrefused _ (.inl hm))
  rw [if_neg hm]
  by_cases hfound : (findInRoot s name).isSome
  · rw [if_pos hfound]
    exact ends_throw (hrefused _ (.inr (.inl hfound)))
  rw [if_neg hfound]
  refine Ends.bind (Ends.fails (allocInode_ends s) fun e _ he => he.1 ▸ hrefused e (.inr (.inr he.2))) fun i s₁ h₁ => ?_
  obtain ⟨rfl,hi⟩ := h₁
  have hgoes : ¬Refused s₁ name := by
    rintro (hr | hr | hr)
    · exact hm hr
    · exact hfound hr
    · exact hr i hi.range.1 hi.range.2 hi.free
  refine ends_modify_bind _ (ends_get ?_)
  by_cases hdir : maxRootEntries ≤ s₁.rootDirCount
  · rw [if_pos (show maxRootEntries ≤ (s₁.setInode i _).rootDirCount from hdir)]
    exact ends_throw (hfull _ i hi hgoes hdir)
  · rw [if_neg (show ¬maxRootEntries ≤ (s₁.setInode i _).rootDirCount from hdir)]
    exact ends_set_bind (Ends.bind (hroom i hi hgoes (not_le.mp hdir)) fun _ _ hs =>
      ends_pure hs)

theorem createNode_ends (h : Intact v s) (message : String) (mode : ℕ) (isDir : Bool)
    (name : List UInt8) : Ends (createNode message mode isDir name) s
      (fun i s' => Created v s s' i mode isDir name) fun _ s' => NotCreated s s' mode name := by
  have hroot : ∀ {i : ℕ}, FirstFree s i → i ≠ rootInode := by
    rintro i hi rfl
    have hmode := hi.free
    rw [h.rootMode] at hmode
    exact absurd hmode (by decide)
  refine createNode_steps (fun _ hr => .inl ⟨rfl,hr.resolve_left (by rw [h.mounted]; decide)⟩)
    (fun _ i hi _ hfull => .inr ⟨hfull,i,hi.range.2,hroot hi,rfl⟩) fun i hi hgoes hroom => ?_
  refine (flushRootDir_returns (h.created hi.range.2 (hroot hi) mode isDir name)).ends.mono
    (fun _ s' hs => ?_) fun _ _ he => he
  have habsent := not_or.mp (not_or.mp hgoes).2
  exact ⟨not_isSome_iff_eq_none.mp habsent.1,hroom,⟨hi.range.1,hi.range.2,hroot hi⟩,hi.free,
    hi.first,hs⟩

/-! ## Deleting -/

/-- The blocks of an inode below its block count are free again. -/
structure Freed (s : State) (n : Inode) (bitmap : Bitmap) (free : ℕ) : Prop where
  bits : ∀ b, member bitmap b = true ↔ member s.bitmap b = true ∧
    ∀ j < min n.blockCount directBlockCount, n.directBlocks j = b → b = 0
  small : s.fsSuper.freeBlocks < 2^32 → free < 2^32

theorem freeBlocksFrom_returns {i k : ℕ} {s : State}
    (hn : ∀ j, n.directBlocks j ≠ 0 → n.directBlocks j < 4096) :
    Returns (freeBlocksFrom n i k) s fun _ s' => ∃ bitmap free, s' = {s with
      bitmap := bitmap
      fsSuper := {s.fsSuper with freeBlocks := free}} ∧
      (∀ b, member bitmap b = true ↔ member s.bitmap b = true ∧
        ∀ j, i ≤ j → j < i+k → n.directBlocks j = b → b = 0) ∧
      (s.fsSuper.freeBlocks < 2^32 → free < 2^32) := by
  induction k generalizing i s with
  | zero =>
    refine ends_pure ⟨s.bitmap,s.fsSuper.freeBlocks,rfl,fun b => ⟨fun hb => ⟨hb,?_⟩,fun hb => hb.1⟩,
      fun h => h⟩
    intro j hle hlt
    omega
  | succ k ih =>
    unfold freeBlocksFrom
    dsimp only
    by_cases h0 : n.directBlocks i = 0
    · rw [if_pos h0]
      refine Ends.imp ih (fun _ s' hs => ?_)
      obtain ⟨bitmap,free,rfl,hbits,hfree⟩ := hs
      refine ⟨bitmap,free,rfl,fun b => (hbits b).trans ⟨fun hb => ⟨hb.1,fun j hle hlt hj => ?_⟩,
        fun hb => ⟨hb.1,fun j hle hlt => hb.2 j (by omega) (by omega)⟩⟩,hfree⟩
      by_cases hji : j = i
      · rw [← hj, hji, h0]
      · exact hb.2 j (by omega) (by omega) hj
    · have hword : ¬bitmapWords ≤ n.directBlocks i/64 := by
        have := hn i h0
        unfold bitmapWords
        omega
      rw [if_neg h0, if_neg hword]
      refine ends_modify_bind _ (Ends.imp ih (fun _ s' hs => ?_))
      obtain ⟨bitmap,free,rfl,hbits,hfree⟩ := hs
      refine ⟨bitmap,free,rfl,fun b => (hbits b).trans ?_,fun _ => hfree (Nat.mod_lt _ (by decide))⟩
      dsimp only
      rw [member_erase, Bool.and_eq_true, decide_eq_true_eq]
      constructor
      · intro hb
        refine ⟨hb.1.2,fun j hle hlt hj => ?_⟩
        by_cases hji : j = i
        · exact (hb.1.1 (hji ▸ hj.symm)).elim
        · exact hb.2 j (by omega) (by omega) hj
      · intro hb
        refine ⟨⟨fun he => h0 ?_,hb.1⟩,fun j hle hlt => hb.2 j (by omega) (by omega)⟩
        rw [← he]
        exact hb.2 i le_rfl (by omega) he.symm

/-- The tables in memory without an entry. -/
def State.removed (s : State) (idx : ℕ) (bitmap : Bitmap) (free : ℕ) : State :=
  State.setInode {({s with
    rootDir := Function.update s.rootDir idx .empty
    rootDirCount := s.rootDirCount-1} : State).setRootSize with
      bitmap := bitmap
      fsSuper := {s.fsSuper with freeBlocks := free}} (s.rootDir idx).inode .empty

variable {idx : ℕ}

theorem State.removed_inodes (s : State) (hi : (s.rootDir idx).inode ≠ rootInode)
    (bitmap : Bitmap) (free j : ℕ) : (s.removed idx bitmap free).inodes j =
      if j = (s.rootDir idx).inode then .empty
      else if j = rootInode then {s.inodes rootInode with size := (s.rootDirCount-1)*64%2^32}
      else s.inodes j := by
  change Function.update (Function.update s.inodes rootInode _) (s.rootDir idx).inode .empty j = _
  split_ifs with hji hjr
  · rw [hji, update_self]
  · rw [hjr, update_of_ne hi.symm, update_self]
  · rw [update_of_ne hji, update_of_ne hjr]

/-- A deletion that has returned. -/
structure Deleted (v : Volume) (s s' : State) (idx : ℕ) (name : List UInt8) : Prop where
  found : findInRoot s name = some idx
  flushed : ∃ bitmap free c, Freed s (s.inodes (s.rootDir idx).inode) bitmap free ∧
    s' = (s.removed idx bitmap free).withCache c ∧ Flushed v (s.removed idx bitmap free) c

theorem findInRoot_spec (h : findInRoot s name = some idx) :
    idx < s.rootDirCount ∧ (s.rootDir idx).inode ≠ 0 ∧ (s.rootDir idx).text = name := by
  refine ⟨mem_range.mp (mem_of_find?_eq_some h),?_⟩
  simpa using find?_some h

theorem Intact.removeEntry (h : Intact v s) (hidx : idx < s.rootDirCount) : Intact v ({s with
      rootDir := Function.update s.rootDir idx .empty
      rootDirCount := s.rootDirCount-1} : State).setRootSize := by
  refine h.setRoot fun k hk => ?_
  by_cases hki : k = idx
  · rw [hki, update_self]
    decide
  · rw [update_of_ne hki]
    exact h.entries k (by omega)

theorem Intact.release (h : Intact v s) (hlt : i < maxInodes) (hi : i ≠ rootInode)
    {free : ℕ} (hf : Freed s (s.inodes i) bitmap free) :
    Intact v (State.setInode {s with
      bitmap := bitmap
      fsSuper := {s.fsSuper with freeBlocks := free}} i .empty) := by
  have hheld := h.held i hlt hi
  have hkept : ∀ b, member s.bitmap b = true → (∀ j, (s.inodes i).directBlocks j = b → b = 0) →
      member bitmap b = true := fun b hb hnot => (hf.bits b).mpr ⟨hb,fun j _ => hnot j⟩
  generalize ht : State.setInode {s with
    bitmap := bitmap
    fsSuper := {s.fsSuper with freeBlocks := free}} i .empty = t
  have hself : t.inodes i = .empty := by
    rw [← ht]
    exact update_self _ _ _
  have hother : ∀ j, j ≠ i → t.inodes j = s.inodes j := by
    intro j hj
    rw [← ht]
    exact update_of_ne hj _ _
  have hbitmap : t.bitmap = bitmap := by rw [← ht]; rfl
  refine ⟨?_,fun b hb => ?_,?_,?_,?_,?_,?_⟩
  · rw [← ht]
    exact ⟨h.mounted,h.disk,h.totalBlocks,h.dataStart,h.ready⟩
  · rw [hbitmap]
    refine hkept b (h.reserved b hb) fun j hj => ?_
    by_contra hne
    have := hheld.inside j (by omega)
    omega
  · rw [hother _ hi.symm]
    exact h.root
  · rw [hother _ hi.symm]
    exact h.rootMode
  · intro j hj hjr
    by_cases hji : j = i
    · rw [hji, hself]
      exact ⟨fun _ _ => rfl,fun _ hk => (hk rfl).elim,fun _ hk => (hk rfl).elim,
        fun _ _ hk => (hk rfl).elim⟩
    · rw [hother j hji, hbitmap]
      have hold := h.held j hj hjr
      refine ⟨hold.direct,fun k hk => ?_,hold.inside,hold.apart⟩
      refine hkept _ (hold.marked k hk) fun l hl => ?_
      exact (h.apart j hj i hlt hjr hi hji k l hk hl.symm).elim
  · intro j hj m hm hjr hmr hne k l hk he
    by_cases hji : j = i
    · rw [hji, hself] at hk
      exact hk rfl
    · rw [hother j hji] at hk he
      by_cases hmi : m = i
      · rw [hmi, hself] at he
        exact hk he
      · rw [hother m hmi] at he
        exact h.apart j hj m hm hjr hmr hne k l hk he
  · rw [← ht]
    exact h.entries

theorem Intact.removed (h : Intact v s) (hidx : idx < s.rootDirCount)
    {free : ℕ} (hf : Freed s (s.inodes (s.rootDir idx).inode) bitmap free) :
    Intact v (s.removed idx bitmap free) := by
  obtain ⟨hi,hlt⟩ := h.entries idx hidx
  refine (h.removeEntry hidx).release hlt hi ⟨fun b => ?_,hf.small⟩
  have hsame : (({s with
      rootDir := Function.update s.rootDir idx .empty
      rootDirCount := s.rootDirCount-1} : State).setRootSize).inodes (s.rootDir idx).inode =
      s.inodes (s.rootDir idx).inode := update_of_ne hi _ _
  rw [hsame]
  exact hf.bits b

/-- The tables without the entry, before the blocks are freed. -/
def State.unlinked (s : State) (idx : ℕ) : State :=
  {s with
    rootDir := Function.update s.rootDir idx .empty
    rootDirCount := s.rootDirCount-1}.setRootSize

/-- A deletion takes the entry out, frees the blocks and then the inode, and writes the tables. -/
theorem deleteFile_steps {Q : Unit → State → Prop}
    (hm : s.fsMounted = true) (habsent : findInRoot s name = none → E (.err "file not found") s)
    (hfound : ∀ idx, findInRoot s name = some idx →
      ((s.rootDir idx).inode ≠ rootInode ∧ (s.rootDir idx).inode < maxInodes) ∧
      Ends (freeBlocksFrom (s.inodes (s.rootDir idx).inode) 0
        (min (s.inodes (s.rootDir idx).inode).blockCount directBlockCount)) (s.unlinked idx)
        (fun _ t => Ends flushRootDir (t.setInode (s.rootDir idx).inode .empty) Q E) E) :
    Ends (deleteFile name) s Q E := by
  unfold deleteFile
  refine ends_get ?_
  rw [if_neg (by rw [hm]; decide)]
  cases hf : findInRoot s name with
  | none => exact ends_throw (habsent hf)
  | some idx =>
    obtain ⟨⟨hi,hlt⟩,hfree⟩ := hfound idx hf
    obtain ⟨-,h0,-⟩ := findInRoot_spec hf
    have hbad : ¬((s.rootDir idx).inode = 0 ∨ maxInodes ≤ (s.rootDir idx).inode) := by omega
    have hsame : (s.unlinked idx).inodes (s.rootDir idx).inode =
        s.inodes (s.rootDir idx).inode := update_of_ne hi _ _
    refine ends_set_bind ?_
    unfold freeInodeBlocks freeInode
    rw [if_neg hbad, if_neg hbad]
    refine Ends.bind (ends_get ?_) fun _ t ht => ends_modify_bind _ ht
    change Ends (freeBlocksFrom ((s.unlinked idx).inodes _) 0
      (min ((s.unlinked idx).inodes _).blockCount directBlockCount)) (s.unlinked idx) _ E
    rw [hsame]
    exact hfree

theorem deleteFile_ends (h : Intact v s) (name : List UInt8) : Ends (deleteFile name) s
    (fun _ s' => ∃ idx, Deleted v s s' idx name) fun _ s' => s' = s ∧ findInRoot s name = none := by
  refine deleteFile_steps h.mounted (fun hf => ⟨rfl,hf⟩) fun idx hf => ?_
  obtain ⟨hidx,-⟩ := findInRoot_spec hf
  obtain ⟨hi,hlt⟩ := h.entries idx hidx
  have hsmall : ∀ j, (s.inodes (s.rootDir idx).inode).directBlocks j ≠ 0 →
      (s.inodes (s.rootDir idx).inode).directBlocks j < 4096 :=
    fun j hj => ((h.held _ hlt hi).inside j hj).2.trans_le v.blocks_le
  refine ⟨⟨hi,hlt⟩,Ends.mono (freeBlocksFrom_returns hsmall) (fun _ t ht => ?_)
    fun _ _ hf => hf.elim⟩
  obtain ⟨bitmap,free,rfl,hbits,hfree⟩ := ht
  have hfreed : Freed s (s.inodes (s.rootDir idx).inode) bitmap free := by
    refine ⟨fun b => (hbits b).trans ?_,hfree⟩
    rw [Nat.zero_add]
    exact ⟨fun hb => ⟨hb.1,fun j hj => hb.2 j (Nat.zero_le j) hj⟩,
      fun hb => ⟨hb.1,fun j _ hj => hb.2 j hj⟩⟩
  refine Ends.mono (flushRootDir_returns (h.removed hidx hfreed)) (fun _ s' hs => ?_)
    fun _ _ hf => hf.elim
  obtain ⟨c,hs',hc⟩ := hs
  exact ⟨idx,hf,bitmap,free,c,hfreed,hs',hc⟩

end

/-! ## Reading and writing -/

/-- What read_file_data answers, from the inode table and the contents of the disk. -/
def readAnswer (mem : Memory) (inodes : ℕ → Inode) (i off len : ℕ) : Except Fault (List UInt8) :=
  if i = 0 ∨ maxInodes ≤ i then .error (.err "invalid inode")
  else if (inodes i).isFile = false then .error (.err "not a file")
  else if (inodes i).size ≤ off then .ok []
  else .ok (readSpan mem (inodes i) off (min len ((inodes i).size-off)))

section
variable {v : Volume} {s : State} {i : ℕ}

theorem Intact.isFile_ne_root (h : Intact v s) (hf : (s.inodes i).isFile ≠ false) :
    i ≠ rootInode := by
  intro he
  rw [he] at hf
  unfold Inode.isFile at hf
  rw [h.rootMode] at hf
  exact hf rfl

/-- Files have their blocks in the data area. -/
def FilesInside (v : Volume) (inodes : ℕ → Inode) : Prop :=
  ∀ i < maxInodes, (inodes i).isFile ≠ false → ∀ k, (inodes i).directBlocks k ≠ 0 →
    10 ≤ (inodes i).directBlocks k ∧ (inodes i).directBlocks k < v.blocks

theorem Intact.filesInside (h : Intact v s) : FilesInside v s.inodes :=
  fun i hi hf => (h.held i hi (h.isFile_ne_root hf)).inside

theorem readFileData_ends (h : Mounted v s) (hin : FilesInside v s.inodes) (off len : ℕ) :
    Ends (readFileData i off len) s
      (fun bs s' => readAnswer (s.bytes v) s.inodes i off len = .ok bs ∧
        ∃ c, s' = s.withCache c ∧ Ready v.disk c ∧ c.bytes v.disk = s.bytes v)
      fun e s' => readAnswer (s.bytes v) s.inodes i off len = .error e ∧ s' = s := by
  unfold readFileData readAnswer
  refine ends_get ?_
  rw [h.mounted, if_neg (by decide)]
  by_cases hbad : i = 0 ∨ maxInodes ≤ i
  · rw [if_pos hbad, if_pos hbad]
    exact ends_throw ⟨rfl,rfl⟩
  rw [if_neg hbad, if_neg hbad]
  by_cases hfile : (s.inodes i).isFile = false
  · rw [if_pos hfile, if_pos hfile]
    exact ends_throw ⟨rfl,rfl⟩
  rw [if_neg hfile, if_neg hfile]
  by_cases hsize : (s.inodes i).size ≤ off
  · rw [if_pos hsize, if_pos hsize]
    exact ends_pure ⟨rfl,s.cache,rfl,h.ready,rfl⟩
  rw [if_neg hsize, if_neg hsize]
  refine Ends.mono (readLoop_returns h (hin i (by omega) hfile)) (fun bs s' hs => ?_)
    fun _ _ hf => hf.elim
  obtain ⟨hbs,c,rfl,hr,hb⟩ := hs
  rw [Nat.sub_zero] at hbs
  exact ⟨congrArg _ hbs.symm,c,rfl,hr,hb⟩

theorem readFileData_answer (h : Mounted v s) (hin : FilesInside v s.inodes) (off len : ℕ) :
    answer (readFileData i off len) s = readAnswer (s.bytes v) s.inodes i off len := by
  have hr := readFileData_ends (i := i) h hin off len
  cases hx : readFileData i off len s with
  | ok bs s' => rw [answer_ok hx, (hr.ok hx).1]
  | error e s' => rw [answer_error hx, (hr.error hx).1]

/-- A write that has returned the number `n` of bytes. -/
structure Wrote (v : Volume) (i off : ℕ) (data : List UInt8) (n : ℕ) (s s' : State) : Prop where
  inode : i ≠ 0 ∧ i < maxInodes
  file : (s.inodes i).isFile ≠ false
  count : n = min data.length (40960-off)
  written : ∃ s₁ m, Written v s (s.inodes i) s₁ m off (off+n) (fun p => data.getD (p-off) 0) ∧
    (∀ k, m.directBlocks k ≠ (s.inodes i).directBlocks k →
      ∃ p, off ≤ p ∧ p < off+n ∧ p/4096 = k) ∧
    s' = s₁.setInode i {m with
      size := if (s.inodes i).size < off+n then (off+n)%2^32 else (s.inodes i).size}

/-- A write that has failed: there is no such file, or blocks have run out. -/
def NotWritten (v : Volume) (i off : ℕ) (data : List UInt8) (s s' : State) : Prop :=
  s' = s ∧ (i = 0 ∨ maxInodes ≤ i ∨ (s.inodes i).isFile = false) ∨
  ∃ n, NoRoom v s (s.inodes i) s' n off (off+data.length)

theorem NotWritten.extends_ {off : ℕ} (h : Mounted v s)
    (hw : NotWritten v i off data s s') : Extends v s s' := by
  rcases hw with ⟨rfl,-⟩ | ⟨n,hno⟩
  · exact .refl h
  · exact hno.extends_

theorem writeFileData_ends (h : Intact v s) (off : ℕ) (data : List UInt8) :
    Ends (writeFileData i off data) s (fun n s' => Wrote v i off data n s s')
      fun _ s' => NotWritten v i off data s s' := by
  unfold writeFileData
  refine ends_get ?_
  rw [h.mounted, if_neg (by decide)]
  by_cases hbad : i = 0 ∨ maxInodes ≤ i
  · rw [if_pos hbad]
    exact ends_throw (.inl ⟨rfl,hbad.imp id .inl⟩)
  rw [if_neg hbad]
  by_cases hfile : (s.inodes i).isFile = false
  · rw [if_pos hfile]
    exact ends_throw (.inl ⟨rfl,.inr (.inr hfile)⟩)
  rw [if_neg hfile]
  have hheld := h.held i (by omega) (h.isFile_ne_root hfile)
  refine Ends.bind (Ends.fails (writeLoop_ends data off h.toMounted h.reserved hheld
    (Nat.add_zero off).symm (Nat.zero_le _)) fun _ _ he => .inr he)
    fun r s₁ hr => ?_
  obtain ⟨hcount,hrange,hw⟩ := hr
  refine ends_modify_bind _ (ends_pure ⟨by omega,hfile,by omega,s₁,r.2,hw,hrange,?_⟩)
  rw [← hw.size]

/-- The blocks of a file that has grown are still no other inode's. -/
theorem Intact.grown_apart (h : Intact v s) (hi : i < maxInodes)
    (hr : i ≠ rootInode) (hg : Grown v s (s.inodes i) s' n') {j : ℕ} (hj : j < maxInodes)
    (hjr : j ≠ rootInode) (hji : j ≠ i) (k l : ℕ) (hk : n'.directBlocks k ≠ 0) :
    n'.directBlocks k ≠ (s.inodes j).directBlocks l := by
  intro he
  by_cases h0 : (s.inodes i).directBlocks k = 0
  · have hfree := hg.new k h0 hk
    rw [he, (h.held j hj hjr).marked l (he ▸ hk)] at hfree
    cases hfree
  · rw [hg.old k h0] at he
    exact h.apart i hi j hj hr hjr hji.symm k l h0 he

theorem Wrote.intact {off n : ℕ} (h : Intact v s)
    (hw : Wrote v i off data n s s') : Intact v s' := by
  obtain ⟨s₁,m,hwritten,-,rfl⟩ := hw.written
  have hr := h.isFile_ne_root hw.file
  refine (h.extends_ hwritten.extends_).setInode hr (hwritten.held.congr rfl)
    fun j hj hjr hji k l hk => ?_
  rw [hwritten.extends_.inodes]
  exact h.grown_apart hw.inode.2 hr hwritten.toGrown hj hjr hji k l hk

end

/-! ## Steps -/

inductive Op where
  | createFile (name : List UInt8)
  | createDir (name : List UInt8)
  | write (inode off : ℕ) (data : List UInt8)
  | read (inode off len : ℕ)
  | delete (name : List UInt8)

/-- The state after an operation, whatever its answer. -/
def exec (s : State) : Op → State
  | .createFile name => after (createFile name) s
  | .createDir name => after (createDir name) s
  | .write inode off data => after (writeFileData inode off data) s
  | .read inode off len => after (readFileData inode off len) s
  | .delete name => after (deleteFile name) s

/-- Whether an operation returns Ok. -/
def succeeds (s : State) : Op → Bool
  | .createFile name => (answer (createFile name) s).isOk
  | .createDir name => (answer (createDir name) s).isOk
  | .write inode off data => (answer (writeFileData inode off data) s).isOk
  | .read inode off len => (answer (readFileData inode off len) s).isOk
  | .delete name => (answer (deleteFile name) s).isOk

/-- Name, mode and type of a creation. -/
def Op.makes : Op → Option (List UInt8 × ℕ × Bool)
  | .createFile name => some (name,fileMode,false)
  | .createDir name => some (name,dirMode,true)
  | _ => none

/-- All that an operation can do to an intact volume; the flag says whether it returned. -/
inductive Effect (v : Volume) (s s' : State) : Op → Bool → Prop
  | read {i off len : ℕ} {ok : Bool} {c : Cache} (same : s' = s.withCache c)
      (ready : Ready v.disk c) (bytes : c.bytes v.disk = s.bytes v) : Effect v s s' (.read i off len) ok
  | created {op : Op} {name : List UInt8} {mode : ℕ} {isDir : Bool} {i : ℕ}
      (makes : op.makes = some (name,mode,isDir)) (created : Created v s s' i mode isDir name) :
      Effect v s s' op true
  | notCreated {op : Op} {name : List UInt8} {mode : ℕ} {isDir : Bool}
      (makes : op.makes = some (name,mode,isDir)) (notCreated : NotCreated s s' mode name) :
      Effect v s s' op false
  | deleted {name : List UInt8} {idx : ℕ} (deleted : Deleted v s s' idx name) :
      Effect v s s' (.delete name) true
  | notDeleted {name : List UInt8} (same : s' = s) (absent : findInRoot s name = none) :
      Effect v s s' (.delete name) false
  | wrote {i off n : ℕ} {data : List UInt8} (wrote : Wrote v i off data n s s') :
      Effect v s s' (.write i off data) true
  | notWritten {i off : ℕ} {data : List UInt8} (notWritten : NotWritten v i off data s s') :
      Effect v s s' (.write i off data) false

section
variable {v : Volume} {s s' : State} {op : Op} {ok : Bool}

theorem create_effect (h : Intact v s) {mode : ℕ}
    (hmakes : op.makes = some (name,mode,isDir)) :
    Effect v s (after (createNode message mode isDir name) s) op
      (answer (createNode message mode isDir name) s).isOk := by
  have hends := createNode_ends h message mode isDir name
  cases hx : createNode message mode isDir name s with
  | ok i s' =>
    rw [after_ok hx, answer_ok hx]
    exact .created hmakes (hends.ok hx)
  | error e s' =>
    rw [after_error hx, answer_error hx]
    exact .notCreated hmakes (hends.error hx)

theorem exec_effect (h : Intact v s) (op : Op) : Effect v s (exec s op) op (succeeds s op) := by
  cases op with
  | createFile name | createDir name => exact create_effect h rfl
  | write i off data =>
    have hends := writeFileData_ends (i := i) h off data
    change Effect v s (after (writeFileData i off data) s) _ (answer (writeFileData i off data) s).isOk
    cases hx : writeFileData i off data s with
    | ok n s' =>
      rw [after_ok hx, answer_ok hx]
      exact .wrote (hends.ok hx)
    | error e s' =>
      rw [after_error hx, answer_error hx]
      exact .notWritten (hends.error hx)
  | read i off len =>
    have hends := readFileData_ends (i := i) h.toMounted h.filesInside off len
    change Effect v s (after (readFileData i off len) s) _ _
    cases hx : readFileData i off len s with
    | ok bs s' =>
      obtain ⟨-,c,hs,hr,hb⟩ := hends.ok hx
      rw [after_ok hx]
      exact .read hs hr hb
    | error e s' =>
      rw [after_error hx, (hends.error hx).2]
      exact .read (c := s.cache) rfl h.ready rfl
  | delete name =>
    have hends := deleteFile_ends h name
    change Effect v s (after (deleteFile name) s) _ (answer (deleteFile name) s).isOk
    cases hx : deleteFile name s with
    | ok u s' =>
      obtain ⟨idx,hidx⟩ := hends.ok hx
      rw [after_ok hx, answer_ok hx]
      exact .deleted hidx
    | error e s' =>
      obtain ⟨hs,habsent⟩ := hends.error hx
      rw [after_error hx, answer_error hx]
      exact .notDeleted hs habsent

theorem Effect.intact (he : Effect v s s' op ok) (h : Intact v s) : Intact v s' := by
  cases he with
  | read same ready bytes =>
    rw [same]
    exact h.withCache ready
  | @created op name mode isDir i makes created =>
    obtain ⟨c,rfl,hc⟩ := created.flushed
    exact (h.created created.inode.2.1 created.inode.2.2 mode isDir name).withCache hc.ready
  | notCreated makes notCreated =>
    rcases notCreated with ⟨rfl,-⟩ | ⟨-,i,hlt,hi,rfl⟩
    · exact h
    · exact h.setFields hlt hi rfl
  | deleted deleted =>
    obtain ⟨bitmap,free,c,hfreed,rfl,hc⟩ := deleted.flushed
    exact (h.removed (findInRoot_spec deleted.found).1 hfreed).withCache hc.ready
  | notDeleted same absent =>
    rw [same]
    exact h
  | wrote wrote => exact wrote.intact h
  | notWritten notWritten => exact h.extends_ (notWritten.extends_ h.toMounted)

end

end Zohara.Zohfs
