import Zohara.ZohfsRemount

/-!
# Blocks of deleted ZohFS files

A deletion frees the direct blocks of its inode below `block_count`, and `block_count` is one
more than the index filled last. A file whose blocks were filled in another order keeps blocks
marked for ever; so does a file whose entry is hidden by the deletion of another one. Without
these two, the marked blocks are the reserved ones and those of the visible files.
-/
namespace Zohara.Zohfs
open FallibleState IdeDisk BufferCache WordBitmap Runs

/-- A direct block of an inode that a visible entry names. -/
def Reached (s : State) (b : ℕ) : Prop := b ≠ 0 ∧ ∃ k < s.rootDirCount, (s.rootDir k).inode ≠ 0 ∧
  ∃ j < directBlockCount, (s.inodes (s.rootDir k).inode).directBlocks j = b

/-- A block of some inode other than the root. -/
def Owned (s : State) (b : ℕ) : Prop :=
  b ≠ 0 ∧ ∃ i < maxInodes, i ≠ rootInode ∧ ∃ j, (s.inodes i).directBlocks j = b

/-- The visible entries name the inodes in use, each of them once. -/
structure Rooted (s : State) : Prop where
  used : ∀ k < s.rootDirCount, (s.rootDir k).inode ≠ 0 ∧ (s.inodes (s.rootDir k).inode).mode ≠ 0
  distinct : ∀ k < s.rootDirCount, ∀ l < s.rootDirCount,
    (s.rootDir k).inode = (s.rootDir l).inode → k = l
  listed : ∀ i < maxInodes, i ≠ rootInode → (s.inodes i).mode ≠ 0 →
    ∃ k < s.rootDirCount, (s.rootDir k).inode = i

/-- The marked blocks are the reserved ones and those of inodes in use. -/
structure Exact (v : Volume) (s : State) : Prop extends Intact v s, Rooted s where
  unused : ∀ i < maxInodes, (s.inodes i).mode = 0 → ∀ j, (s.inodes i).directBlocks j = 0
  bits : ∀ b < 4096, member s.bitmap b = true ↔ b < 10 ∨ Owned s b

section
variable {v : Volume} {s s' : State} {name : List UInt8}

theorem Fresh.exact (h : Fresh v s) : Exact v s := by
  have hempty : ∀ i < maxInodes, i ≠ rootInode → s.inodes i = .empty := by
    intro i hi hne
    rw [h.inodes i hi]
    exact Function.update_of_ne hne _ _
  have hnone : ∀ k, ¬k < s.rootDirCount := by
    rw [h.rootDirCount]
    exact Nat.not_lt_zero
  refine ⟨h.intact,⟨fun k hk => (hnone k hk).elim,fun k hk => (hnone k hk).elim,?_⟩,?_,?_⟩
  · intro i hi hr hmode
    rw [hempty i hi hr] at hmode
    exact (hmode rfl).elim
  · intro i hi hmode j
    by_cases hr : i = rootInode
    · rw [hr, h.intact.rootMode] at hmode
      cases hmode
    · rw [hempty i hi hr]
      rfl
  · intro b hb
    rw [h.member hb, decide_eq_true_eq]
    refine ⟨.inl,fun hor => hor.resolve_right fun how => ?_⟩
    obtain ⟨h0,i,hi,hr,j,hj⟩ := how
    rw [hempty i hi hr] at hj
    exact h0 hj.symm

theorem Exact.withCache (h : Exact v s) {c : Cache} (hc : Ready v.disk c) : Exact v (s.withCache c) :=
  ⟨h.toIntact.withCache hc,⟨h.used,h.distinct,h.listed⟩,h.unused,h.bits⟩

variable {isDir : Bool}

theorem Created.ne_entry {i mode k : ℕ} (hc : Created v s s' i mode isDir name)
    (h : Rooted s) (hk : k < s.rootDirCount) : (s.rootDir k).inode ≠ i := by
  intro he
  exact (h.used k hk).2 (he ▸ hc.free)

theorem Created.inodes_ne {i mode j : ℕ} (hc : Created v s s' i mode isDir name)
    (hji : j ≠ i) (hjr : j ≠ rootInode) : s'.inodes j = s.inodes j := by
  obtain ⟨c,rfl,-⟩ := hc.flushed
  change (s.created i mode isDir name).inodes j = _
  rw [s.created_inodes hc.inode.2.2, if_neg hji, if_neg hjr]

theorem Created.inode_self {i mode : ℕ} (hc : Created v s s' i mode isDir name) :
    s'.inodes i = {s.inodes i with mode := mode, size := 0} := by
  obtain ⟨c,rfl,-⟩ := hc.flushed
  change (s.created i mode isDir name).inodes i = _
  rw [s.created_inodes hc.inode.2.2, if_pos rfl]

theorem Exact.created {i mode : ℕ} (h : Exact v s) (hi' : Intact v s')
    (hc : Created v s s' i mode isDir name) (hmode : mode ≠ 0) : Exact v s' := by
  obtain ⟨happ,hentry⟩ := hc.appends
  have hself := hc.inode_self
  have hlast : (s'.rootDir s.rootDirCount).inode = i := by rw [hentry]
  have hblocks : ∀ j < maxInodes, j ≠ rootInode →
      (s'.inodes j).directBlocks = (s.inodes j).directBlocks := by
    intro j hj hjr
    by_cases hji : j = i
    · rw [hji, hself]
    · rw [hc.inodes_ne hji hjr]
  have howned : ∀ b, Owned s' b ↔ Owned s b := by
    intro b
    refine and_congr_right fun _ => exists_congr fun j => and_congr_right fun hj =>
      and_congr_right fun hjr => ?_
    rw [hblocks j hj hjr]
  refine ⟨hi',⟨fun k hk => ?_,fun k hk l hl he => ?_,fun j hj hjr hjm => ?_⟩,fun j hj hjm => ?_,
    fun b hb => ?_⟩
  · rw [happ.count] at hk
    by_cases hkl : k = s.rootDirCount
    · rw [hkl, hlast, hself]
      exact ⟨Nat.ne_of_gt hc.inode.1,hmode⟩
    · have hk' : k < s.rootDirCount := by omega
      rw [happ.same k hk', hc.inodes_ne (hc.ne_entry h.toRooted hk') (h.entries k hk').1]
      exact h.used k hk'
  · rw [happ.count] at hk hl
    by_cases hkl : k = s.rootDirCount
    · by_cases hll : l = s.rootDirCount
      · rw [hkl, hll]
      · have hl' : l < s.rootDirCount := by omega
        rw [hkl, hlast, happ.same l hl'] at he
        exact (hc.ne_entry h.toRooted hl' he.symm).elim
    · have hk' : k < s.rootDirCount := by omega
      rw [happ.same k hk'] at he
      by_cases hll : l = s.rootDirCount
      · rw [hll, hlast] at he
        exact (hc.ne_entry h.toRooted hk' he).elim
      · have hl' : l < s.rootDirCount := by omega
        rw [happ.same l hl'] at he
        exact h.distinct k hk' l hl' he
  · by_cases hji : j = i
    · exact ⟨s.rootDirCount,by rw [happ.count]; omega,hlast.trans hji.symm⟩
    · rw [hc.inodes_ne hji hjr] at hjm
      obtain ⟨k,hk,hkj⟩ := h.listed j hj hjr hjm
      exact ⟨k,by rw [happ.count]; omega,by rw [happ.same k hk]; exact hkj⟩
  · by_cases hji : j = i
    · rw [hji, hself] at hjm
      exact (hmode hjm).elim
    · by_cases hjr : j = rootInode
      · rw [hjr, hi'.rootMode] at hjm
        cases hjm
      · rw [hc.inodes_ne hji hjr] at hjm ⊢
        exact h.unused j hj hjm
  · rw [howned]
    obtain ⟨c,rfl,-⟩ := hc.flushed
    exact h.bits b hb

theorem Deleted.inodes_ne {idx j : ℕ} (hd : Deleted v s s' idx name) (h : Intact v s)
    (hji : j ≠ (s.rootDir idx).inode) (hjr : j ≠ rootInode) : s'.inodes j = s.inodes j := by
  have hroot := (h.entries idx (findInRoot_spec hd.found).1).1
  obtain ⟨bitmap,free,c,-,rfl,-⟩ := hd.flushed
  change (s.removed idx bitmap free).inodes j = _
  rw [s.removed_inodes hroot, if_neg hji, if_neg hjr]

theorem Deleted.inode_self {idx : ℕ} (hd : Deleted v s s' idx name) (h : Intact v s) :
    s'.inodes (s.rootDir idx).inode = .empty := by
  have hroot := (h.entries idx (findInRoot_spec hd.found).1).1
  obtain ⟨bitmap,free,c,-,rfl,-⟩ := hd.flushed
  change (s.removed idx bitmap free).inodes _ = _
  rw [s.removed_inodes hroot, if_pos rfl]

theorem Deleted.bits {idx b : ℕ} (hd : Deleted v s s' idx name) (h : Intact v s)
    (hbelow : ∀ k, (s.inodes (s.rootDir idx).inode).directBlocks k ≠ 0 →
      k < (s.inodes (s.rootDir idx).inode).blockCount) :
    member s'.bitmap b = true ↔ member s.bitmap b = true ∧
      ∀ j, (s.inodes (s.rootDir idx).inode).directBlocks j = b → b = 0 := by
  obtain ⟨hr,hlt⟩ := h.entries idx (findInRoot_spec hd.found).1
  obtain ⟨bitmap,free,c,hfreed,rfl,-⟩ := hd.flushed
  refine (hfreed.bits b).trans (and_congr_right fun _ => ⟨fun hb j hj => ?_,fun hb j _ => hb j⟩)
  by_contra h0
  rw [← hj] at h0
  have hdirect : j < directBlockCount := by
    by_contra hge
    exact h0 ((h.held _ hlt hr).direct j (by omega))
  exact h0 (hj.trans (hb j (lt_min (hbelow j h0) hdirect) hj))

theorem Exact.deleted {idx : ℕ} (h : Exact v s) (hi' : Intact v s') (hd : Deleted v s s' idx name)
    (hlast : idx+1 = s.rootDirCount)
    (hbelow : ∀ k, (s.inodes (s.rootDir idx).inode).directBlocks k ≠ 0 →
      k < (s.inodes (s.rootDir idx).inode).blockCount) : Exact v s' := by
  have happ := hd.appends hlast
  have hcount := happ.count
  have hidx : idx < s.rootDirCount := by omega
  obtain ⟨hroot,hlt⟩ := h.entries idx hidx
  have hself := hd.inode_self h.toIntact
  have hne : ∀ k < s'.rootDirCount, (s.rootDir k).inode ≠ (s.rootDir idx).inode := by
    intro k hk he
    have := h.distinct k (by omega) idx hidx he
    omega
  refine ⟨hi',⟨fun k hk => ?_,fun k hk l hl he => ?_,fun j hj hjr hjm => ?_⟩,fun j hj hjm => ?_,
    fun b hb => ?_⟩
  · rw [← happ.same k hk, hd.inodes_ne h.toIntact (hne k hk) (h.entries k (by omega)).1]
    exact h.used k (by omega)
  · rw [← happ.same k hk, ← happ.same l hl] at he
    exact h.distinct k (by omega) l (by omega) he
  · by_cases hji : j = (s.rootDir idx).inode
    · rw [hji, hself] at hjm
      exact (hjm rfl).elim
    · rw [hd.inodes_ne h.toIntact hji hjr] at hjm
      obtain ⟨k,hk,hkj⟩ := h.listed j hj hjr hjm
      have hk' : k < s'.rootDirCount := by
        by_contra hge
        obtain rfl : k = idx := by omega
        exact hji hkj.symm
      exact ⟨k,hk',by rw [← happ.same k hk']; exact hkj⟩
  · by_cases hji : j = (s.rootDir idx).inode
    · rw [hji, hself]
      exact fun _ => rfl
    · by_cases hjr : j = rootInode
      · rw [hjr, hi'.rootMode] at hjm
        cases hjm
      · rw [hd.inodes_ne h.toIntact hji hjr] at hjm ⊢
        exact h.unused j hj hjm
  · rw [hd.bits h.toIntact hbelow, h.bits b hb]
    constructor
    · rintro ⟨hb10 | ⟨h0,i,hi,hr,j,hj⟩,hnot⟩
      · exact .inl hb10
      · have hii : i ≠ (s.rootDir idx).inode := fun he => h0 (hnot j (he ▸ hj))
        exact .inr ⟨h0,i,hi,hr,j,by rw [hd.inodes_ne h.toIntact hii hr]; exact hj⟩
    · rintro (hb10 | ⟨h0,i,hi,hr,j,hj⟩)
      · refine ⟨.inl hb10,fun j hj => ?_⟩
        by_contra h0
        have := ((h.held _ hlt hroot).inside j (hj ▸ h0)).1
        omega
      · by_cases hii : i = (s.rootDir idx).inode
        · rw [hii, hself] at hj
          exact (h0 hj.symm).elim
        · rw [hd.inodes_ne h.toIntact hii hr] at hj
          refine ⟨.inr ⟨h0,i,hi,hr,j,hj⟩,fun l hl => ?_⟩
          exact (h.apart i hi _ hlt hr hroot hii j l (hj ▸ h0) (hj.trans hl.symm)).elim

theorem isFile_mode {n : Inode} (h : n.isFile ≠ false) : n.mode ≠ 0 := by
  intro h0
  unfold Inode.isFile at h
  rw [h0] at h
  exact h rfl

/-- What a write does to the table: one inode keeps its mode and its blocks and may get more. -/
theorem Exact.wrote {i off n : ℕ} {data : List UInt8} (h : Exact v s) (hi' : Intact v s')
    (hw : Wrote v i off data n s s') : Exact v s' := by
  have hr := h.isFile_ne_root hw.file
  have hlt := hw.inode.2
  obtain ⟨s₁,m,hwritten,-,rfl⟩ := hw.written
  have hext := hwritten.extends_
  generalize hsize : (if (s.inodes i).size < off+n then (off+n)%2^32 else (s.inodes i).size) = size at *
  have hself : (s₁.setInode i {m with size := size}).inodes i = {m with size := size} :=
    s₁.setInode_self i _
  have hother : ∀ j, j ≠ i → (s₁.setInode i {m with size := size}).inodes j = s.inodes j := by
    intro j hji
    rw [s₁.setInode_of_ne hji, hext.inodes]
  have hmode : ∀ j, ((s₁.setInode i {m with size := size}).inodes j).mode = (s.inodes j).mode := by
    intro j
    by_cases hji : j = i
    · rw [hji, hself]
      exact hwritten.mode
    · rw [hother j hji]
  have hdir : (s₁.setInode i {m with size := size}).rootDir = s.rootDir := hext.rootDir
  have hcount : (s₁.setInode i {m with size := size}).rootDirCount = s.rootDirCount :=
    hext.rootDirCount
  generalize ht : s₁.setInode i {m with size := size} = t at *
  have hbitmap : t.bitmap = s₁.bitmap := by rw [← ht]; rfl
  refine ⟨hi',⟨?_,?_,?_⟩,fun j hj hjm => ?_,fun b hb => ?_⟩
  · simp only [hdir, hcount, hmode]
    exact h.used
  · rw [hdir, hcount]
    exact h.distinct
  · simp only [hdir, hcount, hmode]
    exact h.listed
  · rw [hmode] at hjm
    by_cases hji : j = i
    · exact (isFile_mode hw.file (hji ▸ hjm)).elim
    · rw [hother j hji]
      exact h.unused j hj hjm
  · rw [hbitmap]
    constructor
    · intro hm
      rcases hwritten.taken b hm with hm | ⟨h0,k,hk⟩
      · rcases (h.bits b hb).mp hm with hb10 | ⟨h0,j,hj,hjr,k,hk⟩
        · exact .inl hb10
        · refine .inr ⟨h0,j,hj,hjr,k,?_⟩
          by_cases hji : j = i
          · rw [hji, hself]
            rw [hji] at hk
            exact (hwritten.old k (hk ▸ h0)).trans hk
          · rw [hother j hji]
            exact hk
      · exact .inr ⟨h0,i,hlt,hr,k,by rw [hself]; exact hk⟩
    · rintro (hb10 | ⟨h0,j,hj,hjr,k,hk⟩)
      · exact hext.grows b (h.reserved b hb10)
      · by_cases hji : j = i
        · rw [hji, hself] at hk
          rw [← hk]
          exact hwritten.held.marked k (hk ▸ h0)
        · rw [hother j hji] at hk
          exact hext.grows b ((h.bits b hb).mpr (.inr ⟨h0,j,hj,hjr,k,hk⟩))

end

end Zohara.Zohfs
