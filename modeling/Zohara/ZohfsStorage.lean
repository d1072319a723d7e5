import Zohara.ZohfsMount
import Zohara.Runs

/-!
# Blocks and contents of ZohFS files

Every block that an inode refers to has its bit in the bitmap and belongs to that inode
alone, over every run of the operations. A write that returns has stored its bytes in the
blocks of its file and nowhere else; a write that fails has at most taken blocks that no
inode refers to. Reading is described byte by byte: `readSpan` is what a file holds from a
position on, up to the first missing block.
-/
namespace Zohara.Zohfs
open ByteMemory FallibleState IdeDisk BufferCache WordBitmap

/-! ## Blocks on the disk -/

def blockAddr (b : ℕ) : ℕ := 32768+4096*b

/-- Where byte `p` of a file is stored. -/
def Inode.addr (n : Inode) (p : ℕ) : ℕ := blockAddr (n.directBlocks (p/4096))+p%4096

theorem readBlockFrom_eq (disk : IdeDisk) (sector : ℕ) {len i n : ℕ} (h : (i+n)*512 ≤ len) :
    readSectorsFrom disk sector len i n = readBlockFrom disk sector i n := by
  induction n generalizing i with
  | zero => rfl
  | succ n ih =>
    have hnext : (i+1+n)*512 ≤ len := by
      rw [Nat.add_right_comm]
      exact h
    rw [readSectorsFrom, readBlockFrom, if_neg (by unfold sectorSize; omega), ih hnext]

theorem writeBlockFrom_eq (disk : IdeDisk) (sector : ℕ) {buf : List UInt8} {i n : ℕ}
    (h : (i+n)*512 ≤ buf.length) :
    writeSectorsFrom disk sector (fun x => buf.getD x 0) buf.length i n =
      writeBlockFrom disk sector buf i n := by
  induction n generalizing i with
  | zero => rfl
  | succ n ih =>
    have hnext : (i+1+n)*512 ≤ buf.length := by
      rw [Nat.add_right_comm]
      exact h
    have hfit : i*sectorSize+sectorSize ≤ buf.length := by
      rw [← Nat.succ_mul]
      exact (Nat.mul_le_mul_right 512 (by omega)).trans h
    rw [writeSectorsFrom, writeBlockFrom, if_neg (by omega), ih hnext, read_getD buf hfit]

variable {b : ℕ}

theorem blockSector_eq (hb : 1 ≤ b) (hle : b ≤ 4096) : blockSector 72 b = 64+8*b := by
  unfold blockSector sectorsPerBlock
  omega

section
variable {v : Volume} {s : State}

theorem readBlock_mounted (h : Mounted v s) (hb : 1 ≤ b) (hlt : b < v.blocks) :
    Returns (onCache (readBlockFrom s.fsDisk (blockSector s.fsSuper.dataStartSector b) 0
      sectorsPerBlock)) s fun bs s' => ∃ c, s' = s.withCache c ∧
        bs = read (s.bytes v) (blockAddr b) 4096 ∧ Ready v.disk c ∧
        c.bytes v.disk = s.bytes v := by
  have hroom := v.blocks_room
  have hall := @readSectorsFrom_ready v.disk s.cache (64+8*b) 4096 0 8 h.ready (by omega)
    (by have := v.blocks_le; omega)
    (by decide)
  rw [h.disk, h.dataStart, blockSector_eq hb (by have := v.blocks_le; omega)]
  rw [readBlockFrom_eq _ _ (by decide), show (64+8*b+0)*512 = blockAddr b by unfold blockAddr; omega]
    at hall
  exact returns_onCache hall

theorem writeBlock_mounted (h : Mounted v s) {buf : List UInt8} (hb : 1 ≤ b)
    (hlt : b < v.blocks) (hbuf : buf.length = 4096) :
    Returns (onCache (writeBlockFrom s.fsDisk (blockSector s.fsSuper.dataStartSector b) buf 0
      sectorsPerBlock)) s fun _ s' => ∃ c, s' = s.withCache c ∧ Ready v.disk c ∧
        c.bytes v.disk = write (s.bytes v) (blockAddr b) buf := by
  have hroom := v.blocks_room
  have hall := @writeSectorsFrom_sound v.disk s.cache (64+8*b) (fun x => buf.getD x 0) buf.length 0 8
    h.ready.sound (by omega) (by have := v.blocks_le; omega) (by omega)
  have hread : read (fun x => buf.getD x 0) (0*512) (8*512) = buf := by
    rw [read_getD buf (by omega), Nat.zero_mul, List.drop_zero, List.take_of_length_le (by omega)]
  rw [h.disk, h.dataStart, blockSector_eq hb (by have := v.blocks_le; omega)]
  rw [writeBlockFrom_eq _ _ (by omega), hread,
    show (64+8*b+0)*512 = blockAddr b by unfold blockAddr; omega] at hall
  refine Ends.imp (returns_onCache hall) (fun _ s' hs => ?_)
  obtain ⟨c,hc,hst,hb⟩ := hs
  exact ⟨c,hc,h.ready.stored hst,hb⟩

theorem Mounted.withCache (h : Mounted v s) {c : Cache} (hc : Ready v.disk c) :
    Mounted v (s.withCache c) := ⟨h.mounted,h.disk,h.totalBlocks,h.dataStart,hc⟩

end

/-! ## Taking blocks -/

/-- Blocks may have been taken and blocks may have been written. -/
structure Extends (v : Volume) (s s' : State) : Prop where
  mounted : Mounted v s'
  inodes : s'.inodes = s.inodes
  rootDir : s'.rootDir = s.rootDir
  rootDirCount : s'.rootDirCount = s.rootDirCount
  grows : ∀ b, member s.bitmap b = true → member s'.bitmap b = true
  superblock : ∃ free, s'.fsSuper = {s.fsSuper with freeBlocks := free} ∧
    (s.fsSuper.freeBlocks < 2^32 → free < 2^32)
  tables : ∀ x < 73728, s'.bytes v x = s.bytes v x

/-- The blocks of an inode are marked, in the data area and different. -/
structure Held (v : Volume) (bitmap : Bitmap) (n : Inode) : Prop where
  direct : ∀ k, directBlockCount ≤ k → n.directBlocks k = 0
  marked : ∀ k, n.directBlocks k ≠ 0 → member bitmap (n.directBlocks k) = true
  inside : ∀ k, n.directBlocks k ≠ 0 → 10 ≤ n.directBlocks k ∧ n.directBlocks k < v.blocks
  apart : ∀ k l, n.directBlocks k ≠ 0 → n.directBlocks k = n.directBlocks l → k = l

/-- An inode keeps its blocks and may have got some that were free. -/
structure Grown (v : Volume) (s : State) (n : Inode) (s' : State) (n' : Inode) : Prop where
  extends_ : Extends v s s'
  held : Held v s'.bitmap n'
  mode : n'.mode = n.mode
  size : n'.size = n.size
  old : ∀ k, n.directBlocks k ≠ 0 → n'.directBlocks k = n.directBlocks k
  new : ∀ k, n.directBlocks k = 0 → n'.directBlocks k ≠ 0 →
    member s.bitmap (n'.directBlocks k) = false
  taken : ∀ b, member s'.bitmap b = true →
    member s.bitmap b = true ∨ b ≠ 0 ∧ ∃ k, n'.directBlocks k = b
  counted : n' = n ∨ ∃ k, n.directBlocks k = 0 ∧ n'.directBlocks k ≠ 0 ∧ n'.blockCount = k+1

section
variable {v : Volume} {s s' s'' : State} {n n' n'' : Inode}

theorem Extends.refl (h : Mounted v s) : Extends v s s :=
  ⟨h,rfl,rfl,rfl,fun _ h => h,⟨_,rfl,fun h => h⟩,fun _ _ => rfl⟩

theorem Extends.trans (h : Extends v s s') (h' : Extends v s' s'') : Extends v s s'' := by
  obtain ⟨free,hsuper,hfree⟩ := h.superblock
  obtain ⟨free',hsuper',hfree'⟩ := h'.superblock
  rw [hsuper] at hsuper' hfree'
  exact ⟨h'.mounted,h'.inodes.trans h.inodes,h'.rootDir.trans h.rootDir,
    h'.rootDirCount.trans h.rootDirCount,fun b hb => h'.grows b (h.grows b hb),
    ⟨free',hsuper',fun hlt => hfree' (hfree hlt)⟩,
    fun x hx => (h'.tables x hx).trans (h.tables x hx)⟩

theorem Extends.withCache (h : Extends v s s') {c : Cache} (hc : Ready v.disk c)
    (htables : ∀ x < 73728, c.bytes v.disk x = s'.bytes v x) : Extends v s (s'.withCache c) :=
  ⟨h.mounted.withCache hc,h.inodes,h.rootDir,h.rootDirCount,h.grows,h.superblock,
    fun x hx => (htables x hx).trans (h.tables x hx)⟩

theorem Extends.unmarked (h : Extends v s s') (hb : member s'.bitmap b = false) :
    member s.bitmap b = false := by
  cases hm : member s.bitmap b with
  | false => rfl
  | true => rw [h.grows b hm] at hb; cases hb

theorem Held.mono (h : Held v s.bitmap n) (he : Extends v s s') : Held v s'.bitmap n :=
  ⟨h.direct,fun k hk => he.grows _ (h.marked k hk),h.inside,h.apart⟩

theorem Grown.refl (h : Mounted v s) (hn : Held v s.bitmap n) : Grown v s n s n :=
  ⟨.refl h,hn,rfl,rfl,fun _ _ => rfl,fun _ h0 hne => (hne h0).elim,fun _ hb => .inl hb,.inl rfl⟩

theorem Grown.trans (h : Grown v s n s' n') (h' : Grown v s' n' s'' n'') : Grown v s n s'' n'' := by
  refine ⟨h.extends_.trans h'.extends_,h'.held,h'.mode.trans h.mode,h'.size.trans h.size,?_,?_,?_,?_⟩
  · intro k hk
    have hk' := h.old k hk
    rw [h'.old k (hk' ▸ hk), hk']
  · intro k hk hne
    by_cases hk' : n'.directBlocks k = 0
    · exact h.extends_.unmarked (h'.new k hk' hne)
    · rw [h'.old k hk']
      exact h.new k hk hk'
  · intro b hb
    rcases h'.taken b hb with hb | hb
    · rcases h.taken b hb with hb | ⟨h0,k,hk⟩
      · exact .inl hb
      · exact .inr ⟨h0,k,(h'.old k (hk ▸ h0)).trans hk⟩
    · exact .inr hb
  · rcases h'.counted with rfl | ⟨k,h0,hne,hcount⟩
    · exact h.counted
    · refine .inr ⟨k,?_,hne,hcount⟩
      by_contra hk
      exact hk ((h.old k hk).symm.trans h0)

theorem Grown.withCache (h : Grown v s n s' n') {c : Cache} (hc : Ready v.disk c)
    (htables : ∀ x < 73728, c.bytes v.disk x = s'.bytes v x) : Grown v s n (s'.withCache c) n' :=
  ⟨h.extends_.withCache hc htables,h.held,h.mode,h.size,h.old,h.new,h.taken,h.counted⟩

theorem allocBlockFrom_ends (i k : ℕ) : Ends (allocBlockFrom i k) s (fun b s' => i ≤ b ∧ b < i+k ∧
    b < 4096 ∧ member s.bitmap b = false ∧ s' = {s with
      bitmap := insert s.bitmap b
      fsSuper := {s.fsSuper with freeBlocks := s.fsSuper.freeBlocks-1}})
    fun _ s' => s' = s ∧ ∀ b, i ≤ b → b < min 4096 (i+k) → member s.bitmap b = true := by
  induction k generalizing i with
  | zero => exact ends_throw ⟨rfl,fun b hle hlt => by omega⟩
  | succ k ih =>
    unfold allocBlockFrom
    refine ends_get ?_
    split_ifs with hword hbit
    · refine ends_throw ⟨rfl,fun b hle hlt => ?_⟩
      unfold bitmapWords at hword
      omega
    · refine (ih (i+1)).mono (fun b s' hb => ?_) fun _ s' he => ⟨he.1,fun b hle hlt => ?_⟩
      · obtain ⟨hle,hlt,hsmall,hfree,hs⟩ := hb
        exact ⟨by omega,by omega,hsmall,hfree,hs⟩
      · by_cases hbi : b = i
        · rw [hbi]
          exact hbit
        · exact he.2 b (by omega) (by omega)
    · unfold bitmapWords at hword
      exact ends_set_bind (ends_pure
        ⟨le_rfl,by omega,by omega,Bool.eq_false_iff.mpr hbit,rfl⟩)

variable {bitmap : Bitmap}

theorem member_insert_of_member {b c : ℕ} (h : member bitmap c = true) :
    member (insert bitmap b) c = true := by
  rw [member_insert, h, Bool.or_true]

theorem Held.take {b k : ℕ} (h : Held v bitmap n)
    (hk : k < directBlockCount) (hfree : member bitmap b = false) (hb : 10 ≤ b) (hlt : b < v.blocks)
    (hself : n'.directBlocks k = b) (hother : ∀ l, l ≠ k → n'.directBlocks l = n.directBlocks l) :
    Held v (insert bitmap b) n' := by
  have hfresh : ∀ l, n.directBlocks l ≠ b := by
    intro l hl
    have hm := h.marked l (by omega)
    rw [hl, hfree] at hm
    cases hm
  refine ⟨fun l hl => ?_,fun l hl => ?_,fun l hl => ?_,fun l m hl he => ?_⟩
  · rw [hother l (by omega)]
    exact h.direct l hl
  · by_cases hlk : l = k
    · rw [hlk, hself, member_insert, decide_eq_true rfl, Bool.true_or]
    · rw [hother l hlk] at hl ⊢
      exact member_insert_of_member (h.marked l hl)
  · by_cases hlk : l = k
    · rw [hlk, hself]
      exact ⟨hb,hlt⟩
    · rw [hother l hlk] at hl ⊢
      exact h.inside l hl
  · by_cases hlk : l = k
    · by_cases hmk : m = k
      · rw [hlk, hmk]
      · rw [hlk, hself, hother m hmk] at he
        exact (hfresh m he.symm).elim
    · rw [hother l hlk] at hl he
      by_cases hmk : m = k
      · rw [hmk, hself] at he
        exact (hfresh l he).elim
      · rw [hother m hmk] at he
        exact h.apart l m hl he

theorem ensureBlock_ends (h : Mounted v s) (hres : ∀ b < 10, member s.bitmap b = true)
    (hn : Held v s.bitmap n) {k : ℕ} (hk : k < directBlockCount) :
    Ends (ensureBlock n k) s (fun n' s' => Grown v s n s' n' ∧ n'.directBlocks k ≠ 0 ∧
      (∀ l, l ≠ k → n'.directBlocks l = n.directBlocks l) ∧ s'.bytes v = s.bytes v)
      fun _ s' => s' = s ∧ n.directBlocks k = 0 ∧ ∀ b < v.blocks, member s.bitmap b = true := by
  unfold ensureBlock
  split_ifs with h0
  · unfold allocBlock
    refine Ends.bind (ends_get (Ends.fails (allocBlockFrom_ends 0 _) fun _ s' he => ⟨he.1,h0,fun b hb => he.2 b (Nat.zero_le b) ?_⟩)) fun b s' hb => ends_pure ?_
    · rw [h.totalBlocks, Nat.zero_add]
      exact hb
    obtain ⟨-,hlt,hsmall,hfree,rfl⟩ := hb
    have hb10 : 10 ≤ b := by
      by_contra hlt10
      rw [hres b (by omega)] at hfree
      cases hfree
    rw [h.totalBlocks, Nat.zero_add] at hlt
    have hblocks : b < v.blocks := lt_min hsmall hlt
    generalize hn' : Inode.mk _ _ _ _ = n'
    have hself : n'.directBlocks k = b := by
      rw [← hn']
      exact Function.update_self _ _ _
    have hother : ∀ l, l ≠ k → n'.directBlocks l = n.directBlocks l := by
      intro l hl
      rw [← hn']
      exact Function.update_of_ne hl _ _
    have hne : n'.directBlocks k ≠ 0 := by omega
    have hext : Extends v s {s with
        bitmap := insert s.bitmap b
        fsSuper := {s.fsSuper with freeBlocks := s.fsSuper.freeBlocks-1}} :=
      ⟨⟨h.mounted,h.disk,h.totalBlocks,h.dataStart,h.ready⟩,rfl,rfl,rfl,
        fun _ => member_insert_of_member,⟨_,rfl,fun hlt => by omega⟩,fun _ _ => rfl⟩
    refine ⟨⟨hext,hn.take hk hfree hb10 hblocks hself hother,by rw [← hn'],
      by rw [← hn'],fun l hl => ?_,fun l hl hne => ?_,fun c hc => ?_,
      .inr ⟨k,h0,hne,by rw [← hn']⟩⟩,hne,hother,rfl⟩
    · exact hother l fun he => hl (he ▸ h0)
    · by_cases hlk : l = k
      · rw [hlk, hself]
        exact hfree
      · exact (hne ((hother l hlk).trans hl)).elim
    · rw [member_insert, Bool.or_eq_true, decide_eq_true_eq] at hc
      rcases hc with hc | hc
      · exact .inr ⟨by omega,k,hself.trans hc.symm⟩
      · exact .inl hc
  · exact ends_pure ⟨.refl h hn,h0,fun _ _ => rfl,rfl⟩

end

/-! ## Writing -/

/-- The positions `lo ≤ p < hi` of a file have been written with `src`. -/
structure Written (v : Volume) (s : State) (n : Inode) (s' : State) (n' : Inode) (lo hi : ℕ)
    (src : ℕ → UInt8) : Prop extends Grown v s n s' n' where
  present : ∀ p, lo ≤ p → p < hi → n'.directBlocks (p/4096) ≠ 0
  data : ∀ p, lo ≤ p → p < hi → s'.bytes v (n'.addr p) = src p
  frame : ∀ x, (∀ p, lo ≤ p → p < hi → x ≠ n'.addr p) → s'.bytes v x = s.bytes v x

/-- All blocks are marked, and a position `lo ≤ p < hi` of the file has none. -/
structure NoRoom (v : Volume) (s : State) (n : Inode) (s' : State) (n' : Inode) (lo hi : ℕ) :
    Prop extends Grown v s n s' n' where
  full : ∀ b < v.blocks, member s'.bitmap b = true
  missing : ∃ p, lo ≤ p ∧ p < hi ∧ n'.directBlocks (p/4096) = 0
  changed : ∀ k, n'.directBlocks k ≠ n.directBlocks k → ∃ p, lo ≤ p ∧ p < hi ∧ p/4096 = k

section
variable {v : Volume} {s s' s'' : State} {n n' n'' : Inode} {src : ℕ → UInt8}

theorem Held.addr_inj (h : Held v bitmap n) {p q : ℕ}
    (hp : n.directBlocks (p/4096) ≠ 0) (he : n.addr p = n.addr q) : p = q := by
  unfold Inode.addr blockAddr at he
  have hblock : n.directBlocks (p/4096) = n.directBlocks (q/4096) := by omega
  have hidx := h.apart _ _ hp hblock
  omega

theorem Grown.addr_old (h : Grown v s n s' n') {p : ℕ} (hp : n.directBlocks (p/4096) ≠ 0) :
    n'.addr p = n.addr p := by
  unfold Inode.addr
  rw [h.old _ hp]

theorem Written.none (h : Mounted v s) (hn : Held v s.bitmap n) {lo hi : ℕ} (hle : hi ≤ lo) :
    Written v s n s n lo hi src :=
  ⟨.refl h hn,fun _ _ _ => by omega,fun _ _ _ => by omega,fun _ _ => rfl⟩

theorem Written.trans {lo mid hi : ℕ} (h : Written v s n s' n' lo mid src)
    (h' : Written v s' n' s'' n'' mid hi src) (hle : lo ≤ mid) (hle' : mid ≤ hi) :
    Written v s n s'' n'' lo hi src := by
  have hpresent : ∀ p, lo ≤ p → p < mid → n''.directBlocks (p/4096) ≠ 0 := by
    intro p hlo hmid
    have hp := h.present p hlo hmid
    rw [h'.old _ hp]
    exact hp
  refine ⟨h.toGrown.trans h'.toGrown,fun p hlo hhi => ?_,fun p hlo hhi => ?_,fun x hx => ?_⟩
  · by_cases hmid : p < mid
    · exact hpresent p hlo hmid
    · exact h'.present p (by omega) hhi
  · by_cases hmid : p < mid
    · rw [h'.frame _ fun q hq _ he => ?_, h'.toGrown.addr_old (h.present p hlo hmid)]
      · exact h.data p hlo hmid
      · have := h'.held.addr_inj (hpresent p hlo hmid) he
        omega
    · exact h'.data p (by omega) hhi
  · rw [h'.frame x fun p hp hhi => hx p (by omega) hhi, h.frame x fun p hp hmid he => ?_]
    refine hx p hp (by omega) ?_
    rw [he, h'.toGrown.addr_old (h.present p hp hmid)]

theorem writeTurn_returns (src : ℕ → UInt8) (h : Mounted v s) (hn : Held v s.bitmap n) {pos : ℕ} {bs : List UInt8}
    (hblock : n.directBlocks (pos/4096) ≠ 0) (hfit : pos%4096+bs.length ≤ 4096)
    (hsrc : ∀ i < bs.length, bs.getD i 0 = src (pos+i)) {f : Unit → Action State (ℕ × Inode)}
    {Q : ℕ × Inode → State → Prop} {E : Fault → State → Prop}
    (hf : ∀ s', Written v s n s' n pos (pos+bs.length) src → Ends (f ()) s' Q E) :
    Ends (do
      let s ← get
      let sector := blockSector s.fsSuper.dataStartSector (n.directBlocks (pos/blockSize))
      let blockBuf ← onCache (readBlockFrom s.fsDisk sector 0 sectorsPerBlock)
      onCache (writeBlockFrom s.fsDisk sector (patch blockBuf (pos%blockSize) bs) 0 sectorsPerBlock)
      f ()) s Q E := by
  obtain ⟨hb10,hlt⟩ := hn.inside _ hblock
  have hb1 : 1 ≤ n.directBlocks (pos/4096) := by omega
  refine ends_get (Ends.bind (readBlock_mounted h hb1 hlt).ends fun buf s₁ h₁ => ?_)
  obtain ⟨c₁,rfl,hbuf,hr₁,hb₁⟩ := h₁
  have hlen : (patch buf (pos%4096) bs).length = 4096 := by
    have hbl : buf.length = 4096 := by rw [hbuf, length_read]
    rw [length_patch (by omega), hbl]
  have h₁ := h.withCache hr₁
  refine Ends.bind (writeBlock_mounted h₁ hb1 hlt hlen).ends fun _ s₂ h₂ => ?_
  obtain ⟨c₂,rfl,hr₂,hb₂⟩ := h₂
  have hbytes : c₂.bytes v.disk = write (s.bytes v) (n.addr pos) bs := by
    rw [hb₂, hbuf]
    change write (c₁.bytes v.disk) _ _ = _
    rw [hb₁, write_patch _ _ hfit]
    rfl
  have haddr : ∀ i < bs.length, n.addr (pos+i) = n.addr pos+i := by
    intro i hi
    unfold Inode.addr
    rw [show (pos+i)/4096 = pos/4096 by omega]
    omega
  have hfar : 73728 ≤ n.addr pos := by
    unfold Inode.addr blockAddr
    omega
  have htables : ∀ x < 73728, c₂.bytes v.disk x = s.bytes v x := by
    intro x hx
    rw [hbytes, write_outside]
    omega
  refine hf _ ⟨(Grown.refl h hn).withCache hr₂ htables,fun p hlo hhi => ?_,fun p hlo hhi => ?_,
    fun x hx => ?_⟩
  · rw [show p/4096 = pos/4096 by omega]
    exact hblock
  · obtain ⟨i,rfl⟩ := Nat.exists_eq_add_of_le hlo
    change c₂.bytes v.disk _ = _
    rw [hbytes, haddr i (by omega), write_inside _ _ (by omega), hsrc i (by omega)]
  · change c₂.bytes v.disk x = _
    rw [hbytes, write_outside]
    by_contra hin
    refine hx (pos+(x-n.addr pos)) (by omega) (by omega) ?_
    rw [haddr _ (by omega)]
    omega

theorem writeLoop_ends (data : List UInt8) (off : ℕ) {pos written : ℕ} (h : Mounted v s)
    (hres : ∀ b < 10, member s.bitmap b = true) (hn : Held v s.bitmap n)
    (hpos : pos = off+written) (hw : written ≤ data.length) :
    Ends (writeLoop data pos written n) s (fun r s' =>
      r.1 = min data.length (written+(40960-pos)) ∧
      (∀ k, r.2.directBlocks k ≠ n.directBlocks k → ∃ p, pos ≤ p ∧ p < off+r.1 ∧ p/4096 = k) ∧
      Written v s n s' r.2 pos (off+r.1) fun p => data.getD (p-off) 0)
      fun _ s' => ∃ n', NoRoom v s n s' n' pos (off+data.length) := by
  induction hk : data.length-written using Nat.strong_induction_on generalizing pos written n s with
  | _ k ih =>
    rw [writeLoop]
    split_ifs with hlt hidx
    · refine ends_pure ⟨?_,fun k hne => (hne rfl).elim,.none h hn (by omega)⟩
      unfold directBlockCount blockSize at hidx
      dsimp only
      omega
    · unfold directBlockCount blockSize at hidx
      refine Ends.bind (Ends.fails (ensureBlock_ends h hres hn (k := pos/4096) (by
        unfold directBlockCount; omega)) fun _ s' he => ?_) fun n₁ s₁ h₁ => ?_
      · rw [he.1]
        exact ⟨n,.refl h hn,he.2.2,⟨pos,le_rfl,by omega,he.2.1⟩,fun k hne => (hne rfl).elim⟩
      obtain ⟨hgrown,hblock,hother,hbytes⟩ := h₁
      have hfirst : Written v s n s₁ n₁ pos pos fun p => data.getD (p-off) 0 :=
        ⟨hgrown,fun _ _ _ => by omega,fun _ _ _ => by omega,fun x _ => congrFun hbytes x⟩
      generalize hm : min (data.length-written) (blockSize-pos%blockSize) = m
      unfold blockSize at hm
      have hindex : ∀ {n₂ : Inode} {hi : ℕ}, pos < hi →
          (∀ k, n₂.directBlocks k ≠ n₁.directBlocks k → ∃ p, pos+m ≤ p ∧ p < hi ∧ p/4096 = k) →
          ∀ k, n₂.directBlocks k ≠ n.directBlocks k → ∃ p, pos ≤ p ∧ p < hi ∧ p/4096 = k := by
        intro n₂ hi hlo hrange k hne
        by_cases hkp : k = pos/4096
        · exact ⟨pos,le_rfl,hlo,hkp.symm⟩
        · rw [← hother k hkp] at hne
          obtain ⟨p,hple,hphi,hk⟩ := hrange k hne
          exact ⟨p,by omega,hphi,hk⟩
      have hlen : ((data.drop written).take m).length = m := by
        rw [List.length_take, List.length_drop]
        omega
      refine writeTurn_returns (fun p => data.getD (p-off) 0) hgrown.extends_.mounted hgrown.held
        hblock (by omega) (fun i hi => ?_) (f := fun _ => writeLoop data (pos+m) (written+m) n₁)
        fun s₂ h₂ => ?_
      · rw [List.getD_eq_getElem _ _ hi, List.getElem_take, List.getElem_drop,
          show pos+i-off = written+i by omega]
        exact (List.getD_eq_getElem _ _ (by omega)).symm
      · rw [hlen] at h₂
        have hturn := hfirst.trans h₂ le_rfl (by omega)
        refine Ends.mono (ih _ (by omega) h₂.extends_.mounted
          (fun b hb => hturn.extends_.grows b (hres b hb)) h₂.held (by omega) (by omega) rfl)
          (fun r s' hr => ?_) fun _ s' he => ?_
        · obtain ⟨hcount,hrange,hrest⟩ := hr
          exact ⟨by omega,hindex (by omega) hrange,hturn.trans hrest (by omega) (by omega)⟩
        · obtain ⟨n',hno⟩ := he
          obtain ⟨p,hlo,hhi,hp⟩ := hno.missing
          exact ⟨n',hturn.toGrown.trans hno.toGrown,hno.full,⟨p,by omega,hhi,hp⟩,
            hindex (by omega) hno.changed⟩
    · refine ends_pure ⟨?_,fun k hne => (hne rfl).elim,.none h hn (by omega)⟩
      dsimp only
      omega

end

/-! ## Reading -/

/-- At most `k` bytes of a file from a position on, up to the first missing block. -/
def readSpan (mem : Memory) (n : Inode) : ℕ → ℕ → List UInt8
  | _,0 => []
  | pos,k+1 =>
    if directBlockCount ≤ pos/4096 ∨ n.directBlocks (pos/4096) = 0 then []
    else mem (n.addr pos)::readSpan mem n (pos+1) k

section
variable {v : Volume} {s : State} {n : Inode} {mem mem' : Memory}

theorem readSpan_congr (h : ∀ p, n.directBlocks (p/4096) ≠ 0 → mem' (n.addr p) = mem (n.addr p))
    (pos k : ℕ) : readSpan mem' n pos k = readSpan mem n pos k := by
  induction k generalizing pos with
  | zero => rfl
  | succ k ih =>
    unfold readSpan
    split_ifs with hstop
    · rfl
    · rw [h pos (not_or.mp hstop).2, ih]

theorem readSpan_full (pos k : ℕ)
    (h : ∀ p, pos ≤ p → p < pos+k → p/4096 < directBlockCount ∧ n.directBlocks (p/4096) ≠ 0) :
    readSpan mem n pos k = (List.range k).map fun i => mem (n.addr (pos+i)) := by
  induction k generalizing pos with
  | zero => rfl
  | succ k ih =>
    obtain ⟨hlt,hne⟩ := h pos le_rfl (by omega)
    unfold readSpan
    rw [if_neg (by omega), ih (pos+1) fun p hp hk => h p (by omega) (by omega),
      List.range_succ_eq_map, List.map_cons, List.map_map]
    simp only [Function.comp_def, Nat.add_zero, Nat.succ_eq_add_one, Nat.add_assoc,
      Nat.add_comm 1]

theorem readSpan_block {pos m k : ℕ} (hlt : pos/4096 < directBlockCount)
    (hne : n.directBlocks (pos/4096) ≠ 0) (hm : pos%4096+m ≤ 4096) :
    readSpan mem n pos (m+k) = read mem (n.addr pos) m++readSpan mem n (pos+m) k := by
  induction m generalizing pos with
  | zero => rw [Nat.zero_add]; rfl
  | succ m ih =>
    cases m with
    | zero =>
      rw [Nat.add_comm (0+1) k, readSpan, if_neg (by omega)]
      rfl
    | succ m =>
      have hdiv : (pos+1)/4096 = pos/4096 := by omega
      have haddr : n.addr (pos+1) = n.addr pos+1 := by
        unfold Inode.addr
        rw [hdiv]
        omega
      rw [show m+1+1+k = m+1+k+1 by omega, readSpan, if_neg (by omega),
        ih (hdiv.symm ▸ hlt) (hdiv.symm ▸ hne) (by omega), haddr,
        show m+1+1 = 1+(m+1) by omega, read_append mem (n.addr pos) 1 (m+1),
        show pos+(1+(m+1)) = pos+1+(m+1) by omega]
      rfl

theorem readLoop_returns {toRead pos bytesRead : ℕ} (h : Mounted v s)
    (hn : ∀ k, n.directBlocks k ≠ 0 → 10 ≤ n.directBlocks k ∧ n.directBlocks k < v.blocks) :
    Returns (readLoop n toRead pos bytesRead) s fun bs s' =>
      bs = readSpan (s.bytes v) n pos (toRead-bytesRead) ∧
      ∃ c, s' = s.withCache c ∧ Ready v.disk c ∧ c.bytes v.disk = s.bytes v := by
  induction hk : toRead-bytesRead using Nat.strong_induction_on generalizing pos bytesRead s with
  | _ k ih =>
    have hsame : ∃ c, s = s.withCache c ∧ Ready v.disk c ∧ c.bytes v.disk = s.bytes v :=
      ⟨s.cache,rfl,h.ready,rfl⟩
    rw [readLoop]
    split_ifs with hlt hidx hzero
    · refine ends_pure ⟨?_,hsame⟩
      obtain ⟨j,rfl⟩ : ∃ j, k = j+1 := ⟨k-1,by omega⟩
      rw [readSpan, if_pos (.inl hidx)]
    · refine ends_pure ⟨?_,hsame⟩
      obtain ⟨j,rfl⟩ : ∃ j, k = j+1 := ⟨k-1,by omega⟩
      rw [readSpan, if_pos (.inr hzero)]
    · obtain ⟨hb10,hblt⟩ := hn _ hzero
      have hb1 : 1 ≤ n.directBlocks (pos/blockSize) := by omega
      refine ends_get (Ends.bind (readBlock_mounted h hb1 hblt) fun buf s₁ h₁ => ?_)
      obtain ⟨c₁,rfl,hbuf,hr₁,hb₁⟩ := h₁
      generalize hm : min (toRead-bytesRead) (blockSize-pos%blockSize) = m
      unfold blockSize directBlockCount at *
      have hrec : Returns (readLoop n toRead (pos+m) (bytesRead+m)) (s.withCache c₁) _ :=
        ih _ (by omega) (h.withCache hr₁) rfl
      refine Ends.bind hrec fun rest s₂ h₂ => ?_
      obtain ⟨hrest,c₂,rfl,hr₂,hb₂⟩ := h₂
      refine ends_pure ⟨?_,c₂,rfl,hr₂,hb₂.trans hb₁⟩
      have hb : (s.withCache c₁).bytes v = s.bytes v := hb₁
      rw [show k = m+(toRead-(bytesRead+m)) by omega,
        readSpan_block (by unfold directBlockCount; omega) hzero (by omega), hrest, hb, hbuf,
        take_drop_read _ _ (by omega)]
      rfl
    · refine ends_pure ⟨?_,hsame⟩
      obtain rfl : k = 0 := by omega
      rfl

end

end Zohara.Zohfs
