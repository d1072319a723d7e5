import Mathlib.Order.Interval.Finset.Nat
import Zohara.ZohfsTables

/-!
# The free block counter of ZohFS

mkfs starts the counter at nine less than the number of blocks and marks ten blocks. From then
on every call moves counter and bitmap together: a block that is taken had a clear bit, and the
blocks that a deletion frees were marked and different. So the counter and the number of clear
bits differ by the same amount in every state of a run. The bitmap has 4096 bits; on a larger
volume alloc_block looks no further. Transfers do not fail.
-/
namespace Zohara.Zohfs
open FallibleState IdeDisk WordBitmap Runs

/-- The counter is as far from the number of clear bits as mkfs has left it. -/
def Counted (v : Volume) (s : State) : Prop :=
  s.fsSuper.freeBlocks+(v.blocks-10) = (clear s.bitmap v.blocks).card+(v.total-9)

section
variable {v : Volume} {s : State}

theorem Mounted.blocks_eq (h : Mounted v s) : s.blocks = v.blocks := by
  unfold State.blocks Volume.blocks
  rw [h.totalBlocks]

theorem Counted.take (h : Mounted v s) (hc : Counted v s) (hv : 9 ≤ v.total) {n n' : Inode}
    {s' : State} {l : List ℕ} (ht : Takes s n s' n' l) : Counted v s' := by
  obtain ⟨c,rfl⟩ := ht.state
  have hclear := card_clear_foldl_insert (n := v.blocks) ht.nodup fun b hb =>
    mem_clear.mpr (h.blocks_eq ▸ ht.clear b hb)
  have hle : v.blocks ≤ v.total := min_le_right _ _
  unfold Counted at hc ⊢
  change s.fsSuper.freeBlocks-l.length+_ = (clear (l.foldl insert s.bitmap) v.blocks).card+_
  omega

theorem Fresh.card_clear (h : Fresh v s) : (clear s.bitmap v.blocks).card = v.blocks-10 := by
  have hset : clear s.bitmap v.blocks = Finset.Ico 10 v.blocks := by
    ext b
    rw [mem_clear, Finset.mem_Ico]
    constructor
    · rintro ⟨hlt,hb⟩
      rw [h.member (hlt.trans_le v.blocks_le), decide_eq_false_iff_not] at hb
      omega
    · rintro ⟨hge,hlt⟩
      rw [h.member (hlt.trans_le v.blocks_le), decide_eq_false_iff_not]
      omega
  rw [hset, Nat.card_Ico]

theorem Fresh.freeBlocks (h : Fresh v s) (hv : 9 ≤ v.total) : s.fsSuper.freeBlocks = v.total-9 := by
  have hword := v.word
  rw [h.superblock]
  change ((v.disk.totalSectors-72)/8+2^32-9)%2^32 = v.total-9
  unfold Volume.total at hv ⊢
  omega

theorem Fresh.counted (h : Fresh v s) (hv : 9 ≤ v.total) : Counted v s := by
  unfold Counted
  rw [h.freeBlocks hv, h.card_clear]
  omega

end

end Zohara.Zohfs
