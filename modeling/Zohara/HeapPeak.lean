import Mathlib.Data.List.Count
import Zohara.HeapAllocator

/-!
# The peak use of the kernel heap

A run of the heap is followed with two counts for each block size: the blocks that have been cut
off the bump allocator, and the largest number of blocks that were live at a time. The code keeps
neither. A block is cut off only when the list of its size is empty, that is when all blocks cut
off so far are live; so the two counts agree. The layouts are those that have a list, and the heap
ends a page below the top of the address space, so that no sum wraps.
-/
namespace Zohara.HeapAllocator
open ByteMemory FreeList Runs

variable {heapStart heapSize : ℕ} {w w' : World} {i : Fin blockSizes.length}

def World.liveCount (w : World) (i : Fin blockSizes.length) : ℕ :=
  w.live.countP fun b => getBlockIndex b.layout = some i

structure Tally where
  world : World
  carved : Fin blockSizes.length → ℕ
  peak : Fin blockSizes.length → ℕ

/-- The call finds the list empty and answers a block. -/
def Event.Carves (w : World) (i : Fin blockSizes.length) : Event → Prop
  | .alloc layout ptr => getBlockIndex layout = some i ∧ w.heap.listHeads i = 0 ∧ ptr ≠ 0
  | _ => False

instance (w : World) (i : Fin blockSizes.length) (e : Event) : Decidable (e.Carves w i) :=
  match e with
  | .alloc _ _ => inferInstanceAs (Decidable (_ ∧ _))
  | .dealloc _ => inferInstanceAs (Decidable False)
  | .write _ => inferInstanceAs (Decidable False)

def Tally.next (t : Tally) (e : Event) (w' : World) : Tally where
  world := w'
  carved i := if e.Carves t.world i then t.carved i+1 else t.carved i
  peak i := max (t.peak i) (w'.liveCount i)

def TallyStep (t : Tally) (e : Event) (t' : Tally) : Prop :=
  (∀ layout ptr, e = .alloc layout ptr → layout.size ≤ 2048 ∧ layout.align ≤ 2048) ∧
    ∃ w', Step t.world e w' ∧ t' = t.next e w'

def Tally.start (heapStart heapSize : ℕ) (mem : Memory) : Tally :=
  ⟨HeapAllocator.start heapStart heapSize mem,fun _ => 0,fun _ => 0⟩

structure TallyOk (heapStart heapSize : ℕ) (t : Tally) : Prop where
  ok : HeapOk heapStart heapSize t.world
  balance : ∀ i, t.carved i = t.world.liveCount i+(freeList t.world.freed i).length
  top : ∀ i, t.peak i = t.carved i

theorem getBlockIndex_small {layout : Layout} (hs : layout.size ≤ 2048) (ha : layout.align ≤ 2048) :
    ∃ i, getBlockIndex layout = some i := by
  rw [← Option.isSome_iff_exists, getBlockIndex, List.isSome_findFinIdx?, List.any_eq_true]
  exact ⟨2048,by decide,by simp [hs, ha]⟩

theorem fits_small (ok : HeapOk heapStart heapSize w) (htop : heapStart+heapSize+4096 ≤ 2^64)
    {layout : Layout} (hi : getBlockIndex layout = some i) : Fits w.heap layout := by
  have hsize : ∀ i : Fin blockSizes.length, blockSizes.get i ≤ 2048 := by decide
  have hupper := ok.upper
  have hround := roundUp_le w.heap.bump.next (blockSizes.get i)
  have hpos := (blockLayout i).align_pos
  have := hsize i
  change 0 < blockSizes.get i at hpos
  right
  rw [unit_some hi]
  change w.heap.bump.next+blockSizes.get i ≤ 2^64 ∧
    roundUp w.heap.bump.next (blockSizes.get i)+blockSizes.get i < 2^64
  omega

theorem HeapOk.head_iff (ok : HeapOk heapStart heapSize w) (i : Fin blockSizes.length) :
    w.heap.listHeads i = 0 ↔ freeList w.freed i = [] := by
  have hchain := ok.chains i
  cases hlist : freeList w.freed i with
  | nil => simpa [hlist, Chain] using hchain
  | cons p ps =>
    rw [hlist] at hchain
    simp [hchain.1, hchain.2.1]

theorem liveCount_cons (w : World) (heap : Heap) (ptr : ℕ) (layout : Layout) (freed : List Block)
    (j : Fin blockSizes.length) (hi : getBlockIndex layout = some i) :
    World.liveCount ⟨heap,⟨ptr,layout⟩::w.live,freed⟩ j =
      w.liveCount j+if j = i then 1 else 0 := by
  simp [World.liveCount, List.countP_cons, hi, eq_comm]

/-- What one event does to the counts of one size: a block is cut off while none is free, or the
number of blocks of the size stays. -/
theorem counts_step {e : Event} (ok : HeapOk heapStart heapSize w) (hpos : 0 < heapStart)
    (htop : heapStart+heapSize+4096 ≤ 2^64) (hs : Step w e w')
    (hsmall : ∀ layout ptr, e = .alloc layout ptr → ∃ i, getBlockIndex layout = some i)
    (j : Fin blockSizes.length) :
    (e.Carves w j ∧ freeList w.freed j = [] ∧ freeList w'.freed j = [] ∧
      w'.liveCount j = w.liveCount j+1) ∨
    (¬e.Carves w j ∧ w'.liveCount j+(freeList w'.freed j).length =
      w.liveCount j+(freeList w.freed j).length) := by
  cases e with
  | write mem =>
    obtain ⟨rfl,-⟩ := hs
    exact .inr ⟨id,rfl⟩
  | dealloc b =>
    obtain ⟨hb,rfl⟩ := hs
    have herase := List.countP_erase (fun b => decide (getBlockIndex b.layout = some j)) w.live b
    refine .inr ⟨id,?_⟩
    by_cases hj : getBlockIndex b.layout = some j
    · have hcount : 0 < w.live.countP fun b => getBlockIndex b.layout = some j :=
        List.countP_pos_iff.mpr ⟨b,hb,by simp [hj]⟩
      simp [World.liveCount, herase, freeList, hb, hj]
      omega
    · simp [World.liveCount, herase, freeList, hj]
  | alloc layout ptr =>
    obtain ⟨heap,h,rfl⟩ := hs
    obtain ⟨i,hi⟩ := hsmall layout ptr rfl
    have hhead := ok.head_iff i
    rcases alloc_cases (fits_small ok htop hi) h with
      ⟨k,hk,hne,rfl,-⟩ | ⟨hempty,⟨hptr,-,-⟩ | ⟨rfl,rfl⟩⟩
    · obtain rfl : k = i := Option.some.inj (hk.symm.trans hi)
      obtain ⟨p,ps,hlist⟩ := List.exists_cons_of_ne_nil (mt hhead.mpr hne)
      have hp : w.heap.listHeads k = p := by
        simpa [hlist] using (ok.chains k).head_eq
      have hcarves : ¬(Event.alloc layout (w.heap.listHeads k)).Carves w j := by
        intro ⟨hj,hz,_⟩
        exact hne (Option.some.inj (hi.symm.trans hj) ▸ hz)
      refine .inr ⟨hcarves,?_⟩
      rw [if_neg hne, liveCount_cons _ _ _ _ _ _ hi, hp, ok.freeList_pop hlist]
      by_cases hj : j = k
      · simp [hj, hlist]
        omega
      · simp [hj]
    · have hle := le_roundUp w.heap.bump.next layout.unit.align_pos
      have hlower := ok.lower
      have hne : ptr ≠ 0 := by omega
      rw [if_neg hne, liveCount_cons _ _ _ _ _ _ hi, ok.freeList_carve (hptr ▸ hle)]
      by_cases hj : j = i
      · have hnil := hhead.mp (hempty i hi)
        exact .inl (by simp [Event.Carves, hj, hi, hempty i hi, hne, hnil])
      · exact .inr ⟨fun hc => hj (Option.some.inj (hc.1.symm.trans hi)),by simp [hj]⟩
    · exact .inr ⟨fun hc => hc.2.2 rfl,rfl⟩

theorem start_tallyOk (mem : Memory) (htop : heapStart+heapSize+4096 ≤ 2^64) :
    TallyOk heapStart heapSize (Tally.start heapStart heapSize mem) where
  ok := start_ok mem (by omega)
  balance _ := rfl
  top _ := rfl

theorem TallyOk.step {t t' : Tally} {e : Event} (h : TallyOk heapStart heapSize t)
    (hpos : 0 < heapStart) (htop : heapStart+heapSize+4096 ≤ 2^64) (hs : TallyStep t e t') :
    TallyOk heapStart heapSize t' := by
  obtain ⟨hlayout,w',hstep,rfl⟩ := hs
  have hsmall : ∀ layout ptr, e = .alloc layout ptr → ∃ i, getBlockIndex layout = some i :=
    fun layout ptr he => getBlockIndex_small (hlayout layout ptr he).1 (hlayout layout ptr he).2
  have hfits : ∀ layout ptr, e = .alloc layout ptr → Fits t.world.heap layout := by
    intro layout ptr he
    obtain ⟨i,hi⟩ := hsmall layout ptr he
    exact fits_small h.ok htop hi
  -- The counts of a size before and after, with carved = live + free = peak before.
  have hcounts : ∀ j, (t.next e w').carved j = w'.liveCount j+(freeList w'.freed j).length ∧
      (t.next e w').peak j = (t.next e w').carved j := by
    intro j
    have hbal := h.balance j
    have hpeak := h.top j
    simp only [Tally.next]
    rcases counts_step h.ok hpos htop hstep hsmall j with ⟨hc,hnil,hnil',hlive⟩ | ⟨hc,hsum⟩
    · rw [hnil, List.length_nil] at hbal
      rw [if_pos hc, hnil', List.length_nil]
      omega
    · rw [if_neg hc]
      omega
  exact ⟨h.ok.step hpos (by omega) ⟨hstep,hfits⟩,fun j => (hcounts j).1,fun j => (hcounts j).2⟩

/-- Blocks are cut off only when the use of their size passes its peak: the two counts agree in
every run, and below the peak a call answers a block without moving the bump pointer. -/
theorem carved_eq_peak (hpos : 0 < heapStart) (htop : heapStart+heapSize+4096 ≤ 2^64)
    {mem : Memory} {events : List Event} {t : Tally}
    (r : Run TallyStep (Tally.start heapStart heapSize mem) events t) :
    (∀ i, t.carved i = t.peak i) ∧
      ∀ layout i, getBlockIndex layout = some i → t.world.liveCount i < t.peak i →
        (alloc t.world.heap layout).1 ≠ 0 ∧
          (alloc t.world.heap layout).2.bump = t.world.heap.bump := by
  have h : TallyOk heapStart heapSize t :=
    r.invariant (P := fun _ t => TallyOk heapStart heapSize t) (start_tallyOk mem htop)
      fun _ _ _ _ ih hs => ih.step hpos htop hs
  refine ⟨fun i => (h.top i).symm,fun layout i hi hlt => ?_⟩
  have hne : t.world.heap.listHeads i ≠ 0 := by
    intro hz
    have hbal := h.balance i
    rw [(h.ok.head_iff i).mp hz, ← h.top i] at hbal
    simp at hbal
    omega
  simp [alloc, hi, hne, Heap.setHead]

/-- A block of five bytes is taken, freed and taken again. -/
theorem carved_eq_peak_reused : ∃ i events t,
    Run TallyStep (Tally.start 0x100000 0x10000 fun _ => 0) events t ∧ t.carved i = t.peak i ∧
      t.peak i = 1 ∧ (alloc t.world.heap fiveBytes).2.bump = t.world.heap.bump := by
  have r : Run TallyStep (Tally.start 0x100000 0x10000 fun _ => 0)
      [.dealloc ⟨0x100000,fiveBytes⟩,.alloc fiveBytes 0x100000] _ :=
    .next (.next .start ⟨by rintro _ _ ⟨⟩; decide,_,⟨_,rfl,rfl⟩,rfl⟩)
      ⟨nofun,_,⟨List.mem_cons_self,rfl⟩,rfl⟩
  obtain ⟨hcarved,hreuse⟩ := carved_eq_peak (by decide) (by decide) r
  exact ⟨⟨0,by decide⟩,_,_,r,hcarved _,by decide,(hreuse fiveBytes _ rfl (by decide)).2⟩

end Zohara.HeapAllocator
