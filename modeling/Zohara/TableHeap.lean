import Zohara.FrameRefinement
import Zohara.PageTables
import Zohara.TableTree

/-!
# Page tables as a heap of cells

Physical memory is seen here as frames of 512 cells. Each memory operation of
the page-table code changes the cells of one frame, and each call of
alloc_table_or_halt moves one frame from free to used. `Confined` records that
a computation changed memory only inside a given set of frames.

A cell is a pointer to the next table when it is present and not a large page.
The walks of the kernel and of the user hierarchies are the walks of the table
tree over these cells.
-/
namespace Zohara.TableHeap
open ByteMemory FrameAllocator FrameRefinement PageEntry PageTables

variable {m m' : Machine} {e : Entry}

def cell (m : Machine) (f i : ℕ) : Entry := m.entry (f*4096) i

def used (m : Machine) : Finset ℕ := usedFrames m.frames

/-- The frame of the table an entry points to. -/
def child (e : Entry) : Option ℕ :=
  if present e && !large e then some (tableAddr e/4096) else none

@[simp] theorem startAddress_x86 (f : ℕ) : startAddress .x86_64 f = f*4096 := by
  simp [startAddress, ramBase, frameSize]

/-- Memory outside the frames of `S` and the kernel root are as before. -/
structure Confined (S : Set ℕ) (m m' : Machine) : Prop where
  mem : ∀ x, x/4096 ∉ S → m'.mem x = m.mem x
  kernelPml4 : m'.kernelPml4 = m.kernelPml4

theorem Confined.refl (S : Set ℕ) (m : Machine) : Confined S m m := ⟨fun _ _ => rfl,rfl⟩

theorem Confined.trans {S : Set ℕ} {m'' : Machine} (h : Confined S m m')
    (h' : Confined S m' m'') : Confined S m m'' :=
  ⟨fun x hx => (h'.mem x hx).trans (h.mem x hx),h'.kernelPml4.trans h.kernelPml4⟩

theorem Confined.mono {S T : Set ℕ} (h : Confined S m m') (hst : S ⊆ T) :
    Confined T m m' := ⟨fun x hx => h.mem x fun hs => hx (hst hs),h.kernelPml4⟩

theorem Confined.cell {S : Set ℕ} (h : Confined S m m') {f i : ℕ}
    (hf : f ∉ S) (hi : i < 512) : cell m' f i = cell m f i := by
  refine readU64_congr fun k hk => h.mem _ ?_
  rw [show (f*4096+8*i+k)/4096 = f by omega]
  exact hf

/-! ## Memory operations -/

@[simp] theorem setEntry_frames (m : Machine) (t i : ℕ) (e : Entry) :
    (m.setEntry t i e).frames = m.frames := rfl

theorem foldl_setEntry_frames (ks : List ℕ) (m : Machine) (t : ℕ) (e : Machine → ℕ → Entry) :
    (ks.foldl (fun m k => m.setEntry t k (e m k)) m).frames = m.frames := by
  induction ks generalizing m with
  | nil => rfl
  | cons k ks ih => exact (ih _).trans (setEntry_frames _ _ _ _)

theorem zeroTable_frames (m : Machine) (t : ℕ) : (m.zeroTable t).frames = m.frames :=
  foldl_setEntry_frames _ m t fun _ _ => 0

theorem setEntry_confined (m : Machine) (f : ℕ) {i : ℕ} (hi : i < 512) (e : Entry) :
    Confined {f} m (m.setEntry (f*4096) i e) := by
  refine ⟨fun x hx => writeU64_outside _ _ ?_,rfl⟩
  have hne : x/4096 ≠ f := hx
  omega

theorem cell_setEntry (m : Machine) (f : ℕ) {i j : ℕ} (hi : i < 512) (hj : j < 512) (e : Entry)
    (g : ℕ) : cell (m.setEntry (f*4096) i e) g j = if g = f ∧ j = i then e else cell m g j := by
  split_ifs with h
  · obtain ⟨rfl,rfl⟩ := h
    exact readU64_writeU64_self _ _ _
  · by_cases hg : g = f
    · subst hg
      have hne : j ≠ i := fun he => h ⟨rfl,he⟩
      exact readU64_writeU64_disjoint _ _ (by omega)
    · exact (setEntry_confined m f hi e).cell hg hj

theorem foldl_setEntry (m : Machine) (f : ℕ) (v : Machine → ℕ → Entry)
    (hv : ∀ m i k e, i < 512 → k < 512 → v (m.setEntry (f*4096) i e) k = v m k) {n : ℕ}
    (hn : n ≤ 512) :
    let m' := (List.range n).foldl (fun m i => m.setEntry (f*4096) i (v m i)) m
    Confined {f} m m' ∧ m'.frames = m.frames ∧ (∀ k < 512, v m' k = v m k) ∧
      ∀ g j, j < 512 → cell m' g j = if g = f ∧ j < n then v m j else cell m g j := by
  induction n with
  | zero => exact ⟨.refl _ _,rfl,fun _ _ => rfl,fun g j _ => by simp⟩
  | succ n ih =>
    obtain ⟨hc,hf,hk,hcell⟩ := ih (by omega)
    simp only [List.range_succ, List.foldl_append, List.foldl_cons, List.foldl_nil]
    refine ⟨hc.trans (setEntry_confined _ f (by omega) _),hf,?_,?_⟩
    · intro k hk'
      rw [hv _ _ _ _ (by omega) hk', hk k hk']
    · intro g j hj
      rw [cell_setEntry _ f (by omega) hj, hcell g j hj, hk n (by omega)]
      by_cases hg : g = f
      · by_cases hjn : j = n
        · simp [hg, hjn]
        · have hlt : j < n+1 ↔ j < n := by omega
          simp only [hg, hjn, and_false, if_false, true_and, hlt]
      · simp [hg]

theorem zeroTable_spec (m : Machine) (f : ℕ) :
    Confined {f} m (m.zeroTable (f*4096)) ∧ (m.zeroTable (f*4096)).frames = m.frames ∧
      ∀ g j, j < 512 → cell (m.zeroTable (f*4096)) g j = if g = f then 0 else cell m g j := by
  obtain ⟨hc,hf,-,hcell⟩ := foldl_setEntry m f (fun _ _ => 0) (fun _ _ _ _ _ _ => rfl) le_rfl
  refine ⟨hc,hf,fun g j hj => ?_⟩
  rw [Machine.zeroTable, hcell g j hj]
  simp [hj]

theorem zeroPage_spec (m : Machine) (f : ℕ) :
    Confined {f} m (m.zeroPage (f*4096)) ∧ (m.zeroPage (f*4096)).frames = m.frames ∧
      ∀ x, x/4096 = f → (m.zeroPage (f*4096)).mem x = 0 := by
  refine ⟨⟨fun x hx => fill_outside _ _ ?_,rfl⟩,rfl,fun x hx => fill_inside _ _ ?_⟩
  · have hne : x/4096 ≠ f := hx
    omega
  · omega

theorem fillBlock_spec (m : Machine) (f base : ℕ) :
    let m' := (List.range 512).foldl (fun m i =>
      m.setEntry (f*4096) i (page4k (base+i*0x1000) true false true)) (m.zeroTable (f*4096))
    Confined {f} m m' ∧ m'.frames = m.frames ∧ ∀ g j, j < 512 → cell m' g j =
      if g = f then page4k (base+j*0x1000) true false true else cell m g j := by
  obtain ⟨hz,hzf,hzc⟩ := zeroTable_spec m f
  obtain ⟨hc,hf,-,hcell⟩ := foldl_setEntry (m.zeroTable (f*4096)) f
    (fun _ i => page4k (base+i*0x1000) true false true) (fun _ _ _ _ _ _ => rfl) le_rfl
  refine ⟨hz.trans hc,hf.trans hzf,fun g j hj => ?_⟩
  rw [hcell g j hj, hzc g j hj]
  by_cases hg : g = f <;> simp [hg, hj]

/-! ## Allocation -/

/-- A frame that was free is now used; memory and the kernel root are as before. -/
structure Allocated (m : Machine) (f : ℕ) (m' : Machine) : Prop where
  mem : m'.mem = m.mem
  kernelPml4 : m'.kernelPml4 = m.kernelPml4
  fresh : f ∉ used m
  used_eq : used m' = Insert.insert f (used m)
  count : m'.frames.actualFrameCount = m.frames.actualFrameCount
  valid : Valid m'.frames

theorem allocTableOrHalt_some {pa : ℕ} (hv : Valid m.frames)
    (h : m.allocTableOrHalt = some (pa,m')) : ∃ f, pa = f*4096 ∧ Allocated m f m' := by
  unfold Machine.allocTableOrHalt at h
  have hvalid := allocateFrame_valid hv
  have hcount := allocateFrame_count m.frames
  split at h
  · rename_i f s ha
    rw [ha] at hvalid hcount
    obtain ⟨rfl,rfl⟩ : startAddress .x86_64 f = pa ∧ {m with frames := s} = m' := by
      simpa using h
    obtain ⟨-,hn,hu⟩ := allocateFrame_some hv ha
    exact ⟨f,startAddress_x86 f,rfl,rfl,hn,hu,hcount,hvalid⟩
  · cases h

theorem allocTableOrHalt_isSome (hv : Valid m.frames)
    (h : (used m).card < m.frames.actualFrameCount) : ∃ r, m.allocTableOrHalt = some r := by
  unfold Machine.allocTableOrHalt
  split
  · exact ⟨_,rfl⟩
  · rename_i ha
    have hall := (allocateFrame_none_iff hv).mp (by rw [ha])
    have hsub : Finset.range m.frames.actualFrameCount ⊆ used m := fun f hf =>
      hall f (Finset.mem_range.mp hf)
    have hcard := Finset.card_le_card hsub
    rw [Finset.card_range] at hcard
    omega

variable {f : ℕ}

theorem used_frameAddr (hv : Valid m.frames) (hf : f ∈ used m) : FrameAddr (f*4096) := by
  have h₁ := (mem_usedFrames.mp hf).1
  have h₂ := hv.count_le
  unfold maxFrameCount maxWords at h₂
  exact frameAddr_mul (by omega)

section

variable (h : Allocated m f m')
include h

theorem Allocated.frameAddr : FrameAddr (f*4096) :=
  used_frameAddr h.valid (by rw [h.used_eq]; exact Finset.mem_insert_self _ _)

theorem Allocated.mem_used : f ∈ used m' := by
  rw [h.used_eq]
  exact Finset.mem_insert_self _ _

theorem Allocated.subset : used m ⊆ used m' := by
  rw [h.used_eq]
  exact Finset.subset_insert _ _

theorem Allocated.cell (g i : ℕ) : cell m' g i = cell m g i := by
  unfold TableHeap.cell Machine.entry
  rw [h.mem]

theorem Allocated.confined (S : Set ℕ) : Confined S m m' := ⟨fun x _ => by rw [h.mem],h.kernelPml4⟩

end

/-- At least `n` frames are free. -/
def Room (m : Machine) (n : ℕ) : Prop := (used m).card+n ≤ m.frames.actualFrameCount

theorem Room.weaken {n n' : ℕ} (h : Room m n) (hn : n' ≤ n) : Room m n' := by
  unfold Room at h ⊢
  omega

theorem Room.of_frames {n : ℕ} (h : Room m n) (hf : m'.frames = m.frames) :
    Room m' n := by
  unfold Room used at h ⊢
  rw [hf]
  exact h

theorem Room.alloc {n : ℕ} (h : Room m (n+1)) (hv : Valid m.frames) :
    ∃ f m', m.allocTableOrHalt = some (f*4096,m') ∧ Allocated m f m' ∧ Room m' n := by
  unfold Room at h
  obtain ⟨⟨pa,m'⟩,ha⟩ := allocTableOrHalt_isSome hv (by omega)
  obtain ⟨f,rfl,hal⟩ := allocTableOrHalt_some hv ha
  refine ⟨f,m',ha,hal,?_⟩
  unfold Room
  rw [hal.used_eq, hal.count, Finset.card_insert_of_notMem hal.fresh]
  omega

/-! ## Pointers -/

@[simp] theorem child_zero : child 0 = none := by decide

theorem child_tableEntry (h : FrameAddr (f*4096)) : child (tableEntry (f*4096)) = some f := by
  obtain ⟨hp,-,-,hl,-,ha⟩ := tableEntry_spec h
  simp [child, hp, hl, ha]

theorem child_tableEntryUser (h : FrameAddr (f*4096)) :
    child (tableEntryUser (f*4096)) = some f := by
  obtain ⟨hp,-,-,hl,-,ha⟩ := tableEntryUser_spec h
  simp [child, hp, hl, ha]

theorem child_large (h : large e = true) : child e = none := by
  simp [child, h]

theorem tableAddr_aligned (e : Entry) : tableAddr e/4096*4096 = tableAddr e := by
  have hmod : tableAddr e%2^12 = 0 := by
    rw [tableAddr, BitVec.toNat_and, Nat.and_mod_two_pow]
    have hmask : addrMask.toNat%2^12 = 0 := by decide
    rw [hmask, Nat.and_zero]
  omega

theorem child_some {c : ℕ} (h : child e = some c) :
    present e = true ∧ large e = false ∧ tableAddr e = c*4096 := by
  unfold child at h
  split_ifs at h with hc
  · obtain ⟨hp,hl⟩ := Bool.and_eq_true_iff.mp hc
    refine ⟨hp,by simpa using hl,?_⟩
    rw [← Option.some.inj h, tableAddr_aligned]

theorem child_none (h : child e = none) : (!present e || large e) = true := by
  unfold child at h
  split_ifs at h with hc
  revert hc
  cases present e <;> cases large e <;> simp

theorem pml4Idx_lt (virt : ℕ) : pml4Idx virt < 512 :=
  Nat.lt_of_le_of_lt Nat.and_le_right (by decide)
theorem pdptIdx_lt (virt : ℕ) : pdptIdx virt < 512 :=
  Nat.lt_of_le_of_lt Nat.and_le_right (by decide)
theorem pdIdx_lt (virt : ℕ) : pdIdx virt < 512 :=
  Nat.lt_of_le_of_lt Nat.and_le_right (by decide)
theorem ptIdx_lt (virt : ℕ) : ptIdx virt < 512 :=
  Nat.lt_of_le_of_lt Nat.and_le_right (by decide)

end Zohara.TableHeap
