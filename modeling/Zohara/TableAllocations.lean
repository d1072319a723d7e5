import Zohara.MemoryMap

/-!
# The allocator while the tables of a task are built

create_user_page_tables only ever takes frames. Whatever property of the allocator a single
allocation keeps, the whole call keeps; and since it begins with an allocation, more frames are in use
after it than before. The state of the allocator and the tables are arbitrary here.
-/
namespace Zohara.TableAllocations
open WordBitmap FrameAllocator FrameRefinement PageEntry PageTables TableHeap MemoryMap Option

theorem allocateFrame_either (s : State) :
    (∃ w f, allocateFrame s = (some f,{setUsed f s with nextFree := w}) ∧
      f < s.actualFrameCount ∧ member s.bitmap f = false) ∨ allocateFrame s = (none,s) := by
  unfold allocateFrame
  dsimp only
  split
  · rename_i w f hs
    exact .inl ⟨w,f,rfl,scanWords_some hs⟩
  · split
    · rename_i w f hs
      exact .inl ⟨w,f,rfl,scanWords_some hs⟩
    · exact .inr rfl

theorem usedFrames_allocateFrame {s s' : State} {f : ℕ} (h : allocateFrame s = (some f,s')) :
    f ∉ usedFrames s ∧ usedFrames s' = Insert.insert f (usedFrames s) := by
  rcases allocateFrame_either s with ⟨w,g,heq,hg,hfree⟩ | heq
  · rw [heq] at h
    obtain ⟨hgf,rfl⟩ := Prod.mk.inj h
    cases hgf
    refine ⟨fun hu => ?_,usedFrames_setUsed hg⟩
    rw [(mem_usedFrames.mp hu).2] at hfree
    cases hfree
  · rw [heq] at h
    cases h

theorem usedFrames_subset_allocateFrame (s : State) : usedFrames s ⊆ usedFrames (allocateFrame s).2 := by
  rcases hs : allocateFrame s with ⟨_ | f,s'⟩
  · rcases allocateFrame_either s with ⟨w,g,heq,-⟩ | heq
    · rw [heq] at hs
      cases hs
    · rw [heq] at hs
      cases hs
      exact subset_rfl
  · rw [(usedFrames_allocateFrame hs).2]
    exact Finset.subset_insert _ _

variable {m m' : Machine}

theorem allocTableOrHalt_grows {pa : ℕ} (h : m.allocTableOrHalt = some (pa,m')) :
    used m ⊂ used m' := by
  unfold Machine.allocTableOrHalt at h
  split at h
  · rename_i f s hs
    cases h
    obtain ⟨hfresh,hused⟩ := usedFrames_allocateFrame hs
    unfold used
    dsimp only
    rw [hused]
    exact Finset.ssubset_insert hfresh
  · cases h

section
variable {P : State → Prop} {m m' : Machine} (hP : ∀ s, P s → P (allocateFrame s).2)
include hP

theorem cloneSlot_frames {K Q j : ℕ} (h : cloneSlot K Q m j = some m') (hm : P m.frames) :
    P m'.frames := by
  unfold cloneSlot at h
  dsimp only at h
  split_ifs at h
  · cases h
    exact hm
  · cases h
    exact hm
  · obtain ⟨⟨pa,m₁⟩,h₁,h⟩ := bind_eq_some_iff.mp h
    cases h
    rw [setEntry_frames, foldl_setEntry_frames, zeroTable_frames]
    exact allocTableOrHalt_frames hP h₁ hm

theorem mapUserPage_frames {pml4 virt pa : ℕ} (h : mapUserPage m pml4 virt = some (pa,m'))
    (hm : P m.frames) : P m'.frames := by
  unfold mapUserPage at h
  dsimp only at h
  split_ifs at h
  · exact splitBlock_frames hP h hm
  · cases h
    exact hm

theorem mapFresh_frames {pml4 addr pa : ℕ} {leaf : ℕ → Entry}
    (h : mapFresh pml4 addr leaf m = some (pa,m')) (hm : P m.frames) : P m'.frames := by
  obtain ⟨⟨a,m₁⟩,h₁,h⟩ := bind_eq_some_iff.mp h
  obtain ⟨⟨b,m₂⟩,h₂,h⟩ := bind_eq_some_iff.mp h
  cases h
  have hfresh : P m₁.frames := allocTableOrHalt_frames hP h₁ hm
  rw [setEntry_frames]
  exact mapUserPage_frames hP h₂ hfresh

theorem mapRequests_frames {pml4 : ℕ} {reqs : List (ℕ × Bool × Bool)} {frames : List (ℕ × ℕ × ℕ)}
    (h : mapRequests pml4 reqs m = some (frames,m')) (hm : P m.frames) : P m'.frames := by
  induction reqs generalizing m frames with
  | nil =>
    cases h
    exact hm
  | cons q reqs ih =>
    obtain ⟨addr,w,x⟩ := q
    obtain ⟨⟨a,m₁⟩,h₁,h⟩ := bind_eq_some_iff.mp h
    obtain ⟨⟨b,m₂⟩,h₂,h⟩ := bind_eq_some_iff.mp h
    cases h
    exact ih h₂ (mapFresh_frames hP h₁ hm)

end

theorem cloneKernel_first {pa : ℕ} (h : cloneKernel m = some (pa,m')) :
    ∃ pu x, m.allocTableOrHalt = some (pu,x) ∧ ∀ P : State → Prop,
      (∀ s, P s → P (allocateFrame s).2) → P x.frames → P m'.frames := by
  obtain ⟨⟨pu,x⟩,hx,h⟩ := bind_eq_some_iff.mp h
  obtain ⟨⟨pq,y⟩,hy,h⟩ := bind_eq_some_iff.mp h
  obtain ⟨z,hz,h⟩ := bind_eq_some_iff.mp h
  obtain ⟨-,rfl⟩ := Prod.mk.inj (some.inj h)
  refine ⟨pu,x,hx,fun P hP hm => ?_⟩
  have hpdpt : P y.frames := allocTableOrHalt_frames hP hy (by
    rw [zeroTable_frames]
    exact hm)
  have hslots : P z.frames := foldlM_frames (fun _ _ _ hs hm => cloneSlot_frames hP hs hm) _ hz (by
    rw [zeroTable_frames]
    exact hpdpt)
  rw [setEntry_frames]
  exact hslots

theorem cloneKernel_grows {pa : ℕ} (h : cloneKernel m = some (pa,m')) : used m ⊂ used m' := by
  obtain ⟨pu,x,hx,hafter⟩ := cloneKernel_first h
  exact (allocTableOrHalt_grows hx).trans_subset (hafter (fun s => used x ⊆ usedFrames s)
    (fun s hs => hs.trans (usedFrames_subset_allocateFrame s)) subset_rfl)

variable {res : ℕ × List (ℕ × ℕ × ℕ)}

theorem createUserPageTables_frames {P : State → Prop} (hP : ∀ s, P s → P (allocateFrame s).2) {segments : List Segment}
    (h : createUserPageTables m segments = some (res,m')) (hm : P m.frames) : P m'.frames := by
  obtain ⟨⟨pml4,m₁⟩,h₁,h⟩ := bind_eq_some_iff.mp h
  obtain ⟨⟨frames,m₂⟩,h₂,h⟩ := bind_eq_some_iff.mp h
  cases h
  obtain ⟨pu,x,hx,hafter⟩ := cloneKernel_first h₁
  have hclone : P m₁.frames := hafter P hP (allocTableOrHalt_frames hP hx hm)
  exact mapRequests_frames hP h₂ hclone

theorem createUserPageTables_grows {segments : List Segment} (h : createUserPageTables m segments = some (res,m')) :
    used m ⊂ used m' := by
  obtain ⟨⟨pml4,m₁⟩,h₁,h⟩ := bind_eq_some_iff.mp h
  obtain ⟨⟨frames,m₂⟩,h₂,h⟩ := bind_eq_some_iff.mp h
  obtain ⟨-,rfl⟩ := Prod.mk.inj (some.inj h)
  have hP : ∀ s, used m₁ ⊆ usedFrames s → used m₁ ⊆ usedFrames (allocateFrame s).2 :=
    fun s hs => hs.trans (usedFrames_subset_allocateFrame s)
  have hkept : used m₁ ⊆ used m₂ := mapRequests_frames hP h₂ subset_rfl
  exact (cloneKernel_grows h₁).trans_subset hkept

end Zohara.TableAllocations
