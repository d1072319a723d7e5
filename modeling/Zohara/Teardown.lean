import Zohara.SegmentPages

/-!
# Tearing down a task's page tables

free_user_page_tables releases every table within three steps of the task's
root. The tables that the task shares with the kernel are among them: after a
build and a teardown the used frames are those from before, without the
kernel's own last-level tables below PML4[0]. So the frames are restored
exactly when the kernel has no such table, that is, when no page was ever
mapped through the first PML4 slot.
-/
namespace Zohara.Teardown
open FrameAllocator FrameRefinement PageEntry PageTables TableTree TableHeap KernelTables
  KernelRuns UserTables SegmentPages

variable {m m' m₀ : Machine} {segments : List Segment}

/-- Frames in `S` have been given back; memory is untouched. -/
structure Released (S : Set ℕ) (m m' : Machine) : Prop where
  valid : Valid m.frames → Valid m'.frames
  mem : m'.mem = m.mem
  kernelPml4 : m'.kernelPml4 = m.kernelPml4
  used_iff : ∀ f, f ∈ used m' ↔ f ∈ used m ∧ f ∉ S

theorem Released.cell {S : Set ℕ} (h : Released S m m') (f i : ℕ) :
    cell m' f i = cell m f i := by
  unfold TableHeap.cell Machine.entry
  rw [h.mem]

theorem Released.empty (m : Machine) : Released ∅ m m := ⟨id,rfl,rfl,by simp⟩

theorem Released.trans {S T : Set ℕ} {m'' : Machine} (h : Released S m m')
    (h' : Released T m' m'') : Released (S ∪ T) m m'' := by
  refine ⟨fun hv => h'.valid (h.valid hv),h'.mem.trans h.mem,h'.kernelPml4.trans h.kernelPml4,fun f => ?_⟩
  rw [h'.used_iff, h.used_iff, Set.mem_union, not_or, and_assoc]

theorem Released.congr {S T : Set ℕ} (h : Released S m m')
    (hst : ∀ f, f ∈ S ↔ f ∈ T) : Released T m m' :=
  ⟨h.valid,h.mem,h.kernelPml4,fun f => by rw [h.used_iff, hst]⟩

theorem deallocate_released (m : Machine) (pa : ℕ) :
    Released {f | f = pa/4096} m (m.deallocate pa) := by
  refine ⟨deallocateFrame_valid,rfl,rfl,fun f => ?_⟩
  have hu : used (m.deallocate pa) = (used m).erase (fromAddr .x86_64 pa) :=
    usedFrames_deallocateFrame _ _
  rw [hu, Finset.mem_erase, and_comm]
  exact Iff.rfl

theorem Released.foldl {α : Type} {step : Machine → α → Machine} {S : α → Set ℕ} (xs : List α)
    (h : ∀ x ∈ xs, ∀ m' : Machine, m'.mem = m.mem → m'.kernelPml4 = m.kernelPml4 →
      Released (S x) m' (step m' x)) :
    Released {f | ∃ x ∈ xs, f ∈ S x} m (xs.foldl step m) := by
  induction xs generalizing m with
  | nil => exact (Released.empty m).congr (by simp)
  | cons x xs ih =>
    have hx := h x List.mem_cons_self m rfl rfl
    have hxs := ih fun y hy m' hm hk =>
      h y (List.mem_cons_of_mem _ hy) m' (hm.trans hx.mem) (hk.trans hx.kernelPml4)
    refine (hx.trans hxs).congr fun f => ?_
    simp only [Set.mem_union, Set.mem_ofPred_eq, List.mem_cons, exists_eq_or_imp]

/-! ## The three levels -/

/-- What is released when a slot of table `t` is freed with everything below it. -/
def Subtree (m : Machine) (t i d : ℕ) : Set ℕ :=
  {f | ∃ c, child (cell m t i) = some c ∧ Within child (cell m) c d 512 f}

theorem Subtree.congr (h : m'.mem = m.mem) (t i d : ℕ) :
    Subtree m' t i d = Subtree m t i d := by
  have hc : cell m' = cell m := by
    funext f j
    unfold cell Machine.entry
    rw [h]
  unfold Subtree
  rw [hc]

variable {step : Machine → ℕ → Machine}

theorem freeTable_released {c d : ℕ}
    (h : ∀ i < 512, ∀ m' : Machine, m'.mem = m.mem → m'.kernelPml4 = m.kernelPml4 →
      Released (Subtree m' c i d) m' (step m' i)) :
    Released {f | Within child (cell m) c (d+1) 512 f} m
      (((List.range 512).foldl step m).deallocate (c*4096)) := by
  have hfold : Released {f | ∃ i ∈ List.range 512, f ∈ Subtree m c i d} m
      ((List.range 512).foldl step m) := by
    refine Released.foldl _ fun i hi m' hm hk => ?_
    rw [← Subtree.congr hm]
    exact h i (List.mem_range.mp hi) m' hm hk
  refine (hfold.trans (deallocate_released _ _)).congr fun f => ?_
  rw [Nat.mul_div_cancel c (by decide : 0 < 4096)]
  simp only [Set.mem_union, Set.mem_ofPred_eq, List.mem_range, within_succ]
  rw [or_comm]
  rfl

theorem freePdSlot_released (m : Machine) (D k : ℕ) :
    Released (Subtree m D k 0) m (freePdSlot (D*4096) m k) := by
  unfold freePdSlot
  change Released _ m (if !present (cell m D k) || large (cell m D k) then m
    else m.deallocate (tableAddr (cell m D k)))
  cases hc : child (cell m D k) with
  | none =>
    rw [if_pos (child_none hc)]
    exact (Released.empty m).congr (by simp [Subtree, hc])
  | some c =>
    obtain ⟨hp,hl,ha⟩ := child_some hc
    rw [if_neg (by simp [hp, hl]), ha]
    refine (deallocate_released m _).congr fun f => ?_
    rw [Nat.mul_div_cancel c (by decide : 0 < 4096)]
    simp [Subtree, hc, within_zero]

theorem freePdptSlot_released (m : Machine) (Q j : ℕ) :
    Released (Subtree m Q j 1) m (freePdptSlot (Q*4096) m j) := by
  unfold freePdptSlot
  change Released _ m (if !present (cell m Q j) || large (cell m Q j) then m
    else ((List.range 512).foldl (freePdSlot (tableAddr (cell m Q j))) m).deallocate
      (tableAddr (cell m Q j)))
  cases hc : child (cell m Q j) with
  | none =>
    rw [if_pos (child_none hc)]
    exact (Released.empty m).congr (by simp [Subtree, hc])
  | some c =>
    obtain ⟨hp,hl,ha⟩ := child_some hc
    rw [if_neg (by simp [hp, hl]), ha]
    refine (freeTable_released fun k _ m' _ _ => freePdSlot_released m' c k).congr fun f => ?_
    simp [Subtree, hc]

/-- A PML4 slot of the task is empty, or a table of its own. -/
def OwnSlot (m : Machine) (U i : ℕ) : Prop :=
  cell m U i = 0 ∨ ((child (cell m U i)).isSome ∧ cell m U i ≠ m.entry m.kernelPml4 i)

theorem freePml4Slot_released {U i : ℕ} (h : OwnSlot m U i) :
    Released (Subtree m U i 2) m (freePml4Slot (U*4096) m i) := by
  unfold freePml4Slot
  change Released _ m (if !present (cell m U i) || cell m U i == m.entry m.kernelPml4 i then m
    else ((List.range 512).foldl (freePdptSlot (tableAddr (cell m U i))) m).deallocate
      (tableAddr (cell m U i)))
  rcases h with hz | ⟨hs,hne⟩
  · have hc : child (cell m U i) = none := by
      rw [hz]
      exact child_zero
    rw [if_pos (by rw [hz, present_zero]; rfl)]
    exact (Released.empty m).congr (by simp [Subtree, hc])
  · obtain ⟨c,hc⟩ := Option.isSome_iff_exists.mp hs
    obtain ⟨hp,-,ha⟩ := child_some hc
    rw [if_neg (by simp [hp, hne]), ha]
    refine (freeTable_released fun j _ m' _ _ => freePdptSlot_released m' c j).congr fun f => ?_
    simp [Subtree, hc]

theorem freeUserPageTables_released {U : ℕ} (h : ∀ i < 512, OwnSlot m U i) :
    Released {f | Within child (cell m) U 3 512 f} m (freeUserPageTables m (U*4096)) := by
  refine freeTable_released fun i hi m' hm hk => freePml4Slot_released ?_
  have hentry : ∀ t j, m'.entry t j = m.entry t j := by
    intro t j
    unfold Machine.entry
    rw [hm]
  unfold OwnSlot cell
  rw [hentry, hentry, hk]
  exact h i hi

/-! ## Tables that hold anything -/

theorem foldl_releases {α : Type} {step : Machine → α → Machine}
    (h : ∀ m x, ∃ S, Released S m (step m x)) (xs : List α) (m : Machine) :
    ∃ S, Released S m (xs.foldl step m) := by
  induction xs generalizing m with
  | nil => exact ⟨∅,Released.empty m⟩
  | cons x xs ih =>
    obtain ⟨S,hS⟩ := h m x
    obtain ⟨T,hT⟩ := ih (step m x)
    exact ⟨S ∪ T,hS.trans hT⟩

theorem freeTable_releases (h : ∀ m i, ∃ S, Released S m (step m i)) (m : Machine) (t : ℕ) :
    ∃ S, Released S m (((List.range 512).foldl step m).deallocate t) := by
  obtain ⟨S,hS⟩ := foldl_releases h (List.range 512) m
  exact ⟨_,hS.trans (deallocate_released _ t)⟩

theorem freePdSlot_releases (pd : ℕ) (m : Machine) (i : ℕ) :
    ∃ S, Released S m (freePdSlot pd m i) := by
  unfold freePdSlot
  dsimp only
  split_ifs
  · exact ⟨∅,Released.empty m⟩
  · exact ⟨_,deallocate_released m _⟩

theorem freePdptSlot_releases (pdpt : ℕ) (m : Machine) (i : ℕ) :
    ∃ S, Released S m (freePdptSlot pdpt m i) := by
  unfold freePdptSlot
  dsimp only
  split_ifs
  · exact ⟨∅,Released.empty m⟩
  · exact freeTable_releases (freePdSlot_releases _) m _

theorem freePml4Slot_releases (pml4 : ℕ) (m : Machine) (i : ℕ) :
    ∃ S, Released S m (freePml4Slot pml4 m i) := by
  unfold freePml4Slot
  dsimp only
  split_ifs
  · exact ⟨∅,Released.empty m⟩
  · exact freeTable_releases (freePdptSlot_releases _) m _

theorem freeUserPageTables_releases (m : Machine) (pml4 : ℕ) :
    ∃ S, Released S m (freeUserPageTables m pml4) :=
  freeTable_releases (freePml4Slot_releases pml4) m pml4

/-! ## Build and teardown -/

/-- Give back the task's pages, then its tables. -/
def teardown (m : Machine) (root : ℕ) (frames : List (ℕ × ℕ × ℕ)) : Machine :=
  freeUserPageTables (frames.foldl (fun m f => m.deallocate f.2.2) m) root

theorem deallocate_records (m : Machine) (ds : List Mapping) :
    Released {f | f ∈ ds.map Mapping.frame} m
      ((ds.map Mapping.record).foldl (fun m f => m.deallocate f.2.2) m) := by
  rw [List.foldl_map]
  refine (Released.foldl (S := fun d : Mapping => {f | f = d.frame}) ds
    fun d _ m' _ _ => ?_).congr fun f => ?_
  · refine (deallocate_released m' _).congr fun f => ?_
    rw [Mapping.record, Nat.mul_div_cancel _ (by decide : 0 < 4096)]
  · simp only [Set.mem_ofPred_eq, List.mem_map]
    exact exists_congr fun d => and_congr Iff.rfl eq_comm

section
variable {m₀ m : Machine} {r U : ℕ} {owned : Finset ℕ} {done : List Mapping}

theorem ownSlot_of_userOk (ok : KernelOk m₀ r) (h : UserOk m₀ r m U owned done) {i : ℕ}
    (hi : i < 512) : OwnSlot m U i := by
  by_cases hi0 : i = 0
  · subst hi0
    obtain ⟨Q,hQ,hlink⟩ := h.link
    obtain ⟨K,-,hK,hKaddr⟩ := KernelOk.pdpt ok
    have hru : r ∈ used m₀ := ok.inUse [] r ⟨by simp,by simp⟩ rfl
    have hns : ¬Shared m₀ r r := by
      rintro ⟨j,k,hj,hk,hf⟩
      have := ok.separate _ _ r (path_three (by decide) hj hk) ⟨by simp,by simp⟩ hf
        (show node child (cell m₀) r [] = some r from rfl)
      simp at this
    have hkernel : m.entry m.kernelPml4 0 = tableEntry (K*4096) := by
      rw [h.kept.kernelPml4, ok.root, ← hK]
      exact h.kept.cell (by rintro (hn | hs); exacts [hn hru, hns hs]) (by decide)
    refine .inr ⟨by rw [hlink, child_tableEntryUser hQ]; rfl,?_⟩
    rw [hlink, hkernel]
    intro he
    have hu := congrArg user he
    rw [(tableEntryUser_spec hQ).2.2.1, (tableEntry_spec hKaddr).2.2.1] at hu
    cases hu
  · exact .inl (h.root i hi hi0)

theorem within_shared (h : UserOk m₀ r m U owned done) {f : ℕ} (hf : f ∈ used m₀) :
    Within child (cell m) U 3 512 f ↔ Shared m₀ r f := by
  constructor
  · rintro ⟨p,hp,hn⟩
    obtain ⟨hlen,hk⟩ := h.outside p f hp hn hf
    obtain ⟨i,j,k,rfl⟩ := List.length_eq_three.mp hlen
    have hi : i = 0 := by
      by_contra hne
      rw [node, h.root i (hp.2 i (by simp)) hne, child_zero] at hn
      cases hn
    subst hi
    exact ⟨j,k,hp.2 j (by simp),hp.2 k (by simp),hk⟩
  · rintro ⟨j,k,hj,hk,hn⟩
    exact ⟨[0,j,k],path_three (by decide) hj hk,h.shared j k f hj hk hn⟩

theorem ownSlot_released {S : Set ℕ} (ok : KernelOk m₀ r)
    (h : UserOk m₀ r m U owned done) (hr : Released S m m') {i : ℕ} (hi : i < 512) :
    OwnSlot m' U i := by
  have hs := ownSlot_of_userOk ok h hi
  unfold OwnSlot at hs ⊢
  rw [hr.cell, hr.kernelPml4, Machine.entry, hr.mem]
  exact hs

end

variable {frames : List (ℕ × ℕ × ℕ)}

/-- After build and teardown, what was used before is still used, except for
the kernel's last-level tables below PML4[0]. -/
theorem teardown_used {r root : ℕ} (ok : KernelOk m₀ r) (hlow : Low segments)
    (hc : createUserPageTables m₀ segments = some ((root,frames),m)) (f : ℕ) :
    f ∈ used (teardown m root frames) ↔ f ∈ used m₀ ∧ ¬Shared m₀ r f := by
  obtain ⟨U,ds,rfl,-,rfl,-,-,-,h⟩ := createUserPageTables_spec ok hlow.requests hc
  have hpages := deallocate_records m ds
  have hcell : cell ((ds.map Mapping.record).foldl (fun m f => m.deallocate f.2.2) m) = cell m := by
    funext t i
    exact hpages.cell t i
  have hfree := freeUserPageTables_released fun i hi => ownSlot_released ok h hpages hi
  rw [hcell] at hfree
  unfold teardown
  rw [hfree.used_iff, hpages.used_iff, h.used_iff]
  simp only [Set.mem_ofPred_eq, List.mem_toFinset]
  constructor
  · rintro ⟨⟨hu | hu | hu,hnot⟩,hw⟩
    · exact ⟨hu,fun hs => hw ((within_shared h hu).mpr hs)⟩
    · exact (hnot hu).elim
    · exact (hw hu).elim
  · rintro ⟨hu,hs⟩
    refine ⟨⟨.inl hu,fun hmem => ?_⟩,fun hw => hs ((within_shared h hu).mp hw)⟩
    exact (h.owned_fresh f (List.mem_toFinset.mpr hmem)).1 hu

/-- In a run, the kernel has shareable tables as soon as one page was mapped
through the first PML4 slot. -/
theorem shared_iff {h : List Call} {r : ℕ} (hr : Reached h m r) :
    (∃ f, Shared m r f) ↔ ∃ c ∈ h, pml4Idx c.virt = 0 := by
  constructor
  · rintro ⟨f,j,k,hj,hk,hf⟩
    obtain ⟨c,hc,hidx,-⟩ := (hr.opened 0 j k (by decide) hj hk).mp ⟨f,hf⟩
    exact ⟨c,hc,hidx⟩
  · rintro ⟨c,hc,hidx⟩
    obtain ⟨f,hf⟩ := (hr.opened 0 (pdptIdx c.virt) (pdIdx c.virt) (by decide) (pdptIdx_lt _)
      (pdIdx_lt _)).mpr ⟨c,hc,hidx,rfl,rfl⟩
    exact ⟨f,_,_,pdptIdx_lt _,pdIdx_lt _,hf⟩

theorem used_restored_iff {r root : ℕ} (ok : KernelOk m₀ r) (hlow : Low segments)
    (hc : createUserPageTables m₀ segments = some ((root,frames),m)) :
    used (teardown m root frames) = used m₀ ↔ ¬∃ f, Shared m₀ r f := by
  constructor
  · rintro he ⟨f,hs⟩
    obtain ⟨j,k,hj,hk,hf⟩ := hs
    have hu := ok.inUse _ f (path_three (by decide) hj hk) hf
    rw [← he, teardown_used ok hlow hc] at hu
    exact hu.2 ⟨j,k,hj,hk,hf⟩
  · intro hn
    ext f
    rw [teardown_used ok hlow hc]
    exact ⟨fun h => h.1,fun hu => ⟨hu,fun hs => hn ⟨f,hs⟩⟩⟩

/-- Build and teardown restore the used frames exactly when no page has been
mapped through the first PML4 slot. -/
theorem teardown_restores_frames_iff {m₀ m₁ m₂ : Machine} {h : List Call}
    {segments : List Segment} {root : ℕ} {frames : List (ℕ × ℕ × ℕ)} (hv : Valid m₀.frames)
    (hr : KernelRun m₀ h m₁) (hlow : Low segments)
    (hc : createUserPageTables m₁ segments = some ((root,frames),m₂)) :
    used (teardown m₂ root frames) = used m₁ ↔ ∀ c ∈ h, pml4Idx c.virt ≠ 0 := by
  obtain ⟨r,hreach⟩ := kernelRun_reached hv hr
  rw [used_restored_iff hreach.ok hlow hc, shared_iff hreach]
  simp only [not_exists, not_and, ne_eq]

theorem teardown_restores_frames_upper_slot : ∃ m₁ root frames m₂,
    KernelRun (bootMachine 0x900000 0x10000000) [.mapPage 0x8000000000] m₁ ∧
    createUserPageTables m₁ [⟨0x400000,0,8,16,5⟩] = some ((root,frames),m₂) ∧
    used (teardown m₂ root frames) = used m₁ := by
  obtain ⟨m₁,r,U,frames,m₂,ds,hr,-,hc,-⟩ := exists_task [.mapPage 0x8000000000] (by decide)
  refine ⟨m₁,U*4096,frames,m₂,hr,hc,?_⟩
  exact (teardown_restores_frames_iff (bootMachine_valid 0x900000 (by decide)) hr (by decide)
    hc).mpr (by decide)

/-- Mapping the local APIC makes the teardown of a task free a kernel table. -/
theorem teardown_frees_kernel_table : ∃ m₁ root frames m₂ f,
    KernelRun (bootMachine 0x900000 0x10000000) [.mapPageUc 0xFEE00000] m₁ ∧
    createUserPageTables m₁ [⟨0x400000,0,8,16,5⟩] = some ((root,frames),m₂) ∧
    (∃ r, m₁.kernelPml4 = r*4096 ∧ node child (cell m₁) r [0,3,503] = some f) ∧
    f ∈ used m₁ ∧ f ∉ used (teardown m₂ root frames) := by
  obtain ⟨m₁,r,U,frames,m₂,ds,hr,hreach,hc,-⟩ := exists_task [.mapPageUc 0xFEE00000] (by decide)
  obtain ⟨f,hf⟩ := (hreach.opened 0 3 503 (by decide) (by decide) (by decide)).mpr
    ⟨.mapPageUc 0xFEE00000,List.mem_cons_self,by decide⟩
  refine ⟨m₁,U*4096,frames,m₂,f,hr,hc,⟨r,hreach.ok.root,hf⟩,?_,fun hu => ?_⟩
  · exact hreach.ok.inUse _ f (path_three (by decide) (by decide) (by decide)) hf
  · exact ((teardown_used hreach.ok (by decide) hc f).mp hu).2
      ⟨3,503,by decide,by decide,hf⟩

end Zohara.Teardown
