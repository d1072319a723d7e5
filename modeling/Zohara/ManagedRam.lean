import Zohara.FrameRefinement

/-!
# Frames and the managed RAM

allocate_frame hands out tracked frames. set_total_ram tracks the whole frames
of the RAM size; reinit tracks whole words of 64 frames, so it may track frames
behind the end of RAM. The sizes for which it does not are those whose frame
count fills its last word.

Every tracked free frame is handed out by some sequence of calls, so nothing
weaker than the frame count keeps the answers inside.
-/
namespace Zohara.ManagedRam
open WordBitmap FrameAllocator FrameRefinement Runs

/-! ## Every free frame is handed out -/

/-- Calls of allocate_frame alone, with their answers. -/
def Allocation (s : State) (a : Option ℕ) (s' : State) : Prop := allocateFrame s = (a,s')

/-- The frames that are still free. -/
def freeFrames (s : State) : Finset ℕ := (Finset.range s.actualFrameCount) \ usedFrames s

variable {s : State} {f : ℕ}

theorem mem_freeFrames : f ∈ freeFrames s ↔ f < s.actualFrameCount ∧ member s.bitmap f = false := by
  rw [freeFrames, Finset.mem_sdiff, Finset.mem_range, mem_usedFrames]
  constructor
  · intro h
    refine ⟨h.1,?_⟩
    by_contra hm
    exact h.2 ⟨h.1,by simpa using hm⟩
  · intro h
    refine ⟨h.1,fun hu => ?_⟩
    rw [h.2] at hu
    cases hu.2

theorem freeFrames_setUsed {f w : ℕ} (hf : f < s.actualFrameCount) :
    freeFrames {setUsed f s with nextFree := w} = (freeFrames s).erase f := by
  have hc : (setUsed f s).actualFrameCount = s.actualFrameCount := setUsed_actualFrameCount f s
  have hu : usedFrames {setUsed f s with nextFree := w} = Insert.insert f (usedFrames s) :=
    usedFrames_setUsed hf
  unfold freeFrames
  rw [hu]
  change Finset.range (setUsed f s).actualFrameCount \ _ = _
  rw [hc, Finset.sdiff_insert]

theorem run_cons {s s₁ s' : State} {a : Option ℕ} {h : List (Option ℕ)} (hs : Allocation s a s₁)
    (r : Run Allocation s₁ h s') : Run Allocation s (h++[a]) s' := by
  induction r with
  | start => exact .next .start hs
  | next _ hstep ih => exact .next ih hstep

theorem allocate_reaches (hc : s.actualFrameCount ≤ 64*s.actualWords) (hf : f ∈ freeFrames s) :
    ∃ h s', Run Allocation s h s' ∧ (allocateFrame s').1 = some f := by
  generalize hn : (freeFrames s).card = n
  induction n generalizing s with
  | zero =>
    rw [Finset.card_eq_zero] at hn
    rw [hn] at hf
    cases hf
  | succ n ih =>
    obtain ⟨w,g,he,hg,hm⟩ | ⟨he,hall⟩ := allocateFrame_split hc
    · by_cases hgf : g = f
      · exact ⟨[],s,.start,by rw [he, hgf]⟩
      · have hfree := freeFrames_setUsed (w := w) hg
        have hmem : f ∈ freeFrames {setUsed g s with nextFree := w} := by
          rw [hfree]
          exact Finset.mem_erase.mpr ⟨fun h => hgf h.symm,hf⟩
        have hcard : (freeFrames {setUsed g s with nextFree := w}).card = n := by
          rw [hfree, Finset.card_erase_of_mem (mem_freeFrames.mpr ⟨hg,hm⟩), hn]
          rfl
        have hcount : (setUsed g s).actualFrameCount ≤ 64*(setUsed g s).actualWords := by
          rw [setUsed_actualFrameCount, setUsed_actualWords]
          exact hc
        obtain ⟨h,s',hr,ha⟩ := ih (s := {setUsed g s with nextFree := w}) hcount hmem hcard
        exact ⟨h++[some g],s',run_cons he hr,ha⟩
    · obtain ⟨hlt,hclear⟩ := mem_freeFrames.mp hf
      rw [hall f hlt] at hclear
      cases hclear

theorem allocation_used {s s' : State} {as : List (Option ℕ)} (hv : Valid s)
    (r : Run Allocation s as s') :
    Valid s' ∧ s'.actualFrameCount = s.actualFrameCount ∧ usedFrames s ⊆ usedFrames s' := by
  refine r.invariant (P := fun _ s' => Valid s' ∧ s'.actualFrameCount = s.actualFrameCount ∧
    usedFrames s ⊆ usedFrames s') ⟨hv,rfl,Finset.Subset.refl _⟩ fun _ s₁ a s₂ hp hs => ?_
  obtain ⟨hv₁,hc,hsub⟩ := hp
  obtain rfl : (allocateFrame s₁).2 = s₂ := congrArg Prod.snd hs
  refine ⟨allocateFrame_valid hv₁,(allocateFrame_count s₁).trans hc,hsub.trans ?_⟩
  cases a with
  | none => rw [allocateFrame_none hv₁ hs]
  | some f =>
    rw [(allocateFrame_some hv₁ hs).2.2]
    exact Finset.subset_insert _ _

/-- Later calls hand out exactly the frames that are free now. -/
theorem handedOut_iff (hv : Valid s) :
    (∃ as s', Run Allocation s as s' ∧ (allocateFrame s').1 = some f) ↔ f ∈ freeFrames s := by
  constructor
  · intro h
    obtain ⟨as,s',r,ha⟩ := h
    obtain ⟨hv',hc,hsub⟩ := allocation_used hv r
    obtain ⟨hlt,hn,-⟩ := allocateFrame_some hv' (Prod.ext ha rfl)
    rw [freeFrames, Finset.mem_sdiff, Finset.mem_range]
    exact ⟨by omega,fun hu => hn (hsub hu)⟩
  · exact allocate_reaches hv.covered

/-! ## Runs with given sizes -/

/-- The sizes given to reinit satisfy `Q`; nothing else is restricted. -/
def Sized (Q : ℕ → Prop) : Op → Prop
  | .reinit size => Q size
  | _ => True

def SizedStep (arch : Arch) (Q : ℕ → Prop) (s : State) (e : Op × Option ℕ) (s' : State) : Prop :=
  Sized Q e.1 ∧ exec arch e.1 s = (e.2,s')

/-- Every tracked frame lies inside the managed RAM. -/
def Exact (s : State) : Prop := s.actualFrameCount = s.totalRam/frameSize

/-- The size fills the last word of the bitmap. -/
def WholeWords (size : ℕ) : Prop := 64 ∣ min size (maxFrameCount*frameSize)/frameSize

instance (size : ℕ) : Decidable (WholeWords size) := inferInstanceAs (Decidable (64 ∣ _))

theorem allocateFrame_lt (h : (allocateFrame s).1 = some f) : f < s.actualFrameCount := by
  unfold allocateFrame at h
  dsimp only at h
  split at h
  · rename_i w g hs
    cases h
    exact (scanWords_some hs).1
  · split at h
    · rename_i w g hs
      cases h
      exact (scanWords_some hs).1
    · cases h

theorem exact_inside {arch : Arch} (h : Exact s)
    (hf : f < s.actualFrameCount) : startAddress arch f+frameSize ≤ ramBase arch+s.totalRam := by
  unfold Exact at h
  rw [h] at hf
  unfold startAddress
  unfold frameSize at hf ⊢
  omega

theorem exact_boot (arch : Arch) (kernelEnd size : ℕ) : Exact (boot arch kernelEnd size) := by
  have hmark : ∀ start fin s, Exact s → Exact (markUsed arch start fin s) := by
    intro start fin s hs
    obtain ⟨hc,hr⟩ := markUsed_frame arch start fin s
    unfold Exact at hs ⊢
    rw [hc, hr, hs]
  have hset : Exact (if (setTotalRam size {}).totalRam = 0 then
      setTotalRam (2^30) (setTotalRam size {}) else setTotalRam size {}) := by
    split_ifs <;> exact (setTotalRam_bounds _ _).2.1.symm
  unfold boot init
  dsimp only
  generalize (if (setTotalRam size {}).totalRam = 0 then
    setTotalRam (2^30) (setTotalRam size {}) else setTotalRam size {}) = s at hset ⊢
  have hclear : Exact {s with bitmap := fun w => if w < s.actualWords then 0 else s.bitmap w} := hset
  generalize ({s with bitmap := fun w => if w < s.actualWords then 0 else s.bitmap w} : State) = s'
    at hclear
  have hhint : ∀ (s : State) (n : ℕ), Exact s → Exact {s with nextFree := n} := fun _ _ hs => hs
  cases arch with
  | x86_64 => exact hhint _ _ (hmark 0 0x100000 _ (hmark _ kernelEnd s' hclear))
  | aarch64 => exact hhint _ _ (hmark _ kernelEnd s' hclear)

theorem reinit_exact {size : ℕ} (s : State) (h : WholeWords size) : Exact (reinit size s) := by
  obtain ⟨hr,-,hw,hc⟩ := reinit_eq size s
  unfold WholeWords at h
  rw [← hr] at h
  unfold Exact
  rw [hc, hw]
  omega

variable {Q : ℕ → Prop}

theorem sizedStep_exact {arch : Arch} (hQ : ∀ n, Q n → WholeWords n)
    {s s' : State} {e : Op × Option ℕ} (h : Exact s) (hs : SizedStep arch Q s e s') : Exact s' := by
  obtain ⟨op,out⟩ := e
  obtain ⟨hq,he⟩ := hs
  unfold Exact at h ⊢
  cases op with
  | markUsed start fin =>
    cases he
    obtain ⟨hc,hr⟩ := markUsed_frame arch start fin s
    rw [hc, hr, h]
  | allocateFrame =>
    obtain rfl : (allocateFrame s).2 = s' := congrArg Prod.snd he
    rw [allocateFrame_count, allocateFrame_totalRam, h]
  | deallocateFrame f =>
    cases he
    rw [deallocateFrame_actualFrameCount, deallocateFrame_totalRam, h]
  | reinit size =>
    cases he
    exact reinit_exact s (hQ size hq)

theorem run_allocations {arch : Arch} {s₀ s s' : State} {h : List (Op × Option ℕ)}
    {as : List (Option ℕ)} (r : Run (SizedStep arch Q) s₀ h s) (ra : Run Allocation s as s') :
    ∃ h', Run (SizedStep arch Q) s₀ h' s' := by
  induction ra with
  | start => exact ⟨h,r⟩
  | @next as s₁ s₂ a _ hs ih =>
    obtain ⟨h',r'⟩ := ih
    exact ⟨(Op.allocateFrame,a)::h',.next r' ⟨trivial,hs⟩⟩

theorem behind_tracked {size : ℕ} (s : State) (h : ¬WholeWords size) :
    (reinit size s).totalRam/frameSize < (reinit size s).actualFrameCount := by
  obtain ⟨hr,-,hw,hc⟩ := reinit_eq size s
  unfold WholeWords at h
  rw [← hr] at h
  rw [hc, hw]
  omega

/-- After a bad size some run hands out a frame behind the RAM. -/
theorem allocates_behind (arch : Arch) (s₀ : State) {size : ℕ} (hq : Q size)
    (hw : ¬WholeWords size) : ∃ h s f, Run (SizedStep arch Q) s₀ h s ∧
      (allocateFrame s).1 = some f ∧ ramBase arch+s.totalRam < startAddress arch f+frameSize := by
  have hbehind := behind_tracked s₀ hw
  obtain ⟨-,-,-,hc⟩ := reinit_eq size s₀
  generalize hs₁ : reinit size s₀ = s₁ at hbehind hc
  generalize hf : s₁.totalRam/frameSize = f at hbehind
  have r₁ : Run (SizedStep arch Q) s₀ [(.reinit size,none)] s₁ :=
    .next .start ⟨hq,by rw [← hs₁]; rfl⟩
  have r₂ : Run (SizedStep arch Q) s₀ [(.deallocateFrame f,none),(.reinit size,none)]
      (deallocateFrame f s₁) := .next r₁ ⟨trivial,rfl⟩
  have hfree : f ∈ freeFrames (deallocateFrame f s₁) := by
    refine mem_freeFrames.mpr ⟨by rw [deallocateFrame_actualFrameCount]; exact hbehind,?_⟩
    rw [member_deallocateFrame, decide_eq_true ⟨rfl,hbehind⟩]
    rfl
  obtain ⟨as,s,ra,ha⟩ := allocate_reaches (by
    rw [deallocateFrame_actualFrameCount, deallocateFrame_actualWords]
    omega) hfree
  obtain ⟨h,r⟩ := run_allocations r₂ ra
  have hram : s.totalRam = s₁.totalRam := by
    refine ra.invariant (P := fun _ s => s.totalRam = s₁.totalRam)
      (deallocateFrame_totalRam f s₁) fun _ s a s' hp hs => ?_
    obtain rfl : (allocateFrame s).2 = s' := congrArg Prod.snd hs
    exact (allocateFrame_totalRam s).trans hp
  refine ⟨h,s,f,r,ha,?_⟩
  rw [hram, ← hf]
  unfold startAddress frameSize
  omega

/-- In all runs whose resizes satisfy `Q` the frames handed out lie inside the managed
RAM, exactly when every such size is a whole number of bitmap words. -/
theorem allocations_inside_iff (arch : Arch) (kernelEnd size : ℕ) (Q : ℕ → Prop) :
    (∀ h s f, Run (SizedStep arch Q) (boot arch kernelEnd size) h s →
      (allocateFrame s).1 = some f → startAddress arch f+frameSize ≤ ramBase arch+s.totalRam) ↔
    ∀ n, Q n → WholeWords n := by
  constructor
  · intro hall n hq
    by_contra hw
    obtain ⟨h,s,f,r,ha,hlt⟩ := allocates_behind arch (boot arch kernelEnd size) hq hw
    have := hall h s f r ha
    omega
  · intro hQ h s f r ha
    have hex : Exact s := r.invariant (P := fun _ s => Exact s) (exact_boot arch kernelEnd size)
      fun _ _ _ _ hp hs => sizedStep_exact hQ hp hs
    exact exact_inside hex (allocateFrame_lt ha)

/-- With 1 GiB as the only size all answers stay inside. -/
theorem allocations_inside_gigabyte : ∀ h s f,
    Run (SizedStep .x86_64 (· = 2^30)) (boot .x86_64 0x900000 (2^30)) h s →
    (allocateFrame s).1 = some f →
    startAddress .x86_64 f+frameSize ≤ ramBase .x86_64+s.totalRam := by
  refine (allocations_inside_iff .x86_64 0x900000 (2^30) (· = 2^30)).mpr fun n hn => ?_
  rw [hn]
  decide

/-- One page of RAM: after reinit the next frame handed out is the second one. -/
theorem reinit_allocates_behind_ram : ∃ s,
    Run (SizedStep .x86_64 (· = 4096)) (boot .x86_64 0x900000 4096) [(.reinit 4096,none)] s ∧
    (allocateFrame s).1 = some 1 ∧ s.totalRam = 4096 ∧
    ¬startAddress .x86_64 1+frameSize ≤ ramBase .x86_64+s.totalRam := by
  refine ⟨reinit 4096 (boot .x86_64 0x900000 4096),.next .start ⟨rfl,rfl⟩,?_,?_,?_⟩ <;> decide

end Zohara.ManagedRam
