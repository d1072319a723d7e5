import Zohara.Execve
import Zohara.TableAllocations

/-!
# Failed calls of replace_address_space

The call can fail before it does anything, with an index that names no task, and at one place after the
old address space is gone: when the frame loop has used up all frames of the new tables, so that there is
none left for the stack, and the allocator has none either. The new tables then stay allocated and the
task still has its old root.

A call that runs out of frames inside create_user_page_tables halts and has no answer. The allocator is
any valid one; tables and tasks are arbitrary.
-/
namespace Zohara.Execve
open FrameAllocator FrameRefinement PageTables TableTree TableHeap KernelTables List Option
  KernelRuns UserTables SegmentPages Teardown Isolation ElfImage Tasks Process Budget TableCost
  TableAllocations

variable {seg : ElfSegment} {elf : List UInt8} {m m' : Machine}

/-! ## The frames that the frame loop leaves -/

/-- The range test of the frame loop. -/
def claims (seg : ElfSegment) (addr : ℕ) : Bool :=
  !decide (addr < seg.vaddr ∨ (seg.vaddr+seg.memsz)%2^64 ≤ addr)

theorem claims_iff {addr : ℕ} :
    claims seg addr = true ↔ ¬(addr < seg.vaddr ∨ (seg.vaddr+seg.memsz)%2^64 ≤ addr) := by
  rw [claims, Bool.not_eq_true', decide_eq_false_iff_not]

/-- The pages that no segment takes, one segment after the other. -/
def unclaimed : List ElfSegment → List ℕ → List ℕ
  | [],addrs => addrs
  | seg::segments,addrs => unclaimed segments (addrs.dropWhile (claims seg))

variable {frames left : List (ℕ × ℕ × ℕ)}

theorem fillSegment_left {tracked tracked' : List ℕ}
    (h : fillSegment elf seg frames m tracked = some (left,m',tracked')) :
    left.map Prod.fst = (frames.map Prod.fst).dropWhile (claims seg) ∧ m'.frames = m.frames := by
  induction frames generalizing m tracked with
  | nil =>
    cases h
    exact ⟨rfl,rfl⟩
  | cons frame frames ih =>
    obtain ⟨vaddr,size,physAddr⟩ := frame
    rw [fillSegment] at h
    split_ifs at h with hout
    · cases h
      rw [map_cons, dropWhile_cons_of_neg fun hc => claims_iff.mp hc hout]
      exact ⟨rfl,rfl⟩
    · obtain ⟨m₁,h₁,h⟩ := bind_eq_some_iff.mp h
      obtain ⟨hleft,hframes⟩ := ih h
      refine ⟨?_,hframes.trans (fillFrame_frames h₁)⟩
      rw [hleft, map_cons, dropWhile_cons_of_pos (claims_iff.mpr hout)]

theorem fillImage_left {segs : List ElfSegment} {tracked tracked' : List ℕ}
    (h : fillImage elf segs frames m tracked = some (left,m',tracked')) :
    left.map Prod.fst = unclaimed segs (frames.map Prod.fst) ∧ m'.frames = m.frames := by
  induction segs generalizing frames m tracked with
  | nil =>
    cases h
    exact ⟨rfl,rfl⟩
  | cons seg segs ih =>
    obtain ⟨bytes,-,h⟩ := bind_eq_some_iff.mp h
    obtain ⟨⟨left₁,m₁,tracked₁⟩,h₁,h⟩ := bind_eq_some_iff.mp h
    obtain ⟨hleft₁,hframes₁⟩ := fillSegment_left h₁
    obtain ⟨hleft,hframes⟩ := ih h
    rw [hleft, hleft₁]
    exact ⟨rfl,hframes.trans hframes₁⟩

variable {frames : List (ℕ × ℕ × ℕ)}

theorem mapRequests_addrs {pml4 : ℕ} {reqs : List (ℕ × Bool × Bool)}
    (h : mapRequests pml4 reqs m = some (frames,m')) :
    frames.map Prod.fst = reqs.map Prod.fst := by
  induction reqs generalizing m m' frames with
  | nil =>
    cases h
    rfl
  | cons q reqs ih =>
    obtain ⟨addr,w,x⟩ := q
    obtain ⟨⟨pa,m₁⟩,-,h⟩ := bind_eq_some_iff.mp h
    obtain ⟨⟨rest,m₂⟩,h₂,h⟩ := bind_eq_some_iff.mp h
    cases h
    rw [map_cons, map_cons, ih h₂]

theorem createUserPageTables_addrs {segments : List Segment} {root : ℕ} (h : createUserPageTables m segments = some ((root,frames),m')) :
    frames.map Prod.fst = (userRequests segments).map Prod.fst := by
  obtain ⟨⟨pml4,m₁⟩,-,h⟩ := bind_eq_some_iff.mp h
  obtain ⟨⟨fs,m₂⟩,h₂,h⟩ := bind_eq_some_iff.mp h
  cases h
  exact mapRequests_addrs h₂

/-! ## The ends of a call -/

/-- The pages of the image that are left for the stack. -/
def stackPages (image : Image) : List ℕ :=
  unclaimed image.segments ((userRequests (image.segments.map execSegment)).map Prod.fst)

/-- create_user_page_tables completes and leaves a frame. -/
def SparesFrame (m : Machine) (segments : List Segment) : Prop :=
  ∃ res m', createUserPageTables m segments = some (res,m') ∧ 0 < free m'

theorem allocateFrame_free (hv : Sound m) :
    (∃ f st, allocateFrame m.frames = (some f,st) ∧ 0 < free m) ∨
      allocateFrame m.frames = (none,m.frames) ∧ free m = 0 := by
  have hiff := (allocTableOrHalt_costs hv).succeeds_iff
  unfold Machine.allocTableOrHalt at hiff
  rcases allocateFrame_either m.frames with ⟨w,f,he,-⟩ | he
  · rw [he] at hiff
    exact .inl ⟨f,_,he,hiff.mp ⟨_,rfl⟩⟩
  · rw [he] at hiff
    refine .inr ⟨he,Nat.eq_zero_of_not_pos fun hpos => ?_⟩
    obtain ⟨b,hb⟩ := hiff.mpr hpos
    cases hb

section
variable {s s' : System} {i : ℕ} {image : Image} {elf : List UInt8} {answer : Except String ℕ}

theorem releaseOld_valid (hv : Valid s.machine.frames) (i : ℕ) : Sound (releaseOld s i).1 := by
  unfold releaseOld
  dsimp only
  split_ifs
  · obtain ⟨S,hfree⟩ := freeUserPageTables_releases
      (System.reclaim s.machine (s.tasks i).userDataFrames) (s.tasks i).pageTableRoot
    exact hfree.valid ((reclaim_released _ _).valid hv)
  · exact hv

/-- The ends of a call for a task: the stack page is one of the new ones, or the allocator has one, or
the call fails with the new tables in use. -/
theorem replaceAddressSpace_ends (hv : Valid s.machine.frames) (hidx : ¬(i = 0 ∨ i ≥ maxTasks))
    (h : replaceAddressSpace s i image elf = some (answer,s')) :
    ∃ res m, createUserPageTables (releaseOld s i).1 (image.segments.map execSegment) = some (res,m) ∧
      ((stackPages image ≠ [] ∧ ∃ sp, answer = .ok sp) ∨
      (stackPages image = [] ∧ 0 < free m ∧ ∃ sp, answer = .ok sp) ∨
      (stackPages image = [] ∧ free m = 0 ∧ answer = .error "no free frames for stack" ∧
        used s'.machine = used m ∧ (s'.tasks i).pageTableRoot = (s.tasks i).pageTableRoot)) := by
  unfold replaceAddressSpace at h
  rw [if_neg hidx] at h
  dsimp only at h
  obtain ⟨⟨⟨newCr3,frames⟩,m₁⟩,h₁,h⟩ := bind_eq_some_iff.mp h
  obtain ⟨⟨left,m₂,tracked⟩,h₂,h⟩ := bind_eq_some_iff.mp h
  obtain ⟨hleft,hframes⟩ := fillImage_left h₂
  rw [createUserPageTables_addrs h₁] at hleft
  have hsound : Sound m₁ := createUserPageTables_frames (fun _ => allocateFrame_valid) h₁
    (releaseOld_valid hv i)
  refine ⟨_,m₁,h₁,?_⟩
  cases left with
  | cons frame left =>
    obtain ⟨m₃,-,h⟩ := bind_eq_some_iff.mp h
    cases h
    refine .inl ⟨fun hnil => ?_,_,rfl⟩
    rw [show unclaimed image.segments _ = [] from hnil] at hleft
    cases hleft
  | nil =>
    unfold stackFrame at h
    dsimp only at h
    rw [hframes] at h
    rcases allocateFrame_free hsound with ⟨f,st,he,hpos⟩ | ⟨he,hzero⟩
    · rw [he] at h
      obtain ⟨m₃,-,h⟩ := bind_eq_some_iff.mp h
      cases h
      exact .inr (.inl ⟨hleft.symm,hpos,_,rfl⟩)
    · rw [he] at h
      cases h
      refine .inr (.inr ⟨hleft.symm,hzero,rfl,rfl,?_⟩)
      simp [System.setTask]

/-- The machine when the old address space is gone. A call for an index that names no task does not get
that far. -/
def released (s : System) (i : ℕ) : Machine :=
  if i = 0 ∨ i ≥ maxTasks then s.machine else (releaseOld s i).1

/-- The task can go on after a call that turned `s` into `s'`: it has its root, no frame of the tables
below the root and none of its recorded frames has been given back, and no frame that the call took is
still in use. -/
structure CallerIntact (s : System) (i : ℕ) (s' : System) : Prop where
  root : (s'.tasks i).pageTableRoot = (s.tasks i).pageTableRoot
  tables : ∀ p f, Path 3 512 p →
    node child (cell s.machine) ((s.tasks i).pageTableRoot/4096) p = some f → f ∈ used s.machine →
    f ∈ used (released s i) ∧ f ∈ used s'.machine
  pages : ∀ pa ∈ (s.tasks i).userDataFrames, pa/4096 ∈ used s.machine →
    pa/4096 ∈ used (released s i) ∧ pa/4096 ∈ used s'.machine
  taken : used s'.machine ⊆ used (released s i)

variable {res : ℕ × List (ℕ × ℕ × ℕ)}

theorem not_intact (hidx : ¬(i = 0 ∨ i ≥ maxTasks))
    (hcreate : createUserPageTables (releaseOld s i).1 (image.segments.map execSegment) = some (res,m))
    (hused : used s'.machine = used m) : ¬CallerIntact s i s' := by
  intro hintact
  have hrel : released s i = (releaseOld s i).1 := if_neg hidx
  have htaken := hintact.taken
  rw [hrel, hused] at htaken
  exact absurd htaken (createUserPageTables_grows hcreate).not_subset

/-- A failed call leaves the caller as it was when the index is refused, when the segments leave a page
for the stack, or when the new tables leave a free frame. On sound kernel tables the last is a matter of
counting. -/
theorem replaceAddressSpace_failure_iff (hv : Valid s.machine.frames)
    (h : replaceAddressSpace s i image elf = some (answer,s')) :
    (((∃ e, answer = .error e) → CallerIntact s i s') ↔
      (i = 0 ∨ i ≥ maxTasks) ∨ stackPages image ≠ [] ∨
        SparesFrame (releaseOld s i).1 (image.segments.map execSegment)) ∧
    ∀ r, KernelOk (releaseOld s i).1 r →
      (∀ q ∈ userRequests (image.segments.map execSegment), Covered (releaseOld s i).1 q.1) →
      (SparesFrame (releaseOld s i).1 (image.segments.map execSegment) ↔
        tableCost (releaseOld s i).1 (image.segments.map execSegment) < free (releaseOld s i).1) := by
  refine ⟨?_,fun r ok hc => ?_⟩
  · by_cases hidx : i = 0 ∨ i ≥ maxTasks
    · unfold replaceAddressSpace at h
      rw [if_pos hidx] at h
      cases h
      have hsame : released s i = s.machine := if_pos hidx
      refine ⟨fun _ => .inl hidx,fun _ _ => ⟨rfl,fun p f _ _ hf => ?_,fun pa _ hf => ?_,?_⟩⟩
      · rw [hsame]
        exact ⟨hf,hf⟩
      · rw [hsame]
        exact ⟨hf,hf⟩
      · rw [hsame]
    · obtain ⟨res,m,hcreate,hends⟩ := replaceAddressSpace_ends hv hidx h
      rcases hends with ⟨hleft,sp,rfl⟩ | ⟨-,hpos,sp,rfl⟩ | ⟨hleft,hzero,rfl,hused,-⟩
      · exact ⟨fun _ => .inr (.inl hleft),fun _ he => by obtain ⟨e,he⟩ := he; cases he⟩
      · exact ⟨fun _ => .inr (.inr ⟨res,m,hcreate,hpos⟩),fun _ he => by obtain ⟨e,he⟩ := he; cases he⟩
      · constructor
        · intro hintact
          exact absurd (hintact ⟨_,rfl⟩) (not_intact hidx hcreate hused)
        · rintro (hbad | hne | ⟨res',m',hcreate',hpos⟩)
          · exact absurd hbad hidx
          · exact absurd hleft hne
          · rw [hcreate] at hcreate'
            cases hcreate'
            omega
  · have hcost := createUserPageTables_costs ok hc
    constructor
    · rintro ⟨res,m,hcreate,hpos⟩
      have hleft : free (releaseOld s i).1 = free m+_ := (hcost.takes _ hcreate).left
      omega
    · intro hlt
      obtain ⟨⟨res,m⟩,hcreate⟩ := hcost.enough hlt.le
      have hleft : free (releaseOld s i).1 = free m+_ := (hcost.takes _ hcreate).left
      exact ⟨res,m,hcreate,by omega⟩

theorem replaceAddressSpace_exhausted
    (hv : Valid s.machine.frames) (hidx : ¬(i = 0 ∨ i ≥ maxTasks)) (hlen : elf.length < 2^64)
    (hw : ∀ seg ∈ image.segments, seg.dataPtr+seg.filesz < 2^64)
    (hcreate : createUserPageTables (releaseOld s i).1 (image.segments.map execSegment) = some (res,m))
    (hpages : stackPages image = []) (hzero : free m = 0) :
    ∃ s', replaceAddressSpace s i image elf = some (.error "no free frames for stack",s') := by
  obtain ⟨root,frames⟩ := res
  obtain ⟨⟨left,m₂,tracked⟩,hfill⟩ := fillImage_isSome hlen hw frames m (releaseOld s i).2
  obtain ⟨hleft,hframes⟩ := fillImage_left hfill
  rw [createUserPageTables_addrs hcreate, show unclaimed image.segments _ = [] from hpages,
    map_eq_nil_iff] at hleft
  have hsound : Sound m := createUserPageTables_frames (fun _ => allocateFrame_valid) hcreate
    (releaseOld_valid hv i)
  have hnone : allocateFrame m₂.frames = (none,m.frames) := by
    rw [hframes]
    rcases allocateFrame_free hsound with ⟨f,st,-,hpos⟩ | ⟨he,-⟩
    · omega
    · exact he
  unfold replaceAddressSpace
  rw [if_neg hidx]
  dsimp only
  rw [hcreate, bind_eq_bind, bind_some]
  dsimp only
  rw [hfill, bind_eq_bind, bind_some, hleft]
  unfold stackFrame
  dsimp only
  rw [hnone]
  exact ⟨_,rfl⟩

end

/-- An index that names no task. -/
theorem replaceAddressSpace_index_zero : ∃ s',
    replaceAddressSpace (bootSystem (bootMachine 0x900000 0x10000000)) 0
      (flatImage [0xC3] 0x400000 0x800000) (buildFlatElf [0xC3] 0x400000) =
        some (.error "invalid task index",s') ∧
    CallerIntact (bootSystem (bootMachine 0x900000 0x10000000)) 0 s' := by
  have hcall : replaceAddressSpace (bootSystem (bootMachine 0x900000 0x10000000)) 0
      (flatImage [0xC3] 0x400000 0x800000) (buildFlatElf [0xC3] 0x400000) =
        some (.error "invalid task index",bootSystem (bootMachine 0x900000 0x10000000)) :=
    if_pos (.inl rfl)
  have hv : Valid (bootSystem (bootMachine 0x900000 0x10000000)).machine.frames :=
    bootMachine_valid 0x900000 (by decide)
  exact ⟨_,hcall,(replaceAddressSpace_failure_iff hv hcall).1.mpr (.inl (.inl rfl)) ⟨_,rfl⟩⟩

/-- The booted system with a running task in slot 1 that uses the kernel's tables. -/
def callerSystem (m : Machine) : System :=
  (bootSystem m).setTask 1 fun t => {t with state := .running, pageTableRoot := m.kernelPml4}

theorem releaseOld_caller (m : Machine) : (releaseOld (callerSystem m) 1).1 = m := by
  have hroot : ((callerSystem m).tasks 1).pageTableRoot =
      ((callerSystem m).tasks 0).pageTableRoot := rfl
  unfold releaseOld
  dsimp only
  rw [if_neg fun h => h.1 hroot]
  rfl

/-- A one-byte program at the address of the stack page takes both frames. With just the frames for its
tables left, the call fails and keeps all of them. -/
theorem replaceAddressSpace_keeps_tables : ∃ m₀ m s',
    KernelRun (bootMachine 0x900000 0x10000000) [] m₀ ∧ Relation.ReflTransGen TakesFrame m₀ m ∧
    parseElf (buildFlatElf [0xC3] 0x500000) 0x800000 =
      some (.ok (flatImage [0xC3] 0x500000 0x800000)) ∧
    replaceAddressSpace (callerSystem m) 1 (flatImage [0xC3] 0x500000 0x800000)
      (buildFlatElf [0xC3] 0x500000) = some (.error "no free frames for stack",s') ∧
    ¬CallerIntact (callerSystem m) 1 s' := by
  obtain ⟨m₀,r,hv,hr,hreach,hroom⟩ := exists_run [] (by decide)
  have hparse := parseElf_buildFlatElf [0xC3] 0x800000 (show 0x500000 < 2^64 by decide) (by decide)
  have hlow : Low [⟨0x500000,0x800078,1,1,7⟩] := by decide
  have hcost : tableCost m₀ [⟨0x500000,0x800078,1,1,7⟩] ≤ 1000 :=
    (tableCost_le m₀ _).trans (by decide)
  obtain ⟨m,hdrain,ok,hsame,hfree⟩ := exists_drained hreach.ok [⟨0x500000,0x800078,1,1,7⟩]
    (hcost.trans (free_of_room hroom))
  have hbuild := createUserPageTables_costs ok fun q hq =>
    (covered_iff ok).mpr (kernelCovers_low ok (hlow.requests q hq))
  obtain ⟨⟨⟨root,frames⟩,m₁⟩,hcreate⟩ := hbuild.enough (by omega)
  have hzero : free m = free m₁+tableCost m [⟨0x500000,0x800078,1,1,7⟩] :=
    (hbuild.takes _ hcreate).left
  have hidx : ¬((1 : ℕ) = 0 ∨ 1 ≥ maxTasks) := by decide
  have hcreate' : createUserPageTables (releaseOld (callerSystem m) 1).1
      ((flatImage [0xC3] 0x500000 0x800000).segments.map execSegment) = some ((root,frames),m₁) := by
    rw [releaseOld_caller]
    exact hcreate
  have hvm : Valid (callerSystem m).machine.frames := ok.valid
  have hlen : (buildFlatElf [0xC3] 0x500000).length < 2^64 := by
    rw [length_buildFlatElf]
    decide
  obtain ⟨s',hcall⟩ := replaceAddressSpace_exhausted hvm hidx hlen (by decide) hcreate' (by decide)
    (by omega)
  refine ⟨m₀,m,s',hr,hdrain,hparse,hcall,?_⟩
  obtain ⟨res,m₂,hcreate₂,hends⟩ := replaceAddressSpace_ends hvm hidx hcall
  rcases hends with ⟨-,sp,he⟩ | ⟨-,-,sp,he⟩ | ⟨-,-,-,hused,-⟩
  · cases he
  · cases he
  · exact not_intact hidx hcreate₂ hused

end Zohara.Execve
