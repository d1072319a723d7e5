import Zohara.Execve
import Zohara.SlotReuse

/-!
# User frames over a task's life

A life begins with a successful create_process. After that the task may replace
its address space any number of times, with any image and any answer, and
anything else may happen in between that leaves the task's record and root alone:
other tasks, ticks, memory writes. It ends with exit_current_task.

`out` is the set of frames that were handed out for the task's pages and its stack
and that the task's own calls have not passed to deallocate_frame since. A life
leaks nothing when `out` is inside the record at the exit.

The record holds 32 frames, and execve does not enter the stack page that it takes
from the frames of create_user_page_tables. So nothing is lost when the pages of a
program fit into the record and, at an execve, the frame loop takes all frames, the
stack page included; it then has a stack frame of its own, which is entered.

Two frames stand for the kernel. Exit skips a zero address, and it leaves a root
alone that is the kernel's; so frame 0 and the kernel's root have to stay in use.
-/
namespace Zohara.FrameOwnership
open FrameAllocator FrameRefinement PageEntry PageTables TableTree TableHeap KernelTables List Option
  KernelRuns UserTables SegmentPages Teardown ElfImage Tasks System Process Execve Runs

variable {segments : List Segment} {seg : ElfSegment} {s s' : System} {m m' m₀ : Machine}
  {elf : List UInt8} {l l' : Life} {args : List (List UInt8)}

/-! ## What the task is given -/

/-- The frames behind the pages of a new address space. -/
def builtFrames (m : Machine) (segments : List Segment) : List ℕ :=
  match createUserPageTables m segments with
  | some ((_,frames),_) => frames.map fun f => f.2.2
  | none => []

def createFrames (s : System) (elf : List UInt8) (base : ℕ) : List ℕ :=
  match parseElf elf base with
  | some (.ok image) => builtFrames s.machine (segmentsOf base image)
  | _ => []

/-- The stack frame that execve allocates when the frame loop leaves none. -/
def freshStack (s : System) (idx : ℕ) (image : Image) (elf : List UInt8) : List ℕ :=
  match createUserPageTables (releaseOld s idx).1 (image.segments.map execSegment) with
  | none => []
  | some ((_,frames),m) =>
    match fillImage elf image.segments frames m (releaseOld s idx).2 with
    | some ([],m,tracked) => (stackFrame [] m tracked).1.toList
    | _ => []

def execFrames (s : System) (idx : ℕ) (image : Image) (elf : List UInt8) : List ℕ :=
  builtFrames (releaseOld s idx).1 (image.segments.map execSegment)++freshStack s idx image elf

/-! ## What the task gives back -/

def releasedByExit (s : System) (idx : ℕ) : List ℕ := (s.tasks idx).userDataFrames.filter (· ≠ 0)

def releasedByExec (s : System) (idx : ℕ) : List ℕ :=
  if (s.tasks idx).pageTableRoot ≠ (s.tasks 0).pageTableRoot ∧ (s.tasks idx).pageTableRoot ≠ 0 then
    releasedByExit s idx
  else []

/-! ## Lives -/

structure Life where
  sys : System
  out : Finset ℕ

inductive Event where
  | replace (image : Image) (elf : List UInt8)
  | other

/-- What the rest of the system leaves alone. -/
structure Untouched (idx : ℕ) (s s' : System) : Prop where
  record : (s'.tasks idx).userDataFrames = (s.tasks idx).userDataFrames
  root : (s'.tasks idx).pageTableRoot = (s.tasks idx).pageTableRoot
  kernelRoot : (s'.tasks 0).pageTableRoot = (s.tasks 0).pageTableRoot

def Step (idx : ℕ) (l : Life) : Event → Life → Prop
  | .replace image elf,l' =>
    (∃ answer, replaceAddressSpace l.sys idx image elf = some (answer,l'.sys)) ∧
    l'.out = (l.out \ (releasedByExec l.sys idx).toFinset) ∪
      (execFrames l.sys idx image elf).toFinset
  | .other,l' => Untouched idx l.sys l'.sys ∧ l'.out = l.out

/-- Frame 0 and the kernel's root are in use. -/
structure KernelFrames (s : System) (m : Machine) : Prop where
  valid : Valid m.frames
  zero : 0 ∈ used m
  root : (s.tasks 0).pageTableRoot/4096 ∈ used m

def KernelFrame (s : System) (f : ℕ) : Prop := f = 0 ∨ f = (s.tasks 0).pageTableRoot/4096

/-- The kernel's two frames are in use, and neither the task's record nor its tables
hold one of them. -/
structure Intact (idx : ℕ) (s : System) : Prop where
  valid : Valid s.machine.frames
  inUse : ∀ f, KernelFrame s f → f ∈ used s.machine
  record : ∀ f, KernelFrame s f → ∀ pa ∈ (s.tasks idx).userDataFrames, pa ≠ 0 → pa/4096 ≠ f
  tables : ∃ U, (s.tasks idx).pageTableRoot = U*4096 ∧ (∀ i < 512, OwnSlot s.machine U i) ∧
    ∀ f, KernelFrame s f → ¬Within child (cell s.machine) U 3 512 f

/-- The addresses that the frame loop of one segment leaves. -/
def unfilledSegment (seg : ElfSegment) : List ℕ → List ℕ
  | [] => []
  | vaddr::rest =>
    if vaddr < seg.vaddr ∨ (seg.vaddr+seg.memsz)%2^64 ≤ vaddr then vaddr::rest
    else unfilledSegment seg rest

def unfilled (segments : List ElfSegment) (vaddrs : List ℕ) : List ℕ :=
  segments.foldl (fun rest seg => unfilledSegment seg rest) vaddrs

def execPages (image : Image) : List ℕ :=
  (userRequests (image.segments.map execSegment)).map fun q => q.1

/-- The frame loop takes all pages, the stack page included, and the record has room
for them and for one more. -/
def Recordable (image : Image) : Prop :=
  unfilled image.segments (execPages image) = [] ∧ (execPages image).length < maxUserFrames

instance (image : Image) : Decidable (Recordable image) := inferInstanceAs (Decidable (_ ∧ _))

def Condition (idx : ℕ) (l : Life) : Event → Prop
  | .replace image _ => Recordable image ∧ Intact idx l.sys
  | .other => True

def GoodStep (idx : ℕ) (l : Life) (e : Event) (l' : Life) : Prop :=
  Step idx l e l' ∧ Condition idx l e

/-! ## Building an address space only takes free frames -/

/-- Frames have been taken from the allocator, none has been given back. -/
structure Grows (m m' : Machine) : Prop where
  valid : Valid m'.frames
  used : used m ⊆ used m'

section
variable {m m' m'' : Machine}

theorem Grows.refl (h : Valid m.frames) : Grows m m := ⟨h,Finset.Subset.refl _⟩

theorem Grows.trans (h : Grows m m') (h' : Grows m' m'') : Grows m m'' :=
  ⟨h'.valid,h.used.trans h'.used⟩

theorem Grows.of_frames (h : Grows m m') (hf : m''.frames = m'.frames) : Grows m m'' := by
  refine ⟨by rw [hf]; exact h.valid,?_⟩
  have hu : TableHeap.used m'' = TableHeap.used m' := by
    unfold TableHeap.used
    rw [hf]
  rw [hu]
  exact h.used

theorem Allocated.grows {f : ℕ} (h : Allocated m f m') : Grows m m' := ⟨h.valid,h.subset⟩

section

variable (hv : Valid m.frames)
include hv

theorem splitBlock_grows {pd idx pt : ℕ} {link : ℕ → Entry}
    (h : splitBlock m pd idx link = some (pt,m')) : Grows m m' := by
  obtain ⟨⟨pa,m₁⟩,ha,he⟩ := bind_eq_some_iff.mp h
  obtain ⟨g,rfl,hal⟩ := allocTableOrHalt_some hv ha
  cases he
  refine (Allocated.grows hal).of_frames ?_
  rw [setEntry_frames, foldl_setEntry_frames, zeroTable_frames]

theorem mapUserPage_grows {pml4 virt pt : ℕ}
    (h : mapUserPage m pml4 virt = some (pt,m')) : Grows m m' := by
  unfold mapUserPage at h
  dsimp only at h
  split_ifs at h
  · exact splitBlock_grows hv h
  · cases h
    exact .refl hv

theorem mapFresh_grows {pml4 addr pa : ℕ} {leaf : ℕ → Entry}
    (h : mapFresh pml4 addr leaf m = some (pa,m')) :
    Grows m m' ∧ ∃ f, pa = f*4096 ∧ f ∉ used m := by
  obtain ⟨⟨fresh,m₁⟩,ha,h⟩ := bind_eq_some_iff.mp h
  obtain ⟨f,rfl,hal⟩ := allocTableOrHalt_some hv ha
  obtain ⟨⟨pt,m₂⟩,hu,h⟩ := bind_eq_some_iff.mp h
  cases h
  have hv₁ : Valid (m₁.zeroPage (f*4096)).frames := hal.valid
  have hg : Grows m (m₁.zeroPage (f*4096)) := (Allocated.grows hal).of_frames rfl
  exact ⟨(hg.trans (mapUserPage_grows hv₁ hu)).of_frames (setEntry_frames _ _ _ _),f,rfl,hal.fresh⟩

variable {frames : List (ℕ × ℕ × ℕ)}

theorem mapRequests_grows {pml4 : ℕ} {qs : List (ℕ × Bool × Bool)} (h : mapRequests pml4 qs m = some (frames,m')) :
    Grows m m' ∧ frames.map (fun f => f.1) = qs.map (fun q => q.1) ∧
      ∀ f ∈ frames, ∃ n, f.2.2 = n*4096 ∧ n ∉ used m := by
  induction qs generalizing m frames with
  | nil =>
    cases h
    exact ⟨.refl hv,rfl,by simp⟩
  | cons q qs ih =>
    obtain ⟨addr,w,x⟩ := q
    obtain ⟨⟨fresh,m₁⟩,hf,h⟩ := bind_eq_some_iff.mp h
    obtain ⟨⟨rest,m₂⟩,hr,h⟩ := bind_eq_some_iff.mp h
    cases h
    obtain ⟨hg,n,rfl,hn⟩ := mapFresh_grows hv hf
    obtain ⟨hg',haddr,hfresh⟩ := ih hg.valid hr
    refine ⟨hg.trans hg',?_,fun f hmem => ?_⟩
    · rw [map_cons, map_cons, haddr]
    · rcases mem_cons.mp hmem with rfl | hmem
      · exact ⟨n,rfl,hn⟩
      · obtain ⟨k,hk,hfree⟩ := hfresh f hmem
        exact ⟨k,hk,fun hu => hfree (hg.used hu)⟩

theorem cloneSlot_grows {kernelPdpt newPdpt idx : ℕ}
    (h : cloneSlot kernelPdpt newPdpt m idx = some m') : Grows m m' := by
  unfold cloneSlot at h
  dsimp only at h
  split_ifs at h
  · cases h
    exact .refl hv
  · cases h
    exact (Grows.refl hv).of_frames (setEntry_frames _ _ _ _)
  · obtain ⟨⟨pa,m₁⟩,ha,h⟩ := bind_eq_some_iff.mp h
    obtain ⟨g,rfl,hal⟩ := allocTableOrHalt_some hv ha
    cases h
    refine (Allocated.grows hal).of_frames ?_
    rw [setEntry_frames, foldl_setEntry_frames, zeroTable_frames]

theorem cloneSlots_grows {kernelPdpt newPdpt : ℕ} {js : List ℕ}
    (h : js.foldlM (cloneSlot kernelPdpt newPdpt) m = some m') : Grows m m' := by
  induction js generalizing m with
  | nil =>
    cases h
    exact .refl hv
  | cons j js ih =>
    obtain ⟨m₁,h₁,h⟩ := bind_eq_some_iff.mp h
    have hg := cloneSlot_grows hv h₁
    exact hg.trans (ih hg.valid h)

theorem cloneKernel_grows {pml4 : ℕ} (h : cloneKernel m = some (pml4,m')) :
    Grows m m' ∧ ∃ U, pml4 = U*4096 ∧ U ∉ used m := by
  obtain ⟨⟨pa,m₁⟩,ha,h⟩ := bind_eq_some_iff.mp h
  obtain ⟨U,rfl,hU⟩ := allocTableOrHalt_some hv ha
  obtain ⟨⟨pb,m₂⟩,hb,h⟩ := bind_eq_some_iff.mp h
  have hg₁ := (Allocated.grows hU).of_frames (zeroTable_frames m₁ (U*4096))
  obtain ⟨Q,rfl,hQ⟩ := allocTableOrHalt_some hg₁.valid hb
  obtain ⟨m₃,hc,h⟩ := bind_eq_some_iff.mp h
  cases h
  have hg₂ := hg₁.trans ((Allocated.grows hQ).of_frames (zeroTable_frames m₂ (Q*4096)))
  have hg₃ := hg₂.trans (cloneSlots_grows hg₂.valid hc)
  exact ⟨hg₃.of_frames (setEntry_frames _ _ _ _),U,rfl,hU.fresh⟩

theorem createUserPageTables_grows {root : ℕ}
    (h : createUserPageTables m segments = some ((root,frames),m')) :
    Grows m m' ∧ (∃ U, root = U*4096 ∧ U ∉ used m) ∧
      frames.map (fun f => f.1) = (userRequests segments).map (fun q => q.1) ∧
      ∀ f ∈ frames, ∃ n, f.2.2 = n*4096 ∧ n ∉ used m := by
  obtain ⟨⟨pml4,m₁⟩,h₁,h⟩ := bind_eq_some_iff.mp h
  obtain ⟨⟨fs,m₂⟩,h₂,h⟩ := bind_eq_some_iff.mp h
  cases h
  obtain ⟨hg,hU⟩ := cloneKernel_grows hv h₁
  obtain ⟨hg',haddr,hfresh⟩ := mapRequests_grows hg.valid h₂
  refine ⟨hg.trans hg',hU,haddr,fun f hf => ?_⟩
  obtain ⟨n,hn,hfree⟩ := hfresh f hf
  exact ⟨n,hn,fun hu => hfree (hg.used hu)⟩

end

end

/-! ## The frame loop and the record -/

theorem foldl_track (pas tracked : List ℕ) (h : tracked.length+pas.length ≤ maxUserFrames) :
    pas.foldl track tracked = tracked++pas := by
  induction pas generalizing tracked with
  | nil => simp
  | cons pa pas ih =>
    rw [length_cons] at h
    rw [foldl_cons, track, if_pos (by omega), ih]
    · simp
    · rw [length_append, length_singleton]
      omega

section
variable {elf : List UInt8} {frames rest : List (ℕ × ℕ × ℕ)} {m m' : Machine}
  {tracked tracked' : List ℕ}

theorem fillSegment_taken
    (h : fillSegment elf seg frames m tracked = some (rest,m',tracked')) :
    m'.frames = m.frames ∧ ∃ taken, frames = taken++rest ∧
      tracked' = (taken.map fun f => f.2.2).foldl track tracked ∧
      rest.map (fun f => f.1) = unfilledSegment seg (frames.map fun f => f.1) := by
  induction frames generalizing m tracked with
  | nil =>
    cases h
    exact ⟨rfl,[],rfl,rfl,rfl⟩
  | cons f frames ih =>
    obtain ⟨vaddr,size,pa⟩ := f
    rw [fillSegment] at h
    rw [map_cons, unfilledSegment]
    split_ifs at h ⊢ with hout
    · cases h
      exact ⟨rfl,[],rfl,rfl,rfl⟩
    · obtain ⟨m₁,h₁,h⟩ := bind_eq_some_iff.mp h
      obtain ⟨hf,taken,rfl,ht,hr⟩ := ih h
      exact ⟨hf.trans (fillFrame_frames h₁),(vaddr,size,pa)::taken,rfl,ht,hr⟩

theorem fillImage_taken {segments : List ElfSegment}
    (h : fillImage elf segments frames m tracked = some (rest,m',tracked')) :
    m'.frames = m.frames ∧ ∃ taken, frames = taken++rest ∧
      tracked' = (taken.map fun f => f.2.2).foldl track tracked ∧
      rest.map (fun f => f.1) = unfilled segments (frames.map fun f => f.1) := by
  induction segments generalizing frames m tracked with
  | nil =>
    cases h
    exact ⟨rfl,[],rfl,rfl,rfl⟩
  | cons seg segments ih =>
    obtain ⟨-,-,h⟩ := bind_eq_some_iff.mp h
    obtain ⟨⟨rest₁,m₁,tracked₁⟩,h₁,h⟩ := bind_eq_some_iff.mp h
    obtain ⟨hf₁,taken₁,rfl,rfl,hr₁⟩ := fillSegment_taken h₁
    obtain ⟨hf₂,taken₂,rfl,rfl,hr₂⟩ := ih h
    refine ⟨hf₂.trans hf₁,taken₁++taken₂,by rw [append_assoc],?_,?_⟩
    · rw [map_append, foldl_append]
    · rw [hr₂, hr₁]
      rfl

end

/-! ## Steps of a life -/

/-- What is out is recorded, under an address that exit does not skip, and the
record will be looked at. -/
structure Owned (idx : ℕ) (l : Life) : Prop where
  recorded : ∀ pa ∈ l.out, pa ∈ releasedByExit l.sys idx
  root : (l.sys.tasks idx).pageTableRoot ≠ (l.sys.tasks 0).pageTableRoot
  root_pos : (l.sys.tasks idx).pageTableRoot ≠ 0

theorem KernelFrames.ne_zero (h : KernelFrames s m) {n : ℕ}
    (hn : n ∉ used m) : n*4096 ≠ 0 := by
  intro hz
  have : n = 0 := by omega
  exact hn (this ▸ h.zero)

theorem KernelFrames.ne_root (h : KernelFrames s m) {n : ℕ}
    (hn : n ∉ used m) : n*4096 ≠ (s.tasks 0).pageTableRoot := by
  intro hr
  have : n = (s.tasks 0).pageTableRoot/4096 := by omega
  exact hn (this ▸ h.root)

variable {idx : ℕ}

theorem Intact.released (h : Intact idx s)
    (hown : (s.tasks idx).pageTableRoot ≠ (s.tasks 0).pageTableRoot ∧
      (s.tasks idx).pageTableRoot ≠ 0) : KernelFrames s (releaseOld s idx).1 := by
  obtain ⟨U,hU,hslots,hapart⟩ := h.tables
  have hrec := reclaim_released s.machine (s.tasks idx).userDataFrames
  have hcell : cell (reclaim s.machine (s.tasks idx).userDataFrames) = cell s.machine := by
    funext t i
    exact hrec.cell t i
  have hslots' : ∀ i < 512, OwnSlot (reclaim s.machine (s.tasks idx).userDataFrames) U i := by
    intro i hi
    have hs := hslots i hi
    unfold OwnSlot at hs ⊢
    rw [hcell, hrec.kernelPml4, Machine.entry, hrec.mem]
    exact hs
  have hfree := hrec.trans (freeUserPageTables_released hslots')
  rw [hcell, ← hU] at hfree
  have hrelease : (releaseOld s idx).1 = freeUserPageTables
      (reclaim s.machine (s.tasks idx).userDataFrames) (s.tasks idx).pageTableRoot := by
    unfold releaseOld
    dsimp only
    rw [if_pos hown]
  rw [hrelease]
  have hkeep : ∀ f, KernelFrame s f → f ∈ used (freeUserPageTables
      (reclaim s.machine (s.tasks idx).userDataFrames) (s.tasks idx).pageTableRoot) := by
    intro f hf
    refine (hfree.used_iff f).mpr ⟨h.inUse f hf,fun hin => ?_⟩
    rcases hin with ⟨pa,hpa,hne,rfl⟩ | hw
    · exact h.record _ hf pa hpa hne rfl
    · exact hapart f hf hw
  exact ⟨hfree.valid h.valid,hkeep 0 (.inl rfl),hkeep _ (.inr rfl)⟩

variable {image : Image}

/-- The stages of an execve, whatever its answer. -/
theorem replaceAddressSpace_stages
    {answer : Except String ℕ} (hidx : 0 < idx) (hmax : idx < maxTasks)
    (h : replaceAddressSpace s idx image elf = some (answer,s')) :
    ∃ newCr3 frames m rest m' tracked,
      createUserPageTables (releaseOld s idx).1 (image.segments.map execSegment) =
        some ((newCr3,frames),m) ∧
      fillImage elf image.segments frames m (releaseOld s idx).2 = some (rest,m',tracked) ∧
      (s'.tasks idx).userDataFrames = (stackFrame rest m' tracked).2.2 ∧
      (s'.tasks 0).pageTableRoot = (s.tasks 0).pageTableRoot ∧
      ((s'.tasks idx).pageTableRoot = newCr3 ∨
        (s'.tasks idx).pageTableRoot = (s.tasks idx).pageTableRoot) := by
  unfold replaceAddressSpace at h
  rw [if_neg (by omega)] at h
  obtain ⟨⟨⟨newCr3,frames⟩,m⟩,hc,h⟩ := bind_eq_some_iff.mp h
  obtain ⟨⟨rest,m',tracked⟩,hf,h⟩ := bind_eq_some_iff.mp h
  refine ⟨newCr3,frames,m,rest,m',tracked,hc,hf,?_⟩
  have h0 : 0 ≠ idx := by omega
  dsimp only at h
  generalize stackFrame rest m' tracked = st at h ⊢
  obtain ⟨page,m₁,tracked₁⟩ := st
  cases page with
  | none =>
    cases h
    rw [setTask_same, setTask_other _ h0]
    exact ⟨rfl,rfl,.inr rfl⟩
  | some page =>
    dsimp only at h
    obtain ⟨m₂,-,h⟩ := bind_eq_some_iff.mp h
    cases h
    rw [setTask_same, setTask_other _ h0]
    exact ⟨rfl,rfl,.inl rfl⟩

theorem builtFrames_eq {root : ℕ} (h : createUserPageTables m segments = some ((root,frames),m')) :
    builtFrames m segments = frames.map fun f => f.2.2 := by
  unfold builtFrames
  rw [h]

theorem stackFrame_recorded {tracked : List ℕ}
    (hk : KernelFrames s m₀) (hg : Grows m₀ m) (hf : m'.frames = m.frames)
    (hlen : tracked.length < maxUserFrames) :
    (stackFrame [] m' tracked).2.2 = tracked++(stackFrame [] m' tracked).1.toList ∧
      ∀ pa ∈ (stackFrame [] m' tracked).1.toList, pa ≠ 0 := by
  unfold stackFrame
  dsimp only
  cases ha : allocateFrame m'.frames with
  | mk f st =>
    cases f with
    | none => simp
    | some f =>
      have halloc : m'.allocTableOrHalt = some (startAddress .x86_64 f,{m' with frames := st}) := by
        unfold Machine.allocTableOrHalt
        rw [ha]
      have hg' := hg.of_frames hf
      obtain ⟨n,hn,hal⟩ := allocTableOrHalt_some hg'.valid halloc
      dsimp only
      rw [track, if_pos hlen, hn]
      refine ⟨rfl,fun pa hpa => ?_⟩
      rw [mem_singleton.mp hpa]
      exact hk.ne_zero fun hu => hal.fresh (hg'.used hu)

theorem replace_owned (hidx : 0 < idx)
    (hmax : idx < maxTasks) (ok : Owned idx l) (hs : Step idx l (.replace image elf) l')
    (hc : Condition idx l (.replace image elf)) : Owned idx l' := by
  obtain ⟨⟨answer,hexec⟩,hout⟩ := hs
  obtain ⟨⟨hfill,hlen⟩,hintact⟩ := hc
  have hbranch : (l.sys.tasks idx).pageTableRoot ≠ (l.sys.tasks 0).pageTableRoot ∧
      (l.sys.tasks idx).pageTableRoot ≠ 0 := ⟨ok.root,ok.root_pos⟩
  have hk := hintact.released hbranch
  obtain ⟨newCr3,frames,m,rest,m',tracked,hcreate,himage,hrec,hroot0,hroot⟩ :=
    replaceAddressSpace_stages hidx hmax hexec
  obtain ⟨hg,⟨U,rfl,hU⟩,haddr,hfresh⟩ := createUserPageTables_grows hk.valid hcreate
  obtain ⟨hframes,taken,hsplit,htracked,hrest⟩ := fillImage_taken himage
  have hold : (releaseOld l.sys idx).2 = [] := by
    unfold releaseOld
    dsimp only
    rw [if_pos hbranch]
  have hreleased : releasedByExec l.sys idx = releasedByExit l.sys idx := if_pos hbranch
  have hnone : rest = [] := by
    rw [haddr] at hrest
    rw [show unfilled image.segments ((userRequests (image.segments.map execSegment)).map
      fun q => q.1) = [] from hfill] at hrest
    exact map_eq_nil_iff.mp hrest
  subst hnone
  rw [append_nil] at hsplit
  subst hsplit
  have hcount : (frames.map fun f => f.2.2).length < maxUserFrames := by
    have hl := congrArg List.length haddr
    rw [length_map] at hl ⊢
    rw [hl]
    exact hlen
  rw [hold, foldl_track _ _ (by simpa using hcount.le), nil_append] at htracked
  obtain ⟨hstack,hnew⟩ := stackFrame_recorded hk hg hframes (htracked ▸ hcount)
  have hfresh' : freshStack l.sys idx image elf = (stackFrame [] m' tracked).1.toList := by
    unfold freshStack
    rw [hcreate]
    dsimp only
    rw [himage]
  refine ⟨fun pa hpa => ?_,?_,?_⟩
  · unfold releasedByExit
    rw [hrec, hstack, mem_filter]
    rw [hout, Finset.mem_union, Finset.mem_sdiff, List.mem_toFinset, List.mem_toFinset, hreleased,
      execFrames, mem_append, builtFrames_eq hcreate, ← htracked, hfresh'] at hpa
    rcases hpa with ⟨hmem,hno⟩ | hpa | hpa
    · exact absurd (ok.recorded pa hmem) hno
    · refine ⟨mem_append_left _ hpa,decide_eq_true ?_⟩
      rw [htracked] at hpa
      obtain ⟨f,hf,rfl⟩ := mem_map.mp hpa
      obtain ⟨n,hn,hfree⟩ := hfresh f hf
      rw [hn]
      exact hk.ne_zero hfree
    · exact ⟨mem_append_right _ hpa,decide_eq_true (hnew pa hpa)⟩
  · rw [hroot0]
    rcases hroot with hr | hr
    · rw [hr]
      exact hk.ne_root hU
    · rw [hr]
      exact ok.root
  · rcases hroot with hr | hr
    · rw [hr]
      exact hk.ne_zero hU
    · rw [hr]
      exact ok.root_pos

theorem other_owned (ok : Owned idx l) (hs : Step idx l .other l') : Owned idx l' := by
  obtain ⟨hu,hout⟩ := hs
  refine ⟨fun pa hpa => ?_,?_,?_⟩
  · unfold releasedByExit
    rw [hu.record]
    exact ok.recorded pa (hout ▸ hpa)
  · rw [hu.root, hu.kernelRoot]
    exact ok.root
  · rw [hu.root]
    exact ok.root_pos

theorem run_owned {l₀ : Life} {h : List Event} (hidx : 0 < idx) (hmax : idx < maxTasks)
    (ok : Owned idx l₀) (r : Run (GoodStep idx) l₀ h l) : Owned idx l := by
  induction r with
  | start => exact ok
  | @next _ _ _ e _ hs ih =>
    cases e with
    | replace image elf => exact replace_owned hidx hmax ih hs.1 hs.2
    | other => exact other_owned ih hs.1

/-! ## The exit -/

theorem exit_machine (hc : s.current ≠ 0) :
    s.exitCurrentTask.2.machine =
      if (s.tasks s.current).pageTableRoot ≠ (s.tasks 0).pageTableRoot ∧
          (s.tasks s.current).pageTableRoot ≠ 0 then
        freeUserPageTables (reclaim s.machine (s.tasks s.current).userDataFrames)
          (s.tasks s.current).pageTableRoot
      else reclaim s.machine (s.tasks s.current).userDataFrames := by
  unfold exitCurrentTask
  rw [if_neg hc]
  rfl

theorem exit_frees (hc : s.current ≠ 0) {pa : ℕ}
    (hpa : pa ∈ releasedByExit s s.current) : pa/4096 ∉ used s.exitCurrentTask.2.machine := by
  obtain ⟨hmem,hne⟩ := mem_filter.mp hpa
  have hfree : pa/4096 ∉ used (reclaim s.machine (s.tasks s.current).userDataFrames) := fun hu =>
    ((reclaim_released _ _).used_iff _).mp hu |>.2 ⟨pa,hmem,of_decide_eq_true hne,rfl⟩
  rw [exit_machine hc]
  split_ifs
  · obtain ⟨S,hS⟩ := freeUserPageTables_releases
      (reclaim s.machine (s.tasks s.current).userDataFrames) (s.tasks s.current).pageTableRoot
    exact fun hu => hfree ((hS.used_iff _).mp hu).1
  · exact hfree

theorem spawnUserspace_frames (s : System) (entry sp root : ℕ) (frames : List ℕ) :
    (s.spawnUserspace entry sp root frames).2.machine.frames = s.machine.frames := by
  unfold System.spawnUserspace
  cases s.freeSlot with
  | none => rfl
  | some j =>
    dsimp only
    rw [setTask_machine, setMem_machine]

theorem createProcess_record {base idx : ℕ} (hp : parseElf elf base = some (.ok image))
    (h : createProcess s elf base args = some (.ok idx,s')) :
    0 < idx ∧ idx < maxTasks ∧ ∃ root frames m m',
      createUserPageTables s.machine (segmentsOf base image) = some ((root,frames),m) ∧
      frames.foldlM (copyFrame elf (segmentsOf base image)) m = some m' ∧
      s'.machine.frames = m'.frames ∧ (s'.tasks idx).pageTableRoot = root ∧
      (s'.tasks idx).userDataFrames = (frames.map fun f => f.2.2).take maxUserFrames ∧
      (s'.tasks 0).pageTableRoot = (s.tasks 0).pageTableRoot := by
  obtain ⟨root,frames,m,m',hcreate,hcopy,hspawn⟩ := createProcess_spawns hp h
  have hslot := spawnUserspace_slot hspawn
  obtain ⟨hmax,hroot,-⟩ := spawnUserspace_ok hspawn
  have hm := mem_range'_1.mp (mem_of_find?_eq_some hslot)
  have hs' : s' = _ := (congrArg Prod.snd hspawn).symm
  have h0 := (SchedulerRuns.spawnUserspace_filled image.entryPoint stackVa root
    (frames.map fun f => f.2.2) hslot).others 0 (by omega)
  refine ⟨hm.1,hmax,root,frames,m,m',hcreate,hcopy,?_,hroot,?_,?_⟩
  · rw [hs', spawnUserspace_frames]
  · rw [hs', SlotHistory.spawnUserspace_record _ _ _ _ hslot]
  · rw [hs', h0]

theorem createFrames_length {base idx : ℕ} (hv : Valid s.machine.frames)
    (hp : parseElf elf base = some (.ok image))
    (h : createProcess s elf base args = some (.ok idx,s')) :
    (createFrames s elf base).length = (userRequests (segmentsOf base image)).length := by
  obtain ⟨-,-,root,frames,m,-,hcreate,-⟩ := createProcess_record hp h
  obtain ⟨-,-,haddr,-⟩ := createUserPageTables_grows hv hcreate
  have hl := congrArg List.length haddr
  rw [length_map, length_map] at hl
  unfold createFrames
  rw [hp]
  dsimp only
  rw [builtFrames_eq hcreate, length_map, hl]

/-- In every life whose programs fit into the record, and whose replaced images leave
no frame to the stack, exit passes on every frame that is still out. -/
theorem life_leaks_no_frame {s₀ s₁ : System} {elf : List UInt8} {base idx : ℕ}
    {args : List (List UInt8)} {image : Image} {h : List Event} {l : Life}
    (hk : KernelFrames s₀ s₀.machine) (hp : parseElf elf base = some (.ok image))
    (hc : createProcess s₀ elf base args = some (.ok idx,s₁))
    (hpages : (userRequests (segmentsOf base image)).length ≤ maxUserFrames)
    (r : Run (GoodStep idx) ⟨s₁,(createFrames s₀ elf base).toFinset⟩ h l)
    (hcur : l.sys.current = idx) :
    (∀ pa ∈ l.out, pa ∈ releasedByExit l.sys idx ∧
        pa/4096 ∉ used l.sys.exitCurrentTask.2.machine) ∧
      (l.sys.exitCurrentTask.2.tasks idx).state = .unused := by
  obtain ⟨hidx,hmax,root,frames,m,-,hcreate,-,-,hroot,hrec,hroot0⟩ := createProcess_record hp hc
  obtain ⟨-,⟨U,hU,hfree⟩,-,hfresh⟩ := createUserPageTables_grows hk.valid hcreate
  have hframes : createFrames s₀ elf base = frames.map fun f => f.2.2 := by
    unfold createFrames
    rw [hp]
    exact builtFrames_eq hcreate
  have hlen : (frames.map fun f => f.2.2).length ≤ maxUserFrames := by
    rw [← hframes, createFrames_length hk.valid hp hc]
    exact hpages
  have ok : Owned idx ⟨s₁,(createFrames s₀ elf base).toFinset⟩ := by
    refine ⟨fun pa hpa => ?_,?_,?_⟩
    · unfold releasedByExit
      dsimp only at hpa ⊢
      rw [hrec, take_of_length_le hlen, mem_filter]
      rw [List.mem_toFinset, hframes] at hpa
      refine ⟨hpa,decide_eq_true ?_⟩
      obtain ⟨f,hf,rfl⟩ := mem_map.mp hpa
      obtain ⟨n,hn,hfree⟩ := hfresh f hf
      rw [hn]
      exact hk.ne_zero hfree
    · dsimp only
      rw [hroot, hroot0, hU]
      exact hk.ne_root hfree
    · dsimp only
      rw [hroot, hU]
      exact hk.ne_zero hfree
  have hc0 : l.sys.current ≠ 0 := by omega
  refine ⟨fun pa hpa => ?_,((SlotHistory.exit_record hc0 idx).2).mpr (.inl hcur.symm)⟩
  have hrecorded := (run_owned hidx hmax ok r).recorded pa hpa
  exact ⟨hrecorded,exit_frees hc0 (hcur.symm ▸ hrecorded)⟩

theorem bootSystem_kernelFrames {r : ℕ} (ok : KernelOk m r)
    (ha : Apart (used (bootMachine 0x900000 0x10000000)) m r) :
    KernelFrames (bootSystem m) (bootSystem m).machine := by
  refine ⟨ok.valid,ha.1 ?_,?_⟩
  · exact (mem_usedFrames_boot (by decide)).mpr ⟨by decide,.inl (by decide)⟩
  · have hroot : ((bootSystem m).tasks 0).pageTableRoot = r*4096 := ok.root
    rw [hroot, Nat.mul_div_cancel r (by decide)]
    exact ok.inUse [] r ⟨by simp,by simp⟩ rfl

theorem untouched_switchTo (s : System) (i : ℕ) : Untouched i s (s.switchTo i) := by
  have hself : (s.switchTo i).tasks i = {s.tasks i with state := .running} := by
    unfold switchTo setTaskState
    dsimp only
    rw [setTask_same]
  refine ⟨by rw [hself],by rw [hself],?_⟩
  by_cases hi : 0 = i
  · rw [hi, hself]
  · rw [(SchedulerRuns.switchTo_tasks s i).2.2 0 hi]

/-- A program of one byte gives its page and its stack page back. -/
theorem one_page_life : ∃ m s₁ l,
    createProcess (bootSystem m) (buildFlatElf [0xC3] 0x400000) 0x800000 [[0x61]] = some (.ok 1,s₁) ∧
    Run (GoodStep 1) ⟨s₁,(createFrames (bootSystem m) (buildFlatElf [0xC3] 0x400000)
      0x800000).toFinset⟩ [.other] l ∧ l.out.Nonempty ∧
    (∀ pa ∈ l.out, pa ∈ releasedByExit l.sys 1 ∧
      pa/4096 ∉ used l.sys.exitCurrentTask.2.machine) ∧
    (l.sys.exitCurrentTask.2.tasks 1).state = .unused := by
  obtain ⟨m,r,s₁,-,ok,ha,hs₁⟩ := exists_flat_process [0xC3] [[0x61]] (by decide) (by decide)
  have hp : parseElf (buildFlatElf [0xC3] 0x400000) 0x800000 =
      some (.ok (flatImage [0xC3] 0x400000 0x800000)) :=
    parseElf_buildFlatElf [0xC3] 0x800000 (by decide) (by decide)
  have hk := bootSystem_kernelFrames ok ha
  have hpages : (userRequests (segmentsOf 0x800000 (flatImage [0xC3] 0x400000 0x800000))).length =
      2 := by
    rw [segmentsOf_flat _ (by decide)]
    decide
  have hlen := createFrames_length hk.valid hp hs₁
  rw [hpages] at hlen
  have hrun : Run (GoodStep 1) ⟨s₁,(createFrames (bootSystem m) (buildFlatElf [0xC3] 0x400000)
      0x800000).toFinset⟩ [.other] ⟨s₁.switchTo 1,_⟩ :=
    .next .start ⟨⟨untouched_switchTo s₁ 1,rfl⟩,trivial⟩
  refine ⟨m,s₁,_,hs₁,hrun,?_,life_leaks_no_frame hk hp hs₁ (by rw [hpages]; decide) hrun rfl⟩
  obtain ⟨pa,hpa⟩ := exists_mem_of_length_pos (by omega : 0 < (createFrames (bootSystem m)
    (buildFlatElf [0xC3] 0x400000) 0x800000).length)
  exact ⟨pa,List.mem_toFinset.mpr hpa⟩

/-! ## Programs of more than 32 pages -/

theorem tables_released {m'' : Machine} {r U : ℕ} {owned A : Finset ℕ} {S : Set ℕ}
    {done : List Mapping} (ok : KernelOk m₀ r) (h : UserOk m₀ r m U owned done)
    (ha : Apart A m₀ r) (hc : Confined (A : Set ℕ) m m') (hr : Released S m' m'') :
    Released {f | Within child (cell m) U 3 512 f} m'' (freeUserPageTables m'' (U*4096)) := by
  have hcell : ∀ p f i, Path 3 512 p → i < 512 → node child (cell m) U p = some f →
      cell m'' f i = cell m f i := by
    intro p f i hp hi hf
    rw [hr.cell]
    exact hc.cell (h.table_apart ha hp hf) hi
  have hown : ∀ i < 512, OwnSlot m'' U i := by
    intro i hi
    have hkernel : m''.entry m''.kernelPml4 i = m.entry m.kernelPml4 i := by
      rw [hr.kernelPml4, hc.kernelPml4, h.kept.kernelPml4, ok.root]
      change cell m'' r i = cell m r i
      rw [hr.cell]
      exact hc.cell (ha.2 [] r ⟨by simp,by simp⟩ rfl) hi
    have hs := ownSlot_of_userOk ok h hi
    unfold OwnSlot at hs ⊢
    rw [hkernel, hcell [] U i ⟨by simp,by simp⟩ hi rfl]
    exact hs
  refine (freeUserPageTables_released hown).congr fun f => exists_congr fun p => ?_
  refine and_congr_right fun hp => ?_
  rw [node_eq_of_agree (fun p f i hp _ hi hf => hcell p f i hp hi hf) hp]

theorem exit_leaks {s'' : System} {base idx r pa : ℕ} {A : Finset ℕ} (ok : KernelOk s.machine r)
    (ha : Apart A s.machine r) (hA : Reserved A s args)
    (hp : parseElf elf base = some (.ok image)) (hlow : Low (segmentsOf base image))
    (h : createProcess s elf base args = some (.ok idx,s')) (hu : Untouched idx s' s'')
    (hm : s''.machine = s'.machine) (hcur : s''.current = idx)
    (hpa : pa ∈ (createFrames s elf base).drop maxUserFrames) :
    pa ∉ releasedByExit s'' idx ∧ pa/4096 ∈ used s''.exitCurrentTask.2.machine := by
  obtain ⟨hidx,-,root,frames,m,m',hcreate,hcopy,hfr,hroot,hrec,-⟩ := createProcess_record hp h
  obtain ⟨frames₂,m₂,m₃,hcreate₂,hcopy₂,hconf⟩ := createProcess_ok hp hA h
  obtain ⟨hpair,rfl⟩ := Prod.mk.inj (some.inj (hcreate.symm.trans hcreate₂))
  obtain ⟨-,rfl⟩ := Prod.mk.inj hpair
  cases hcopy.symm.trans hcopy₂
  obtain ⟨U,ds,rfl,-,rfl,-,hnodup,hzero,hok⟩ := createUserPageTables_spec ok hlow.requests hcreate
  obtain ⟨hframes,hc,-⟩ := copyFrames_spec hcopy hnodup hzero.frames
  have hok' := hok.touch (hc.mono fun f hf => List.mem_toFinset.mpr hf) hframes
  have haddrs : createFrames s elf base = (ds.map Mapping.frame).map (·*4096) := by
    unfold createFrames
    rw [hp]
    dsimp only
    rw [builtFrames_eq hcreate, List.map_map, List.map_map]
    rfl
  have hrec' : (s''.tasks idx).userDataFrames =
      ((ds.map Mapping.frame).map (·*4096)).take maxUserFrames := by
    rw [hu.record, hrec, ← haddrs, createFrames, hp]
    dsimp only
    rw [builtFrames_eq hcreate]
  rw [haddrs] at hpa
  have hdistinct : ((ds.map Mapping.frame).map (·*4096)).Nodup :=
    hnodup.map fun a b hab => Nat.eq_of_mul_eq_mul_right (by decide : 0 < 4096) hab
  have hnot : pa ∉ ((ds.map Mapping.frame).map (·*4096)).take maxUserFrames := fun ht =>
    disjoint_take_drop hdistinct le_rfl ht hpa
  obtain ⟨F,hF,rfl⟩ := mem_map.mp (mem_of_mem_drop hpa)
  have howned : F ∈ (ds.map Mapping.frame).toFinset := List.mem_toFinset.mpr hF
  refine ⟨fun hin => hnot (hrec' ▸ mem_of_mem_filter hin),?_⟩
  have hused : F ∈ used (reclaim s''.machine (s''.tasks idx).userDataFrames) := by
    refine ((reclaim_released _ _).used_iff F).mpr ⟨?_,?_⟩
    · have hsame : used s''.machine = used m' := by
        unfold used
        rw [hm, hfr]
      rw [hsame]
      exact hok'.owned_used howned
    · rintro ⟨pa,hin,-,hF'⟩
      rw [hrec'] at hin
      obtain ⟨G,-,rfl⟩ := mem_map.mp (mem_of_mem_take hin)
      rw [Nat.mul_div_cancel G (by decide)] at hF'
      exact hnot (hF' ▸ hin)
  rw [Nat.mul_div_cancel F (by decide), exit_machine (by omega), hcur]
  split_ifs
  · rw [hu.root, hroot]
    have hconf' : Confined (A : Set ℕ) m' s''.machine := hm ▸ hconf
    refine ((tables_released ok hok' ha hconf' (reclaim_released _ _)).used_iff F).mpr ⟨hused,?_⟩
    rintro ⟨q,hq,hn⟩
    exact (hok'.owned_fresh F howned).2 q hq hn
  · exact hused

/-- A program of 33 pages keeps a frame after its exit. -/
theorem large_program_leaks : ∃ m s₁ l pa,
    createProcess (bootSystem m) (buildFlatElf (List.replicate 135168 0x90) 0x400000) 0x800000
      [[0x61]] = some (.ok 1,s₁) ∧
    Run (Step 1) ⟨s₁,(createFrames (bootSystem m) (buildFlatElf (List.replicate 135168 0x90)
      0x400000) 0x800000).toFinset⟩ [.other] l ∧ l.sys.current = 1 ∧ pa ∈ l.out ∧
    pa ∉ releasedByExit l.sys 1 ∧ pa/4096 ∈ used l.sys.exitCurrentTask.2.machine ∧
    (l.sys.exitCurrentTask.2.tasks 1).state = .unused := by
  have hcode : (List.replicate 135168 (0x90 : UInt8)).length = 135168 := length_replicate
  generalize List.replicate 135168 (0x90 : UInt8) = code at hcode
  obtain ⟨m,r,s₁,-,ok,ha,hs₁⟩ := exists_flat_process code [[0x61]] (by rw [hcode]; decide)
    (by rw [hcode]; decide)
  have hp : parseElf (buildFlatElf code 0x400000) 0x800000 =
      some (.ok (flatImage code 0x400000 0x800000)) :=
    parseElf_buildFlatElf code 0x800000 (by decide) (by rw [hcode]; decide)
  have hload : Loadable (buildFlatElf code 0x400000) 0x800000 (flatImage code 0x400000 0x800000) :=
    flat_loadable code (by decide) (by rw [hcode]; decide)
  have hlen := createFrames_length (s := bootSystem m) ok.valid hp hs₁
  rw [segmentsOf_flat _ (by decide), hcode] at hlen
  have hpages : (userRequests [⟨0x400000,120,135168,135168,7⟩]).length = 34 := by decide
  rw [hpages] at hlen
  have hrest : 0 < ((createFrames (bootSystem m) (buildFlatElf code 0x400000) 0x800000).drop
      maxUserFrames).length := by
    rw [length_drop, hlen]
    decide
  obtain ⟨pa,hpa⟩ := exists_mem_of_length_pos hrest
  obtain ⟨hnot,hused⟩ := exit_leaks (s := bootSystem m) ok ha (bootSystem_reserved m (by decide)) hp
    hload.low_segments hs₁ (untouched_switchTo s₁ 1) rfl rfl hpa
  refine ⟨m,s₁,⟨s₁.switchTo 1,_⟩,pa,hs₁,.next .start ⟨untouched_switchTo s₁ 1,rfl⟩,rfl,
    List.mem_toFinset.mpr (mem_of_mem_drop hpa),hnot,hused,?_⟩
  exact ((SlotHistory.exit_record (s := s₁.switchTo 1) Nat.one_ne_zero 1).2).mpr (.inl rfl)

/-- An image with its segment on the stack page leaves no frame of the loop. -/
example : Recordable ⟨0x500000,[⟨0x500000,0x500000,0x800078,1,4096,7⟩]⟩ := by decide

/-- An ordinary program leaves the stack page to the stack, and out of the record. -/
example : ¬Recordable (flatImage [0xC3] 0x400000 0x800000) := by decide

end Zohara.FrameOwnership
