import Zohara.Process
import Zohara.Teardown

/-!
# Replacing an address space (src/task.rs, replace_address_space)

execve frees the old address space of the task, builds a new one from the parsed
image and copies the file into it, walking the frames in the order in which
create_user_page_tables returned them. The frame after the last segment becomes
the stack: it is mapped once more, now executable too, and zeroed.

The parser stores in data_ptr the address of a segment's bytes, and this function
takes it for an offset into elf_data. A chunk that would lie behind the end of
the file is skipped without an error, so the page keeps its zeros.

As everywhere in this development the kernel reaches frames at their physical
addresses. The call runs on the tables that it has just released; what becomes of
the processor's own accesses when these frames are reused is not modelled.
-/
namespace Zohara.Execve
open ByteMemory FrameAllocator PageEntry PageTables TableTree TableHeap KernelTables List Option
  KernelRuns UserTables SegmentPages Mmu Teardown Isolation ElfImage Tasks Process

variable {elf : List UInt8} {seg : ElfSegment} {m m₀ : Machine} {d : Mapping} {ds : List Mapping}
  {segs : List ElfSegment}

/-- The data_ptr is taken for an offset. Only a panic of the slice can be noticed:
the bytes are not used. -/
def elfBytesForSeg (elf : List UInt8) (seg : ElfSegment) : Option (List UInt8) :=
  if (seg.dataPtr+seg.filesz)%2^64 ≤ elf.length then sliceOf elf seg.dataPtr seg.filesz
  else some []

/-- The body of the frame loop: the chunk of the file that belongs to one frame. -/
def fillFrame (elf : List UInt8) (seg : ElfSegment) (m : Machine) (vaddr physAddr : ℕ) :
    Option Machine :=
  let offsetInSeg := vaddr-seg.vaddr
  if offsetInSeg < seg.filesz then
    let copyStart := (seg.dataPtr+offsetInSeg)%2^64
    let copyLen := min 4096 (seg.filesz-offsetInSeg)
    if (copyStart+copyLen)%2^64 ≤ elf.length then do
      let src ← sliceOf elf copyStart copyLen
      some {m with mem := fill (write m.mem physAddr src) (physAddr+copyLen) (4096-copyLen) 0}
    else some m
  else some m

/-- Remember a frame for the clean-up, while there is room. -/
def track (frames : List ℕ) (physAddr : ℕ) : List ℕ :=
  if frames.length < maxUserFrames then frames++[physAddr] else frames

/-- The frame loop of one segment; it stops at the first frame that is not in the
segment's range. The first argument is what is left of user_phys_frames. -/
def fillSegment (elf : List UInt8) (seg : ElfSegment) : List (ℕ × ℕ × ℕ) → Machine → List ℕ →
    Option (List (ℕ × ℕ × ℕ) × Machine × List ℕ)
  | [],m,tracked => some ([],m,tracked)
  | (vaddr,size,physAddr)::rest,m,tracked =>
    if vaddr < seg.vaddr ∨ (seg.vaddr+seg.memsz)%2^64 ≤ vaddr then
      some ((vaddr,size,physAddr)::rest,m,tracked)
    else do
      let m ← fillFrame elf seg m vaddr physAddr
      fillSegment elf seg rest m (track tracked physAddr)

def fillImage (elf : List UInt8) : List ElfSegment → List (ℕ × ℕ × ℕ) → Machine → List ℕ →
    Option (List (ℕ × ℕ × ℕ) × Machine × List ℕ)
  | [],frames,m,tracked => some (frames,m,tracked)
  | seg::segments,frames,m,tracked => do
    let _ ← elfBytesForSeg elf seg
    let (frames,m,tracked) ← fillSegment elf seg frames m tracked
    fillImage elf segments frames m tracked

/-- Step 1: the machine and the frame list after the old address space is gone. -/
def releaseOld (s : System) (taskIdx : ℕ) : Machine × List ℕ :=
  let task := s.tasks taskIdx
  let kernelCr3 := (s.tasks 0).pageTableRoot
  if task.pageTableRoot ≠ kernelCr3 ∧ task.pageTableRoot ≠ 0 then
    (freeUserPageTables (System.reclaim s.machine task.userDataFrames) task.pageTableRoot,[])
  else (s.machine,task.userDataFrames)

/-- Step 5: the first frame that is left, or a fresh one. -/
def stackFrame (frames : List (ℕ × ℕ × ℕ)) (m : Machine) (tracked : List ℕ) :
    Option ℕ × Machine × List ℕ :=
  match frames with
  | frame::_ => (some frame.2.2,m,tracked)
  | [] =>
    match allocateFrame m.frames with
    | (some f,st) =>
      (some (startAddress .x86_64 f),{m with frames := st},
        track tracked (startAddress .x86_64 f))
    | (none,st) => (none,{m with frames := st},tracked)

/-- Map the stack page, clear it and store argc. -/
def mapStack (m : Machine) (newCr3 stackPage : ℕ) : Option Machine := do
  let (_,m) ← mapUserPage m newCr3 stackVa
  let (pt,m) ← mapUserPage m newCr3 stackVa
  let m := m.setEntry pt (ptIdx stackVa) (BitVec.ofNat 64 stackPage ||| 0x07#64)
  let m := m.zeroPage stackPage
  some {m with mem := writeU64 m.mem stackPage 0}

/-- The tuple handed to create_user_page_tables, with the absolute data_ptr. -/
def execSegment (seg : ElfSegment) : Segment :=
  ⟨seg.vaddr,seg.dataPtr,seg.filesz,seg.memsz,seg.flags⟩

def replaceAddressSpace (s : System) (taskIdx : ℕ) (image : Image) (elf : List UInt8) :
    Option (Except String ℕ × System) :=
  if taskIdx = 0 ∨ taskIdx ≥ maxTasks then some (.error "invalid task index",s) else do
  let old := releaseOld s taskIdx
  let ((newCr3,frames),m) ← createUserPageTables old.1 (image.segments.map execSegment)
  let (frames,m,tracked) ← fillImage elf image.segments frames m old.2
  match stackFrame frames m tracked with
  | (none,m,tracked) =>
    some (.error "no free frames for stack",({s with machine := m} : System).setTask taskIdx
      fun t => {t with userDataFrames := tracked})
  | (some stackPage,m,tracked) =>
    let m ← mapStack m newCr3 stackPage
    let userSp := stackVa+4096
    let frame := rebuildUserspaceFrame image.entryPoint userSp (s.stackTop taskIdx) m.mem
    some (.ok userSp,({s with machine := {m with mem := frame.2}, cr3 := newCr3} : System).setTask
      taskIdx fun t =>
        {t with pageTableRoot := newCr3, savedSp := frame.1, userDataFrames := tracked})

/-! ## The frame loop -/

/-- What the loop leaves at offset `k` of the frame that starts `off` bytes into the
segment. -/
def chunkByte (elf : List UInt8) (seg : ElfSegment) (off k : ℕ) : UInt8 :=
  if off < seg.filesz ∧
      ((seg.dataPtr+off)%2^64+min 4096 (seg.filesz-off))%2^64 ≤ elf.length ∧
      k < min 4096 (seg.filesz-off) then elf.getD ((seg.dataPtr+off)%2^64+k) 0
  else 0

theorem fillFrame_frames {elf : List UInt8} {seg : ElfSegment} {m m' : Machine} {vaddr physAddr : ℕ}
    (h : fillFrame elf seg m vaddr physAddr = some m') : m'.frames = m.frames := by
  unfold fillFrame at h
  dsimp only at h
  split_ifs at h
  · obtain ⟨src,-,h⟩ := bind_eq_some_iff.mp h
    cases h
    rfl
  all_goals
    cases h
    rfl

variable {out : List (ℕ × ℕ × ℕ) × Machine × List ℕ} {tracked : List ℕ}

/-- The stack page as it is mapped the second time. -/
def stackMapping (frame : ℕ) : Mapping := ⟨stackVa,true,true,frame⟩

/-- A loadable image whose segments start on page boundaries and keep away from the
stack page. -/
structure Runnable (elf : List UInt8) (base : ℕ) (image : Image) : Prop
    extends Loadable elf base image where
  aligned : ∀ seg ∈ image.segments, seg.vaddr%4096 = 0
  offStack : ∀ seg ∈ image.segments, ∀ i < seg.memsz, (seg.vaddr+i)/4096*4096 ≠ stackVa

section
variable {s s' : System} {idx base r sp : ℕ} {image : Image} {elf : List UInt8} {A : Finset ℕ}

theorem Runnable.low_segments (hl : Runnable elf base image) : Low (image.segments.map execSegment) := by
  intro t ht
  obtain ⟨seg,hseg,rfl⟩ := mem_map.mp ht
  exact hl.low seg hseg

/-- What the stages after create_user_page_tables leave. -/
structure Filled (m₀ : Machine) (r : ℕ) (image : Image) (elf : List UInt8) (U : ℕ)
    (ds : List Mapping) (d₀ : Mapping) (m : Machine) : Prop where
  requests : ds.map Mapping.request = userRequests (image.segments.map execSegment)
  distinct : (ds.map Mapping.frame).Nodup
  stack : d₀ ∈ ds
  addr : d₀.addr = stackVa
  ok : UserOk m₀ r m U (ds.map Mapping.frame).toFinset (stackMapping d₀.frame::ds.reverse)
  zeros : ∀ k < 4096, m.mem (d₀.frame*4096+k) = 0
  bytes : ∀ seg ∈ image.segments, ∀ d ∈ ds, Inside seg d.addr → d.frame ≠ d₀.frame → ∀ k < 4096,
    m.mem (d.frame*4096+k) = chunkByte elf seg (d.addr-seg.vaddr) k

variable {m₀ m m' : Machine} {U : ℕ} {ds : List Mapping} {d₀ : Mapping}

theorem Filled.mapped (h : Filled m₀ r image elf U ds d₀ m) (hl : Runnable elf base image)
    (hseg : seg ∈ image.segments) {i : ℕ} (hi : i < seg.memsz) :
    ∃ d ∈ ds, mappedAt (stackMapping d₀.frame::ds.reverse) ((seg.vaddr+i)/4096) = some d ∧
      d.addr = seg.vaddr+i/4096*4096 ∧ d.frame ≠ d₀.frame := by
  have halign := hl.aligned seg hseg
  have hoff := hl.offStack seg hseg i hi
  have hu : UserPage (image.segments.map execSegment) (seg.vaddr+i) := by
    refine .inl ⟨_,mem_map_of_mem hseg,?_⟩
    unfold Covers execSegment
    dsimp only
    omega
  obtain ⟨d,hd,hm,haddr,-⟩ := mappedAt_userPage hl.low_segments h.requests hu
  refine ⟨d,hd,?_,by omega,fun he => hoff ?_⟩
  · rw [mappedAt_cons, if_neg]
    · exact hm
    · intro he
      have he' : stackVa/4096 = (seg.vaddr+i)/4096 := he
      have hs : stackVa = 0x500000 := rfl
      omega
  · rw [← haddr, inj_on_of_nodup_map h.distinct hd h.stack he, h.addr]

theorem Filled.low (hl : Runnable elf base image) (hseg : seg ∈ image.segments)
    {i : ℕ} (hi : i < seg.memsz) : seg.vaddr+i < 2^39 := by
  have := hl.low seg hseg
  omega

end

theorem reclaim_released (m : Machine) (frames : List ℕ) :
    Released {f | ∃ pa ∈ frames, pa ≠ 0 ∧ f = pa/4096} m (System.reclaim m frames) := by
  refine Released.foldl frames (S := fun pa => {f | pa ≠ 0 ∧ f = pa/4096}) fun pa _ m' _ _ => ?_
  split_ifs with h
  · exact (deallocate_released m' pa).congr fun f => by simp [h]
  · exact (Released.empty m').congr fun f => by simp [h]

/-! ## Calls that complete -/

theorem fillFrame_isSome (hlen : elf.length < 2^64)
    (hw : seg.dataPtr+seg.filesz < 2^64) (m : Machine) (vaddr physAddr : ℕ) :
    ∃ m', fillFrame elf seg m vaddr physAddr = some m' := by
  unfold fillFrame
  dsimp only
  split_ifs with hoff hfile
  · rw [sliceOf_eq hlen (by omega)]
    exact ⟨_,rfl⟩
  · exact ⟨m,rfl⟩
  · exact ⟨m,rfl⟩

theorem fillSegment_isSome (hlen : elf.length < 2^64)
    (hw : seg.dataPtr+seg.filesz < 2^64) (frames : List (ℕ × ℕ × ℕ)) (m : Machine)
    (tracked : List ℕ) : ∃ out, fillSegment elf seg frames m tracked = some out := by
  induction frames generalizing m tracked with
  | nil => exact ⟨_,rfl⟩
  | cons frame frames ih =>
    obtain ⟨vaddr,size,physAddr⟩ := frame
    rw [fillSegment]
    split_ifs
    · exact ⟨_,rfl⟩
    · obtain ⟨m₁,h₁⟩ := fillFrame_isSome hlen hw m vaddr physAddr
      rw [h₁]
      exact ih m₁ (track tracked physAddr)

theorem fillImage_isSome (hlen : elf.length < 2^64)
    (hw : ∀ seg ∈ segs, seg.dataPtr+seg.filesz < 2^64) (frames : List (ℕ × ℕ × ℕ)) (m : Machine)
    (tracked : List ℕ) : ∃ out, fillImage elf segs frames m tracked = some out := by
  induction segs generalizing frames m tracked with
  | nil => exact ⟨_,rfl⟩
  | cons seg segs ih =>
    have hseg := hw seg mem_cons_self
    have hbytes : ∃ bytes, elfBytesForSeg elf seg = some bytes := by
      unfold elfBytesForSeg
      split_ifs
      · rw [sliceOf_eq hlen (by omega)]
        exact ⟨_,rfl⟩
      · exact ⟨_,rfl⟩
    obtain ⟨bytes,hbytes⟩ := hbytes
    obtain ⟨out,hout⟩ := fillSegment_isSome hlen hseg frames m tracked
    rw [fillImage, hbytes, bind_eq_bind, bind_some, hout, bind_eq_bind,
      bind_some]
    exact ih ((forall_mem_cons.mp hw).2) out.1 out.2.1 out.2.2

end Zohara.Execve
