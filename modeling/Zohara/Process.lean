import Mathlib.Data.List.Pairwise
import Zohara.ElfImage
import Zohara.Isolation
import Zohara.Tasks

/-!
# Process creation (src/process.rs)

create_process parses the file, builds the address space, copies the segments
into the new frames, writes the argument block and takes a task slot. It runs on
the kernel's tables, so frames are reached at their physical addresses and the
argument block goes to physical memory at the address of the stack page.

A frame is given the bytes of the first segment that starts exactly at the
frame's page, at most one page of them. What this leaves out of a segment reads
as zero.
-/
namespace Zohara.Process
open ByteMemory FrameAllocator FrameRefinement PageTables TableHeap KernelTables List Option
  KernelRuns UserTables SegmentPages Mmu Isolation ElfImage Tasks

variable {elf : List UInt8} {segments : List Segment} {m m' m₁ : Machine} {d : Mapping}
  {ds : List Mapping} {s s' : System} {args : List (List UInt8)} {seg : ElfSegment}

/-- `&elf_data[start..start + n]`, with no result when the range is invalid. -/
def sliceOf (elf : List UInt8) (start n : ℕ) : Option (List UInt8) :=
  let fin := (start+n)%2^64
  if fin < start ∨ elf.length < fin then none else some ((elf.drop start).take n)

/-- One round of the copy loop. -/
def copyFrame (elf : List UInt8) (segments : List Segment) (m : Machine)
    (frame : ℕ × ℕ × ℕ) : Option Machine :=
  match segments.find? fun s => s.vaddr == frame.1 with
  | none => some m
  | some s =>
    if s.filesz > 0 ∧ frame.2.1 > 0 then do
      let src ← sliceOf elf s.data (min frame.2.1 s.filesz)
      some {m with mem := write m.mem frame.2.2 src}
    else some m

/-- Pointer and string of one argument; the state is the next pointer cell and the
next free byte of the string area. -/
def pushArg (st : ℕ × ℕ × Memory) (arg : List UInt8) : ℕ × ℕ × Memory :=
  let mem := writeU64 st.2.2 st.1 (BitVec.ofNat 64 st.2.1)
  (st.1+8,st.2.1+arg.length+1,write mem st.2.1 (arg++[0]))

def headerSize (args : List (List UInt8)) : ℕ := 8+(args.length+1)*8+8

def setupUserStack (stackPage : ℕ) (args : List (List UInt8)) (mem : Memory) : ℕ × Memory :=
  let mem := writeU64 mem stackPage (BitVec.ofNat 64 args.length)
  let st := args.foldl pushArg (stackPage+8,stackPage+headerSize args,mem)
  let mem := writeU64 st.2.2 st.1 0
  (stackPage,writeU64 mem (st.1+8) 0)

/-- The tuples handed to create_user_page_tables. -/
def segmentsOf (base : ℕ) (image : Image) : List Segment :=
  image.segments.map fun seg => ⟨seg.vaddr,fileOffset base seg,seg.filesz,seg.memsz,seg.flags⟩

/-- The answer is `none` when the kernel stops: no frame is left, or a slice index
is out of range. -/
def createProcess (s : System) (elf : List UInt8) (base : ℕ) (args : List (List UInt8)) :
    Option (Except String ℕ × System) :=
  match parseElf elf base with
  | none => none
  | some (.error _) => some (.error "ELF parse failed",s)
  | some (.ok image) =>
    if image.segments.length = 0 then some (.error "no loadable segments",s) else do
    let segments := segmentsOf base image
    let ((ptRoot,frames),m) ← createUserPageTables s.machine segments
    let m ← frames.foldlM (copyFrame elf segments) m
    let stack := setupUserStack stackVa args m.mem
    let s : System := {s with machine := {m with mem := stack.2}}
    some (s.spawnUserspace image.entryPoint stack.1 ptRoot (frames.map fun f => f.2.2))

/-! ## The argument block -/

def blockSize (args : List (List UInt8)) : ℕ :=
  headerSize args+(args.map fun a => a.length+1).sum

theorem pushArgs_spec (args : List (List UInt8)) (st : ℕ × ℕ × Memory) :
    (args.foldl pushArg st).1 = st.1+8*args.length ∧
    ∀ lo hi x, lo ≤ st.1 → st.1+8*args.length ≤ hi → lo ≤ st.2.1 →
      st.2.1+(args.map fun a => a.length+1).sum ≤ hi → x < lo ∨ hi ≤ x →
      (args.foldl pushArg st).2.2 x = st.2.2 x := by
  induction args generalizing st with
  | nil => exact ⟨rfl,fun _ _ _ _ _ _ _ _ => rfl⟩
  | cons arg args ih =>
    obtain ⟨h₁,h₂⟩ := ih (pushArg st arg)
    rw [foldl_cons, length_cons, map_cons, sum_cons]
    have hpos : (pushArg st arg).1 = st.1+8 := rfl
    have hstr : (pushArg st arg).2.1 = st.2.1+arg.length+1 := rfl
    refine ⟨by omega,fun lo hi x hl hh hl' hh' hx => ?_⟩
    rw [h₂ lo hi x (by omega) (by omega) (by omega) (by omega) hx]
    change write (writeU64 st.2.2 st.1 _) st.2.1 (arg++[0]) x = st.2.2 x
    rw [write_outside _ (by rw [length_append, length_singleton]; omega),
      writeU64_outside _ _ (by omega)]

theorem setupUserStack_outside (page : ℕ) (args : List (List UInt8)) (mem : Memory) {x : ℕ}
    (hx : x < page ∨ page+blockSize args ≤ x) : (setupUserStack page args mem).2 x = mem x := by
  obtain ⟨h₁,h₂⟩ := pushArgs_spec args (page+8,page+headerSize args,
    writeU64 mem page (BitVec.ofNat 64 args.length))
  unfold setupUserStack
  unfold blockSize headerSize at hx
  unfold headerSize at h₁ h₂ ⊢
  dsimp only at h₁ h₂ ⊢
  rw [writeU64_outside _ _ (by omega), writeU64_outside _ _ (by omega),
    h₂ page (page+(8+(args.length+1)*8+8)+(args.map fun a => a.length+1).sum) x (by omega) (by omega)
      (by omega) (by omega) (by omega), writeU64_outside _ _ (by omega)]

/-! ## The copy loop -/

/-- What the copy loop leaves at offset `k` of the page at `addr`. -/
def pageByte (elf : List UInt8) (segments : List Segment) (addr k : ℕ) : UInt8 :=
  match segments.find? fun s => s.vaddr == addr with
  | none => 0
  | some s => if k < min 4096 s.filesz then elf.getD (s.data+k) 0 else 0

theorem sliceOf_some {src : List UInt8} {start n : ℕ} (hn : n ≤ 4096)
    (h : sliceOf elf start n = some src) :
    src.length = n ∧ ∀ k < n, src.getD k 0 = elf.getD (start+k) 0 := by
  unfold sliceOf at h
  dsimp only at h
  split_ifs at h with hr
  cases h
  have hlen : ((elf.drop start).take n).length = n := by
    rw [length_take, length_drop]
    omega
  refine ⟨hlen,fun k hk => ?_⟩
  rw [getD_eq_getElem?_getD, getD_eq_getElem?_getD, getElem?_take_of_lt hk,
    getElem?_drop]

theorem copyFrame_spec
    (h : copyFrame elf segments m d.record = some m')
    (hz : ∀ k < 4096, m.mem (d.frame*4096+k) = 0) :
    m'.frames = m.frames ∧ Confined {d.frame} m m' ∧
      ∀ k < 4096, m'.mem (d.frame*4096+k) = pageByte elf segments d.addr k := by
  unfold copyFrame Mapping.record at h
  unfold pageByte
  dsimp only at h
  cases hf : segments.find? fun s => s.vaddr == d.addr with
  | none =>
    simp only [hf] at h
    cases h
    exact ⟨rfl,.refl _ _,hz⟩
  | some s =>
    simp only [hf] at h
    split_ifs at h with hpos
    · obtain ⟨src,hsrc,h⟩ := bind_eq_some_iff.mp h
      obtain ⟨hlen,hbytes⟩ := sliceOf_some (Nat.min_le_left _ _) hsrc
      cases h
      refine ⟨rfl,⟨fun x hx => write_outside _ ?_,rfl⟩,fun k hk => ?_⟩
      · have hne : x/4096 ≠ d.frame := hx
        omega
      · dsimp only
        split_ifs with hlt
        · rw [write_inside _ _ (by omega), hbytes k hlt]
        · rw [write_outside _ (by omega)]
          exact hz k hk
    · cases h
      refine ⟨rfl,.refl _ _,fun k hk => ?_⟩
      dsimp only
      rw [if_neg (by omega)]
      exact hz k hk

/-- The frames of `ds` hold the given bytes, and nothing else has changed. -/
structure FramesHold (byte : Mapping → ℕ → UInt8) (ds : List Mapping) (m m' : Machine) : Prop where
  frames : m'.frames = m.frames
  confined : Confined {f | f ∈ ds.map Mapping.frame} m m'
  bytes : ∀ d ∈ ds, ∀ k < 4096, m'.mem (d.frame*4096+k) = byte d k

theorem FramesHold.nil (byte : Mapping → ℕ → UInt8) (m : Machine) : FramesHold byte [] m m :=
  ⟨rfl,.refl _ _,by simp⟩

theorem FramesHold.cons {byte : Mapping → ℕ → UInt8}
    (hnew : d.frame ∉ ds.map Mapping.frame)
    (hone : m₁.frames = m.frames ∧ Confined {d.frame} m m₁ ∧
      ∀ k < 4096, m₁.mem (d.frame*4096+k) = byte d k)
    (h : FramesHold byte ds m₁ m') : FramesHold byte (d::ds) m m' := by
  obtain ⟨hf₁,hc₁,hb₁⟩ := hone
  refine ⟨h.frames.trans hf₁,(hc₁.mono ?_).trans (h.confined.mono ?_),fun e he k hk => ?_⟩
  · intro f hf
    have hf' : f = d.frame := hf
    simp [hf']
  · intro f hf
    exact mem_cons_of_mem _ hf
  · rcases mem_cons.mp he with rfl | he
    · rw [h.confined.mem]
      · exact hb₁ k hk
      · intro hx
        have hx' : (e.frame*4096+k)/4096 ∈ ds.map Mapping.frame := hx
        rw [show (e.frame*4096+k)/4096 = e.frame by omega] at hx'
        exact hnew hx'
    · exact h.bytes e he k hk

theorem zeros_kept
    (hnew : d.frame ∉ ds.map Mapping.frame) (hc : Confined {d.frame} m m₁)
    (hz : ∀ e ∈ d::ds, ∀ k < 4096, m.mem (e.frame*4096+k) = 0) :
    ∀ e ∈ ds, ∀ k < 4096, m₁.mem (e.frame*4096+k) = 0 := by
  intro e he k hk
  rw [hc.mem]
  · exact hz e (mem_cons_of_mem _ he) k hk
  · intro hx
    have hx' : (e.frame*4096+k)/4096 = d.frame := hx
    refine hnew (mem_map.mpr ⟨e,he,?_⟩)
    omega

theorem copyFrames_spec
    (h : (ds.map Mapping.record).foldlM (copyFrame elf segments) m = some m')
    (hnodup : (ds.map Mapping.frame).Nodup)
    (hz : ∀ d ∈ ds, ∀ k < 4096, m.mem (d.frame*4096+k) = 0) :
    FramesHold (fun d => pageByte elf segments d.addr) ds m m' := by
  induction ds generalizing m with
  | nil =>
    cases h
    exact .nil _ _
  | cons d ds ih =>
    rw [map_cons, foldlM_cons] at h
    obtain ⟨m₁,h₁,h⟩ := bind_eq_some_iff.mp h
    rw [map_cons, nodup_cons] at hnodup
    have hone := copyFrame_spec h₁ (hz d mem_cons_self)
    exact .cons hnodup.1 hone (ih h hnodup.2 (zeros_kept hnodup.1 hone.2.1 hz))

/-! ## The new task -/

/-- The task stacks and the argument block are memory of the kernel. -/
structure Reserved (A : Finset ℕ) (s : System) (args : List (List UInt8)) : Prop where
  taskStacks : ∀ i < maxTasks, ∀ x, s.stackOf i ≤ x → x < s.stackOf i+stackSize → x/4096 ∈ A
  arguments : ∀ x, stackVa ≤ x → x < stackVa+blockSize args → x/4096 ∈ A

theorem spawnUserspace_slot {entry sp root i : ℕ} {frames : List ℕ}
    (h : s.spawnUserspace entry sp root frames = (.ok i,s')) : s.freeSlot = some i := by
  unfold System.spawnUserspace at h
  cases hslot : s.freeSlot with
  | none =>
    rw [hslot] at h
    cases h
  | some j =>
    rw [hslot] at h
    cases h
    rfl

theorem spawnUserspace_ok {entry sp root i : ℕ} {frames : List ℕ}
    (h : s.spawnUserspace entry sp root frames = (.ok i,s')) :
    i < maxTasks ∧ (s'.tasks i).pageTableRoot = root ∧
      s'.machine.kernelPml4 = s.machine.kernelPml4 ∧
      ∀ x, x < s.stackOf i ∨ s.stackOf i+stackSize ≤ x → s'.machine.mem x = s.machine.mem x := by
  have hslot := spawnUserspace_slot h
  have hm := mem_range'_1.mp (mem_of_find?_eq_some hslot)
  rw [System.spawnUserspace, hslot] at h
  obtain ⟨-,rfl⟩ := Prod.mk.inj h
  refine ⟨by unfold maxTasks at hm ⊢; omega,?_,?_,fun x hx => ?_⟩
  · rw [System.setTask_same]
  · rw [System.setTask_machine, System.setMem_machine]
  · rw [System.setTask_machine, System.setMem_machine, buildUserspaceFrame, System.stackTop]
    dsimp only
    exact (buildFrame_spec 0x23 sp 0x1B entry (s.stackOf i) s.machine.mem).2 x hx

theorem createProcess_spawns {base idx : ℕ} (hp : parseElf elf base = some (.ok image))
    (h : createProcess s elf base args = some (.ok idx,s')) : ∃ root frames m m',
      createUserPageTables s.machine (segmentsOf base image) = some ((root,frames),m) ∧
      frames.foldlM (copyFrame elf (segmentsOf base image)) m = some m' ∧
      System.spawnUserspace
        {s with machine := {m' with mem := (setupUserStack stackVa args m'.mem).2}}
        image.entryPoint stackVa root (frames.map fun f => f.2.2) = (.ok idx,s') := by
  unfold createProcess at h
  rw [hp] at h
  dsimp only at h
  rw [if_neg (fun hz => by rw [if_pos hz] at h; cases h)] at h
  obtain ⟨⟨⟨root,frames⟩,m⟩,hcreate,h⟩ := bind_eq_some_iff.mp h
  obtain ⟨m',hcopy,h⟩ := bind_eq_some_iff.mp h
  exact ⟨root,frames,m,m',hcreate,hcopy,some.inj h⟩

theorem createProcess_ok {base idx : ℕ}
    (hp : parseElf elf base = some (.ok image)) (hA : Reserved A s args)
    (h : createProcess s elf base args = some (.ok idx,s')) :
    ∃ frames m m', createUserPageTables s.machine (segmentsOf base image) =
        some (((s'.tasks idx).pageTableRoot,frames),m) ∧
      frames.foldlM (copyFrame elf (segmentsOf base image)) m = some m' ∧
      Confined (A : Set ℕ) m' s'.machine := by
  obtain ⟨root,frames,m,m',hcreate,hcopy,hspawn⟩ := createProcess_spawns hp h
  obtain ⟨hlt,hroot,hk,hmem⟩ := spawnUserspace_ok hspawn
  refine ⟨frames,m,m',by rw [hroot]; exact hcreate,hcopy,⟨fun x hx => ?_,hk⟩⟩
  have hx' : x/4096 ∉ A := hx
  have hstack : x < s.stackOf idx ∨ s.stackOf idx+stackSize ≤ x := by
    by_contra hin
    exact hx' (hA.taskStacks idx hlt x (by omega) (by omega))
  have hblock : x < stackVa ∨ stackVa+blockSize args ≤ x := by
    by_contra hin
    exact hx' (hA.arguments x (by omega) (by omega))
  rw [hmem x hstack]
  exact setupUserStack_outside _ _ _ hblock

theorem createProcess_reads {base idx r : ℕ} (ok : KernelOk s.machine r)
    (ha : Apart A s.machine r) (hA : Reserved A s args)
    (hp : parseElf elf base = some (.ok image)) (hlow : Low (segmentsOf base image))
    (h : createProcess s elf base args = some (.ok idx,s')) {va : ℕ}
    (hu : UserPage (segmentsOf base image) va) :
    readVirt s'.machine (s'.tasks idx).pageTableRoot va =
      some (pageByte elf (segmentsOf base image) (va/4096*4096) (va%4096)) := by
  obtain ⟨frames,m,m',hcreate,hcopy,hconf⟩ := createProcess_ok hp hA h
  obtain ⟨U,ds,hU,-,rfl,hreq,hnodup,hzero,hok⟩ := createUserPageTables_spec ok hlow.requests hcreate
  obtain ⟨hframes,hc,hbytes⟩ := copyFrames_spec hcopy hnodup hzero.frames
  have hok' := hok.touch (hc.mono fun f hf => mem_toFinset.mpr hf) hframes
  obtain ⟨d,hmem,hd,haddr,-⟩ := mappedAt_userPage hlow hreq hu
  have hva := hu.low hlow
  rw [hU, hok'.read_mapped ok ha hconf (by omega) hd, hbytes d hmem _ (Nat.mod_lt _ (by decide)),
    haddr]

/-! ## Images as a program expects them -/

def Inside (seg : ElfSegment) (a : ℕ) : Prop := seg.vaddr ≤ a ∧ a < seg.vaddr+seg.memsz

/-- Segments with consistent sizes, below 2 GiB, inside the file, and disjoint. -/
structure Loadable (elf : List UInt8) (base : ℕ) (image : Image) : Prop where
  sizes : ∀ seg ∈ image.segments, seg.filesz ≤ seg.memsz
  low : ∀ seg ∈ image.segments, seg.vaddr+seg.memsz ≤ 2^31
  inFile : ∀ seg ∈ image.segments, fileOffset base seg+seg.filesz ≤ elf.length
  disjoint : image.segments.Pairwise fun s t => ∀ a, ¬(Inside s a ∧ Inside t a)

/-- Through the tables at `root`, every segment reads as the file says. -/
structure Loaded (elf : List UInt8) (base : ℕ) (image : Image) (m : Machine) (root : ℕ) :
    Prop where
  bytes : ∀ seg ∈ image.segments, ∀ i < seg.filesz,
    readVirt m root (seg.vaddr+i) = some (elf.getD (fileOffset base seg+i) 0)
  zeros : ∀ seg ∈ image.segments, ∀ i, seg.filesz ≤ i → i < seg.memsz →
    readVirt m root (seg.vaddr+i) = some 0

/-- Byte `i` of the segment lies in its first page, the segment starts on a page
boundary, and no earlier segment has the same address. -/
def FirstPage (image : Image) (seg : ElfSegment) (i : ℕ) : Prop :=
  seg.vaddr%4096 = 0 ∧ i < 4096 ∧
    image.segments.find? (fun t => t.vaddr == seg.vaddr) = some seg

instance (image : Image) (seg : ElfSegment) (i : ℕ) : Decidable (FirstPage image seg i) :=
  inferInstanceAs (Decidable (_ ∧ _ ∧ _))

section
variable {elf : List UInt8} {base : ℕ} {image : Image}

theorem Loadable.low_segments (h : Loadable elf base image) : Low (segmentsOf base image) := by
  intro s hs
  obtain ⟨seg,hseg,rfl⟩ := mem_map.mp hs
  exact h.low seg hseg

theorem userPage_inside (hseg : seg ∈ image.segments) {a : ℕ} (ha : Inside seg a) :
    UserPage (segmentsOf base image) a := by
  refine .inl ⟨_,mem_map_of_mem hseg,?_⟩
  unfold Inside at ha
  unfold Covers
  dsimp only
  omega

theorem Loadable.unique (h : Loadable elf base image) {t : ElfSegment} {a : ℕ}
    (hseg : seg ∈ image.segments) (ht : t ∈ image.segments) (ha : Inside seg a)
    (ha' : Inside t a) : t = seg := by
  by_contra hne
  have hsymm : Std.Symm fun s t : ElfSegment => ∀ a, ¬(Inside s a ∧ Inside t a) :=
    ⟨fun s u hsu b hb => hsu b hb.symm⟩
  exact h.disjoint.forall ht hseg hne a ⟨ha',ha⟩

theorem find_segmentsOf (addr : ℕ) : (segmentsOf base image).find? (fun s => s.vaddr == addr) =
    (image.segments.find? fun t => t.vaddr == addr).map
      fun seg => ⟨seg.vaddr,fileOffset base seg,seg.filesz,seg.memsz,seg.flags⟩ := by
  unfold segmentsOf
  rw [find?_map]
  rfl

theorem pageByte_segment (h : Loadable elf base image)
    (hseg : seg ∈ image.segments) {i : ℕ} (hi : i < seg.memsz) :
    pageByte elf (segmentsOf base image) ((seg.vaddr+i)/4096*4096) ((seg.vaddr+i)%4096) =
      if i < seg.filesz ∧ FirstPage image seg i then elf.getD (fileOffset base seg+i) 0 else 0 := by
  unfold pageByte
  rw [find_segmentsOf]
  split_ifs with hc
  · obtain ⟨hf,halign,hpage,hfirst⟩ := hc
    rw [show (seg.vaddr+i)/4096*4096 = seg.vaddr by omega, hfirst,
      show (seg.vaddr+i)%4096 = i by omega]
    simp only [map_some]
    rw [if_pos (by omega)]
  · cases hfind : image.segments.find? fun t => t.vaddr == (seg.vaddr+i)/4096*4096 with
    | none => rfl
    | some t =>
      have htv : t.vaddr = (seg.vaddr+i)/4096*4096 := by simpa using find?_some hfind
      have htm := mem_of_find?_eq_some hfind
      simp only [map_some]
      split_ifs with hk
      · have hsize := h.sizes t htm
        obtain rfl : t = seg := by
          refine h.unique (a := seg.vaddr+i) hseg htm ?_ ?_
          · unfold Inside
            omega
          · unfold Inside
            omega
        rw [← htv] at hfind
        exact (hc ⟨by omega,by omega,by omega,hfind⟩).elim
      · rfl

end

/-- The new task reads its segments as the file says exactly when every byte that
is not zero lies in the first page of a segment that starts on a page boundary
and is the first one there. -/
theorem createProcess_loads_iff {s s' : System} {elf : List UInt8} {base idx r : ℕ}
    {args : List (List UInt8)} {image : Image} {A : Finset ℕ} (ok : KernelOk s.machine r)
    (ha : Apart A s.machine r) (hA : Reserved A s args)
    (hp : parseElf elf base = some (.ok image)) (hl : Loadable elf base image)
    (h : createProcess s elf base args = some (.ok idx,s')) :
    Loaded elf base image s'.machine (s'.tasks idx).pageTableRoot ↔
      ∀ seg ∈ image.segments, ∀ i < seg.filesz, elf.getD (fileOffset base seg+i) 0 ≠ 0 →
        FirstPage image seg i := by
  have hread : ∀ seg ∈ image.segments, ∀ i < seg.memsz,
      readVirt s'.machine (s'.tasks idx).pageTableRoot (seg.vaddr+i) = some
        (if i < seg.filesz ∧ FirstPage image seg i then elf.getD (fileOffset base seg+i) 0 else 0) := by
    intro seg hseg i hi
    have hu : UserPage (segmentsOf base image) (seg.vaddr+i) :=
      userPage_inside hseg ⟨by omega,by omega⟩
    rw [createProcess_reads ok ha hA hp hl.low_segments h hu, pageByte_segment hl hseg hi]
  constructor
  · intro hload seg hseg i hi hne
    have hb := hload.bytes seg hseg i hi
    rw [hread seg hseg i (hi.trans_le (hl.sizes seg hseg))] at hb
    by_contra hf
    rw [if_neg fun hc => hf hc.2] at hb
    exact hne (some.inj hb).symm
  · intro hall
    refine ⟨fun seg hseg i hi => ?_,fun seg hseg i hi hi' => ?_⟩
    · rw [hread seg hseg i (hi.trans_le (hl.sizes seg hseg))]
      by_cases hz : elf.getD (fileOffset base seg+i) 0 = 0
      · rw [hz, ite_self]
      · rw [if_pos ⟨hi,hall seg hseg i hi hz⟩]
    · rw [hread seg hseg i hi', if_neg (by omega)]

/-! ## Calls that complete -/

theorem sliceOf_eq {start n : ℕ} (hlen : elf.length < 2^64)
    (h : start+n ≤ elf.length) : sliceOf elf start n = some ((elf.drop start).take n) := by
  unfold sliceOf
  dsimp only
  rw [if_neg (by omega)]

theorem copyFrame_isSome (hlen : elf.length < 2^64)
    (hfile : ∀ s ∈ segments, s.data+s.filesz ≤ elf.length) (m : Machine) (frame : ℕ × ℕ × ℕ) :
    ∃ m', copyFrame elf segments m frame = some m' := by
  unfold copyFrame
  cases hf : segments.find? fun s => s.vaddr == frame.1 with
  | none => exact ⟨m,rfl⟩
  | some s =>
    have hs := hfile s (mem_of_find?_eq_some hf)
    dsimp only
    split_ifs with hpos
    · rw [sliceOf_eq hlen (by omega)]
      exact ⟨_,rfl⟩
    · exact ⟨m,rfl⟩

theorem copyFrames_isSome (hlen : elf.length < 2^64)
    (hfile : ∀ s ∈ segments, s.data+s.filesz ≤ elf.length) (frames : List (ℕ × ℕ × ℕ)) (m : Machine) :
    ∃ m', frames.foldlM (copyFrame elf segments) m = some m' := by
  induction frames generalizing m with
  | nil => exact ⟨m,rfl⟩
  | cons frame frames ih =>
    obtain ⟨m₁,h₁⟩ := copyFrame_isSome hlen hfile m frame
    obtain ⟨m₂,h₂⟩ := ih m₁
    refine ⟨m₂,?_⟩
    rw [foldlM_cons, h₁]
    exact h₂

theorem createProcess_loads {base r : ℕ} (args : List (List UInt8)) (ok : KernelOk s.machine r)
    (hp : parseElf elf base = some (.ok image)) (hl : Loadable elf base image)
    (hne : image.segments ≠ []) (hlen : elf.length < 2^64)
    (hroom : Room s.machine (514+2*(userRequests (segmentsOf base image)).length)) :
    ∃ m userSp root frames, createProcess s elf base args =
      some (({s with machine := m} : System).spawnUserspace image.entryPoint userSp root frames) := by
  obtain ⟨⟨⟨root,frames⟩,m⟩,hcreate⟩ := createUserPageTables_room ok hl.low_segments.requests hroom
  have hfile : ∀ t ∈ segmentsOf base image, t.data+t.filesz ≤ elf.length := by
    intro t ht
    obtain ⟨seg,hseg,rfl⟩ := mem_map.mp ht
    exact hl.inFile seg hseg
  obtain ⟨m',hcopy⟩ := copyFrames_isSome hlen hfile frames m
  unfold createProcess
  rw [hp]
  dsimp only
  rw [if_neg (fun hz => hne (length_eq_zero_iff.mp hz)), hcreate, bind_eq_bind,
    bind_some, hcopy, bind_eq_bind, bind_some]
  exact ⟨_,_,_,_,rfl⟩

theorem createProcess_completes {base r i : ℕ}
    (args : List (List UInt8)) (ok : KernelOk s.machine r)
    (hp : parseElf elf base = some (.ok image)) (hl : Loadable elf base image)
    (hne : image.segments ≠ []) (hlen : elf.length < 2^64)
    (hroom : Room s.machine (514+2*(userRequests (segmentsOf base image)).length))
    (hslot : s.freeSlot = some i) : ∃ s', createProcess s elf base args = some (.ok i,s') := by
  obtain ⟨m,userSp,root,frames,hspawn⟩ := createProcess_loads args ok hp hl hne hlen hroom
  have hslot' : System.freeSlot {s with machine := m} = some i := hslot
  rw [hspawn, System.spawnUserspace, hslot']
  exact ⟨_,rfl⟩

/-! ## Flat programs -/

section
variable (code : List UInt8) {loadAddr base : ℕ}

theorem flat_offset (hb : base < 2^64) : ((base+120)%2^64+2^64-base)%2^64 = 120 := by
  omega

theorem flat_loadable (hb : base < 2^64) (hlow : loadAddr+code.length ≤ 2^31) :
    Loadable (buildFlatElf code loadAddr) base (flatImage code loadAddr base) := by
  refine ⟨?_,?_,?_,pairwise_singleton _ _⟩
  · intro seg hs
    rw [mem_singleton.mp hs]
  · intro seg hs
    rw [mem_singleton.mp hs]
    exact hlow
  · intro seg hs
    rw [mem_singleton.mp hs, length_buildFlatElf]
    exact Nat.add_le_add_right (flat_offset hb).le _

theorem segmentsOf_flat (hb : base < 2^64) : segmentsOf base (flatImage code loadAddr base) =
    [⟨loadAddr,120,code.length,code.length,7⟩] := by
  unfold segmentsOf flatImage fileOffset
  rw [map_singleton]
  dsimp only
  rw [flat_offset hb]

end

/-- A freshly booted system whose kernel image ends at 9 MiB. -/
def bootSystem (m : Machine) : System :=
  (System.boot m (fun i => 0x100000+i*0x8000) 0 m.kernelPml4 0).initScheduler

theorem kernelImage_used {x : ℕ} (hx : x < 0x900000) :
    x/4096 ∈ used (bootMachine 0x900000 0x10000000) := by
  have hs : frameSize ≤ 0x10000000 := by decide
  have hcount : (boot .x86_64 0x900000 0x10000000).actualFrameCount = 0x10000 := by
    rw [boot_count _ hs]
    decide
  refine (mem_usedFrames_boot hs).mpr ⟨?_,.inl ?_⟩
  · rw [← boot_count 0x900000 hs, hcount]
    omega
  · unfold frameSize
    omega

theorem bootSystem_reserved (m : Machine) (h : blockSize args ≤ 4096) :
    Reserved (used (bootMachine 0x900000 0x10000000)) (bootSystem m) args := by
  refine ⟨fun i hi x hx hx' => kernelImage_used ?_,fun x hx hx' => kernelImage_used ?_⟩
  · have hst : (bootSystem m).stackOf i = 0x100000+i*0x8000 := rfl
    have hsz : stackSize = 0x8000 := rfl
    unfold maxTasks at hi
    omega
  · have hst : stackVa = 0x500000 := rfl
    omega

theorem exists_flat_process (code : List UInt8) (args : List (List UInt8))
    (hlow : code.length ≤ 0x100000)
    (hpages : (userRequests [⟨0x400000,120,code.length,code.length,7⟩]).length ≤ 200) :
    ∃ m r s', KernelRun (bootMachine 0x900000 0x10000000) [] m ∧ KernelOk m r ∧
      Apart (used (bootMachine 0x900000 0x10000000)) m r ∧
      createProcess (bootSystem m) (buildFlatElf code 0x400000) 0x800000 args =
        some (.ok 1,s') := by
  obtain ⟨m,r,hv,hr,hreach,hroom⟩ := exists_run [] (by decide)
  have hb : 0x800000 < 2^64 := by decide
  have hl : Loadable (buildFlatElf code 0x400000) 0x800000 (flatImage code 0x400000 0x800000) :=
    flat_loadable code hb (by omega)
  obtain ⟨s',hs'⟩ := createProcess_completes (s := bootSystem m) (i := 1) args hreach.ok
    (parseElf_buildFlatElf code 0x800000 (by decide) (by omega)) hl (by simp [flatImage])
    (by rw [length_buildFlatElf]; omega)
    (by rw [segmentsOf_flat code hb]; exact hroom.weaken (by omega)) rfl
  exact ⟨m,r,s',hr,hreach.ok,kernelRun_apart hv hr hreach.ok,hs'⟩

/-- A one-byte program is loaded. -/
theorem createProcess_loads_one_byte : ∃ m s',
    KernelRun (bootMachine 0x900000 0x10000000) [] m ∧
    createProcess (bootSystem m) (buildFlatElf [0xC3] 0x400000) 0x800000 [[0x61]] =
      some (.ok 1,s') ∧
    Loaded (buildFlatElf [0xC3] 0x400000) 0x800000 (flatImage [0xC3] 0x400000 0x800000)
      s'.machine (s'.tasks 1).pageTableRoot := by
  obtain ⟨m,r,s',hr,ok,ha,hs'⟩ := exists_flat_process [0xC3] [[0x61]] (by decide) (by decide)
  refine ⟨m,s',hr,hs',?_⟩
  refine (createProcess_loads_iff (s := bootSystem m) ok ha (bootSystem_reserved m (by decide))
    (parseElf_buildFlatElf [0xC3] 0x800000 (by decide) (by decide))
    (flat_loadable [0xC3] (by decide) (by decide)) hs').mpr ?_
  intro seg hseg i hi _
  rw [mem_singleton.mp hseg] at hi ⊢
  have hi' : i < 1 := hi
  exact ⟨by decide,by omega,by decide⟩

theorem flat_reads_zero {code : List UInt8} {loadAddr base idx r i : ℕ} (ok : KernelOk s.machine r)
    (ha : Apart A s.machine r) (hA : Reserved A s args) (hb : base < 2^64)
    (hlow : loadAddr+code.length ≤ 2^31)
    (h : createProcess s (buildFlatElf code loadAddr) base args = some (.ok idx,s'))
    (hi : i < code.length) (hpage : 4096 ≤ i) :
    readVirt s'.machine (s'.tasks idx).pageTableRoot (loadAddr+i) = some 0 := by
  have hparse := parseElf_buildFlatElf code base (show loadAddr < 2^64 by omega) (by omega)
  have hl := flat_loadable code hb hlow
  have hmem : (⟨loadAddr,loadAddr,(base+120)%2^64,code.length,code.length,7⟩ : ElfSegment) ∈
      (flatImage code loadAddr base).segments := mem_singleton.mpr rfl
  have hu : UserPage (segmentsOf base (flatImage code loadAddr base)) (loadAddr+i) :=
    userPage_inside hmem ⟨Nat.le_add_right _ _,Nat.add_lt_add_left hi _⟩
  rw [createProcess_reads ok ha hA hparse hl.low_segments h hu, pageByte_segment hl hmem hi, if_neg]
  intro hc
  have := hc.2.2.1
  omega

/-- A program of one page and one byte: the byte in the second page is lost. -/
theorem createProcess_loses_second_page : ∃ m s' seg,
    KernelRun (bootMachine 0x900000 0x10000000) [] m ∧
    parseElf (buildFlatElf (List.replicate 4097 0x90) 0x400000) 0x800000 =
      some (.ok ⟨0x400000,[seg]⟩) ∧
    Loadable (buildFlatElf (List.replicate 4097 0x90) 0x400000) 0x800000 ⟨0x400000,[seg]⟩ ∧
    createProcess (bootSystem m) (buildFlatElf (List.replicate 4097 0x90) 0x400000) 0x800000
      [[0x61]] = some (.ok 1,s') ∧
    seg.vaddr = 0x400000 ∧ 4096 < seg.filesz ∧ fileOffset 0x800000 seg = 120 ∧
    (buildFlatElf (List.replicate 4097 0x90) 0x400000).getD (120+4096) 0 = 0x90 ∧
    readVirt s'.machine (s'.tasks 1).pageTableRoot (0x400000+4096) = some 0 := by
  have hbyte : (buildFlatElf (List.replicate 4097 0x90) 0x400000).getD (120+4096) 0 = 0x90 := by
    rw [getD_buildFlatElf, getD_replicate _ (by omega)]
  have hlen : (List.replicate 4097 (0x90 : UInt8)).length = 4097 := length_replicate
  generalize List.replicate 4097 (0x90 : UInt8) = code at hbyte hlen
  obtain ⟨m,r,s',hr,ok,ha,hs'⟩ := exists_flat_process code [[0x61]] (by rw [hlen]; decide)
    (by rw [hlen]; decide)
  have hlow : 0x400000+code.length ≤ 2^31 := by omega
  have hzero := flat_reads_zero (s := bootSystem m) (i := 4096) ok ha
    (bootSystem_reserved m (by decide)) (by decide) hlow hs' (by omega) le_rfl
  exact ⟨m,s',_,hr,parseElf_buildFlatElf code 0x800000 (by decide) (by omega),
    flat_loadable code (by decide) hlow,hs',rfl,by rw [hlen]; decide,flat_offset (by decide),hbyte,
    hzero⟩

end Zohara.Process
