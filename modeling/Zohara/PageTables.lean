import Zohara.ByteMemory
import Zohara.FrameAllocator
import Zohara.PageEntry

/-!
# The x86_64 page-table code (src/arch/x86_64/paging.rs)

The machine is physical memory, the frame allocator and KERNEL_PML4_PA. The
kernel reaches every physical address through the identity mapping that `init`
installs, so a table pointer is a physical address and an entry access is an
eight-byte access of physical memory. Translation caches and the effect of a
changed identity mapping on the kernel's own later accesses are not modelled.

alloc_table_or_halt stops the processor when no frame is left: such a call has
no result, and the functions below answer `none`. All loops are list folds in
source order. Indices are masked to nine bits as in the source. The page loop of
a segment follows 64-bit wrapping; it is cut off after one page more than the
allocator can ever hand out, which is a call that has already halted.
-/
namespace Zohara.PageTables
open ByteMemory FrameAllocator PageEntry

structure Machine where
  mem : Memory
  frames : FrameAllocator.State
  kernelPml4 : ℕ

namespace Machine

def entry (m : Machine) (table idx : ℕ) : Entry := readU64 m.mem (table+8*idx)

def setEntry (m : Machine) (table idx : ℕ) (e : Entry) : Machine :=
  {m with mem := writeU64 m.mem (table+8*idx) e}

def zeroTable (m : Machine) (table : ℕ) : Machine :=
  (List.range 512).foldl (fun m i => m.setEntry table i 0) m

/-- write_bytes(pa, 0, 4096). -/
def zeroPage (m : Machine) (pa : ℕ) : Machine := {m with mem := fill m.mem pa 4096 0}

def allocTableOrHalt (m : Machine) : Option (ℕ × Machine) :=
  match allocateFrame m.frames with
  | (some f,s) => some (startAddress .x86_64 f,{m with frames := s})
  | (none,_) => none

def deallocate (m : Machine) (pa : ℕ) : Machine :=
  {m with frames := deallocateFrame (fromAddr .x86_64 pa) m.frames}

end Machine

def pml4Idx (virt : ℕ) : ℕ := (virt >>> 39) &&& 0x1FF
def pdptIdx (virt : ℕ) : ℕ := (virt >>> 30) &&& 0x1FF
def pdIdx (virt : ℕ) : ℕ := (virt >>> 21) &&& 0x1FF
def ptIdx (virt : ℕ) : ℕ := (virt >>> 12) &&& 0x1FF

/-- Follow a present entry, or install a zeroed table there. -/
def nextTable (m : Machine) (table idx : ℕ) : Option (ℕ × Machine) :=
  if present (m.entry table idx) then some (tableAddr (m.entry table idx),m)
  else do
    let (pa,m) ← m.allocTableOrHalt
    let m := m.zeroTable pa
    some (pa,m.setEntry table idx (tableEntry pa))

/-- Replace a 2 MiB block by a table of 512 identity pages; `link` builds the
entry that points to it. -/
def splitBlock (m : Machine) (pd idx : ℕ) (link : ℕ → Entry) : Option (ℕ × Machine) := do
  let base := blockAddr (m.entry pd idx)
  let (pt,m) ← m.allocTableOrHalt
  let m := m.zeroTable pt
  let m := (List.range 512).foldl
    (fun m i => m.setEntry pt i (page4k (base+i*0x1000) true false true)) m
  some (pt,m.setEntry pd idx (link pt))

/-- The common body of map_page and map_page_uc. -/
def mapWith (leaf : ℕ → Entry) (m : Machine) (virt : ℕ) : Option Machine := do
  let (pdpt,m) ← nextTable m m.kernelPml4 (pml4Idx virt)
  let (pd,m) ← nextTable m pdpt (pdptIdx virt)
  let pdEntry := m.entry pd (pdIdx virt)
  let (pt,m) ←
    if present pdEntry && large pdEntry then splitBlock m pd (pdIdx virt) tableEntry
    else nextTable m pd (pdIdx virt)
  some (m.setEntry pt (ptIdx virt) (leaf virt))

def mapPage (m : Machine) (virt : ℕ) : Option Machine :=
  mapWith (fun phys => page4k phys true false true) m virt

def mapPageUc (m : Machine) (virt : ℕ) : Option Machine := mapWith page4kUc m virt

/-- One page directory of 512 identity blocks, hung into the new PDPT. -/
def initDirectory (pdpt : ℕ) (m : Machine) (pdptIdx : ℕ) : Option Machine := do
  let (pd,m) ← m.allocTableOrHalt
  let m := m.setEntry pdpt pdptIdx (tableEntry pd)
  let m := m.zeroTable pd
  some ((List.range 512).foldl
    (fun m i => m.setEntry pd i (page2mb (pdptIdx*0x40000000+i*0x200000))) m)

def init (m : Machine) : Option Machine := do
  let (pml4,m) ← m.allocTableOrHalt
  let (pdpt,m) ← m.allocTableOrHalt
  let m := m.zeroTable pml4
  let m := m.setEntry pml4 0 (tableEntry pdpt)
  let m := m.zeroTable pdpt
  let m ← [0,1].foldlM (initDirectory pdpt) m
  some {m with kernelPml4 := pml4}

def userBaseVa : ℕ := 0x00400000

/-- The PDPT and the PD are followed without a present test. -/
def mapUserPage (m : Machine) (pml4 virt : ℕ) : Option (ℕ × Machine) :=
  let pdpt := tableAddr (m.entry pml4 (pml4Idx virt))
  let pd := tableAddr (m.entry pdpt (pdptIdx virt))
  let pdEntry := m.entry pd (pdIdx virt)
  if large pdEntry then splitBlock m pd (pdIdx virt) tableEntryUser
  else some (tableAddr pdEntry,m)

/-- The tuple (vaddr, data, filesz, memsz, flags) of a loadable segment. -/
structure Segment where
  vaddr : ℕ
  data : ℕ
  filesz : ℕ
  memsz : ℕ
  flags : BitVec 32
  deriving DecidableEq, Repr

/-- One PDPT slot of the kernel, cloned into the new PDPT. -/
def cloneSlot (kernelPdpt newPdpt : ℕ) (m : Machine) (idx : ℕ) : Option Machine :=
  let e := m.entry kernelPdpt idx
  if !present e then some m
  else if large e then some (m.setEntry newPdpt idx e)
  else do
    let kernelPd := tableAddr e
    let (newPd,m) ← m.allocTableOrHalt
    let m := m.zeroTable newPd
    let m := (List.range 512).foldl
      (fun m k => m.setEntry newPd k (m.entry kernelPd k)) m
    some (m.setEntry newPdpt idx (tableEntryUser newPd))

/-- Step 1 of create_user_page_tables: a new root with the kernel's low half. -/
def cloneKernel (m : Machine) : Option (ℕ × Machine) := do
  let (newPml4,m) ← m.allocTableOrHalt
  let m := m.zeroTable newPml4
  let kernelPdpt := tableAddr (m.entry m.kernelPml4 0)
  let (newPdpt,m) ← m.allocTableOrHalt
  let m := m.zeroTable newPdpt
  let m ← (List.range 512).foldlM (cloneSlot kernelPdpt newPdpt) m
  some (newPml4,m.setEntry newPml4 0 (tableEntryUser newPdpt))

/-- One zeroed frame, mapped at `addr` with the entry that `leaf` builds. -/
def mapFresh (pml4 addr : ℕ) (leaf : ℕ → Entry) (m : Machine) : Option (ℕ × Machine) := do
  let (fresh,m) ← m.allocTableOrHalt
  let m := m.zeroPage fresh
  let (pt,m) ← mapUserPage m pml4 addr
  some (fresh,m.setEntry pt (ptIdx addr) (leaf fresh))

/-- The addresses visited by `while addr < end { ...; addr += 0x1000 }`. -/
def pageWalk : ℕ → ℕ → ℕ → List ℕ
  | 0,_,_ => []
  | fuel+1,addr,fin =>
    if addr < fin then addr::pageWalk fuel ((addr+0x1000)%2^64) fin else []

def Segment.pages (s : Segment) : List ℕ :=
  if s.memsz = 0 then []
  else pageWalk (maxFrameCount+1) (s.vaddr/4096*4096) ((s.vaddr+s.memsz)%2^64)

def Segment.writable (s : Segment) : Bool := s.flags &&& 2#32 != 0
def Segment.executable (s : Segment) : Bool := s.flags &&& 1#32 != 0

/-- Every page to be mapped, with its permissions, in mapping order. -/
def Segment.requests (s : Segment) : List (ℕ × Bool × Bool) :=
  s.pages.map fun addr => (addr,s.writable,s.executable)

def stackVa : ℕ := userBaseVa+0x100000

/-- The segments' pages in order, then the stack page (writable, not executable). -/
def userRequests (segments : List Segment) : List (ℕ × Bool × Bool) :=
  segments.flatMap Segment.requests ++ [(stackVa,true,false)]

/-- Step 2 of create_user_page_tables: map the pages one by one and record
(address, 4096, frame) for each. -/
def mapRequests (pml4 : ℕ) : List (ℕ × Bool × Bool) → Machine →
    Option (List (ℕ × ℕ × ℕ) × Machine)
  | [],m => some ([],m)
  | (addr,w,x)::rest,m => do
    let (fresh,m) ← mapFresh pml4 addr (fun pa => page4k pa w true x) m
    let (frames,m) ← mapRequests pml4 rest m
    some ((addr,4096,fresh)::frames,m)

def createUserPageTables (m : Machine) (segments : List Segment) :
    Option ((ℕ × List (ℕ × ℕ × ℕ)) × Machine) := do
  let (pml4,m) ← cloneKernel m
  let (frames,m) ← mapRequests pml4 (userRequests segments) m
  some ((pml4,frames),m)

/-- Only the leaf's user bit is tested; upper levels need to be present. -/
def isUserMapped (m : Machine) (pml4 virt : ℕ) : Bool :=
  let e1 := m.entry pml4 (pml4Idx virt)
  if !present e1 then false else
  let e2 := m.entry (tableAddr e1) (pdptIdx virt)
  if !present e2 then false else
  let e3 := m.entry (tableAddr e2) (pdIdx virt)
  if !present e3 then false else
  if large e3 then user e3 else
  let e4 := m.entry (tableAddr e3) (ptIdx virt)
  if !present e4 then false else user e4

def freePdSlot (pd : ℕ) (m : Machine) (idx : ℕ) : Machine :=
  let e := m.entry pd idx
  if !present e || large e then m else m.deallocate (tableAddr e)

def freePdptSlot (pdpt : ℕ) (m : Machine) (idx : ℕ) : Machine :=
  let e := m.entry pdpt idx
  if !present e || large e then m
  else ((List.range 512).foldl (freePdSlot (tableAddr e)) m).deallocate (tableAddr e)

def freePml4Slot (pml4 : ℕ) (m : Machine) (idx : ℕ) : Machine :=
  let e := m.entry pml4 idx
  if !present e || e == m.entry m.kernelPml4 idx then m
  else ((List.range 512).foldl (freePdptSlot (tableAddr e)) m).deallocate (tableAddr e)

def freeUserPageTables (m : Machine) (pml4 : ℕ) : Machine :=
  ((List.range 512).foldl (freePml4Slot pml4) m).deallocate pml4

end Zohara.PageTables
