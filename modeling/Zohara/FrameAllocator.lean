import Zohara.WordBitmap

/-!
# The physical frame allocator (src/frame.rs)

One record holds the statics of the module: the bitmap, the number of active
words and frames, the managed RAM size and the scan hint. Every operation is a
total function on that record; the loops over words and frames are list scans
in the order of the source. FRAME_LOCK makes each public operation one atomic
step, so a run is a sequence of these functions.

RAM_BASE depends on the target and is carried by Arch. The linker symbol
`_end` is an argument of `init`. Sizes and addresses are naturals: set_total_ram
caps the RAM size at 8 GiB and no sum of the module leaves 64 bits. Counters
that are only printed (ALLOC_COUNT and the statistics) are not part of the
record.
-/
namespace Zohara.FrameAllocator
open WordBitmap

inductive Arch where
  | x86_64 | aarch64
  deriving DecidableEq, Repr

def frameSize : ℕ := 4096

def ramBase : Arch → ℕ
  | .x86_64 => 0
  | .aarch64 => 0x40000000

/-- The bitmap reserves space for 8 GiB. -/
def maxWords : ℕ := 32768

def maxFrameCount : ℕ := maxWords*64

structure State where
  bitmap : Bitmap := fun _ => 0
  actualWords : ℕ := 0
  actualFrameCount : ℕ := 0
  totalRam : ℕ := 0
  nextFree : ℕ := 0

/-- PhysFrame::start_address. -/
def startAddress (arch : Arch) (frame : ℕ) : ℕ := ramBase arch+frame*frameSize

/-- PhysFrame::from_addr, for addresses at or above RAM_BASE. -/
def fromAddr (arch : Arch) (addr : ℕ) : ℕ := (addr-ramBase arch)/frameSize

/-- The subtraction saturates, as in the source. -/
def frameOf (arch : Arch) (addr : ℕ) : ℕ := (addr-ramBase arch)/frameSize

def setTotalRam (size : ℕ) (s : State) : State :=
  let capped := min size (maxFrameCount*frameSize)
  let count := capped/frameSize
  {s with totalRam := capped, actualFrameCount := count, actualWords := (count+63)/64}

/-- The clear bits of one word, masked beyond the frame count in the last one. -/
def freeBits (s : State) (w : ℕ) : BitVec 64 :=
  let inverted := ~~~(s.bitmap w)
  let wordStart := w*64
  if wordStart+64 > s.actualFrameCount then
    inverted &&& ((1#64 <<< (s.actualFrameCount-wordStart)) - 1#64)
  else inverted

def freeFrameCount (s : State) : ℕ :=
  ((List.range s.actualWords).map fun w => countOnes (freeBits s w)).sum

def setUsed (frame : ℕ) (s : State) : State :=
  if frame ≥ s.actualFrameCount then s else {s with bitmap := insert s.bitmap frame}

def setFree (frame : ℕ) (s : State) : State :=
  if frame ≥ s.actualFrameCount then s else {s with bitmap := erase s.bitmap frame}

def markUsed (arch : Arch) (start fin : ℕ) (s : State) : State :=
  let ramEnd := ramBase arch+s.totalRam
  if fin ≤ start ∨ start ≥ ramEnd then s else
    let first := frameOf arch start
    let last := min (frameOf arch (fin-1)) (s.actualFrameCount-1)
    (List.range' first (last+1-first)).foldl (fun s frame => setUsed frame s) s

/-- A RAM size of zero means that set_total_ram was never called. -/
def init (arch : Arch) (kernelEnd : ℕ) (s : State) : State :=
  let s := if s.totalRam = 0 then setTotalRam (2^30) s else s
  let s := {s with bitmap := fun w => if w < s.actualWords then 0 else s.bitmap w}
  let s := markUsed arch (ramBase arch) kernelEnd s
  let s := match arch with
    | .x86_64 => markUsed arch 0 0x100000 s
    | .aarch64 => s
  {s with nextFree := frameOf arch kernelEnd/64}

/-- The frame count is recomputed from the word count. -/
def reinit (newRamSize : ℕ) (s : State) : State :=
  let s := setTotalRam newRamSize s
  let words := (s.totalRam/4096+63)/64
  if words > maxWords then
    {s with actualWords := maxWords, actualFrameCount := maxWords*64}
  else {s with actualWords := words, actualFrameCount := words*64}

/-- One scanning loop of allocate_frame: the word and frame it stops at. -/
def scanWords (s : State) : List ℕ → Option (ℕ × ℕ)
  | [] => none
  | w::ws =>
    let bits := s.bitmap w
    let frame := w*64+trailingOnes bits
    if bits ≠ BitVec.allOnes 64 ∧ frame < s.actualFrameCount then some (w,frame)
    else scanWords s ws

/-- The words from the hint upwards are scanned first, then those below it. -/
def allocateFrame (s : State) : Option ℕ × State :=
  let words := s.actualWords
  let start := min s.nextFree words
  match scanWords s (List.range' start (words-start)) with
  | some (w,frame) => (some frame,{setUsed frame s with nextFree := w})
  | none =>
    match scanWords s (List.range start) with
    | some (w,frame) => (some frame,{setUsed frame s with nextFree := w})
    | none => (none,s)

def deallocateFrame (frame : ℕ) (s : State) : State :=
  if frame ≥ s.actualFrameCount then s else setFree frame s

end Zohara.FrameAllocator
