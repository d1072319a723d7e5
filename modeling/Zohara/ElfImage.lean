import Zohara.ByteMemory

/-!
# The ELF64 parser and builder (src/elf.rs, src/elf_builder.rs)

`parseElf` is parse_elf for the x86_64 build. The file is a list of bytes and
`base` the address of its first byte. Numbers are read least significant byte
first; sums of 64-bit values wrap. The answer is `none` when a slice index is out
of range, which stops the kernel: the bounds test of a program header wraps with
its offset and then lets such an offset through.

The array of segments and its count are one list. `buildFlatElf` is
build_flat_elf, which wraps a flat program; its buffer is written down field by
field, with the zero bytes in between.
-/
namespace Zohara.ElfImage
open ByteMemory List Option

def maxSegments : ℕ := 8

inductive ElfError where
  | badMagic
  | notElf64
  | notExecutable
  | badMachine
  | badPhdr
  | tooManySegments
  deriving DecidableEq, Repr

structure ElfSegment where
  vaddr : ℕ
  paddr : ℕ
  dataPtr : ℕ
  filesz : ℕ
  memsz : ℕ
  flags : BitVec 32
  deriving DecidableEq, Repr

structure Image where
  entryPoint : ℕ
  segments : List ElfSegment
  deriving DecidableEq, Repr

/-- The number stored in `n` bytes from `off` on. -/
def field (elf : List UInt8) (off n : ℕ) : ℕ := leNat ((elf.drop off).take n)

theorem field_take (bs : List UInt8) {off k n : ℕ} (h : off+k ≤ n) :
    field (bs.take n) off k = field bs off k := by
  unfold field
  rw [drop_take, take_take, Nat.min_eq_left (by omega)]

theorem field_read (m : Memory) (a : ℕ) {n off k : ℕ} (h : off+k ≤ n) :
    field (read m a n) off k = leNat (read m (a+off) k) := by
  rw [field, take_drop_read m a h]

def pOffset (elf : List UInt8) (off : ℕ) : ℕ := field elf (off+8) 8

/-- The segment that the program header at `off` describes. -/
def loadSegment (elf : List UInt8) (base off : ℕ) : ElfSegment where
  vaddr := field elf (off+16) 8
  paddr := field elf (off+24) 8
  dataPtr := (base+pOffset elf off)%2^64
  filesz := field elf (off+32) 8
  memsz := field elf (off+40) 8
  flags := BitVec.ofNat 32 (field elf (off+4) 4)

/-- The loop over the program headers: `n` of them are left, the next one is the
`i`-th. -/
def parsePhdrs (elf : List UInt8) (base phoff phentsize : ℕ) :
    ℕ → ℕ → List ElfSegment → Option (Except ElfError (List ElfSegment))
  | 0,_,segments => some (.ok segments)
  | n+1,i,segments =>
    let off := (phoff+i*phentsize)%2^64
    if (off+56)%2^64 > elf.length then some (.error .badPhdr)
    else if off+56 > elf.length then none
    else if field elf off 4 ≠ 1 then parsePhdrs elf base phoff phentsize n (i+1) segments
    else if segments.length ≥ maxSegments then some (.error .tooManySegments)
    else parsePhdrs elf base phoff phentsize n (i+1) (segments++[loadSegment elf base off])

def parseElf (elf : List UInt8) (base : ℕ) : Option (Except ElfError Image) :=
  if elf.length < 64 then some (.error .badMagic)
  else if elf.take 4 ≠ [0x7F,0x45,0x4C,0x46] then some (.error .badMagic)
  else if elf.getD 4 0 ≠ 2 then some (.error .notElf64)
  else if field elf 0x10 2 ≠ 2 then some (.error .notExecutable)
  else if field elf 0x12 2 ≠ 0x3E then some (.error .badMachine)
  else if field elf 0x36 2 < 56 then some (.error .badPhdr)
  else
    (parsePhdrs elf base (field elf 0x20 8) (field elf 0x36 2) (field elf 0x38 2) 0 []).map
      fun answer => answer.map fun segments => ⟨field elf 0x18 8,segments⟩

theorem field_lt (elf : List UInt8) (off n : ℕ) : field elf off n < 256^n := by
  unfold field
  refine Nat.lt_of_lt_of_le (leNat_lt _) (Nat.pow_le_pow_right (by decide) ?_)
  exact length_take_le n _

theorem pOffset_lt (elf : List UInt8) (off : ℕ) : pOffset elf off < 2^64 := field_lt elf (off+8) 8

variable {elf : List UInt8}

/-- The source recovers p_offset from data_ptr by subtracting the base. -/
def fileOffset (base : ℕ) (seg : ElfSegment) : ℕ := (seg.dataPtr+2^64-base)%2^64

theorem fileOffset_eq {base off : ℕ} (hb : base < 2^64) :
    fileOffset base (loadSegment elf base off) = pOffset elf off := by
  have hp := pOffset_lt elf off
  unfold fileOffset loadSegment
  dsimp only
  omega

/-! ## The builder -/

/-- The fields of the ELF header and of the program header in file order, with the
zero bytes between them, and the program. -/
def flatFields (code : List UInt8) (loadAddr : ℕ) : List (List UInt8) :=
  [[0x7F,0x45,0x4C,0x46,2,1,1,0],List.replicate 8 0,toLe 2 2,toLe 2 0x3E,toLe 4 1,toLe 8 loadAddr,
    toLe 8 64,List.replicate 12 0,toLe 2 64,toLe 2 56,toLe 2 1,List.replicate 6 0,
    toLe 4 1,toLe 4 7,toLe 8 120,toLe 8 loadAddr,toLe 8 loadAddr,toLe 8 code.length,
    toLe 8 code.length,toLe 8 0x1000,code]

def buildFlatElf (code : List UInt8) (loadAddr : ℕ) : List UInt8 :=
  (flatFields code loadAddr).flatten

theorem length_buildFlatElf (code : List UInt8) (loadAddr : ℕ) :
    (buildFlatElf code loadAddr).length = 120+code.length := by
  simp only [buildFlatElf, flatFields, length_flatten, map_cons, map_nil, sum_cons,
    sum_nil, length_toLe, length_replicate, length_cons, length_nil]
  omega

theorem field_flatten {fields : List (List UInt8)} {k n v : ℕ} (off : ℕ)
    (hk : fields[k]? = some (toLe n v)) (hoff : ((fields.take k).map List.length).sum = off)
    (hv : v < 256^n) : field fields.flatten off n = v := by
  obtain ⟨hlt,hget⟩ := List.getElem?_eq_some_iff.mp hk
  have hsplit : fields.flatten = (fields.take k).flatten++(toLe n v++(fields.drop (k+1)).flatten) := by
    rw [← hget, ← flatten_cons, ← drop_eq_getElem_cons hlt, ← flatten_append,
      take_append_drop]
  have hlen : (fields.take k).flatten.length = off := by
    rw [length_flatten]
    exact hoff
  rw [field, hsplit, ← hlen, drop_left, take_left' (length_toLe n v), leNat_toLe,
    Nat.mod_eq_of_lt hv]

/-- The image of a flat program that was read to `base`. -/
def flatImage (code : List UInt8) (loadAddr base : ℕ) : Image :=
  ⟨loadAddr,[⟨loadAddr,loadAddr,(base+120)%2^64,code.length,code.length,7⟩]⟩

theorem parseElf_buildFlatElf (code : List UInt8) {loadAddr : ℕ} (base : ℕ)
    (ha : loadAddr < 2^64) (hc : code.length < 2^63) :
    parseElf (buildFlatElf code loadAddr) base = some (.ok (flatImage code loadAddr base)) := by
  have hlen := length_buildFlatElf code loadAddr
  have hfield : ∀ (k n v off : ℕ), (flatFields code loadAddr)[k]? = some (toLe n v) →
      (((flatFields code loadAddr).take k).map List.length).sum = off → v < 256^n →
      field (buildFlatElf code loadAddr) off n = v :=
    fun k n v off hk hoff hv => field_flatten off hk hoff hv
  have hc' : code.length < 256^8 := by omega
  have htype := hfield 2 2 2 0x10 rfl (by simp [flatFields]) (by decide)
  have hmach := hfield 3 2 0x3E 0x12 rfl (by simp [flatFields]) (by decide)
  have hentry := hfield 5 8 loadAddr 0x18 rfl (by simp [flatFields]) ha
  have hphoff := hfield 6 8 64 0x20 rfl (by simp [flatFields]) (by decide)
  have hsize := hfield 9 2 56 0x36 rfl (by simp [flatFields]) (by decide)
  have hnum := hfield 10 2 1 0x38 rfl (by simp [flatFields]) (by decide)
  have hload := hfield 12 4 1 64 rfl (by simp [flatFields]) (by decide)
  have hflags := hfield 13 4 7 (64+4) rfl (by simp [flatFields]) (by decide)
  have hoffset := hfield 14 8 120 (64+8) rfl (by simp [flatFields]) (by decide)
  have hvaddr := hfield 15 8 loadAddr (64+16) rfl (by simp [flatFields]) ha
  have hpaddr := hfield 16 8 loadAddr (64+24) rfl (by simp [flatFields]) ha
  have hfilesz := hfield 17 8 code.length (64+32) rfl (by simp [flatFields]) hc'
  have hmemsz := hfield 18 8 code.length (64+40) rfl (by simp [flatFields]) hc'
  have hseg : loadSegment (buildFlatElf code loadAddr) base 64 =
      ⟨loadAddr,loadAddr,(base+120)%2^64,code.length,code.length,7⟩ := by
    rw [loadSegment, pOffset, hflags, hoffset, hvaddr, hpaddr, hfilesz, hmemsz]
    rfl
  have hmagic : (buildFlatElf code loadAddr).take 4 = [0x7F,0x45,0x4C,0x46] := rfl
  have hclass : (buildFlatElf code loadAddr).getD 4 0 = 2 := rfl
  unfold parseElf
  rw [if_neg (by omega), if_neg (not_not.mpr hmagic), if_neg (not_not.mpr hclass), htype, hmach,
    hsize, hnum, hphoff, hentry, if_neg (by decide), if_neg (by decide), if_neg (by decide), parsePhdrs]
  rw [hlen, if_neg (by omega), if_neg (by omega), Nat.zero_mul, Nat.add_zero,
    Nat.mod_eq_of_lt (by decide : 64 < 2^64), hload, if_neg (by decide), if_neg (by decide), hseg]
  rfl

theorem drop_buildFlatElf (code : List UInt8) (loadAddr : ℕ) :
    (buildFlatElf code loadAddr).drop 120 = code := by
  have hsplit : buildFlatElf code loadAddr = ((flatFields code loadAddr).take 20).flatten++code := by
    unfold buildFlatElf
    rw [← take_append_drop 20 (flatFields code loadAddr), flatten_append]
    simp [flatFields]
  have hlen : ((flatFields code loadAddr).take 20).flatten.length = 120 := by
    simp [flatFields]
  rw [hsplit, ← hlen, drop_left]

theorem getD_buildFlatElf (code : List UInt8) (loadAddr i : ℕ) :
    (buildFlatElf code loadAddr).getD (120+i) 0 = code.getD i 0 := by
  rw [getD_eq_getElem?_getD, ← getElem?_drop, drop_buildFlatElf,
    ← getD_eq_getElem?_getD]

end Zohara.ElfImage
