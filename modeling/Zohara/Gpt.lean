import Zohara.ElfImage
import Zohara.IdeDisk

/-!
# Partitions of a GPT disk (src/fs/gpt.rs)

The header gives the sector where the entries begin, their number and their size. An entry is taken
through a raw pointer from the buffer of one sector; a read that leaves the buffer is undefined and
stops the model as a panic does. The sum of the sector numbers wraps at 32 bits and the two products
at 64 bits. Fields of header and entry that no function looks at are left out.
-/
namespace Zohara.Gpt
open ByteMemory FallibleState IdeDisk ElfImage

structure GptPartitionEntry where
  firstLba : ℕ
  lastLba : ℕ

structure Partition where
  index : ℕ
  firstLba : ℕ
  lastLba : ℕ
  sizeSectors : ℕ
  firstByte : ℕ
  sizeBytes : ℕ
  deriving DecidableEq

/-- The text "EFI PART". -/
def gptSignature : List UInt8 := [0x45,0x46,0x49,0x20,0x50,0x41,0x52,0x54]

section
variable (disk : IdeDisk)

end

/-! ## What is read -/

/-- A sector has entries, and entry `i` lies inside of its sector. -/
def Placed (size i : ℕ) : Prop :=
  0 < sectorSize/size ∧ i%(sectorSize/size)*size+128 ≤ sectorSize

/-- The entry at a byte of the disk. -/
def entryOf (mem : Memory) (a : ℕ) : GptPartitionEntry :=
  ⟨leNat (read mem (a+32) 8),leNat (read mem (a+40) 8)⟩

/-- The sizes in bytes are not cut off. -/
def Partition.Exact (p : Partition) : Prop :=
  p.firstByte = p.firstLba*512 ∧ p.sizeBytes = p.sizeSectors*512

section
variable {disk : IdeDisk} {w : Drives} {h : GptHeader}

end

def drive : IdeDisk := ⟨0x1F0,false,100⟩

/-- A table of eight entries at sector 2; the first is one sector, number 2^55. -/
def table (size : ℕ) : Drives :=
  ⟨fun _ => write (write (fun _ => 0) 512 (gptSignature++toLe 4 0x10000++toLe 4 92++List.replicate 56 0++
    toLe 8 2++toLe 4 8++toLe 4 size)) 1056 (toLe 8 (2^55)++toLe 8 (2^55)),fun _ => none,0⟩

end Zohara.Gpt
