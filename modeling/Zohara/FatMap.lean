import Zohara.FatVolume

/-!
# The FAT as a map

set_fat_entry and next_cluster compute the place of an entry by different formulas in 32 bits. They
agree while the byte address of the entry in the first copy stays below 2^32, which only a FAT of
four gigabytes exceeds. Drives without transfer errors only.
-/
namespace Zohara.Fat32.FatVolume
open ByteMemory FallibleState IdeDisk List Nat

variable {v : FatVolume} {w : Drives} {c : ℕ}

/-- A volume with a FAT of four gigabytes. -/
def wide : FatVolume where
  fs := {small.fs with fatSize := 2^23+1, dataStart := 2^23+2, totalClusters := 1}
  disk := ⟨0x1F0,false,2^23+3⟩
  sector := rfl
  word := by decide
  copies := small.copies
  start := rfl
  covers := by decide
  numbered := by decide
  inside := le_rfl
  lba28 := by decide

end Zohara.Fat32.FatVolume
