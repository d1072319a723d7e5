import Zohara.FatVolume
import Zohara.TurnLoop

/-!
# Mounting a FAT32 disk

init takes the geometry from the boot sector. It checks two fields: the size of a FAT12 or FAT16
table has to be zero, and the size of a FAT32 table must not be. The others go as they are into a
product, a sum, a difference and a division of 32-bit numbers. These are written here with exact
numbers and compared with what init returns.

The boot sector is any one that can be read.
-/
namespace Zohara.Fat32
open ByteMemory FallibleState IdeDisk ElfImage

namespace BootSector

/-- The checks of init. -/
def Passes (buf : List UInt8) : Prop := field buf 22 2 = 0 ∧ field buf 36 4 ≠ 0

def totalSectors (buf : List UInt8) : ℕ :=
  if field buf 32 4 ≠ 0 then field buf 32 4 else field buf 19 2

def dataStart (buf : List UInt8) : ℕ := field buf 14 2+field buf 16 1*field buf 36 4

/-- No computation of init leaves 32 bits or divides by zero. -/
structure Calculable (buf : List UInt8) : Prop where
  product : field buf 16 1*field buf 36 4 < 2^32
  sum : dataStart buf < 2^32
  difference : dataStart buf ≤ totalSectors buf
  divisor : field buf 13 1 ≠ 0

end BootSector

open BootSector

/-- A geometry that the driver can use, on a disk of `total` sectors. -/
structure Usable (fs : Fat32Fs) (total : ℕ) : Prop where
  sector : fs.bytesPerSector = 512
  cluster : 1 ≤ fs.sectorsPerCluster
  copies : 1 ≤ fs.numFats
  start : fs.dataStart = fs.reservedSectors+fs.numFats*fs.fatSize
  room : fs.dataStart ≤ total

/-- What init should do with the boot sector `buf`. -/
structure Mounts (disk : IdeDisk) (w : Drives) (buf : List UInt8) : Prop where
  calculable : Passes buf → Calculable buf
  returns : answer (init disk) w ≠ .error .panic
  usable : ∀ fs, answer (init disk) w = .ok fs → Usable fs (totalSectors buf)

variable {disk : IdeDisk} {w w₁ : Drives} {buf : List UInt8}

theorem init_ends (hread : disk.readSector 0 w = .ok buf w₁) :
    Ends (init disk) w
      (fun fs _ => Passes buf ∧ fs.bytesPerSector = field buf 11 2 ∧
        fs.reservedSectors = field buf 14 2 ∧ fs.numFats = field buf 16 1 ∧
        fs.fatSize = field buf 36 4 ∧ fs.dataStart = dataStart buf%2^32)
      fun e _ => ¬Passes buf ∧ e ≠ .panic ∨ Passes buf ∧ field buf 13 1 = 0 := by
  have hbyte := field_lt buf 13 1
  unfold Ends
  rw [show init disk w = _ from TurnLoop.bind_ok hread]
  change Ends _ w₁ _ _
  by_cases h16 : field buf 22 2 ≠ 0
  · rw [if_pos h16]
    exact ends_throw (.inl ⟨fun h => h16 h.1,by simp⟩)
  rw [if_neg h16]
  by_cases h32 : field buf 36 4 = 0
  · rw [if_pos h32]
    exact ends_throw (.inl ⟨fun h => h.2 h32,by simp⟩)
  rw [if_neg h32]
  have hpass : Passes buf := ⟨not_not.mp h16,h32⟩
  by_cases hspc : 0 < field buf 13 1 ∧ field buf 13 1 < 256
  · rw [dif_pos hspc]
    exact ends_pure ⟨hpass,rfl,rfl,rfl,rfl,rfl⟩
  · have hzero : field buf 13 1 = 0 := by omega
    rw [dif_neg hspc]
    exact ends_throw (.inr ⟨hpass,hzero⟩)

/-- init does what it should exactly with the boot sectors that it refuses, and with those whose
sectors have 512 bytes, whose clusters have a sector, that have a copy of the FAT, and where the
FAT ends inside the disk. -/
theorem init_mounts_iff (hread : answer (disk.readSector 0) w = .ok buf) :
    Mounts disk w buf ↔ (Passes buf → field buf 11 2 = 512 ∧ 1 ≤ field buf 13 1 ∧
      1 ≤ field buf 16 1 ∧ dataStart buf ≤ totalSectors buf) := by
  have hends := init_ends (ok_of_answer hread)
  constructor
  · intro h hpass
    have hcalc := h.calculable hpass
    have hspc := hcalc.divisor
    cases hanswer : answer (init disk) w with
    | ok fs =>
      obtain ⟨-,hsector,-,hcopies,-⟩ := hends.ok (ok_of_answer hanswer)
      have husable := h.usable fs hanswer
      exact ⟨hsector.symm.trans husable.sector,Nat.one_le_iff_ne_zero.mpr hspc,
        hcopies ▸ husable.copies,hcalc.difference⟩
    | error e =>
      rcases hends.error (error_of_answer hanswer) with hrefused | hzero
      · exact absurd hpass hrefused.1
      · exact absurd hzero.2 hspc
  · intro h
    have htotal : totalSectors buf < 2^32 := by
      have h32 := field_lt buf 32 4
      have h16 := field_lt buf 19 2
      unfold totalSectors
      split <;> omega
    refine ⟨fun hpass => ?_,fun hpanic => ?_,fun fs hok => ?_⟩
    · obtain ⟨-,hspc,-,hroom⟩ := h hpass
      have hle : field buf 16 1*field buf 36 4 ≤ dataStart buf := Nat.le_add_left _ _
      exact ⟨by omega,by omega,hroom,by omega⟩
    · rcases hends.error (error_of_answer hpanic) with hrefused | hzero
      · exact hrefused.2 rfl
      · have hspc := (h hzero.1).2.1
        omega
    · obtain ⟨hpass,hsector,hreserved,hcopies,hsize,hstart⟩ := hends.ok (ok_of_answer hok)
      obtain ⟨h512,-,hfats,hroom⟩ := h hpass
      rw [Nat.mod_eq_of_lt (by omega)] at hstart
      refine ⟨hsector.trans h512,fs.clusters,hcopies ▸ hfats,?_,hstart ▸ hroom⟩
      rw [hstart, hreserved, hcopies, hsize]
      rfl

/-! ## Three boot sectors -/

/-- One reserved sector and a FAT of three sectors. -/
def bootSector (spc total : ℕ) : List UInt8 :=
  List.replicate 11 0++toLe 2 512++toLe 1 spc++toLe 2 1++[1,0,0]++toLe 2 total++List.replicate 15 0++
    toLe 4 3++List.replicate 4 0++toLe 4 2++List.replicate 464 0

def bootDisk (spc total : ℕ) : Drives := FatVolume.image [(0,bootSector spc total)]

theorem bootDisk_read (spc total : ℕ) :
    answer ((⟨0x1F0,false,304⟩ : IdeDisk).readSector 0) (bootDisk spc total) =
      .ok (bootSector spc total) := by
  have hlen : (bootSector spc total).length = 512 := by
    simp only [bootSector, List.length_append, List.length_replicate, length_toLe]
    rfl
  have hself := read_write_self (fun _ => 0) 0 (bootSector spc total)
  rw [hlen] at hself
  exact congrArg Except.ok hself

theorem init_mounts_small : Mounts ⟨0x1F0,false,304⟩ (bootDisk 1 304) (bootSector 1 304) :=
  (init_mounts_iff (bootDisk_read 1 304)).mpr fun _ => by decide +kernel

/-- Clusters of no sector stop the kernel; and where the FAT ends behind the disk, the number of
clusters wraps. -/
theorem init_panics_or_wraps :
    answer ((⟨0x1F0,false,304⟩ : IdeDisk).readSector 0) (bootDisk 0 304) =
        .ok (bootSector 0 304) ∧
      (answer (init ⟨0x1F0,false,304⟩) (bootDisk 0 304)).map Fat32Fs.totalClusters =
        .error .panic ∧
      (answer (init ⟨0x1F0,false,304⟩) (bootDisk 1 3)).map Fat32Fs.totalClusters =
        .ok 0xFFFFFFFF := by
  refine ⟨bootDisk_read 0 304,?_,?_⟩
  · rw [answer, show init _ _ = _ from TurnLoop.bind_ok (ok_of_answer (bootDisk_read 0 304))]
    decide +kernel
  · rw [answer, show init _ _ = _ from TurnLoop.bind_ok (ok_of_answer (bootDisk_read 1 3))]
    decide +kernel

end Zohara.Fat32
