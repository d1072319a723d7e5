import Zohara.ByteMemory
import Zohara.FallibleState

/-!
# Sectors of an IDE disk (src/drivers/ide.rs)

A handle names a drive by its port and its slave bit. The contents of all drives are one
state, together with an oracle that says which transfers fail and how: the polling loops
of the driver end with a message or with the data. A transfer that fails leaves the
contents as they were. The drive is addressed with the low 28 bits of the sector number.
-/
namespace Zohara.IdeDisk
open ByteMemory FallibleState

def sectorSize : ℕ := 512

structure IdeDisk where
  base : ℕ
  slave : Bool
  totalSectors : ℕ
  deriving DecidableEq

/-- Contents by port and slave bit; `fails n` is the error of the n-th transfer. -/
structure Drives where
  bytes : ℕ × Bool → Memory
  fails : ℕ → Option String
  transfers : ℕ

def transfer : Action Drives Unit := fun w =>
  match w.fails w.transfers with
  | some msg => .error (.err msg) {w with transfers := w.transfers+1}
  | none => .ok () {w with transfers := w.transfers+1}

/-- select_drive_lba: where the sector begins. -/
def sectorAddr (lba : ℕ) : ℕ := lba%2^28*sectorSize

namespace IdeDisk
variable (disk : IdeDisk)

def drive : ℕ × Bool := (disk.base,disk.slave)

def isPresent : Bool := decide (0 < disk.totalSectors)

def readSector (lba : ℕ) : Action Drives (List UInt8) :=
  if disk.totalSectors ≤ lba then throw (.err "LBA out of range")
  else do
    transfer
    let w ← get
    return read (w.bytes disk.drive) (sectorAddr lba) sectorSize

def writeSector (lba : ℕ) (buf : List UInt8) : Action Drives Unit :=
  if disk.totalSectors ≤ lba then throw (.err "LBA out of range")
  else do
    transfer
    modify fun w => {w with
      bytes := Function.update w.bytes disk.drive (write (w.bytes disk.drive) (sectorAddr lba) buf)}

end IdeDisk

/-! ## What a transfer does -/

/-- Drives that do not fail. -/
def Drives.Sound (w : Drives) : Prop := ∀ n, w.fails n = none

def Drives.moved (w : Drives) (n : ℕ) : Drives := {w with transfers := n}

def Drives.put (w : Drives) (disk : IdeDisk) (lba : ℕ) (buf : List UInt8) : Drives :=
  {w with
    bytes := Function.update w.bytes disk.drive (write (w.bytes disk.drive) (sectorAddr lba) buf)}

section
variable {disk : IdeDisk} {w : Drives} {lba : ℕ}

theorem transfer_ends : Ends transfer w (fun _ w' => w' = w.moved (w.transfers+1))
    fun _ w' => w' = w.moved (w.transfers+1) ∧ ¬w.Sound := by
  unfold Ends transfer
  cases hf : w.fails w.transfers with
  | none => exact rfl
  | some msg =>
    refine ⟨rfl,fun hs => ?_⟩
    rw [hs] at hf
    cases hf

theorem readSector_ends : Ends (disk.readSector lba) w
    (fun bs w' => bs = read (w.bytes disk.drive) (sectorAddr lba) sectorSize ∧
      lba < disk.totalSectors ∧ ∃ n, w' = w.moved n)
    fun e w' => (∃ n, w' = w.moved n) ∧
      (w.Sound → disk.totalSectors ≤ lba ∧ e = .err "LBA out of range") := by
  unfold IdeDisk.readSector
  split_ifs with hlba
  · exact ends_throw ⟨⟨w.transfers,rfl⟩,fun _ => ⟨hlba,rfl⟩⟩
  · refine Ends.bind (Ends.fails transfer_ends fun _ w' hw => ?_) ?_
    · exact ⟨⟨_,hw.1⟩,fun hs => (hw.2 hs).elim⟩
    · intro _ w' hw
      subst hw
      exact ends_get (ends_pure ⟨rfl,not_le.mp hlba,_,rfl⟩)

theorem writeSector_ends (buf : List UInt8) : Ends (disk.writeSector lba buf) w
    (fun _ w' => lba < disk.totalSectors ∧ ∃ n, w' = (w.moved n).put disk lba buf)
    fun e w' => (∃ n, w' = w.moved n) ∧
      (w.Sound → disk.totalSectors ≤ lba ∧ e = .err "LBA out of range") := by
  unfold IdeDisk.writeSector
  split_ifs with hlba
  · exact ends_throw ⟨⟨w.transfers,rfl⟩,fun _ => ⟨hlba,rfl⟩⟩
  · refine Ends.bind (Ends.fails transfer_ends fun _ w' hw => ?_) ?_
    · exact ⟨⟨_,hw.1⟩,fun hs => (hw.2 hs).elim⟩
    · intro _ w' hw
      subst hw
      exact ends_modify _ ⟨not_le.mp hlba,_,rfl⟩

end

end Zohara.IdeDisk
