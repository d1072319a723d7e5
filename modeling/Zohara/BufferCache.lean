import Zohara.IdeDisk
import Mathlib.Logic.Function.Basic

/-!
# The buffer cache (src/fs/bcache.rs)

A direct-mapped cache of 64 sectors in front of the drives. The slots do not say which
drive their sector is from. Counters and messages are left out. A buffer that a caller
passes for several sectors is given by its contents and its length.

A slot is coherent with a disk when it is clean and holds what the disk holds. With drives
that do not fail a write makes its slot coherent and keeps the others so, and in front of a
coherent cache reads and writes are those of the disk.
-/
namespace Zohara.BufferCache
open ByteMemory FallibleState IdeDisk

def cacheSize : ℕ := 64

structure CacheEntry where
  sector : ℕ
  valid : Bool
  dirty : Bool

def CacheEntry.empty : CacheEntry := ⟨2^32-1,false,false⟩

structure Cache where
  drives : Drives
  entries : ℕ → CacheEntry
  data : ℕ → List UInt8

def cacheSlot (sector : ℕ) : ℕ := sector%cacheSize

def onDrives {α : Type} (x : Action Drives α) : Action Cache α :=
  zoom Cache.drives (fun c w => {c with drives := w}) x

/-- A clean slot for a sector. -/
def Cache.store (c : Cache) (sector : ℕ) (buf : List UInt8) : Cache :=
  {c with
    data := Function.update c.data (cacheSlot sector) buf
    entries := Function.update c.entries (cacheSlot sector) ⟨sector,true,false⟩}

/-- A dirty slot is written back before it is reused. -/
def writeBack (disk : IdeDisk) (slot : ℕ) : Action Cache Unit := do
  let c ← get
  if (c.entries slot).dirty ∧ (c.entries slot).valid then
    onDrives (disk.writeSector (c.entries slot).sector (c.data slot))
  else pure ()

def cachedRead (disk : IdeDisk) (sector : ℕ) : Action Cache (List UInt8) := do
  let c ← get
  if (c.entries (cacheSlot sector)).valid ∧ (c.entries (cacheSlot sector)).sector = sector then
    return c.data (cacheSlot sector)
  else do
    let buf ← onDrives (disk.readSector sector)
    writeBack disk (cacheSlot sector)
    modify fun c => c.store sector buf
    return buf

def cachedWrite (disk : IdeDisk) (sector : ℕ) (buf : List UInt8) : Action Cache Unit := do
  onDrives (disk.writeSector sector buf)
  modify fun c => c.store sector buf

/-- flush, from a slot on. -/
def flushFrom (disk : IdeDisk) : ℕ → ℕ → Action Cache Unit
  | _,0 => pure ()
  | slot,n+1 => do
    let c ← get
    if (c.entries slot).dirty ∧ (c.entries slot).valid then do
      onDrives (disk.writeSector (c.entries slot).sector (c.data slot))
      modify fun c => {c with
        entries := Function.update c.entries slot {c.entries slot with dirty := false}}
      flushFrom disk (slot+1) n
    else flushFrom disk (slot+1) n

def flush (disk : IdeDisk) : Action Cache Unit := flushFrom disk 0 cacheSize

def invalidate : Action Cache Unit := modify fun c => {c with entries := fun _ => .empty}

/-- The turns of cached_read_sectors from the i-th on. -/
def readSectorsFrom (disk : IdeDisk) (start len : ℕ) : ℕ → ℕ → Action Cache (List UInt8)
  | _,0 => pure []
  | i,n+1 =>
    if len < i*sectorSize+sectorSize then throw (.err "buffer too small")
    else do
      let sector ← cachedRead disk ((start+i)%2^32)
      let rest ← readSectorsFrom disk start len (i+1) n
      return sector++rest

/-- The bytes that the first `count` sectors of the buffer get. -/
def cachedReadSectors (disk : IdeDisk) (start count len : ℕ) : Action Cache (List UInt8) :=
  readSectorsFrom disk start len 0 count

def writeSectorsFrom (disk : IdeDisk) (start : ℕ) (buf : Memory) (len : ℕ) :
    ℕ → ℕ → Action Cache Unit
  | _,0 => pure ()
  | i,n+1 =>
    if len < i*sectorSize+sectorSize then throw (.err "buffer too small")
    else do
      cachedWrite disk ((start+i)%2^32) (read buf (i*sectorSize) sectorSize)
      writeSectorsFrom disk start buf len (i+1) n

def cachedWriteSectors (disk : IdeDisk) (start count : ℕ) (buf : Memory) (len : ℕ) :
    Action Cache Unit := writeSectorsFrom disk start buf len 0 count

/-! ## Coherence -/

/-- Only transfers have been counted. -/
def Cache.moved (c : Cache) (n : ℕ) : Cache := {c with drives := c.drives.moved n}

def Cache.put (c : Cache) (disk : IdeDisk) (sector : ℕ) (buf : List UInt8) : Cache :=
  {c with drives := c.drives.put disk sector buf}

def Cache.bytes (c : Cache) (disk : IdeDisk) : Memory := c.drives.bytes disk.drive

/-- A valid slot holds what the disk holds. -/
structure Coherent (disk : IdeDisk) (c : Cache) (slot : ℕ) : Prop where
  home : (c.entries slot).valid = true → cacheSlot (c.entries slot).sector = slot
  clean : (c.entries slot).valid = true → (c.entries slot).dirty = false
  data : (c.entries slot).valid = true →
    c.data slot = read (c.bytes disk) (sectorAddr (c.entries slot).sector) sectorSize

/-- A disk that does not fail behind a coherent cache. -/
structure Ready (disk : IdeDisk) (c : Cache) : Prop where
  sound : c.drives.Sound
  coherent : ∀ slot < cacheSize, Coherent disk c slot

section
variable {disk : IdeDisk} {c : Cache} {k start : ℕ}

theorem cacheSlot_lt (k : ℕ) : cacheSlot k < cacheSize := Nat.mod_lt _ (by decide)

variable {buf : List UInt8}

theorem store_coherent (h : buf = read (c.bytes disk) (sectorAddr k) sectorSize) :
    Coherent disk (c.store k buf) (cacheSlot k) := by
  have he : (c.store k buf).entries (cacheSlot k) = ⟨k,true,false⟩ := Function.update_self _ _ _
  have hd : (c.store k buf).data (cacheSlot k) = buf := Function.update_self _ _ _
  refine ⟨fun _ => ?_,fun _ => ?_,fun _ => ?_⟩
  · rw [he]
  · rw [he]
  · rw [hd, he]
    exact h

theorem store_other {slot : ℕ} (hs : slot ≠ cacheSlot k) :
    (c.store k buf).entries slot = c.entries slot ∧ (c.store k buf).data slot = c.data slot :=
  ⟨Function.update_of_ne hs _ _,Function.update_of_ne hs _ _⟩

theorem Coherent.store (buf : List UInt8) {slot : ℕ} (h : Coherent disk c slot)
    (hs : slot ≠ cacheSlot k) : Coherent disk (c.store k buf) slot := by
  obtain ⟨he,hd⟩ := @store_other c k buf slot hs
  refine ⟨?_,?_,?_⟩
  · rw [he]
    exact h.home
  · rw [he]
    exact h.clean
  · rw [he, hd]
    exact h.data

theorem Coherent.fill {slot n : ℕ} (h : Coherent disk c slot)
    (hbuf : buf = read (c.bytes disk) (sectorAddr k) sectorSize) :
    Coherent disk ((c.moved n).store k buf) slot := by
  by_cases hs : slot = cacheSlot k
  · subst hs
    exact store_coherent hbuf
  · exact Coherent.store (c := c.moved n) buf ⟨h.home,h.clean,h.data⟩ hs

theorem sectorAddr_apart {j : ℕ} (h : cacheSlot j ≠ cacheSlot k) :
    sectorAddr j+sectorSize ≤ sectorAddr k ∨ sectorAddr k+sectorSize ≤ sectorAddr j := by
  unfold cacheSlot cacheSize at h
  unfold sectorAddr sectorSize
  omega

theorem sectorAddr_eq (h : k < 2^28) : sectorAddr k = k*512 := by
  unfold sectorAddr sectorSize
  rw [Nat.mod_eq_of_lt h]

/-- Sectors `lo`, …, `lo+n-1` of the disk have been written through the cache. -/
structure Stored (disk : IdeDisk) (lo n : ℕ) (c c' : Cache) : Prop where
  sound : c'.drives.Sound
  coherent : ∀ slot, (∃ t < n, slot = cacheSlot (lo+t)) ∨ Coherent disk c slot →
    Coherent disk c' slot
  kept : ∀ slot, (∀ t < n, slot ≠ cacheSlot (lo+t)) → c'.entries slot = c.entries slot
  holds : ∀ slot, (∃ t < n, slot = cacheSlot (lo+t)) →
    lo ≤ (c'.entries slot).sector ∧ (c'.entries slot).sector < lo+n

theorem Stored.trans {c' c'' : Cache} {lo n : ℕ} (h : Stored disk lo 1 c c')
    (h' : Stored disk (lo+1) n c' c'') : Stored disk lo (n+1) c c'' := by
  refine ⟨h'.sound,fun slot hslot => ?_,fun slot hslot => ?_,fun slot hslot => ?_⟩
  · rcases hslot with ⟨t,ht,rfl⟩ | hcoh
    · cases t with
      | zero => exact h'.coherent _ (.inr (h.coherent _ (.inl ⟨0,by omega,rfl⟩)))
      | succ t => exact h'.coherent _ (.inl ⟨t,by omega,by rw [show lo+1+t = lo+(t+1) by omega]⟩)
    · exact h'.coherent _ (.inr (h.coherent _ (.inr hcoh)))
  · rw [h'.kept slot fun t ht => ?_, h.kept slot fun t ht => ?_]
    · exact hslot t (by omega)
    · rw [show lo+1+t = lo+(t+1) by omega]
      exact hslot (t+1) (by omega)
  · by_cases hlater : ∃ t < n, slot = cacheSlot (lo+1+t)
    · have hrange := h'.holds slot hlater
      omega
    · rw [h'.kept slot fun t ht he => hlater ⟨t,ht,he⟩]
      obtain ⟨t,ht,hs⟩ := hslot
      have hfirst : slot = cacheSlot (lo+0) := by
        cases t with
        | zero => exact hs
        | succ t => exact (hlater ⟨t,by omega,by rw [hs, show lo+1+t = lo+(t+1) by omega]⟩).elim
      have hrange := h.holds slot ⟨0,by omega,hfirst⟩
      omega

theorem Ready.stored {c' : Cache} {lo n : ℕ} (h : Ready disk c) (hs : Stored disk lo n c c') :
    Ready disk c' := ⟨hs.sound,fun slot hlt => hs.coherent slot (.inr (h.coherent slot hlt))⟩

/-- Either the slot has the sector, or it is filled from the disk. A slot that is not dirty
is not written back. -/
theorem cachedRead_ends (hclean : (c.entries (cacheSlot k)).valid = true →
    (c.entries (cacheSlot k)).dirty = false) : Ends (cachedRead disk k) c
      (fun bs c' => ((c.entries (cacheSlot k)).valid = true ∧
          (c.entries (cacheSlot k)).sector = k ∧ bs = c.data (cacheSlot k) ∧ c' = c) ∨
        (k < disk.totalSectors ∧ bs = read (c.bytes disk) (sectorAddr k) sectorSize ∧
          ∃ n, c' = (c.moved n).store k bs))
      fun e c' => (∃ n, c' = c.moved n) ∧
        (c.drives.Sound → disk.totalSectors ≤ k ∧ e = .err "LBA out of range") := by
  unfold cachedRead
  refine ends_get ?_
  split_ifs with hit
  · exact ends_pure (.inl ⟨hit.1,hit.2,rfl,rfl⟩)
  · refine Ends.bind (ends_zoom (Q := fun bs c' => k < disk.totalSectors ∧
      bs = read (c.bytes disk) (sectorAddr k) sectorSize ∧ ∃ n, c' = c.moved n) ?_) ?_
    · refine Ends.mono readSector_ends (fun bs w' hw => ?_) fun _ w' hw => ?_
      · obtain ⟨hbs,hk,n,rfl⟩ := hw
        exact ⟨hk,hbs,n,rfl⟩
      · obtain ⟨⟨n,rfl⟩,hs⟩ := hw
        exact ⟨⟨n,rfl⟩,hs⟩
    · rintro bs c' ⟨hk,hbs,n,rfl⟩
      refine Ends.bind (Q := fun _ c'' => c'' = c.moved n) ?_ ?_
      · unfold writeBack
        refine ends_get ?_
        rw [if_neg ?_]
        · exact ends_pure rfl
        · intro hdirty
          exact Bool.false_ne_true ((hclean hdirty.2).symm.trans hdirty.1)
      · intro _ c'' hc
        subst hc
        exact ends_modify_bind _ (ends_pure (.inr ⟨hk,hbs,n,rfl⟩))

theorem cachedWrite_ends (buf : List UInt8) : Ends (cachedWrite disk k buf) c
    (fun _ c' => k < disk.totalSectors ∧ ∃ n, c' = ((c.moved n).put disk k buf).store k buf)
    fun e c' => (∃ n, c' = c.moved n) ∧
      (c.drives.Sound → disk.totalSectors ≤ k ∧ e = .err "LBA out of range") := by
  unfold cachedWrite onDrives
  refine Ends.bind (ends_zoom (Q := fun _ c' => k < disk.totalSectors ∧
    ∃ n, c' = (c.moved n).put disk k buf) ?_) ?_
  · refine Ends.mono (writeSector_ends buf) (fun _ w' hw => ?_) fun _ w' hw => ?_
    · obtain ⟨hk,n,rfl⟩ := hw
      exact ⟨hk,n,rfl⟩
    · obtain ⟨⟨n,rfl⟩,hs⟩ := hw
      exact ⟨⟨n,rfl⟩,hs⟩
  · rintro _ c' ⟨hk,n,rfl⟩
    exact ends_modify _ ⟨hk,n,rfl⟩

theorem bytes_put (buf : List UInt8) :
    (c.put disk k buf).bytes disk = write (c.bytes disk) (sectorAddr k) buf :=
  Function.update_self _ _ _

theorem Coherent.put {disk' : IdeDisk} {slot : ℕ} (h : Coherent disk c slot)
    (hs : slot ≠ cacheSlot k) (hbuf : buf.length = sectorSize) :
    Coherent disk (c.put disk' k buf) slot := by
  refine ⟨h.home,h.clean,fun hv => (h.data hv).trans ?_⟩
  by_cases hd : disk.drive = disk'.drive
  · have hb : (c.put disk' k buf).bytes disk = write (c.bytes disk) (sectorAddr k) buf := by
      unfold Cache.bytes
      rw [hd]
      exact bytes_put buf
    have hslot : cacheSlot (c.entries slot).sector ≠ cacheSlot k := by
      rw [h.home hv]
      exact hs
    rw [hb, read_write_disjoint _]
    · rfl
    · rw [hbuf]
      exact sectorAddr_apart hslot
  · have hb : (c.put disk' k buf).bytes disk = c.bytes disk := Function.update_of_ne hd _ _
    rw [hb]
    rfl

theorem written_coherent (hbuf : buf.length = sectorSize) :
    Coherent disk ((c.put disk k buf).store k buf) (cacheSlot k) := by
  refine store_coherent ?_
  rw [bytes_put, ← hbuf, read_write_self]

theorem cachedWrite_sound (h : c.drives.Sound) (hk : k < disk.totalSectors)
    (hbuf : buf.length = sectorSize) : Returns (cachedWrite disk k buf) c fun _ c' =>
      Stored disk k 1 c c' ∧ c'.bytes disk = write (c.bytes disk) (sectorAddr k) buf := by
  refine Ends.mono (cachedWrite_ends buf) ?_ fun _ _ he => absurd (he.2 h).1 (Nat.not_le.mpr hk)
  rintro _ c' ⟨-,n,rfl⟩
  refine ⟨⟨h,fun slot hslot => ?_,fun slot hslot => ?_,fun slot hslot => ?_⟩,bytes_put buf⟩
  · by_cases hs : slot = cacheSlot k
    · subst hs
      exact written_coherent hbuf
    · have hcoh : Coherent disk c slot := by
        rcases hslot with ⟨t,ht,he⟩ | hcoh
        · exact (hs (by rw [he, Nat.lt_one_iff.mp ht]; rfl)).elim
        · exact hcoh
      exact Coherent.store buf (Coherent.put (c := c.moved n) ⟨hcoh.home,hcoh.clean,hcoh.data⟩ hs hbuf) hs
  · exact (store_other (hslot 0 (by omega))).1
  · obtain ⟨t,ht,rfl⟩ := hslot
    obtain rfl : t = 0 := by omega
    have he : (((c.moved n).put disk k buf).store k buf).entries (cacheSlot k) = ⟨k,true,false⟩ :=
      Function.update_self _ _ _
    rw [Nat.add_zero, he]
    exact ⟨le_rfl,Nat.lt_succ_self k⟩

theorem cachedRead_ready (h : Ready disk c) (hk : k < disk.totalSectors) :
    Returns (cachedRead disk k) c fun bs c' =>
      bs = read (c.bytes disk) (sectorAddr k) sectorSize ∧ Ready disk c' ∧
        c'.bytes disk = c.bytes disk := by
  have hcoh := h.coherent _ (cacheSlot_lt k)
  refine Ends.mono (cachedRead_ends hcoh.clean) ?_
    fun _ _ he => absurd (he.2 h.sound).1 (Nat.not_le.mpr hk)
  rintro bs c' (⟨hv,hsector,hbs,rfl⟩ | ⟨-,hbs,n,rfl⟩)
  · exact ⟨by rw [hbs, hcoh.data hv, hsector],h,rfl⟩
  · exact ⟨hbs,⟨h.sound,fun slot hlt => (h.coherent slot hlt).fill hbs⟩,rfl⟩

theorem writeSectorsFrom_sound (buf : Memory) {len i n : ℕ} (h : c.drives.Sound)
    (hdisk : start+i+n ≤ disk.totalSectors) (hlba : start+i+n ≤ 2^28)
    (hlen : (i+n)*512 ≤ len) : Returns (writeSectorsFrom disk start buf len i n) c fun _ c' =>
      Stored disk (start+i) n c c' ∧
      c'.bytes disk = write (c.bytes disk) ((start+i)*512) (read buf (i*512) (n*512)) := by
  induction n generalizing i c with
  | zero =>
    refine ends_pure ⟨⟨h,fun slot hs => ?_,fun _ _ => rfl,fun slot hs => ?_⟩,?_⟩
    · rcases hs with ⟨t,ht,-⟩ | hs
      · cases ht
      · exact hs
    · obtain ⟨t,ht,-⟩ := hs
      cases ht
    · funext x
      rw [write_outside]
      simp only [length_read]
      omega
  | succ n ih =>
    have hmod : (start+i)%2^32 = start+i := Nat.mod_eq_of_lt (by omega)
    unfold writeSectorsFrom
    rw [if_neg (by unfold sectorSize; omega), hmod]
    have hk : start+i < disk.totalSectors := by omega
    have hnext : start+(i+1)+n ≤ disk.totalSectors := by omega
    have hrest : (i+1+n)*512 ≤ len := by
      rw [Nat.add_right_comm]
      exact hlen
    refine Ends.bind (cachedWrite_sound h hk (length_read _ _ _)) fun _ c₁ h₁ => ?_
    obtain ⟨hs₁,hb₁⟩ := h₁
    refine Ends.imp (ih (i := i+1) hs₁.sound hnext (by omega) hrest) (fun _ c₂ h₂ => ?_)
    obtain ⟨hs₂,hb₂⟩ := h₂
    refine ⟨hs₁.trans hs₂,?_⟩
    have hsplit : read buf (i*512) ((n+1)*512) =
        read buf (i*512) 512++read buf ((i+1)*512) (n*512) := by
      rw [show (n+1)*512 = 512+n*512 by ring, read_append, show i*512+512 = (i+1)*512 by ring]
    have haddr : (start+(i+1))*512 = (start+i)*512+(read buf (i*512) 512).length := by
      rw [length_read]
      ring
    rw [hb₂, hb₁, sectorAddr_eq (by omega), hsplit, haddr]
    exact write_append _ _ _ _

theorem cachedWriteSectors_sound (buf : Memory) {n : ℕ} (h : c.drives.Sound)
    (hdisk : start+n ≤ disk.totalSectors) (hlba : start+n ≤ 2^28) :
    Returns (cachedWriteSectors disk start n buf (n*512)) c fun _ c' => Stored disk start n c c' ∧
      c'.bytes disk = write (c.bytes disk) (start*512) (read buf 0 (n*512)) := by
  have hall := writeSectorsFrom_sound (i := 0) buf h hdisk hlba (Nat.le_of_eq (by rw [Nat.zero_add]))
  rw [Nat.add_zero, Nat.zero_mul] at hall
  exact hall

theorem readSectorsFrom_ready {len i n : ℕ} (h : Ready disk c)
    (hdisk : start+i+n ≤ disk.totalSectors) (hlba : start+i+n ≤ 2^28)
    (hlen : (i+n)*512 ≤ len) : Returns (readSectorsFrom disk start len i n) c fun bs c' =>
      bs = read (c.bytes disk) ((start+i)*512) (n*512) ∧ Ready disk c' ∧
        c'.bytes disk = c.bytes disk := by
  induction n generalizing i c with
  | zero => exact ends_pure ⟨by rw [Nat.zero_mul]; rfl,h,rfl⟩
  | succ n ih =>
    have hmod : (start+i)%2^32 = start+i := Nat.mod_eq_of_lt (by omega)
    unfold readSectorsFrom
    rw [if_neg (by unfold sectorSize; omega), hmod]
    have hk : start+i < disk.totalSectors := by omega
    have hnext : start+(i+1)+n ≤ disk.totalSectors := by omega
    have hrest : (i+1+n)*512 ≤ len := by
      rw [Nat.add_right_comm]
      exact hlen
    refine Ends.bind (cachedRead_ready h hk) fun bs c₁ h₁ => ?_
    obtain ⟨hbs,hr₁,hb₁⟩ := h₁
    refine Ends.bind (ih (i := i+1) hr₁ hnext (by omega) hrest) fun rest c₂ h₂ => ?_
    obtain ⟨hbs',hr₂,hb₂⟩ := h₂
    refine ends_pure ⟨?_,hr₂,hb₂.trans hb₁⟩
    rw [hbs, hbs', hb₁, sectorAddr_eq (by omega), show (n+1)*512 = 512+n*512 by ring, read_append,
      show (start+i)*512+512 = (start+(i+1))*512 by ring]
    rfl

end

end Zohara.BufferCache
