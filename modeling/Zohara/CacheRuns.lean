import Zohara.BufferCache
import Zohara.Runs

/-!
# Runs of the buffer cache

Two views of the calls that the file systems make. For one disk, any sequence of calls
keeps every slot coherent, also when transfers fail, so that the cache cannot be told from
the disk. For two disks the slots are shared and carry no disk: a read finds what the last
call filled its slot with, and that is its own disk's sector only as long as the other disk
did not leave a sector of the same number there.

A transfer that fails leaves the contents of the drive as they were, and only the calls
write to the drives.
-/
namespace Zohara.CacheRuns
open ByteMemory FallibleState IdeDisk BufferCache Runs

/-- The contents of a buffer of one sector. -/
def Sector : Type := {bs : List UInt8 // bs.length = sectorSize}

/-! ## One disk -/

inductive Call where
  | read (sector : ℕ)
  | write (sector : ℕ) (buf : Sector)
  | readSectors (start count len : ℕ)
  | writeSectors (start count : ℕ) (buf : Memory) (len : ℕ)
  | flush
  | invalidate

/-- The state after a call, whatever its answer. -/
def Call.exec (disk : IdeDisk) (c : Cache) : Call → Cache
  | .read sector => after (cachedRead disk sector) c
  | .write sector buf => after (cachedWrite disk sector buf.val) c
  | .readSectors start count len => after (cachedReadSectors disk start count len) c
  | .writeSectors start count buf len => after (cachedWriteSectors disk start count buf len) c
  | .flush => after (BufferCache.flush disk) c
  | .invalidate => after BufferCache.invalidate c

def Step (disk : IdeDisk) (c : Cache) (call : Call) (c' : Cache) : Prop := c' = call.exec disk c

/-- Every slot is coherent with the disk. -/
def Faithful (disk : IdeDisk) (c : Cache) : Prop := ∀ slot < cacheSize, Coherent disk c slot

section
variable {disk : IdeDisk} {c : Cache} {k start : ℕ}

theorem faithful_of_empty (h : ∀ slot < cacheSize, (c.entries slot).valid = false) :
    Faithful disk c := by
  intro slot hlt
  have hne : (c.entries slot).valid ≠ true := by
    rw [h slot hlt]
    decide
  exact ⟨fun hv => (hne hv).elim,fun hv => (hne hv).elim,fun hv => (hne hv).elim⟩

theorem Faithful.moved (h : Faithful disk c) (n : ℕ) : Faithful disk (c.moved n) :=
  fun slot hlt => ⟨(h slot hlt).home,(h slot hlt).clean,(h slot hlt).data⟩

theorem cachedRead_faithful (h : Faithful disk c) : Ends (cachedRead disk k) c
    (fun bs c' => Faithful disk c' ∧ bs = read (c.bytes disk) (sectorAddr k) sectorSize)
    fun _ c' => Faithful disk c' := by
  have hcoh := h _ (cacheSlot_lt k)
  refine Ends.mono (cachedRead_ends hcoh.clean) (fun bs c' hq => ?_) fun _ c' he => ?_
  · rcases hq with ⟨hv,hsector,hbs,rfl⟩ | ⟨-,hbs,n,rfl⟩
    · exact ⟨h,by rw [hbs, hcoh.data hv, hsector]⟩
    · exact ⟨fun slot hlt => (h slot hlt).fill hbs,hbs⟩
  · obtain ⟨⟨n,rfl⟩,-⟩ := he
    exact h.moved n

theorem cachedWrite_faithful (h : Faithful disk c) {buf : List UInt8}
    (hbuf : buf.length = sectorSize) : Ends (cachedWrite disk k buf) c
      (fun _ c' => Faithful disk c' ∧ read (c'.bytes disk) (sectorAddr k) sectorSize = buf)
      fun _ c' => Faithful disk c' := by
  refine Ends.mono (cachedWrite_ends buf) (fun _ c' hq => ?_) fun _ c' he => ?_
  · obtain ⟨-,n,rfl⟩ := hq
    constructor
    · intro slot hlt
      by_cases hs : slot = cacheSlot k
      · rw [hs]
        exact written_coherent hbuf
      · exact ((h.moved n slot hlt).put hs hbuf).store buf hs
    · change read (((c.moved n).put disk k buf).bytes disk) _ _ = buf
      rw [bytes_put, ← hbuf, read_write_self]
  · obtain ⟨⟨n,rfl⟩,-⟩ := he
    exact h.moved n

theorem readSectorsFrom_faithful {len i n : ℕ} (h : Faithful disk c) :
    Ends (readSectorsFrom disk start len i n) c (fun _ c' => Faithful disk c')
      fun _ c' => Faithful disk c' := by
  induction n generalizing i c with
  | zero => exact ends_pure h
  | succ n ih =>
    unfold readSectorsFrom
    split_ifs with hlen
    · exact ends_throw h
    · exact Ends.bind (cachedRead_faithful h) fun _ c₁ h₁ =>
        Ends.bind (ih h₁.1) fun _ c₂ h₂ => ends_pure h₂

theorem writeSectorsFrom_faithful (buf : Memory) {len i n : ℕ} (h : Faithful disk c) :
    Ends (writeSectorsFrom disk start buf len i n) c (fun _ c' => Faithful disk c')
      fun _ c' => Faithful disk c' := by
  induction n generalizing i c with
  | zero => exact ends_pure h
  | succ n ih =>
    unfold writeSectorsFrom
    split_ifs with hlen
    · exact ends_throw h
    · exact Ends.bind (cachedWrite_faithful h (length_read _ _ _)) fun _ c₁ h₁ => ih h₁.1

theorem flushFrom_clean {i n : ℕ} (h : ∀ slot, i ≤ slot → slot < i+n →
    (c.entries slot).valid = true → (c.entries slot).dirty = false) :
    flushFrom disk i n c = .ok () c := by
  induction n generalizing i with
  | zero => rfl
  | succ n ih =>
    have hskip : ¬((c.entries i).dirty = true ∧ (c.entries i).valid = true) := by
      intro hd
      exact Bool.false_ne_true ((h i le_rfl (by omega) hd.2).symm.trans hd.1)
    have hturn : flushFrom disk i (n+1) c = flushFrom disk (i+1) n c := by
      change (if (c.entries i).dirty = true ∧ (c.entries i).valid = true then _
        else flushFrom disk (i+1) n : Action Cache Unit) c = _
      rw [if_neg hskip]
    rw [hturn]
    exact ih fun slot hle hlt => h slot (by omega) (by omega)

theorem Faithful.flush (h : Faithful disk c) : BufferCache.flush disk c = .ok () c :=
  flushFrom_clean fun slot _ hlt =>
    (h slot (by rw [Nat.zero_add] at hlt; exact hlt)).clean

theorem step_faithful {c' : Cache} {call : Call} (h : Faithful disk c) (hs : Step disk c call c') :
    Faithful disk c' := by
  rw [hs]
  cases call with
  | read sector =>
    exact (Ends.imp (cachedRead_faithful h) (fun _ _ hq => hq.1)).after
  | write sector buf =>
    exact (Ends.imp (cachedWrite_faithful h buf.property) (fun _ _ hq => hq.1)).after
  | readSectors start count len => exact (readSectorsFrom_faithful h).after
  | writeSectors start count buf len => exact (writeSectorsFrom_faithful buf h).after
  | flush =>
    change Faithful disk (after (BufferCache.flush disk) c)
    unfold after
    rw [h.flush]
    exact h
  | invalidate => exact faithful_of_empty fun _ _ => rfl

end

/-! ## Two disks -/

inductive DiskCall where
  | read (disk : IdeDisk) (sector : ℕ)
  | write (disk : IdeDisk) (sector : ℕ) (buf : Sector)

namespace DiskCall

def disk : DiskCall → IdeDisk
  | .read disk _ => disk
  | .write disk _ _ => disk

def sector : DiskCall → ℕ
  | .read _ sector => sector
  | .write _ sector _ => sector

def exec (c : Cache) : DiskCall → Cache
  | .read disk sector => after (cachedRead disk sector) c
  | .write disk sector buf => after (cachedWrite disk sector buf.val) c

/-- The sector is one of the disk. -/
def InRange (a : DiskCall) : Prop := a.sector < a.disk.totalSectors

instance (a : DiskCall) : Decidable a.InRange := Nat.decLt _ _

end DiskCall

/-- The last call that has filled a slot. -/
def lastFill (calls : List DiskCall) (slot : ℕ) : Option DiskCall :=
  calls.find? fun a => cacheSlot a.sector = slot ∧ a.InRange

/-- When the slot of a sector was last filled with a sector of this number, it was for this
disk. -/
def Owned (calls : List DiskCall) (disk : IdeDisk) (sector : ℕ) : Prop :=
  ∀ a, lastFill calls (cacheSlot sector) = some a → a.sector = sector → a.disk = disk

/-- Every read found its slot so. -/
def Separate : List DiskCall → Prop
  | [] => True
  | .read disk sector::calls => Owned calls disk sector ∧ Separate calls
  | .write _ _ _::calls => Separate calls

/-- What the calls have made of a disk's contents. -/
def contents (mem : Memory) : List DiskCall → Memory
  | [] => mem
  | .read _ _::calls => contents mem calls
  | .write disk sector buf::calls =>
    if sector < disk.totalSectors then write (contents mem calls) (sectorAddr sector) buf.val
    else contents mem calls

/-- The slots are as the last calls have filled them. -/
def Filled (calls : List DiskCall) (c : Cache) : Prop :=
  ∀ slot < cacheSize, match lastFill calls slot with
    | none => (c.entries slot).valid = false
    | some a => c.entries slot = ⟨a.sector,true,false⟩ ∧ Coherent a.disk c slot

section
variable {c c₀ : Cache} {calls : List DiskCall} {d : IdeDisk} {k slot : ℕ} {a : DiskCall}

theorem lastFill_skip (h : ¬(cacheSlot a.sector = slot ∧ a.InRange)) :
    lastFill (a::calls) slot = lastFill calls slot := by
  unfold lastFill
  rw [List.find?_cons_of_neg]
  simpa using h

theorem lastFill_self (h : a.InRange) : lastFill (a::calls) (cacheSlot a.sector) = some a := by
  unfold lastFill
  rw [List.find?_cons_of_pos]
  simpa using h

theorem lastFill_spec (h : lastFill calls slot = some a) :
    a ∈ calls ∧ cacheSlot a.sector = slot ∧ a.InRange := by
  refine ⟨List.mem_of_find?_eq_some h,?_⟩
  simpa using List.find?_some h

section

variable (h : Filled calls c)
include h

theorem Filled.clean (hlt : slot < cacheSize)
    (hv : (c.entries slot).valid = true) : (c.entries slot).dirty = false := by
  have hs := h slot hlt
  cases hf : lastFill calls slot with
  | none =>
    rw [hf] at hs
    rw [hs] at hv
    cases hv
  | some a =>
    rw [hf] at hs
    rw [hs.1]

theorem Filled.hit (hlt : slot < cacheSize)
    (hv : (c.entries slot).valid = true) : ∃ a, lastFill calls slot = some a ∧
      (c.entries slot).sector = a.sector ∧ Coherent a.disk c slot := by
  have hs := h slot hlt
  cases hf : lastFill calls slot with
  | none =>
    rw [hf] at hs
    rw [hs] at hv
    cases hv
  | some a =>
    rw [hf] at hs
    exact ⟨a,rfl,by rw [hs.1],hs.2⟩

theorem Filled.moved (n : ℕ) : Filled calls (c.moved n) := by
  intro slot hlt
  have hs := h slot hlt
  cases hf : lastFill calls slot with
  | none =>
    rw [hf] at hs
    exact hs
  | some a =>
    rw [hf] at hs
    exact ⟨hs.1,⟨hs.2.home,hs.2.clean,hs.2.data⟩⟩

theorem Filled.failed (ha : ¬a.InRange) : Filled (a::calls) c := by
  intro slot hlt
  rw [lastFill_skip fun hs => ha hs.2]
  exact h slot hlt

theorem Filled.next {c' : Cache} (ha : a.InRange)
    (hself : c'.entries (cacheSlot a.sector) = ⟨a.sector,true,false⟩ ∧
      Coherent a.disk c' (cacheSlot a.sector))
    (hother : ∀ slot, slot ≠ cacheSlot a.sector → c'.entries slot = c.entries slot ∧
      ∀ disk, Coherent disk c slot → Coherent disk c' slot) : Filled (a::calls) c' := by
  intro slot hlt
  by_cases hs : slot = cacheSlot a.sector
  · rw [hs, lastFill_self ha]
    exact hself
  · rw [lastFill_skip fun he => hs he.1.symm]
    have hold := h slot hlt
    obtain ⟨hentry,hcoh⟩ := hother slot hs
    cases hf : lastFill calls slot with
    | none =>
      rw [hf] at hold
      dsimp only
      rw [hentry]
      exact hold
    | some b =>
      rw [hf] at hold
      dsimp only
      rw [hentry]
      exact ⟨hold.1,hcoh _ hold.2⟩

end

theorem store_entry (c : Cache) (k : ℕ) (buf : List UInt8) :
    (c.store k buf).entries (cacheSlot k) = ⟨k,true,false⟩ := Function.update_self _ _ _

section

variable (h : Filled calls c) (hio : c.drives.Sound)
include h hio

theorem read_filled (ho : Owned calls d k) : Ends (cachedRead d k) c
      (fun bs c' => k < d.totalSectors ∧ bs = read (c.bytes d) (sectorAddr k) sectorSize ∧
        Filled (.read d k::calls) c' ∧ c'.drives.bytes = c.drives.bytes ∧ c'.drives.Sound)
      fun e c' => (d.totalSectors ≤ k ∧ e = .err "LBA out of range") ∧
        Filled (.read d k::calls) c' ∧ c'.drives.bytes = c.drives.bytes ∧ c'.drives.Sound := by
  refine Ends.mono (cachedRead_ends (h.clean (cacheSlot_lt k))) (fun bs c' hq => ?_)
    fun _ c' he => ?_
  · rcases hq with ⟨hv,hsector,hbs,rfl⟩ | ⟨hk,hbs,n,rfl⟩
    · obtain ⟨a,ha,hsec,hcoh⟩ := h.hit (cacheSlot_lt k) hv
      have hk : a.sector = k := hsec.symm.trans hsector
      have hd : a.disk = d := ho a ha hk
      have hrange : (DiskCall.read d k).InRange := by
        have := (lastFill_spec ha).2.2
        unfold DiskCall.InRange at this
        rw [hk, hd] at this
        exact this
      have hentry : c'.entries (cacheSlot k) = ⟨k,true,false⟩ := by
        have hs := h _ (cacheSlot_lt k)
        rw [ha] at hs
        rw [hs.1, hk]
      refine ⟨hrange,?_,h.next hrange ⟨hentry,hd ▸ hcoh⟩ fun slot _ => ⟨rfl,fun _ hc => hc⟩,rfl,hio⟩
      rw [hbs, hcoh.data hv, hsector, hd]
    · refine ⟨hk,hbs,(h.moved n).next (a := .read d k) hk
        ⟨store_entry _ _ _,store_coherent hbs⟩ fun slot hs => ?_,rfl,hio⟩
      exact ⟨(store_other hs).1,fun _ hc => hc.store bs hs⟩
  · obtain ⟨⟨n,rfl⟩,hs⟩ := he
    have hle := hs hio
    exact ⟨hle,(h.moved n).failed (Nat.not_lt.mpr hle.1),rfl,hio⟩

theorem write_filled (buf : Sector) : Ends (cachedWrite d k buf.val) c
      (fun _ c' => k < d.totalSectors ∧ Filled (.write d k buf::calls) c' ∧
        c'.drives.bytes = ((c.put d k buf.val).drives).bytes ∧ c'.drives.Sound)
      fun _ c' => d.totalSectors ≤ k ∧ Filled (.write d k buf::calls) c' ∧
        c'.drives.bytes = c.drives.bytes ∧ c'.drives.Sound := by
  refine Ends.mono (cachedWrite_ends buf.val) (fun _ c' hq => ?_) fun _ c' he => ?_
  · obtain ⟨hk,n,rfl⟩ := hq
    refine ⟨hk,(h.moved n).next (a := .write d k buf) hk
      ⟨store_entry _ _ _,written_coherent buf.property⟩ fun slot hs => ?_,rfl,hio⟩
    exact ⟨(store_other hs).1,fun _ hc => (hc.put hs buf.property).store buf.val hs⟩
  · obtain ⟨⟨n,rfl⟩,hs⟩ := he
    have hle := (hs hio).1
    exact ⟨hle,(h.moved n).failed (Nat.not_lt.mpr hle),rfl,hio⟩

end

theorem bytes_put_other {d' : IdeDisk} (buf : List UInt8) (h : d.drive ≠ d'.drive) :
    (c.put d' k buf).bytes d = c.bytes d := Function.update_of_ne h _ _

/-- The cache and one disk after calls that are on this disk or on another drive. -/
structure Performed (c₀ : Cache) (calls : List DiskCall) (d : IdeDisk) (c : Cache) : Prop where
  filled : Filled calls c
  sound : c.drives.Sound
  bytes : c.bytes d = contents (c₀.bytes d) (calls.filter (·.disk = d))

theorem Performed.read (h : Performed c₀ calls d c) {d' : IdeDisk} (ho : Owned calls d' k) :
    Performed c₀ (.read d' k::calls) d ((DiskCall.read d' k).exec c) := by
  have hcontents : contents (c₀.bytes d) ((DiskCall.read d' k::calls).filter (·.disk = d)) =
      contents (c₀.bytes d) (calls.filter (·.disk = d)) := by
    rw [List.filter_cons]
    split_ifs <;> rfl
  refine (Ends.mono (read_filled h.filled h.sound ho) (fun _ c' hq => ?_) fun _ c' he => ?_).after
  · obtain ⟨-,-,hf,hb,hs⟩ := hq
    exact ⟨hf,hs,(congrFun hb d.drive).trans (h.bytes.trans hcontents.symm)⟩
  · obtain ⟨-,hf,hb,hs⟩ := he
    exact ⟨hf,hs,(congrFun hb d.drive).trans (h.bytes.trans hcontents.symm)⟩

theorem Performed.write (h : Performed c₀ calls d c) {d' : IdeDisk} (buf : Sector)
    (hd : d' = d ∨ d'.drive ≠ d.drive) :
    Performed c₀ (.write d' k buf::calls) d ((DiskCall.write d' k buf).exec c) := by
  refine (Ends.mono (write_filled h.filled h.sound buf) (fun _ c' hq => ?_) fun _ c' he => ?_).after
  · obtain ⟨hk,hf,hb,hs⟩ := hq
    refine ⟨hf,hs,(congrFun hb d.drive).trans ?_⟩
    change (c.put d' k buf.val).bytes d = _
    rcases hd with hd | hd
    · subst hd
      rw [bytes_put, List.filter_cons_of_pos (by simp [DiskCall.disk]), contents, if_pos hk, h.bytes]
    · rw [bytes_put_other _ hd.symm, List.filter_cons_of_neg, h.bytes]
      exact fun he => hd (congrArg IdeDisk.drive (of_decide_eq_true he))
  · obtain ⟨hk,hf,hb,hs⟩ := he
    refine ⟨hf,hs,(congrFun hb d.drive).trans (h.bytes.trans ?_)⟩
    rw [List.filter_cons]
    split_ifs
    · rw [contents, if_neg (Nat.not_lt.mpr hk)]
    · rfl

end

def slave : IdeDisk := ⟨0x1F0,true,2048⟩

end Zohara.CacheRuns
