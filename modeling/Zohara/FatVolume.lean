import Zohara.Fat32

/-!
# FAT32 volumes

A volume is a mount state that fits its disk: sectors of 512 bytes, at least one copy of a FAT
that covers all clusters and whose entries are numbered in 32 bits, and a data area inside the
disk, below the sector number 2^28 that the driver can address. What the code sees of such a disk is its view: the FAT entries of the first
copy and the contents of the clusters. Each access of the code is described by the view alone.
-/
namespace Zohara.Fat32
open ByteMemory FallibleState IdeDisk ElfImage List Function Nat

structure FatVolume where
  fs : Fat32Fs
  disk : IdeDisk
  sector : fs.bytesPerSector = 512
  word : fs.reservedSectors < 2^16
  copies : 1 ≤ fs.numFats
  start : fs.dataStart = fs.reservedSectors+fs.numFats*fs.fatSize
  covers : fs.totalClusters ≤ fs.fatSize*128
  numbered : fs.fatSize*128 ≤ 2^32
  inside : fs.dataStart+fs.totalClusters*fs.sectorsPerCluster ≤ disk.totalSectors
  lba28 : disk.totalSectors ≤ 2^28

/-- What the code sees of a disk. -/
structure View where
  fat : ℕ → ℕ
  data : ℕ → List UInt8
  fails : ℕ → Option String

def View.Sound (A : View) : Prop := ∀ n, A.fails n = none

theorem View.Sound.of_fails {A B : View} (h : A.Sound) (hf : B.fails = A.fails) : B.Sound := fun n =>
  (congrFun hf n).trans (h n)

/-- A cluster that the code takes for free: the upper four bits of its entry do not count. -/
def View.Free (A : View) (c : ℕ) : Prop := A.fat c%2^28 = 0

def View.setFat (A : View) (c value : ℕ) : View := {A with fat := Function.update A.fat c value}

def View.setData (A : View) (c : ℕ) (bs : List UInt8) : View :=
  {A with data := Function.update A.data c bs}

theorem View.setFat_self (A : View) (c value : ℕ) : (A.setFat c value).fat c = value :=
  update_self _ _ _

theorem View.setFat_of_ne (A : View) {c d : ℕ} (h : d ≠ c) (value : ℕ) :
    (A.setFat c value).fat d = A.fat d := update_of_ne h _ _

theorem View.free_of_zero {A : View} {c : ℕ} (h : A.fat c = 0) : A.Free c := by
  unfold View.Free
  rw [h, zero_mod]

namespace FatVolume
variable (v : FatVolume)

def size : ℕ := v.fs.sectorsPerCluster*512

def total : ℕ := v.fs.totalClusters

def fatAddr (c : ℕ) : ℕ := v.fs.reservedSectors*512+4*c

/-- The number has an entry in the FAT that next_cluster can address. -/
def Addressed (c : ℕ) : Prop := c < v.fs.fatSize*128 ∧ v.fatAddr c < 2^32

def dataAddr (c : ℕ) : ℕ := (v.fs.dataStart+(c-2)*v.fs.sectorsPerCluster)*512

def memory (w : Drives) : Memory := w.bytes v.disk.drive

/-- An entry in the f-th copy of the FAT. -/
def copyAt (w : Drives) (f c : ℕ) : ℕ :=
  leNat (read (v.memory w) ((v.fs.reservedSectors+f*v.fs.fatSize)*512+4*c) 4)

def view (w : Drives) : View where
  fat := fun c => if c < v.total then leNat (read (v.memory w) (v.fatAddr c) 4) else 0
  data := fun c => if 2 ≤ c ∧ c < v.total then read (v.memory w) (v.dataAddr c) v.size else []
  fails := w.fails

theorem size_pos : 0 < v.size := mul_pos v.fs.clusters (by decide)

theorem clusterBytes_eq : v.fs.clusterBytes = v.size := rfl

theorem clusterSize_eq : v.fs.clusterSize = v.size := by
  have hbyte := v.fs.byte
  unfold Fat32Fs.clusterSize size
  rw [v.sector]
  omega

theorem fat_room : v.fs.reservedSectors+v.fs.fatSize ≤ v.fs.dataStart := by
  have hle : 1*v.fs.fatSize ≤ v.fs.numFats*v.fs.fatSize := mul_le_mul_right _ v.copies
  rw [v.start]
  omega

theorem total_small : v.total+2 < 0x0FFFFFF7 := by
  have hroom := v.fat_room
  have hcovers := v.covers
  have hinside := v.inside
  have hlba := v.lba28
  have hle : v.fs.totalClusters*1 ≤ v.fs.totalClusters*v.fs.sectorsPerCluster :=
    mul_le_mul_left _ v.fs.clusters
  unfold total
  omega

variable {v} {w : Drives} {A : View} {c : ℕ}

theorem cluster_room (h2 : 2 ≤ c) (hc : c < v.total) :
    v.fs.dataStart+(c-2)*v.fs.sectorsPerCluster+v.fs.sectorsPerCluster ≤ v.disk.totalSectors := by
  have hle : (c-2+1)*v.fs.sectorsPerCluster ≤ v.fs.totalClusters*v.fs.sectorsPerCluster :=
    mul_le_mul_right _ (by unfold total at hc; omega)
  rw [succ_mul] at hle
  have hinside := v.inside
  omega

theorem firstSector_fits (h2 : 2 ≤ c) (hfits : v.fs.dataStart+(c-2)*v.fs.sectorsPerCluster < 2^32) :
    v.fs.firstSector c = v.fs.dataStart+(c-2)*v.fs.sectorsPerCluster := by
  obtain ⟨k,rfl⟩ := Nat.exists_eq_add_of_le h2
  unfold Fat32Fs.firstSector
  rw [show 2+k+2^32-2 = k+2^32 by omega, add_mul, ← add_assoc, add_mul_mod_self_left,
    show 2+k-2 = k by omega]
  rw [show 2+k-2 = k by omega] at hfits
  exact mod_eq_of_lt hfits

theorem firstSector_eq (h2 : 2 ≤ c) (hc : c < v.total) :
    v.fs.firstSector c = v.fs.dataStart+(c-2)*v.fs.sectorsPerCluster := by
  have hroom := v.cluster_room h2 hc
  have hlba := v.lba28
  exact firstSector_fits h2 (by omega)

theorem dataAddr_apart {d : ℕ} (hc : 2 ≤ c) (hd : 2 ≤ d) (hne : c ≠ d) :
    v.dataAddr c+v.size ≤ v.dataAddr d ∨ v.dataAddr d+v.size ≤ v.dataAddr c := by
  have hstep : ∀ a b : ℕ, a < b → a*v.fs.sectorsPerCluster+v.fs.sectorsPerCluster ≤
      b*v.fs.sectorsPerCluster := by
    intro a b hab
    rw [← succ_mul]
    exact mul_le_mul_right _ hab
  unfold dataAddr size
  rcases lt_or_gt_of_ne hne with hlt | hlt
  · have := hstep (c-2) (d-2) (by omega)
    omega
  · have := hstep (d-2) (c-2) (by omega)
    omega

theorem fat_end (hc : c < v.total) : v.fatAddr c+4 ≤ (v.fs.reservedSectors+v.fs.fatSize)*512 := by
  have hcovers := v.covers
  unfold total at hc
  unfold fatAddr
  omega

theorem data_begin (d : ℕ) : v.fs.dataStart*512 ≤ v.dataAddr d :=
  mul_le_mul_right _ (le_add_right _ _)

theorem fat_before {d : ℕ} (hc : c < v.total) : v.fatAddr c+4 ≤ v.dataAddr d :=
  ((fat_end hc).trans (mul_le_mul_right _ v.fat_room)).trans (data_begin d)

theorem view_fat (hc : c < v.total) : (v.view w).fat c = leNat (read (v.memory w) (v.fatAddr c) 4) :=
  if_pos hc

theorem copyAt_zero (hc : c < v.total) : v.copyAt w 0 c = (v.view w).fat c := by
  rw [view_fat hc, copyAt, zero_mul, add_zero]
  rfl

theorem view_data (h2 : 2 ≤ c) (hc : c < v.total) :
    (v.view w).data c = read (v.memory w) (v.dataAddr c) v.size := if_pos ⟨h2,hc⟩

theorem length_data (hw : v.view w = A) (h2 : 2 ≤ c) (hc : c < v.total) :
    (A.data c).length = v.size := by
  rw [← hw, view_data h2 hc, length_read]

/-! ## Reading and writing a cluster -/

theorem memory_moved (n : ℕ) : v.memory (w.moved n) = v.memory w := rfl

theorem sector_inside {lba : ℕ} (h : lba < v.disk.totalSectors) :
    lba%2^32 = lba ∧ sectorAddr lba = lba*512 := by
  have hlba := v.lba28
  refine ⟨mod_eq_of_lt (by omega),?_⟩
  rw [sectorAddr, mod_eq_of_lt (by omega), sectorSize]

theorem readSector_inside {lba : ℕ} (h : lba < v.disk.totalSectors) :
    Ends (v.disk.readSector lba) w
      (fun bs w' => bs = read (v.memory w) (lba*512) 512 ∧ ∃ n, w' = w.moved n)
      fun _ _ => ¬(v.view w).Sound := by
  refine Ends.mono readSector_ends ?_ ?_
  · rintro bs w' ⟨hbs,_,hw⟩
    refine ⟨?_,hw⟩
    rw [hbs, (sector_inside h).2]
    rfl
  · rintro e w' ⟨_,hout⟩ hs
    exact lt_irrefl _ (h.trans_le (hout hs).1)

theorem writeSector_inside {lba : ℕ} (h : lba < v.disk.totalSectors) (buf : List UInt8) :
    Ends (v.disk.writeSector lba buf) w
      (fun _ w' => v.memory w' = write (v.memory w) (lba*512) buf ∧ w'.fails = w.fails)
      fun _ _ => ¬(v.view w).Sound := by
  refine Ends.mono (writeSector_ends buf) ?_ ?_
  · rintro _ w' ⟨_,n,rfl⟩
    refine ⟨?_,rfl⟩
    rw [← (sector_inside h).2]
    change Function.update w.bytes v.disk.drive _ v.disk.drive = _
    rw [update_self]
    rfl
  · rintro e w' ⟨_,hout⟩ hs
    exact lt_irrefl _ (h.trans_le (hout hs).1)

theorem readSectors_ends {first s n : ℕ} (h : first+s+n ≤ v.disk.totalSectors) :
    Ends (Fat32Fs.readSectors v.disk first s n) w
      (fun bs w' => bs = read (v.memory w) ((first+s)*512) (n*512) ∧ ∃ k, w' = w.moved k)
      fun _ _ => ¬(v.view w).Sound := by
  induction n generalizing s w with
  | zero =>
    rw [Fat32Fs.readSectors, zero_mul]
    exact ends_pure ⟨rfl,w.transfers,rfl⟩
  | succ n ih =>
    have hlt : first+s < v.disk.totalSectors := by omega
    rw [Fat32Fs.readSectors, (sector_inside hlt).1]
    refine Ends.bind (readSector_inside hlt) ?_
    rintro bs w' ⟨hbs,k,rfl⟩
    refine Ends.bind (ih (s := s+1) (w := w.moved k) (by omega)) ?_
    rintro rest w' ⟨rfl,k',rfl⟩
    refine ends_pure ⟨?_,k',rfl⟩
    rw [hbs, succ_mul, add_comm (n*512), read_append, ← add_assoc, succ_mul]
    rfl

theorem readCluster_ends (hw : v.view w = A) (h2 : 2 ≤ c) (hc : c < v.total) :
    Ends (v.fs.readCluster v.disk c v.size) w (fun bs w' => bs = A.data c ∧ v.view w' = A)
      fun _ _ => ¬A.Sound := by
  subst hw
  unfold Fat32Fs.readCluster
  rw [if_neg h2.not_gt, v.clusterBytes_eq, if_neg (lt_irrefl _),
    firstSector_eq h2 hc]
  refine Ends.bind (readSectors_ends (cluster_room h2 hc)) ?_
  rintro bs w' ⟨rfl,k,rfl⟩
  refine ends_pure ⟨?_,rfl⟩
  rw [Nat.sub_self, replicate_zero, append_nil, view_data h2 hc]
  rfl

theorem writeSectors_ends {first s n : ℕ} (data : List UInt8)
    (h : first+s+n ≤ v.disk.totalSectors) :
    Ends (Fat32Fs.writeSectors v.disk first data s n) w
      (fun _ w' => v.memory w' = write (v.memory w) ((first+s)*512)
        (read (fun x => data.getD x 0) (s*512) (n*512)) ∧ w'.fails = w.fails)
      fun _ _ => ¬(v.view w).Sound := by
  induction n generalizing s w with
  | zero =>
    refine ends_pure ⟨?_,rfl⟩
    rw [zero_mul]
    funext x
    exact (write_outside _ (by rw [length_read]; omega)).symm
  | succ n ih =>
    have hlt : first+s < v.disk.totalSectors := by omega
    rw [Fat32Fs.writeSectors, (sector_inside hlt).1]
    refine Ends.bind (writeSector_inside hlt _) ?_
    rintro _ w₁ ⟨hm,hf⟩
    refine Ends.mono (ih (s := s+1) (w := w₁) (by omega)) ?_ ?_
    · rintro _ w' ⟨hm',hf'⟩
      refine ⟨?_,hf'.trans hf⟩
      have hlen : (first+(s+1))*512 =
          (first+s)*512+(read (fun x => data.getD x 0) (s*sectorSize) sectorSize).length := by
        rw [length_read, sectorSize, ← add_assoc, succ_mul]
      rw [hm', hm, hlen, write_append, sectorSize, succ_mul s, ← read_append, succ_mul n,
        add_comm 512]
    · exact fun _ _ hns hs => hns (hs.of_fails hf)

variable {buf : List UInt8}

theorem view_setData {w' : Drives} (h2 : 2 ≤ c) (hc : c < v.total)
    (hlen : buf.length = v.size) (hm : v.memory w' = write (v.memory w) (v.dataAddr c) buf)
    (hf : w'.fails = w.fails) : v.view w' = (v.view w).setData c buf := by
  have hfat : (v.view w').fat = (v.view w).fat := by
    funext d
    by_cases hd : d < v.total
    · rw [view_fat hd, view_fat hd, hm, read_write_disjoint _ (.inl (fat_before hd))]
    · exact (if_neg hd).trans (if_neg hd).symm
  have hdata : (v.view w').data = Function.update (v.view w).data c buf := by
    funext d
    by_cases hdc : d = c
    · subst hdc
      rw [update_self, view_data h2 hc, hm, ← hlen, read_write_self]
    · rw [update_of_ne hdc]
      by_cases hd : 2 ≤ d ∧ d < v.total
      · rw [view_data hd.1 hd.2, view_data hd.1 hd.2, hm]
        apply read_write_disjoint
        rw [hlen]
        exact dataAddr_apart hd.1 h2 hdc
      · exact (if_neg hd).trans (if_neg hd).symm
  unfold View.setData
  rw [← hdata, ← hfat]
  exact congrArg (View.mk _ _) hf

theorem writeCluster_ends (hw : v.view w = A) {buf : List UInt8} (h2 : 2 ≤ c) (hc : c < v.total)
    (hlen : buf.length = v.size) :
    Ends (v.fs.writeCluster v.disk c buf) w (fun _ w' => v.view w' = A.setData c buf)
      fun _ _ => ¬A.Sound := by
  subst hw
  unfold Fat32Fs.writeCluster
  rw [v.clusterSize_eq, hlen, min_self, ← hlen, take_length, firstSector_eq h2 hc]
  refine Ends.imp (writeSectors_ends buf (cluster_room h2 hc)) ?_
  rintro _ w' ⟨hm,hf⟩
  refine view_setData h2 hc hlen ?_ hf
  rw [hm, zero_mul]
  change write _ _ (read _ 0 v.size) = _
  rw [← hlen, read_getD buf (by omega), drop_zero, take_length]
  rfl

/-! ## The FAT -/

theorem fatAddr_split (c : ℕ) :
    (v.fs.reservedSectors+c*4/512)*512+c*4%512 = v.fatAddr c := by
  unfold fatAddr
  omega

theorem fat_sector (hc : c < v.fs.fatSize*128) :
    v.fs.reservedSectors+c*4/512 < v.fs.reservedSectors+v.fs.fatSize := by
  omega

theorem dataStart_le : v.fs.dataStart ≤ v.disk.totalSectors :=
  (le_add_right _ _).trans v.inside

theorem cluster_small (hc : c < v.total) : c*4 < 2^30 := by
  have hsmall := v.total_small
  omega

/-- What next_cluster makes of a FAT entry: 0 is the end of the chain. -/
def linked (entry : ℕ) : ℕ := if 0x0FFFFFF8 ≤ entry then 0 else entry%2^28

theorem linked_free (h : A.Free c) : linked (A.fat c) = 0 := by
  have hzero : A.fat c%2^28 = 0 := h
  rw [linked, hzero, ite_self]

theorem nextCluster_entry (hc : c < v.fs.fatSize*128) (haddr : v.fatAddr c < 2^32) :
    Ends (v.fs.nextCluster v.disk c) w
      (fun d w' => v.copyAt w 0 c ≠ 0x0FFFFFF7 ∧ d = linked (v.copyAt w 0 c) ∧ ∃ n, w' = w.moved n)
      fun e w' => ¬(v.view w).Sound ∨
        v.copyAt w 0 c = 0x0FFFFFF7 ∧ e = .err "bad cluster" ∧ ∃ n, w' = w.moved n := by
  have hoffset : (v.fs.reservedSectors*512+c*4)%2^32 = v.fs.reservedSectors*512+c*4 := by
    unfold fatAddr at haddr
    exact mod_eq_of_lt (by omega)
  have hsector : (v.fs.reservedSectors*512+c*4)/512 = v.fs.reservedSectors+c*4/512 := by omega
  have hplace : (v.fs.reservedSectors*512+c*4)%512 = c*4%512 := by omega
  have hroom : c*4%512+4 ≤ 512 := by omega
  have hentry : leNat (read (v.memory w) (v.fatAddr c) 4) = v.copyAt w 0 c := by
    rw [copyAt, zero_mul]
    rfl
  have hbelow : v.fs.reservedSectors+c*4/512 < v.fs.reservedSectors+v.fs.fatSize := by omega
  have hlt := (hbelow.trans_le v.fat_room).trans_le v.dataStart_le
  unfold Fat32Fs.nextCluster
  rw [v.sector, if_neg (by decide)]
  simp only [hoffset, hsector, hplace]
  refine Ends.bind (Ends.fails (readSector_inside hlt) fun _ _ h => .inl h) ?_
  rintro buf w' ⟨hbuf,k,rfl⟩
  rw [sectorSize, if_neg hroom.not_gt, hbuf, field_read _ _ hroom, fatAddr_split, hentry]
  by_cases heoc : 0x0FFFFFF8 ≤ v.copyAt w 0 c
  · rw [if_pos heoc]
    exact ends_pure ⟨by omega,by rw [linked, if_pos heoc],k,rfl⟩
  · rw [if_neg heoc]
    split_ifs with hbad
    · exact ends_throw (.inr ⟨hbad,rfl,k,rfl⟩)
    · exact ends_pure ⟨hbad,by rw [linked, if_neg heoc],k,rfl⟩

theorem fatAddr_small (hc : c < v.total) : c < v.fs.fatSize*128 ∧ v.fatAddr c < 2^32 := by
  have hsmall := cluster_small hc
  have hcovers := v.covers
  have hword := v.word
  unfold total at hc
  unfold fatAddr
  omega

theorem nextCluster_spec (hw : v.view w = A) (hc : c < v.total) :
    Ends (v.fs.nextCluster v.disk c) w
      (fun d w' => A.fat c ≠ 0x0FFFFFF7 ∧ d = linked (A.fat c) ∧ v.view w' = A ∧
        v.memory w' = v.memory w)
      fun e w' => ¬A.Sound ∨ A.fat c = 0x0FFFFFF7 ∧ e = .err "bad cluster" ∧ v.view w' = A := by
  subst hw
  have haddr := fatAddr_small hc
  rw [← copyAt_zero hc]
  refine Ends.mono (nextCluster_entry haddr.1 haddr.2) ?_ ?_
  · rintro d w' ⟨hgood,hd,n,rfl⟩
    exact ⟨hgood,hd,rfl,rfl⟩
  · rintro e w' (hns | ⟨hbad,he,n,rfl⟩)
    · exact .inl hns
    · exact .inr ⟨hbad,he,rfl⟩

theorem nextCluster_ends (hw : v.view w = A) (hc : c < v.total) :
    Ends (v.fs.nextCluster v.disk c) w (fun d w' => d = linked (A.fat c) ∧ v.view w' = A)
      fun e w' => ¬A.Sound ∨ A.fat c = 0x0FFFFFF7 ∧ e = .err "bad cluster" ∧ v.view w' = A :=
  Ends.imp (nextCluster_spec hw hc) (fun _ _ h => ⟨h.2.1,h.2.2.1⟩)

theorem fatEntry (hc : c < v.total) {sec i : ℕ} (hi : i < 128) (hci : c = sec*128+i) :
    field (read (v.memory w) ((v.fs.reservedSectors+sec)*512) 512) (i*4) 4 = (v.view w).fat c := by
  have haddr : (v.fs.reservedSectors+sec)*512+i*4 = v.fatAddr c := by
    unfold fatAddr
    omega
  rw [field_read _ _ (by omega), view_fat hc, haddr]

theorem allocFrom_ends {sec n : ℕ} (h : sec+n = v.fs.fatSize) :
    Ends (v.fs.allocFrom v.disk sec n) w
      (fun d w' => 2 ≤ d ∧ d < v.total ∧ (v.view w).Free d ∧ v.view w' = v.view w)
      fun _ w' => ¬(v.view w).Sound ∨
        (∀ d, 2 ≤ d → d < v.total → sec*128 ≤ d → ¬(v.view w).Free d) ∧ v.view w' = v.view w := by
  have hcovers := v.covers
  have hnumbered := v.numbered
  induction n generalizing sec w with
  | zero =>
    refine ends_throw (.inr ⟨fun d _ hd hle _ => ?_,rfl⟩)
    unfold total at hd
    omega
  | succ n ih =>
    have hlt : v.fs.reservedSectors+sec < v.disk.totalSectors := by
      have hroom := v.fat_room
      have hle := v.dataStart_le
      omega
    have hnum : ∀ i < 128, (sec*128+i)%2^32 = sec*128+i := fun i hi =>
      mod_eq_of_lt (by omega)
    rw [Fat32Fs.allocFrom, (sector_inside hlt).1]
    refine Ends.bind (Ends.fails (readSector_inside hlt) fun _ _ h => .inl h) ?_
    rintro buf w' ⟨hbuf,k,rfl⟩
    simp only [v.sector, show min (512/4) 128 = 128 from rfl, show 512/4 = 128 from rfl]
    cases hfind : (List.range 128).find? fun i => field buf (i*4) 4%2^28 = 0 ∧
        2 ≤ (sec*128+i)%2^32 ∧ (sec*128+i)%2^32 < v.fs.totalClusters with
    | some i =>
      have hi := mem_range.mp (mem_of_find?_eq_some hfind)
      have hfound := find?_some hfind
      simp only [decide_eq_true_eq, hnum i hi] at hfound
      obtain ⟨hzero,h2,hd⟩ := hfound
      rw [hbuf, fatEntry hd hi rfl] at hzero
      change Ends (pure ((sec*128+i)%2^32)) _ _ _
      rw [hnum i hi]
      exact ends_pure ⟨h2,hd,hzero,rfl⟩
    | none =>
      rw [if_neg (by decide)]
      have hrest : sec+1+n = v.fs.fatSize := by omega
      refine Ends.fails (ih (w := w.moved k) hrest) ?_
      refine fun _ _ herr => herr.imp (fun h => h) fun hnone => ⟨?_,hnone.2⟩
      intro d h2 hd hle hfree
      by_cases hlater : (sec+1)*128 ≤ d
      · exact hnone.1 d h2 hd hlater hfree
      · have hi : d-sec*128 < 128 := by omega
        have hd' : sec*128+(d-sec*128) = d := by omega
        have hno := find?_eq_none.mp hfind (d-sec*128) (mem_range.mpr hi)
        rw [hnum _ hi, hd', hbuf, fatEntry hd hi hd'.symm] at hno
        exact hno (decide_eq_true ⟨hfree,h2,hd⟩)

theorem allocCluster_ends (hw : v.view w = A) :
    Ends (v.fs.allocCluster v.disk) w
      (fun d w' => 2 ≤ d ∧ d < v.total ∧ A.Free d ∧ v.view w' = A)
      fun _ w' => ¬A.Sound ∨ (∀ d, 2 ≤ d → d < v.total → ¬A.Free d) ∧ v.view w' = A := by
  subst hw
  refine Ends.fails (allocFrom_ends (zero_add _)) fun _ _ herr => ?_
  exact herr.imp (fun h => h) fun hnone =>
    ⟨fun d h2 hd => hnone.1 d h2 hd (by omega),hnone.2⟩

theorem copyAt_write {w₁ : Drives} {f g x : ℕ} (hc : c < v.fs.fatSize*128)
    (hx : x < v.fs.fatSize*128) (hlen : buf.length = 512) (hm : v.memory w₁ =
      write (v.memory w) ((v.fs.reservedSectors+c*4/512+f*v.fs.fatSize)*512) buf) :
    v.copyAt w₁ g x = if g = f ∧ x*4/512 = c*4/512 then field buf (x*4%512) 4 else v.copyAt w g x := by
  have hcsector := fat_sector hc
  have hxsector : x*4/512 < v.fs.fatSize := by omega
  have haddr : (v.fs.reservedSectors+g*v.fs.fatSize)*512+4*x =
      (v.fs.reservedSectors+x*4/512+g*v.fs.fatSize)*512+x*4%512 := by omega
  unfold copyAt
  rw [haddr, hm]
  split_ifs with hsame
  · rw [hsame.1, hsame.2, ← field_read _ _ (show x*4%512+4 ≤ 512 by omega), ← hlen, read_write_self]
  · have hapart : ∀ {a b : ℕ}, a < b → a*v.fs.fatSize+v.fs.fatSize ≤ b*v.fs.fatSize := by
      intro a b hab
      rw [← succ_mul]
      exact mul_le_mul_right _ hab
    rw [read_write_disjoint]
    rw [hlen]
    rcases lt_trichotomy g f with hlt | heq | hgt
    · have := hapart hlt
      omega
    · have hne : x*4/512 ≠ c*4/512 := fun h => hsame ⟨heq,h⟩
      rw [heq]
      omega
    · have := hapart hgt
      omega

theorem writeCopies_ends (hc : c < v.fs.fatSize*128) (hlen : buf.length = 512) {f n : ℕ}
    (h : f+n = v.fs.numFats) :
    Ends (v.fs.writeCopies v.disk (v.fs.reservedSectors+c*4/512) buf f n) w
      (fun _ w' => w'.fails = w.fails ∧
        (∀ x, x < (v.fs.reservedSectors+f*v.fs.fatSize)*512 ∨ v.fs.dataStart*512 ≤ x →
          v.memory w' x = v.memory w x) ∧
        ∀ g, f ≤ g → g < v.fs.numFats → ∀ x < v.fs.fatSize*128, v.copyAt w' g x =
          if x*4/512 = c*4/512 then field buf (x*4%512) 4 else v.copyAt w g x)
      fun _ _ => ¬(v.view w).Sound := by
  induction n generalizing f w with
  | zero => exact ends_pure ⟨rfl,fun _ _ => rfl,fun g hfg hg => by omega⟩
  | succ n ih =>
    have hsector := fat_sector hc
    have hhigh : (f+1)*v.fs.fatSize ≤ v.fs.numFats*v.fs.fatSize :=
      mul_le_mul_right _ (by omega)
    have hstart := v.start
    rw [succ_mul] at hhigh
    rw [Fat32Fs.writeCopies]
    have hbelow : v.fs.reservedSectors+c*4/512+f*v.fs.fatSize < v.fs.dataStart := by omega
    have hlt := hbelow.trans_le v.dataStart_le
    rw [(sector_inside hlt).1]
    refine Ends.bind (writeSector_inside hlt _) ?_
    rintro _ w₁ ⟨hm,hfails⟩
    refine Ends.mono (ih (w := w₁) (by omega)) ?_ ?_
    · rintro _ w' ⟨hfails',hsame,hcopies⟩
      rw [succ_mul] at hsame
      refine ⟨hfails'.trans hfails,fun x hx => ?_,fun g hfg hg x hx => ?_⟩
      · have hout : x < (v.fs.reservedSectors+(f*v.fs.fatSize+v.fs.fatSize))*512 ∨
            v.fs.dataStart*512 ≤ x :=
          hx.imp_left fun h => h.trans_le (mul_le_mul_right 512 (by omega))
        rw [hsame x hout, hm]
        apply write_outside
        rw [hlen]
        refine hx.imp (fun h => h.trans_le (mul_le_mul_right 512 (by omega))) fun h => ?_
        rw [← succ_mul]
        exact (mul_le_mul_right 512 hbelow).trans h
      · have hw₁ := copyAt_write (g := g) hc hx hlen hm
        by_cases hgf : g = f
        · have hkept : v.copyAt w' g x = v.copyAt w₁ g x := congrArg leNat (read_congr fun i hi =>
            hsame _ (.inl (by rw [hgf]; omega)))
          rw [hkept, hw₁]
          simp only [hgf, true_and]
        · rw [hcopies g (by omega) hg x hx, hw₁, if_neg (fun h : g = f ∧ _ => hgf h.1)]
    · exact fun _ _ hns hs => hns (hs.of_fails hfails)

theorem view_setFat {w' : Drives} {value : ℕ} (hvalue : value < 2^32) (hc : c < v.total)
    (hm : ∀ x, x < (v.fs.reservedSectors+v.fs.fatSize)*512 ∨ v.fs.dataStart*512 ≤ x →
      v.memory w' x = write (v.memory w) (v.fatAddr c) (toLe 4 value) x)
    (hf : w'.fails = w.fails) : v.view w' = (v.view w).setFat c value := by
  have hfat : (v.view w').fat = Function.update (v.view w).fat c value := by
    funext d
    by_cases hd : d < v.total
    · have hread : read (v.memory w') (v.fatAddr d) 4 =
          read (write (v.memory w) (v.fatAddr c) (toLe 4 value)) (v.fatAddr d) 4 :=
        read_congr fun i hi => hm _ (.inl (by have hend := fat_end hd; omega))
      rw [view_fat hd, hread]
      by_cases hdc : d = c
      · subst hdc
        have hself := read_write_self (v.memory w) (v.fatAddr d) (toLe 4 value)
        rw [length_toLe] at hself
        rw [update_self, hself, leNat_toLe]
        exact mod_eq_of_lt hvalue
      · rw [update_of_ne hdc, view_fat hd, read_write_disjoint]
        rw [length_toLe]
        unfold fatAddr
        omega
    · rw [update_of_ne (by rintro rfl; exact hd hc)]
      exact (if_neg hd).trans (if_neg hd).symm
  have hdata : (v.view w').data = (v.view w).data := by
    funext d
    by_cases hd : 2 ≤ d ∧ d < v.total
    · rw [view_data hd.1 hd.2, view_data hd.1 hd.2]
      refine read_congr fun i _ => ?_
      have hbegin : v.fs.dataStart*512 ≤ v.dataAddr d := data_begin d
      have hbefore : v.fatAddr c+4 ≤ v.dataAddr d := fat_before hc
      rw [hm _ (.inr (by omega)), write_outside _ (by rw [length_toLe]; omega)]
    · exact (if_neg hd).trans (if_neg hd).symm
  unfold View.setFat
  rw [← hdata, ← hfat]
  exact congrArg (View.mk _ _) hf

/-- The first copy gets the value, and in the other ones an entry stays or becomes that of the first. -/
theorem setFatEntry_copies (hc : c < v.fs.fatSize*128) (hsmall : c*4 < 2^32) (value : ℕ) :
    Ends (v.fs.setFatEntry v.disk c value) w
      (fun _ w' => w'.fails = w.fails ∧
        (∀ x, x < (v.fs.reservedSectors+v.fs.fatSize)*512 ∨ v.fs.dataStart*512 ≤ x →
          v.memory w' x = write (v.memory w) (v.fatAddr c) (toLe 4 (value%2^28)) x) ∧
        ∀ x < v.fs.fatSize*128, (x ≠ c → v.copyAt w' 0 x = v.copyAt w 0 x) ∧
          ∀ g < v.fs.numFats,
            x ≠ c ∧ v.copyAt w' g x = v.copyAt w g x ∨ v.copyAt w' g x = v.copyAt w' 0 x)
      fun _ _ => ¬(v.view w).Sound := by
  have hoffset : c*4%2^32 = c*4 := mod_eq_of_lt hsmall
  have hlt := ((fat_sector hc).trans_le v.fat_room).trans_le v.dataStart_le
  have hroom : c*4%512+4 ≤ 512 := by omega
  unfold Fat32Fs.setFatEntry
  rw [v.sector, if_neg (by decide)]
  simp only [hoffset, (sector_inside hlt).1]
  refine Ends.bind (readSector_inside hlt) ?_
  rintro buf w₀ ⟨hbuf,k,rfl⟩
  rw [sectorSize, if_neg hroom.not_gt, hbuf]
  have hlen : (patch (read (v.memory w) ((v.fs.reservedSectors+c*4/512)*512) 512) (c*4%512)
      (toLe 4 (value%2^28))).length = 512 := by
    rw [length_patch (by rw [length_toLe, length_read]; exact hroom), length_read]
  have hwrite : write (v.memory w) ((v.fs.reservedSectors+c*4/512)*512)
      (patch (read (v.memory w) ((v.fs.reservedSectors+c*4/512)*512) 512) (c*4%512)
        (toLe 4 (value%2^28))) = write (v.memory w) (v.fatAddr c) (toLe 4 (value%2^28)) := by
    rw [write_patch _ _ (by rw [length_toLe]; exact hroom), fatAddr_split]
  generalize patch (read (v.memory w) ((v.fs.reservedSectors+c*4/512)*512) 512) (c*4%512)
    (toLe 4 (value%2^28)) = sector at hlen hwrite ⊢
  obtain ⟨n,hn⟩ := Nat.exists_eq_add_of_le v.copies
  nth_rewrite 1 [hn]
  rw [add_comm 1 n, Fat32Fs.writeCopies, zero_mul, add_zero, (sector_inside hlt).1]
  refine Ends.bind (writeSector_inside hlt _) ?_
  rintro _ w₁ ⟨hsector,hf⟩
  have hm : v.memory w₁ = write (v.memory w) (v.fatAddr c) (toLe 4 (value%2^28)) :=
    hsector.trans hwrite
  rw [memory_moved, ← add_zero (v.fs.reservedSectors+c*4/512), ← zero_mul v.fs.fatSize]
    at hsector
  refine Ends.mono (writeCopies_ends hc hlen hn.symm) ?_ ?_
  · rintro _ w' ⟨hf',hsame,hcopies⟩
    rw [Nat.one_mul] at hsame
    refine ⟨hf'.trans hf,fun x hx => ?_,fun x hx => ?_⟩
    · rw [hsame x hx, hm]
    · have hfirst : v.copyAt w' 0 x = v.copyAt w₁ 0 x :=
        congrArg leNat (read_congr fun i hi => hsame _ (.inl (by omega)))
      have hwritten := fun g => copyAt_write (g := g) hc hx hlen hsector
      refine ⟨fun hxc => ?_,fun g hg => ?_⟩
      · rw [hfirst, copyAt, hm, read_write_disjoint]
        · rfl
        · rw [length_toLe]
          unfold fatAddr
          omega
      · rcases Nat.eq_zero_or_pos g with rfl | hpos
        · exact .inr rfl
        · rw [hfirst, hcopies g hpos hg x hx, hwritten g, hwritten 0,
            if_neg (fun h : g = 0 ∧ _ => hpos.ne' h.1)]
          by_cases hplace : x*4/512 = c*4/512
          · exact .inr (by rw [if_pos hplace, if_pos ⟨rfl,hplace⟩])
          · exact .inl ⟨fun h => hplace (by rw [h]),if_neg hplace⟩
  · exact fun _ _ hns hs => hns (hs.of_fails hf)

theorem setFatEntry_spec (hw : v.view w = A) (hc : c < v.total) (value : ℕ) :
    Ends (v.fs.setFatEntry v.disk c value) w
      (fun _ w' => v.view w' = A.setFat c (value%2^28) ∧ ∀ x < v.fs.fatSize*128,
        (x ≠ c → v.copyAt w' 0 x = v.copyAt w 0 x) ∧ ∀ g < v.fs.numFats,
          x ≠ c ∧ v.copyAt w' g x = v.copyAt w g x ∨ v.copyAt w' g x = v.copyAt w' 0 x)
      fun _ _ => ¬A.Sound := by
  subst hw
  have hsmall := cluster_small hc
  refine Ends.imp (setFatEntry_copies (fatAddr_small hc).1 (by omega) value) ?_
  rintro _ w' ⟨hf,hm,hcopies⟩
  exact ⟨view_setFat ((mod_lt _ (by decide)).trans (by decide)) hc hm hf,hcopies⟩

theorem setFatEntry_ends (hw : v.view w = A) (hc : c < v.total) (value : ℕ) :
    Ends (v.fs.setFatEntry v.disk c value) w (fun _ w' => v.view w' = A.setFat c (value%2^28))
      fun _ _ => ¬A.Sound :=
  Ends.imp (setFatEntry_spec hw hc value) fun _ _ h => h.1

/-! ## A small volume -/

/-- 300 clusters of one sector. -/
def small : FatVolume where
  fs := {
    bytesPerSector := 512
    sectorsPerCluster := 1
    reservedSectors := 1
    numFats := 1
    fatSize := 3
    rootCluster := 2
    dataStart := 4
    totalClusters := 300
    clusters := by decide
    byte := by decide}
  disk := ⟨0x1F0,false,304⟩
  sector := rfl
  word := by decide
  copies := le_rfl
  start := rfl
  covers := by decide
  numbered := by decide
  inside := by decide
  lba28 := by decide

/-- A drive with the given bytes at the given places. -/
def image (parts : List (ℕ × List UInt8)) : Drives where
  bytes := fun _ => parts.foldl (fun m p => write m p.1 p.2) fun _ => 0
  fails := fun _ => none
  transfers := 0

/-- Runs of one byte are evaluated without their lists. -/
theorem image_replicate (parts : List (ℕ × List UInt8)) (a n : ℕ) (b : UInt8) :
    image (parts++[(a,replicate n b)]) =
      {image parts with bytes := fun d => fill ((image parts).bytes d) a n b} := by
  unfold image
  rw [foldl_append, foldl_cons, foldl_nil, write_replicate]

end FatVolume

end Zohara.Fat32
