import Mathlib.Data.List.Find
import Zohara.FatFree
import Zohara.TwoRuns

/-!
# The reserved bits of FAT entries

The upper four bits of a FAT entry do not belong to the number in it. alloc_cluster takes them
away before it compares; next_cluster compares first, so an entry with a reserved bit is an end
marker for it, whatever number it has. Two disks whose FATs agree but for these bits are compared
under the same transfers, which may fail. A file is read along cluster numbers that have an entry
and whose sector numbers do not overflow; past that read_file_data may come to sectors of the FAT.
-/
namespace Zohara.Fat32.FatVolume
open ByteMemory FallibleState IdeDisk ElfImage
variable {v : FatVolume} {m m' : Memory} {c : ℕ}

def entryOf (v : FatVolume) (m : Memory) (c : ℕ) : ℕ := leNat (read m (v.fatAddr c) 4)

/-- The FATs agree in the low 28 bits of each entry, and the data areas agree. -/
structure SameLow (v : FatVolume) (m m' : Memory) : Prop where
  low : ∀ c, v.Addressed c → v.entryOf m' c%2^28 = v.entryOf m c%2^28
  data : ∀ a, v.fs.dataStart*512 ≤ a → m' a = m a

/-- The numbers that the links lead to from a start. -/
inductive Reaches (v : FatVolume) (m : Memory) (c : ℕ) : ℕ → Prop
  | start : Reaches v m c c
  | next {x : ℕ} : Reaches v m c x → linked (v.entryOf m x) ≠ 0 →
      Reaches v m c (linked (v.entryOf m x))

/-- The sectors of the cluster have numbers of 32 bits. -/
def Numbered (v : FatVolume) (c : ℕ) : Prop := v.fs.dataStart+(c-1)*v.fs.sectorsPerCluster ≤ 2^32

/-- Two drives with these contents, and the same transfers to come. -/
structure Holding (v : FatVolume) (m m' : Memory) (w w' : Drives) : Prop where
  left : v.memory w = m
  right : v.memory w' = m'
  fails : w'.fails = w.fails
  transfers : w'.transfers = w.transfers

/-- The calls that read the FAT give the same results. -/
structure SameReading (v : FatVolume) (m m' : Memory) : Prop where
  next : ∀ w w' c, v.Holding m m' w w' → v.Addressed c →
    answer (v.fs.nextCluster v.disk c) w = answer (v.fs.nextCluster v.disk c) w'
  read : ∀ w w' c size len, v.Holding m m' w w' →
    (∀ x, v.Reaches m c x → v.Addressed x ∧ v.Numbered x) →
    answer (v.fs.readFileData v.disk c size len) w = answer (v.fs.readFileData v.disk c size len) w'
  alloc : ∀ w w', v.Holding m m' w w' →
    answer (v.fs.allocCluster v.disk) w = answer (v.fs.allocCluster v.disk) w'

/-- The reserved bits of an entry that is neither free nor an end marker are zero in both FATs, or
in neither. -/
def SameHigh (v : FatVolume) (m m' : Memory) : Prop := ∀ c, v.Addressed c →
  v.entryOf m c%2^28 = 0 ∨ 0x0FFFFFF8 ≤ v.entryOf m c%2^28 ∨
    (2^28 ≤ v.entryOf m c ↔ 2^28 ≤ v.entryOf m' c)

theorem linked_same_iff {e e' : ℕ} (hlow : e'%2^28 = e%2^28) :
    (e = 0x0FFFFFF7 ↔ e' = 0x0FFFFFF7) ∧ linked e = linked e' ↔
      e%2^28 = 0 ∨ 0x0FFFFFF8 ≤ e%2^28 ∨ (2^28 ≤ e ↔ 2^28 ≤ e') := by
  unfold linked
  split_ifs <;> omega

theorem transfer_alike : Alike (v.Holding m m') Eq transfer transfer := by
  intro w w' h
  unfold transfer
  rw [h.fails, h.transfers]
  cases w.fails w.transfers with
  | none => exact .ok rfl ⟨h.left,h.right,rfl,rfl⟩
  | some msg => exact .error ⟨h.left,h.right,rfl,rfl⟩

theorem readSector_alike (lba : ℕ) : Alike (v.Holding m m')
    (fun bs bs' => bs = read m (lba*512) 512 ∧ bs' = read m' (lba*512) 512)
    (v.disk.readSector lba) (v.disk.readSector lba) := by
  unfold IdeDisk.readSector
  split_ifs with hlba
  · exact alike_throw _
  · rw [(sector_inside (not_le.mp hlba)).2]
    refine Alike.bind transfer_alike fun _ _ _ w w' h => .ok ?_ h
    rw [← h.left, ← h.right]
    exact ⟨rfl,rfl⟩

theorem nextCluster_alike (hlow : v.SameLow m m') (hhigh : v.SameHigh m m') (hc : v.Addressed c) :
    Alike (v.Holding m m') (fun d d' => d = d' ∧ d = linked (v.entryOf m c))
      (v.fs.nextCluster v.disk c) (v.fs.nextCluster v.disk c) := by
  obtain ⟨hbad,hlinked⟩ := (linked_same_iff (hlow.low c hc)).mpr (hhigh c hc)
  have haddr : v.fs.reservedSectors*512+c*4 = v.fatAddr c := by rw [Nat.mul_comm c]; rfl
  have hroom : v.fatAddr c%512+4 ≤ 512 := by
    unfold fatAddr
    omega
  have hentry : ∀ m : Memory, field (read m (v.fatAddr c/512*512) 512) (v.fatAddr c%512) 4 =
      v.entryOf m c := by
    intro m
    rw [field_read _ _ hroom, Nat.div_add_mod']
    rfl
  unfold Fat32Fs.nextCluster
  rw [v.sector, if_neg (by decide)]
  simp only [haddr, Nat.mod_eq_of_lt hc.2]
  refine Alike.bind (readSector_alike _) ?_
  rintro bs bs' ⟨hbs,hbs'⟩
  rw [sectorSize, if_neg hroom.not_gt, hbs, hbs', hentry, hentry]
  unfold linked at hlinked ⊢
  split_ifs at hlinked ⊢ with heoc heoc'
  all_goals first | exact alike_throw _ | exact alike_pure ⟨by omega,by omega⟩ | omega

theorem allocFrom_alike (hlow : v.SameLow m m') {sec n : ℕ} (h : sec+n = v.fs.fatSize) :
    Alike (v.Holding m m') Eq (v.fs.allocFrom v.disk sec n) (v.fs.allocFrom v.disk sec n) := by
  induction n generalizing sec with
  | zero => exact alike_throw _
  | succ n ih =>
    have hroom := v.fat_room
    have hle := v.dataStart_le
    have hlt : v.fs.reservedSectors+sec < v.disk.totalSectors := by omega
    have hentry : ∀ (m : Memory) {i : ℕ}, i < 128 →
        field (read m ((v.fs.reservedSectors+sec)*512) 512) (i*4) 4 = v.entryOf m (sec*128+i) := by
      intro m i hi
      have haddr : (v.fs.reservedSectors+sec)*512+i*4 = v.fatAddr (sec*128+i) := by
        unfold fatAddr
        omega
      rw [field_read _ _ (by omega), haddr]
      rfl
    rw [Fat32Fs.allocFrom, (sector_inside hlt).1]
    refine Alike.bind (readSector_alike _) ?_
    rintro bs bs' ⟨hbs,hbs'⟩
    rw [hbs, hbs']
    simp only [v.sector, show min (512/4) 128 = 128 from rfl, show 512/4 = 128 from rfl]
    have hnumbered := v.numbered
    have hfind : (List.range 128).find? (fun i =>
        field (read m' ((v.fs.reservedSectors+sec)*512) 512) (i*4) 4%2^28 = 0 ∧
          2 ≤ (sec*128+i)%2^32 ∧ (sec*128+i)%2^32 < v.fs.totalClusters) =
        (List.range 128).find? fun i =>
          field (read m ((v.fs.reservedSectors+sec)*512) 512) (i*4) 4%2^28 = 0 ∧
          2 ≤ (sec*128+i)%2^32 ∧ (sec*128+i)%2^32 < v.fs.totalClusters := by
      refine List.find?_congr fun i hi => ?_
      have hi := List.mem_range.mp hi
      rw [hentry m hi, hentry m' hi, Nat.mod_eq_of_lt (by omega : sec*128+i < 2^32)]
      by_cases hc : sec*128+i < v.fs.totalClusters
      · rw [hlow.low _ (fatAddr_small hc)]
      · simp only [hc, and_false]
    rw [hfind]
    split
    · exact alike_pure rfl
    · rw [if_neg (by decide)]
      exact ih (by omega)

theorem readSectors_alike (hlow : v.SameLow m m') {first s n : ℕ} (hfirst : v.fs.dataStart ≤ first)
    (h : first+s+n ≤ 2^32) : Alike (v.Holding m m') Eq (Fat32Fs.readSectors v.disk first s n)
      (Fat32Fs.readSectors v.disk first s n) := by
  induction n generalizing s with
  | zero => exact alike_pure rfl
  | succ n ih =>
    rw [Fat32Fs.readSectors, Nat.mod_eq_of_lt (by omega : first+s < 2^32)]
    refine Alike.bind (readSector_alike _) ?_
    rintro bs bs' ⟨hbs,hbs'⟩
    refine Alike.bind (ih (by omega)) ?_
    rintro rest _ rfl
    refine alike_pure ?_
    rw [hbs, hbs', read_congr fun i _ => hlow.data ((first+s)*512+i) (by omega)]

theorem readCluster_alike (hlow : v.SameLow m m') (hc : v.Numbered c) (len : ℕ) :
    Alike (v.Holding m m') Eq (v.fs.readCluster v.disk c len) (v.fs.readCluster v.disk c len) := by
  unfold Fat32Fs.readCluster
  by_cases h2 : c < 2
  · rw [if_pos h2]
    exact alike_throw _
  · rw [if_neg h2]
    split
    · exact alike_throw _
    · have hpos := v.fs.clusters
      have hroom : v.fs.dataStart+(c-2)*v.fs.sectorsPerCluster+v.fs.sectorsPerCluster ≤ 2^32 := by
        unfold Numbered at hc
        rwa [show c-1 = c-2+1 by omega, Nat.succ_mul, ← Nat.add_assoc] at hc
      rw [firstSector_fits (not_lt.mp h2) (by omega)]
      refine Alike.bind (readSectors_alike hlow (Nat.le_add_right _ _) (by omega)) ?_
      rintro bs _ rfl
      exact alike_pure rfl

theorem Reaches.tail {d x : ℕ} (hd : d = linked (v.entryOf m c)) (hne : d ≠ 0)
    (h : v.Reaches m d x) : v.Reaches m c x := by
  subst hd
  induction h with
  | start => exact .next .start hne
  | next _ hx ih => exact .next ih hx

theorem readLoop_alike (hlow : v.SameLow m m') (hhigh : v.SameHigh m m') (size len offset : ℕ)
    (hreach : ∀ x, v.Reaches m c x → v.Addressed x ∧ v.Numbered x) :
    Alike (v.Holding m m') Eq (v.fs.readLoop v.disk size len c offset)
      (v.fs.readLoop v.disk size len c offset) := by
  induction hk : len-offset using Nat.strong_induction_on generalizing c offset with
  | h k ih =>
    rw [Fat32Fs.readLoop]
    by_cases hmore : offset < len ∧ offset < size
    · rw [dif_pos hmore]
      have hc := hreach c .start
      have hpos := v.size_pos
      refine Alike.bind (readCluster_alike hlow hc.2 _) ?_
      rintro bs _ rfl
      refine Alike.bind (nextCluster_alike hlow hhigh hc.1) ?_
      rintro d _ ⟨rfl,hd⟩
      split_ifs with hzero
      · exact alike_pure rfl
      · rw [v.clusterBytes_eq]
        refine Alike.bind (ih _ ?_ _ (fun x hx => hreach x (hx.tail hd hzero)) rfl) ?_
        · omega
        · rintro rest _ rfl
          exact alike_pure rfl
    · rw [dif_neg hmore]
      exact alike_pure rfl

/-- A drive with these contents, whose transfers do not fail. -/
def holder (m : Memory) : Drives := ⟨fun _ => m,fun _ => none,0⟩

theorem nextCluster_holder (hc : v.Addressed c) :
    answer (v.fs.nextCluster v.disk c) (holder m) = if v.entryOf m c = 0x0FFFFFF7
      then .error (.err "bad cluster") else .ok (linked (v.entryOf m c)) := by
  have hentry : v.copyAt (holder m) 0 c = v.entryOf m c := by
    rw [copyAt, Nat.zero_mul]
    rfl
  have hend := nextCluster_entry (w := holder m) hc.1 hc.2
  rw [hentry] at hend
  cases hrun : v.fs.nextCluster v.disk c (holder m) with
  | ok d w' =>
    obtain ⟨hgood,hd,_⟩ := hend.ok hrun
    rw [answer_ok hrun, if_neg hgood, hd]
  | error e w' =>
    obtain hns | ⟨hbad,he,_⟩ := hend.error hrun
    · exact absurd (fun _ => rfl) hns
    · rw [answer_error hrun, if_pos hbad, he]

/-- The readers do not see the reserved bits if and only if the bits of the entries with a number
to follow agree too. The cluster that alloc_cluster returns has zero in the low 28 bits of its
entry in any case. -/
theorem reserved_bits_iff (hlow : v.SameLow m m') : (v.SameReading m m' ↔ v.SameHigh m m') ∧
    ∀ w d, answer (v.fs.allocCluster v.disk) w = .ok d → v.copyAt w 0 d%2^28 = 0 := by
  refine ⟨⟨fun h c hc => ?_,fun h => ⟨?_,?_,?_⟩⟩,fun w d hd => (allocCluster_free hd).2.2⟩
  · have hnext := h.next (holder m) (holder m') c ⟨rfl,rfl,rfl,rfl⟩ hc
    rw [nextCluster_holder hc, nextCluster_holder hc] at hnext
    apply (linked_same_iff (hlow.low c hc)).mp
    by_cases hbad : v.entryOf m c = 0x0FFFFFF7
    · by_cases hbad' : v.entryOf m' c = 0x0FFFFFF7
      · rw [hbad, hbad']
        exact ⟨Iff.rfl,rfl⟩
      · rw [if_pos hbad, if_neg hbad'] at hnext
        cases hnext
    · by_cases hbad' : v.entryOf m' c = 0x0FFFFFF7
      · rw [if_neg hbad, if_pos hbad'] at hnext
        cases hnext
      · rw [if_neg hbad, if_neg hbad'] at hnext
        exact ⟨iff_of_false hbad hbad',Except.ok.inj hnext⟩
  · exact fun w w' c hw hc => ((nextCluster_alike hlow h hc).imp fun _ _ h => h.1).answer hw
  · exact fun w w' c size len hw hreach => (readLoop_alike hlow h size len 0 hreach).answer hw
  · exact fun w w' hw => (allocFrom_alike hlow (Nat.zero_add _)).answer hw

/-- Cluster 2 has the entry, and all else is zero. -/
def linkOf (e : ℕ) : Memory := write (fun _ => 0) 520 (toLe 4 e)

theorem linkOf_sameLow {e e' : ℕ}
    (h : ∀ c < 384, small.entryOf (linkOf e') c%2^28 = small.entryOf (linkOf e) c%2^28) :
    small.SameLow (linkOf e) (linkOf e') where
  low := fun c hc => h c hc.1
  data := by
    intro a ha
    have hzero : ∀ e, linkOf e a = 0 := by
      intro e
      have hfar : 2048 ≤ a := ha
      apply write_outside
      rw [length_toLe]
      omega
    rw [hzero, hzero]

theorem reserved_bits_end_marker : small.SameLow (linkOf 0x0FFFFFF8) (linkOf 0xFFFFFFF8) ∧
    small.SameReading (linkOf 0x0FFFFFF8) (linkOf 0xFFFFFFF8) := by
  have heval : (∀ c < 384, small.entryOf (linkOf 0xFFFFFFF8) c%2^28 =
        small.entryOf (linkOf 0x0FFFFFF8) c%2^28) ∧
      ∀ c < 384, small.entryOf (linkOf 0x0FFFFFF8) c%2^28 = 0 ∨
        0x0FFFFFF8 ≤ small.entryOf (linkOf 0x0FFFFFF8) c%2^28 := by decide +kernel
  have hlow := linkOf_sameLow heval.1
  refine ⟨hlow,(reserved_bits_iff hlow).1.mpr fun c hc => ?_⟩
  exact (heval.2 c hc.1).imp_right .inl

/-- A link from cluster 2 to cluster 3, with and without a reserved bit. -/
theorem reserved_bit_cuts_file : small.SameLow (linkOf 3) (linkOf 0x10000003) ∧
    answer (small.fs.nextCluster small.disk 2) (holder (linkOf 3)) = .ok 3 ∧
    answer (small.fs.nextCluster small.disk 2) (holder (linkOf 0x10000003)) = .ok 0 ∧
    answer (small.fs.readFileData small.disk 2 1024 1024) (holder (linkOf 3)) =
      .ok (List.replicate 1024 0) ∧
    answer (small.fs.readFileData small.disk 2 1024 1024) (holder (linkOf 0x10000003)) =
      .ok (List.replicate 512 0) := by
  have hlow : ∀ c < 384, small.entryOf (linkOf 0x10000003) c%2^28 =
      small.entryOf (linkOf 3) c%2^28 := by decide +kernel
  refine ⟨linkOf_sameLow hlow,?_⟩
  decide +kernel

end Zohara.Fat32.FatVolume
