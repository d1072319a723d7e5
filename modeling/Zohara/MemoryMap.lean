import Zohara.KernelRuns
import Zohara.ManagedRam

/-!
# The Multiboot memory map at boot (src/arch/x86_64/e820.rs, src/main.rs)

The kernel boots with 1 GiB, builds its page tables, then reads the memory map:
one pass computes the end of usable RAM and marks reserved regions in the frame
allocator. Only after the pass is the allocator told the real size.

So a region is marked only below 1 GiB, and only if usable RAM seen earlier in
the map reaches above its base. The regions of the map stay closed exactly when
every frame they touch was in use before or is marked by that one pass.

The map is read from physical memory after its pages have been mapped. Console
output is left out.
-/
namespace Zohara.MemoryMap
open ByteMemory FrameAllocator FrameRefinement PageTables PageEntry TableHeap List Option
  KernelTables KernelRuns ManagedRam Runs

variable {mem : Memory} {rs : List Region} {s : State} {m : Machine}

/-! ## The source -/

/-- One entry of the map: base, length and type. -/
structure Region where
  base : ℕ
  len : ℕ
  typ : ℕ
  deriving DecidableEq, Repr

/-- The saturating sum of the source. -/
def Region.fin (ρ : Region) : ℕ := min (ρ.base+ρ.len) (2^64-1)

/-- A little-endian field of four bytes. -/
def readU32 (mem : Memory) (a : ℕ) : ℕ := leNat (read mem a 4)

/-- Where the map is, or `none` when the source falls back to 1 GiB. -/
def mapLocation (mbMagic mbInfo : ℕ) (mem : Memory) : Option (ℕ × ℕ) :=
  if mbMagic ≠ 0x2BADB002 then none else
  if mbInfo = 0 then none else
  if (readU32 mem mbInfo >>> 6)%2 = 0 then none else
  let mmapAddr := readU32 mem (mbInfo+48)
  let mmapLen := readU32 mem (mbInfo+44)
  if mmapAddr = 0 ∨ mmapLen = 0 then none else some (mmapAddr,mmapLen)

/-- Map the pages of the buffer. -/
def mapBuffer (mmapAddr mmapLen : ℕ) (m : Machine) : Option Machine :=
  (List.range ((mmapLen+0xFFF)/0x1000)).foldlM
    (fun m i => mapPage m (mmapAddr/0x1000*0x1000+i*0x1000)) m

/-- The entries from an offset on. Every entry advances the offset, so the length is
fuel enough. -/
def readEntries (mem : Memory) (mmapAddr mmapLen : ℕ) : ℕ → ℕ → List Region
  | 0,_ => []
  | fuel+1,offset =>
    if offset+24 ≤ mmapLen then
      let entry := mmapAddr+offset
      let entrySize := readU32 mem entry
      ⟨(readU64 mem (entry+4)).toNat,(readU64 mem (entry+12)).toNat,readU32 mem (entry+20)⟩::
        readEntries mem mmapAddr mmapLen fuel
          (offset+if entrySize > 0 then entrySize+4 else 24)
    else []

def readMap (mem : Memory) (mmapAddr mmapLen : ℕ) : List Region :=
  readEntries mem mmapAddr mmapLen mmapLen 0

/-- Reserved, ACPI reclaimable and ACPI NVS memory. -/
def Region.Reserved (ρ : Region) : Prop := ρ.typ = 2 ∨ ρ.typ = 3 ∨ ρ.typ = 4

instance (ρ : Region) : Decidable ρ.Reserved := inferInstanceAs (Decidable (_ ∨ _ ∨ _))

/-- The body of the parse loop: total_usable and the allocator. -/
def scanRegion (st : ℕ × State) (ρ : Region) : ℕ × State :=
  if ρ.typ = 1 then (max st.1 ρ.fin,st.2)
  else if ρ.Reserved then
    if ρ.len > 0 ∧ ρ.base < st.1 then (st.1,markUsed .x86_64 ρ.base ρ.fin st.2) else st
  else st

def scanMap (rs : List Region) (s : State) : ℕ × State := rs.foldl scanRegion (0,s)

def detectMemory (mbMagic mbInfo : ℕ) (m : Machine) : Option (ℕ × Machine) :=
  match mapLocation mbMagic mbInfo m.mem with
  | none => some (2^30,m)
  | some (mmapAddr,mmapLen) => do
    let m ← mapBuffer mmapAddr mmapLen m
    let r := scanMap (readMap m.mem mmapAddr mmapLen) m.frames
    some (if r.1 = 0 then 2^30 else r.1,{m with frames := r.2})

/-- The machine when kernel_main starts, with whatever the loader left in memory. -/
def powerOn (kernelEnd : ℕ) (mem : Memory) : Machine := ⟨mem,boot .x86_64 kernelEnd (2^30),0⟩

/-- The boot phases of kernel_main up to the resize: the detected size and the
machine. -/
def bootPhases (kernelEnd mbMagic mbInfo : ℕ) (mem : Memory) : Option (ℕ × Machine) := do
  let m ← PageTables.init (powerOn kernelEnd mem)
  let (realRam,m) ← detectMemory mbMagic mbInfo m
  some (realRam,if realRam > 2^30 then {m with frames := reinit realRam m.frames} else m)

/-- The map as the parse loop reads it, and the allocator at that time. -/
def mapAtBoot (kernelEnd mbMagic mbInfo : ℕ) (mem : Memory) : Option (List Region × State) := do
  let m ← PageTables.init (powerOn kernelEnd mem)
  let (mmapAddr,mmapLen) ← mapLocation mbMagic mbInfo m.mem
  let m ← mapBuffer mmapAddr mmapLen m
  some (readMap m.mem mmapAddr mmapLen,m.frames)

/-! ## The bytes of the map -/

theorem readEntries_enough {mmapAddr mmapLen fuel fuel' offset : ℕ}
    (h : mmapLen ≤ offset+fuel) (h' : mmapLen ≤ offset+fuel') :
    readEntries mem mmapAddr mmapLen fuel offset = readEntries mem mmapAddr mmapLen fuel' offset := by
  induction fuel generalizing fuel' offset with
  | zero =>
    cases fuel' with
    | zero => rfl
    | succ fuel' => rw [readEntries, readEntries, if_neg (by omega)]
  | succ fuel ih =>
    cases fuel' with
    | zero => rw [readEntries, readEntries, if_neg (by omega)]
    | succ fuel' =>
      rw [readEntries, readEntries]
      split_ifs with hin
      · dsimp only
        refine congrArg _ (ih ?_ ?_)
        · split_ifs <;> omega
        · split_ifs <;> omega
      · rfl

theorem readEntries_congr {mem' : Memory} {mmapAddr mmapLen : ℕ}
    (h : ∀ x, mmapAddr ≤ x → x < mmapAddr+mmapLen → mem' x = mem x) (fuel offset : ℕ) :
    readEntries mem' mmapAddr mmapLen fuel offset = readEntries mem mmapAddr mmapLen fuel offset := by
  induction fuel generalizing offset with
  | zero => rfl
  | succ fuel ih =>
    rw [readEntries, readEntries]
    split_ifs with hin
    · have h32 : ∀ a, mmapAddr ≤ a → a+4 ≤ mmapAddr+mmapLen → readU32 mem' a = readU32 mem a := by
        intro a hlo hhi
        unfold readU32
        rw [read_congr fun i hi => h (a+i) (by omega) (by omega)]
      have h64 : ∀ a, mmapAddr ≤ a → a+8 ≤ mmapAddr+mmapLen → readU64 mem' a = readU64 mem a :=
        fun a hlo hhi => readU64_congr fun i hi => h (a+i) (by omega) (by omega)
      dsimp only
      rw [h32 (mmapAddr+offset) (by omega) (by omega), h32 (mmapAddr+offset+20) (by omega) (by omega),
        h64 (mmapAddr+offset+4) (by omega) (by omega), h64 (mmapAddr+offset+12) (by omega) (by omega),
        ih]
    · rfl

/-! ## The parse loop -/

/-- The end of usable RAM that a map reports. -/
def usableEnd (rs : List Region) : ℕ := (rs.map fun ρ => if ρ.typ = 1 then ρ.fin else 0).foldl max 0

theorem usableEnd_snoc (rs : List Region) (ρ : Region) :
    usableEnd (rs++[ρ]) = max (usableEnd rs) (if ρ.typ = 1 then ρ.fin else 0) := by
  simp [usableEnd]

/-- The frame is touched by a reserved region that lies behind enough usable RAM in
the map. -/
def Marked (rs : List Region) (f : ℕ) : Prop :=
  ∃ pre ρ post, rs = pre++ρ::post ∧ ρ.Reserved ∧ ρ.base < usableEnd pre ∧
    Overlaps .x86_64 ρ.base ρ.fin f

theorem marked_snoc {ρ : Region} {f : ℕ} :
    Marked (rs++[ρ]) f ↔ Marked rs f ∨
      (ρ.Reserved ∧ ρ.base < usableEnd rs ∧ Overlaps .x86_64 ρ.base ρ.fin f) := by
  constructor
  · rintro ⟨pre,σ,post,he,hr,hb,ho⟩
    rcases eq_nil_or_concat post with rfl | ⟨post',τ,rfl⟩
    · obtain ⟨rfl,hσ⟩ := append_inj' he rfl
      obtain rfl := singleton_inj.mp hσ
      exact .inr ⟨hr,hb,ho⟩
    · rw [concat_eq_append, ← cons_append, ← append_assoc] at he
      obtain ⟨rfl,-⟩ := append_inj' he rfl
      exact .inl ⟨pre,σ,post',rfl,hr,hb,ho⟩
  · rintro (⟨pre,σ,post,rfl,hr,hb,ho⟩ | ⟨hr,hb,ho⟩)
    · exact ⟨pre,σ,post++[ρ],by simp,hr,hb,ho⟩
    · exact ⟨rs,ρ,[],rfl,hr,hb,ho⟩

/-- The allocator as it is while the map is read. -/
structure Provisional (s : State) : Prop where
  valid : Valid s
  ram : s.totalRam = 2^30
  count : s.actualFrameCount = 2^18

theorem Provisional.placed (h : Provisional s) (start fin : ℕ) :
    MarkPlaced .x86_64 s start fin := by
  intro hlt
  have hb : ramBase .x86_64 = 0 := rfl
  refine ⟨by omega,fun hgap => ?_⟩
  rw [h.ram, h.count, startAddress, hb, frameSize] at hgap
  omega

theorem Provisional.markUsed (h : Provisional s) (start fin : ℕ) :
    Provisional (markUsed .x86_64 start fin s) := by
  obtain ⟨hc,hr⟩ := markUsed_frame .x86_64 start fin s
  exact ⟨markUsed_valid _ _ _ h.valid,hr.trans h.ram,hc.trans h.count⟩

theorem scanMap_spec (rs : List Region) (h : Provisional s) :
    (scanMap rs s).1 = usableEnd rs ∧ Provisional (scanMap rs s).2 ∧
      ∀ f, f ∈ usedFrames (scanMap rs s).2 ↔ f ∈ usedFrames s ∨ (f < 2^18 ∧ Marked rs f) := by
  induction rs using List.reverseRecOn with
  | nil =>
    refine ⟨rfl,h,fun f => ⟨.inl,fun hf => ?_⟩⟩
    rcases hf with hf | ⟨-,pre,ρ,post,he,-⟩
    · exact hf
    · simp at he
  | append_singleton rs ρ ih =>
    obtain ⟨htotal,hp,hused⟩ := ih
    have hstep : scanMap (rs++[ρ]) s = scanRegion (scanMap rs s) ρ := by
      unfold scanMap
      rw [foldl_append]
      rfl
    rw [hstep, scanRegion, usableEnd_snoc]
    have hnone : ¬ρ.Reserved ∨ ¬(ρ.len > 0 ∧ ρ.base < usableEnd rs) →
        ∀ f, Marked (rs++[ρ]) f ↔ Marked rs f := by
      intro hn f
      rw [marked_snoc]
      refine ⟨fun hm => ?_,.inl⟩
      rcases hm with hm | ⟨hr,hb,ho⟩
      · exact hm
      · rcases hn with hn | hn
        · exact (hn hr).elim
        · refine (hn ⟨?_,hb⟩).elim
          have hlt := ho.1
          unfold Region.fin at hlt
          omega
    split_ifs with ht hr hm
    · have hnr : ¬ρ.Reserved := by
        unfold Region.Reserved
        omega
      refine ⟨by rw [htotal],hp,fun f => ?_⟩
      rw [hnone (.inl hnr)]
      exact hused f
    · rw [htotal] at hm
      refine ⟨by simp [htotal],hp.markUsed _ _,fun f => ?_⟩
      rw [usedFrames_markUsed hp.valid (hp.placed _ _), Finset.mem_union, Finset.mem_filter,
        Finset.mem_range, hp.count, hused, marked_snoc]
      tauto
    · rw [htotal] at hm
      refine ⟨by simp [htotal],hp,fun f => ?_⟩
      rw [hnone (.inr hm)]
      exact hused f
    · refine ⟨by simp [htotal],hp,fun f => ?_⟩
      rw [hnone (.inl hr)]
      exact hused f

/-! ## The allocator while the tables are built -/

section
variable {P : State → Prop} {m m' : Machine}

theorem foldlM_frames {α : Type} {step : Machine → α → Option Machine}
    (hs : ∀ m a m', step m a = some m' → P m.frames → P m'.frames) (as : List α)
    (h : as.foldlM step m = some m') (hm : P m.frames) : P m'.frames := by
  induction as generalizing m with
  | nil =>
    cases h
    exact hm
  | cons a as ih =>
    rw [foldlM_cons] at h
    obtain ⟨m₁,h₁,h⟩ := bind_eq_some_iff.mp h
    exact ih h (hs m a m₁ h₁ hm)

variable (hP : ∀ s, P s → P (allocateFrame s).2)
include hP

theorem allocTableOrHalt_frames {pa : ℕ} (h : m.allocTableOrHalt = some (pa,m'))
    (hm : P m.frames) : P m'.frames := by
  have hnext := hP _ hm
  unfold Machine.allocTableOrHalt at h
  split at h
  · rename_i f s ha
    rw [ha] at hnext
    cases h
    exact hnext
  · cases h

theorem nextTable_frames {table idx pa : ℕ} (h : nextTable m table idx = some (pa,m'))
    (hm : P m.frames) : P m'.frames := by
  unfold nextTable at h
  split_ifs at h
  · cases h
    exact hm
  · obtain ⟨⟨a,m₁⟩,h₁,h⟩ := bind_eq_some_iff.mp h
    cases h
    rw [setEntry_frames, zeroTable_frames]
    exact allocTableOrHalt_frames hP h₁ hm

theorem splitBlock_frames {pd idx pa : ℕ} {link : ℕ → Entry}
    (h : splitBlock m pd idx link = some (pa,m')) (hm : P m.frames) : P m'.frames := by
  obtain ⟨⟨a,m₁⟩,h₁,h⟩ := bind_eq_some_iff.mp h
  cases h
  rw [setEntry_frames, foldl_setEntry_frames, zeroTable_frames]
  exact allocTableOrHalt_frames hP h₁ hm

theorem mapWith_frames {leaf : ℕ → Entry} {virt : ℕ} (h : mapWith leaf m virt = some m')
    (hm : P m.frames) : P m'.frames := by
  rw [mapWith_eq] at h
  obtain ⟨⟨a,m₁⟩,h₁,h⟩ := bind_eq_some_iff.mp h
  obtain ⟨⟨b,m₂⟩,h₂,h⟩ := bind_eq_some_iff.mp h
  obtain ⟨⟨c,m₃⟩,h₃,h⟩ := bind_eq_some_iff.mp h
  cases h
  have p₂ := nextTable_frames hP h₂ (nextTable_frames hP h₁ hm)
  rw [setEntry_frames]
  unfold tableBehind at h₃
  split_ifs at h₃
  · exact splitBlock_frames hP h₃ p₂
  · exact nextTable_frames hP h₃ p₂

theorem initDirectory_frames {pdpt j : ℕ} (h : initDirectory pdpt m j = some m')
    (hm : P m.frames) : P m'.frames := by
  obtain ⟨⟨a,m₁⟩,h₁,h⟩ := bind_eq_some_iff.mp h
  obtain rfl := some.inj h
  rw [foldl_setEntry_frames _ _ _ fun _ i => page2mb (j*0x40000000+i*0x200000), zeroTable_frames,
    setEntry_frames]
  exact allocTableOrHalt_frames hP h₁ hm

theorem init_frames (h : PageTables.init m = some m') (hm : P m.frames) : P m'.frames := by
  obtain ⟨⟨a,x⟩,ha,h⟩ := bind_eq_some_iff.mp h
  obtain ⟨⟨b,y⟩,hb,h⟩ := bind_eq_some_iff.mp h
  obtain ⟨z,hz,h⟩ := bind_eq_some_iff.mp h
  cases h
  change P z.frames
  refine foldlM_frames (fun m j m' hs hm => initDirectory_frames hP hs hm) [0,1] hz ?_
  rw [zeroTable_frames, setEntry_frames, zeroTable_frames]
  exact allocTableOrHalt_frames hP hb (allocTableOrHalt_frames hP ha hm)

end

theorem Provisional.allocate (s : State) (h : Provisional s) : Provisional (allocateFrame s).2 :=
  ⟨allocateFrame_valid h.valid,(allocateFrame_totalRam s).trans h.ram,
    (allocateFrame_count s).trans h.count⟩

theorem provisional_boot (kernelEnd : ℕ) : Provisional (boot .x86_64 kernelEnd (2^30)) := by
  have hs : frameSize ≤ 2^30 := by decide
  exact ⟨boot_valid _ _ hs,(boot_totalRam kernelEnd hs).trans (by decide),
    (boot_count kernelEnd hs).trans (by decide)⟩

theorem mapAtBoot_provisional {kernelEnd mbMagic mbInfo : ℕ}
    (h : mapAtBoot kernelEnd mbMagic mbInfo mem = some (rs,s)) : Provisional s := by
  obtain ⟨m₁,h₁,h⟩ := bind_eq_some_iff.mp h
  obtain ⟨⟨addr,len⟩,-,h⟩ := bind_eq_some_iff.mp h
  obtain ⟨m₂,h₂,h⟩ := bind_eq_some_iff.mp h
  cases h
  have p₁ := init_frames Provisional.allocate h₁ (provisional_boot kernelEnd)
  exact foldlM_frames (fun m i m' hs hm => mapWith_frames Provisional.allocate hs hm) _ h₂ p₁

variable {kernelEnd mbMagic mbInfo total : ℕ}

theorem bootPhases_eq (h : bootPhases kernelEnd mbMagic mbInfo mem = some (total,m))
    (ht : 2^30 < total) (hr : mapAtBoot kernelEnd mbMagic mbInfo mem = some (rs,s)) :
    total = (scanMap rs s).1 ∧ m.frames = reinit total (scanMap rs s).2 := by
  obtain ⟨m₁,h₁,h⟩ := bind_eq_some_iff.mp h
  obtain ⟨⟨real,m₂⟩,hd,h⟩ := bind_eq_some_iff.mp h
  obtain ⟨m₁',h₁',hr⟩ := bind_eq_some_iff.mp hr
  cases h₁.symm.trans h₁'
  obtain ⟨⟨addr,len⟩,hl,hr⟩ := bind_eq_some_iff.mp hr
  obtain ⟨m₃,hb,hr⟩ := bind_eq_some_iff.mp hr
  cases hr
  cases h
  unfold detectMemory at hd
  rw [hl] at hd
  dsimp only at hd
  rw [hb, bind_eq_bind, bind_some] at hd
  obtain ⟨htotal,rfl⟩ := Prod.mk.inj (some.inj hd)
  dsimp only at htotal ht ⊢
  rw [if_pos ht]
  split_ifs at htotal with hz
  · omega
  · exact ⟨htotal.symm,rfl⟩

/-! ## Which frames are handed out -/

/-- The number of frames tracked after the resize. -/
def trackedFrames (total : ℕ) : ℕ := (min total (maxFrameCount*frameSize)/frameSize+63)/64*64

theorem boot_handedOut_iff (h : bootPhases kernelEnd mbMagic mbInfo mem = some (total,m))
    (hr : mapAtBoot kernelEnd mbMagic mbInfo mem = some (rs,s)) (ht : 2^30 < total) :
    total = usableEnd rs ∧ ∀ f,
      (∃ as s', Run Allocation m.frames as s' ∧ (allocateFrame s').1 = some f) ↔
        f < trackedFrames (usableEnd rs) ∧
          ¬(f ∈ usedFrames s ∨ (f < 2^18 ∧ Marked rs f)) := by
  obtain ⟨htotal,hframes⟩ := bootPhases_eq h ht hr
  obtain ⟨hend,hp,hused⟩ := scanMap_spec rs (mapAtBoot_provisional hr)
  rw [hend] at htotal
  obtain ⟨-,hvalid,husedEq⟩ := reinit_grows hp.valid (hp.ram.le.trans ht.le)
  obtain ⟨hram,-,hwords,hcount⟩ := reinit_eq total (scanMap rs s).2
  refine ⟨htotal,fun f => ?_⟩
  rw [hframes, handedOut_iff hvalid, ← htotal, freeFrames, Finset.mem_sdiff, Finset.mem_range, husedEq,
    hused, hcount, hwords, hram]
  rfl

/-- After boot no reserved region below the detected size is handed out, exactly when
every tracked frame that such a region touches was in use when the map was read or
lies below 1 GiB and is marked. -/
theorem boot_reserved_iff {kernelEnd mbMagic mbInfo total : ℕ} {mem : Memory} {m : Machine}
    {rs : List Region} {s : State} (h : bootPhases kernelEnd mbMagic mbInfo mem = some (total,m))
    (hr : mapAtBoot kernelEnd mbMagic mbInfo mem = some (rs,s)) (ht : 2^30 < total) :
    (∀ as s' f, Run Allocation m.frames as s' → (allocateFrame s').1 = some f →
      ∀ ρ ∈ rs, ρ.Reserved → ρ.base < total → ¬Overlaps .x86_64 ρ.base ρ.fin f) ↔
    ∀ ρ ∈ rs, ρ.Reserved → ρ.base < usableEnd rs → ∀ f < trackedFrames (usableEnd rs),
      Overlaps .x86_64 ρ.base ρ.fin f → f ∈ usedFrames s ∨ (f < 2^18 ∧ Marked rs f) := by
  obtain ⟨htotal,hout⟩ := boot_handedOut_iff h hr ht
  rw [htotal]
  constructor
  · intro hall ρ hρ hres hbase f hf ho
    by_contra hn
    obtain ⟨as,s',r,ha⟩ := (hout f).mpr ⟨hf,hn⟩
    exact hall as s' f r ha ρ hρ hres hbase ho
  · intro hcond as s' f r ha ρ hρ hres hbase ho
    obtain ⟨hf,hn⟩ := (hout f).mp ⟨as,s',r,ha⟩
    exact hn (hcond ρ hρ hres hbase f hf ho)

/-! ## Two maps -/

def Region.encode (ρ : Region) : List UInt8 :=
  toLe 4 20++toLe 8 ρ.base++toLe 8 ρ.len++toLe 4 ρ.typ

/-- Memory as a loader leaves it: the info structure at 0x9000, the map behind it. -/
def loaderMemory (rs : List Region) : Memory :=
  write (write (fun _ => 0) 0x9000 (toLe 4 0x40++List.replicate 40 0++toLe 4 (24*rs.length)++
    toLe 4 0x9100)) 0x9100 (rs.flatMap Region.encode)

theorem exists_boot (mem : Memory) (len : ℕ) (rs : List Region)
    (hl : mapLocation 0x2BADB002 0x9000 mem = some (0x9100,len)) (hpos : 0 < len)
    (hlen : len ≤ 0xF00) (hm : readMap mem 0x9100 len = rs) (ht : 2^30 < usableEnd rs) :
    ∃ m s, bootPhases 0x900000 0x2BADB002 0x9000 mem = some (usableEnd rs,m) ∧
      mapAtBoot 0x900000 0x2BADB002 0x9000 mem = some (rs,s) := by
  have hs : frameSize ≤ 2^30 := by decide
  have hv : Valid (powerOn 0x900000 mem).frames := boot_valid .x86_64 0x900000 hs
  have hroom₀ : Room (bootMachine 0x900000 (2^30)) 10 := bootMachine_room hs (by decide)
  have hroom : Room (powerOn 0x900000 mem) 10 := hroom₀.of_frames rfl
  obtain ⟨m,⟨mᵢ,hi,hrun⟩,-⟩ := kernelRun_room (n := 3) hv [.mapPage 0x9000] hroom
  have hframe : ∀ x, 0x9000 ≤ x → x < 0xA000 → x/4096 ∈ used (powerOn 0x900000 mem) := by
    intro x hlo hhi
    refine (mem_usedFrames_boot hs).mpr ⟨?_,.inr ?_⟩
    · have : min (2^30) (maxFrameCount*frameSize)/frameSize = 2^18 := by decide
      omega
    · unfold frameSize
      omega
  have hmᵢ : ∀ x, 0x9000 ≤ x → x < 0xA000 → mᵢ.mem x = mem x := fun x hlo hhi =>
    init_kept hv hi (hframe x hlo hhi)
  have hmm : ∀ x, 0x9000 ≤ x → x < 0xA000 → m.mem x = mem x := fun x hlo hhi =>
    kernelRun_kept hv ⟨mᵢ,hi,hrun⟩ (hframe x hlo hhi)
  have hloc : mapLocation 0x2BADB002 0x9000 mᵢ.mem = some (0x9100,len) := by
    have h32 : ∀ a, 0x9000 ≤ a → a+4 ≤ 0xA000 → readU32 mᵢ.mem a = readU32 mem a := by
      intro a hlo hhi
      unfold readU32
      rw [read_congr fun i hi => hmᵢ (a+i) (by omega) (by omega)]
    rw [← hl]
    unfold mapLocation
    rw [h32 0x9000 (by omega) (by omega), h32 (0x9000+48) (by omega) (by omega),
      h32 (0x9000+44) (by omega) (by omega)]
  have hbuf : mapBuffer 0x9100 len mᵢ = some m := by
    cases hrun with
    | next hstart hstep =>
      cases hstart
      have hcount : (len+0xFFF)/0x1000 = 1 := by omega
      have hstep' : mapPage mᵢ 0x9000 = some m := hstep
      unfold mapBuffer
      rw [hcount]
      change (mapPage mᵢ 0x9000).bind _ = _
      rw [hstep']
      rfl
  have hmap : readMap m.mem 0x9100 len = rs := by
    rw [← hm]
    exact readEntries_congr (fun x hlo hhi => hmm x (by omega) (by omega)) _ _
  have hread : mapAtBoot 0x900000 0x2BADB002 0x9000 mem = some (rs,m.frames) := by
    unfold mapAtBoot
    rw [hi, bind_eq_bind, bind_some, hloc, bind_eq_bind, bind_some]
    dsimp only
    rw [hbuf, bind_some, hmap]
  have hscan := (scanMap_spec rs (mapAtBoot_provisional hread)).1
  have hdetect : detectMemory 0x2BADB002 0x9000 mᵢ =
      some (usableEnd rs,{m with frames := (scanMap rs m.frames).2}) := by
    unfold detectMemory
    rw [hloc]
    dsimp only
    rw [hbuf, bind_eq_bind, bind_some, hmap, hscan, if_neg (by omega)]
  refine ⟨{m with frames := reinit (usableEnd rs) (scanMap rs m.frames).2},m.frames,?_,hread⟩
  unfold bootPhases
  rw [hi, bind_eq_bind, bind_some, hdetect, bind_eq_bind, bind_some]
  dsimp only
  rw [if_pos ht]

/-- 2 GiB of usable RAM, then a reserved page at 16 MiB. -/
def lowReserved : List Region := [⟨0,0x80000000,1⟩,⟨0x1000000,0x1000,2⟩]

/-- 3 GiB of usable RAM, then a reserved page at 2 GiB. -/
def highReserved : List Region := [⟨0,0xC0000000,1⟩,⟨0x80000000,0x1000,2⟩]

/-- The reserved page below 1 GiB is never handed out. -/
theorem boot_keeps_low_reserved : ∃ m,
    bootPhases 0x900000 0x2BADB002 0x9000 (loaderMemory lowReserved) = some (0x80000000,m) ∧
    ∀ as s' f, Run Allocation m.frames as s' → (allocateFrame s').1 = some f →
      ∀ ρ ∈ lowReserved, ρ.Reserved → ρ.base < 0x80000000 → ¬Overlaps .x86_64 ρ.base ρ.fin f := by
  obtain ⟨m,s,hb,hr⟩ := exists_boot (loaderMemory lowReserved) 48 lowReserved (by decide) (by decide)
    (by decide) (by decide) (by decide)
  refine ⟨m,hb,(boot_reserved_iff hb hr (by decide)).mpr fun ρ hρ hres _ f _ ho => .inr ?_⟩
  obtain rfl : ρ = ⟨0x1000000,0x1000,2⟩ := by
    rcases mem_cons.mp hρ with rfl | hρ
    · exact absurd hres (by decide)
    · exact mem_singleton.mp hρ
  have hlast := ho.2.2
  refine ⟨?_,[⟨0,0x80000000,1⟩],_,[],rfl,hres,by decide,ho⟩
  unfold startAddress ramBase frameSize Region.fin at hlast
  dsimp only at hlast
  omega

/-- The reserved page above 1 GiB is handed out. -/
theorem boot_hands_out_high_reserved : ∃ m as s' ρ,
    bootPhases 0x900000 0x2BADB002 0x9000 (loaderMemory highReserved) = some (0xC0000000,m) ∧
    Run Allocation m.frames as s' ∧ (allocateFrame s').1 = some 0x80000 ∧
    ρ ∈ highReserved ∧ ρ.Reserved ∧ ρ.base < 0xC0000000 ∧
    Overlaps .x86_64 ρ.base ρ.fin 0x80000 := by
  obtain ⟨m,s,hb,hr⟩ := exists_boot (loaderMemory highReserved) 48 highReserved (by decide)
    (by decide) (by decide) (by decide) (by decide)
  have hp := mapAtBoot_provisional hr
  obtain ⟨-,hout⟩ := boot_handedOut_iff hb hr (by decide)
  have hfree : ¬(0x80000 ∈ usedFrames s ∨ (0x80000 < 2^18 ∧ Marked highReserved 0x80000)) := by
    rintro (hn | ⟨hn,-⟩)
    · have hlt := (mem_usedFrames.mp hn).1
      rw [hp.count] at hlt
      exact absurd hlt (by decide)
    · exact absurd hn (by decide)
  obtain ⟨as,s',r,ha⟩ := (hout 0x80000).mpr ⟨by decide,hfree⟩
  exact ⟨m,as,s',⟨0x80000000,0x1000,2⟩,hb,r,ha,by decide,by decide,by decide,by decide⟩

end Zohara.MemoryMap
