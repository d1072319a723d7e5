import Zohara.Process
import Zohara.TableAllocations

/-!
# Failed calls of create_process

An image that cannot be parsed, or that has nothing to load, is refused before anything is allocated.
The search for a free task slot comes last, when tables and pages have been taken, and none of them is
given back when it fails.
-/
namespace Zohara.Process
open PageTables TableHeap TableAllocations KernelRuns
  SegmentPages Isolation ElfImage Tasks

theorem copyFrame_frames {elf : List UInt8} {segments : List Segment} {m m' : Machine}
    {frame : ℕ × ℕ × ℕ} (h : copyFrame elf segments m frame = some m') : m'.frames = m.frames := by
  unfold copyFrame at h
  split at h
  · cases h
    rfl
  · split_ifs at h
    · obtain ⟨src,-,h⟩ := Option.bind_eq_some_iff.mp h
      cases h
      rfl
    · cases h
      rfl

/-- The file is accepted and has something to load. -/
def Parses (elf : List UInt8) (base : ℕ) : Prop :=
  ∃ image, parseElf elf base = some (.ok image) ∧ image.segments ≠ []

section
variable {s s' : System} {elf : List UInt8} {base : ℕ} {args : List (List UInt8)}
  {answer : Except String ℕ}

theorem createProcess_refused (h : createProcess s elf base args = some (answer,s'))
    (hp : ¬Parses elf base) : s' = s := by
  unfold createProcess at h
  split at h
  · cases h
  · cases h
    rfl
  · rename_i image himage
    split_ifs at h with hnone
    · cases h
      rfl
    · exact absurd ⟨image,himage,fun hnil => hnone (by rw [hnil]; rfl)⟩ hp

theorem createProcess_taken (h : createProcess s elf base args = some (answer,s'))
    (hp : Parses elf base) : ∃ m entry userSp root frames, used s.machine ⊂ used m ∧
      (answer,s') = ({s with machine := m} : System).spawnUserspace entry userSp root frames := by
  obtain ⟨image,himage,hsegs⟩ := hp
  unfold createProcess at h
  rw [himage] at h
  dsimp only at h
  rw [if_neg (fun hz => hsegs (List.length_eq_zero_iff.mp hz))] at h
  obtain ⟨⟨⟨root,frames⟩,m₁⟩,hcreate,h⟩ := Option.bind_eq_some_iff.mp h
  obtain ⟨m₂,hcopy,h⟩ := Option.bind_eq_some_iff.mp h
  have hframes : m₂.frames = m₁.frames :=
    MemoryMap.foldlM_frames (P := fun st => st = m₁.frames)
      (fun _ _ _ hs hm => (copyFrame_frames hs).trans hm) _ hcopy rfl
  refine ⟨_,_,_,_,_,?_,(Option.some.inj h).symm⟩
  have hgrow := createUserPageTables_grows hcreate
  unfold used at hgrow ⊢
  rw [hframes]
  exact hgrow

/-- A call that returns an error leaves the used frames and the task table as they were, unless the
image was accepted and only the task table was full. -/
theorem createProcess_failure_iff (h : createProcess s elf base args = some (answer,s')) :
    ((∃ e, answer = .error e) → used s'.machine = used s.machine ∧ s'.tasks = s.tasks) ↔
      s.freeSlot ≠ none ∨ ¬Parses elf base := by
  by_cases hp : Parses elf base
  · rw [or_iff_left (not_not.mpr hp)]
    obtain ⟨m,entry,userSp,root,frames,hgrow,hspawn⟩ := createProcess_taken h hp
    have hsame : System.freeSlot {s with machine := m} = s.freeSlot := rfl
    unfold System.spawnUserspace at hspawn
    rw [hsame] at hspawn
    cases hslot : s.freeSlot with
    | none =>
      rw [hslot] at hspawn
      cases hspawn
      refine ⟨fun hkept => ?_,fun hne => absurd rfl hne⟩
      exact absurd (hkept ⟨_,rfl⟩).1 hgrow.ne'
    | some i =>
      rw [hslot] at hspawn
      cases hspawn
      refine ⟨fun _ => Option.some_ne_none i,fun _ herr => ?_⟩
      obtain ⟨e,he⟩ := herr
      cases he
  · obtain rfl := createProcess_refused h hp
    exact ⟨fun _ => .inr hp,fun _ _ => ⟨rfl,rfl⟩⟩

end

/-- An empty file is refused. -/
theorem createProcess_empty_file : ∃ s', createProcess (bootSystem (bootMachine 0x900000 0x10000000))
      [] 0 [] = some (.error "ELF parse failed",s') ∧
    used s'.machine = used (bootSystem (bootMachine 0x900000 0x10000000)).machine ∧
    s'.tasks = (bootSystem (bootMachine 0x900000 0x10000000)).tasks := by
  have hcall : createProcess (bootSystem (bootMachine 0x900000 0x10000000)) [] 0 [] =
      some (.error "ELF parse failed",bootSystem (bootMachine 0x900000 0x10000000)) := rfl
  refine ⟨_,hcall,?_⟩
  refine (createProcess_failure_iff hcall).mpr (.inr ?_) ⟨_,rfl⟩
  rintro ⟨image,himage,-⟩
  cases himage

/-- The freshly booted system, in which every task slot is taken. -/
def crowdedSystem (m : Machine) : System :=
  {bootSystem m with tasks := fun _ => {unusedTask with state := .ready}}

theorem crowdedSystem_full (m m' : Machine) :
    System.freeSlot {crowdedSystem m with machine := m'} = none :=
  List.find?_eq_none.mpr fun _ _ => Bool.false_ne_true

/-- A one-byte program and no free slot: an error, with frames taken. -/
theorem createProcess_leaks : ∃ m s', KernelRun (bootMachine 0x900000 0x10000000) [] m ∧
    createProcess (crowdedSystem m) (buildFlatElf [0xC3] 0x400000) 0x800000 [] =
      some (.error "out of task slots",s') ∧
    used s'.machine ≠ used (crowdedSystem m).machine := by
  obtain ⟨m,r,hv,hr,hreach,hroom⟩ := exists_run [] (by decide)
  have hb : 0x800000 < 2^64 := by decide
  have hparse := parseElf_buildFlatElf [0xC3] 0x800000 (show 0x400000 < 2^64 by decide) (by decide)
  have hp : Parses (buildFlatElf [0xC3] 0x400000) 0x800000 := ⟨_,hparse,by simp [flatImage]⟩
  obtain ⟨m',userSp,root,frames,hspawn⟩ := createProcess_loads (s := crowdedSystem m) []
    hreach.ok hparse (flat_loadable [0xC3] hb (by decide)) (by simp [flatImage])
    (by rw [length_buildFlatElf]; decide)
    (by rw [segmentsOf_flat [0xC3] hb]; exact hroom.weaken (by decide))
  unfold System.spawnUserspace at hspawn
  rw [crowdedSystem_full] at hspawn
  obtain ⟨m₂,_,_,_,_,hgrow,hans⟩ := createProcess_taken hspawn hp
  unfold System.spawnUserspace at hans
  rw [crowdedSystem_full] at hans
  refine ⟨m,_,hr,hspawn,?_⟩
  rw [(Prod.mk.inj hans).2]
  exact hgrow.ne'

end Zohara.Process
