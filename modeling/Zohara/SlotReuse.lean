import Zohara.SlotHistory

/-!
# What a task slot keeps from one owner to the next

Neither exit nor the two spawn functions clear what the slot holds outside the
fields they write. The frame record of a user task survives a kernel task in the
same slot, and open descriptors survive any change of owner. The theorems say for
every run when this does no harm. The last part follows one slot through two
owners.
-/
namespace Zohara.SlotReuse
open Runs Tasks SlotHistory List Option

variable {h l : List Label} {k k' : Kernel} {e : Label} {f : Fill} {s s' : System}
open FdTable (openCount node emptyTable openFd)

/-! ## Frames -/

/-- Every exit passes the record that the slot holds, and is made by a task whose
slot is in use. -/
def ExitsFaithful (h : List Label) : Prop :=
  ∀ e l i, e::l <:+ h → e.exits i →
    e.freed = (lastRecord l i).filter (· ≠ 0) ∧ live l i = true

theorem step_faithful (ok : SlotOk h k)
    (hh : ExitsFaithful h) (hs : Step k e k') : ExitsFaithful (e::h) := by
  intro e' l i hsuf hexit
  rcases suffix_cons_iff.mp hsuf with heq | hsuf
  · obtain ⟨rfl,rfl⟩ := cons.inj heq
    obtain ⟨hact,hbefore,hi⟩ := hexit
    have hcur : k.sys.current = i := hs.before.symm.trans hbefore
    constructor
    · rw [hs.freed, hact, ← ok.record i]
      simp only [passed, hcur, if_neg hi]
    · have halive := hs.alive (by rw [hact]; rfl)
      rw [hcur, Ne, ok.inUse i] at halive
      exact Bool.eq_true_of_not_eq_false halive
  · exact hh e' l i hsuf hexit

theorem run_faithful {machine : PageTables.Machine} {stackOf : ℕ → ℕ} {ticks cr3 rsp0 : ℕ}
    (r : Run Step (start machine stackOf ticks cr3 rsp0) h k) :
    ExitsFaithful h := by
  have hnil : ExitsFaithful [] := by
    intro e l i hsuf
    exact absurd (suffix_nil.mp hsuf) (cons_ne_nil e l)
  exact (r.invariant (P := fun h k => SlotOk h k ∧ ExitsFaithful h) ⟨start_ok _ _ _ _ _,hnil⟩
    fun _ _ _ _ hp hs => ⟨step_slots hp.1 hs,step_faithful hp.1 hp.2 hs⟩).2

theorem recorded_eq (h : List Label) (i : ℕ) :
    recorded h i = if byKernel h i = true then [] else lastRecord h i := by
  induction h with
  | nil => rfl
  | cons e h ih =>
    rw [recorded, byKernel, lastRecord]
    cases e.fill i with
    | none => exact ih
    | some f =>
      cases f <;> rfl

/-- No kernel task exits with frames in its record. -/
def KernelExitsBare (h : List Label) : Prop :=
  ∀ e l i, e::l <:+ h → e.exits i → byKernel l i = true → ∀ f ∈ lastRecord l i, f = 0

theorem not_exits_of_fill {i : ℕ} (h : e.fill i = some f) (j : ℕ) :
    ¬e.exits j := by
  intro hx
  unfold Label.fill at h
  rw [hx.1] at h
  split_ifs at h

theorem timesFreed_le (hf : ExitsFaithful h) (hb : KernelExitsBare h) (i : ℕ) :
    timesFreed h i ≤ 1 ∧ (live h i = true → byKernel h i = false → timesFreed h i = 0) := by
  induction h with
  | nil => exact ⟨Nat.zero_le 1,fun _ _ => rfl⟩
  | cons e h ih =>
    have hsub : ∀ l, l <:+ h → l <:+ e::h := fun l hl => hl.trans (suffix_cons e h)
    have ih := ih (fun e' l j hl => hf e' l j (hsub _ hl)) fun e' l j hl => hb e' l j (hsub _ hl)
    cases hfill : e.fill i with
    | some f =>
      have hx := not_exits_of_fill hfill i
      rw [timesFreed, byKernel, hfill]
      cases f with
      | user frames => exact ⟨Nat.zero_le 1,fun _ _ => rfl⟩
      | kernel =>
        dsimp only
        rw [if_neg fun h => hx h.1]
        exact ⟨ih.1,fun _ h => absurd h (by decide)⟩
    | none =>
      have hlive' : live (e::h) i = if e.exits i then false else live h i := by
        rw [live, hfill, if_neg (by simp)]
      rw [hlive', timesFreed, byKernel, hfill]
      dsimp only
      by_cases hx : e.exits i
      · obtain ⟨hfreed,hlive⟩ := hf e h i (suffix_refl _) hx
        rw [if_pos hx]
        refine ⟨?_,fun h => absurd h (by decide)⟩
        split_ifs with hne
        · have huser : byKernel h i = false := by
            by_contra hk
            apply hne.2
            rw [hfreed, filter_eq_nil_iff]
            intro f hmem
            simpa using hb e h i (suffix_refl _) hx (Bool.eq_true_of_not_eq_false hk) f hmem
          rw [ih.2 hlive huser]
        · exact ih.1
      · rw [if_neg hx, if_neg fun h => hx h.1]
        exact ih

/-- In every run, exits pass on only frames recorded since their slot was last
filled, and no record is passed on twice, exactly when no kernel task exits from a
slot that still holds the frames of an earlier user task. -/
theorem exits_free_own_frames_iff {machine : PageTables.Machine} {stackOf : ℕ → ℕ}
    {ticks cr3 rsp0 : ℕ} {h : List Label} {k : Kernel}
    (r : Run Step (start machine stackOf ticks cr3 rsp0) h k) :
    ((∀ e l i, e::l <:+ h → e.exits i → ∀ f ∈ e.freed, f ∈ recorded l i) ∧
      ∀ l i, l <:+ h → timesFreed l i ≤ 1) ↔
    ∀ e l i, e::l <:+ h → e.exits i → byKernel l i = true → ∀ f ∈ lastRecord l i, f = 0 := by
  have hf := run_faithful r
  constructor
  · intro ⟨hown,_⟩ e l i hsuf hx hk f hmem
    by_contra hne
    have hfreed : f ∈ e.freed := by
      rw [(hf e l i hsuf hx).1]
      exact mem_filter.mpr ⟨hmem,by simpa using hne⟩
    have := hown e l i hsuf hx f hfreed
    rw [recorded_eq, if_pos hk] at this
    exact absurd this not_mem_nil
  · intro hb
    constructor
    · intro e l i hsuf hx f hmem
      rw [(hf e l i hsuf hx).1] at hmem
      obtain ⟨hmem,hne⟩ := mem_filter.mp hmem
      rw [recorded_eq]
      split_ifs with hk
      · exact absurd (hb e l i hsuf hx hk f hmem) (by simpa using hne)
      · exact hmem
    · intro l i hsuf
      exact (timesFreed_le (fun e l' j hl => hf e l' j (hl.trans hsuf))
        (fun e l' j hl => hb e l' j (hl.trans hsuf)) i).1

/-! ## Descriptors -/

theorem heldFds_subset {i : ℕ} (hl : ∀ e ∈ l, ¬e.obtains i) :
    heldFds (l++h) i ⊆ heldFds h i := by
  induction l with
  | nil => exact Finset.Subset.refl _
  | cons e l ih =>
    have hsub := ih fun e' he' => hl e' (mem_cons_of_mem _ he')
    rw [cons_append, heldFds]
    cases hact : e.act with
    | task op => exact hsub
    | fd op =>
      dsimp only
      split_ifs with hb
      · have hop : op.obtains = false := by
          by_contra ho
          exact hl e mem_cons_self ⟨hb,op,hact,Bool.eq_true_of_not_eq_false ho⟩
        exact (op.held_subset hop _ _).trans hsub
      · exact hsub

theorem heldFds_fill {i j : ℕ} (h : List Label) (he : e.fill i = some f) :
    heldFds (e::h) j = heldFds h j := by
  rw [heldFds]
  unfold Label.fill at he
  cases hact : e.act with
  | task op => rfl
  | fd op =>
    rw [hact] at he
    split_ifs at he

/-- A task that spawn_userspace puts into slot `i` has no open descriptor, until it
opens or duplicates one, exactly when every descriptor that earlier tasks of the
slot obtained has been closed. -/
theorem new_task_descriptors_iff {machine : PageTables.Machine} {stackOf : ℕ → ℕ}
    {ticks cr3 rsp0 i : ℕ} {h : List Label} {k k₁ : Kernel} {e : Label} {frames : List ℕ}
    (r : Run Step (start machine stackOf ticks cr3 rsp0) h k) (hs : Step k e k₁)
    (hfill : e.fill i = some (.user frames)) :
    (∀ l k', Run Step k₁ l k' → (∀ e' ∈ l, ¬e'.obtains i) →
      openCount k'.fds i = 0 ∧ ∀ fd, node k'.fds i fd = .error "bad file descriptor") ↔
    heldFds h i = ∅ := by
  constructor
  · intro hall
    have hclean := hall [] k₁ .start (by simp)
    rw [((run_slots (.next r hs)).fds i).none_open, heldFds_fill h hfill] at hclean
    exact hclean
  · intro hempty l k' r' hl
    have hheld := (run_slots ((Run.next r hs).append r')).fds i
    rw [hheld.none_open]
    have hsub := heldFds_subset (h := e::h) hl
    rw [heldFds_fill h hfill, hempty] at hsub
    exact Finset.subset_empty.mp hsub

/-! ## From one owner to the next -/

/-- Makes the calls one after the other and keeps the labels of the steps, newest first. -/
def play (k : Kernel) (h : List Label) : List Act → Option (List Label × Kernel)
  | [] => some (h,k)
  | a::as =>
    if a.isTick = false ∧ (k.sys.tasks k.sys.current).state = .unused then none
    else (a.exec k).bind fun r =>
      play r.2 (⟨a,k.sys.freeSlot,k.sys.current,passed k a,r.1⟩::h) as

theorem play_run {k₀ : Kernel} {as : List Act} {h' : List Label} (r : Run Step k₀ h k)
    (hplay : play k h as = some (h',k')) : Run Step k₀ h' k' := by
  induction as generalizing h k with
  | nil =>
    cases hplay
    exact r
  | cons a as ih =>
    rw [play] at hplay
    split_ifs at hplay with halive
    obtain ⟨⟨answer,k₁⟩,hexec,hrest⟩ := bind_eq_some_iff.mp hplay
    exact ih (.next r ⟨hexec,fun ht hs => halive ⟨ht,hs⟩,rfl,rfl,rfl⟩) hrest

def tick : Act := .task (.timer 0)

theorem setTask_setMem_ticks (s : System) (mem : ByteMemory.Memory) (i : ℕ) (f : Task → Task) :
    ((s.setMem mem).setTask i f).ticks = s.ticks := rfl

theorem spawnUserspace_ticks (s : System) (entry sp root : ℕ) (frames : List ℕ) :
    (s.spawnUserspace entry sp root frames).2.ticks = s.ticks := by
  unfold System.spawnUserspace
  cases s.freeSlot with
  | none => rfl
  | some i =>
    dsimp only
    rw [setTask_setMem_ticks]

/-- A user task takes slot 1, and the next tick is the tenth. -/
def reuseStart : Kernel := start ⟨fun _ => 0,{},0⟩ (fun i => 0x200000+i*0x9000) 9 0 0

def firstOwner : Label := ⟨.task (.spawnUserspace 0x400000 0x501000 0 [0x900000]),some 1,0,[],none⟩

theorem firstOwner_step : ∃ k, Step reuseStart firstOwner k ∧ k.sys.ticks = 9 ∧
    k.sys.current = 0 ∧ (k.sys.tasks 1).state = .ready ∧ k.fds = emptyTable := by
  have hslot : reuseStart.sys.freeSlot = some 1 := by decide
  have hfill := SchedulerRuns.spawnUserspace_filled 0x400000 0x501000 0 [0x900000] hslot
  refine ⟨⟨_,emptyTable⟩,⟨rfl,fun _ => by decide,hslot.symm,rfl,rfl⟩,?_,hfill.current,hfill.state,rfl⟩
  rw [spawnUserspace_ticks]
  rfl

theorem byKernel_of_user (hh : ∀ e ∈ h, ∀ i, e.fill i ≠ some .kernel) (i : ℕ) :
    byKernel h i = false := by
  induction h with
  | nil => rfl
  | cons e h ih =>
    have ih := ih fun e' he' => hh e' (mem_cons_of_mem _ he')
    have hne := hh e mem_cons_self i
    rw [byKernel]
    cases hf : e.fill i with
    | none => exact ih
    | some f =>
      cases f with
      | kernel => exact absurd hf hne
      | user frames => rfl

/-- A user task that exits before its slot is used again. -/
theorem exits_free_own_frames_first_owner : ∃ e l k, Run Step reuseStart (e::l) k ∧ e.exits 1 ∧
    e.freed = [0x900000] ∧ (∀ f ∈ e.freed, f ∈ recorded l 1) ∧ timesFreed (e::l) 1 ≤ 1 := by
  have heval : (play reuseStart [] [firstOwner.act,tick,.task .exitCurrentTask]).map Prod.fst =
      some [⟨.task .exitCurrentTask,some 2,1,[0x900000],none⟩,⟨tick,some 2,0,[],none⟩,firstOwner] := by
    decide +kernel
  obtain ⟨⟨_,k⟩,hplay,rfl⟩ := map_eq_some_iff.mp heval
  have r := play_run .start hplay
  obtain ⟨hown,htimes⟩ := (exits_free_own_frames_iff r).mpr fun e l' i hsuf _ hk => by
    have huser : ∀ e' ∈ l', ∀ j, e'.fill j ≠ some .kernel := by
      intro e' he' j
      have hmem := hsuf.subset (mem_cons_of_mem _ he')
      simp only [mem_cons, not_mem_nil, or_false] at hmem
      rcases hmem with rfl | rfl | rfl <;> simp [firstOwner, tick, Label.fill]
    rw [byKernel_of_user huser i] at hk
    cases hk
  have hx : (⟨.task .exitCurrentTask,some 2,1,[0x900000],none⟩ : Label).exits 1 := by decide
  exact ⟨_,_,k,r,hx,rfl,hown _ _ 1 (suffix_refl _) hx,htimes _ 1 (suffix_refl _)⟩

/-- A user task, its exit, a kernel task in the same slot and its exit: the frame is
passed on a second time. -/
theorem kernel_task_frees_user_frame : ∃ e l k, Run Step reuseStart (e::l) k ∧ e.exits 1 ∧
    0x900000 ∈ e.freed ∧ 0x900000 ∉ recorded l 1 ∧ timesFreed (e::l) 1 = 2 := by
  have heval : (play reuseStart [] ([firstOwner.act,tick,.task .exitCurrentTask]++
      List.replicate 10 tick++.task (.spawn 0x100000)::List.replicate 10 tick++
      [.task .exitCurrentTask])).map
        (fun p => (p.1.head?,recorded p.1.tail 1,timesFreed p.1 1)) =
      some (some ⟨.task .exitCurrentTask,some 2,1,[0x900000],none⟩,[],2) := by
    decide +kernel
  obtain ⟨⟨h,k⟩,hplay,hfacts⟩ := map_eq_some_iff.mp heval
  simp only [Prod.mk.injEq] at hfacts
  obtain ⟨hhead,hrec,htimes⟩ := hfacts
  obtain ⟨l,rfl⟩ := head?_eq_some_iff.mp hhead
  refine ⟨_,l,k,play_run .start hplay,by decide,by decide,?_,htimes⟩
  rw [show recorded l 1 = [] from hrec]
  exact not_mem_nil

/-- The first owner of slot 1 has a clean table. -/
theorem new_task_descriptors_first_owner : ∃ k, Step reuseStart firstOwner k ∧
    ∀ l k', Run Step k l k' → (∀ e ∈ l, ¬e.obtains 1) →
      openCount k'.fds 1 = 0 ∧ ∀ fd, node k'.fds 1 fd = .error "bad file descriptor" := by
  obtain ⟨k,hs,-⟩ := firstOwner_step
  have hfill : firstOwner.fill 1 = some (.user [0x900000]) := by decide
  exact ⟨k,hs,(new_task_descriptors_iff .start hs hfill).mpr rfl⟩

/-- A user task opens a file and exits; the next user task in the slot has it open. -/
theorem new_task_inherits_descriptor : ∃ h k e k₁, Run Step reuseStart h k ∧ Step k e k₁ ∧
    e.fill 1 = some (.user []) ∧ openCount k₁.fds 1 = 1 ∧ node k₁.fds 1 0 = .ok 7 := by
  have heval : (play reuseStart [] ([firstOwner.act,tick,.fd (.openFd 7),.task .exitCurrentTask]++
      List.replicate 10 tick++[.task (.spawnUserspace 0x400000 0x501000 0 [])])).map
        (fun p => (p.1.head?,openCount p.2.fds 1,node p.2.fds 1 0)) =
      some (some ⟨.task (.spawnUserspace 0x400000 0x501000 0 []),some 1,0,[],none⟩,1,.ok 7) := by
    decide +kernel
  obtain ⟨⟨h,k₁⟩,hplay,hfacts⟩ := map_eq_some_iff.mp heval
  simp only [Prod.mk.injEq] at hfacts
  obtain ⟨hhead,hopen,hnode⟩ := hfacts
  obtain ⟨l,rfl⟩ := head?_eq_some_iff.mp hhead
  cases play_run .start hplay with
  | next r hs => exact ⟨l,_,_,k₁,r,hs,by decide,hopen,hnode⟩

end Zohara.SlotReuse
