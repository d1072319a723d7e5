import Zohara.Process

/-!
# The walks of create_user_page_tables

map_user_page follows the entries of the upper levels without a present test, and the end of a segment
is computed without an overflow test. The items of a call are the ends it computes and the pages it
maps, in order. A call visits them one after the other until it halts for want of a frame, and each
visit is recorded here with the state in which it happens.

The walks are those of the model: after a walk through an entry that is not present the following ones
are recorded on the tables as they are then, but nothing is claimed about them.
-/
namespace Zohara.TableWalks
open FrameAllocator FrameRefinement PageEntry PageTables TableTree TableHeap KernelTables KernelRuns List Option
  UserTables Budget TableCost SegmentPages ElfImage Process Isolation

/-! ## Items and visits -/

/-- The end of a segment as an exact sum, or a page with its permissions. -/
inductive Item where
  | fin (sum : ℕ)
  | page (addr : ℕ) (writable executable : Bool)
  deriving DecidableEq, Repr

def segmentItems (s : Segment) : List Item :=
  if s.memsz = 0 then []
  else .fin (s.vaddr+s.memsz)::s.requests.map fun q => .page q.1 q.2.1 q.2.2

def tableItems (segments : List Segment) : List Item :=
  segments.flatMap segmentItems++[.page stackVa true false]

def Item.request : Item → Option (ℕ × Bool × Bool)
  | .fin _ => none
  | .page addr w x => some (addr,w,x)

/-- What a call looks at: the sum, or the tables at the start of a walk. -/
inductive Visit where
  | fin (sum : ℕ)
  | walk (m : Machine) (pml4 addr : ℕ)

/-- The sum fits, or each of the three levels above the page is present. -/
def Visit.Good : Visit → Prop
  | .fin sum => sum < 2^64
  | .walk m pml4 addr =>
    let e₁ := m.entry pml4 (pml4Idx addr)
    let e₂ := m.entry (tableAddr e₁) (pdptIdx addr)
    let e₃ := m.entry (tableAddr e₂) (pdIdx addr)
    present e₁ = true ∧ present e₂ = true ∧ present e₃ = true

/-- Step 2 of create_user_page_tables. The walk comes after the page's own frame is taken. -/
def visitItems (pml4 : ℕ) : List Item → Machine → List Visit
  | [],_ => []
  | .fin sum::rest,m => .fin sum::visitItems pml4 rest m
  | .page addr w x::rest,m =>
    match m.allocTableOrHalt with
    | none => []
    | some (fresh,m₁) =>
      .walk (m₁.zeroPage fresh) pml4 addr::
        match mapFresh pml4 addr (fun pa => page4k pa w true x) m with
        | none => []
        | some (_,m') => visitItems pml4 rest m'

def visits (m : Machine) (segments : List Segment) : List Visit :=
  match cloneKernel m with
  | none => []
  | some (pml4,m') => visitItems pml4 (tableItems segments) m'

theorem tableItems_requests (segments : List Segment) :
    (tableItems segments).filterMap Item.request = userRequests segments := by
  have hseg : ∀ s : Segment, (segmentItems s).filterMap Item.request = s.requests := by
    intro s
    unfold segmentItems
    split_ifs with hz
    · simp [Segment.requests, Segment.pages, hz]
    · rw [filterMap_cons_none rfl, filterMap_map]
      exact filterMap_some
  unfold tableItems userRequests
  rw [filterMap_append, filterMap_flatMap]
  simp only [hseg]
  rfl

theorem length_visitItems {pml4 : ℕ} {items : List Item} {m : Machine}
    {res : List (ℕ × ℕ × ℕ) × Machine}
    (h : mapRequests pml4 (items.filterMap Item.request) m = some res) :
    (visitItems pml4 items m).length = items.length := by
  induction items generalizing m res with
  | nil => rfl
  | cons item items ih =>
    cases item with
    | fin sum => exact congrArg (·+1) (ih h)
    | page addr w x =>
      obtain ⟨⟨pa,m₁⟩,h₁,h⟩ := bind_eq_some_iff.mp h
      obtain ⟨⟨frames,m₂⟩,h₂,-⟩ := bind_eq_some_iff.mp h
      have halloc := h₁
      obtain ⟨⟨fresh,m₃⟩,ha,-⟩ := bind_eq_some_iff.mp halloc
      simp only [visitItems, ha, h₁, length_cons, ih h₂]

variable {segments : List Segment}

theorem length_visits {m : Machine}
    {res : (ℕ × List (ℕ × ℕ × ℕ)) × Machine} (h : createUserPageTables m segments = some res) :
    (visits m segments).length = (tableItems segments).length := by
  obtain ⟨⟨pml4,m₁⟩,h₁,h⟩ := bind_eq_some_iff.mp h
  obtain ⟨⟨frames,m₂⟩,h₂,-⟩ := bind_eq_some_iff.mp h
  unfold visits
  rw [h₁]
  rw [← tableItems_requests] at h₂
  exact length_visitItems h₂

/-! ## The condition -/

def Item.addr? : Item → Option ℕ
  | .fin _ => none
  | .page addr _ _ => some addr

/-- The frame that is taken before the walk to a page. -/
def Item.ownFrame : Item → ℕ
  | .fin _ => 0
  | .page _ _ _ => 1

def Item.Safe (m : Machine) : Item → Prop
  | .fin sum => sum < 2^64
  | .page addr _ _ => Covered m addr

/-- The frames that have to be free for an item behind `pre` to be visited. -/
def framesBefore (m : Machine) (pre : List Item) (item : Item) : ℕ :=
  cloneCost m+pagesCost m [] (pre.filterMap Item.addr?)+item.ownFrame

/-- Every item that the free frames suffice for is safe. -/
def SafeWhileFree (m : Machine) (segments : List Segment) : Prop :=
  ∀ pre item post, tableItems segments = pre++item::post → framesBefore m pre item ≤ free m →
    item.Safe m

theorem forall_split_cons {α : Type} {P : List α → α → Prop} {a : α} {l : List α} :
    (∀ pre x post, a::l = pre++x::post → P pre x) ↔
      P [] a ∧ ∀ pre x post, l = pre++x::post → P (a::pre) x := by
  constructor
  · intro h
    refine ⟨h [] a l rfl,fun pre x post hl => h (a::pre) x post ?_⟩
    rw [hl]
    rfl
  · rintro ⟨hnil,hcons⟩ pre x post hl
    cases pre with
    | nil =>
      obtain ⟨rfl,-⟩ := cons.inj hl
      exact hnil
    | cons b pre =>
      obtain ⟨rfl,hrest⟩ := cons.inj hl
      exact hcons pre x post hrest

section
variable {m₀ m : Machine} {r U addr : ℕ} {before : List ℕ}

theorem kernel_present (ok : KernelOk m₀ r) {owned : Finset ℕ} {done : List Mapping}
    (h : UserOk m₀ r m U owned done) {j k d D : ℕ} (hj : j < 512) (hk : k < 512)
    (hd : node child (cell m₀) r [0,j] = some d) (hD : node child (cell m) U [0,j] = some D) :
    present (cell m D k) = present (cell m₀ d k) := by
  rcases h.pd j k D hj hk hD with he | ⟨hl,T,hT,-,he⟩
  · rw [he, kernelPdEntry_eq hd]
  · rw [kernelPdEntry_eq hd] at hl
    rw [he, (tableEntryUser_spec hT).1]
    rcases ok.slots [0,j] d k ⟨by simp,(path_low hj).2⟩ hd hk with hz | ⟨g,hg,he'⟩ | ⟨-,hp,-⟩
    · rw [hz] at hl
      cases hl
    · rw [he', (tableEntry_spec hg).2.2.2.1] at hl
      cases hl
    · exact hp.symm

/-- A walk over the tables of a task is good exactly where the kernel's tables go as deep. -/
theorem walk_good_iff (ok : KernelOk m₀ r) (h : Progress m₀ r U before m) :
    (Visit.walk m (U*4096) addr).Good ↔ KernelCovers m₀ r addr := by
  obtain ⟨owned,done,hok,-⟩ := h.ok
  have hroot : m.entry (U*4096) (pml4Idx addr) = cell m U (pml4Idx addr) := rfl
  unfold Visit.Good
  dsimp only
  rw [hroot]
  by_cases h0 : pml4Idx addr = 0
  · rw [h0]
    obtain ⟨Q,hQ,hlink⟩ := hok.link
    have hnQ : node child (cell m) U [0] = some Q := by
      rw [node, hlink, child_tableEntryUser hQ]
      rfl
    obtain ⟨hpQ,-,-,-,-,haQ⟩ := tableEntryUser_spec hQ
    have hpdpt : m.entry (Q*4096) (pdptIdx addr) = cell m Q (pdptIdx addr) := rfl
    rw [hlink, hpQ, haQ, hpdpt]
    rcases hok.pdpt Q _ hnQ (pdptIdx_lt addr) with ⟨hn,hz⟩ | ⟨d,D,hd,hD,he⟩
    · rw [hz]
      constructor
      · rintro ⟨-,hp,-⟩
        cases hp
      · rintro ⟨-,d,hd,-⟩
        rw [hn] at hd
        cases hd
    · obtain ⟨hpD,-,-,-,-,haD⟩ := tableEntryUser_spec hD
      have hpd : m.entry (D*4096) (pdIdx addr) = cell m D (pdIdx addr) := rfl
      have hnD : node child (cell m) U [0,pdptIdx addr] = some D := by
        rw [show ([0,pdptIdx addr] : List ℕ) = [0]++[pdptIdx addr] from rfl, node_snoc_of hnQ, he,
          child_tableEntryUser hD]
      rw [he, hpD, haD, hpd, kernel_present ok hok (pdptIdx_lt _) (pdIdx_lt _) hd hnD]
      constructor
      · rintro ⟨-,-,hp⟩
        exact ⟨h0,d,hd,hp⟩
      · rintro ⟨-,d',hd',hp⟩
        cases hd.symm.trans hd'
        exact ⟨rfl,rfl,hp⟩
  · rw [hok.root _ (pml4Idx_lt addr) h0]
    constructor
    · rintro ⟨hp,-⟩
      cases hp
    · rintro ⟨hz,-⟩
      exact absurd hz h0

/-- All visits of the loop are good when the items are safe as far as the frames reach. -/
theorem visitItems_good_iff (ok : KernelOk m₀ r) (items : List Item)
    (h : Progress m₀ r U before m) :
    (∀ v ∈ visitItems (U*4096) items m, v.Good) ↔
      ∀ pre item post, items = pre++item::post →
        pagesCost m₀ before (pre.filterMap Item.addr?)+item.ownFrame ≤ free m → item.Safe m₀ := by
  induction items generalizing before m with
  | nil => simp [visitItems]
  | cons item items ih =>
    rw [forall_split_cons]
    cases item with
    | fin sum =>
      rw [visitItems, forall_mem_cons, ih h]
      exact and_congr_left' ⟨fun hs _ => hs,fun hs => hs (Nat.zero_le _)⟩
    | page addr w x =>
      have hpos := pageCost_pos m₀ before addr
      have hcosts := allocTableOrHalt_costs h.valid
      cases ha : m.allocTableOrHalt with
      | none =>
        -- No frame is left: nothing more is visited.
        have hnone : free m < 1 := by
          by_contra hle
          obtain ⟨b,hb⟩ := hcosts.enough (by omega)
          rw [ha] at hb
          cases hb
        simp only [visitItems, ha, not_mem_nil, false_implies, implies_true, true_iff]
        refine ⟨fun hle => ?_,fun pre item post _ hle => ?_⟩
        · exact absurd hle (by simp only [Item.ownFrame]; omega)
        · exact absurd hle (by simp only [filterMap_cons, Item.addr?, pagesCost]; omega)
      | some b =>
        obtain ⟨pa,m₁⟩ := b
        obtain ⟨F,rfl,hal⟩ := allocTableOrHalt_some h.valid ha
        have hone : 1 ≤ free m := hcosts.succeeds_iff.mp ⟨_,ha⟩
        have hwalk : (Visit.walk (m₁.zeroPage (F*4096)) (U*4096) addr).Good ↔ Covered m₀ addr :=
          (walk_good_iff ok (h.takeFrame hal)).trans (covered_iff ok).symm
        have hfirst : (pagesCost m₀ before (([] : List Item).filterMap Item.addr?)+
            (Item.page addr w x).ownFrame ≤ free m → (Item.page addr w x).Safe m₀) ↔
            Covered m₀ addr := ⟨fun hs => hs hone,fun hs _ => hs⟩
        rw [visitItems, ha]
        dsimp only
        rw [forall_mem_cons, hwalk, hfirst]
        refine and_congr_right fun hcov => ?_
        have hc := (covered_iff ok).mp hcov
        have hcost := h.mapFresh_costs ok hc fun pa => page4k pa w true x
        cases hm : mapFresh (U*4096) addr (fun pa => page4k pa w true x) m with
        | none =>
          have hless : free m < pageCost m₀ before addr := by
            by_contra hle
            obtain ⟨b,hb⟩ := hcost.enough (by omega)
            rw [hm] at hb
            cases hb
          simp only [not_mem_nil, false_implies, implies_true, true_iff]
          intro pre item post _ hle
          exact absurd hle (by simp only [filterMap_cons, Item.addr?, pagesCost]; omega)
        | some b =>
          obtain ⟨pa,m'⟩ := b
          have hleft : free m = free m'+pageCost m₀ before addr := (hcost.takes _ hm).left
          dsimp only
          rw [ih (h.mapFresh ok hc hm)]
          simp only [filterMap_cons, Item.addr?, pagesCost]
          refine forall₄_congr fun pre item post _ => imp_congr_left ?_
          omega

end

theorem visits_good_iff {m₀ m : Machine} {h : List Call} (hv : Valid m₀.frames)
    (hr : KernelRun m₀ h m) (segments : List Segment) :
    (∀ v ∈ visits m segments, v.Good) ↔ SafeWhileFree m segments := by
  obtain ⟨r,hreach⟩ := kernelRun_reached hv hr
  have hcost := cloneKernel_costs hreach.ok
  unfold SafeWhileFree framesBefore visits
  cases hc : cloneKernel m with
  | none =>
    have hless : free m < cloneCost m := by
      by_contra hle
      obtain ⟨b,hb⟩ := hcost.enough (by omega)
      rw [hc] at hb
      cases hb
    simp only [not_mem_nil, false_implies, implies_true, true_iff]
    intro pre item post _ hle
    exact absurd hle (by omega)
  | some b =>
    obtain ⟨pml4,m'⟩ := b
    obtain ⟨U,rfl,hp⟩ := progress_start hreach.ok hc
    have hleft : free m = free m'+cloneCost m := (hcost.takes _ hc).left
    dsimp only
    rw [visitItems_good_iff hreach.ok _ hp]
    refine forall₄_congr fun pre item post _ => imp_congr_left ?_
    omega

/-- The walks for an accepted file follow present entries, and no end of a segment overflows, when the
kernel's own tables cover each page that a frame is left for and the ends computed so far fit. -/
theorem accepted_walks_iff {m₀ m : Machine} {h : List Call} (hv : Valid m₀.frames)
    (hr : KernelRun m₀ h m) (elf : List UInt8) (base : ℕ) :
    (∀ image, parseElf elf base = some (.ok image) →
      ∀ v ∈ visits m (segmentsOf base image), v.Good) ↔
    ∀ image, parseElf elf base = some (.ok image) → SafeWhileFree m (segmentsOf base image) :=
  forall₂_congr fun image _ => visits_good_iff hv hr (segmentsOf base image)

/-! ## Low and high segments -/

theorem safe_of_low {m : Machine} {r : ℕ} (ok : KernelOk m r)
    (hlow : Low segments) : SafeWhileFree m segments := by
  intro pre item post hitems _
  have hmem : item ∈ tableItems segments := by
    rw [hitems]
    exact mem_append_right _ mem_cons_self
  cases item with
  | fin sum =>
    unfold tableItems segmentItems at hmem
    simp only [mem_append, mem_flatMap, mem_singleton, reduceCtorEq, or_false] at hmem
    obtain ⟨s,hs,hmem⟩ := hmem
    have hle := hlow s hs
    split_ifs at hmem
    · simp at hmem
    · rcases mem_cons.mp hmem with he | he
      · obtain rfl := Item.fin.inj he
        exact hle.trans_lt (by decide)
      · simp at he
  | page addr w x =>
    have hq : (addr,w,x) ∈ userRequests segments := by
      rw [← tableItems_requests]
      exact mem_filterMap.mpr ⟨_,hmem,rfl⟩
    exact (covered_iff ok).mpr (kernelCovers_low ok (hlow.requests _ hq))

theorem exists_bad_visit {m₀ m : Machine} {h : List Call}
    (hv : Valid m₀.frames) (hr : KernelRun m₀ h m) (hs : ¬SafeWhileFree m segments) :
    ∃ v ∈ visits m segments, ¬v.Good := by
  rw [← visits_good_iff hv hr] at hs
  simpa using hs

/-- A one-byte program at 4 MiB: one end and two walks, all good. -/
theorem accepted_walks_one_byte : ∃ m, KernelRun (bootMachine 0x900000 0x10000000) [] m ∧
    ∀ image, parseElf (buildFlatElf [0xC3] 0x400000) 0x800000 = some (.ok image) →
      (visits m (segmentsOf 0x800000 image)).length = 3 ∧
      ∀ v ∈ visits m (segmentsOf 0x800000 image), v.Good := by
  obtain ⟨m,r,hv,hr,hreach,hroom⟩ := exists_run [] (by decide)
  have hb : 0x800000 < 2^64 := by decide
  have hparse := parseElf_buildFlatElf [0xC3] 0x800000 (show 0x400000 < 2^64 by decide) (by decide)
  have hlow := (flat_loadable [0xC3] hb (show 0x400000+1 ≤ 2^31 by decide)).low_segments
  have hgood := (accepted_walks_iff hv hr (buildFlatElf [0xC3] 0x400000) 0x800000).mpr
    fun image himage => by
      cases hparse.symm.trans himage
      exact safe_of_low hreach.ok hlow
  refine ⟨m,hr,fun image himage => ⟨?_,hgood image himage⟩⟩
  cases hparse.symm.trans himage
  obtain ⟨res,hres⟩ := createUserPageTables_room hreach.ok hlow.requests
    (by rw [segmentsOf_flat [0xC3] hb]; exact hroom.weaken (by decide))
  rw [length_visits hres, segmentsOf_flat [0xC3] hb]
  decide

/-- A one-byte program at 2^39 is accepted, and the walk to its page starts at an empty PML4 entry. Two
bytes at 2^64-1 are accepted, and their end overflows. -/
theorem accepted_walks_high : ∃ m, KernelRun (bootMachine 0x900000 0x10000000) [] m ∧
    (∃ image, parseElf (buildFlatElf [0xC3] (2^39)) 0x800000 = some (.ok image) ∧
      ∃ v ∈ visits m (segmentsOf 0x800000 image), ¬v.Good) ∧
    ∃ image, parseElf (buildFlatElf [0x90,0xC3] (2^64-1)) 0x800000 = some (.ok image) ∧
      ∃ v ∈ visits m (segmentsOf 0x800000 image), ¬v.Good := by
  obtain ⟨m,r,hv,hr,-,hroom⟩ := exists_run [] (by decide)
  have hb : 0x800000 < 2^64 := by decide
  have hclone := cloneCost_le m
  have hfree := free_of_room hroom
  refine ⟨m,hr,⟨_,parseElf_buildFlatElf [0xC3] 0x800000 (by decide) (by decide),?_⟩,
    ⟨_,parseElf_buildFlatElf [0x90,0xC3] 0x800000 (by decide) (by decide),?_⟩⟩
  · refine exists_bad_visit hv hr fun hs => ?_
    rw [segmentsOf_flat [0xC3] hb] at hs
    have hpages : (⟨2^39,120,1,1,7⟩ : Segment).pages =
        2^39::pageWalk maxFrameCount ((2^39+0x1000)%2^64) ((2^39+1)%2^64) := by
      rw [Segment.pages, if_neg (by decide), pageWalk, if_pos (by decide)]
      rfl
    have hitems : ∃ post, tableItems [⟨2^39,120,1,1,7⟩] =
        [.fin (2^39+1)]++.page (2^39) true true::post := by
      unfold tableItems segmentItems Segment.requests
      simp only [flatMap_singleton, hpages]
      exact ⟨_,rfl⟩
    obtain ⟨post,hitems⟩ := hitems
    have hcov : Covered m (2^39) := hs _ _ post hitems (by
      simp only [framesBefore, filterMap_cons, Item.addr?, filterMap_nil, pagesCost,
        Item.ownFrame]
      omega)
    exact absurd hcov.1 (by decide)
  · refine exists_bad_visit hv hr fun hs => ?_
    rw [segmentsOf_flat [0x90,0xC3] hb] at hs
    have hend : 2^64-1+2 < 2^64 := hs [] (.fin (2^64-1+2)) _ rfl (by
      simp only [framesBefore, filterMap_nil, pagesCost, Item.ownFrame]
      omega)
    omega

end Zohara.TableWalks
