import Mathlib.Logic.Relation
import Zohara.Budget
import Zohara.UserMapping

/-!
# How many frames the tables of a task take

create_user_page_tables takes a frame for the root, one for the PDPT and one for each directory of the
kernel below PML4[0]. Each page takes its own frame and, when it is the first one in a block that the
kernel has not split, one for the table that replaces the block. The call completes exactly when that
many frames are free.

The numbers are read off the kernel's tables as they are before the call. The pages have to be covered
by these tables: map_user_page does not create directories.
-/
namespace Zohara.TableCost
open FrameRefinement PageEntry PageTables TableTree TableHeap KernelTables KernelRuns List Option
  UserTables Budget

/-! ## Free frames -/

def free (m : Machine) : ℕ := m.frames.actualFrameCount-(used m).card

def Sound (m : Machine) : Prop := Valid m.frames

section
variable {m m' : Machine} {n f : ℕ}

theorem card_used_le (m : Machine) : (used m).card ≤ m.frames.actualFrameCount := by
  unfold used usedFrames
  refine (Finset.card_filter_le _ _).trans ?_
  rw [Finset.card_range]

theorem free_of_room (h : Room m n) : n ≤ free m := by
  unfold Room at h
  unfold free
  omega

theorem takes_frames (hv : Sound m) (h : m'.frames = m.frames) : Takes free Sound m m' 0 := by
  constructor
  · unfold Sound
    rw [h]
    exact hv
  · unfold free used
    rw [h]
    rfl

theorem Allocated.takes (h : Allocated m f m') : Takes free Sound m m' 1 := by
  have hle := card_used_le m'
  refine ⟨h.valid,?_⟩
  unfold free
  rw [h.count, h.used_eq, Finset.card_insert_of_notMem h.fresh] at *
  omega

theorem allocTableOrHalt_costs (hv : Sound m) :
    Costs free Sound Prod.snd m 1 m.allocTableOrHalt := by
  constructor
  · intro hle
    unfold free at hle
    exact allocTableOrHalt_isSome hv (by omega)
  · rintro ⟨pa,m'⟩ h
    obtain ⟨f,-,hal⟩ := allocTableOrHalt_some hv h
    exact Allocated.takes hal

theorem splitBlock_costs {pd idx : ℕ} {link : ℕ → Entry} (hv : Sound m) :
    Costs free Sound Prod.snd m 1 (splitBlock m pd idx link) := by
  refine (allocTableOrHalt_costs hv).then_free fun b hb => ?_
  refine takes_frames ((allocTableOrHalt_costs hv).takes b hb).ok ?_
  dsimp only
  rw [setEntry_frames, foldl_setEntry_frames, zeroTable_frames]

end

/-! ## Cloning -/

/-- The kernel's PDPT below PML4[0]. -/
def kernelPdpt (m : Machine) : ℕ := tableAddr (m.entry m.kernelPml4 0)

def directories (m : Machine) : List ℕ :=
  (List.range 512).filter fun j => present (m.entry (kernelPdpt m) j)

section
variable {m₀ m : Machine} {r K U Q n : ℕ}

section

variable (ok : KernelOk m₀ r) (hK : node child (cell m₀) r [0] = some K)
include ok hK

theorem kernelPdpt_eq : kernelPdpt m₀ = K*4096 := by
  obtain ⟨K',hK',hcell,haddr⟩ := KernelOk.pdpt ok
  cases hK.symm.trans hK'
  unfold kernelPdpt
  rw [ok.root]
  change tableAddr (cell m₀ r 0) = _
  rw [hcell]
  exact (tableEntry_spec haddr).2.2.2.2.2

theorem pdpt_slot (hn : n < 512) :
    cell m₀ K n = 0 ∨ ∃ d, FrameAddr (d*4096) ∧ cell m₀ K n = tableEntry (d*4096) ∧
      node child (cell m₀) r [0,n] = some d := by
  rcases ok.slots [0] K n ⟨by simp,by simp⟩ hK hn with hz | ⟨d,hd,he⟩ | ⟨hl,-⟩
  · exact .inl hz
  · refine .inr ⟨d,hd,he,?_⟩
    rw [show ([0,n] : List ℕ) = [0]++[n] from rfl, node_snoc_of hK, he, child_tableEntry hd]
  · simp at hl

theorem cloneSlot_costs (h : Cloned m₀ K U Q n m) (hn : n < 512) :
    Costs free Sound id m (if present (cell m₀ K n) then 1 else 0)
      (cloneSlot (K*4096) (Q*4096) m n) := by
  have hKu := ok.inUse [0] K ⟨by simp,by simp⟩ hK
  have hentry : m.entry (K*4096) n = cell m₀ K n := h.cell hKu hn
  unfold cloneSlot
  rw [hentry]
  rcases pdpt_slot ok hK hn with hz | ⟨d,hd,he,-⟩
  · rw [hz]
    exact costs_some (.refl h.valid)
  · obtain ⟨hpres,-,-,hlarge,-⟩ := tableEntry_spec hd
    rw [he]
    simp only [hpres, hlarge, Bool.not_true, Bool.false_eq_true, if_false, if_true]
    refine (allocTableOrHalt_costs h.valid).then_free fun b hb => ?_
    refine takes_frames ((allocTableOrHalt_costs h.valid).takes b hb).ok ?_
    dsimp only [id]
    rw [setEntry_frames, foldl_setEntry_frames, zeroTable_frames]

theorem cloneSlots_costs (h : Cloned m₀ K U Q 0 m) (hn : n ≤ 512) :
    Costs free Sound id m ((List.range n).filter fun j => present (cell m₀ K j)).length
      ((List.range n).foldlM (cloneSlot (K*4096) (Q*4096)) m) := by
  induction n with
  | zero => exact costs_some (.refl h.valid)
  | succ n ih =>
    have hstep := (ih (by omega)).bind fun b hb =>
      cloneSlot_costs ok hK (cloneSlots_spec ok hK h (by omega) hb) (show n < 512 by omega)
    have hlen : ((List.range (n+1)).filter fun j => present (cell m₀ K j)).length =
        ((List.range n).filter fun j => present (cell m₀ K j)).length+
          if present (cell m₀ K n) then 1 else 0 := by
      rw [range_succ, filter_append, length_append]
      by_cases hp : present (cell m₀ K n) = true <;> simp [filter_cons, hp]
    rw [hlen, range_succ, foldlM_append]
    simpa using hstep

end

/-- The root, the PDPT and the directories. -/
def cloneCost (m : Machine) : ℕ := 2+(directories m).length

theorem cloneCost_le (m : Machine) : cloneCost m ≤ 514 := by
  have hlen := length_filter_le (fun j => present (m.entry (kernelPdpt m) j)) (List.range 512)
  rw [length_range] at hlen
  unfold cloneCost directories
  omega

theorem cloneKernel_costs (ok : KernelOk m₀ r) :
    Costs free Sound Prod.snd m₀ (cloneCost m₀) (cloneKernel m₀) := by
  obtain ⟨K,hK,hKcell,hKaddr⟩ := KernelOk.pdpt ok
  have hdirs : directories m₀ = (List.range 512).filter fun j => present (cell m₀ K j) := by
    unfold directories
    rw [kernelPdpt_eq ok hK]
    rfl
  unfold cloneCost
  rw [hdirs, show 2+((List.range 512).filter fun j => present (cell m₀ K j)).length =
    1+(1+((List.range 512).filter fun j => present (cell m₀ K j)).length) by omega]
  refine (allocTableOrHalt_costs ok.valid).bind ?_
  rintro ⟨pu,x⟩ hu
  obtain ⟨U,rfl,hU⟩ := allocTableOrHalt_some ok.valid hu
  have hx := takes_frames hU.valid (zeroTable_frames x (U*4096))
  refine Costs.after_free hx ((allocTableOrHalt_costs hx.ok).bind ?_)
  rintro ⟨pq,y⟩ hq
  obtain ⟨Q,rfl,hQ⟩ := allocTableOrHalt_some hx.ok hq
  have hloop := cloneSlots_costs ok hK (cloned_start hU hQ) le_rfl
  rw [← clone_reads_pdpt ok hU hKcell hKaddr] at hloop
  refine Costs.after_free (takes_frames hQ.valid (zeroTable_frames y (Q*4096)))
    (hloop.then_free fun z hz => ?_)
  exact takes_frames (hloop.takes z hz).ok (setEntry_frames _ _ _ _)

end

/-! ## Mapping pages -/

/-- The directory entry of the kernel for an address. -/
def kernelBlock (m : Machine) (addr : ℕ) : Entry :=
  m.entry (tableAddr (m.entry (kernelPdpt m) (pdptIdx addr))) (pdIdx addr)

/-- The kernel's tables have every level of the walk to an address. -/
def Covered (m : Machine) (addr : ℕ) : Prop :=
  pml4Idx addr = 0 ∧ present (m.entry (kernelPdpt m) (pdptIdx addr)) = true ∧
    present (kernelBlock m addr) = true

instance (m : Machine) (addr : ℕ) : Decidable (Covered m addr) :=
  inferInstanceAs (Decidable (_ ∧ _ ∧ _))

/-- The 2 MiB block an address lies in. -/
def block (addr : ℕ) : ℕ × ℕ := (pdptIdx addr,pdIdx addr)

/-- A page needs a frame, and a table when it is the first in a whole block. -/
def pageCost (m : Machine) (before : List ℕ) (addr : ℕ) : ℕ :=
  if large (kernelBlock m addr) = true ∧ ∀ b ∈ before, block b ≠ block addr then 2 else 1

/-- The pages of a list, one after the other; `before` are those that are mapped already. -/
def pagesCost (m : Machine) : List ℕ → List ℕ → ℕ
  | _,[] => 0
  | before,a::rest => pageCost m before a+pagesCost m (a::before) rest

theorem pageCost_pos (m : Machine) (before : List ℕ) (addr : ℕ) : 1 ≤ pageCost m before addr := by
  unfold pageCost
  split_ifs <;> decide

theorem pagesCost_le (m : Machine) (before addrs : List ℕ) :
    pagesCost m before addrs ≤ 2*addrs.length := by
  induction addrs generalizing before with
  | nil => rfl
  | cons a addrs ih =>
    have hpage : pageCost m before a ≤ 2 := by
      unfold pageCost
      split_ifs <;> decide
    have hrest := ih (a::before)
    simp only [pagesCost, length_cons]
    omega

section
variable {m₀ m m' : Machine} {r K U j k D T F addr : ℕ} {before : List ℕ} {owned : Finset ℕ}
  {done : List Mapping}

theorem kernelBlock_eq (ok : KernelOk m₀ r) {d : ℕ}
    (hd : node child (cell m₀) r [0,pdptIdx addr] = some d) :
    kernelBlock m₀ addr = cell m₀ d (pdIdx addr) := by
  obtain ⟨K,hK,-⟩ := KernelOk.pdpt ok
  rw [show ([0,pdptIdx addr] : List ℕ) = [0]++[pdptIdx addr] from rfl, node_snoc_of hK] at hd
  unfold kernelBlock
  rw [kernelPdpt_eq ok hK]
  change m₀.entry (tableAddr (cell m₀ K (pdptIdx addr))) _ = _
  rw [(child_some hd).2.2]
  rfl

theorem covered_iff (ok : KernelOk m₀ r) : Covered m₀ addr ↔ KernelCovers m₀ r addr := by
  obtain ⟨K,hK,-⟩ := KernelOk.pdpt ok
  have hentry : m₀.entry (kernelPdpt m₀) (pdptIdx addr) = cell m₀ K (pdptIdx addr) := by
    rw [kernelPdpt_eq ok hK]
    rfl
  unfold Covered KernelCovers
  rw [hentry]
  refine and_congr_right fun _ => ?_
  rcases pdpt_slot ok hK (pdptIdx_lt addr) with hz | ⟨d,hd,he,hn⟩
  · have hnone : node child (cell m₀) r [0,pdptIdx addr] = none := by
      rw [show ([0,pdptIdx addr] : List ℕ) = [0]++[pdptIdx addr] from rfl, node_snoc_of hK, hz,
        child_zero]
    rw [hz, hnone]
    constructor
    · rintro ⟨hp,-⟩
      cases hp
    · rintro ⟨d,hd,-⟩
      cases hd
  · rw [he, hn, kernelBlock_eq ok hn]
    constructor
    · rintro ⟨-,hp⟩
      exact ⟨d,rfl,hp⟩
    · rintro ⟨d',hd',hp⟩
      cases hd'
      exact ⟨(tableEntry_spec hd).1,hp⟩

/-- The directory entries of blocks without a page of `before` are the kernel's. -/
def Whole (m₀ : Machine) (r : ℕ) (m : Machine) (U : ℕ) (before : List ℕ) : Prop :=
  ∀ j k D, j < 512 → k < 512 → node child (cell m) U [0,j] = some D →
    (∀ b ∈ before, block b ≠ (j,k)) → cell m D k = kernelPdEntry m₀ r j k

/-- The state of create_user_page_tables after the pages `before`. -/
structure Progress (m₀ : Machine) (r U : ℕ) (before : List ℕ) (m : Machine) : Prop where
  ok : ∃ owned done, UserOk m₀ r m U owned done ∧ Zeroed m owned ∧
    ∀ b ∈ before, ∃ d ∈ done, block d.addr = block b
  whole : Whole m₀ r m U before

theorem progress_start {pa : ℕ} (ok : KernelOk m₀ r) (h : cloneKernel m₀ = some (pa,m)) :
    ∃ U, pa = U*4096 ∧ Progress m₀ r U [] m := by
  obtain ⟨U,hpa,-,hok⟩ := cloneKernel_ok ok h
  obtain ⟨K,U',Q,x,hpa',hK,hc,rfl⟩ := cloneKernel_spec ok h
  obtain rfl : U = U' := by omega
  refine ⟨U,hpa,⟨∅,[],hok,by simp [Zeroed],by simp⟩,fun j k D hj hk hD _ => ?_⟩
  obtain ⟨d,hd,hcopy⟩ := hc.pd_copied hK hj hk hD
  rw [hcopy, kernelPdEntry_eq hd]

theorem Whole.of_agree (h : Whole m₀ r m U before)
    (hagree : ∀ p f i, Path 3 512 p → p.length < 3 → i < 512 → node child (cell m) U p = some f →
      cell m' f i = cell m f i) : Whole m₀ r m' U before := by
  intro j k D hj hk hD hb
  rw [node_eq_of_agree hagree (path_low hj)] at hD
  rw [hagree [0,j] D k (path_low hj) (by simp) hk hD]
  exact h j k D hj hk hD hb

theorem Whole.split (h : Whole m₀ r m U before) (hok : UserOk m₀ r m U owned done)
    (hD : node child (cell m) U [0,pdptIdx addr] = some D)
    (hl : large (cell m D (pdIdx addr)) = true)
    (hs : Installs m m' D (pdIdx addr) T tableEntryUser fun l =>
      page4k (blockAddr (cell m D (pdIdx addr))+l*0x1000) true false true) :
    Whole m₀ r m' U (addr::before) := by
  have hpj : Path 3 512 [0,pdptIdx addr] := path_low (pdptIdx_lt _)
  have hext : Extends child (cell m) (cell m') U 3 512 [0,pdptIdx addr] D (pdIdx addr) T :=
    hs.extends (child_tableEntryUser hs.addr) (fun q f hq hf => hok.node_used hq hf)
      ⟨by simp,hpj.2⟩ hD (pdIdx_lt _) (child_large hl) (by simp)
  intro j k E hj hk hE hb
  rcases hext.node_cases hok.separate (path_low hj) hE with ⟨he,-⟩ | ⟨hE,-⟩
  · simp at he
  · have hET : E ≠ T := fun he => hs.fresh (he ▸ hok.node_used (path_low hj) hE)
    rw [hs.cells E k hk hET, if_neg]
    · exact h j k E hj hk hE fun b hb' => hb b (mem_cons_of_mem _ hb')
    · rintro ⟨rfl,rfl⟩
      obtain rfl : j = pdptIdx addr := by
        simpa using hok.separate _ _ E (path_low hj) hpj hE hD
      exact hb addr mem_cons_self rfl

theorem Whole.weaken (h : Whole m₀ r m U before) : Whole m₀ r m U (addr::before) :=
  fun j k D hj hk hD hb => h j k D hj hk hD fun b hb' => hb b (mem_cons_of_mem _ hb')

/-- A block of the task is still a block when the kernel's is and no page of it has been mapped. -/
theorem Progress.large_iff (h : Progress m₀ r U before m) (ok : KernelOk m₀ r)
    (hc : KernelCovers m₀ r addr) (hD : node child (cell m) U [0,pdptIdx addr] = some D) :
    large (cell m D (pdIdx addr)) = true ↔
      large (kernelBlock m₀ addr) = true ∧ ∀ b ∈ before, block b ≠ block addr := by
  obtain ⟨owned,done,hok,-,hdone⟩ := h.ok
  obtain ⟨-,d,hd,-⟩ := hc
  rw [kernelBlock_eq ok hd, ← kernelPdEntry_eq hd]
  constructor
  · intro hl
    refine ⟨hok.pd_large (pdptIdx_lt _) (pdIdx_lt _) hD hl ▸ hl,fun b hb he => ?_⟩
    obtain ⟨e,he',heb⟩ := hdone b hb
    obtain ⟨hj,hk⟩ := Prod.mk.inj (heb.trans he)
    obtain ⟨-,-,t,ht⟩ := hok.placed e he'
    rw [hj, hk, show ([0,pdptIdx addr,pdIdx addr] : List ℕ) = [0,pdptIdx addr]++[pdIdx addr] from rfl,
      node_snoc_of hD, child_large hl] at ht
    cases ht
  · rintro ⟨hl,hb⟩
    rw [h.whole _ _ D (pdptIdx_lt _) (pdIdx_lt _) hD hb]
    exact hl

/-! ### One page -/

theorem idx_mod (h : pml4Idx addr = 0) : pml4Idx (addr%2^39) = pml4Idx addr ∧
    pdptIdx (addr%2^39) = pdptIdx addr ∧ pdIdx (addr%2^39) = pdIdx addr ∧
    ptIdx (addr%2^39) = ptIdx addr := by
  rw [h]
  simp only [pml4Idx_eq, pdptIdx_eq, pdIdx_eq, ptIdx_eq]
  omega

theorem mapFresh_mod {pml4 : ℕ} {leaf : ℕ → Entry} (h : pml4Idx addr = 0) :
    mapFresh pml4 (addr%2^39) leaf m = mapFresh pml4 addr leaf m := by
  obtain ⟨h₄,h₃,h₂,h₁⟩ := idx_mod h
  unfold mapFresh mapUserPage
  rw [h₁, h₂, h₃, h₄]

section

variable (h : Progress m₀ r U before m)
include h

theorem Progress.valid : Sound m := by
  obtain ⟨_,_,hok,-⟩ := h.ok
  exact hok.valid

theorem Progress.takeFrame (ha : Allocated m F m') :
    Progress m₀ r U before (m'.zeroPage (F*4096)) := by
  obtain ⟨owned,done,hok,hz,hdone⟩ := h.ok
  exact ⟨⟨_,done,hok.takeFrame ha,zeroed_takeFrame hok hz ha,hdone⟩,
    h.whole.of_agree fun p f i hp _ hi hf => hok.takeFrame_cell ha hp hi hf⟩

theorem Progress.mapUserPage_costs (ok : KernelOk m₀ r) (hc : KernelCovers m₀ r addr) :
    Costs free Sound Prod.snd m
      (if large (kernelBlock m₀ addr) = true ∧ ∀ b ∈ before, block b ≠ block addr then 1 else 0)
      (mapUserPage m (U*4096) addr) := by
  obtain ⟨owned,done,hok,-⟩ := h.ok
  obtain ⟨D,hD,heq⟩ := hok.mapUserPage_covered hc
  have hiff := h.large_iff ok hc hD
  rw [heq]
  by_cases hl : large (cell m D (pdIdx addr)) = true
  · rw [if_pos hl, if_pos (hiff.mp hl)]
    exact splitBlock_costs h.valid
  · rw [if_neg hl, if_neg fun hn => hl (hiff.mpr hn)]
    exact costs_some (.refl h.valid)

theorem Progress.mapUserPage_whole {pa : ℕ}
    (hc : KernelCovers m₀ r addr) (hm : mapUserPage m (U*4096) addr = some (pa,m')) :
    Whole m₀ r m' U (addr::before) := by
  obtain ⟨owned,done,hok,-⟩ := h.ok
  obtain ⟨D,hD,heq⟩ := hok.mapUserPage_covered hc
  rw [heq] at hm
  split_ifs at hm with hl
  · obtain ⟨T,-,hs⟩ := splitBlock_spec hok.valid (hok.node_used (path_low (pdptIdx_lt _)) hD)
      (pdIdx_lt _) hm
    exact h.whole.split hok hD hl hs
  · cases hm
    exact h.whole.weaken

theorem Progress.mapFresh_costs (ok : KernelOk m₀ r)
    (hc : KernelCovers m₀ r addr) (leaf : ℕ → Entry) :
    Costs free Sound Prod.snd m (pageCost m₀ before addr) (mapFresh (U*4096) addr leaf m) := by
  have hcost : pageCost m₀ before addr = 1+
      if large (kernelBlock m₀ addr) = true ∧ ∀ b ∈ before, block b ≠ block addr then 1 else 0 := by
    unfold pageCost
    split_ifs <;> rfl
  rw [hcost]
  refine (allocTableOrHalt_costs h.valid).bind ?_
  rintro ⟨pa,m₁⟩ ha
  obtain ⟨F,rfl,hal⟩ := allocTableOrHalt_some h.valid ha
  have hpage := (h.takeFrame hal).mapUserPage_costs ok hc
  refine Costs.after_free (takes_frames hal.valid (zeroPage_spec m₁ F).2.1)
    (hpage.then_free fun b hb => ?_)
  exact takes_frames (hpage.takes b hb).ok (setEntry_frames _ _ _ _)

theorem Progress.mapFresh (ok : KernelOk m₀ r) (hc : KernelCovers m₀ r addr) {w x : Bool} {pa : ℕ}
    (hm : PageTables.mapFresh (U*4096) addr (fun pa => page4k pa w true x) m = some (pa,m')) :
    Progress m₀ r U (addr::before) m' := by
  obtain ⟨owned,done,hok,hz,hdone⟩ := h.ok
  obtain ⟨h₄,h₃,h₂,-⟩ := idx_mod hc.1
  constructor
  · -- An alias above 2^39 is the page of its low bits.
    have hc' : KernelCovers m₀ r (addr%2^39) := by
      unfold KernelCovers
      rw [h₄, h₃, h₂]
      exact hc
    rw [← mapFresh_mod hc.1] at hm
    obtain ⟨F,-,-,hz',hok'⟩ := mapFresh_covered_spec ok hok hz hc' (Nat.mod_lt _ (by decide)) hm
    refine ⟨_,_,hok',hz',fun b hb => ?_⟩
    rcases mem_cons.mp hb with rfl | hb
    · exact ⟨_,mem_cons_self,Prod.ext h₃ h₂⟩
    · obtain ⟨d,hd,he⟩ := hdone b hb
      exact ⟨d,mem_cons_of_mem _ hd,he⟩
  · obtain ⟨⟨pf,m₁⟩,hf,hm⟩ := bind_eq_some_iff.mp hm
    obtain ⟨F,rfl,hal⟩ := allocTableOrHalt_some hok.valid hf
    obtain ⟨⟨pt,m₂⟩,ht,hm⟩ := bind_eq_some_iff.mp hm
    cases hm
    obtain ⟨t,rfl,hok',-,hn⟩ := mapUserPage_covered_spec ok (hok.takeFrame hal)
      (zeroed_takeFrame hok hz hal) hc ht
    refine ((h.takeFrame hal).mapUserPage_whole hc ht).of_agree fun p f i hp hlen hi hf => ?_
    exact hok'.setLeaf_cell _ (pdptIdx_lt _) (pdIdx_lt _) (ptIdx_lt _) hn hp hlen hi hf

end

/-! ### Whole calls -/

theorem Progress.mapRequests_costs (ok : KernelOk m₀ r) {reqs : List (ℕ × Bool × Bool)}
    (hc : ∀ q ∈ reqs, KernelCovers m₀ r q.1) (h : Progress m₀ r U before m) :
    Costs free Sound Prod.snd m (pagesCost m₀ before (reqs.map Prod.fst))
      (mapRequests (U*4096) reqs m) := by
  induction reqs generalizing before m with
  | nil => exact costs_some (.refl h.valid)
  | cons q reqs ih =>
    obtain ⟨addr,w,x⟩ := q
    have haddr := hc _ mem_cons_self
    refine (h.mapFresh_costs ok haddr _).bind ?_
    rintro ⟨pa,m₁⟩ h₁
    have hrest := ih ((forall_mem_cons.mp hc).2) (h.mapFresh ok haddr h₁)
    exact hrest.then_free fun b hb => .refl (hrest.takes b hb).ok

end

/-- The frames that the tables and the pages of a task take. -/
def tableCost (m : Machine) (segments : List Segment) : ℕ :=
  cloneCost m+pagesCost m [] ((userRequests segments).map Prod.fst)

variable {m m' : Machine}

theorem pagesCost_congr (h : ∀ a, kernelBlock m' a = kernelBlock m a)
    (before addrs : List ℕ) : pagesCost m' before addrs = pagesCost m before addrs := by
  induction addrs generalizing before with
  | nil => rfl
  | cons a addrs ih => simp only [pagesCost, pageCost, h a, ih]

theorem tableCost_congr (hmem : m'.mem = m.mem)
    (hroot : m'.kernelPml4 = m.kernelPml4) (segments : List Segment) :
    tableCost m' segments = tableCost m segments := by
  have hentry : ∀ t i, m'.entry t i = m.entry t i := by
    intro t i
    unfold Machine.entry
    rw [hmem]
  have hpdpt : kernelPdpt m' = kernelPdpt m := by
    unfold kernelPdpt
    rw [hentry, hroot]
  have hblock : ∀ a, kernelBlock m' a = kernelBlock m a := by
    intro a
    unfold kernelBlock
    rw [hpdpt, hentry, hentry]
  have hdirs : directories m' = directories m := by
    unfold directories
    simp only [hpdpt, hentry]
  unfold tableCost cloneCost
  rw [hdirs, pagesCost_congr hblock]

/-- create_user_page_tables completes exactly when the frames it needs are free. -/
theorem createUserPageTables_costs {m₀ : Machine} {r : ℕ} {segments : List Segment}
    (ok : KernelOk m₀ r) (hc : ∀ q ∈ userRequests segments, Covered m₀ q.1) :
    Costs free Sound Prod.snd m₀ (tableCost m₀ segments) (createUserPageTables m₀ segments) := by
  refine (cloneKernel_costs ok).bind ?_
  rintro ⟨pa,m₁⟩ h₁
  obtain ⟨U,rfl,hp⟩ := progress_start ok h₁
  have hrest := hp.mapRequests_costs ok fun q hq => (covered_iff ok).mp (hc q hq)
  exact hrest.then_free fun b hb => .refl (hrest.takes b hb).ok

/-- A bound that does not look at the tables: a directory for every slot of the PDPT and a new table for
every page. -/
theorem tableCost_le (m : Machine) (segments : List Segment) :
    tableCost m segments ≤ 514+2*(userRequests segments).length := by
  have hpages := pagesCost_le m [] ((userRequests segments).map Prod.fst)
  have hclone := cloneCost_le m
  rw [length_map] at hpages
  unfold tableCost
  omega

/-! ## Few free frames -/

/-- One allocation, by whatever part of the kernel. -/
def TakesFrame (m m' : Machine) : Prop := ∃ pa, m.allocTableOrHalt = some (pa,m')

theorem takesFrame_costs (hv : Sound m) (h : TakesFrame m m') : Takes free Sound m m' 1 := by
  obtain ⟨pa,h⟩ := h
  exact (allocTableOrHalt_costs hv).takes _ h

theorem TakesFrame.kernelOk {r : ℕ} (ok : KernelOk m r) (h : TakesFrame m m')
    (segments : List Segment) : KernelOk m' r ∧ tableCost m' segments = tableCost m segments := by
  obtain ⟨pa,h⟩ := h
  obtain ⟨f,-,hal⟩ := allocTableOrHalt_some ok.valid h
  refine ⟨ok.of_agree (fun _ g i _ _ _ _ => hal.cell g i) hal.valid
    (fun p g hp hg => hal.subset (ok.inUse p g hp hg)) hal.kernelPml4,?_⟩
  exact tableCost_congr hal.mem hal.kernelPml4 segments

theorem exists_drained {m : Machine} {r n : ℕ} (ok : KernelOk m r) (segments : List Segment)
    (hn : n ≤ free m) : ∃ m', Relation.ReflTransGen TakesFrame m m' ∧ KernelOk m' r ∧
      tableCost m' segments = tableCost m segments ∧ free m' = n := by
  obtain ⟨k,hk⟩ := Nat.exists_eq_add_of_le hn
  induction k generalizing m with
  | zero => exact ⟨m,.refl,ok,rfl,hk⟩
  | succ k ih =>
    obtain ⟨⟨pa,m₁⟩,h₁⟩ := (allocTableOrHalt_costs ok.valid).enough (by omega)
    have hstep : TakesFrame m m₁ := ⟨pa,h₁⟩
    have hleft : free m = free m₁+1 := (takesFrame_costs ok.valid hstep).left
    obtain ⟨hok,hcost⟩ := hstep.kernelOk ok segments
    obtain ⟨m',hrun,hok',hcost',hfree⟩ := ih hok (by omega) (by omega)
    exact ⟨m',.head hstep hrun,hok',hcost'.trans hcost,hfree⟩

end Zohara.TableCost

namespace Zohara.UserTables
open PageTables TableHeap KernelTables TableCost

theorem createUserPageTables_room {m₀ : Machine} {r : ℕ} {segments : List Segment} (ok : KernelOk m₀ r)
    (hlow : ∀ q ∈ userRequests segments, q.1 < 2^31)
    (hr : Room m₀ (514+2*(userRequests segments).length)) :
    ∃ res, createUserPageTables m₀ segments = some res := by
  refine (createUserPageTables_costs ok fun q hq => ?_).enough
    ((tableCost_le m₀ segments).trans (free_of_room hr))
  exact (covered_iff ok).mpr (kernelCovers_low ok (hlow q hq))

end Zohara.UserTables
