import Zohara.KernelTables
import Zohara.Mmu

/-!
# Kernel page tables over whole runs

A kernel run is a completed `init` followed by any completed map_page and
map_page_uc calls, for any addresses. After it the hierarchy satisfies
`KernelOk`, and its last-level tables are exactly those of the addresses that
were mapped.

When every call meets the documented contract (a page-aligned, canonical
address), the part of the hierarchy below the first PML4 slot is an identity
mapping of supervisor pages (`IdentityOk`). Nothing is said about contents
below the other slots.
-/
namespace Zohara.KernelRuns
open FrameAllocator FrameRefinement PageEntry PageTables TableTree TableHeap KernelTables Runs List Option

variable {m m' m₀ : Machine} {h : List Call}

inductive Call where
  | mapPage (virt : ℕ)
  | mapPageUc (virt : ℕ)
  deriving DecidableEq, Repr

def Call.virt : Call → ℕ
  | .mapPage virt => virt
  | .mapPageUc virt => virt

def Call.leaf : Call → ℕ → Entry
  | .mapPage _ => fun phys => page4k phys true false true
  | .mapPageUc _ => page4kUc

def Call.exec (m : Machine) : Call → Option Machine
  | .mapPage virt => PageTables.mapPage m virt
  | .mapPageUc virt => PageTables.mapPageUc m virt

theorem Call.exec_eq (m : Machine) (c : Call) : c.exec m = mapWith c.leaf m c.virt := by
  cases c <;> rfl

/-- One call that does not halt the processor. -/
def Step (m : Machine) (c : Call) (m' : Machine) : Prop := c.exec m = some m'

def KernelRun (m₀ : Machine) (h : List Call) (m : Machine) : Prop :=
  ∃ mᵢ, init m₀ = some mᵢ ∧ Run Step mᵢ h m

/-! ## The address of a page -/

def pageVa (j k l : ℕ) : ℕ := j*0x40000000+k*0x200000+l*0x1000

theorem shift_mask (virt n : ℕ) : (virt >>> n) &&& 0x1FF = virt/2^n%512 := by
  rw [Nat.shiftRight_eq_div_pow]
  exact Nat.and_two_pow_sub_one_eq_mod _ 9

theorem pml4Idx_eq (virt : ℕ) : pml4Idx virt = virt/2^39%512 := shift_mask virt 39
theorem pdptIdx_eq (virt : ℕ) : pdptIdx virt = virt/2^30%512 := shift_mask virt 30
theorem pdIdx_eq (virt : ℕ) : pdIdx virt = virt/2^21%512 := shift_mask virt 21
theorem ptIdx_eq (virt : ℕ) : ptIdx virt = virt/2^12%512 := shift_mask virt 12

theorem pageVa_idx {virt : ℕ} (hv : virt < 2^39) :
    virt = pageVa (pdptIdx virt) (pdIdx virt) (ptIdx virt)+virt%4096 := by
  rw [pdptIdx_eq, pdIdx_eq, ptIdx_eq, pageVa]
  omega

/-- The documented contract of map_page. -/
def Proper (virt : ℕ) : Prop := virt%4096 = 0 ∧ Mmu.Canonical virt

instance (virt : ℕ) : Decidable (Proper virt) :=
  inferInstanceAs (Decidable (_ ∧ _))

theorem Proper.pageVa {virt : ℕ} (h : Proper virt) (hi : pml4Idx virt = 0) :
    virt = pageVa (pdptIdx virt) (pdIdx virt) (ptIdx virt) := by
  obtain ⟨ha,hc⟩ := h
  unfold Mmu.Canonical at hc
  rw [pml4Idx_eq] at hi
  have hv := pageVa_idx (by omega : virt < 2^39)
  omega

theorem pageVa_block_dvd (j k : ℕ) : 2^21 ∣ pageVa j k 0 := by
  refine ⟨j*512+k,?_⟩
  rw [pageVa]
  ring

theorem pageVa_lt {j k l : ℕ} (hj : j < 512) (hk : k < 512) (hl : l < 512) :
    pageVa j k l < 2^39 := by
  rw [pageVa]
  omega

/-! ## Identity mapping -/

/-- What a cell of a last-level table below PML4[0] holds. -/
def Leaf (j k l : ℕ) (e : Entry) : Prop :=
  e = page4k (pageVa j k l) true false true ∨ e = page4kUc (pageVa j k l) ∨ (2 ≤ j ∧ e = 0)

structure IdentityOk (m : Machine) (r : ℕ) : Prop where
  blocks : ∀ j k d, j < 512 → k < 512 → node child (cell m) r [0,j] = some d →
    cell m d k = 0 ∨ child (cell m d k) ≠ none ∨ cell m d k = page2mb (pageVa j k 0)
  leaves : ∀ j k l t, j < 512 → k < 512 → l < 512 →
    node child (cell m) r [0,j,k] = some t → Leaf j k l (cell m t l)

theorem page2mb_block {j k : ℕ} (hj : j < 512) (hk : k < 512) :
    blockAddr (page2mb (pageVa j k 0)) = pageVa j k 0 :=
  (page2mb_spec (pageVa_block_dvd j k)
    (Nat.lt_trans (pageVa_lt hj hk (by decide)) (by decide))).2.2.2.2.2

theorem IdentityOk.descend {r t i g : ℕ} {p : List ℕ} (h : IdentityOk m r)
    (ok : KernelOk m r) (ht : node child (cell m) r p = some t)
    (hd : Descends m r p t i g m') : IdentityOk m' r := by
  cases hd with
  | stay _ => exact h
  | @install _ new hs he hfill =>
    constructor
    · intro j k d hj hk hnode
      have hpath : Path 3 512 [0,j] := path_low hj
      obtain ⟨hpj,rfl⟩ | ⟨ho,-⟩ := he.node_cases ok.separate hpath hnode
      · have hlen := congrArg List.length hpj
        rw [length_append] at hlen
        simp only [length_cons, length_nil] at hlen
        rcases hfill with ⟨-,hz⟩ | ⟨hl,-⟩
        · rw [hs.table k hk, hz k hk]
          exact .inl rfl
        · omega
      · rw [hs.cells d k hk (ok.ne_fresh hs.fresh hpath ho)]
        split_ifs
        · rw [child_tableEntry hs.addr]
          exact .inr (.inl (some_ne_none g))
        · exact h.blocks j k d hj hk ho
    · intro j k l f hj hk hl hnode
      have hpath : Path 3 512 [0,j,k] := path_three (by decide) hj hk
      obtain ⟨hpj,rfl⟩ | ⟨ho,-⟩ := he.node_cases ok.separate hpath hnode
      · obtain ⟨rfl,rfl⟩ : p = [0,j] ∧ i = k := by
          have := append_inj' (show [0,j]++[k] = p++[i] from hpj) rfl
          exact ⟨this.1.symm,(singleton_inj.mp this.2).symm⟩
        rw [hs.table l hl]
        rcases hfill with ⟨hzero,hz⟩ | ⟨-,hpres,hlarge,hz⟩
        · rw [hz l hl]
          refine .inr (.inr ⟨?_,rfl⟩)
          by_contra hlt
          obtain ⟨d,hd,hall⟩ := ok.low j (by omega)
          obtain rfl : d = t := some.inj (hd.symm.trans ht)
          have := hall i hk
          rw [hzero] at this
          cases this
        · rw [hz l hl]
          rcases h.blocks j i t hj hk ht with hb | hb | hb
          · rw [hb] at hpres
            cases hpres
          · exact (hb (child_large hlarge)).elim
          · rw [hb, page2mb_block hj hk]
            refine .inl (congrArg (page4k · true false true) ?_)
            rw [pageVa, pageVa]
            omega
      · have hne := ok.ne_fresh hs.fresh hpath ho
        rw [hs.cells f l hl hne, if_neg]
        · exact h.leaves j k l f hj hk hl ho
        · rintro ⟨rfl,-⟩
          have hp := ok.separate _ _ f hpath he.path ho ht
          have hshort := he.short
          rw [← hp] at hshort
          simp at hshort

variable {call : Call}

theorem IdentityOk.setLeaf {r c : ℕ} (h : IdentityOk m r) (ok : KernelOk m r) (hc : node child (cell m) r
      [pml4Idx call.virt,pdptIdx call.virt,pdIdx call.virt] = some c)
    (hv : Proper call.virt) :
    IdentityOk (m.setEntry (c*4096) (ptIdx call.virt) (call.leaf call.virt)) r := by
  have hi := ptIdx_lt call.virt
  have hcpath := path_three (pml4Idx_lt call.virt) (pdptIdx_lt call.virt) (pdIdx_lt call.virt)
  obtain ⟨-,hnode⟩ := ok.setLeaf hcpath rfl hc hi (call.leaf call.virt)
  constructor
  · intro j k d hj hk hd
    have hpath : Path 3 512 [0,j] := path_low hj
    rw [hnode _ hpath] at hd
    rw [cell_setEntry m c hi hk, if_neg]
    · exact h.blocks j k d hj hk hd
    · rintro ⟨rfl,-⟩
      have := congrArg List.length (ok.separate _ _ d hpath hcpath hd hc)
      simp at this
  · intro j k l t hj hk hl ht
    have hpath : Path 3 512 [0,j,k] := path_three (by decide) hj hk
    rw [hnode _ hpath] at ht
    rw [cell_setEntry m c hi hl]
    split_ifs with heq
    · obtain ⟨rfl,rfl⟩ := heq
      have hp := ok.separate _ _ t hpath hcpath ht hc
      simp only [List.cons.injEq, and_true] at hp
      obtain ⟨hz,rfl,rfl⟩ := hp
      have hva := hv.pageVa hz.symm
      cases call with
      | mapPage virt => exact .inl (congrArg (page4k · true false true) hva)
      | mapPageUc virt => exact .inr (.inl (congrArg page4kUc hva))
    · exact h.leaves j k l t hj hk hl ht

/-! ## The last-level tables -/

/-- The last-level tables are those of the mapped addresses. -/
def Opened (h : List Call) (m : Machine) (r : ℕ) : Prop :=
  ∀ a b c, a < 512 → b < 512 → c < 512 →
    ((∃ f, node child (cell m) r [a,b,c] = some f) ↔
      ∃ call ∈ h, pml4Idx call.virt = a ∧ pdptIdx call.virt = b ∧ pdIdx call.virt = c)

/-- What holds of the kernel's tables after the calls `h`. -/
structure Reached (h : List Call) (m : Machine) (r : ℕ) : Prop where
  ok : KernelOk m r
  opened : Opened h m r
  identity : (∀ c ∈ h, Proper c.virt) → IdentityOk m r

theorem step_reached {r : ℕ}
    (hr : Reached h m r) (hs : Step m call m') : Reached (call::h) m' r := by
  unfold Step at hs
  rw [Call.exec_eq] at hs
  obtain ⟨m₁,m₂,m₃,a,b,c,ok₁,ok₂,ok₃,d₁,d₂,d₃,n₁,n₂,n₃,rfl⟩ := mapWith_cases hr.ok hs
  have hpath := path_three (pml4Idx_lt call.virt) (pdptIdx_lt call.virt) (pdIdx_lt call.virt)
  obtain ⟨ok,hnode⟩ := ok₃.setLeaf hpath rfl n₃ (ptIdx_lt call.virt) (call.leaf call.virt)
  refine ⟨ok,?_,?_⟩
  · intro x y z hx hy hz
    have hq : Path 3 512 [x,y,z] := path_three hx hy hz
    have hold := hr.opened x y z hx hy hz
    rw [hnode _ hq]
    constructor
    · rintro ⟨f,hf⟩
      rcases d₃.node_cases ok₂ hq hf with hf | he
      · rcases d₂.node_cases ok₁ hq hf with hf | he
        · rcases d₁.node_cases hr.ok hq hf with hf | he
          · obtain ⟨v,hv,hidx⟩ := hold.mp ⟨f,hf⟩
            exact ⟨v,mem_cons_of_mem _ hv,hidx⟩
          · simp at he
        · simp at he
      · simp only [cons_append, nil_append, List.cons.injEq, and_true] at he
        exact ⟨call,mem_cons_self,he.1.symm,he.2.1.symm,he.2.2.symm⟩
    · rintro ⟨v,hv,rfl,rfl,rfl⟩
      rcases mem_cons.mp hv with rfl | hv
      · exact ⟨c,n₃⟩
      · obtain ⟨f,hf⟩ := hold.mpr ⟨v,hv,rfl,rfl,rfl⟩
        exact ⟨f,d₃.node_old ok₂ hq (d₂.node_old ok₁ hq (d₁.node_old hr.ok hq hf))⟩
  · intro hall
    have h₀ := hr.identity (forall_mem_cons.mp hall).2
    have h₁ := h₀.descend hr.ok rfl d₁
    have h₂ := h₁.descend ok₁ n₁ d₂
    have h₃ := h₂.descend ok₂ n₂ d₃
    exact h₃.setLeaf ok₃ n₃ (hall call mem_cons_self)

/-! ## The state that init leaves -/

theorem initDirectory_installs {b j : ℕ} (hv : Valid m.frames)
    (hb : b ∈ used m) (hj : j < 512) (h : initDirectory (b*4096) m j = some m') :
    ∃ d, Installs m m' b j d tableEntry fun k => page2mb (pageVa j k 0) := by
  obtain ⟨⟨pa,m₁⟩,ha,he⟩ := bind_eq_some_iff.mp h
  obtain ⟨d,rfl,hal⟩ := allocTableOrHalt_some hv ha
  have hbd : b ≠ d := fun hbd => hal.fresh (hbd ▸ hb)
  obtain ⟨hz,hzf,hzc⟩ := zeroTable_spec (m₁.setEntry (b*4096) j (tableEntry (d*4096))) d
  obtain ⟨hc,hf,-,hcell⟩ := foldl_setEntry
    ((m₁.setEntry (b*4096) j (tableEntry (d*4096))).zeroTable (d*4096)) d
    (fun _ k => page2mb (j*0x40000000+k*0x200000)) (fun _ _ _ _ _ _ => rfl) le_rfl
  have hfr := hf.trans hzf
  rw [setEntry_frames] at hfr
  obtain rfl := some.inj he
  refine ⟨d,hal.fresh,?_,?_,?_,hal.frameAddr,?_,?_,?_⟩
  · rw [hfr]
    exact hal.valid
  · rw [hfr]
    exact hal.count
  · unfold used
    rw [hfr]
    exact hal.used_eq
  · refine (((hal.confined _).trans ((setEntry_confined m₁ b hj _).mono ?_)).trans
      (hz.mono ?_)).trans (hc.mono ?_)
    · exact fun x hx => Or.inl hx
    · exact fun x hx => Or.inr hx
    · exact fun x hx => Or.inr hx
  · intro f k hk hne
    rw [hcell f k hk, if_neg fun h => hne h.1, hzc f k hk, if_neg hne,
      cell_setEntry m₁ b hj hk, hal.cell]
  · intro k hk
    rw [hcell d k hk, if_pos ⟨rfl,hk⟩, pageVa, Nat.zero_mul, Nat.add_zero]

/-- The tables that exist before the directories are hung in: a root whose
first cell points to an empty PDPT. -/
structure Seed (m : Machine) (a b : ℕ) : Prop where
  valid : Valid m.frames
  root_used : a ∈ used m
  pdpt_used : b ∈ used m
  distinct : a ≠ b
  root_cell : ∀ i < 512, cell m a i = if i = 0 then tableEntry (b*4096) else 0
  pdpt_cell : ∀ i < 512, cell m b i = 0

theorem Seed.frameAddr {a b : ℕ} (h : Seed m a b) : FrameAddr (b*4096) :=
  used_frameAddr h.valid h.pdpt_used

theorem Seed.node {a b : ℕ} (h : Seed m a b) :
    node child (cell m) a [0] = some b := by
  simp only [TableTree.node, h.root_cell 0 (by decide), if_true, child_tableEntry h.frameAddr,
    bind_some]

theorem Seed.node_cases {a b f : ℕ} {p : List ℕ} (h : Seed m a b)
    (hp : Path 3 512 p) (hf : TableTree.node child (cell m) a p = some f) :
    (p = [] ∧ f = a) ∨ (p = [0] ∧ f = b) := by
  cases p with
  | nil => exact .inl ⟨rfl,(some.inj hf).symm⟩
  | cons i q =>
    have hi : i < 512 := hp.2 i mem_cons_self
    rw [TableTree.node, h.root_cell i hi] at hf
    split_ifs at hf with hz
    · rw [child_tableEntry h.frameAddr, bind_some] at hf
      cases q with
      | nil => exact .inr ⟨by rw [hz],(some.inj hf).symm⟩
      | cons j s =>
        rw [TableTree.node, h.pdpt_cell j (hp.2 j (by simp)), child_zero] at hf
        cases hf
    · rw [child_zero] at hf
      cases hf

theorem Seed.treeOk {a b : ℕ} (h : Seed m a b) : TreeOk m a := by
  refine ⟨h.valid,?_,?_,?_⟩
  · intro p q f hp hq hpf hqf
    rcases h.node_cases hp hpf with ⟨rfl,rfl⟩ | ⟨rfl,rfl⟩
    · rcases h.node_cases hq hqf with ⟨rfl,-⟩ | ⟨-,he⟩
      · rfl
      · exact (h.distinct he).elim
    · rcases h.node_cases hq hqf with ⟨-,he⟩ | ⟨rfl,-⟩
      · exact (h.distinct he.symm).elim
      · rfl
  · intro p f hp hf
    rcases h.node_cases hp hf with ⟨-,rfl⟩ | ⟨-,rfl⟩
    · exact h.root_used
    · exact h.pdpt_used
  · intro p f i hp hf hi
    rcases h.node_cases (hp.weaken (by decide)) hf with ⟨-,rfl⟩ | ⟨-,rfl⟩
    · rw [h.root_cell i hi]
      split_ifs
      · exact .inr (.inl ⟨b,h.frameAddr,rfl⟩)
      · exact .inl rfl
    · rw [h.pdpt_cell i hi]
      exact .inl rfl

theorem init_seed (hv : Valid m.frames) (h : init m = some m') :
    ∃ m₁ m₂ a b, Seed m₁ a b ∧ [0,1].foldlM (initDirectory (b*4096)) m₁ = some m₂ ∧
      m' = {m₂ with kernelPml4 := a*4096} ∧ a ∉ used m ∧ b ∉ used m ∧
      used m₁ = Insert.insert b (Insert.insert a (used m)) ∧
      ∀ x, x/4096 ∈ used m → m₁.mem x = m.mem x := by
  obtain ⟨⟨pa,x⟩,ha,h⟩ := bind_eq_some_iff.mp h
  obtain ⟨a,rfl,hal⟩ := allocTableOrHalt_some hv ha
  obtain ⟨⟨pb,y⟩,hb,h⟩ := bind_eq_some_iff.mp h
  obtain ⟨b,rfl,hbl⟩ := allocTableOrHalt_some hal.valid hb
  obtain ⟨m₂,hm₂,h⟩ := bind_eq_some_iff.mp h
  have hab : a ≠ b := fun he => hbl.fresh (he ▸ hal.mem_used)
  obtain ⟨hza,hzaf,hzac⟩ := zeroTable_spec y a
  obtain ⟨hzb,hzbf,hzbc⟩ := zeroTable_spec
    ((y.zeroTable (a*4096)).setEntry (a*4096) 0 (tableEntry (b*4096))) b
  have hfr := hzbf
  rw [setEntry_frames, hzaf] at hfr
  have hused : used (((y.zeroTable (a*4096)).setEntry (a*4096) 0
      (tableEntry (b*4096))).zeroTable (b*4096)) =
      Insert.insert b (Insert.insert a (used m)) := by
    unfold used
    rw [hfr]
    exact hbl.used_eq.trans (congrArg (Insert.insert b) hal.used_eq)
  refine ⟨_,m₂,a,b,⟨?_,?_,?_,hab,?_,?_⟩,hm₂,(some.inj h).symm,hal.fresh,?_,hused,?_⟩
  · rw [hfr]
    exact hbl.valid
  · rw [hused]
    simp
  · rw [hused]
    simp
  · intro i hi
    rw [hzbc a i hi, if_neg hab, cell_setEntry _ a (by decide) hi, hzac a i hi, if_pos rfl]
    simp
  · intro i hi
    rw [hzbc b i hi, if_pos rfl]
  · intro hbu
    exact hbl.fresh (hal.subset hbu)
  · intro x hx
    have hxa : x/4096 ≠ a := fun he => hal.fresh (he ▸ hx)
    have hxb : x/4096 ≠ b := fun he => hbl.fresh (hal.subset (he ▸ hx))
    rw [hzb.mem x hxb, (setEntry_confined _ a (by decide) _).mem x hxa, hza.mem x hxa, hbl.mem,
      hal.mem]

theorem page2mb_identity {j k : ℕ} (hj : j < 512) (hk : k < 512) :
    present (page2mb (pageVa j k 0)) = true ∧ large (page2mb (pageVa j k 0)) = true := by
  have h := page2mb_spec (pageVa_block_dvd j k)
    (Nat.lt_trans (pageVa_lt hj hk (by decide)) (by decide))
  exact ⟨h.1,h.2.2.2.1⟩

theorem TreeOk.directory {r b j : ℕ} (h : TreeOk m r) (hj : j < 512)
    (hb : node child (cell m) r [0] = some b) (he : cell m b j = 0)
    (hd : initDirectory (b*4096) m j = some m') :
    ∃ d, Installs m m' b j d tableEntry (fun k => page2mb (pageVa j k 0)) ∧
      Extends child (cell m) (cell m') r 3 512 [0] b j d ∧ TreeOk m' r := by
  have hp : Path 2 512 [0] := ⟨by simp,by simp⟩
  obtain ⟨d,hs⟩ := initDirectory_installs h.valid
    (h.inUse [0] b (hp.weaken (by decide)) hb) hj hd
  have hext := h.extends hp hb hj (by rw [he]; exact child_zero) hs
    fun _ k hk => child_large (page2mb_identity hj hk).2
  exact ⟨d,hs,hext,h.install hs hext fun _ k hk => .inr (.inr ⟨rfl,page2mb_identity hj hk⟩)⟩

/-- One directory hung into the table `b`. -/
structure Hangs (m m' : Machine) (r b j d : ℕ) : Prop where
  before : TreeOk m r
  installs : Installs m m' b j d tableEntry (fun k => page2mb (pageVa j k 0))
  ext : Extends child (cell m) (cell m') r 3 512 [0] b j d
  after : TreeOk m' r

/-- What init does after the seed: two directories, one after the other. -/
theorem init_hangs (hv : Valid m.frames) (h : init m = some m') :
    ∃ m₁ m₂ m₃ a b d₀ d₁, Seed m₁ a b ∧ Hangs m₁ m₂ a b 0 d₀ ∧ Hangs m₂ m₃ a b 1 d₁ ∧
      m' = {m₃ with kernelPml4 := a*4096} ∧ a ∉ used m ∧ b ∉ used m ∧
      used m₁ = Insert.insert b (Insert.insert a (used m)) ∧
      ∀ x, x/4096 ∈ used m → m₁.mem x = m.mem x := by
  obtain ⟨m₁,m₃,a,b,hseed,hdirs,hm',hrest⟩ := init_seed hv h
  obtain ⟨m₂,h₂,hdirs⟩ := bind_eq_some_iff.mp hdirs
  obtain ⟨m₃',h₃,hdirs⟩ := bind_eq_some_iff.mp hdirs
  obtain rfl := some.inj hdirs
  have tree₁ := hseed.treeOk
  have hp : Path 3 512 [0] := ⟨by simp,by simp⟩
  obtain ⟨d₀,hs₀,he₀,tree₂⟩ := TreeOk.directory tree₁ (by decide) hseed.node
    (hseed.pdpt_cell 0 (by decide)) h₂
  have hcell : cell m₂ b 1 = 0 := by
    rw [hs₀.cells b 1 (by decide) (tree₁.ne_fresh hs₀.fresh hp hseed.node), if_neg (by simp)]
    exact hseed.pdpt_cell 1 (by decide)
  obtain ⟨d₁,hs₁,he₁,tree₃⟩ := TreeOk.directory tree₂ (by decide)
    (he₀.node_old tree₁.separate hp hseed.node) hcell h₃
  exact ⟨m₁,m₂,m₃',a,b,d₀,d₁,hseed,⟨tree₁,hs₀,he₀,tree₂⟩,⟨tree₂,hs₁,he₁,tree₃⟩,hm',hrest⟩

theorem init_reached (hv : Valid m.frames) (h : init m = some m') :
    ∃ r, Reached [] m' r := by
  obtain ⟨m₁,m₂,m₃',a,b,d₀,d₁,hseed,⟨tree₁,hs₀,he₀,tree₂⟩,⟨-,hs₁,he₁,tree₃⟩,rfl,-⟩ := init_hangs hv h
  have hp : Path 3 512 [0] := ⟨by simp,by simp⟩
  have hn₀ : node child (cell m₂) a [0,0] = some d₀ := he₀.node_new tree₁.separate
  have hn₀' := he₁.node_old tree₂.separate (path_low (by decide)) hn₀
  have hn₁ : node child (cell m₃') a [0,1] = some d₁ := he₁.node_new tree₂.separate
  have hd₀ : ∀ k < 512, cell m₃' d₀ k = page2mb (pageVa 0 k 0) := by
    intro k hk
    have hne := tree₂.ne_fresh hs₁.fresh (path_low (by decide)) hn₀
    rw [hs₁.cells d₀ k hk hne, if_neg, hs₀.table k hk]
    rintro ⟨rfl,-⟩
    exact tree₁.ne_fresh hs₀.fresh hp hseed.node rfl
  have hd₁ : ∀ k < 512, cell m₃' d₁ k = page2mb (pageVa 1 k 0) := hs₁.table
  have hcases : ∀ q f, Path 3 512 q → node child (cell m₃') a q = some f →
      q.length < 2 ∨ (q = [0,0] ∧ f = d₀) ∨ (q = [0,1] ∧ f = d₁) := by
    intro q f hq hf
    rcases he₁.node_cases tree₂.separate hq hf with ⟨rfl,rfl⟩ | ⟨hf,-⟩
    · exact .inr (.inr ⟨rfl,rfl⟩)
    · rcases he₀.node_cases tree₁.separate hq hf with ⟨rfl,rfl⟩ | ⟨hf,-⟩
      · exact .inr (.inl ⟨rfl,rfl⟩)
      · rcases hseed.node_cases hq hf with ⟨rfl,-⟩ | ⟨rfl,-⟩ <;> simp
  refine ⟨a,⟨⟨tree₃.valid,tree₃.separate,tree₃.inUse,tree₃.slots⟩,rfl,?_⟩,?_,fun _ => ⟨?_,?_⟩⟩
  · intro j hj
    rcases (by omega : j = 0 ∨ j = 1) with rfl | rfl
    · refine ⟨d₀,hn₀',fun k hk => ?_⟩
      exact (congrArg present (hd₀ k hk)).trans (page2mb_identity (by decide) hk).1
    · refine ⟨d₁,hn₁,fun k hk => ?_⟩
      exact (congrArg present (hd₁ k hk)).trans (page2mb_identity (by decide) hk).1
  · intro x y z hx hy hz
    constructor
    · rintro ⟨f,hf⟩
      have := hcases [x,y,z] f (path_three hx hy hz) hf
      simp at this
    · simp
  · intro j k d hj hk hd
    refine .inr (.inr ?_)
    rcases hcases [0,j] d (path_low hj) hd with hl | ⟨he,rfl⟩ | ⟨he,rfl⟩
    · simp at hl
    · obtain rfl : j = 0 := by simpa using he
      exact hd₀ k hk
    · obtain rfl : j = 1 := by simpa using he
      exact hd₁ k hk
  · intro j k l t hj hk hl ht
    have := hcases [0,j,k] t (path_three (by decide) hj hk) ht
    simp at this

theorem kernelRun_reached (hv : Valid m₀.frames)
    (hr : KernelRun m₀ h m) : ∃ r, Reached h m r := by
  obtain ⟨mᵢ,hi,hrun⟩ := hr
  obtain ⟨r,h₀⟩ := init_reached hv hi
  exact ⟨r,hrun.invariant (P := fun h m => Reached h m r) h₀
    fun _ _ _ _ hp hs => step_reached hp hs⟩

/-! ## Frames the tables never take -/

/-- Frames in use that hold no table of the tree. -/
def Apart (A : Finset ℕ) (m : Machine) (r : ℕ) : Prop :=
  A ⊆ used m ∧ ∀ p f, Path 3 512 p → node child (cell m) r p = some f → f ∉ A

section
variable {A : Finset ℕ} {m m' : Machine} {r t i g : ℕ} {p : List ℕ}

theorem Apart.install {link new : ℕ → Entry} (h : Apart A m r) (hsep : Separate child (cell m) r 3 512)
    (hs : Installs m m' t i g link new) (he : Extends child (cell m) (cell m') r 3 512 p t i g) :
    Apart A m' r := by
  refine ⟨?_,fun q f hq hf => ?_⟩
  · rw [hs.used_eq]
    exact h.1.trans (Finset.subset_insert _ _)
  · rcases he.node_cases hsep hq hf with ⟨-,rfl⟩ | ⟨ho,-⟩
    · exact fun ha => hs.fresh (h.1 ha)
    · exact h.2 q f hq ho

theorem Apart.descend (h : Apart A m r) (ok : KernelOk m r) (hd : Descends m r p t i g m') :
    Apart A m' r := by
  cases hd with
  | stay _ => exact h
  | install hs he _ => exact h.install ok.separate hs he

theorem step_apart (ok : KernelOk m r) (h : Apart A m r) (hs : Step m call m') : Apart A m' r := by
  unfold Step at hs
  rw [Call.exec_eq] at hs
  obtain ⟨m₁,m₂,m₃,a,b,c,ok₁,ok₂,ok₃,d₁,d₂,d₃,-,-,n₃,rfl⟩ := mapWith_cases ok hs
  have hpath := path_three (pml4Idx_lt call.virt) (pdptIdx_lt call.virt) (pdIdx_lt call.virt)
  obtain ⟨-,hnode⟩ := ok₃.setLeaf hpath rfl n₃ (ptIdx_lt call.virt) (call.leaf call.virt)
  have h₃ := ((h.descend ok d₁).descend ok₁ d₂).descend ok₂ d₃
  refine ⟨h₃.1,fun q f hq hf => ?_⟩
  rw [hnode q hq] at hf
  exact h₃.2 q f hq hf

theorem init_apart (hv : Valid m.frames) (h : init m = some m') (hr : m'.kernelPml4 = r*4096) :
    Apart (used m) m' r := by
  obtain ⟨m₁,m₂,m₃,a,b,d₀,d₁,hseed,h₀,h₁,rfl,ha,hb,hused,-⟩ := init_hangs hv h
  obtain rfl : a = r := Nat.eq_of_mul_eq_mul_right (by decide) hr
  have apart₁ : Apart (used m) m₁ a := by
    refine ⟨?_,fun q f hq hf => ?_⟩
    · rw [hused]
      exact (Finset.subset_insert _ _).trans (Finset.subset_insert _ _)
    · rcases hseed.node_cases hq hf with ⟨-,rfl⟩ | ⟨-,rfl⟩
      · exact ha
      · exact hb
  have apart₃ := (apart₁.install h₀.before.separate h₀.installs h₀.ext).install
    h₁.before.separate h₁.installs h₁.ext
  exact ⟨apart₃.1,apart₃.2⟩

theorem Apart.kept {x : ℕ} (h : Apart A m r) (hd : Descends m r p t i g m') (hp : Path 3 512 p)
    (ht : node child (cell m) r p = some t) (hx : x/4096 ∈ A) : m'.mem x = m.mem x := by
  cases hd with
  | stay _ => rfl
  | install hs _ _ =>
    refine hs.confined.mem x ?_
    intro hmem
    rcases hmem with he | he
    · exact h.2 p t hp ht (he ▸ hx)
    · exact hs.fresh (h.1 (he ▸ hx))

theorem step_kept {x : ℕ} (ok : KernelOk m r) (h : Apart A m r)
    (hs : Step m call m') (hx : x/4096 ∈ A) : m'.mem x = m.mem x := by
  unfold Step at hs
  rw [Call.exec_eq] at hs
  obtain ⟨m₁,m₂,m₃,a,b,c,ok₁,ok₂,ok₃,d₁,d₂,d₃,n₁,n₂,n₃,rfl⟩ := mapWith_cases ok hs
  have hpath := path_three (pml4Idx_lt call.virt) (pdptIdx_lt call.virt) (pdIdx_lt call.virt)
  have a₁ := h.descend ok d₁
  have a₂ := a₁.descend ok₁ d₂
  have a₃ := a₂.descend ok₂ d₃
  have hleaf : x/4096 ≠ c := fun he => a₃.2 _ c hpath n₃ (he ▸ hx)
  rw [(setEntry_confined m₃ c (ptIdx_lt call.virt) _).mem x hleaf,
    a₂.kept d₃ ⟨by simp,fun i hi => hpath.2 i (by simp only [mem_cons] at hi ⊢; tauto)⟩ n₂ hx,
    a₁.kept d₂ ⟨by simp,fun i hi => hpath.2 i (by simp only [mem_cons] at hi ⊢; tauto)⟩ n₁ hx,
    h.kept d₁ ⟨by simp,by simp⟩ rfl hx]

theorem init_kept {x : ℕ} (hv : Valid m.frames) (h : init m = some m') (hx : x/4096 ∈ used m) :
    m'.mem x = m.mem x := by
  obtain ⟨m₁,m₂,m₃,a,b,d₀,d₁,-,h₀,h₁,rfl,-,hb,hused,hkept⟩ := init_hangs hv h
  have hne : ∀ {y z d j}, used m ⊆ used y →
      Installs y z b j d tableEntry (fun k => page2mb (pageVa j k 0)) → z.mem x = y.mem x := by
    intro y z d j hsub hs
    refine hs.confined.mem x ?_
    intro hmem
    rcases hmem with he | he
    · exact hb (he ▸ hx)
    · exact hs.fresh (hsub (he ▸ hx))
  have hsub : used m ⊆ used m₁ := by
    rw [hused]
    exact (Finset.subset_insert _ _).trans (Finset.subset_insert _ _)
  have hsub₂ : used m₁ ⊆ used m₂ := by
    rw [h₀.installs.used_eq]
    exact Finset.subset_insert _ _
  exact (hne (hsub.trans hsub₂) h₁.installs).trans ((hne hsub h₀.installs).trans (hkept x hx))

/-- What was in use before init never becomes a table of the kernel. -/
theorem kernelRun_apart (hv : Valid m.frames) (hr : KernelRun m h m')
    (ok : KernelOk m' r) : Apart (used m) m' r := by
  obtain ⟨mᵢ,hi,hrun⟩ := hr
  obtain ⟨r',h₀⟩ := init_reached hv hi
  have hinv := hrun.invariant (P := fun h m'' => Reached h m'' r' ∧ Apart (used m) m'' r')
    ⟨h₀,init_apart hv hi h₀.ok.root⟩
    fun _ _ _ _ hp hs => ⟨step_reached hp.1 hs,step_apart hp.1.ok hp.2 hs⟩
  have hrr : r'*4096 = r*4096 := hinv.1.ok.root.symm.trans ok.root
  obtain rfl : r' = r := Nat.eq_of_mul_eq_mul_right (by decide) hrr
  exact hinv.2

theorem kernelRun_kept {x : ℕ} (hv : Valid m.frames) (hr : KernelRun m h m')
    (hx : x/4096 ∈ used m) : m'.mem x = m.mem x := by
  obtain ⟨mᵢ,hi,hrun⟩ := hr
  obtain ⟨r',h₀⟩ := init_reached hv hi
  exact (hrun.invariant (P := fun h m'' => Reached h m'' r' ∧ Apart (used m) m'' r' ∧
      m''.mem x = m.mem x) ⟨h₀,init_apart hv hi h₀.ok.root,init_kept hv hi hx⟩
    fun _ _ _ _ hp hs => ⟨step_reached hp.1 hs,step_apart hp.1.ok hp.2.1 hs,
      (step_kept hp.1.ok hp.2.1 hs hx).trans hp.2.2⟩).2.2

end

/-! ## Runs that complete -/

theorem initDirectory_room {n b j : ℕ} (hv : Valid m.frames)
    (h : Room m (n+1)) : ∃ m', initDirectory b m j = some m' ∧ Room m' n ∧ Valid m'.frames := by
  obtain ⟨d,m₁,ha,hal,hr⟩ := h.alloc hv
  have hframes : ∀ (y : Machine) (e : ℕ → Entry), ((List.range 512).foldl (fun m i =>
      m.setEntry (d*4096) i (e i)) ((y.setEntry b j (tableEntry (d*4096))).zeroTable
        (d*4096))).frames = y.frames := by
    intro y e
    rw [foldl_setEntry_frames _ _ _ fun _ i => e i, zeroTable_frames, setEntry_frames]
  unfold initDirectory
  rw [ha]
  refine ⟨_,bind_some _ _,hr.of_frames (hframes m₁ _),?_⟩
  rw [hframes]
  exact hal.valid

theorem init_room {n : ℕ} (hv : Valid m.frames) (h : Room m (n+4)) :
    ∃ m', init m = some m' ∧ Room m' n := by
  obtain ⟨a,x,hx,hxa,hr⟩ := h.alloc hv
  obtain ⟨b,y,hy,hyb,hr⟩ := hr.alloc hxa.valid
  have hframes : ∀ (z : Machine), (((z.zeroTable (a*4096)).setEntry (a*4096) 0
      (tableEntry (b*4096))).zeroTable (b*4096)).frames = z.frames := by
    intro z
    rw [zeroTable_frames, setEntry_frames, zeroTable_frames]
  obtain ⟨m₁,h₁,hr₁,hv₁⟩ := initDirectory_room (m := ((y.zeroTable (a*4096)).setEntry (a*4096) 0
    (tableEntry (b*4096))).zeroTable (b*4096)) (b := b*4096) (j := 0) (by rw [hframes]; exact hyb.valid)
    (hr.of_frames (hframes y))
  obtain ⟨m₂,h₂,hr₂,-⟩ := initDirectory_room (b := b*4096) (j := 1) hv₁ hr₁
  refine ⟨{m₂ with kernelPml4 := a*4096},?_,hr₂⟩
  simp only [PageTables.init, hx, hy, bind_eq_bind, bind_some, foldlM_cons,
    foldlM_nil, h₁, h₂, Option.pure_def]

/-- The machine at power-on: blank memory and a booted frame allocator. -/
def bootMachine (kernelEnd size : ℕ) : Machine := ⟨fun _ => 0,boot .x86_64 kernelEnd size,0⟩

theorem bootMachine_valid (kernelEnd : ℕ) {size : ℕ} (hs : frameSize ≤ size) :
    Valid (bootMachine kernelEnd size).frames := boot_valid .x86_64 kernelEnd hs

theorem bootMachine_room {kernelEnd size n : ℕ} (hs : frameSize ≤ size)
    (h : max kernelEnd 0x100000/frameSize+1+n ≤ min size (maxFrameCount*frameSize)/frameSize) :
    Room (bootMachine kernelEnd size) n := by
  have hsub : used (bootMachine kernelEnd size) ⊆
      Finset.range (max kernelEnd 0x100000/frameSize+1) := by
    intro f hf
    have hb := ((mem_usedFrames_boot hs).mp hf).2
    rw [Finset.mem_range]
    unfold frameSize at hb ⊢
    omega
  have hcard := Finset.card_le_card hsub
  rw [Finset.card_range] at hcard
  unfold Room
  rw [bootMachine, boot_count kernelEnd hs]
  exact (Nat.add_le_add_right hcard n).trans h

theorem kernelRun_room {n : ℕ} (hv : Valid m₀.frames) (h : List Call)
    (hr : Room m₀ (3*h.length+n+4)) : ∃ m, KernelRun m₀ h m ∧ Room m n := by
  obtain ⟨mᵢ,hi,hrᵢ⟩ := init_room hv hr
  clear hr
  induction h generalizing n with
  | nil => exact ⟨mᵢ,⟨mᵢ,hi,.start⟩,hrᵢ.weaken (by simp)⟩
  | cons c h ih =>
    obtain ⟨m,hrun,hr⟩ := ih (n := n+3) (hrᵢ.weaken (by rw [length_cons]; omega))
    obtain ⟨r,hreach⟩ := kernelRun_reached hv hrun
    obtain ⟨m',hm,hr'⟩ : ∃ m', mapWith c.leaf m c.virt = some m' ∧ Room m' n :=
      mapWith_room hreach.ok hr
    obtain ⟨mᵢ',hi',hrun⟩ := hrun
    exact ⟨m',⟨mᵢ',hi',.next hrun ((c.exec_eq m).trans hm)⟩,hr'⟩

/-- With 256 MiB of RAM, a hundred mappings leave a thousand frames. -/
theorem exists_run (h : List Call) (hlen : h.length ≤ 100) : ∃ m r,
    Valid (bootMachine 0x900000 0x10000000).frames ∧
    KernelRun (bootMachine 0x900000 0x10000000) h m ∧ Reached h m r ∧ Room m 1000 := by
  have hs : frameSize ≤ 0x10000000 := by decide
  have hv := bootMachine_valid 0x900000 hs
  have hroom : Room (bootMachine 0x900000 0x10000000) 10000 := bootMachine_room hs (by decide)
  obtain ⟨m,hr,hroom⟩ := kernelRun_room (n := 1000) hv h (hroom.weaken (by omega))
  obtain ⟨r,hreach⟩ := kernelRun_reached hv hr
  exact ⟨m,r,hv,hr,hreach,hroom⟩

end Zohara.KernelRuns
