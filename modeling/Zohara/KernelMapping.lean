import Zohara.KernelRuns

/-!
# What map_page and map_page_uc do to the translation

`mapping` reads the kernel's translation of an address off the table tree: the
translation of the processor's walk, together with the cache-disable bit of the
entry that maps the page. Descending to the last-level table changes no
mapping, whether the table was there, had to be installed in an empty cell, or
had to be split off a 2 MiB block. The write of the leaf then changes the
mapping of one page.

The runs are those of `KernelRuns`: any addresses, aligned or not, may have been
mapped before. Only the last call has to meet the contract.
-/
namespace Zohara.KernelMapping
open FrameRefinement PageEntry PageTables TableTree TableHeap KernelTables List Option

variable {e : Entry} {m m' : Machine}
open KernelRuns Mmu

/-- The cache-disable bit of the entry that maps an address. -/
def cacheDisabledAt (m : Machine) (root va : ℕ) : Option Bool :=
  let e1 := m.entry root (pml4Idx va)
  if !present e1 then none else
  let e2 := m.entry (tableAddr e1) (pdptIdx va)
  if !present e2 then none else
  if large e2 then some (cacheDisabled e2) else
  let e3 := m.entry (tableAddr e2) (pdIdx va)
  if !present e3 then none else
  if large e3 then some (cacheDisabled e3) else
  let e4 := m.entry (tableAddr e3) (ptIdx va)
  if !present e4 then none else some (cacheDisabled e4)

/-! ## The mapping of an address in the tree -/

def tablePath (va : ℕ) : List ℕ := [pml4Idx va,pdptIdx va,pdIdx va]
def directoryPath (va : ℕ) : List ℕ := [pml4Idx va,pdptIdx va]

/-- What an entry of a last-level table makes of the address. Tables of the
kernel are supervisor tables. -/
def pageMapping (va : ℕ) (e : Entry) : Option (Translation × Bool) :=
  if present e then some (⟨tableAddr e+va%2^12,writable e,false,noExecute e⟩,cacheDisabled e)
  else none

/-- What an entry of a page directory makes of the address. -/
def blockMapping (va : ℕ) (e : Entry) : Option (Translation × Bool) :=
  if large e then some (⟨blockAddr e+va%2^21,writable e,false,noExecute e⟩,cacheDisabled e)
  else none

theorem pageMapping_present (va : ℕ) (h : present e = true) : pageMapping va e =
    some (⟨tableAddr e+va%2^12,writable e,false,noExecute e⟩,cacheDisabled e) := if_pos h

theorem pageMapping_absent (va : ℕ) (h : ¬present e = true) :
    pageMapping va e = none := if_neg h

@[simp] theorem pageMapping_zero (va : ℕ) : pageMapping va 0 = none := rfl
@[simp] theorem blockMapping_zero (va : ℕ) : blockMapping va 0 = none := rfl

def mapping (m : Machine) (r va : ℕ) : Option (Translation × Bool) :=
  match node child (cell m) r (tablePath va) with
  | some t => pageMapping va (cell m t (ptIdx va))
  | none => (node child (cell m) r (directoryPath va)).bind fun d =>
    blockMapping va (cell m d (pdIdx va))

theorem path_table (va : ℕ) : Path 3 512 (tablePath va) :=
  path_three (pml4Idx_lt va) (pdptIdx_lt va) (pdIdx_lt va)

theorem path_directory (va : ℕ) : Path 2 512 (directoryPath va) := by
  refine ⟨by simp [directoryPath],fun i hi => (path_table va).2 i ?_⟩
  simp only [directoryPath, tablePath, mem_cons] at hi ⊢
  tauto

theorem tablePath_eq (va : ℕ) : tablePath va = directoryPath va++[pdIdx va] := rfl

theorem mapping_table {r va t : ℕ} (h : node child (cell m) r (tablePath va) = some t) :
    mapping m r va = pageMapping va (cell m t (ptIdx va)) := by
  unfold mapping
  rw [h]

theorem mapping_directory {r va d : ℕ}
    (hd : node child (cell m) r (directoryPath va) = some d)
    (hc : child (cell m d (pdIdx va)) = none) :
    mapping m r va = blockMapping va (cell m d (pdIdx va)) := by
  have ht : node child (cell m) r (tablePath va) = none := by
    rw [tablePath_eq, node_snoc_of hd, hc]
  unfold mapping
  rw [ht, hd]
  rfl

theorem mapping_none {r va : ℕ}
    (hd : node child (cell m) r (directoryPath va) = none) : mapping m r va = none := by
  have ht : node child (cell m) r (tablePath va) = none := by
    rw [tablePath_eq, node_snoc, hd]
    rfl
  unfold mapping
  rw [ht, hd]
  rfl

/-! ## Blocks -/

/-- The blocks are those that init wrote: aligned, writable supervisor blocks. -/
def BlocksOk (m : Machine) (r : ℕ) : Prop :=
  ∀ p d k, Path 2 512 p → node child (cell m) r p = some d → k < 512 →
    large (cell m d k) = true → ∃ pa, 2^21 ∣ pa ∧ pa < 2^52 ∧ cell m d k = page2mb pa

variable {p : List ℕ}

theorem BlocksOk.install {r t i g : ℕ} {new : ℕ → Entry}
    (h : BlocksOk m r) (tree : TreeOk m r) (hs : Installs m m' t i g tableEntry new)
    (he : Extends child (cell m) (cell m') r 3 512 p t i g)
    (hnew : p.length < 2 → ∀ j < 512, large (new j) = true →
      ∃ pa, 2^21 ∣ pa ∧ pa < 2^52 ∧ new j = page2mb pa) : BlocksOk m' r := by
  intro q d k hq hd hk hl
  have hq3 : Path 3 512 q := hq.weaken (by decide)
  rcases he.node_cases tree.separate hq3 hd with ⟨rfl,rfl⟩ | ⟨ho,-⟩
  · have hlen := hq.1
    rw [length_append, length_singleton] at hlen
    rw [hs.table k hk] at hl ⊢
    exact hnew (by omega) k hk hl
  · rw [hs.cells d k hk (tree.ne_fresh hs.fresh hq3 ho)] at hl ⊢
    split_ifs at hl ⊢
    · rw [(tableEntry_spec hs.addr).2.2.2.1] at hl
      cases hl
    · exact h q d k hq ho hk hl

theorem BlocksOk.descend {r t i g : ℕ} (h : BlocksOk m r)
    (ok : KernelOk m r) (hd : Descends m r p t i g m') : BlocksOk m' r := by
  cases hd with
  | stay _ => exact h
  | install hs he hfill =>
    refine h.install ok.toTreeOk hs he fun hlt j hj hl => ?_
    rcases hfill with ⟨-,hz⟩ | ⟨hlen,-⟩
    · rw [hz j hj] at hl
      cases hl
    · omega

theorem BlocksOk.setLeaf {r f i : ℕ} (h : BlocksOk m r)
    (ok : KernelOk m r) (hp : Path 3 512 p) (hl : p.length = 3)
    (hf : node child (cell m) r p = some f) (hi : i < 512) (e : Entry) :
    BlocksOk (m.setEntry (f*4096) i e) r := by
  obtain ⟨-,hnode⟩ := ok.setLeaf hp hl hf hi e
  intro q d k hq hd hk hlarge
  have hq3 : Path 3 512 q := hq.weaken (by decide)
  rw [hnode q hq3] at hd
  have hne : ¬(d = f ∧ k = i) := by
    rintro ⟨rfl,-⟩
    have hqp := ok.separate q p d hq3 hp hd hf
    have hlen := hq.1
    rw [hqp, hl] at hlen
    omega
  rw [cell_setEntry m f hi hk, if_neg hne] at hlarge ⊢
  exact h q d k hq hd hk hlarge

theorem init_blocks {r : ℕ} (hv : Valid m.frames) (h : init m = some m')
    (hr : m'.kernelPml4 = r*4096) : BlocksOk m' r := by
  obtain ⟨m₁,m₂,m₃,a,b,d₀,d₁,hseed,h₀,h₁,rfl,-⟩ := init_hangs hv h
  obtain rfl : a = r := Nat.eq_of_mul_eq_mul_right (by decide) hr
  have blocks₁ : BlocksOk m₁ a := by
    intro q d k hq hd hk hl
    rcases hseed.node_cases (hq.weaken (by decide)) hd with ⟨-,rfl⟩ | ⟨-,rfl⟩
    · rw [hseed.root_cell k hk] at hl
      split_ifs at hl
      · rw [(tableEntry_spec hseed.frameAddr).2.2.2.1] at hl
        cases hl
      · cases hl
    · rw [hseed.pdpt_cell k hk] at hl
      cases hl
  have hnew : ∀ j < 512, ∀ k < 512, large (page2mb (pageVa j k 0)) = true →
      ∃ pa, 2^21 ∣ pa ∧ pa < 2^52 ∧ page2mb (pageVa j k 0) = page2mb pa := by
    intro j hj k hk _
    exact ⟨_,pageVa_block_dvd j k,Nat.lt_trans (pageVa_lt hj hk (by decide)) (by decide),rfl⟩
  have blocks₂ := blocks₁.install h₀.before h₀.installs h₀.ext fun _ => hnew 0 (by decide)
  have blocks₃ : BlocksOk m₃ a :=
    blocks₂.install h₁.before h₁.installs h₁.ext fun _ => hnew 1 (by decide)
  exact blocks₃

theorem step_blocks {r : ℕ} {call : Call} (ok : KernelOk m r) (h : BlocksOk m r)
    (hs : KernelRuns.Step m call m') : BlocksOk m' r := by
  unfold KernelRuns.Step at hs
  rw [Call.exec_eq] at hs
  obtain ⟨m₁,m₂,m₃,a,b,c,ok₁,ok₂,ok₃,d₁,d₂,d₃,-,-,n₃,rfl⟩ := mapWith_cases ok hs
  have h₃ := ((h.descend ok d₁).descend ok₁ d₂).descend ok₂ d₃
  exact h₃.setLeaf ok₃ (path_table call.virt) rfl n₃ (ptIdx_lt call.virt) _

theorem kernelRun_blocks {m₀ : Machine} {h : List Call} (hv : Valid m₀.frames)
    (hr : KernelRun m₀ h m) : ∃ r, KernelOk m r ∧ BlocksOk m r := by
  obtain ⟨mᵢ,hi,hrun⟩ := hr
  obtain ⟨r,h₀⟩ := init_reached hv hi
  have hinv := hrun.invariant (P := fun h m => Reached h m r ∧ BlocksOk m r)
    ⟨h₀,init_blocks hv hi h₀.ok.root⟩
    fun _ _ _ _ hp hs => ⟨step_reached hp.1 hs,step_blocks hp.1.ok hp.2 hs⟩
  exact ⟨r,hinv.1.ok,hinv.2⟩

/-! ## The processor's walk finds this mapping -/

theorem upper_slot {r f i : ℕ} (tree : TreeOk m r) (hp : Path 1 512 p)
    (hf : node child (cell m) r p = some f) (hi : i < 512) :
    cell m f i = 0 ∨ ∃ g, FrameAddr (g*4096) ∧ cell m f i = tableEntry (g*4096) ∧
      node child (cell m) r (p++[i]) = some g := by
  have hlen := hp.1
  rcases tree.slots p f i (hp.weaken (by decide)) hf hi with he | ⟨g,hg,he⟩ | ⟨hl,-⟩
  · exact .inl he
  · refine .inr ⟨g,hg,he,?_⟩
    rw [node_snoc_of hf, he, child_tableEntry hg]
  · omega

theorem walk_mapping {r : ℕ} (tree : TreeOk m r) (va : ℕ) :
    translate m (r*4096) va = (mapping m r va).map Prod.fst ∧
      cacheDisabledAt m (r*4096) va = (mapping m r va).map Prod.snd := by
  have i1 := pml4Idx_lt va
  have i2 := pdptIdx_lt va
  have i3 := pdIdx_lt va
  have p0 : Path 1 512 [] := ⟨by simp,by simp⟩
  have p1 : Path 1 512 [pml4Idx va] := ⟨by simp,by simpa using i1⟩
  unfold Mmu.translate cacheDisabledAt
  rcases upper_slot tree p0 rfl i1 with h1 | ⟨t,ht,h1,n1⟩
  · have hd : node child (cell m) r (directoryPath va) = none := by
      simp only [directoryPath, node, h1, child_zero, bind_none]
    have habs : present (m.entry (r*4096) (pml4Idx va)) = false := by
      rw [show m.entry (r*4096) (pml4Idx va) = 0 from h1, present_zero]
    rw [mapping_none hd]
    simp [habs]
  change m.entry (r*4096) (pml4Idx va) = _ at h1
  obtain ⟨hp1,hw1,hu1,hl1,hn1,ha1⟩ := tableEntry_spec ht
  rcases upper_slot tree p1 n1 i2 with h2 | ⟨d,hdf,h2,n2⟩
  · have hd : node child (cell m) r (directoryPath va) = none := by
      have := node_snoc_of n1 (pdptIdx va)
      rw [h2, child_zero] at this
      exact this
    have habs : present (m.entry (t*4096) (pdptIdx va)) = false := by
      rw [show m.entry (t*4096) (pdptIdx va) = 0 from h2, present_zero]
    rw [mapping_none hd]
    simp [h1, hp1, ha1, habs]
  change m.entry (t*4096) (pdptIdx va) = _ at h2
  obtain ⟨hp2,hw2,hu2,hl2,hn2,ha2⟩ := tableEntry_spec hdf
  have hd : node child (cell m) r (directoryPath va) = some d := n2
  rcases tree.slots _ d (pdIdx va) (path_directory va) hd i3 with h3 | ⟨c,hc,h3⟩ | ⟨-,hp3,hl3⟩
  · have habs : present (m.entry (d*4096) (pdIdx va)) = false := by
      rw [show m.entry (d*4096) (pdIdx va) = 0 from h3, present_zero]
    rw [mapping_directory hd (by rw [h3]; exact child_zero), h3, blockMapping_zero]
    simp [h1, hp1, ha1, h2, hp2, hl2, ha2, habs]
  · have hnode : node child (cell m) r (tablePath va) = some c := by
      rw [tablePath_eq, node_snoc_of hd, h3, child_tableEntry hc]
    rw [mapping_table hnode]
    change m.entry (d*4096) (pdIdx va) = _ at h3
    obtain ⟨hp3,hw3,hu3,hl3,hn3,ha3⟩ := tableEntry_spec hc
    by_cases hp4 : present (cell m c (ptIdx va)) = true
    · rw [pageMapping_present va hp4]
      simp only [cell] at hp4 ⊢
      simp [h1, hp1, ha1, h2, hp2, hl2, ha2, h3, hp3, hl3, ha3, hp4, Translation.of, hw1, hu1, hn1,
        hw2, hn2, hw3, hn3]
    · rw [pageMapping_absent va hp4]
      simp only [cell] at hp4
      simp [h1, hp1, ha1, h2, hp2, hl2, ha2, h3, hp3, hl3, ha3, hp4]
  · rw [mapping_directory hd (child_large hl3)]
    simp only [cell] at hp3 hl3 ⊢
    simp [h1, hp1, ha1, h2, hp2, hl2, ha2, hp3, hl3, blockMapping, Translation.of, hw1, hu1, hn1,
      hw2, hn2]

/-! ## Steps -/

theorem page2mb_cached {pa : ℕ} (ha : 2^21 ∣ pa) (hb : pa < 2^52) :
    cacheDisabled (page2mb pa) = false := by
  rw [page2mb_flags]
  obtain ⟨-,-,-,-,hc,-⟩ := or_spec ⟨dvd_trans (by decide) ha,hb⟩ 0x83#64 (by decide)
  rw [hc]
  decide

theorem splitPage_mapping {va pa : ℕ} (ha : 2^21 ∣ pa) (hb : pa < 2^52) :
    pageMapping va (page4k (pa+ptIdx va*0x1000) true false true) =
      blockMapping va (page2mb pa) := by
  obtain ⟨c,rfl⟩ := ha
  have hi := ptIdx_lt va
  have hf : FrameAddr (2^21*c+ptIdx va*0x1000) := by
    refine ⟨⟨512*c+ptIdx va,by ring⟩,?_⟩
    omega
  obtain ⟨hp,hw,-,-,hn,hc,hpa⟩ := page4k_spec hf true false true
  have hdvd : 2^21 ∣ 2^21*c := ⟨c,rfl⟩
  obtain ⟨-,hw',-,hl',hn',hba⟩ := page2mb_spec hdvd hb
  have hva : ptIdx va*0x1000+va%2^12 = va%2^21 := by
    rw [ptIdx_eq]
    omega
  unfold pageMapping blockMapping
  rw [hp, hw, hn, hc, hpa, hw', hl', hn', hba, page2mb_cached hdvd hb, Nat.add_assoc, hva]
  rfl

section
variable {m m' : Machine} {r t i g va : ℕ} {p : List ℕ} {new : ℕ → Entry}

section

variable (hs : Installs m m' t i g tableEntry new)
  (he : Extends child (cell m) (cell m') r 3 512 p t i g) (ok : KernelOk m r)
include hs he ok

theorem mapping_elsewhere (hpre : ¬p++[i] <+: tablePath va) : mapping m' r va = mapping m r va := by
  have hdir : Path 3 512 (directoryPath va) := (path_directory va).weaken (by decide)
  have hnode := he.node_other ok.separate (path_table va) hpre
  have hnode' := he.node_other ok.separate hdir fun h => hpre (h.trans ⟨[pdIdx va],rfl⟩)
  unfold mapping
  rw [hnode, hnode']
  cases hc : node child (cell m) r (tablePath va) with
  | some c =>
    have hne : ¬(c = t ∧ ptIdx va = i) := by
      rintro ⟨rfl,-⟩
      have hp := ok.separate _ _ c (path_table va) he.path hc he.at_node
      have hshort := he.short
      rw [← hp] at hshort
      exact absurd hshort (by simp [tablePath])
    simp only [hs.cells c _ (ptIdx_lt va) (ok.ne_fresh hs.fresh (path_table va) hc), if_neg hne]
  | none =>
    cases hd : node child (cell m) r (directoryPath va) with
    | none => simp only [bind_none]
    | some d =>
      have hne : ¬(d = t ∧ pdIdx va = i) := by
        rintro ⟨rfl,rfl⟩
        have hp := ok.separate _ _ d hdir he.path hd he.at_node
        exact hpre ⟨[],by rw [← hp, append_nil, tablePath_eq]⟩
      simp only [hs.cells d _ (pdIdx_lt va) (ok.ne_fresh hs.fresh hdir hd), if_neg hne,
        bind_some]

theorem mapping_fresh
    (hlt : p.length < 2) (hpre : p++[i] <+: tablePath va) (hz : ∀ j < 512, new j = 0) :
    mapping m' r va = mapping m r va := by
  obtain ⟨s,hs'⟩ : p++[i] <+: directoryPath va := by
    refine prefix_of_prefix_length_le hpre ⟨[pdIdx va],rfl⟩ ?_
    simp only [length_append, directoryPath, length_cons, length_nil]
    omega
  have hdir : Path 3 512 (directoryPath va) := (path_directory va).weaken (by decide)
  have hold : node child (cell m) r (directoryPath va) = none := by
    rw [← hs', node_append, node_snoc_of he.at_node, he.empty]
    rfl
  rw [mapping_none hold]
  cases s with
  | nil =>
    have hnew : node child (cell m') r (directoryPath va) = some g := by
      rw [← hs', append_nil]
      exact he.node_new ok.separate
    have hcell : cell m' g (pdIdx va) = 0 := by
      rw [hs.table _ (pdIdx_lt va), hz _ (pdIdx_lt va)]
    rw [mapping_directory hnew (by rw [hcell]; exact child_zero), hcell, blockMapping_zero]
  | cons k s =>
    apply mapping_none
    rw [← hs'] at hdir ⊢
    exact he.node_below ok.separate hdir

theorem mapping_split (hlen : p.length = 2) (hpre : p++[i] <+: tablePath va)
    (hpage : pageMapping va (new (ptIdx va)) = blockMapping va (cell m t i)) :
    mapping m' r va = mapping m r va := by
  have heq : p++[i] = directoryPath va++[pdIdx va] :=
    hpre.eq_of_length (by simp [hlen, tablePath])
  obtain ⟨rfl,hi⟩ := append_inj' heq rfl
  obtain rfl := singleton_inj.mp hi
  have hnew : node child (cell m') r (tablePath va) = some g := he.node_new ok.separate
  rw [mapping_directory he.at_node he.empty, mapping_table hnew, hs.table _ (ptIdx_lt va), hpage]

end

end

/-- Reaching a table, with whatever has to be installed for it, changes no mapping. -/
theorem descends_mapping (va : ℕ) {r t i g : ℕ}
    (hd : Descends m r p t i g m') (ok : KernelOk m r) (blocks : BlocksOk m r) (hp : Path 2 512 p)
    (ht : node child (cell m) r p = some t) (hi : i < 512) :
    mapping m' r va = mapping m r va := by
  cases hd with
  | stay _ => rfl
  | install hs he hfill =>
    by_cases hpre : p++[i] <+: tablePath va
    · rcases hfill with ⟨hzero,hz⟩ | ⟨hlen,hpres,hlarge,hz⟩
      · rcases Nat.lt_or_eq_of_le hp.1 with hlt | hlen
        · exact mapping_fresh hs he ok hlt hpre hz
        · apply mapping_split hs he ok hlen hpre
          rw [hz _ (ptIdx_lt va), hzero, pageMapping_zero, blockMapping_zero]
      · apply mapping_split hs he ok hlen hpre
        obtain ⟨pa,ha,hb,hcell⟩ := blocks p t i hp ht hi hlarge
        rw [hz _ (ptIdx_lt va), hcell, (page2mb_spec ha hb).2.2.2.2.2]
        exact splitPage_mapping ha hb
    · exact mapping_elsewhere hs he ok hpre

theorem page_eq_of_idx {va virt : ℕ} (hv : virt < 2^47) (hc : Canonical va)
    (ht : tablePath va = tablePath virt) (hi : ptIdx va = ptIdx virt) : va/4096 = virt/4096 := by
  simp only [tablePath, List.cons.injEq, and_true] at ht
  obtain ⟨h1,h2,h3⟩ := ht
  rw [pml4Idx_eq, pml4Idx_eq] at h1
  rw [pdptIdx_eq, pdptIdx_eq] at h2
  rw [pdIdx_eq, pdIdx_eq] at h3
  rw [ptIdx_eq, ptIdx_eq] at hi
  unfold Canonical at hc
  omega

theorem idx_eq_of_page {va virt : ℕ} (h : va/4096 = virt/4096) :
    tablePath va = tablePath virt ∧ ptIdx va = ptIdx virt := by
  simp only [tablePath, List.cons.injEq, and_true]
  rw [pml4Idx_eq, pml4Idx_eq, pdptIdx_eq, pdptIdx_eq, pdIdx_eq, pdIdx_eq, ptIdx_eq, ptIdx_eq]
  omega

theorem setLeaf_mapping {r c virt va : ℕ} (ok : KernelOk m r)
    (hc : node child (cell m) r (tablePath virt) = some c) (e : Entry) :
    mapping (m.setEntry (c*4096) (ptIdx virt) e) r va =
      if tablePath va = tablePath virt ∧ ptIdx va = ptIdx virt then pageMapping va e
      else mapping m r va := by
  have hi := ptIdx_lt virt
  have hdir : Path 3 512 (directoryPath va) := (path_directory va).weaken (by decide)
  obtain ⟨-,hnode⟩ := ok.setLeaf (path_table virt) rfl hc hi e
  split_ifs with heq
  · have ht : node child (cell (m.setEntry (c*4096) (ptIdx virt) e)) r (tablePath va) = some c := by
      rw [hnode _ (path_table va), heq.1, hc]
    rw [mapping_table ht, cell_setEntry m c hi (ptIdx_lt va), if_pos ⟨rfl,heq.2⟩]
  · unfold mapping
    rw [hnode _ (path_table va), hnode _ hdir]
    cases ht : node child (cell m) r (tablePath va) with
    | some t =>
      have hne : ¬(t = c ∧ ptIdx va = ptIdx virt) := by
        rintro ⟨rfl,hidx⟩
        exact heq ⟨ok.separate _ _ t (path_table va) (path_table virt) ht hc,hidx⟩
      simp only [cell_setEntry m c hi (ptIdx_lt va), if_neg hne]
    | none =>
      cases hd : node child (cell m) r (directoryPath va) with
      | none => simp only [bind_none]
      | some d =>
        have hne : ¬(d = c ∧ pdIdx va = ptIdx virt) := by
          rintro ⟨rfl,-⟩
          have := ok.separate _ _ d hdir (path_table virt) hd hc
          exact absurd (congrArg List.length this) (by simp [directoryPath, tablePath])
        simp only [cell_setEntry m c hi (pdIdx_lt va), if_neg hne, bind_some]

/-- The mapping after a completed map_page or map_page_uc, for any address. -/
theorem mapWith_mapping (va : ℕ) {r virt : ℕ} {leaf : ℕ → Entry} (ok : KernelOk m r)
    (blocks : BlocksOk m r) (hm : mapWith leaf m virt = some m') :
    KernelOk m' r ∧ mapping m' r va =
      if tablePath va = tablePath virt ∧ ptIdx va = ptIdx virt then pageMapping va (leaf virt)
      else mapping m r va := by
  obtain ⟨m₁,m₂,m₃,a,b,c,ok₁,ok₂,ok₃,d₁,d₂,d₃,n₁,n₂,n₃,rfl⟩ := mapWith_cases ok hm
  have blocks₁ := blocks.descend ok d₁
  have blocks₂ := blocks₁.descend ok₁ d₂
  have p₀ : Path 2 512 [] := ⟨by simp,by simp⟩
  have p₁ : Path 2 512 [pml4Idx virt] := ⟨by simp,by simpa using pml4Idx_lt virt⟩
  have e₁ := descends_mapping va d₁ ok blocks p₀ rfl (pml4Idx_lt virt)
  have e₂ := descends_mapping va d₂ ok₁ blocks₁ p₁ n₁ (pdptIdx_lt virt)
  have e₃ := descends_mapping va d₃ ok₂ blocks₂ (path_directory virt) n₂ (pdIdx_lt virt)
  refine ⟨(ok₃.setLeaf (path_table virt) rfl n₃ (ptIdx_lt virt) _).1,?_⟩
  rw [setLeaf_mapping ok₃ n₃, e₃, e₂, e₁]

/-! ## Reachable states -/

/-- Only map_page_uc asks for an uncached page. -/
def uncached : Call → Bool
  | .mapPage _ => false
  | .mapPageUc _ => true

theorem call_page {call : Call} {va : ℕ} (hv : call.virt < 2^47) (ha : call.virt%4096 = 0)
    (h : va/4096 = call.virt/4096) : pageMapping va (call.leaf call.virt) =
      some (⟨va,true,false,false⟩,uncached call) := by
  have hf : FrameAddr call.virt := ⟨Nat.dvd_of_mod_eq_zero ha,by omega⟩
  have hva : call.virt+va%2^12 = va := by omega
  cases call with
  | mapPage virt =>
    obtain ⟨hp,hw,-,-,hn,hc,hpa⟩ := page4k_spec hf true false true
    change pageMapping va (page4k (Call.mapPage virt).virt true false true) = _
    rw [pageMapping_present va hp, hw, hn, hc, hpa, hva]
    rfl
  | mapPageUc virt =>
    obtain ⟨hp,hw,-,-,hn,hc,hpa⟩ := page4kUc_spec hf
    change pageMapping va (page4kUc (Call.mapPageUc virt).virt) = _
    rw [pageMapping_present va hp, hw, hn, hc, hpa, hva]
    rfl

/-- After any kernel run, a call on an aligned address below 2^47 completes when
three frames are free. Whenever it completes, its page is mapped to itself,
every other page keeps its translation, permissions and caching, and different
paths still lead to different tables. -/
theorem map_page_spec {m₀ m : Machine} {h : List Call} (hv : Valid m₀.frames)
    (hr : KernelRun m₀ h m) (call : Call) (hvirt : call.virt < 2^47)
    (ha : call.virt%4096 = 0) :
    (Room m 3 → ∃ m', call.exec m = some m') ∧
    ∀ m', call.exec m = some m' →
      (∀ va, va/4096 = call.virt/4096 →
        translate m' m'.kernelPml4 va = some ⟨va,true,false,false⟩ ∧
        cacheDisabledAt m' m'.kernelPml4 va = some (uncached call)) ∧
      (∀ va, Canonical va → va/4096 ≠ call.virt/4096 →
        translate m' m'.kernelPml4 va = translate m m.kernelPml4 va ∧
        cacheDisabledAt m' m'.kernelPml4 va = cacheDisabledAt m m.kernelPml4 va) ∧
      Separate child (cell m') (m'.kernelPml4/4096) 3 512 := by
  obtain ⟨r,ok,blocks⟩ := kernelRun_blocks hv hr
  refine ⟨fun hroom => ?_,fun m' hm => ?_⟩
  · rw [Call.exec_eq]
    obtain ⟨m',hm,-⟩ := mapWith_room (n := 0) ok hroom
    exact ⟨m',hm⟩
  rw [Call.exec_eq] at hm
  obtain ⟨ok',-⟩ := mapWith_mapping 0 ok blocks hm
  have hmap : ∀ va, _ := fun va => (mapWith_mapping va ok blocks hm).2
  rw [ok'.root, ok.root, Nat.mul_div_cancel _ (by decide)]
  refine ⟨fun va hpage => ?_,fun va hcan hpage => ?_,ok'.separate⟩
  · obtain ⟨htr,hcd⟩ := walk_mapping ok'.toTreeOk va
    rw [htr, hcd, hmap, if_pos (idx_eq_of_page hpage), call_page hvirt ha hpage]
    exact ⟨rfl,rfl⟩
  · obtain ⟨htr,hcd⟩ := walk_mapping ok'.toTreeOk va
    obtain ⟨htr₀,hcd₀⟩ := walk_mapping ok.toTreeOk va
    rw [htr, hcd, htr₀, hcd₀, hmap, if_neg fun h => hpage (page_eq_of_idx hvirt hcan h.1 h.2)]
    exact ⟨rfl,rfl⟩

/-- On a 256 MiB machine the LAPIC page and then a page inside the first block. -/
theorem map_page_spec_boot : ∃ m m', KernelRun (bootMachine 0x900000 (2^28)) [.mapPageUc 0xFEE00000] m ∧
    Call.exec m (.mapPage 0x1000) = some m' ∧
    translate m' m'.kernelPml4 0x1000 = some ⟨0x1000,true,false,false⟩ ∧
    cacheDisabledAt m' m'.kernelPml4 0x1000 = some false ∧
    translate m' m'.kernelPml4 0x2000 = translate m m.kernelPml4 0x2000 := by
  have hv : Valid (bootMachine 0x900000 (2^28)).frames := bootMachine_valid _ (by decide)
  obtain ⟨m,hr,hroom⟩ := kernelRun_room (n := 3) hv [.mapPageUc 0xFEE00000]
    (bootMachine_room (by decide) (by decide))
  obtain ⟨hdone,hspec⟩ := map_page_spec hv hr (.mapPage 0x1000) (by decide) (by decide)
  obtain ⟨m',hm⟩ := hdone hroom
  obtain ⟨hnew,hold,-⟩ := hspec m' hm
  exact ⟨m,m',hr,hm,(hnew 0x1000 rfl).1,(hnew 0x1000 rfl).2,
    (hold 0x2000 (by decide) (by decide)).1⟩

end Zohara.KernelMapping
