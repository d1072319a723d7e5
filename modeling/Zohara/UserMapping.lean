import Zohara.UserTables

/-!
# Mapping the pages of a task

Mapping one page takes a frame, splits the block around the page when it is
still whole, and writes one leaf. Each of the three keeps the invariant of the
task's hierarchy, so the loop of create_user_page_tables does, for any list of
requests below 2 GiB, repeated and overlapping ones included.
-/
namespace Zohara.UserTables
open FrameRefinement PageEntry PageTables TableTree TableHeap List Option
  KernelTables KernelRuns

section
variable {m₀ m m' : Machine} {r U F D T j k l : ℕ} {owned : Finset ℕ} {done : List Mapping}

section

variable (h : UserOk m₀ r m U owned done)
include h

theorem UserOk.node_used {p : List ℕ} {f : ℕ}
    (hp : Path 3 512 p) (hf : node child (cell m) U p = some f) : f ∈ used m :=
  (h.used_iff f).mpr (.inr (.inr ⟨p,hp,hf⟩))

theorem UserOk.owned_used {f : ℕ} (hf : f ∈ owned) :
    f ∈ used m := (h.used_iff f).mpr (.inr (.inl hf))

theorem UserOk.subset : used m₀ ⊆ used m :=
  fun f hf => (h.used_iff f).mpr (.inl hf)

/-- A change that leaves the cells above the last level alone: it is enough to
account for the used frames, the leaves and the mappings. -/
theorem UserOk.transfer {owned' : Finset ℕ} {done' : List Mapping}
    (hagree : ∀ p f i, Path 3 512 p → p.length < 3 → i < 512 → node child (cell m) U p = some f →
      cell m' f i = cell m f i)
    (hvalid : Valid m'.frames) (hcount : m'.frames.actualFrameCount = m.frames.actualFrameCount)
    (hkept : Confined {f | f ∉ used m₀ ∨ Shared m₀ r f} m m')
    (hsub : owned ⊆ owned') (hfresh : ∀ f ∈ owned', f ∉ owned → f ∉ used m)
    (hused : ∀ f, f ∈ used m' ↔ f ∈ used m ∨ f ∈ owned')
    (hleaf : ∀ j k l t, j < 512 → k < 512 → l < 512 → node child (cell m) U [0,j,k] = some t →
      cell m' t l = leafAt m₀ r done' j k l)
    (hplaced : ∀ d ∈ done', d.frame ∈ owned' ∧ d.addr < 2^39 ∧
      ∃ t, node child (cell m) U [0,pdptIdx d.addr,pdIdx d.addr] = some t) :
    UserOk m₀ r m' U owned' done' := by
  have hnode : ∀ q, Path 3 512 q → node child (cell m') U q = node child (cell m) U q :=
    fun q hq => node_eq_of_agree hagree hq
  have hroot : Path 3 512 [] := ⟨by simp,by simp⟩
  refine ⟨hvalid,hcount.trans h.count,h.kept.trans hkept,h.separate.of_agree hagree,
    ?_,?_,?_,?_,?_,?_,?_,?_,?_,?_⟩
  · intro f
    rw [hused f, h.used_iff f]
    constructor
    · intro hf
      rcases hf with (hf | hf | ⟨p,hp,hf⟩) | hf
      · exact .inl hf
      · exact .inr (.inl (hsub hf))
      · exact .inr (.inr ⟨p,hp,(hnode p hp).trans hf⟩)
      · exact .inr (.inl hf)
    · intro hf
      rcases hf with hf | hf | ⟨p,hp,hf⟩
      · exact .inl (.inl hf)
      · exact .inr hf
      · exact .inl (.inr (.inr ⟨p,hp,(hnode p hp).symm.trans hf⟩))
  · intro f hf
    by_cases ho : f ∈ owned
    · refine ⟨(h.owned_fresh f ho).1,fun p hp he => ?_⟩
      rw [hnode p hp] at he
      exact (h.owned_fresh f ho).2 p hp he
    · have hn := hfresh f hf ho
      refine ⟨fun hu => hn (h.subset hu),fun p hp he => ?_⟩
      rw [hnode p hp] at he
      exact hn (h.node_used hp he)
  · intro p f hp hf hu
    rw [hnode p hp] at hf
    exact h.outside p f hp hf hu
  · intro j k f hj hk hf
    rw [hnode _ (path_three (by decide) hj hk)]
    exact h.shared j k f hj hk hf
  · intro i hi hi0
    rw [hagree [] U i hroot (by simp) hi rfl]
    exact h.root i hi hi0
  · rw [hagree [] U 0 hroot (by simp) (by decide) rfl]
    exact h.link
  · intro Q j hQ hj
    have hp : Path 3 512 [0] := ⟨by simp,by simp⟩
    rw [hnode _ hp] at hQ
    rw [hagree [0] Q j hp (by simp) hj hQ]
    exact h.pdpt Q j hQ hj
  · intro j k D hj hk hD
    rw [hnode _ (path_low hj)] at hD
    rw [hagree [0,j] D k (path_low hj) (by simp) hk hD]
    exact h.pd j k D hj hk hD
  · intro j k l t hj hk hl ht
    rw [hnode _ (path_three (by decide) hj hk)] at ht
    exact hleaf j k l t hj hk hl ht
  · intro d hd
    obtain ⟨hf,haddr,t,ht⟩ := hplaced d hd
    refine ⟨hf,haddr,t,?_⟩
    rw [hnode _ (path_three (by decide) (pdptIdx_lt _) (pdIdx_lt _))]
    exact ht

theorem UserOk.touch (hc : Confined (owned : Set ℕ) m m')
    (hf : m'.frames = m.frames) : UserOk m₀ r m' U owned done := by
  have hcell : ∀ p f i, Path 3 512 p → i < 512 → node child (cell m) U p = some f →
      cell m' f i = cell m f i :=
    fun p f i hp hi hn => hc.cell (fun ho => (h.owned_fresh f ho).2 p hp hn) hi
  refine h.transfer (fun p f i hp _ hi hn => hcell p f i hp hi hn) (hf ▸ h.valid) (by rw [hf])
    (hc.mono fun f ho => .inl (h.owned_fresh f ho).1) (Finset.Subset.refl _)
    (fun f hf hn => (hn hf).elim) ?_ ?_ h.placed
  · intro f
    unfold used
    rw [hf]
    exact ⟨fun hu => .inl hu,fun hu => hu.elim id h.owned_used⟩
  · intro j k l t hj hk hl ht
    rw [hcell _ t l (path_three (by decide) hj hk) hl ht]
    exact h.leaf j k l t hj hk hl ht

theorem UserOk.takeFrame_cell (ha : Allocated m F m')
    {p : List ℕ} {f i : ℕ} (hp : Path 3 512 p) (hi : i < 512)
    (hf : node child (cell m) U p = some f) :
    cell (m'.zeroPage (F*4096)) f i = cell m f i :=
  ((ha.confined _).trans (zeroPage_spec m' F).1).cell
    (fun he : f = F => ha.fresh (he ▸ h.node_used hp hf)) hi

theorem UserOk.takeFrame (ha : Allocated m F m') :
    UserOk m₀ r (m'.zeroPage (F*4096)) U (Insert.insert F owned) done := by
  obtain ⟨hz,hzf,-⟩ := zeroPage_spec m' F
  have hc : Confined {F} m (m'.zeroPage (F*4096)) := (ha.confined _).trans hz
  refine h.transfer (fun p f i hp _ hi hn => h.takeFrame_cell ha hp hi hn) (hzf ▸ ha.valid)
    (by rw [hzf, ha.count]) (hc.mono ?_) (Finset.subset_insert _ _) ?_ ?_ ?_ ?_
  · intro f hf
    exact .inl fun hu => ha.fresh (h.subset (hf ▸ hu))
  · intro f hf hn
    rcases Finset.mem_insert.mp hf with rfl | hf
    · exact ha.fresh
    · exact (hn hf).elim
  · intro f
    have hused : used (m'.zeroPage (F*4096)) = Insert.insert F (used m) := by
      unfold used
      rw [hzf]
      exact ha.used_eq
    rw [hused, Finset.mem_insert, Finset.mem_insert]
    constructor
    · intro hf
      rcases hf with hf | hf
      · exact .inr (.inl hf)
      · exact .inl hf
    · intro hf
      rcases hf with hf | hf | hf
      · exact .inr hf
      · exact .inl hf
      · exact .inr (h.owned_used hf)
  · intro j k l t hj hk hl ht
    rw [h.takeFrame_cell ha (path_three (by decide) hj hk) hl ht]
    exact h.leaf j k l t hj hk hl ht
  · intro d hd
    obtain ⟨hf,hrest⟩ := h.placed d hd
    exact ⟨Finset.mem_insert_of_mem hf,hrest⟩

theorem zeroed_takeFrame (hz : Zeroed m owned)
    (ha : Allocated m F m') : Zeroed (m'.zeroPage (F*4096)) (Insert.insert F owned) := by
  obtain ⟨hc,-,hzero⟩ := zeroPage_spec m' F
  intro f hf x hx
  rcases Finset.mem_insert.mp hf with rfl | hf
  · exact hzero x hx
  · have hfF : f ≠ F := fun he => ha.fresh (he ▸ h.owned_used hf)
    rw [hc.mem x (hx ▸ hfF), ha.mem]
    exact hz f hf x hx

end

theorem Zeroed.confined {S : Set ℕ} (h : Zeroed m owned) (hc : Confined S m m')
    (hS : ∀ f ∈ owned, f ∉ S) : Zeroed m' owned := by
  intro f hf x hx
  rw [hc.mem x (by rw [hx]; exact hS f hf)]
  exact h f hf x hx

/-! ### Splitting a block -/

variable {addr : ℕ}

theorem pageNumber_idx (h : addr < 2^39) :
    addr/4096 = pageNumber (pdptIdx addr) (pdIdx addr) (ptIdx addr) := by
  rw [pdptIdx_eq, pdIdx_eq, ptIdx_eq, pageNumber]
  omega

theorem pageNumber_inj {j k l j' k' l' : ℕ} (hk : k < 512) (hl : l < 512) (hk' : k' < 512)
    (hl' : l' < 512) (h : pageNumber j k l = pageNumber j' k' l') : j = j' ∧ k = k' ∧ l = l' := by
  rw [pageNumber, pageNumber] at h
  omega

theorem UserOk.unmapped (h : UserOk m₀ r m U owned done) (hk : k < 512) (hl : l < 512)
    (hn : node child (cell m) U [0,j,k] = none) : mappedAt done (pageNumber j k l) = none := by
  refine find?_eq_none.mpr fun d hd => ?_
  obtain ⟨-,haddr,t,ht⟩ := h.placed d hd
  intro he
  rw [beq_iff_eq, pageNumber_idx haddr] at he
  obtain ⟨hj,hk,-⟩ := pageNumber_inj (pdIdx_lt _) (ptIdx_lt _) hk hl he
  rw [hj, hk, hn] at ht
  cases ht

theorem UserOk.pd_large (h : UserOk m₀ r m U owned done) (hj : j < 512) (hk : k < 512)
    (hD : node child (cell m) U [0,j] = some D) (hl : large (cell m D k) = true) :
    cell m D k = kernelPdEntry m₀ r j k := by
  rcases h.pd j k D hj hk hD with he | ⟨-,T,hT,-,he⟩
  · exact he
  · rw [he, (tableEntryUser_spec hT).2.2.2.1] at hl
    cases hl

theorem UserOk.split (h : UserOk m₀ r m U owned done) (hj : j < 512) (hk : k < 512)
    (hD : node child (cell m) U [0,j] = some D) (hl : large (cell m D k) = true)
    (hs : Installs m m' D k T tableEntryUser fun l =>
      page4k (blockAddr (cell m D k)+l*0x1000) true false true) :
    UserOk m₀ r m' U owned done ∧ node child (cell m') U [0,j,k] = some T := by
  have hpj : Path 3 512 [0,j] := path_low hj
  have hpjk : Path 3 512 [0,j,k] := path_three (by decide) hj hk
  have hext : Extends child (cell m) (cell m') U 3 512 [0,j] D k T :=
    hs.extends (child_tableEntryUser hs.addr) (fun q f hq hf => h.node_used hq hf)
      ⟨by simp,hpj.2⟩ hD hk (child_large hl) (by simp)
  have hcases := fun {q : List ℕ} {f : ℕ} (hq : Path 3 512 q)
    (hf : node child (cell m') U q = some f) => hext.node_cases h.separate hq hf
  have hold := fun {q : List ℕ} {f : ℕ} (hq : Path 3 512 q)
    (hf : node child (cell m) U q = some f) => hext.node_old h.separate hq hf
  have hnone : node child (cell m) U [0,j,k] = none := by
    rw [show ([0,j,k] : List ℕ) = [0,j]++[k] from rfl, node_snoc_of hD, child_large hl]
  have hkernel : node child (cell m₀) r [0,j,k] = none := by
    cases hn : node child (cell m₀) r [0,j,k] with
    | none => rfl
    | some f =>
      rw [h.shared j k f hj hk hn] at hnone
      cases hnone
  have hT₀ : T ∉ used m₀ := fun hT => hs.fresh (h.subset hT)
  have hD₀ : D ∉ used m₀ := fun hu => by
    have := (h.outside _ D hpj hD hu).1
    simp at this
  have hcell : ∀ q f i, Path 3 512 q → i < 512 → node child (cell m) U q = some f → q ≠ [0,j] →
      cell m' f i = cell m f i := by
    intro q f i hq hi hf hne
    have hfT : f ≠ T := fun he => hs.fresh (he ▸ h.node_used hq hf)
    rw [hs.cells f i hi hfT, if_neg]
    rintro ⟨rfl,-⟩
    exact hne (h.separate _ _ f hq hpj hf hD)
  have hroot : Path 3 512 [] := ⟨by simp,by simp⟩
  refine ⟨⟨hs.valid,hs.count.trans h.count,?_,hext.separate h.separate,?_,?_,?_,?_,?_,?_,?_,?_,?_,
    ?_⟩,hext.node_new h.separate⟩
  · refine h.kept.trans (hs.confined.mono ?_)
    intro f hf
    rcases hf with rfl | rfl
    · exact .inl hD₀
    · exact .inl hT₀
  · intro f
    rw [hs.used_eq, Finset.mem_insert, h.used_iff f]
    constructor
    · rintro (rfl | hf | hf | ⟨p,hp,hf⟩)
      · exact .inr (.inr ⟨[0,j,k],hpjk,hext.node_new h.separate⟩)
      · exact .inl hf
      · exact .inr (.inl hf)
      · exact .inr (.inr ⟨p,hp,hold hp hf⟩)
    · rintro (hf | hf | ⟨p,hp,hf⟩)
      · exact .inr (.inl hf)
      · exact .inr (.inr (.inl hf))
      · rcases hcases hp hf with ⟨-,rfl⟩ | ⟨hf,-⟩
        · exact .inl rfl
        · exact .inr (.inr (.inr ⟨p,hp,hf⟩))
  · intro f hf
    refine ⟨(h.owned_fresh f hf).1,fun p hp he => ?_⟩
    rcases hcases hp he with ⟨-,rfl⟩ | ⟨he,-⟩
    · exact hs.fresh (h.owned_used hf)
    · exact (h.owned_fresh f hf).2 p hp he
  · intro p f hp hf hu
    rcases hcases hp hf with ⟨-,rfl⟩ | ⟨hf,-⟩
    · exact (hT₀ hu).elim
    · exact h.outside p f hp hf hu
  · intro j' k' f hj' hk' hf
    exact hold (path_three (by decide) hj' hk') (h.shared j' k' f hj' hk' hf)
  · intro i hi hi0
    rw [hcell [] U i hroot hi rfl (by simp)]
    exact h.root i hi hi0
  · rw [hcell [] U 0 hroot (by decide) rfl (by simp)]
    exact h.link
  · intro Q i hQ hi
    have hp : Path 3 512 [0] := ⟨by simp,by simp⟩
    rcases hcases hp hQ with ⟨he,-⟩ | ⟨hQ,-⟩
    · simp at he
    · rw [hcell [0] Q i hp hi hQ (by simp)]
      exact h.pdpt Q i hQ hi
  · intro j' k' E hj' hk' hE
    rcases hcases (path_low hj') hE with ⟨he,-⟩ | ⟨hE,-⟩
    · simp at he
    · have hET : E ≠ T := fun he => hs.fresh (he ▸ h.node_used (path_low hj') hE)
      rw [hs.cells E k' hk' hET]
      split_ifs with heq
      · obtain ⟨rfl,rfl⟩ := heq
        obtain rfl : j' = j := by simpa using h.separate _ _ E (path_low hj') hpj hE hD
        rw [← h.pd_large hj hk hD hl]
        exact .inr ⟨hl,T,hs.addr,hT₀,rfl⟩
      · exact h.pd j' k' E hj' hk' hE
  · intro j' k' l t hj' hk' hl' ht
    have hp : Path 3 512 [0,j',k'] := path_three (by decide) hj' hk'
    rcases hcases hp ht with ⟨he,rfl⟩ | ⟨ht,-⟩
    · obtain ⟨rfl,rfl⟩ : j' = j ∧ k' = k := by simpa using he
      rw [hs.table l hl', leafAt, h.unmapped hk hl' hnone]
      simp only [baseLeaf, hkernel, h.pd_large hj hk hD hl]
    · rw [hcell _ t l hp hl' ht (by simp)]
      exact h.leaf j' k' l t hj' hk' hl' ht
  · intro d hd
    obtain ⟨hf,haddr,t,ht⟩ := h.placed d hd
    exact ⟨hf,haddr,t,hold (path_three (by decide) (pdptIdx_lt _) (pdIdx_lt _)) ht⟩

/-! ### Writing a leaf -/

theorem mappedAt_cons (d : Mapping) (done : List Mapping) (n : ℕ) :
    mappedAt (d::done) n = if d.addr/4096 = n then some d else mappedAt done n := by
  unfold mappedAt
  rw [find?_cons]
  split_ifs with h
  · rw [beq_iff_eq.mpr h]
  · rw [beq_eq_false_iff_ne.mpr h]

theorem UserOk.setLeaf_cell (h : UserOk m₀ r m U owned done) {t i n : ℕ} (e : Entry) (hj : j < 512)
    (hk : k < 512) (hn : n < 512) (ht : node child (cell m) U [0,j,k] = some t) {q : List ℕ} {f : ℕ}
    (hq : Path 3 512 q) (hlen : q.length < 3) (hi : i < 512)
    (hf : node child (cell m) U q = some f) :
    cell (m.setEntry (t*4096) n e) f i = cell m f i := by
  rw [cell_setEntry m t hn hi, if_neg]
  intro he
  rw [h.separate q _ t hq (path_three (by decide) hj hk) (he.1 ▸ hf) ht] at hlen
  simp at hlen

theorem UserOk.setLeaf (h : UserOk m₀ r m U owned done) {d : Mapping} {t : ℕ}
    (haddr : d.addr < 2^39) (hframe : d.frame ∈ owned)
    (ht : node child (cell m) U [0,pdptIdx d.addr,pdIdx d.addr] = some t) :
    UserOk m₀ r (m.setEntry (t*4096) (ptIdx d.addr) d.leaf) U owned (d::done) := by
  have hi := ptIdx_lt d.addr
  have hpt : Path 3 512 [0,pdptIdx d.addr,pdIdx d.addr] :=
    path_three (by decide) (pdptIdx_lt _) (pdIdx_lt _)
  refine h.transfer ?_ h.valid rfl ((setEntry_confined m t hi d.leaf).mono ?_)
    (Finset.Subset.refl _) (fun f hf hn => (hn hf).elim)
    (fun f => ⟨fun hu => .inl hu,fun hu => hu.elim id h.owned_used⟩) ?_ ?_
  · intro q f i hq hlen hi' hf
    exact h.setLeaf_cell _ (pdptIdx_lt _) (pdIdx_lt _) hi ht hq hlen hi' hf
  · intro f hf
    obtain rfl : f = t := hf
    by_cases hu : f ∈ used m₀
    · exact .inr ⟨_,_,pdptIdx_lt _,pdIdx_lt _,(h.outside _ f hpt ht hu).2⟩
    · exact .inl hu
  · intro j k l s hj hk hl hs
    have hp : Path 3 512 [0,j,k] := path_three (by decide) hj hk
    rw [cell_setEntry m t hi hl, leafAt, mappedAt_cons, pageNumber_idx haddr]
    by_cases heq : s = t ∧ l = ptIdx d.addr
    · obtain ⟨rfl,rfl⟩ := heq
      obtain ⟨rfl,rfl⟩ : j = pdptIdx d.addr ∧ k = pdIdx d.addr := by
        simpa using h.separate _ _ s hp hpt hs ht
      rw [if_pos ⟨rfl,rfl⟩, if_pos rfl]
    · rw [if_neg heq, if_neg]
      · exact h.leaf j k l s hj hk hl hs
      · intro hn
        obtain ⟨rfl,rfl,rfl⟩ := pageNumber_inj (pdIdx_lt _) hi hk hl hn
        exact heq ⟨some.inj (hs.symm.trans ht),rfl⟩
  · intro e he
    rcases mem_cons.mp he with rfl | he
    · exact ⟨hframe,haddr,t,ht⟩
    · exact h.placed e he

/-! ### One page -/

theorem low_idx (h : addr < 2^31) : pml4Idx addr = 0 ∧ pdptIdx addr < 2 := by
  rw [pml4Idx_eq, pdptIdx_eq]
  omega

/-- The kernel's own tables have a directory and an entry in it for the address. -/
def KernelCovers (m₀ : Machine) (r addr : ℕ) : Prop :=
  pml4Idx addr = 0 ∧ ∃ d, node child (cell m₀) r [0,pdptIdx addr] = some d ∧
    present (cell m₀ d (pdIdx addr)) = true

theorem kernelCovers_low (ok : KernelOk m₀ r) (h : addr < 2^31) : KernelCovers m₀ r addr := by
  obtain ⟨h0,hj⟩ := low_idx h
  obtain ⟨d,hd,hall⟩ := ok.low _ hj
  exact ⟨h0,d,hd,hall _ (pdIdx_lt addr)⟩

theorem UserOk.walk_dir (h : UserOk m₀ r m U owned done) (hj : j < 512) {d : ℕ}
    (hd : node child (cell m₀) r [0,j] = some d) :
    ∃ Q D, tableAddr (cell m U 0) = Q*4096 ∧ tableAddr (cell m Q j) = D*4096 ∧
      node child (cell m) U [0] = some Q ∧ node child (cell m) U [0,j] = some D ∧
      cell m U 0 = tableEntryUser (Q*4096) ∧ cell m Q j = tableEntryUser (D*4096) ∧
      FrameAddr (Q*4096) ∧ FrameAddr (D*4096) := by
  obtain ⟨Q,hQ,hlink⟩ := h.link
  have hnQ : node child (cell m) U [0] = some Q := by
    rw [node, hlink, child_tableEntryUser hQ]
    rfl
  rcases h.pdpt Q j hnQ hj with ⟨hn,-⟩ | ⟨-,D,-,hD,hcell⟩
  · rw [hn] at hd
    cases hd
  · refine ⟨Q,D,?_,?_,hnQ,?_,hlink,hcell,hQ,hD⟩
    · rw [hlink]
      exact (tableEntryUser_spec hQ).2.2.2.2.2
    · rw [hcell]
      exact (tableEntryUser_spec hD).2.2.2.2.2
    · rw [show ([0,j] : List ℕ) = [0]++[j] from rfl, node_snoc_of hnQ, hcell,
        child_tableEntryUser hD]

theorem UserOk.pd_present (ok : KernelOk m₀ r) (h : UserOk m₀ r m U owned done) (hj : j < 512)
    (hk : k < 512) {d : ℕ} (hd : node child (cell m₀) r [0,j] = some d)
    (hp : present (cell m₀ d k) = true) (hD : node child (cell m) U [0,j] = some D)
    (hl : large (cell m D k) = false) :
    ∃ t, tableAddr (cell m D k) = t*4096 ∧ node child (cell m) U [0,j,k] = some t := by
  have hnode : ∀ {e : Entry} {t : ℕ}, cell m D k = e → child e = some t →
      node child (cell m) U [0,j,k] = some t := by
    intro e t he hc
    rw [show ([0,j,k] : List ℕ) = [0,j]++[k] from rfl, node_snoc_of hD, he, hc]
  rcases h.pd j k D hj hk hD with he | ⟨-,T,hT,-,he⟩
  · rw [kernelPdEntry_eq hd] at he
    rcases ok.slots [0,j] d k ⟨by simp,(path_low hj).2⟩ hd hk with hz | ⟨g,hg,hg'⟩ | ⟨-,-,hlarge⟩
    · rw [hz] at hp
      cases hp
    · rw [hg'] at he
      refine ⟨g,?_,hnode he (child_tableEntry hg)⟩
      rw [he]
      exact (tableEntry_spec hg).2.2.2.2.2
    · rw [he, hlarge] at hl
      cases hl
  · refine ⟨T,?_,hnode he (child_tableEntryUser hT)⟩
    rw [he]
    exact (tableEntryUser_spec hT).2.2.2.2.2

theorem UserOk.mapUserPage_covered (h : UserOk m₀ r m U owned done)
    (hc : KernelCovers m₀ r addr) : ∃ D, node child (cell m) U [0,pdptIdx addr] = some D ∧
      mapUserPage m (U*4096) addr =
        if large (cell m D (pdIdx addr)) then splitBlock m (D*4096) (pdIdx addr) tableEntryUser
        else some (tableAddr (cell m D (pdIdx addr)),m) := by
  obtain ⟨h0,d,hd,-⟩ := hc
  obtain ⟨Q,D,hQ,hD,-,hnD,-⟩ := h.walk_dir (pdptIdx_lt addr) hd
  refine ⟨D,hnD,?_⟩
  have h₁ : m.entry (U*4096) (pml4Idx addr) = cell m U 0 := by
    rw [h0]
    rfl
  have h₂ : m.entry (Q*4096) (pdptIdx addr) = cell m Q (pdptIdx addr) := rfl
  have h₃ : m.entry (D*4096) (pdIdx addr) = cell m D (pdIdx addr) := rfl
  simp only [mapUserPage, h₁, hQ, h₂, hD, h₃]

section

variable (ok : KernelOk m₀ r) (h : UserOk m₀ r m U owned done)
include ok h

theorem mapUserPage_covered_spec (hz : Zeroed m owned) {addr pa : ℕ} (hc : KernelCovers m₀ r addr)
    (hm : mapUserPage m (U*4096) addr = some (pa,m')) :
    ∃ t, pa = t*4096 ∧ UserOk m₀ r m' U owned done ∧ Zeroed m' owned ∧
      node child (cell m') U [0,pdptIdx addr,pdIdx addr] = some t := by
  obtain ⟨D,hD,heq⟩ := h.mapUserPage_covered hc
  obtain ⟨-,d,hd,hp⟩ := hc
  have hk := pdIdx_lt addr
  have hpj : Path 3 512 [0,pdptIdx addr] := path_low (pdptIdx_lt _)
  rw [heq] at hm
  split_ifs at hm with hl
  · obtain ⟨T,rfl,hs⟩ := splitBlock_spec h.valid (h.node_used hpj hD) hk hm
    obtain ⟨hok,hT⟩ := h.split (pdptIdx_lt _) hk hD hl hs
    refine ⟨T,rfl,hok,hz.confined hs.confined fun f hf hmem => ?_,hT⟩
    rcases hmem with rfl | rfl
    · exact (h.owned_fresh f hf).2 _ hpj hD
    · exact hs.fresh (h.owned_used hf)
  · cases hm
    obtain ⟨t,ht,hn⟩ := h.pd_present ok (pdptIdx_lt _) hk hd hp hD (Bool.eq_false_iff.mpr hl)
    exact ⟨t,ht,h,hz,hn⟩

theorem mapFresh_covered_spec
    (hz : Zeroed m owned) {addr pa : ℕ} {w x : Bool} (hc : KernelCovers m₀ r addr)
    (ha : addr < 2^39)
    (hm : mapFresh (U*4096) addr (fun pa => page4k pa w true x) m = some (pa,m')) :
    ∃ F, pa = F*4096 ∧ F ∉ used m ∧ Zeroed m' (Insert.insert F owned) ∧
      UserOk m₀ r m' U (Insert.insert F owned) (⟨addr,w,x,F⟩::done) := by
  obtain ⟨⟨pf,m₁⟩,hf,hm⟩ := bind_eq_some_iff.mp hm
  obtain ⟨F,rfl,hal⟩ := allocTableOrHalt_some h.valid hf
  obtain ⟨⟨pt,m₂⟩,ht,hm⟩ := bind_eq_some_iff.mp hm
  cases hm
  obtain ⟨t,rfl,hok,hz',hn⟩ := mapUserPage_covered_spec ok (h.takeFrame hal)
    (zeroed_takeFrame h hz hal) hc ht
  refine ⟨F,rfl,hal.fresh,?_,hok.setLeaf (d := ⟨addr,w,x,F⟩) ha (Finset.mem_insert_self _ _) hn⟩
  refine hz'.confined (setEntry_confined m₂ t (ptIdx_lt addr) _) fun f hf hmem => ?_
  obtain rfl : f = t := hmem
  exact (hok.owned_fresh f hf).2 _ (path_three (by decide) (pdptIdx_lt _) (pdIdx_lt _)) hn

theorem mapFresh_spec (hz : Zeroed m owned) {addr pa : ℕ} {w x : Bool} (ha : addr < 2^31)
    (hm : mapFresh (U*4096) addr (fun pa => page4k pa w true x) m = some (pa,m')) :
    ∃ F, pa = F*4096 ∧ F ∉ used m ∧ Zeroed m' (Insert.insert F owned) ∧
      UserOk m₀ r m' U (Insert.insert F owned) (⟨addr,w,x,F⟩::done) :=
  mapFresh_covered_spec ok h hz (kernelCovers_low ok ha) (by omega) hm

end

end

/-! ## Whole calls -/

/-- The request a mapping answers. -/
def Mapping.request (d : Mapping) : ℕ × Bool × Bool := (d.addr,d.writable,d.executable)

/-- What create_user_page_tables reports about a mapping. -/
def Mapping.record (d : Mapping) : ℕ × ℕ × ℕ := (d.addr,4096,d.frame*4096)

variable {frames : List (ℕ × ℕ × ℕ)}

theorem mapRequests_spec {m₀ : Machine} {r U : ℕ} (ok : KernelOk m₀ r)
    {reqs : List (ℕ × Bool × Bool)} (hlow : ∀ q ∈ reqs, q.1 < 2^31) {m m' : Machine}
    {owned : Finset ℕ} {done : List Mapping}
    (h : UserOk m₀ r m U owned done) (hz : Zeroed m owned)
    (hm : mapRequests (U*4096) reqs m = some (frames,m')) :
    ∃ ds : List Mapping, frames = ds.map Mapping.record ∧ ds.map Mapping.request = reqs ∧
      (ds.map Mapping.frame).Nodup ∧ (∀ d ∈ ds, d.frame ∉ owned) ∧
      Zeroed m' (owned ∪ (ds.map Mapping.frame).toFinset) ∧
      UserOk m₀ r m' U (owned ∪ (ds.map Mapping.frame).toFinset) (ds.reverse++done) := by
  induction reqs generalizing m owned done frames with
  | nil =>
    cases hm
    exact ⟨[],rfl,rfl,nodup_nil,by simp,by simpa using hz,by simpa using h⟩
  | cons q reqs ih =>
    obtain ⟨addr,w,x⟩ := q
    obtain ⟨⟨pa,m₁⟩,h₁,hm⟩ := bind_eq_some_iff.mp hm
    obtain ⟨⟨rest,m₂⟩,h₂,hm⟩ := bind_eq_some_iff.mp hm
    cases hm
    obtain ⟨F,rfl,hF,hz',hok⟩ := mapFresh_spec ok h hz (hlow _ mem_cons_self) h₁
    obtain ⟨ds,rfl,hreq,hnodup,hfresh,hzero,hfin⟩ :=
      ih ((forall_mem_cons.mp hlow).2) hok hz' h₂
    have hset : owned ∪ ((⟨addr,w,x,F⟩::ds).map Mapping.frame).toFinset =
        Insert.insert F owned ∪ (ds.map Mapping.frame).toFinset := by
      rw [map_cons, toFinset_cons, Finset.union_insert, ← Finset.insert_union]
    refine ⟨⟨addr,w,x,F⟩::ds,rfl,by rw [map_cons, hreq]; rfl,?_,?_,hset ▸ hzero,?_⟩
    · rw [map_cons, nodup_cons]
      refine ⟨fun hmem => ?_,hnodup⟩
      obtain ⟨d,hd,hdF⟩ := mem_map.mp hmem
      exact hfresh d hd (Finset.mem_insert.mpr (.inl hdF))
    · intro d hd
      rcases mem_cons.mp hd with rfl | hd
      · exact fun ho => hF (h.owned_used ho)
      · exact fun ho => hfresh d hd (Finset.mem_insert_of_mem ho)
    · rw [hset, reverse_cons, append_assoc]
      exact hfin

/-- Everything a completed create_user_page_tables leaves behind. -/
theorem createUserPageTables_spec {m₀ m : Machine} {r root : ℕ} {segments : List Segment} (ok : KernelOk m₀ r)
    (hlow : ∀ q ∈ userRequests segments, q.1 < 2^31)
    (h : createUserPageTables m₀ segments = some ((root,frames),m)) :
    ∃ (U : ℕ) (ds : List Mapping), root = U*4096 ∧ U ∉ used m₀ ∧
      frames = ds.map Mapping.record ∧ ds.map Mapping.request = userRequests segments ∧
      (ds.map Mapping.frame).Nodup ∧ Zeroed m (ds.map Mapping.frame).toFinset ∧
      UserOk m₀ r m U (ds.map Mapping.frame).toFinset ds.reverse := by
  obtain ⟨⟨pml4,m₁⟩,h₁,h⟩ := bind_eq_some_iff.mp h
  obtain ⟨⟨fs,m₂⟩,h₂,h⟩ := bind_eq_some_iff.mp h
  cases h
  obtain ⟨U,rfl,hU,hok⟩ := cloneKernel_ok ok h₁
  obtain ⟨ds,hrec,hreq,hnodup,-,hzero,hfin⟩ := mapRequests_spec ok hlow hok (by simp [Zeroed]) h₂
  rw [Finset.empty_union] at hzero hfin
  rw [append_nil] at hfin
  exact ⟨U,ds,rfl,hU,hrec,hreq,hnodup,hzero,hfin⟩

end Zohara.UserTables
