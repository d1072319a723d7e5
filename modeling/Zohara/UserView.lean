import Zohara.SegmentPages

/-!
# What a task sees through its page tables

The walk of the processor and the test is_user_mapped, evaluated on a hierarchy
that satisfies `UserOk`: pages the task has mapped, pages it has not, and
addresses outside the first PML4 slot. A mapped page is user-accessible for the
processor only when its directory entry is private; over a table shared with
the kernel the directory entry lacks the user bit, and is_user_mapped does not
look at it.
-/
namespace Zohara.UserTables
open PageEntry PageTables TableTree TableHeap KernelTables KernelRuns Mmu

theorem pageVa_frameAddr {j k l : ℕ} (hj : j < 512) (hk : k < 512) (hl : l < 512) :
    FrameAddr (pageVa j k l) := by
  refine ⟨⟨j*0x40000+k*0x200+l,?_⟩,Nat.lt_trans (pageVa_lt hj hk hl) (by decide)⟩
  rw [pageVa]
  ring

theorem pageNumber_va {va : ℕ} (h : va < 2^39) :
    pageNumber (pdptIdx va) (pdIdx va) (ptIdx va) = va/4096 := (pageNumber_idx h).symm

section
variable {m₀ m : Machine} {r U va : ℕ} {owned : Finset ℕ} {done : List Mapping}

section

variable (h : UserOk m₀ r m U owned done)
include h

theorem UserOk.upper (hva : va < 2^39) {d : ℕ}
    (hd : node child (cell m₀) r [0,pdptIdx va] = some d) :
    ∃ Q D, FrameAddr (Q*4096) ∧ FrameAddr (D*4096) ∧
      m.entry (U*4096) (pml4Idx va) = tableEntryUser (Q*4096) ∧
      m.entry (Q*4096) (pdptIdx va) = tableEntryUser (D*4096) ∧
      node child (cell m) U [0,pdptIdx va] = some D := by
  obtain ⟨Q,hQ,hlink⟩ := h.link
  have h0 : pml4Idx va = 0 := by
    rw [pml4Idx_eq]
    omega
  have hnQ : node child (cell m) U [0] = some Q := by
    rw [node, hlink, child_tableEntryUser hQ]
    rfl
  rcases h.pdpt Q (pdptIdx va) hnQ (pdptIdx_lt va) with ⟨hn,-⟩ | ⟨-,D,-,hD,hcell⟩
  · rw [hn] at hd
    cases hd
  · refine ⟨Q,D,hQ,hD,by rw [h0]; exact hlink,hcell,?_⟩
    rw [show ([0,pdptIdx va] : List ℕ) = [0]++[pdptIdx va] from rfl, node_snoc_of hnQ, hcell,
      child_tableEntryUser hD]

theorem UserOk.lower (hva : va < 2^39) {d : ℕ}
    (hd : node child (cell m₀) r [0,pdptIdx va] = some d) :
    ∃ D, node child (cell m) U [0,pdptIdx va] = some D ∧
      (present (cell m D (pdIdx va)) = false →
        translate m (U*4096) va = none ∧ isUserMapped m (U*4096) va = false) ∧
      (present (cell m D (pdIdx va)) = true → large (cell m D (pdIdx va)) = true →
        translate m (U*4096) va = some ⟨blockAddr (cell m D (pdIdx va))+va%2^21,
          writable (cell m D (pdIdx va)),user (cell m D (pdIdx va)),
          noExecute (cell m D (pdIdx va))⟩ ∧
        isUserMapped m (U*4096) va = user (cell m D (pdIdx va))) ∧
      ∀ t, present (cell m D (pdIdx va)) = true → large (cell m D (pdIdx va)) = false →
        tableAddr (cell m D (pdIdx va)) = t*4096 →
        translate m (U*4096) va = (if present (cell m t (ptIdx va)) then
          some ⟨tableAddr (cell m t (ptIdx va))+va%2^12,
            writable (cell m D (pdIdx va)) && writable (cell m t (ptIdx va)),
            user (cell m D (pdIdx va)) && user (cell m t (ptIdx va)),
            noExecute (cell m D (pdIdx va)) || noExecute (cell m t (ptIdx va))⟩ else none) ∧
        isUserMapped m (U*4096) va =
          (present (cell m t (ptIdx va)) && user (cell m t (ptIdx va))) := by
  obtain ⟨Q,D,hQ,hD,h1,h2,hn⟩ := h.upper hva hd
  obtain ⟨p1,w1,u1,-,n1,a1⟩ := tableEntryUser_spec hQ
  obtain ⟨p2,w2,u2,l2,n2,a2⟩ := tableEntryUser_spec hD
  have ht := translate_lower h1 p1 a1 h2 p2 l2 a2
  have hm := isUserMapped_lower h1 p1 a1 h2 p2 a2
  have h3 : m.entry (D*4096) (pdIdx va) = cell m D (pdIdx va) := rfl
  rw [ht, hm, h3]
  refine ⟨D,hn,?_,?_,?_⟩
  · intro p3
    simp [p3]
  · intro p3 l3
    simp [p3, l3, Translation.of, w1, u1, n1, w2, u2, n2]
  · intro t p3 l3 a3
    have h4 : m.entry (t*4096) (ptIdx va) = cell m t (ptIdx va) := rfl
    simp only [p3, l3, a3, h4, Bool.not_true, Bool.false_eq_true, if_false, Translation.of]
    cases present (cell m t (ptIdx va)) <;> simp [w1, u1, n1, w2, u2, n2]

theorem UserOk.view_outside (h0 : pml4Idx va ≠ 0) :
    translate m (U*4096) va = none ∧ isUserMapped m (U*4096) va = false := by
  have hz : m.entry (U*4096) (pml4Idx va) = 0 := h.root _ (pml4Idx_lt va) h0
  simp only [Mmu.translate, isUserMapped, hz, present_zero, Bool.not_false, if_true]
  exact ⟨trivial,trivial⟩

theorem UserOk.view_absent (hva : va < 2^39) (hn : node child (cell m₀) r [0,pdptIdx va] = none) :
    translate m (U*4096) va = none ∧ isUserMapped m (U*4096) va = false := by
  obtain ⟨Q,hQ,hlink⟩ := h.link
  have h0 : pml4Idx va = 0 := by
    rw [pml4Idx_eq]
    omega
  have hnQ : node child (cell m) U [0] = some Q := by
    rw [node, hlink, child_tableEntryUser hQ]
    rfl
  have h1 : m.entry (U*4096) (pml4Idx va) = tableEntryUser (Q*4096) := by
    rw [h0]
    exact hlink
  rcases h.pdpt Q (pdptIdx va) hnQ (pdptIdx_lt va) with ⟨-,hz⟩ | ⟨d,-,hd,-⟩
  · have h2 : m.entry (Q*4096) (pdptIdx va) = 0 := hz
    obtain ⟨p1,-,-,-,-,a1⟩ := tableEntryUser_spec hQ
    unfold Mmu.translate isUserMapped
    simp only [h1, p1, a1, h2, present_zero, Bool.not_true, Bool.not_false, Bool.false_eq_true,
      if_false, if_true]
    exact ⟨trivial,trivial⟩
  · rw [hn] at hd
    cases hd

end

theorem UserOk.directory (ok : KernelOk m₀ r) (h : UserOk m₀ r m U owned done) {j k D t : ℕ}
    (hj : j < 512) (hk : k < 512) (hD : node child (cell m) U [0,j] = some D)
    (ht : node child (cell m) U [0,j,k] = some t) :
    present (cell m D k) = true ∧ large (cell m D k) = false ∧ writable (cell m D k) = true ∧
      noExecute (cell m D k) = false ∧ tableAddr (cell m D k) = t*4096 ∧
      user (cell m D k) = (node child (cell m₀) r [0,j,k]).isNone := by
  have hc : child (cell m D k) = some t := by
    rw [← node_snoc_of hD]
    exact ht
  rcases h.pd j k D hj hk hD with he | ⟨hl,T,hT,hfresh,he⟩
  · cases hn : node child (cell m₀) r [0,j] with
    | none =>
      rw [he, kernelPdEntry, hn, child_zero] at hc
      cases hc
    | some d =>
      rw [kernelPdEntry_eq hn] at he
      rcases ok.slots [0,j] d k ⟨by simp,(path_low hj).2⟩ hn hk with hz | ⟨g,hg,hg'⟩ | ⟨-,-,hl⟩
      · rw [he, hz, child_zero] at hc
        cases hc
      · rw [hg'] at he
        rw [he, child_tableEntry hg] at hc
        obtain rfl := Option.some.inj hc
        obtain ⟨p,w,u,l,n,a⟩ := tableEntry_spec hg
        have hshared : node child (cell m₀) r [0,j,k] = some g := by
          rw [show ([0,j,k] : List ℕ) = [0,j]++[k] from rfl, node_snoc_of hn, hg',
            child_tableEntry hg]
        rw [he, hshared]
        exact ⟨p,l,w,n,a,u⟩
      · rw [he, child_large hl] at hc
        cases hc
  · rw [he, child_tableEntryUser hT] at hc
    cases hc
    obtain ⟨p,w,u,l,n,a⟩ := tableEntryUser_spec hT
    have hnone : node child (cell m₀) r [0,j,k] = none := by
      cases hn : node child (cell m₀) r [0,j,k] with
      | none => rfl
      | some f =>
        have hsame := h.shared j k f hj hk hn
        rw [ht] at hsame
        cases hsame
        exact (hfresh (ok.inUse _ _ (path_three (by decide) hj hk) hn)).elim
    rw [he, hnone]
    exact ⟨p,l,w,n,a,u⟩

theorem UserOk.view_mapped (ok : KernelOk m₀ r) (h : UserOk m₀ r m U owned done)
    (hva : va < 2^39) {d : Mapping} (hm : mappedAt done (va/4096) = some d) :
    isUserMapped m (U*4096) va = true ∧
    translate m (U*4096) va = some ⟨d.frame*4096+va%4096,d.writable,
      (node child (cell m₀) r [0,pdptIdx va,pdIdx va]).isNone,!d.executable⟩ := by
  have hmem := List.mem_of_find?_eq_some hm
  have haddr : d.addr/4096 = va/4096 := by simpa using List.find?_some hm
  obtain ⟨howned,hd39,t,ht⟩ := h.placed d hmem
  have hidx : pdptIdx d.addr = pdptIdx va ∧ pdIdx d.addr = pdIdx va := by
    rw [pageNumber_idx hd39, pageNumber_idx hva] at haddr
    obtain ⟨hj,hk,-⟩ := pageNumber_inj (pdIdx_lt _) (ptIdx_lt _) (pdIdx_lt _) (ptIdx_lt _) haddr
    exact ⟨hj,hk⟩
  rw [hidx.1, hidx.2] at ht
  have hframe := used_frameAddr h.valid (h.owned_used howned)
  have hD : ∃ D, node child (cell m) U [0,pdptIdx va] = some D := by
    rw [show ([0,pdptIdx va,pdIdx va] : List ℕ) = [0,pdptIdx va]++[pdIdx va] from rfl,
      node_snoc] at ht
    obtain ⟨D,hD,-⟩ := Option.bind_eq_some_iff.mp ht
    exact ⟨D,hD⟩
  obtain ⟨D',hD'⟩ := hD
  have hkd : ∃ k, node child (cell m₀) r [0,pdptIdx va] = some k := by
    cases hn : node child (cell m₀) r [0,pdptIdx va] with
    | some k => exact ⟨k,rfl⟩
    | none =>
      obtain ⟨Q,hQ,hlink⟩ := h.link
      have hnQ : node child (cell m) U [0] = some Q := by
        rw [node, hlink, child_tableEntryUser hQ]
        rfl
      rw [show ([0,pdptIdx va] : List ℕ) = [0]++[pdptIdx va] from rfl, node_snoc_of hnQ] at hD'
      rcases h.pdpt Q (pdptIdx va) hnQ (pdptIdx_lt va) with ⟨-,hz⟩ | ⟨k,-,hk,-⟩
      · rw [hz, child_zero] at hD'
        cases hD'
      · rw [hn] at hk
        cases hk
  obtain ⟨k,hk⟩ := hkd
  obtain ⟨D,hD,-,-,hlow⟩ := h.lower hva hk
  obtain ⟨p3,l3,w3,n3,a3,u3⟩ := h.directory ok (pdptIdx_lt va) (pdIdx_lt va) hD ht
  obtain ⟨htr,hmap⟩ := hlow t p3 l3 a3
  have hleaf : cell m t (ptIdx va) = d.leaf := by
    rw [h.leaf _ _ _ t (pdptIdx_lt va) (pdIdx_lt va) (ptIdx_lt va) ht, leafAt, pageNumber_va hva,
      hm]
  obtain ⟨p4,w4,u4,-,n4,-,a4⟩ := page4k_spec hframe d.writable true d.executable
  rw [htr, hmap, hleaf, Mapping.leaf, p4, w4, u4, n4, a4, w3, n3, u3]
  simp

theorem identity_leaf {j k l : ℕ} {e : Entry} (hj : j < 512) (hk : k < 512) (hl : l < 512)
    (he : e = page4k (pageVa j k l) true false true ∨ e = page4kUc (pageVa j k l)) :
    present e = true ∧ writable e = true ∧ user e = false ∧ noExecute e = false ∧
      tableAddr e = pageVa j k l := by
  rcases he with rfl | rfl
  · obtain ⟨p,w,u,-,n,-,a⟩ := page4k_spec (pageVa_frameAddr hj hk hl) true false true
    exact ⟨p,w,u,n,a⟩
  · obtain ⟨p,w,u,-,n,-,a⟩ := page4kUc_spec (pageVa_frameAddr hj hk hl)
    exact ⟨p,w,u,n,a⟩

/-- The leaf of an unmapped page is a supervisor page of the identity mapping,
or absent above 2 GiB. -/
theorem UserOk.unmapped_leaf (id : IdentityOk m₀ r)
    (h : UserOk m₀ r m U owned done) {j k l D t : ℕ} (hj : j < 512) (hk : k < 512) (hl : l < 512)
    (hD : node child (cell m) U [0,j] = some D) (ht : node child (cell m) U [0,j,k] = some t)
    (hn : mappedAt done (pageNumber j k l) = none) : Leaf j k l (cell m t l) := by
  rw [h.leaf j k l t hj hk hl ht, leafAt, hn]
  change Leaf j k l (baseLeaf m₀ r j k l)
  cases hs : node child (cell m₀) r [0,j,k] with
  | some f =>
    simp only [baseLeaf, hs]
    exact id.leaves j k l f hj hk hl hs
  | none =>
    have hc : child (cell m D k) = some t := by
      rw [← node_snoc_of hD]
      exact ht
    have hlarge : large (kernelPdEntry m₀ r j k) = true := by
      rcases h.pd j k D hj hk hD with he | ⟨hl,-⟩
      · rw [he] at hc
        cases hd : node child (cell m₀) r [0,j] with
        | none =>
          rw [kernelPdEntry, hd, child_zero] at hc
          cases hc
        | some d =>
          rw [kernelPdEntry_eq hd, ← node_snoc_of hd] at hc
          rw [show ([0,j,k] : List ℕ) = [0,j]++[k] from rfl, hc] at hs
          cases hs
      · exact hl
    have hblock : kernelPdEntry m₀ r j k = page2mb (pageVa j k 0) := by
      cases hd : node child (cell m₀) r [0,j] with
      | none =>
        rw [kernelPdEntry, hd] at hlarge
        change large 0 = true at hlarge
        exact absurd hlarge (by decide)
      | some d =>
        rw [kernelPdEntry_eq hd] at hlarge ⊢
        rcases id.blocks j k d hj hk hd with hz | hz | hz
        · rw [hz] at hlarge
          exact absurd hlarge (by decide)
        · exact (hz (child_large hlarge)).elim
        · exact hz
    simp only [baseLeaf, hs]
    refine .inl (congrArg (page4k · true false true) ?_)
    rw [hblock, page2mb_block hj hk, pageVa, pageVa]
    omega

/-- A page the task has not mapped is closed to user mode, and below 2 GiB it is
the kernel's identity mapping. -/
theorem UserOk.view_unmapped (ok : KernelOk m₀ r) (id : IdentityOk m₀ r)
    (h : UserOk m₀ r m U owned done) (hva : va < 2^39) (hn : mappedAt done (va/4096) = none) :
    isUserMapped m (U*4096) va = false ∧
    (va < 2^31 → translate m (U*4096) va = some ⟨va,true,false,false⟩) := by
  have hj := pdptIdx_lt va
  have hk := pdIdx_lt va
  have hl := ptIdx_lt va
  have hsum := pageVa_idx hva
  have hj2 : va < 2^31 → pdptIdx va < 2 := fun hlt => (low_idx hlt).2
  cases hd : node child (cell m₀) r [0,pdptIdx va] with
  | none =>
    refine ⟨(h.view_absent hva hd).2,fun hlt => ?_⟩
    obtain ⟨d,hd',-⟩ := ok.low _ (hj2 hlt)
    rw [hd] at hd'
    cases hd'
  | some d =>
    obtain ⟨D,hD,habs,hblk,htab⟩ := h.lower hva hd
    cases hc : child (cell m D (pdIdx va)) with
    | some t =>
      have ht : node child (cell m) U [0,pdptIdx va,pdIdx va] = some t := by
        rw [show ([0,pdptIdx va,pdIdx va] : List ℕ) = [0,pdptIdx va]++[pdIdx va] from rfl,
          node_snoc_of hD, hc]
      obtain ⟨p3,l3,w3,n3,a3,-⟩ := h.directory ok hj hk hD ht
      obtain ⟨htr,hmap⟩ := htab t p3 l3 a3
      have hleaf := h.unmapped_leaf id hj hk hl hD ht (by rw [pageNumber_va hva]; exact hn)
      rw [htr, hmap]
      rcases hleaf with he | he | ⟨hj',hz⟩
      · obtain ⟨p,w,u,n,a⟩ := identity_leaf hj hk hl (.inl he)
        rw [p, w, u, n, a, w3, n3]
        refine ⟨rfl,fun _ => ?_⟩
        simp only [if_true, Bool.and_self, Bool.and_false, Bool.or_self, Option.some.injEq,
          Translation.mk.injEq, and_true]
        exact hsum.symm
      · obtain ⟨p,w,u,n,a⟩ := identity_leaf hj hk hl (.inr he)
        rw [p, w, u, n, a, w3, n3]
        refine ⟨rfl,fun _ => ?_⟩
        simp only [if_true, Bool.and_self, Bool.and_false, Bool.or_self, Option.some.injEq,
          Translation.mk.injEq, and_true]
        exact hsum.symm
      · rw [hz, present_zero]
        refine ⟨rfl,fun hlt => ?_⟩
        have := hj2 hlt
        omega
    | none =>
      have he : cell m D (pdIdx va) = cell m₀ d (pdIdx va) := by
        rcases h.pd _ _ D hj hk hD with he | ⟨-,T,hT,-,he⟩
        · rw [he, kernelPdEntry_eq hd]
        · rw [he, child_tableEntryUser hT] at hc
          cases hc
      rcases id.blocks _ _ d hj hk hd with hz | hz | hz
      · have hp : present (cell m D (pdIdx va)) = false := by rw [he, hz, present_zero]
        refine ⟨(habs hp).2,fun hlt => ?_⟩
        obtain ⟨d',hd',hall⟩ := ok.low _ (hj2 hlt)
        cases hd.symm.trans hd'
        have := hall _ hk
        rw [← he, hp] at this
        cases this
      · rw [← he, hc] at hz
        exact (hz rfl).elim
      · obtain ⟨p,w,u,l,n,a⟩ := page2mb_spec (pageVa_block_dvd (pdptIdx va) (pdIdx va))
          (Nat.lt_trans (pageVa_lt hj hk (by decide)) (by decide))
        rw [← hz, ← he] at p w u l n a
        obtain ⟨htr,hmap⟩ := hblk p l
        rw [htr, hmap, w, u, n, a]
        refine ⟨rfl,fun _ => ?_⟩
        simp only [Option.some.injEq, Translation.mk.injEq, and_true]
        rw [pdptIdx_eq, pdIdx_eq, pageVa]
        omega

/-! ## Writes to the kernel's own data -/

variable {A : Finset ℕ}

theorem UserOk.table_apart (h : UserOk m₀ r m U owned done) (ha : Apart A m₀ r)
    {p : List ℕ} {f : ℕ} (hp : Path 3 512 p) (hf : node child (cell m) U p = some f) : f ∉ A := by
  intro hA
  obtain ⟨-,hn⟩ := h.outside p f hp hf (ha.1 hA)
  exact ha.2 p f hp hn hA

theorem UserOk.translate_apart {m' : Machine} (h : UserOk m₀ r m U owned done)
    (ha : Apart A m₀ r) (hc : Confined (A : Set ℕ) m m') (va : ℕ) :
    translate m' (U*4096) va = translate m (U*4096) va := by
  refine translate_congr (fun p f i hp hf hi => hc.cell (h.table_apart ha hp hf) hi) ?_
  intro i hi hpres
  by_cases h0 : i = 0
  · obtain ⟨Q,hQ,hlink⟩ := h.link
    rw [h0, hlink]
    exact (tableEntryUser_spec hQ).2.2.2.1
  · rw [h.root i hi h0, present_zero] at hpres
    cases hpres

theorem UserOk.read_mapped {m' : Machine} (ok : KernelOk m₀ r)
    (h : UserOk m₀ r m U owned done) (ha : Apart A m₀ r) (hc : Confined (A : Set ℕ) m m')
    (hva : va < 2^39) {d : Mapping} (hm : mappedAt done (va/4096) = some d) :
    readVirt m' (U*4096) va = some (m.mem (d.frame*4096+va%4096)) := by
  unfold readVirt
  rw [h.translate_apart ha hc, (h.view_mapped ok hva hm).2, Option.map_some]
  refine congrArg some (hc.mem _ ?_)
  have howned := (h.placed d (List.mem_of_find?_eq_some hm)).1
  rw [show (d.frame*4096+va%4096)/4096 = d.frame by omega]
  intro hA
  exact (h.owned_fresh _ howned).1 (ha.1 hA)

end

end Zohara.UserTables
