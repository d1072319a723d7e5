import Zohara.KernelRuns

/-!
# The page tables of a task

`UserOk` describes a task's hierarchy next to the kernel's: which tables are
private, which last-level tables are shared with the kernel, what every cell
holds, and which frames belong to the task. It is established by the cloning
step of create_user_page_tables and kept by every page mapped afterwards.

A page directory is copied cell by cell, so a block that the kernel has split
already is not copied: both directories point to one and the same table. That
sharing is part of the invariant. Addresses are assumed to lie below 2 GiB
where pages are mapped; the kernel state is any reachable one.
-/
namespace Zohara.UserTables
open FrameRefinement PageEntry PageTables TableTree TableHeap List Option
  KernelTables KernelRuns

/-! ## Cloning the kernel's directories -/

/-- The cloning loop has treated the first `n` slots of the kernel's PDPT `K`. -/
structure Cloned (m₀ : Machine) (K U Q n : ℕ) (m : Machine) : Prop where
  valid : Valid m.frames
  count : m.frames.actualFrameCount = m₀.frames.actualFrameCount
  kept : Confined {f | f ∉ used m₀} m₀ m
  subset : used m₀ ⊆ used m
  root_used : U ∈ used m
  root_fresh : U ∉ used m₀
  pdpt_used : Q ∈ used m
  pdpt_fresh : Q ∉ used m₀
  distinct : U ≠ Q
  root_cell : ∀ i < 512, cell m U i = 0
  later : ∀ j < 512, n ≤ j → cell m Q j = 0
  skipped : ∀ j < 512, child (cell m₀ K j) = none → cell m Q j = 0
  copied : ∀ j < n, ∀ d, child (cell m₀ K j) = some d → ∃ D, cell m Q j = tableEntryUser (D*4096) ∧
    D ∈ used m ∧ D ∉ used m₀ ∧ D ≠ U ∧ D ≠ Q ∧ ∀ k < 512, cell m D k = cell m₀ d k
  apart : ∀ i j D, i < 512 → j < 512 → child (cell m Q i) = some D →
    child (cell m Q j) = some D → i = j
  covers : ∀ f ∈ used m, f ∈ used m₀ ∨ f = U ∨ f = Q ∨ ∃ j < 512, child (cell m Q j) = some f

section
variable {m₀ m m' : Machine} {r K U Q n d D : ℕ}

section

variable (h : Cloned m₀ K U Q n m)
include h

theorem Cloned.cell {f i : ℕ} (hf : f ∈ used m₀) (hi : i < 512) :
    TableHeap.cell m f i = TableHeap.cell m₀ f i :=
  h.kept.cell (fun hn => hn hf) hi

theorem Cloned.child_used {j D : ℕ} (hj : j < 512)
    (hD : child (TableHeap.cell m Q j) = some D) : D ∈ used m := by
  by_cases hn : n ≤ j
  · rw [h.later j hj hn, child_zero] at hD
    cases hD
  · cases hc : child (TableHeap.cell m₀ K j) with
    | none =>
      rw [h.skipped j hj hc, child_zero] at hD
      cases hD
    | some d =>
      obtain ⟨E,he,hu,-⟩ := h.copied j (by omega) d hc
      rw [he, child_tableEntryUser (used_frameAddr h.valid hu)] at hD
      exact some.inj hD ▸ hu

theorem Cloned.skip (hc : child (TableHeap.cell m₀ K n) = none) : Cloned m₀ K U Q (n+1) m := by
  refine ⟨h.valid,h.count,h.kept,h.subset,h.root_used,h.root_fresh,h.pdpt_used,h.pdpt_fresh,
    h.distinct,h.root_cell,?_,h.skipped,?_,h.apart,h.covers⟩
  · intro j hj hn
    exact h.later j hj (by omega)
  · intro j hj d hd
    have hne : j ≠ n := by
      rintro rfl
      rw [hc] at hd
      cases hd
    exact h.copied j (by omega) d hd

theorem Cloned.copy (hn : n < 512) (hc : child (TableHeap.cell m₀ K n) = some d)
    (hs : Installs m m' Q n D tableEntryUser fun k => TableHeap.cell m₀ d k) :
    Cloned m₀ K U Q (n+1) m' := by
  have hsub : used m ⊆ used m' := by
    rw [hs.used_eq]
    exact Finset.subset_insert _ _
  have hDm : D ∉ used m₀ := fun hD => hs.fresh (h.subset hD)
  have hDU : D ≠ U := fun he => hs.fresh (he ▸ h.root_used)
  have hDQ : D ≠ Q := fun he => hs.fresh (he ▸ h.pdpt_used)
  have hQ : ∀ j < 512, TableHeap.cell m' Q j =
      if j = n then tableEntryUser (D*4096) else TableHeap.cell m Q j := by
    intro j hj
    rw [hs.cells Q j hj hDQ.symm]
    simp
  have hother : ∀ f j, j < 512 → f ≠ D → f ≠ Q → TableHeap.cell m' f j = TableHeap.cell m f j := by
    intro f j hj hfD hfQ
    rw [hs.cells f j hj hfD, if_neg fun he => hfQ he.1]
  refine ⟨hs.valid,hs.count.trans h.count,?_,h.subset.trans hsub,hsub h.root_used,h.root_fresh,
    hsub h.pdpt_used,h.pdpt_fresh,h.distinct,?_,?_,?_,?_,?_,?_⟩
  · refine h.kept.trans (hs.confined.mono ?_)
    intro f hf
    rcases hf with rfl | rfl
    · exact h.pdpt_fresh
    · exact hDm
  · intro i hi
    rw [hother U i hi hDU.symm h.distinct]
    exact h.root_cell i hi
  · intro j hj hnj
    rw [hQ j hj, if_neg (by omega)]
    exact h.later j hj (by omega)
  · intro j hj hnone
    rw [hQ j hj, if_neg]
    · exact h.skipped j hj hnone
    · rintro rfl
      rw [hc] at hnone
      cases hnone
  · intro j hj e he
    by_cases hjn : j = n
    · subst hjn
      obtain rfl : d = e := some.inj (hc.symm.trans he)
      refine ⟨D,by rw [hQ j hn, if_pos rfl],?_,hDm,hDU,hDQ,hs.table⟩
      rw [hs.used_eq]
      exact Finset.mem_insert_self _ _
    · obtain ⟨E,hE,hu,hf,hEU,hEQ,hk⟩ := h.copied j (by omega) e he
      refine ⟨E,by rw [hQ j (by omega), if_neg hjn, hE],hsub hu,hf,hEU,hEQ,fun k hk' => ?_⟩
      rw [hother E k hk' (fun he => hs.fresh (he ▸ hu)) hEQ]
      exact hk k hk'
  · intro i j E hi hj hEi hEj
    rw [hQ i hi] at hEi
    rw [hQ j hj] at hEj
    split_ifs at hEi hEj with hin hjn hjn
    · rw [hin, hjn]
    · rw [child_tableEntryUser hs.addr] at hEi
      exact (hs.fresh (some.inj hEi ▸ h.child_used hj hEj)).elim
    · rw [child_tableEntryUser hs.addr] at hEj
      exact (hs.fresh (some.inj hEj ▸ h.child_used hi hEi)).elim
    · exact h.apart i j E hi hj hEi hEj
  · intro f hf
    rw [hs.used_eq] at hf
    rcases Finset.mem_insert.mp hf with rfl | hf
    · refine .inr (.inr (.inr ⟨n,hn,?_⟩))
      rw [hQ n hn, if_pos rfl, child_tableEntryUser hs.addr]
    · rcases h.covers f hf with hf | hf | hf | ⟨j,hj,hjf⟩
      · exact .inl hf
      · exact .inr (.inl hf)
      · exact .inr (.inr (.inl hf))
      · refine .inr (.inr (.inr ⟨j,hj,?_⟩))
        rw [hQ j hj, if_neg, hjf]
        rintro rfl
        rw [h.later j hj le_rfl, child_zero] at hjf
        cases hjf

end

section

variable (ok : KernelOk m₀ r) (hK : node child (TableHeap.cell m₀) r [0] = some K)
include ok hK

theorem cloneSlot_spec (h : Cloned m₀ K U Q n m) (hn : n < 512)
    (hs : cloneSlot (K*4096) (Q*4096) m n = some m') : Cloned m₀ K U Q (n+1) m' := by
  have hp : Path 2 512 [0] := ⟨by simp,by simp⟩
  have hKu := ok.inUse [0] K (hp.weaken (by decide)) hK
  have hentry : m.entry (K*4096) n = TableHeap.cell m₀ K n := h.cell hKu hn
  unfold cloneSlot at hs
  rw [hentry] at hs
  rcases ok.slots [0] K n hp hK hn with he | ⟨d,hd,he⟩ | ⟨hl,-⟩
  · rw [he, if_pos (by decide : (!present 0) = true)] at hs
    cases hs
    exact h.skip (by rw [he]; exact child_zero)
  · have hchild : child (TableHeap.cell m₀ K n) = some d := by rw [he, child_tableEntry hd]
    have hdu : d ∈ used m₀ := by
      refine ok.inUse [0,n] d (path_low hn) ?_
      rw [show ([0,n] : List ℕ) = [0]++[n] from rfl, node_snoc_of hK, hchild]
    obtain ⟨hpres,-,-,hlarge,-,haddr⟩ := tableEntry_spec hd
    rw [he, if_neg (by simp [hpres]), if_neg (by simp [hlarge]), haddr] at hs
    obtain ⟨⟨pa,m₁⟩,ha,hs⟩ := bind_eq_some_iff.mp hs
    obtain ⟨D,rfl,hal⟩ := allocTableOrHalt_some h.valid ha
    cases hs
    have hdD : d ≠ D := fun hdD => hal.fresh (hdD ▸ h.subset hdu)
    obtain ⟨hz,hzf,hzc⟩ := zeroTable_spec m₁ D
    obtain ⟨hc,hf,-,hcell⟩ := foldl_setEntry (m₁.zeroTable (D*4096)) D
      (fun m k => m.entry (d*4096) k) (fun m i k e hi hk => by
        change TableHeap.cell (m.setEntry (D*4096) i e) d k = TableHeap.cell m d k
        rw [cell_setEntry m D hi hk, if_neg fun h => hdD h.1]) le_rfl
    refine h.copy hn hchild (installs_of hal (hz.trans hc) (hf.trans hzf) ?_ h.pdpt_used hn)
    intro k hk
    rw [hcell D k hk, if_pos ⟨rfl,hk⟩]
    change TableHeap.cell (m₁.zeroTable (D*4096)) d k = _
    rw [hzc d k hk, if_neg hdD, hal.cell, h.cell hdu hk]
  · simp at hl

theorem cloneSlots_spec (h : Cloned m₀ K U Q 0 m) (hn : n ≤ 512)
    (hs : (List.range n).foldlM (cloneSlot (K*4096) (Q*4096)) m = some m') :
    Cloned m₀ K U Q n m' := by
  induction n generalizing m' with
  | zero =>
    cases hs
    exact h
  | succ n ih =>
    rw [range_succ, foldlM_append] at hs
    obtain ⟨x,hx,hs⟩ := bind_eq_some_iff.mp hs
    obtain ⟨y,hy,hs⟩ := bind_eq_some_iff.mp hs
    cases hs
    exact cloneSlot_spec ok hK (ih (by omega) hx) (by omega) hy

end

theorem KernelOk.pdpt (ok : KernelOk m₀ r) : ∃ K, node child (TableHeap.cell m₀) r [0] = some K ∧
    cell m₀ r 0 = tableEntry (K*4096) ∧ FrameAddr (K*4096) := by
  obtain ⟨d,hd,-⟩ := ok.low 0 (by decide)
  rw [node] at hd
  obtain ⟨K,hK,-⟩ := bind_eq_some_iff.mp hd
  refine ⟨K,by rw [node, hK]; rfl,?_⟩
  rcases ok.slots [] r 0 ⟨by simp,by simp⟩ rfl (by decide) with he | ⟨g,hg,he⟩ | ⟨hl,-⟩
  · rw [he, child_zero] at hK
    cases hK
  · rw [he, child_tableEntry hg] at hK
    cases hK
    exact ⟨he,hg⟩
  · simp at hl

theorem cloned_start {x y : Machine} (hU : Allocated m₀ U x)
    (hQ : Allocated (x.zeroTable (U*4096)) Q y) : Cloned m₀ K U Q 0 (y.zeroTable (Q*4096)) := by
  obtain ⟨hzu,hzuf,hzuc⟩ := zeroTable_spec x U
  obtain ⟨hzq,hzqf,hzqc⟩ := zeroTable_spec y Q
  have hused : used (x.zeroTable (U*4096)) = Insert.insert U (used m₀) := by
    unfold used
    rw [hzuf]
    exact hU.used_eq
  have husedq : used (y.zeroTable (Q*4096)) = Insert.insert Q (Insert.insert U (used m₀)) := by
    unfold used
    rw [hzqf]
    exact hQ.used_eq.trans (congrArg (Insert.insert Q) hused)
  have hQfresh : Q ∉ Insert.insert U (used m₀) := hused ▸ hQ.fresh
  have hUQ : U ≠ Q := fun he => hQfresh (he ▸ Finset.mem_insert_self _ _)
  have hQm : Q ∉ used m₀ := fun he => hQfresh (Finset.mem_insert_of_mem he)
  have hQcell : ∀ j < 512, TableHeap.cell (y.zeroTable (Q*4096)) Q j = 0 := by
    intro j hj
    rw [hzqc Q j hj, if_pos rfl]
  refine ⟨?_,?_,?_,?_,?_,hU.fresh,?_,hQm,hUQ,?_,fun j hj _ => hQcell j hj,
    fun j hj _ => hQcell j hj,fun j hj => (Nat.not_lt_zero j hj).elim,?_,?_⟩
  · rw [hzqf]
    exact hQ.valid
  · rw [hzqf, hQ.count, hzuf, hU.count]
  · refine (((hU.confined _).trans (hzu.mono ?_)).trans (hQ.confined _)).trans (hzq.mono ?_)
    · rintro f rfl
      exact hU.fresh
    · rintro f rfl
      exact hQm
  · rw [husedq]
    exact (Finset.subset_insert _ _).trans (Finset.subset_insert _ _)
  · simp [husedq]
  · simp [husedq]
  · intro i hi
    rw [hzqc U i hi, if_neg hUQ, hQ.cell, hzuc U i hi, if_pos rfl]
  · intro i j D hi hj hD
    rw [hQcell i hi, child_zero] at hD
    cases hD
  · intro f hf
    rw [husedq, Finset.mem_insert, Finset.mem_insert] at hf
    rcases hf with rfl | rfl | hf
    · exact .inr (.inr (.inl rfl))
    · exact .inr (.inl rfl)
    · exact .inl hf

theorem clone_reads_pdpt {x : Machine} (ok : KernelOk m₀ r) (hU : Allocated m₀ U x)
    (hKcell : TableHeap.cell m₀ r 0 = tableEntry (K*4096)) (hKaddr : FrameAddr (K*4096)) :
    tableAddr ((x.zeroTable (U*4096)).entry (x.zeroTable (U*4096)).kernelPml4 0) = K*4096 := by
  obtain ⟨hzu,-,hzuc⟩ := zeroTable_spec x U
  have hru : r ∈ used m₀ := ok.inUse [] r ⟨by simp,by simp⟩ rfl
  rw [hzu.kernelPml4, hU.kernelPml4, ok.root]
  change tableAddr (TableHeap.cell (x.zeroTable (U*4096)) r 0) = _
  rw [hzuc r 0 (by decide), if_neg (fun he : r = U => hU.fresh (he ▸ hru)), hU.cell, hKcell]
  exact (tableEntry_spec hKaddr).2.2.2.2.2

theorem cloneKernel_spec {pa : ℕ} (ok : KernelOk m₀ r)
    (h : cloneKernel m₀ = some (pa,m')) : ∃ K U Q m, pa = U*4096 ∧
      node child (TableHeap.cell m₀) r [0] = some K ∧ Cloned m₀ K U Q 512 m ∧
      m' = m.setEntry (U*4096) 0 (tableEntryUser (Q*4096)) := by
  obtain ⟨⟨pu,x⟩,hu,h⟩ := bind_eq_some_iff.mp h
  obtain ⟨U,rfl,hU⟩ := allocTableOrHalt_some ok.valid hu
  obtain ⟨⟨pq,y⟩,hq,h⟩ := bind_eq_some_iff.mp h
  have hvx : Valid (x.zeroTable (U*4096)).frames := by
    rw [zeroTable_frames]
    exact hU.valid
  obtain ⟨Q,rfl,hQ⟩ := allocTableOrHalt_some hvx hq
  obtain ⟨z,hz,h⟩ := bind_eq_some_iff.mp h
  cases h
  obtain ⟨K,hK,hKcell,hKaddr⟩ := KernelOk.pdpt ok
  refine ⟨K,U,Q,z,rfl,hK,cloneSlots_spec ok hK (cloned_start hU hQ) le_rfl ?_,rfl⟩
  rw [← clone_reads_pdpt ok hU hKcell hKaddr]
  exact hz

/-- The tables of a freshly cloned hierarchy, each with its path. -/
inductive CloneNode (m₀ : Machine) (r U Q : ℕ) (m : Machine) : List ℕ → ℕ → Prop
  | root : CloneNode m₀ r U Q m [] U
  | pdpt : CloneNode m₀ r U Q m [0] Q
  | dir {j D d : ℕ} : j < 512 → child (cell m Q j) = some D → node child (cell m₀) r [0,j] = some d →
      D ∈ used m → D ∉ used m₀ → D ≠ U → D ≠ Q → (∀ k < 512, cell m D k = cell m₀ d k) →
      CloneNode m₀ r U Q m [0,j] D
  | shared {j k f : ℕ} : j < 512 → k < 512 → node child (cell m₀) r [0,j,k] = some f →
      CloneNode m₀ r U Q m [0,j,k] f

theorem cell_linked {f i : ℕ} (hi : i < 512) :
    TableHeap.cell (m.setEntry (U*4096) 0 (tableEntryUser (Q*4096))) f i =
      if f = U ∧ i = 0 then tableEntryUser (Q*4096) else TableHeap.cell m f i :=
  cell_setEntry m U (by decide) hi _ f

section

variable (h : Cloned m₀ K U Q 512 m)
include h

theorem Cloned.dir (hK : node child (TableHeap.cell m₀) r [0] = some K)
    {j D : ℕ} (hj : j < 512) (hD : child (TableHeap.cell m Q j) = some D) :
    ∃ d, node child (TableHeap.cell m₀) r [0,j] = some d ∧
      TableHeap.cell m Q j = tableEntryUser (D*4096) ∧ D ∈ used m ∧ D ∉ used m₀ ∧ D ≠ U ∧ D ≠ Q ∧
      ∀ k < 512, TableHeap.cell m D k = TableHeap.cell m₀ d k := by
  cases hc : child (TableHeap.cell m₀ K j) with
  | none =>
    rw [h.skipped j hj hc, child_zero] at hD
    cases hD
  | some d =>
    obtain ⟨E,he,hu,hrest⟩ := h.copied j hj d hc
    have hED := hD
    rw [he, child_tableEntryUser (used_frameAddr h.valid hu)] at hED
    cases hED
    refine ⟨d,?_,he,hu,hrest⟩
    rw [show ([0,j] : List ℕ) = [0]++[j] from rfl, node_snoc_of hK, hc]

theorem Cloned.node_cases
    (hK : node child (TableHeap.cell m₀) r [0] = some K) {p : List ℕ} {f : ℕ} (hp : Path 3 512 p)
    (hf : node child (TableHeap.cell (m.setEntry (U*4096) 0 (tableEntryUser (Q*4096)))) U p =
      some f) : CloneNode m₀ r U Q m p f := by
  cases p with
  | nil =>
    cases hf
    exact .root
  | cons i p =>
    rw [node, cell_linked (hp.2 i (by simp))] at hf
    split_ifs at hf with hi
    · obtain ⟨-,rfl⟩ := hi
      rw [child_tableEntryUser (used_frameAddr h.valid h.pdpt_used), bind_some] at hf
      cases p with
      | nil =>
        cases hf
        exact .pdpt
      | cons j p =>
        have hj : j < 512 := hp.2 j (by simp)
        rw [node, cell_linked hj, if_neg fun he => h.distinct he.1.symm] at hf
        obtain ⟨D,hD,hf⟩ := bind_eq_some_iff.mp hf
        obtain ⟨d,hd,-,hu,hfresh,hDU,hDQ,hcopy⟩ := h.dir hK hj hD
        cases p with
        | nil =>
          cases hf
          exact .dir hj hD hd hu hfresh hDU hDQ hcopy
        | cons k p =>
          have hk : k < 512 := hp.2 k (by simp)
          rw [node, cell_linked hk, if_neg fun he => hDU he.1, hcopy k hk] at hf
          obtain ⟨T,hT,hf⟩ := bind_eq_some_iff.mp hf
          cases p with
          | nil =>
            cases hf
            refine .shared hj hk ?_
            rw [show ([0,j,k] : List ℕ) = [0,j]++[k] from rfl, node_snoc_of hd, hT]
          | cons x p =>
            have hlen := hp.1
            simp only [length_cons] at hlen
            omega
    · rw [h.root_cell i (hp.2 i (by simp)), child_zero] at hf
      cases hf

theorem Cloned.node_pdpt :
    node child (TableHeap.cell (m.setEntry (U*4096) 0 (tableEntryUser (Q*4096)))) U [0] =
      some Q := by
  rw [node, cell_linked (by decide), if_pos ⟨rfl,rfl⟩,
    child_tableEntryUser (used_frameAddr h.valid h.pdpt_used)]
  rfl

theorem Cloned.node_dir {j D : ℕ} (hj : j < 512) (hD : child (TableHeap.cell m Q j) = some D) :
    node child (TableHeap.cell (m.setEntry (U*4096) 0 (tableEntryUser (Q*4096)))) U [0,j] =
      some D := by
  rw [show ([0,j] : List ℕ) = [0]++[j] from rfl, node_snoc_of h.node_pdpt, cell_linked hj,
    if_neg fun he => h.distinct he.1.symm, hD]

/-- Every last-level table of the kernel below PML4[0] is shared. -/
theorem Cloned.node_shared
    (hK : node child (TableHeap.cell m₀) r [0] = some K) {j k f : ℕ} (hj : j < 512) (hk : k < 512)
    (hf : node child (TableHeap.cell m₀) r [0,j,k] = some f) :
    node child (TableHeap.cell (m.setEntry (U*4096) 0 (tableEntryUser (Q*4096)))) U [0,j,k] =
      some f := by
  rw [show ([0,j,k] : List ℕ) = [0,j]++[k] from rfl, node_snoc] at hf
  obtain ⟨d,hd,hf⟩ := bind_eq_some_iff.mp hf
  have hc : child (TableHeap.cell m₀ K j) = some d := by
    rw [← node_snoc_of hK]
    exact hd
  obtain ⟨D,hD,hu,-,hDU,-,hcopy⟩ := h.copied j hj d hc
  have hchild : child (TableHeap.cell m Q j) = some D := by
    rw [hD, child_tableEntryUser (used_frameAddr h.valid hu)]
  rw [show ([0,j,k] : List ℕ) = [0,j]++[k] from rfl, node_snoc_of (h.node_dir hj hchild),
    cell_linked hk, if_neg fun he => hDU he.1, hcopy k hk, hf]

theorem Cloned.pd_copied
    (hK : node child (TableHeap.cell m₀) r [0] = some K) {j k D : ℕ} (hj : j < 512) (hk : k < 512)
    (hD : node child (TableHeap.cell (m.setEntry (U*4096) 0 (tableEntryUser (Q*4096)))) U [0,j] =
      some D) :
    ∃ d, node child (TableHeap.cell m₀) r [0,j] = some d ∧
      TableHeap.cell (m.setEntry (U*4096) 0 (tableEntryUser (Q*4096))) D k =
        TableHeap.cell m₀ d k := by
  cases h.node_cases hK (path_low hj) hD with
  | @dir _ _ d _ _ hd _ _ hDU _ hcopy =>
    refine ⟨d,hd,?_⟩
    rw [cell_linked hk, if_neg fun he => hDU he.1, hcopy k hk]

end

theorem Cloned.separate (ok : KernelOk m₀ r) (h : Cloned m₀ K U Q 512 m)
    (hK : node child (TableHeap.cell m₀) r [0] = some K) :
    Separate child (TableHeap.cell (m.setEntry (U*4096) 0 (tableEntryUser (Q*4096)))) U 3 512 := by
  have hused : ∀ {j k f}, j < 512 → k < 512 →
      node child (TableHeap.cell m₀) r [0,j,k] = some f → f ∈ used m₀ :=
    fun hj hk hf => ok.inUse _ _ (path_three (by decide) hj hk) hf
  intro p q f hp hq hpf hqf
  have hcp := h.node_cases hK hp hpf
  have hcq := h.node_cases hK hq hqf
  cases hcp with
  | root =>
    cases hcq with
    | root => rfl
    | pdpt => exact (h.distinct rfl).elim
    | dir _ _ _ _ _ hDU _ _ => exact (hDU rfl).elim
    | shared hj hk hf => exact (h.root_fresh (hused hj hk hf)).elim
  | pdpt =>
    cases hcq with
    | root => exact (h.distinct rfl).elim
    | pdpt => rfl
    | dir _ _ _ _ _ _ hDQ _ => exact (hDQ rfl).elim
    | shared hj hk hf => exact (h.pdpt_fresh (hused hj hk hf)).elim
  | dir hj hD _ _ hfresh hDU hDQ _ =>
    cases hcq with
    | root => exact (hDU rfl).elim
    | pdpt => exact (hDQ rfl).elim
    | dir hj' hD' _ _ _ _ _ _ => rw [h.apart _ _ f hj hj' hD hD']
    | shared hj hk hf => exact (hfresh (hused hj hk hf)).elim
  | shared hj hk hf =>
    cases hcq with
    | root => exact (h.root_fresh (hused hj hk hf)).elim
    | pdpt => exact (h.pdpt_fresh (hused hj hk hf)).elim
    | dir _ _ _ _ hfresh _ _ _ => exact (hfresh (hused hj hk hf)).elim
    | shared hj' hk' hf' =>
      exact ok.separate _ _ f (path_three (by decide) hj hk)
        (path_three (by decide) hj' hk') hf hf'

end

/-! ## The invariant of a task's hierarchy -/

/-- A page of the task: its address, its permissions and its frame. -/
structure Mapping where
  addr : ℕ
  writable : Bool
  executable : Bool
  frame : ℕ
  deriving DecidableEq, Repr

def Mapping.leaf (d : Mapping) : Entry :=
  page4k (d.frame*4096) d.writable true d.executable

def pageNumber (j k l : ℕ) : ℕ := j*0x40000+k*0x200+l

/-- The newest mapping of a page; `done` lists the newest mapping first. -/
def mappedAt (done : List Mapping) (n : ℕ) : Option Mapping :=
  done.find? fun d => d.addr/4096 == n

/-- The cell of the kernel's page directory `j`. -/
def kernelPdEntry (m₀ : Machine) (r j k : ℕ) : Entry :=
  match node child (cell m₀) r [0,j] with
  | some d => cell m₀ d k
  | none => 0

/-- The leaf a task starts from: the shared table's, or a page of the block. -/
def baseLeaf (m₀ : Machine) (r j k l : ℕ) : Entry :=
  match node child (cell m₀) r [0,j,k] with
  | some t => cell m₀ t l
  | none => page4k (blockAddr (kernelPdEntry m₀ r j k)+l*0x1000) true false true

def leafAt (m₀ : Machine) (r : ℕ) (done : List Mapping) (j k l : ℕ) : Entry :=
  match mappedAt done (pageNumber j k l) with
  | some d => d.leaf
  | none => baseLeaf m₀ r j k l

/-- Last-level tables of the kernel below PML4[0]. -/
def Shared (m₀ : Machine) (r f : ℕ) : Prop :=
  ∃ j k, j < 512 ∧ k < 512 ∧ node child (cell m₀) r [0,j,k] = some f

/-- The hierarchy at `U`, grown from the kernel state `m₀`, in which the task
owns the frames `owned` and the pages `done` have been mapped. -/
structure UserOk (m₀ : Machine) (r : ℕ) (m : Machine) (U : ℕ) (owned : Finset ℕ)
    (done : List Mapping) : Prop where
  valid : Valid m.frames
  count : m.frames.actualFrameCount = m₀.frames.actualFrameCount
  kept : Confined {f | f ∉ used m₀ ∨ Shared m₀ r f} m₀ m
  separate : Separate child (cell m) U 3 512
  used_iff : ∀ f, f ∈ used m ↔ f ∈ used m₀ ∨ f ∈ owned ∨
    ∃ p, Path 3 512 p ∧ node child (cell m) U p = some f
  owned_fresh : ∀ f ∈ owned, f ∉ used m₀ ∧ ∀ p, Path 3 512 p → node child (cell m) U p ≠ some f
  outside : ∀ p f, Path 3 512 p → node child (cell m) U p = some f → f ∈ used m₀ →
    p.length = 3 ∧ node child (cell m₀) r p = some f
  shared : ∀ j k f, j < 512 → k < 512 → node child (cell m₀) r [0,j,k] = some f →
    node child (cell m) U [0,j,k] = some f
  root : ∀ i < 512, i ≠ 0 → cell m U i = 0
  link : ∃ Q, FrameAddr (Q*4096) ∧ cell m U 0 = tableEntryUser (Q*4096)
  pdpt : ∀ Q j, node child (cell m) U [0] = some Q → j < 512 →
    (node child (cell m₀) r [0,j] = none ∧ cell m Q j = 0) ∨
    ∃ d D, node child (cell m₀) r [0,j] = some d ∧ FrameAddr (D*4096) ∧
      cell m Q j = tableEntryUser (D*4096)
  pd : ∀ j k D, j < 512 → k < 512 → node child (cell m) U [0,j] = some D →
    cell m D k = kernelPdEntry m₀ r j k ∨
    (large (kernelPdEntry m₀ r j k) = true ∧
      ∃ T, FrameAddr (T*4096) ∧ T ∉ used m₀ ∧ cell m D k = tableEntryUser (T*4096))
  leaf : ∀ j k l t, j < 512 → k < 512 → l < 512 → node child (cell m) U [0,j,k] = some t →
    cell m t l = leafAt m₀ r done j k l
  placed : ∀ d ∈ done, d.frame ∈ owned ∧ d.addr < 2^39 ∧
    ∃ t, node child (cell m) U [0,pdptIdx d.addr,pdIdx d.addr] = some t

/-- The pages of the task have not been written to yet. -/
def Zeroed (m : Machine) (owned : Finset ℕ) : Prop :=
  ∀ f ∈ owned, ∀ x, x/4096 = f → m.mem x = 0

theorem Zeroed.frames {m : Machine} {ds : List Mapping} (h : Zeroed m (ds.map Mapping.frame).toFinset) :
    ∀ d ∈ ds, ∀ k < 4096, m.mem (d.frame*4096+k) = 0 := by
  intro d hd k hk
  exact h d.frame (List.mem_toFinset.mpr (List.mem_map_of_mem hd)) _ (by omega)

theorem kernelPdEntry_eq {m₀ : Machine} {r j d : ℕ}
    (h : node child (cell m₀) r [0,j] = some d) (k : ℕ) : kernelPdEntry m₀ r j k = cell m₀ d k := by
  rw [kernelPdEntry, h]

theorem cloneKernel_ok {m₀ m' : Machine} {r pa : ℕ} (ok : KernelOk m₀ r)
    (h : cloneKernel m₀ = some (pa,m')) : ∃ U, pa = U*4096 ∧ U ∉ used m₀ ∧
      UserOk m₀ r m' U ∅ [] := by
  obtain ⟨K,U,Q,m,rfl,hK,hc,rfl⟩ := cloneKernel_spec ok h
  refine ⟨U,rfl,hc.root_fresh,?_⟩
  have hQaddr := used_frameAddr hc.valid hc.pdpt_used
  refine ⟨hc.valid,hc.count,?_,hc.separate ok hK,?_,by simp,?_,
    fun j k f hj hk hf => hc.node_shared hK hj hk hf,?_,⟨Q,hQaddr,?_⟩,?_,?_,?_,by simp⟩
  · refine (hc.kept.mono fun f hf => Or.inl hf).trans
      ((setEntry_confined m U (by decide) _).mono ?_)
    intro f hf
    exact .inl (hf ▸ hc.root_fresh)
  · intro f
    constructor
    · intro hf
      rcases hc.covers f hf with hf | rfl | rfl | ⟨j,hj,hjf⟩
      · exact .inl hf
      · exact .inr (.inr ⟨[],⟨by simp,by simp⟩,rfl⟩)
      · exact .inr (.inr ⟨[0],⟨by simp,by simp⟩,hc.node_pdpt⟩)
      · exact .inr (.inr ⟨[0,j],path_low hj,hc.node_dir hj hjf⟩)
    · rintro (hf | hf | ⟨p,hp,hf⟩)
      · exact hc.subset hf
      · simp at hf
      · cases hc.node_cases hK hp hf with
        | root => exact hc.root_used
        | pdpt => exact hc.pdpt_used
        | dir _ _ _ hu _ _ _ _ => exact hu
        | shared hj hk hf => exact hc.subset (ok.inUse _ _ (path_three (by decide) hj hk) hf)
  · intro p f hp hf hu
    cases hc.node_cases hK hp hf with
    | root => exact (hc.root_fresh hu).elim
    | pdpt => exact (hc.pdpt_fresh hu).elim
    | dir _ _ _ _ hfresh _ _ _ => exact (hfresh hu).elim
    | shared _ _ hf => exact ⟨rfl,hf⟩
  · intro i hi hne
    rw [cell_linked hi, if_neg fun he => hne he.2]
    exact hc.root_cell i hi
  · rw [cell_linked (by decide), if_pos ⟨rfl,rfl⟩]
  · intro Q' j hQ' hj
    obtain rfl : Q = Q' := some.inj (hc.node_pdpt.symm.trans hQ')
    rw [cell_linked hj, if_neg fun he => hc.distinct he.1.symm,
      show ([0,j] : List ℕ) = [0]++[j] from rfl, node_snoc_of hK]
    cases hcj : child (cell m₀ K j) with
    | none => exact .inl ⟨rfl,hc.skipped j hj hcj⟩
    | some d =>
      obtain ⟨D,hD,hu,-⟩ := hc.copied j hj d hcj
      exact .inr ⟨d,D,rfl,used_frameAddr hc.valid hu,hD⟩
  · intro j k D hj hk hD
    obtain ⟨d,hd,hcopy⟩ := hc.pd_copied hK hj hk hD
    rw [hcopy, kernelPdEntry_eq hd]
    exact .inl rfl
  · intro j k l t hj hk hl ht
    cases hc.node_cases hK (path_three (by decide) hj hk) ht with
    | shared _ _ hf =>
      have hu := ok.inUse _ _ (path_three (by decide) hj hk) hf
      have htU : t ≠ U := fun he => hc.root_fresh (he ▸ hu)
      rw [cell_linked hl, if_neg fun he => htU he.1, hc.cell hu hl]
      simp only [leafAt, mappedAt, find?_nil, baseLeaf, hf]

end Zohara.UserTables
