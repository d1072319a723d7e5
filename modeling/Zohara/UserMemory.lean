import Zohara.UserCopy

/-!
# The memory behind the pages of a caller

The page test is_user_mapped reads a few entries for each address. When the user pages of
a caller do not hold these entries, stores to user pages change neither the test nor any
translation; so a sequence of accesses can be judged by the tables as they were before.

Nothing is assumed about how the tables came about.
-/
namespace Zohara.UserMemory
open ByteMemory PageEntry PageTables TableTree TableHeap KernelTables KernelRuns UserTables Mmu List Option
  UserCopy

/-- The addresses of the entries that a walk reads. -/
def walkReads (m : Machine) (root va : ℕ) : List ℕ :=
  let e1 := m.entry root (pml4Idx va)
  (root+8*pml4Idx va)::if !present e1 then [] else
  let e2 := m.entry (tableAddr e1) (pdptIdx va)
  (tableAddr e1+8*pdptIdx va)::if !present e2 then [] else
  let e3 := m.entry (tableAddr e2) (pdIdx va)
  (tableAddr e2+8*pdIdx va)::if !present e3 || large e3 then [] else [tableAddr e3+8*ptIdx va]

/-- A byte of physical memory behind a user page. -/
def UserMem (m : Machine) (root x : ℕ) : Prop :=
  ∃ va t, Canonical va ∧ isUserMapped m root va = true ∧ translate m root va = some t ∧ t.pa = x

/-- The entries that walks read are not behind user pages. -/
def TablesApart (m : Machine) (root : ℕ) : Prop :=
  ∀ x, UserMem m root x → ∀ va, ∀ a ∈ walkReads m root va, x < a ∨ a+8 ≤ x

/-- Memory outside of the user pages is as it was. -/
def OnlyUser (m : Machine) (root : ℕ) (m' : Machine) : Prop :=
  ∀ x, m'.mem x ≠ m.mem x → UserMem m root x

theorem OnlyUser.refl (m : Machine) (root : ℕ) : OnlyUser m root m := fun _ h => (h rfl).elim

section
variable {m m' : Machine} {root va : ℕ}

theorem walk_congr (h : ∀ a ∈ walkReads m root va, ∀ k < 8, m'.mem (a+k) = m.mem (a+k)) :
    isUserMapped m' root va = isUserMapped m root va ∧
      translate m' root va = translate m root va := by
  have hentry : ∀ t i, t+8*i ∈ walkReads m root va → m'.entry t i = m.entry t i :=
    fun t i hin => readU64_congr (h _ hin)
  have h1 := hentry root (pml4Idx va) mem_cons_self
  unfold walkReads at hentry
  unfold isUserMapped Mmu.translate
  dsimp only at hentry ⊢
  rw [h1]
  generalize m.entry root (pml4Idx va) = e1 at hentry ⊢
  by_cases p1 : present e1 = true
  · have h2 := hentry (tableAddr e1) (pdptIdx va) (by simp [p1])
    simp only [p1, h2]
    generalize m.entry (tableAddr e1) (pdptIdx va) = e2 at hentry ⊢
    by_cases p2 : present e2 = true
    · have h3 := hentry (tableAddr e2) (pdIdx va) (by simp [p1, p2])
      simp only [p2, h3]
      generalize m.entry (tableAddr e2) (pdIdx va) = e3 at hentry ⊢
      by_cases p3 : present e3 = true ∧ large e3 = false
      · have h4 := hentry (tableAddr e3) (ptIdx va) (by simp [p1, p2, p3])
        rw [h4]
        exact ⟨rfl,rfl⟩
      · by_cases hp : present e3 = true
        · simp [hp, show large e3 = true by simpa [hp] using p3]
        · simp [hp]
    · simp [p2]
  · simp [p1]

theorem translate_of_test (h : isUserMapped m root va = true) :
    ∃ t, translate m root va = some t := by
  unfold isUserMapped at h
  unfold Mmu.translate
  dsimp only at h ⊢
  split_ifs at h ⊢ <;> exact ⟨_,rfl⟩

theorem reachable_of_test (h : isUserMapped m root va = true) (hc : Canonical va) :
    reachable m root va = true := by
  obtain ⟨t,ht⟩ := translate_of_test h
  unfold reachable
  rw [ht, decide_eq_true hc]
  rfl

end

section
variable {m m' : Machine} {root va : ℕ}

section

variable (h : OnlyUser m root m') (ht : TablesApart m root)
include h ht

theorem OnlyUser.walk (va : ℕ) : isUserMapped m' root va = isUserMapped m root va ∧
      translate m' root va = translate m root va := by
  refine walk_congr fun a ha k hk => ?_
  by_contra hne
  have := ht _ (h _ hne) va a ha
  omega

theorem OnlyUser.reachable (va : ℕ) : reachable m' root va = reachable m root va := by
  unfold UserCopy.reachable
  rw [(h.walk ht va).2]

theorem OnlyUser.store (hmapped : isUserMapped m root va = true) (hc : Canonical va) (v : UInt8) :
    OnlyUser m root (storeVirt root m' va v) := by
  obtain ⟨t,htr⟩ := translate_of_test hmapped
  intro x hx
  unfold storeVirt at hx
  rw [(h.walk ht va).2, htr] at hx
  dsimp only at hx
  by_cases hpa : x = t.pa
  · exact ⟨va,t,hc,hmapped,htr,hpa.symm⟩
  · refine h x ?_
    rwa [write_outside _ (by rw [length_singleton]; omega)] at hx

end

end


/-! ## The checked copies -/

section
variable {m m' : Machine} {root ptr len : ℕ}

end

/-! ## Tasks that the kernel has built -/

section
variable {m₀ m : Machine} {r U : ℕ} {owned : Finset ℕ} {done : List Mapping}

theorem walkReads_nodes (h : UserOk m₀ r m U owned done) {va a : ℕ}
    (ha : a ∈ walkReads m (U*4096) va) : ∃ p f i, Path 3 512 p ∧
      node child (cell m) U p = some f ∧ i < 512 ∧ a = f*4096+8*i := by
  have i1 := pml4Idx_lt va
  have i2 := pdptIdx_lt va
  have i3 := pdIdx_lt va
  have q0 : Path 3 512 [] := ⟨by simp,by simp⟩
  obtain ⟨Q,hQ,hlink⟩ := h.link
  obtain ⟨p1,-,-,l1,-,a1⟩ := tableEntryUser_spec hQ
  unfold walkReads at ha
  dsimp only at ha
  rcases mem_cons.mp ha with rfl | ha
  · exact ⟨[],U,_,q0,rfl,i1,rfl⟩
  by_cases h0 : pml4Idx va = 0
  · have e1 : m.entry (U*4096) (pml4Idx va) = tableEntryUser (Q*4096) := by
      rw [h0]
      exact hlink
    have n1 : node child (cell m) U [0] = some Q := by
      rw [node, hlink, child_tableEntryUser hQ]
      rfl
    rw [e1, p1, a1, Bool.not_true, if_neg Bool.false_ne_true] at ha
    rcases mem_cons.mp ha with rfl | ha
    · exact ⟨[0],Q,_,⟨by simp,by simp⟩,n1,i2,rfl⟩
    rcases h.pdpt Q (pdptIdx va) n1 i2 with ⟨-,hz⟩ | ⟨d,D,-,hD,hcell⟩
    · have e2 : m.entry (Q*4096) (pdptIdx va) = 0 := hz
      rw [e2, present_zero, Bool.not_false, if_pos rfl] at ha
      cases ha
    · have e2 : m.entry (Q*4096) (pdptIdx va) = tableEntryUser (D*4096) := hcell
      obtain ⟨p2,-,-,l2,-,a2⟩ := tableEntryUser_spec hD
      have n2 : node child (cell m) U [0,pdptIdx va] = some D := by
        rw [node, hlink, child_tableEntryUser hQ, bind_some, node, hcell,
          child_tableEntryUser hD]
        rfl
      rw [e2, p2, a2, Bool.not_true, if_neg Bool.false_ne_true] at ha
      rcases mem_cons.mp ha with rfl | ha
      · exact ⟨_,D,_,path_low i2,n2,i3,rfl⟩
      by_cases hc : (!present (m.entry (D*4096) (pdIdx va)) ||
          large (m.entry (D*4096) (pdIdx va))) = true
      · rw [if_pos hc] at ha
        cases ha
      · rw [if_neg hc] at ha
        rw [Bool.or_eq_true, not_or, Bool.not_eq_true', Bool.not_eq_false] at hc
        have n3 := node_step n2 hc.1 (Bool.eq_false_iff.mpr hc.2)
        refine ⟨_,_,_,path_three (by decide) i2 i3,n3,ptIdx_lt va,?_⟩
        rw [tableAddr_aligned]
        exact mem_singleton.mp ha
  · have e1 : m.entry (U*4096) (pml4Idx va) = 0 := h.root _ i1 h0
    rw [e1, present_zero, Bool.not_false, if_pos rfl] at ha
    cases ha

theorem tablesApart_of_userOk (ok : KernelOk m₀ r) (id : IdentityOk m₀ r)
    (h : UserOk m₀ r m U owned done) : TablesApart m (U*4096) := by
  intro x hx va a ha
  obtain ⟨va',t,hc,hmapped,htr,rfl⟩ := hx
  obtain ⟨d,hd,htr'⟩ := mapped_of_test ok id h hmapped hc
  obtain ⟨p,f,i,hp,hn,hi,rfl⟩ := walkReads_nodes h ha
  cases htr'.symm.trans htr
  have hne : d.frame ≠ f := by
    intro he
    exact (h.owned_fresh d.frame (h.placed d (mem_of_find?_eq_some hd)).1).2 p hp (he ▸ hn)
  dsimp only
  omega

theorem mem_apart {A : Finset ℕ} (ha : Apart A m₀ r) (h : UserOk m₀ r m U owned done)
    {x : ℕ} (hx : x/4096 ∈ A) : m.mem x = m₀.mem x := by
  refine h.kept.mem x ?_
  rintro (hn | ⟨j,k,hj,hk,hf⟩)
  · exact hn (ha.1 hx)
  · exact ha.2 _ _ (path_three (by decide) hj hk) hf hx

end

end Zohara.UserMemory
