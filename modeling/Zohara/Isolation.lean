import Zohara.UserView

/-!
# Isolation of a task's address space

After create_user_page_tables a page below 2^48 is open to user mode exactly when
it belongs to a segment or is the stack page. Each such page has a frame of its
own that was free before, everything else below 2 GiB is the kernel's identity
mapping without user access, and the kernel's own translations are unchanged.

The kernel state is any one reached by proper map_page and map_page_uc calls
that left the 2 MiB blocks under the segments and the stack page whole. The
stack page is mapped last, so its permissions win over those of a segment that
covers it.
-/
namespace Zohara.Isolation
open FrameRefinement PageEntry PageTables TableTree TableHeap KernelTables List Option
  KernelRuns UserTables SegmentPages Mmu

variable {segments : List Segment} {ds : List Mapping} {m : Machine}

instance (s : Segment) (a : ℕ) : Decidable (Covers s a) := inferInstanceAs (Decidable (_ ∧ _ ∧ _))

/-- The last segment of the list that shares a byte with the page at `a`. -/
def lastCovering (segments : List Segment) (a : ℕ) : Option Segment :=
  segments.reverse.find? fun s => decide (Covers s a)

/-- Write and execute permission of a user page: those of the last segment that
covers it, and for the stack page always writable and not executable. -/
def pageBits (segments : List Segment) (a : ℕ) : Option (Bool × Bool) :=
  if a = stackVa then some (true,false)
  else (lastCovering segments a).map fun s => (s.writable,s.executable)

/-- The page of `va` belongs to a segment or is the stack page. -/
def UserPage (segments : List Segment) (va : ℕ) : Prop :=
  (∃ s ∈ segments, Covers s (va/4096*4096)) ∨ va/4096*4096 = stackVa

theorem pageBits_isSome {va : ℕ} :
    (∃ b, pageBits segments (va/4096*4096) = some b) ↔ UserPage segments va := by
  unfold pageBits UserPage
  split_ifs with hs
  · exact ⟨fun _ => .inr hs,fun _ => ⟨_,rfl⟩⟩
  · cases hl : lastCovering segments (va/4096*4096) with
    | none =>
      have hn := find?_eq_none.mp hl
      constructor
      · intro h
        obtain ⟨b,hb⟩ := h
        cases hb
      · intro h
        rcases h with ⟨s,hm,hc⟩ | he
        · exact (hn s (mem_reverse.mpr hm) (decide_eq_true hc)).elim
        · exact (hs he).elim
    | some s =>
      have hc := find?_some (p := fun s => decide (Covers s (va/4096*4096))) hl
      refine ⟨fun _ => .inl ⟨s,?_,of_decide_eq_true hc⟩,fun _ => ⟨_,rfl⟩⟩
      exact mem_reverse.mp (mem_of_find?_eq_some hl)

/-! ## The newest request of a page -/

theorem find_requests {s : Segment} (h : s.vaddr+s.memsz ≤ 2^31) {a : ℕ} (ha : a%4096 = 0) :
    s.requests.reverse.find? (fun q => q.1/4096 == a/4096) =
      if Covers s a then some (a,s.writable,s.executable) else none := by
  split_ifs with hc
  · have hmem : a ∈ s.pages := (mem_pages h).mpr ⟨ha,hc⟩
    cases hf : s.requests.reverse.find? (fun q => q.1/4096 == a/4096) with
    | none =>
      have hn := find?_eq_none.mp hf (a,s.writable,s.executable)
        (mem_reverse.mpr (mem_map.mpr ⟨a,hmem,rfl⟩))
      simp at hn
    | some q =>
      have hq := find?_some hf
      obtain ⟨b,hb,rfl⟩ := mem_map.mp (mem_reverse.mp (mem_of_find?_eq_some hf))
      have hb' := ((mem_pages h).mp hb).1
      have hab : b/4096 = a/4096 := by simpa using hq
      rw [show b = a by omega]
  · refine find?_eq_none.mpr fun q hq => ?_
    obtain ⟨b,hb,rfl⟩ := mem_map.mp (mem_reverse.mp hq)
    obtain ⟨hb',hbc⟩ := (mem_pages h).mp hb
    intro he
    have hab : b/4096 = a/4096 := by simpa using he
    rw [show b = a by omega] at hbc
    exact hc hbc

theorem find_segments (h : Low segments) {a : ℕ} (ha : a%4096 = 0) :
    (segments.flatMap Segment.requests).reverse.find? (fun q => q.1/4096 == a/4096) =
      (lastCovering segments a).map fun s => (a,s.writable,s.executable) := by
  induction segments using List.reverseRecOn with
  | nil => rfl
  | append_singleton segments s ih =>
    have hs := h s (by simp)
    have ih := ih fun t ht => h t (by simp [ht])
    rw [flatMap_append, flatMap_singleton, reverse_append, find?_append,
      find_requests hs ha, ih]
    unfold lastCovering
    rw [reverse_append, reverse_singleton, singleton_append, find?_cons]
    by_cases hc : Covers s a <;> simp [hc]

theorem find_userRequests (h : Low segments) {a : ℕ} (ha : a%4096 = 0) :
    ((userRequests segments).reverse.find? fun q => q.1/4096 == a/4096).map Prod.snd =
      pageBits segments a := by
  unfold userRequests pageBits
  rw [reverse_append, reverse_singleton, singleton_append, find?_cons,
    find_segments h ha]
  have hst : stackVa%4096 = 0 := by decide
  by_cases hs : a = stackVa
  · simp [hs]
  · have hne : (stackVa/4096 == a/4096) = false := beq_eq_false_iff_ne.mpr (by omega)
    rw [if_neg hs, hne, Option.map_map]
    rfl

theorem mappedAt_bits (h : Low segments)
    (hreq : ds.map Mapping.request = userRequests segments) (va : ℕ) :
    (mappedAt ds.reverse (va/4096)).map (fun d => (d.writable,d.executable)) =
      pageBits segments (va/4096*4096) := by
  rw [← find_userRequests h (by omega), ← hreq, ← map_reverse, find?_map, Option.map_map]
  unfold mappedAt
  rw [show va/4096*4096/4096 = va/4096 by omega]
  rfl

theorem mappedAt_userPage (h : Low segments)
    (hreq : ds.map Mapping.request = userRequests segments) {va : ℕ} (hu : UserPage segments va) :
    ∃ d ∈ ds, mappedAt ds.reverse (va/4096) = some d ∧ d.addr = va/4096*4096 ∧
      pageBits segments (va/4096*4096) = some (d.writable,d.executable) := by
  obtain ⟨b,hb⟩ := pageBits_isSome.mpr hu
  obtain ⟨d,hd,hdb⟩ := map_eq_some_iff.mp ((mappedAt_bits h hreq va).trans hb)
  have hmem := mem_reverse.mp (mem_of_find?_eq_some hd)
  have haddr : d.addr/4096 = va/4096 := by simpa using find?_some hd
  have halign : d.addr%4096 = 0 := h.aligned _ (hreq ▸ mem_map_of_mem (f := Mapping.request) hmem)
  refine ⟨d,hmem,hd,by omega,?_⟩
  rw [hb, ← hdb]

/-! ## The kernel's side -/

/-- The page-directory entry that covers an address. -/
def pdEntryOf (m : Machine) (root va : ℕ) : Entry :=
  m.entry (tableAddr (m.entry (tableAddr (m.entry root (pml4Idx va))) (pdptIdx va))) (pdIdx va)

/-- The blocks under the pages to be mapped are still those that init installed. -/
def BlocksWhole (m : Machine) (segments : List Segment) : Prop :=
  ∀ q ∈ userRequests segments, pdEntryOf m m.kernelPml4 q.1 = page2mb (q.1/2^21*2^21)

theorem pdEntryOf_kernel {r va d : ℕ} (ok : KernelOk m r) (hva : va < 2^39)
    (hd : node child (cell m) r [0,pdptIdx va] = some d) :
    pdEntryOf m m.kernelPml4 va = cell m d (pdIdx va) := by
  obtain ⟨K,hK,hKcell,hKaddr⟩ := KernelOk.pdpt ok
  have h0 : pml4Idx va = 0 := by
    rw [pml4Idx_eq]
    omega
  have h1 : m.entry (r*4096) 0 = tableEntry (K*4096) := hKcell
  have hc : child (cell m K (pdptIdx va)) = some d := by
    rw [← node_snoc_of hK]
    exact hd
  have h2 : tableAddr (m.entry (K*4096) (pdptIdx va)) = d*4096 := by
    change tableAddr (cell m K (pdptIdx va)) = d*4096
    rcases ok.slots [0] K (pdptIdx va) ⟨by simp,by simp⟩ hK (pdptIdx_lt va) with hz | ⟨g,hg,he⟩ | ⟨hl,-⟩
    · rw [hz, child_zero] at hc
      cases hc
    · rw [he, child_tableEntry hg] at hc
      cases hc
      rw [he]
      exact (tableEntry_spec hg).2.2.2.2.2
    · simp at hl
  unfold pdEntryOf
  rw [ok.root, h0, h1, (tableEntry_spec hKaddr).2.2.2.2.2, h2]
  rfl

theorem BlocksWhole.no_table {r a : ℕ} (ok : KernelOk m r)
    (h : BlocksWhole m segments) (hlow : Low segments) {q : ℕ × Bool × Bool}
    (hq : q ∈ userRequests segments) (ha : a/2^21 = q.1/2^21) :
    node child (cell m) r [0,pdptIdx a,pdIdx a] = none := by
  have hlt := hlow.requests q hq
  have hidx : pdptIdx a = pdptIdx q.1 ∧ pdIdx a = pdIdx q.1 := by
    rw [pdptIdx_eq, pdptIdx_eq, pdIdx_eq, pdIdx_eq]
    omega
  obtain ⟨d,hd,-⟩ := ok.low _ (low_idx hlt).2
  have he := (pdEntryOf_kernel ok (by omega) hd).symm.trans (h q hq)
  have hl := (page2mb_spec (Nat.dvd_mul_left (2^21) (q.1/2^21)) (by omega)).2.2.2.1
  rw [hidx.1, hidx.2, show ([0,pdptIdx q.1,pdIdx q.1] : List ℕ) = [0,pdptIdx q.1]++[pdIdx q.1]
    from rfl, node_snoc_of hd, he]
  exact child_large hl

theorem blocksWhole_of_untouched {r : ℕ} {h : List Call}
    (hr : Reached h m r) (hp : ∀ c ∈ h, Proper c.virt) (hlow : Low segments)
    (hfar : ∀ q ∈ userRequests segments, ∀ c ∈ h, c.virt/2^21 ≠ q.1/2^21) :
    BlocksWhole m segments := by
  intro q hq
  have hlt := hlow.requests q hq
  obtain ⟨-,hj⟩ := low_idx hlt
  have hk := pdIdx_lt q.1
  obtain ⟨d,hd,hall⟩ := hr.ok.low _ hj
  rw [pdEntryOf_kernel hr.ok (by omega) hd]
  rcases (hr.identity hp).blocks _ _ d (pdptIdx_lt _) hk hd with hz | hz | hz
  · have hpres := hall _ hk
    rw [hz, present_zero] at hpres
    cases hpres
  · obtain ⟨f,hf⟩ := ne_none_iff_exists'.mp hz
    obtain ⟨c,hc,h0,h1,h2⟩ := (hr.opened 0 _ _ (by decide) (pdptIdx_lt q.1) hk).mp ⟨f,by
      rw [show ([0,pdptIdx q.1,pdIdx q.1] : List ℕ) = [0,pdptIdx q.1]++[pdIdx q.1] from rfl,
        node_snoc_of hd, hf]⟩
    have hva := (hp c hc).pageVa h0
    have hqva := pageVa_idx (show q.1 < 2^39 by omega)
    have hl := ptIdx_lt q.1
    have hl' := ptIdx_lt c.virt
    rw [h1, h2] at hva
    rw [pageVa] at hva hqva
    exact (hfar q hq c hc (by omega)).elim
  · rw [hz]
    have hqva := pageVa_idx (show q.1 < 2^39 by omega)
    have hl := ptIdx_lt q.1
    rw [pageVa] at hqva
    refine congrArg page2mb ?_
    rw [pageVa]
    omega

theorem kernel_translate_eq {m' : Machine} {r : ℕ} (ok : KernelOk m r)
    (hroot : m'.kernelPml4 = m.kernelPml4) (hcell : SameTree m m' r) (va : ℕ) :
    translate m' m'.kernelPml4 va = translate m m.kernelPml4 va := by
  rw [hroot, ok.root]
  refine translate_congr hcell fun i hi hp => ?_
  rcases ok.slots [] r i ⟨by simp,by simp⟩ rfl hi with hz | ⟨a,ha,he⟩ | ⟨hl,-⟩
  · rw [hz, present_zero] at hp
    cases hp
  · rw [he]
    exact (tableEntry_spec ha).2.2.2.1
  · simp at hl

/-! ## The task's side -/

/-- What an address space looks like from outside: which pages are open to user
mode, where they lead, and that nothing else has changed. -/
structure Isolated (segments : List Segment) (m₁ m₂ : Machine) (root : ℕ) : Prop where
  mapped_iff : ∀ va < 2^48, isUserMapped m₂ root va = true ↔ UserPage segments va
  user_page : ∀ va, UserPage segments va → ∃ f b, f ∉ used m₁ ∧ f ∈ used m₂ ∧
    pageBits segments (va/4096*4096) = some b ∧
    translate m₂ root va = some ⟨f*4096+va%4096,b.1,true,!b.2⟩
  distinct : ∀ va va' t t', UserPage segments va → UserPage segments va' →
    translate m₂ root va = some t → translate m₂ root va' = some t' →
    t.pa/4096 = t'.pa/4096 → va/4096 = va'/4096
  supervisor : ∀ va < 2^31, ¬UserPage segments va →
    translate m₂ root va = some ⟨va,true,false,false⟩
  kernel : ∀ va, translate m₂ m₂.kernelPml4 va = translate m₁ m₁.kernelPml4 va

theorem UserPage.low (h : Low segments) {va : ℕ}
    (hu : UserPage segments va) : va < 2^31 := by
  rcases hu with ⟨s,hs,hc⟩ | he
  · have hlow := h s hs
    have hc := hc.2.2
    omega
  · have hst : stackVa = 0x500000 := rfl
    omega

section
variable {m₁ m₂ : Machine} {r U : ℕ} {segments : List Segment} {ds : List Mapping}

theorem kernel_cells (ok : KernelOk m₁ r) (hlow : Low segments) (hw : BlocksWhole m₁ segments)
    (hreq : ds.map Mapping.request = userRequests segments)
    (h : UserOk m₁ r m₂ U (ds.map Mapping.frame).toFinset ds.reverse) {p : List ℕ} {f i : ℕ}
    (hp : Path 3 512 p) (hf : node child (cell m₁) r p = some f) (hi : i < 512) :
    cell m₂ f i = cell m₁ f i := by
  have hu := ok.inUse p f hp hf
  by_cases hs : Shared m₁ r f
  · obtain ⟨j,k,hj,hk,hn⟩ := hs
    have hn₂ := h.shared j k f hj hk hn
    rw [h.leaf j k i f hj hk hi hn₂, leafAt]
    have hm : mappedAt ds.reverse (pageNumber j k i) = none := by
      refine find?_eq_none.mpr fun d hd he => ?_
      have hd' := mem_reverse.mp hd
      have hq : d.request ∈ userRequests segments := hreq ▸ mem_map_of_mem hd'
      have haddr := hlow.requests _ hq
      have hnum : d.addr/4096 = pageNumber j k i := by simpa using he
      have hnone := hw.no_table ok hlow hq (a := d.addr) rfl
      have hd39 : d.addr < 2^39 := by
        have : d.addr < 2^31 := haddr
        omega
      rw [pageNumber_idx hd39] at hnum
      obtain ⟨rfl,rfl,-⟩ := pageNumber_inj (pdIdx_lt _) (ptIdx_lt _) hk hi hnum
      rw [hn] at hnone
      cases hnone
    rw [hm]
    simp only [baseLeaf, hn]
  · refine h.kept.cell ?_ hi
    intro hmem
    rcases hmem with hn | hn
    · exact hn hu
    · exact hs hn

theorem isolated_of_built (ok : KernelOk m₁ r) (id : IdentityOk m₁ r) (hlow : Low segments)
    (hw : BlocksWhole m₁ segments) (hreq : ds.map Mapping.request = userRequests segments)
    (hnodup : (ds.map Mapping.frame).Nodup)
    (h : UserOk m₁ r m₂ U (ds.map Mapping.frame).toFinset ds.reverse) :
    Isolated segments m₁ m₂ (U*4096) := by
  have hbits := mappedAt_bits hlow hreq
  have hunmapped : ∀ va, ¬UserPage segments va → mappedAt ds.reverse (va/4096) = none := by
    intro va hu
    cases hm : mappedAt ds.reverse (va/4096) with
    | none => rfl
    | some d =>
      have hb := hbits va
      rw [hm] at hb
      exact (hu (pageBits_isSome.mp ⟨_,hb.symm⟩)).elim
  have hview : ∀ va d, UserPage segments va → mappedAt ds.reverse (va/4096) = some d →
      isUserMapped m₂ (U*4096) va = true ∧
      translate m₂ (U*4096) va = some ⟨d.frame*4096+va%4096,d.writable,true,!d.executable⟩ := by
    intro va d hu hd
    have hva := hu.low hlow
    have hmem := mem_reverse.mp (mem_of_find?_eq_some hd)
    have haddr : d.addr/4096 = va/4096 := by simpa using find?_some hd
    have hq : d.request ∈ userRequests segments := hreq ▸ mem_map_of_mem hmem
    have hnone : node child (cell m₁) r [0,pdptIdx va,pdIdx va] = none := by
      refine hw.no_table ok hlow hq ?_
      change va/2^21 = d.addr/2^21
      omega
    have hv := h.view_mapped ok (by omega) hd
    rw [hnone] at hv
    exact hv
  refine ⟨?_,?_,?_,?_,?_⟩
  · intro va hva
    by_cases hu : UserPage segments va
    · obtain ⟨d,-,hd,-,-⟩ := mappedAt_userPage hlow hreq hu
      exact ⟨fun _ => hu,fun _ => (hview va d hu hd).1⟩
    · refine ⟨fun ht => ?_,fun hc => (hu hc).elim⟩
      by_cases h39 : va < 2^39
      · rw [(h.view_unmapped ok id h39 (hunmapped va hu)).1] at ht
        cases ht
      · have h0 : pml4Idx va ≠ 0 := by
          rw [pml4Idx_eq]
          omega
        rw [(h.view_outside h0).2] at ht
        cases ht
  · intro va hu
    obtain ⟨d,hmem,hd,-,hb⟩ := mappedAt_userPage hlow hreq hu
    have howned : d.frame ∈ (ds.map Mapping.frame).toFinset :=
      mem_toFinset.mpr (mem_map_of_mem hmem)
    exact ⟨d.frame,_,(h.owned_fresh _ howned).1,h.owned_used howned,hb,(hview va d hu hd).2⟩
  · intro va va' t t' hu hu' ht ht' hpa
    obtain ⟨d,hmem,hd,-,-⟩ := mappedAt_userPage hlow hreq hu
    obtain ⟨d',hmem',hd',-,-⟩ := mappedAt_userPage hlow hreq hu'
    rw [(hview va d hu hd).2] at ht
    rw [(hview va' d' hu' hd').2] at ht'
    cases ht
    cases ht'
    have hframe : d.frame = d'.frame := by
      dsimp only at hpa
      omega
    obtain rfl : d = d' := inj_on_of_nodup_map hnodup hmem hmem' hframe
    have ha : d.addr/4096 = va/4096 := by simpa using find?_some hd
    have ha' : d.addr/4096 = va'/4096 := by simpa using find?_some hd'
    exact ha.symm.trans ha'
  · intro va hva hu
    exact (h.view_unmapped ok id (by omega) (hunmapped va hu)).2 hva
  · exact kernel_translate_eq ok h.kept.kernelPml4 fun p f i hp hf hi =>
      kernel_cells ok hlow hw hreq h hp hf hi

end

/-- With enough free frames the call completes and the new address space is
isolated, whatever the segments and whatever the kernel has mapped elsewhere. -/
theorem createUserPageTables_isolates {m₀ m₁ : Machine} {h : List Call} {segments : List Segment}
    (hv : Valid m₀.frames) (hr : KernelRun m₀ h m₁) (hp : ∀ c ∈ h, Proper c.virt)
    (hlow : Low segments) (hw : BlocksWhole m₁ segments)
    (hroom : Room m₁ (514+2*(userRequests segments).length)) :
    ∃ root frames m₂, createUserPageTables m₁ segments = some ((root,frames),m₂) ∧
      Isolated segments m₁ m₂ root := by
  obtain ⟨r,hreach⟩ := kernelRun_reached hv hr
  obtain ⟨⟨⟨root,frames⟩,m₂⟩,hc⟩ := createUserPageTables_room hreach.ok hlow.requests hroom
  obtain ⟨U,ds,rfl,-,-,hreq,hnodup,-,hok⟩ := createUserPageTables_spec hreach.ok hlow.requests hc
  exact ⟨U*4096,frames,m₂,hc,
    isolated_of_built hreach.ok (hreach.identity hp) hlow hw hreq hnodup hok⟩

theorem codePage_mapped {m₁ m₂ : Machine} {r U : ℕ} {owned : Finset ℕ}
    (ok : KernelOk m₁ r) (hreq : ds.map Mapping.request = userRequests [⟨0x400000,0,8,16,5⟩])
    (hok : UserOk m₁ r m₂ U owned ds.reverse) {x : ℕ} (hx : x/4096 = 0x400) :
    isUserMapped m₂ (U*4096) x = true := by
  have hlow : Low [⟨0x400000,0,8,16,5⟩] := by decide
  obtain ⟨d,hd,-⟩ := map_eq_some_iff.mp
    ((mappedAt_bits hlow hreq 0x400000).trans (show _ = some (false,true) by decide))
  have hd' : mappedAt ds.reverse (x/4096) = some d := hx.symm ▸ hd
  exact (hok.view_mapped ok (by omega) hd').1

/-- Code at the base address, with the local APIC mapped above 2 GiB. -/
theorem createUserPageTables_isolates_one_page : ∃ m₁ root frames m₂,
    KernelRun (bootMachine 0x900000 0x10000000) [.mapPageUc 0xFEE00000] m₁ ∧
    BlocksWhole m₁ [⟨0x400000,0,8,16,5⟩] ∧
    createUserPageTables m₁ [⟨0x400000,0,8,16,5⟩] = some ((root,frames),m₂) ∧
    Isolated [⟨0x400000,0,8,16,5⟩] m₁ m₂ root := by
  obtain ⟨m₁,r,hv,hr,hreach,hroom⟩ := exists_run [.mapPageUc 0xFEE00000] (by decide)
  have hw : BlocksWhole m₁ [⟨0x400000,0,8,16,5⟩] :=
    blocksWhole_of_untouched hreach (by decide) (by decide) (by decide)
  obtain ⟨root,frames,m₂,hc,hi⟩ := createUserPageTables_isolates hv hr (by decide) (by decide) hw
    (hroom.weaken (by decide))
  exact ⟨m₁,root,frames,m₂,hr,hw,hc,hi⟩

/-- A read-only code segment over the stack page: the page becomes writable and
not executable, although the only segment covering it says the opposite. -/
theorem stack_page_overrides_segment : ∃ m₁ root frames m₂ t,
    KernelRun (bootMachine 0x900000 0x10000000) [] m₁ ∧
    BlocksWhole m₁ [⟨0x500000,0,8,16,5⟩] ∧
    createUserPageTables m₁ [⟨0x500000,0,8,16,5⟩] = some ((root,frames),m₂) ∧
    lastCovering [⟨0x500000,0,8,16,5⟩] 0x500000 = some ⟨0x500000,0,8,16,5⟩ ∧
    (Segment.mk 0x500000 0 8 16 5).writable = false ∧
    (Segment.mk 0x500000 0 8 16 5).executable = true ∧
    translate m₂ root 0x500000 = some t ∧ t.writable = true ∧ t.noExecute = true := by
  obtain ⟨m₁,r,-,hr,hreach,hroom⟩ := exists_run [] (by decide)
  have hlow : Low [⟨0x500000,0,8,16,5⟩] := by decide
  have hw : BlocksWhole m₁ [⟨0x500000,0,8,16,5⟩] :=
    blocksWhole_of_untouched hreach (by decide) hlow (by decide)
  obtain ⟨⟨⟨root,frames⟩,m₂⟩,hc⟩ := createUserPageTables_room hreach.ok hlow.requests
    (hroom.weaken (by decide))
  obtain ⟨U,ds,rfl,-,-,hreq,hnodup,-,hok⟩ := createUserPageTables_spec hreach.ok hlow.requests hc
  have hi := isolated_of_built hreach.ok (hreach.identity (by decide)) hlow hw hreq hnodup hok
  obtain ⟨f,b,-,-,hb,ht⟩ := hi.user_page 0x500000 (.inr rfl)
  obtain rfl : (true,false) = b := some.inj hb
  exact ⟨m₁,U*4096,frames,m₂,_,hr,hw,hc,by decide,by decide,by decide,ht,rfl,rfl⟩

end Zohara.Isolation
