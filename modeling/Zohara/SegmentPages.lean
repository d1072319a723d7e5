import Zohara.TableCost

/-!
# The pages of a segment list

A segment below 2 GiB is mapped by exactly the pages that share a byte with it.
The bound on the page loop in the model is never reached there.
-/
namespace Zohara.SegmentPages
open FrameAllocator PageTables KernelRuns UserTables

/-- With enough fuel and no wrapping the loop visits every page below `fin`. -/
theorem mem_pageWalk {fuel addr fin a : ℕ} (hal : addr%4096 = 0) (hfin : fin ≤ 2^32)
    (hfuel : fin ≤ addr+fuel*4096) :
    a ∈ pageWalk fuel addr fin ↔ addr ≤ a ∧ a < fin ∧ a%4096 = 0 := by
  induction fuel generalizing addr with
  | zero =>
    simp only [pageWalk, List.not_mem_nil, false_iff]
    omega
  | succ fuel ih =>
    rw [pageWalk]
    split_ifs with hlt
    · rw [Nat.mod_eq_of_lt (by omega), List.mem_cons, ih (by omega) (by omega)]
      omega
    · simp only [List.not_mem_nil, false_iff]
      omega

/-- Every segment ends at or below 2 GiB. -/
def Low (segments : List Segment) : Prop := ∀ s ∈ segments, s.vaddr+s.memsz ≤ 2^31

instance (segments : List Segment) : Decidable (Low segments) :=
  inferInstanceAs (Decidable (∀ s ∈ segments, _))

/-- The page at `a` shares a byte with the segment. -/
def Covers (s : Segment) (a : ℕ) : Prop :=
  0 < s.memsz ∧ s.vaddr < a+4096 ∧ a < s.vaddr+s.memsz

theorem mem_pages {s : Segment} (h : s.vaddr+s.memsz ≤ 2^31) {a : ℕ} :
    a ∈ s.pages ↔ a%4096 = 0 ∧ Covers s a := by
  unfold Segment.pages Covers
  rw [Nat.mod_eq_of_lt (by omega : s.vaddr+s.memsz < 2^64)]
  split_ifs with hz
  · simp [hz]
  · rw [mem_pageWalk (by omega) (by omega) (by unfold maxFrameCount maxWords; omega)]
    omega

theorem Low.requests {segments : List Segment} (h : Low segments) :
    ∀ q ∈ userRequests segments, q.1 < 2^31 := by
  intro q hq
  rcases List.mem_append.mp hq with hq | hq
  · obtain ⟨s,hs,hq⟩ := List.mem_flatMap.mp hq
    obtain ⟨a,ha,rfl⟩ := List.mem_map.mp hq
    have hc := ((mem_pages (h s hs)).mp ha).2.2.2
    have hl := h s hs
    dsimp only
    omega
  · rw [List.mem_singleton.mp hq]
    decide

theorem Low.aligned {segments : List Segment} (h : Low segments) :
    ∀ q ∈ userRequests segments, q.1%4096 = 0 := by
  intro q hq
  rcases List.mem_append.mp hq with hq | hq
  · obtain ⟨s,hs,hq⟩ := List.mem_flatMap.mp hq
    obtain ⟨a,ha,rfl⟩ := List.mem_map.mp hq
    exact ((mem_pages (h s hs)).mp ha).1
  · rw [List.mem_singleton.mp hq]
    decide

theorem exists_task (h : List Call) (hlen : h.length ≤ 100) : ∃ m₁ r U frames m₂, ∃ ds : List Mapping,
    KernelRun (bootMachine 0x900000 0x10000000) h m₁ ∧ Reached h m₁ r ∧
    createUserPageTables m₁ [⟨0x400000,0,8,16,5⟩] = some ((U*4096,frames),m₂) ∧
    ds.map Mapping.request = userRequests [⟨0x400000,0,8,16,5⟩] ∧ (ds.map Mapping.frame).Nodup ∧
    UserOk m₁ r m₂ U (ds.map Mapping.frame).toFinset ds.reverse := by
  obtain ⟨m₁,r,-,hr,hreach,hroom⟩ := exists_run h hlen
  have hlow : Low [⟨0x400000,0,8,16,5⟩] := by decide
  obtain ⟨⟨⟨root,frames⟩,m₂⟩,hc⟩ := createUserPageTables_room hreach.ok hlow.requests
    (hroom.weaken (by decide))
  obtain ⟨U,ds,rfl,-,-,hreq,hnodup,-,hok⟩ := createUserPageTables_spec hreach.ok hlow.requests hc
  exact ⟨m₁,r,U,frames,m₂,ds,hr,hreach,hc,hreq,hnodup,hok⟩

end Zohara.SegmentPages
