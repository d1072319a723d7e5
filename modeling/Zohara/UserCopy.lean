import Zohara.Isolation

/-!
# Copying between kernel and user memory (src/usercopy.rs)

copy_from_user and copy_to_user test one address of each page with
is_user_mapped and then access the raw pointer. The access is made in kernel
mode under the task's root, so it needs a canonical address and a present page;
anything else is a fault taken by the kernel. Supervisor writes ignore the write
bit, because the boot code leaves CR0.WP clear.

The loop variable wraps at 2^64 as in the release build. A range that never
leaves the loop is the outcome `hang`; twice the number of pages in the address
space are enough turns to tell. `touched` records the accesses that were tried,
the faulting one included.
-/
namespace Zohara.UserCopy
open ByteMemory FrameAllocator FrameRefinement PageTables TableTree TableHeap List Option
  KernelTables KernelRuns UserTables SegmentPages Mmu Isolation

def efault : Int := -14

def maxUserCopy : ℕ := 512

inductive Outcome where
  | ok (n : ℕ)
  | err (code : Int)
  | panic
  | fault (addr : ℕ)
  | hang
  deriving DecidableEq, Repr

structure Copy (σ : Type) where
  outcome : Outcome
  state : σ
  touched : List (ℕ × ℕ)

/-- The loop shared by both directions: `mapped` is the page test, `reach` says
whether the processor completes the access, and `move` transfers one chunk, with
no result when a slice index is out of range. -/
def copyChunks {σ : Type} (mapped reach : σ → ℕ → Bool) (move : σ → ℕ → ℕ → Option σ)
    (len fin : ℕ) : ℕ → ℕ → σ → List (ℕ × ℕ) → Copy σ
  | 0,_,s,touched => ⟨.hang,s,touched⟩
  | turns+1,addr,s,touched =>
    if addr < fin then
      let pageEnd := (addr/4096*4096+4096)%2^64
      let chunkEnd := min fin pageEnd
      let copyLen := (chunkEnd+2^64-addr)%2^64
      if !mapped s addr then ⟨.err efault,s,touched⟩ else
      match move s addr copyLen with
      | none => ⟨.panic,s,touched⟩
      | some s' =>
        if reach s addr then
          copyChunks mapped reach move len fin turns pageEnd s' (touched++[(addr,copyLen)])
        else ⟨.fault addr,s,touched++[(addr,copyLen)]⟩
    else ⟨.ok len,s,touched⟩

def turns : ℕ := 2^53+2

/-- A kernel-mode access under the root `cr3` completes. -/
def reachable (m : Machine) (cr3 addr : ℕ) : Bool :=
  decide (Canonical addr) && (translate m cr3 addr).isSome

/-- copy_nonoverlapping into kernel_buf[off..off + n]. -/
def moveIn (m : Machine) (cr3 userPtr : ℕ) (buf : Memory) (addr n : ℕ) : Option Memory :=
  let off := (addr+2^64-userPtr)%2^64
  let fin := (off+n)%2^64
  if fin < off ∨ maxUserCopy < fin then none
  else some (write buf off ((List.range n).map fun i => (readVirt m cr3 (addr+i)).getD 0))

def copyFromUser (m : Machine) (cr3 userPtr len : ℕ) (buf : Memory) : Copy Memory :=
  if len > maxUserCopy then ⟨.err efault,buf,[]⟩
  else if len = 0 then ⟨.ok 0,buf,[]⟩
  else if userPtr+len ≥ 2^64 then ⟨.err efault,buf,[]⟩
  else copyChunks (fun _ => isUserMapped m cr3) (fun _ => reachable m cr3) (moveIn m cr3 userPtr)
    len (userPtr+len) turns userPtr buf []

/-- One byte stored through the tables. -/
def storeVirt (cr3 : ℕ) (m : Machine) (va : ℕ) (v : UInt8) : Machine :=
  match translate m cr3 va with
  | some t => {m with mem := write m.mem t.pa [v]}
  | none => m

/-- copy_nonoverlapping from kernel_src.add(off); the state is the machine and
src_off. -/
def moveOut (cr3 : ℕ) (src : ℕ → UInt8) (s : Machine × ℕ) (addr n : ℕ) : Option (Machine × ℕ) :=
  some ((List.range n).foldl (fun m i => storeVirt cr3 m (addr+i) (src (s.2+i))) s.1,
    (s.2+n)%2^64)

def copyToUser (m : Machine) (cr3 userPtr : ℕ) (src : ℕ → UInt8) (len : ℕ) :
    Copy (Machine × ℕ) :=
  if len = 0 then ⟨.ok 0,(m,0),[]⟩
  else if userPtr+len ≥ 2^64 then ⟨.err efault,(m,0),[]⟩
  else copyChunks (fun s => isUserMapped s.1 cr3) (fun s => reachable s.1 cr3) (moveOut cr3 src)
    len (userPtr+len) turns userPtr (m,0) []

/-- The loop of copy_from_user_cstr, from the `i`-th byte on. -/
def cstrLoop (m : Machine) (cr3 userPtr : ℕ) : ℕ → ℕ → List UInt8 → List (ℕ × ℕ) →
    Copy (List UInt8)
  | 0,i,buf,touched => ⟨.ok i,buf,touched⟩
  | left+1,i,buf,touched =>
    let addr := (userPtr+i)%2^64
    if !isUserMapped m cr3 addr then ⟨.err efault,buf,touched⟩ else
    if !reachable m cr3 addr then ⟨.fault addr,buf,touched++[(addr,1)]⟩ else
    let byte := (readVirt m cr3 addr).getD 0
    if byte = 0 then ⟨.ok i,buf,touched++[(addr,1)]⟩
    else cstrLoop m cr3 userPtr left (i+1) (buf++[byte]) (touched++[(addr,1)])

/-- The bytes are those of the string; a text that is no UTF-8 becomes empty. -/
def copyFromUserCstr (m : Machine) (cr3 userPtr maxLen : ℕ) : Copy (List UInt8) :=
  let r := cstrLoop m cr3 userPtr (min maxLen 255) 0 [] []
  {r with state := if (ByteArray.mk r.state.toArray).validateUTF8 then r.state else []}

/-- The accesses that took place, without one that faulted. -/
def Copy.completed {σ : Type} (c : Copy σ) : List (ℕ × ℕ) :=
  match c.outcome with
  | .fault _ => c.touched.dropLast
  | _ => c.touched

/-! ## The loop -/

/-- Chunk starts that pass the page test, up to the first that does not. -/
def acceptedFrom (mapped : ℕ → Bool) (fin : ℕ) : ℕ → ℕ → List ℕ
  | 0,_ => []
  | turns+1,addr =>
    if addr < fin ∧ mapped addr = true then
      addr::acceptedFrom mapped fin turns (addr/4096*4096+4096)
    else []

/-- What one call of the loop has done, in terms of the accepted chunks. -/
structure LoopDone (test : ℕ → Bool) (len fin n addr : ℕ) (before : List (ℕ × ℕ))
    (outcome : Outcome) (touched : List (ℕ × ℕ)) : Prop where
  inside : ∀ c ∈ touched, c ∈ before ∨
    (c.1 ∈ acceptedFrom test fin n addr ∧ c.1+c.2 ≤ c.1/4096*4096+4096)
  reached : (∃ b ∈ acceptedFrom test fin n addr, ¬Canonical b ∧ ∃ k, 0 < k ∧ (b,k) ∈ touched) ∨
    ∀ a ∈ acceptedFrom test fin n addr, ∃ k, 0 < k ∧ (a,k) ∈ touched
  result : (∀ a ∈ acceptedFrom test fin n addr, Canonical a) →
    (outcome = .ok len ∧ ∀ x, addr ≤ x → x < fin →
      ∃ a ∈ acceptedFrom test fin n addr, a/4096 = x/4096) ∨ outcome = .err efault
  kept : ∀ c ∈ before, c ∈ touched

section
variable {test : ℕ → Bool} {len fin n addr k : ℕ} {before touched : List (ℕ × ℕ)}
  {outcome : Outcome}

theorem acceptedFrom_stop (h : ¬(addr < fin ∧ test addr = true)) :
    acceptedFrom test fin (n+1) addr = [] := if_neg h

theorem acceptedFrom_go (h : addr < fin) (ht : test addr = true) :
    acceptedFrom test fin (n+1) addr =
      addr::acceptedFrom test fin n (addr/4096*4096+4096) := if_pos ⟨h,ht⟩

theorem turns_left (h : fin+4096 ≤ addr/4096*4096+(n+1)*4096) :
    fin+4096 ≤ (addr/4096*4096+4096)/4096*4096+n*4096 := by
  have hq : (addr/4096*4096+4096)/4096 = addr/4096+1 := by omega
  rw [hq, ← Nat.add_mul, Nat.add_right_comm, Nat.add_assoc, Nat.add_mul]
  exact h

theorem LoopDone.stop (h : ¬(addr < fin ∧ test addr = true))
    (ho : (outcome = .ok len ∧ fin ≤ addr) ∨ outcome = .err efault) :
    LoopDone test len fin (n+1) addr before outcome before := by
  refine ⟨fun c hc => .inl hc,.inr ?_,fun _ => ?_,fun c hc => hc⟩
  · rw [acceptedFrom_stop h]
    simp
  · rcases ho with ⟨ho,hle⟩ | ho
    · refine .inl ⟨ho,fun x hx hxf => ?_⟩
      omega
    · exact .inr ho

theorem LoopDone.step (h : addr < fin) (ht : test addr = true) (hk : 0 < k)
    (hp : addr+k ≤ addr/4096*4096+4096)
    (hd : LoopDone test len fin n (addr/4096*4096+4096) (before++[(addr,k)]) outcome touched) :
    LoopDone test len fin (n+1) addr before outcome touched := by
  have hgo := acceptedFrom_go (n := n) h ht
  refine ⟨fun c hc => ?_,?_,fun hall => ?_,(forall_mem_append.mp hd.kept).1⟩
  · rw [hgo]
    rcases hd.inside c hc with hc | ⟨hc,hle⟩
    · rcases mem_append.mp hc with hc | hc
      · exact .inl hc
      · obtain rfl := mem_singleton.mp hc
        exact .inr ⟨mem_cons_self,hp⟩
    · exact .inr ⟨mem_cons_of_mem _ hc,hle⟩
  · rw [hgo]
    rcases hd.reached with ⟨b,hb,hrest⟩ | hall
    · exact .inl ⟨b,mem_cons_of_mem _ hb,hrest⟩
    · refine .inr fun a ha => ?_
      rcases mem_cons.mp ha with rfl | ha
      · exact ⟨k,hk,hd.kept _ (by simp)⟩
      · exact hall a ha
  · rw [hgo] at hall ⊢
    rcases hd.result (forall_mem_cons.mp hall).2 with ⟨ho,hcov⟩ | ho
    · refine .inl ⟨ho,fun x hx hxf => ?_⟩
      by_cases hlt : x < addr/4096*4096+4096
      · exact ⟨addr,mem_cons_self,by omega⟩
      · obtain ⟨a,ha,he⟩ := hcov x (by omega) hxf
        exact ⟨a,mem_cons_of_mem _ ha,he⟩
    · exact .inr ho

end

variable {test : ℕ → Bool}

theorem canonical_page {a b : ℕ} (h : a/4096 = b/4096) (ha : Canonical a) : Canonical b := by
  unfold Canonical at ha ⊢
  omega

theorem idx_page {a b : ℕ} (h : a/4096 = b/4096) : pml4Idx a = pml4Idx b ∧
    pdptIdx a = pdptIdx b ∧ pdIdx a = pdIdx b ∧ ptIdx a = ptIdx b := by
  simp only [pml4Idx_eq, pdptIdx_eq, pdIdx_eq, ptIdx_eq]
  omega

variable {m : Machine} {root a b : ℕ}

theorem isUserMapped_page (h : a/4096 = b/4096) :
    isUserMapped m root a = isUserMapped m root b := by
  obtain ⟨h1,h2,h3,h4⟩ := idx_page h
  simp only [isUserMapped, h1, h2, h3, h4]

theorem isUserMapped_mask (m : Machine) (root va : ℕ) :
    isUserMapped m root va = isUserMapped m root (va%2^48) := by
  have h1 : pml4Idx (va%2^48) = pml4Idx va := by
    simp only [pml4Idx_eq]
    omega
  have h2 : pdptIdx (va%2^48) = pdptIdx va := by
    simp only [pdptIdx_eq]
    omega
  have h3 : pdIdx (va%2^48) = pdIdx va := by
    simp only [pdIdx_eq]
    omega
  have h4 : ptIdx (va%2^48) = ptIdx va := by
    simp only [ptIdx_eq]
    omega
  simp only [isUserMapped, h1, h2, h3, h4]

section
variable {m₀ m m' : Machine} {r U a n ptr len : ℕ} {owned : Finset ℕ} {done : List Mapping}

section

variable (ok : KernelOk m₀ r) (id : IdentityOk m₀ r) (h : UserOk m₀ r m U owned done)
include ok id h

theorem isUserMapped_eq (a : ℕ) : isUserMapped m (U*4096) a =
      (decide (pml4Idx a = 0) && (mappedAt done (a%2^48/4096)).isSome) := by
  by_cases h0 : pml4Idx a = 0
  · have hlow : a%2^48 < 2^39 := by
      rw [pml4Idx_eq] at h0
      omega
    rw [isUserMapped_mask, decide_eq_true h0, Bool.true_and]
    cases hm : mappedAt done (a%2^48/4096) with
    | none => exact (h.view_unmapped ok id hlow hm).1
    | some d => exact (h.view_mapped ok hlow hm).1
  · rw [(h.view_outside h0).2, decide_eq_false h0, Bool.false_and]

theorem mapped_of_test (ht : isUserMapped m (U*4096) a = true) (hc : Canonical a) :
    ∃ d, mappedAt done (a/4096) = some d ∧
      translate m (U*4096) a = some ⟨d.frame*4096+a%4096,d.writable,
        (node child (cell m₀) r [0,pdptIdx a,pdIdx a]).isNone,!d.executable⟩ := by
  rw [isUserMapped_eq ok id h, Bool.and_eq_true, decide_eq_true_eq, pml4Idx_eq] at ht
  have hlow : a < 2^39 := by
    unfold Canonical at hc
    omega
  obtain ⟨d,hd⟩ := isSome_iff_exists.mp ht.2
  rw [Nat.mod_eq_of_lt (by omega)] at hd
  exact ⟨d,hd,(h.view_mapped ok hlow hd).2⟩

end

section

variable (ok : KernelOk m₀ r) (id : IdentityOk m₀ r) (h : UserOk m₀ r m U owned done)
include ok id h

/-- A store to a canonical address that passes the test lands in a frame of the
task, so the hierarchy is untouched. -/
theorem storeVirt_ok (ht : isUserMapped m (U*4096) a = true) (hc : Canonical a)
    (v : UInt8) : UserOk m₀ r (storeVirt (U*4096) m a v) U owned done := by
  obtain ⟨d,hd,htr⟩ := mapped_of_test ok id h ht hc
  have howned := (h.placed d (mem_of_find?_eq_some hd)).1
  unfold storeVirt
  rw [htr]
  refine h.touch ⟨fun x hx => write_outside _ ?_,rfl⟩ rfl
  have hne : x/4096 ≠ d.frame := fun he => hx (he ▸ howned)
  simp only [length_singleton]
  omega

end

end

/-- The kernel has opened the 2 MiB block of `va` with a mapping of its own, so
its page directory entry points to a table without the user bit. -/
def Opens (h : List Call) (va : ℕ) : Prop :=
  ∃ c ∈ h, pml4Idx c.virt = 0 ∧ pdptIdx c.virt = pdptIdx va ∧ pdIdx c.virt = pdIdx va

instance (h : List Call) (va : ℕ) : Decidable (Opens h va) :=
  inferInstanceAs (Decidable (∃ c ∈ h, _))

/-- The pages of the range, up to the first that fails the test, are canonical
and lie in blocks that the kernel has left alone. -/
def Safe (h : List Call) (m : Machine) (root ptr len : ℕ) : Prop :=
  ∀ x, ptr ≤ x → x < ptr+len → (∀ y, ptr ≤ y → y ≤ x → isUserMapped m root y = true) →
    Canonical x ∧ ¬Opens h x

section
variable {h : List Call} {m₀ m : Machine} {r U ptr len : ℕ} {owned : Finset ℕ}
  {done : List Mapping}

theorem turns_enough (hfin : ptr+len < 2^64) : ptr+len+4096 ≤ ptr/4096*4096+turns*4096 := by
  unfold turns
  omega

section

variable (hr : Reached h m₀ r) (id : IdentityOk m₀ r) (hok : UserOk m₀ r m U owned done)
include hr id hok

end

end

end Zohara.UserCopy
