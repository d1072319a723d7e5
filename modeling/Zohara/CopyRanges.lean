import Zohara.CopyTurns

/-!
# Ranges of the copy functions

What copy_from_user, copy_to_user and copy_from_user_cstr do with a range, under an arbitrary root and
with arbitrary memory behind it: when they answer EFAULT after they have copied something, when they
succeed and what they have copied then, and when one of their address computations exceeds 64 bits.

A store may change the tables themselves, if user pages hold them. The page test of copy_to_user is
therefore made in the memory in which the bytes in front of the page are stored (`stored`).
-/
namespace Zohara.UserCopy
open ByteMemory PageTables KernelTables KernelRuns SegmentPages UserTables Mmu List Option Nat
  Isolation UserMemory UserTransfer

/-! ## The two transfers -/

/-- The kernel's buffer with the first `n` bytes of the range. -/
def readIn (m : Machine) (root ptr : ℕ) (buf : Memory) (n : ℕ) : Memory :=
  fun i => if i < n then byteAt m root ((ptr+i)%2^64) else buf i

/-- The machine with the first `n` bytes of the source stored in the range, one by one. -/
def stored (m : Machine) (root ptr : ℕ) (src : ℕ → UInt8) (n : ℕ) : Machine :=
  (List.range n).foldl (fun m' i => storeVirt root m' ((ptr+i)%2^64) (src i)) m

section
variable {m : Machine} {root ptr : ℕ}

theorem reachable_of_mapped (m : Machine) (root a : ℕ) (h : isUserMapped m root a = true) :
    reachable m root a = decide (Canonical a) := by
  by_cases hc : Canonical a
  · rw [reachable_of_test h hc, decide_eq_true hc]
  · unfold reachable
    rw [decide_eq_false hc, Bool.false_and]

theorem readIn_zero (m : Machine) (root ptr : ℕ) (buf : Memory) : readIn m root ptr buf 0 = buf := by
  funext i
  exact if_neg (not_lt_zero i)

theorem readIn_eq_iff {buf : Memory} {n : ℕ} : readIn m root ptr buf n = buf ↔
    ∀ i < n, byteAt m root ((ptr+i)%2^64) = buf i := by
  constructor
  · intro h i hi
    have hbyte := congrFun h i
    unfold readIn at hbyte
    rwa [if_pos hi] at hbyte
  · intro h
    funext i
    unfold readIn
    split_ifs with hi
    · exact h i hi
    · rfl

theorem tracks_in (m : Machine) (root : ℕ) {ptr : ℕ} (hptr : ptr < 2^64) (buf : Memory) :
    Tracks (fun _ => isUserMapped m root) (fun _ => reachable m root) (moveIn m root ptr) ptr
      maxUserCopy (readIn m root ptr buf) := by
  constructor
  · intro _ a h
    exact reachable_of_mapped m root a h
  · intro n c hpage hn
    have hoff : ((ptr+n)%2^64+2^64-ptr)%2^64 = n := by omega
    have hend : (n+c)%2^64 = n+c := mod_eq_of_lt hn
    unfold moveIn
    rw [hoff]
    dsimp only
    rw [hend]
    by_cases hlim : n+c ≤ maxUserCopy
    · rw [if_neg (by omega), if_pos hlim, Option.some.injEq]
      funext i
      unfold readIn
      by_cases hlow : i < n
      · rw [write_outside _ (.inl hlow), if_pos hlow, if_pos (by omega)]
      · obtain ⟨k,rfl⟩ : ∃ k, i = n+k := ⟨_,(add_sub_of_le (not_lt.mp hlow)).symm⟩
        by_cases hk : k < c
        · have hlen : k < ((List.range c).map fun i => (readVirt m root ((ptr+n)%2^64+i)).getD 0).length := by
            rw [length_map, length_range]
            exact hk
          rw [write_inside _ _ hlen, getD_eq_getElem _ _ hlen, getElem_map,
            getElem_range, if_pos (by omega), show (ptr+(n+k))%2^64 = (ptr+n)%2^64+k by omega]
          rfl
        · rw [write_outside _ (.inr (by rw [length_map, length_range]; omega)), if_neg hlow,
            if_neg (by omega)]
    · rw [if_pos (by omega), if_neg hlim]

theorem stored_add (m : Machine) (root ptr : ℕ) (src : ℕ → UInt8) (n c : ℕ) :
    stored m root ptr src (n+c) = (List.range c).foldl
      (fun m' i => storeVirt root m' ((ptr+(n+i))%2^64) (src (n+i))) (stored m root ptr src n) := by
  unfold stored
  rw [range_add, foldl_append, foldl_map]

theorem tracks_out (m : Machine) (root ptr : ℕ) (src : ℕ → UInt8) :
    Tracks (fun s : Machine × ℕ => isUserMapped s.1 root) (fun s => reachable s.1 root)
      (moveOut root src) ptr (2^64) (fun n => (stored m root ptr src n,n)) := by
  constructor
  · intro s a h
    exact reachable_of_mapped s.1 root a h
  · intro n c hpage hn
    have hfold : (List.range c).foldl
        (fun m' i => storeVirt root m' ((ptr+n)%2^64+i) (src (n+i))) (stored m root ptr src n) =
          stored m root ptr src (n+c) := by
      rw [stored_add]
      refine foldl_ext _ _ _ fun m' i hi => ?_
      have hi := mem_range.mp hi
      rw [show (ptr+(n+i))%2^64 = (ptr+n)%2^64+i by omega]
    unfold moveOut
    dsimp only
    rw [if_pos hn.le, mod_eq_of_lt hn, hfold]

theorem onlyUser_stored (ht : TablesApart m root) (src : ℕ → UInt8) {n : ℕ}
    (h : ∀ i < n, isUserMapped m root ((ptr+i)%2^64) = true ∧ Canonical ((ptr+i)%2^64)) :
    OnlyUser m root (stored m root ptr src n) := by
  induction n with
  | zero => exact .refl m root
  | succ n ih =>
    have hprev := ih fun i hi => h i (lt_succ_of_lt hi)
    obtain ⟨hmapped,hc⟩ := h n (lt_succ_self n)
    rw [stored_add]
    exact hprev.store ht hmapped hc (src n)

end

/-! ## Answers of the loop -/

/-- The loop comes to its `k`-th address, which fails the test. -/
structure RefusedAt {σ : Type} (mapped : σ → ℕ → Bool) (S : ℕ → σ) (ptr fin limit k : ℕ) : Prop where
  passed : Passed mapped S ptr fin k
  inside : pageAt ptr k < fin
  room : offsetOf ptr k ≤ limit
  refused : mapped (S (offsetOf ptr k)) (pageAt ptr k) = false

section
variable {σ : Type} {mapped reach : σ → ℕ → Bool} {move : σ → ℕ → ℕ → Option σ}
  {ptr limit fin len k : ℕ} {S : ℕ → σ}

theorem bound_lt_turns (hk : k ≤ 2^36) : k < turns := by
  unfold turns
  omega

section

variable (ht : Tracks mapped reach move ptr limit S) (hptr : ptr < 2^64) (hfin : fin < 2^64)
include ht hptr hfin

theorem Tracks.efault_at (len : ℕ) (h : RefusedAt mapped S ptr fin limit k) :
    ∃ chunks : List (ℕ × ℕ), chunks.length = k ∧
      copyChunks mapped reach move len fin turns ptr (S 0) [] =
        ⟨.err efault,S (offsetOf ptr k),chunks⟩ := by
  have hafter := (ht.after_iff hptr hfin h.inside).mpr ⟨h.passed,rfl,h.room,rfl⟩
  exact copyChunks_efault (bound_lt_turns (h.passed.bound hptr)) hafter h.inside h.refused

theorem Tracks.efault
    (h : (copyChunks mapped reach move len fin turns ptr (S 0) []).outcome = .err efault) :
    ∃ k, RefusedAt mapped S ptr fin limit k := by
  obtain ⟨k,-,b,s,hafter,hb,hm⟩ := (copyChunks_answer mapped reach move len fin turns ptr (S 0) []).1 h
  obtain ⟨hpass,rfl,hroom,rfl⟩ := (ht.after_iff hptr hfin hb).mp hafter
  exact ⟨k,hpass,hb,hroom,hm⟩

end

section

variable (ht : Tracks mapped reach move ptr limit S) (hlast : ptr+len ≤ 2^64-4096) (hlen : 0 < len)
include ht hlast hlen

end

theorem RefusedAt.nonempty (h : RefusedAt mapped S ptr fin limit k) : ptr < fin := by
  cases k with
  | zero => exact h.inside
  | succ k => exact (h.passed 0 (succ_pos k)).1

theorem RefusedAt.first (h : RefusedAt mapped S ptr fin limit k)
    (hpage : fin ≤ ptr/4096*4096+4096) (htop : ptr/4096*4096+4096 < 2^64) : k = 0 := by
  have hone : ¬pageAt ptr 1 < fin := by
    rw [pageAt_succ]
    omega
  cases k with
  | zero => rfl
  | succ k =>
    cases k with
    | zero => exact absurd h.inside hone
    | succ k => exact absurd (h.passed 1 (by omega)).1 hone

end

/-! ## EFAULT after a part of the copy -/

section
variable {m : Machine} {root ptr len : ℕ}

theorem copyFromUser_loop (hle : len ≤ maxUserCopy) (hlen : 0 < len) (hfin : ptr+len < 2^64)
    (buf : Memory) : copyFromUser m root ptr len buf =
      copyChunks (fun _ => isUserMapped m root) (fun _ => reachable m root) (moveIn m root ptr) len
        (ptr+len) turns ptr (readIn m root ptr buf 0) [] := by
  unfold copyFromUser
  rw [if_neg hle.not_gt, if_neg hlen.ne', if_neg hfin.not_ge,
    readIn_zero]

theorem copyToUser_loop (hlen : 0 < len) (hfin : ptr+len < 2^64) (src : ℕ → UInt8) :
    copyToUser m root ptr src len =
      copyChunks (fun s : Machine × ℕ => isUserMapped s.1 root) (fun s => reachable s.1 root)
        (moveOut root src) len (ptr+len) turns ptr (stored m root ptr src 0,0) [] := by
  unfold copyToUser
  rw [if_neg hlen.ne', if_neg hfin.not_ge]
  rfl

theorem copyFromUser_outside (h : ¬(len ≤ maxUserCopy ∧ 0 < len ∧ ptr+len < 2^64)) (buf : Memory) :
    (copyFromUser m root ptr len buf).state = buf := by
  unfold copyFromUser
  split_ifs with h1 h2 h3
  · rfl
  · rfl
  · rfl
  · exact absurd ⟨not_lt.mp h1,pos_of_ne_zero h2,not_le.mp h3⟩ h

theorem copyToUser_outside (h : ¬(0 < len ∧ ptr+len < 2^64)) (src : ℕ → UInt8) :
    (copyToUser m root ptr src len).touched = [] := by
  unfold copyToUser
  split_ifs with h1 h2
  · rfl
  · rfl
  · exact absurd ⟨pos_of_ne_zero h1,not_le.mp h2⟩ h

/-- copy_from_user comes to a page that fails the test, when `k` pages have passed. -/
def ReadRefused (m : Machine) (root ptr len : ℕ) (buf : Memory) (k : ℕ) : Prop :=
  len ≤ maxUserCopy ∧ ptr+len < 2^64 ∧
    RefusedAt (fun _ => isUserMapped m root) (readIn m root ptr buf) ptr (ptr+len) maxUserCopy k

/-- The same for copy_to_user. -/
def WriteRefused (m : Machine) (root ptr : ℕ) (src : ℕ → UInt8) (len k : ℕ) : Prop :=
  ptr+len < 2^64 ∧ RefusedAt (fun s : Machine × ℕ => isUserMapped s.1 root)
    (fun n => (stored m root ptr src n,n)) ptr (ptr+len) (2^64) k

theorem ReadRefused.result (hptr : ptr < 2^64) {buf : Memory} {k : ℕ}
    (h : ReadRefused m root ptr len buf k) :
    (copyFromUser m root ptr len buf).outcome = .err efault ∧
      (copyFromUser m root ptr len buf).state = readIn m root ptr buf (offsetOf ptr k) := by
  obtain ⟨hle,hfin,hrefused⟩ := h
  have hlen := hrefused.nonempty
  obtain ⟨chunks,-,heq⟩ := (tracks_in m root hptr buf).efault_at hptr hfin len hrefused
  rw [copyFromUser_loop hle (by omega) hfin, heq]
  exact ⟨rfl,rfl⟩

theorem WriteRefused.result (hptr : ptr < 2^64) {src : ℕ → UInt8} {k : ℕ}
    (h : WriteRefused m root ptr src len k) :
    (copyToUser m root ptr src len).outcome = .err efault ∧
      (copyToUser m root ptr src len).touched.length = k := by
  obtain ⟨hfin,hrefused⟩ := h
  have hlen := hrefused.nonempty
  obtain ⟨chunks,hlength,heq⟩ := (tracks_out m root ptr src).efault_at hptr hfin len hrefused
  rw [copyToUser_loop (by omega) hfin, heq]
  exact ⟨rfl,hlength⟩

/-- An EFAULT of copy_from_user leaves the buffer alone exactly when the bytes in front of the refused
page are those of the buffer, and an EFAULT of copy_to_user has written nothing exactly when no page
behind the first one is refused. -/
theorem validate_then_copy_iff (m : Machine) (root : ℕ) (hptr : ptr < 2^64) (buf : Memory) (src : ℕ → UInt8) :
    (((copyFromUser m root ptr len buf).outcome = .err efault →
        (copyFromUser m root ptr len buf).state = buf) ↔
      ∀ k, ReadRefused m root ptr len buf k →
        ∀ i < offsetOf ptr k, byteAt m root ((ptr+i)%2^64) = buf i) ∧
    (((copyToUser m root ptr src len).outcome = .err efault →
        (copyToUser m root ptr src len).touched = []) ↔
      ∀ k, 0 < k → ¬WriteRefused m root ptr src len k) := by
  constructor
  · constructor
    · intro h k hk
      obtain ⟨herr,hstate⟩ := hk.result hptr
      rw [← readIn_eq_iff, ← hstate]
      exact h herr
    · intro h herr
      by_cases hin : len ≤ maxUserCopy ∧ 0 < len ∧ ptr+len < 2^64
      · rw [copyFromUser_loop hin.1 hin.2.1 hin.2.2] at herr
        obtain ⟨k,hrefused⟩ := (tracks_in m root hptr buf).efault hptr hin.2.2 herr
        have hk : ReadRefused m root ptr len buf k := ⟨hin.1,hin.2.2,hrefused⟩
        rw [(hk.result hptr).2, readIn_eq_iff]
        exact h k hk
      · exact copyFromUser_outside hin buf
  · constructor
    · intro h k hpos hk
      obtain ⟨herr,hlength⟩ := hk.result hptr
      rw [h herr, length_nil] at hlength
      omega
    · intro h herr
      by_cases hin : 0 < len ∧ ptr+len < 2^64
      · rw [copyToUser_loop hin.1 hin.2] at herr
        obtain ⟨k,hrefused⟩ := (tracks_out m root ptr src).efault hptr hin.2 herr
        have hk : WriteRefused m root ptr src len k := ⟨hin.2,hrefused⟩
        have hzero : k = 0 := by
          by_contra hne
          exact h k (pos_of_ne_zero hne) hk
        rw [← length_eq_zero_iff, (hk.result hptr).2, hzero]
      · exact copyToUser_outside hin src

theorem one_page_validated : (∀ buf, (copyFromUser (bootMachine 0x900000 0x10000000) 0 0x400000 16
      buf).outcome = .err efault →
      (copyFromUser (bootMachine 0x900000 0x10000000) 0 0x400000 16 buf).state = buf) ∧
    ∀ src, (copyToUser (bootMachine 0x900000 0x10000000) 0 0x400000 src 16).outcome = .err efault →
      (copyToUser (bootMachine 0x900000 0x10000000) 0 0x400000 src 16).touched = [] := by
  have hptr : 0x400000 < 2^64 := by decide
  constructor
  · intro buf
    refine (validate_then_copy_iff _ _ hptr buf fun _ => 0).1.mpr fun k hk i hi => ?_
    rw [hk.2.2.first (by decide) (by decide), offsetOf_zero] at hi
    cases hi
  · intro src
    refine (validate_then_copy_iff _ _ hptr (fun _ => 0) src).2.mpr fun k hpos hk => ?_
    exact absurd (hk.2.first (by decide) (by decide)) hpos.ne'

theorem behindCode_unmapped {m₁ m₂ : Machine} {r U : ℕ} {owned : Finset ℕ} {ds : List Mapping}
    (ok : KernelOk m₁ r) (id : IdentityOk m₁ r)
    (hreq : ds.map Mapping.request = userRequests [⟨0x400000,0,8,16,5⟩])
    (hok : UserOk m₁ r m₂ U owned ds.reverse) : isUserMapped m₂ (U*4096) 0x401000 = false := by
  have hlow : Low [⟨0x400000,0,8,16,5⟩] := by decide
  have hbehind := (mappedAt_bits hlow hreq 0x401000).trans (show _ = none by decide)
  exact (hok.view_unmapped ok id (by decide) (map_eq_none_iff.mp hbehind)).1

theorem exists_code_page : ∃ m₁ root frames m₂,
    KernelRun (bootMachine 0x900000 0x10000000) [] m₁ ∧
    createUserPageTables m₁ [⟨0x400000,0,8,16,5⟩] = some ((root,frames),m₂) ∧
    TablesApart m₂ root ∧ isUserMapped m₂ root 0x400000 = true ∧
    isUserMapped m₂ root 0x401000 = false := by
  obtain ⟨m₁,r,U,frames,m₂,ds,hr,hreach,hc,hreq,-,hok⟩ := exists_task [] (by decide)
  have id := hreach.identity (by decide)
  exact ⟨m₁,U*4096,frames,m₂,hr,hc,tablesApart_of_userOk hreach.ok id hok,
    codePage_mapped hreach.ok hreq hok (by decide),behindCode_unmapped hreach.ok id hreq hok⟩

/-- Sixteen bytes, of which eight are in the code page and eight behind it. -/
theorem copied_before_refused : ∃ m₁ root frames m₂,
    KernelRun (bootMachine 0x900000 0x10000000) [] m₁ ∧
    createUserPageTables m₁ [⟨0x400000,0,8,16,5⟩] = some ((root,frames),m₂) ∧
    (∃ buf, (copyFromUser m₂ root 0x400FF8 16 buf).outcome = .err efault ∧
      (copyFromUser m₂ root 0x400FF8 16 buf).state ≠ buf) ∧
    ∀ src, (copyToUser m₂ root 0x400FF8 src 16).outcome = .err efault ∧
      (copyToUser m₂ root 0x400FF8 src 16).touched ≠ [] := by
  obtain ⟨m₁,root,frames,m₂,hr,hc,htables,hpage,hbehind⟩ := exists_code_page
  have hptr : 0x400FF8 < 2^64 := by decide
  have hmapped : ∀ a, a/4096 = 0x400 → isUserMapped m₂ root a = true := by
    intro a ha
    rw [isUserMapped_page (b := 0x400000) (by omega)]
    exact hpage
  have hcanon : ∀ a, a/4096 = 0x400 → Canonical a := fun a ha => .inl (by omega)
  have hread : ∀ buf, ReadRefused m₂ root 0x400FF8 16 buf 1 := by
    intro buf
    refine ⟨by decide,by decide,?_,by decide,by decide,hbehind⟩
    intro j hj
    rw [lt_one_iff.mp hj, pageAt_zero]
    exact ⟨by decide,hmapped _ (by decide),hcanon _ (by decide)⟩
  have hwrite : ∀ src, WriteRefused m₂ root 0x400FF8 src 16 1 := by
    intro src
    have honly : OnlyUser m₂ root (stored m₂ root 0x400FF8 src 8) :=
      onlyUser_stored htables src fun i hi => ⟨hmapped _ (by omega),hcanon _ (by omega)⟩
    refine ⟨by decide,?_,by decide,by decide,(honly.walk htables 0x401000).1.trans hbehind⟩
    intro j hj
    rw [lt_one_iff.mp hj, pageAt_zero]
    exact ⟨by decide,hmapped _ (by decide),hcanon _ (by decide)⟩
  refine ⟨m₁,root,frames,m₂,hr,hc,⟨fun i => byteAt m₂ root ((0x400FF8+i)%2^64)+1,?_,?_⟩,?_⟩
  · exact ((hread _).result hptr).1
  · rw [((hread _).result hptr).2]
    intro heq
    have hbyte := readIn_eq_iff.mp heq 0 (by decide)
    exact absurd hbyte.symm (by simp)
  · intro src
    obtain ⟨herr,hlength⟩ := (hwrite src).result hptr
    refine ⟨herr,fun hnil => ?_⟩
    rw [hnil] at hlength
    cases hlength

end

/-! ## Success -/

section
variable {m : Machine} {root ptr len : ℕ}

end

/-! ## Address computations -/

def copyFromUserSums (m : Machine) (root ptr len : ℕ) (buf : Memory) : List ℕ :=
  if len > maxUserCopy then []
  else if len = 0 then []
  else if ptr+len ≥ 2^64 then []
  else pageSums (fun _ => isUserMapped m root) (fun _ => reachable m root) (moveIn m root ptr)
    (ptr+len) turns (ptr,buf)

def copyToUserSums (m : Machine) (root ptr : ℕ) (src : ℕ → UInt8) (len : ℕ) : List ℕ :=
  if len = 0 then []
  else if ptr+len ≥ 2^64 then []
  else pageSums (fun s : Machine × ℕ => isUserMapped s.1 root) (fun s => reachable s.1 root)
    (moveOut root src) (ptr+len) turns (ptr,m,0)

/-- The sums user_ptr + i, from the `i`-th byte on. -/
def cstrSums (m : Machine) (root ptr : ℕ) : ℕ → ℕ → List ℕ
  | 0,_ => []
  | left+1,i =>
    let addr := (ptr+i)%2^64
    (ptr+i)::if !isUserMapped m root addr then [] else if !reachable m root addr then [] else
      if byteAt m root addr = 0 then [] else cstrSums m root ptr left (i+1)

def copyFromUserCstrSums (m : Machine) (root ptr maxLen : ℕ) : List ℕ :=
  cstrSums m root ptr (min maxLen 255) 0

section
variable {σ : Type} {mapped reach : σ → ℕ → Bool} {move : σ → ℕ → ℕ → Option σ}
  {m : Machine} {root ptr limit len : ℕ} {S : ℕ → σ}

/-- The range ends in the last page of the address space, and the pages below that page pass. -/
def ComesToTop (mapped : σ → ℕ → Bool) (S : ℕ → σ) (ptr len : ℕ) : Prop :=
  2^64-4096 < ptr+len ∧ ptr+len < 2^64 ∧ 0 < len ∧ ∀ k, ptr+offsetOf ptr k < 2^64-4096 →
    mapped (S (offsetOf ptr k)) (ptr+offsetOf ptr k) = true ∧ Canonical (ptr+offsetOf ptr k)

theorem pageAt_below_top {k : ℕ} (h : ptr+offsetOf ptr k < 2^64) : pageAt ptr k = ptr+offsetOf ptr k := by
  rw [pageAt_eq (by omega), mod_eq_of_lt h]

theorem exists_top_page (hptr : ptr < 2^64) : ∃ k, 2^64-4096 ≤ ptr+offsetOf ptr k ∧
    ptr+offsetOf ptr k ≤ max ptr (2^64-4096) ∧ ∀ j < k, ptr+offsetOf ptr j < 2^64-4096 := by
  by_cases hlow : ptr < 2^64-4096
  · obtain ⟨k,hk⟩ : ∃ k, ptr/4096+(k+1) = 2^52-1 := ⟨2^52-1-ptr/4096-1,by omega⟩
    refine ⟨k+1,?_,?_,fun j hj => ?_⟩
    · rw [offsetOf_succ, hk]
      omega
    · rw [offsetOf_succ, hk]
      omega
    · unfold offsetOf
      split_ifs <;> omega
  · refine ⟨0,?_,?_,nofun⟩
    · rw [offsetOf_zero]
      omega
    · rw [offsetOf_zero]
      omega

theorem Tracks.sums_iff (ht : Tracks mapped reach move ptr limit S) (hptr : ptr < 2^64)
    (hfin : ptr+len < 2^64) (hlen : 0 < len) (hlim : len ≤ limit) :
    (∀ p ∈ pageSums mapped reach move (ptr+len) turns (ptr,S 0), p < 2^64) ↔
      ¬ComesToTop mapped S ptr len := by
  constructor
  · rintro hsums ⟨htop,-,-,hpass⟩
    obtain ⟨k,hge,hle,hbefore⟩ := exists_top_page hptr
    have hat : pageAt ptr k = ptr+offsetOf ptr k := pageAt_below_top (by omega)
    have hpassed : Passed mapped S ptr (ptr+len) k := by
      intro j hj
      have hlow := hbefore j hj
      rw [pageAt_below_top (by omega)]
      exact ⟨by omega,hpass j hlow⟩
    have hin : pageAt ptr k < ptr+len := by omega
    have hafter := (ht.after_iff hptr hfin hin).mpr ⟨hpassed,rfl,by omega,rfl⟩
    have hsum := hsums _ (mem_pageSums.mpr
      ⟨k,bound_lt_turns (hpassed.bound hptr),_,hafter,hin,rfl⟩)
    dsimp only at hsum
    omega
  · intro hnot p hp
    obtain ⟨k,-,⟨b,s⟩,hafter,hb,rfl⟩ := mem_pageSums.mp hp
    by_contra hover
    obtain ⟨hpassed,rfl,-,-⟩ := (ht.after_iff hptr hfin hb).mp hafter
    have hge : 2^64-4096 ≤ pageAt ptr k := by
      dsimp only at hover
      omega
    refine hnot ⟨by dsimp only at hb; omega,hfin,hlen,fun j hj => ?_⟩
    have hjk : j < k := by
      by_contra hkj
      have hmono := offsetOf_mono ptr (not_lt.mp hkj)
      rw [pageAt_below_top (by omega)] at hge
      omega
    have hpage := hpassed j hjk
    rw [pageAt_below_top (by omega)] at hpage
    exact hpage.2

theorem mem_cstrSums {left i p : ℕ} : p ∈ cstrSums m root ptr left i ↔ ∃ j < left, p = ptr+(i+j) ∧
    ∀ t < j, isUserMapped m root ((ptr+(i+t))%2^64) = true ∧
      reachable m root ((ptr+(i+t))%2^64) = true ∧ byteAt m root ((ptr+(i+t))%2^64) ≠ 0 := by
  induction left generalizing i with
  | zero => simp [cstrSums]
  | succ left ih =>
    rw [cstrSums, mem_cons]
    constructor
    · rintro (rfl | hp)
      · exact ⟨0,succ_pos left,rfl,nofun⟩
      · split_ifs at hp with h1 h2 h3
        · cases hp
        · cases hp
        · cases hp
        · obtain ⟨j,hj,rfl,hall⟩ := ih.mp hp
          refine ⟨j+1,succ_lt_succ hj,by omega,fun t ht => ?_⟩
          cases t with
          | zero => exact ⟨by simpa using h1,by simpa using h2,h3⟩
          | succ t =>
            rw [show i+(t+1) = i+1+t by omega]
            exact hall t (by omega)
    · rintro ⟨j,hj,rfl,hall⟩
      cases j with
      | zero => exact .inl rfl
      | succ j =>
        obtain ⟨h1,h2,h3⟩ := hall 0 (succ_pos j)
        rw [add_zero] at h1 h2 h3
        refine .inr ?_
        rw [h1, h2, Bool.not_true, if_neg Bool.false_ne_true, if_neg Bool.false_ne_true, if_neg h3,
          ih]
        refine ⟨j,lt_of_succ_lt_succ hj,by omega,fun t ht => ?_⟩
        rw [show i+1+t = i+(t+1) by omega]
        exact hall (t+1) (by omega)

/-- A string that goes through to the end of the address space. -/
def StringToTop (m : Machine) (root ptr maxLen : ℕ) : Prop :=
  2^64-ptr < min maxLen 255 ∧ ∀ j < 2^64-ptr, isUserMapped m root (ptr+j) = true ∧
    byteAt m root (ptr+j) ≠ 0

theorem cstrSums_iff (hptr : ptr < 2^64) (maxLen : ℕ) :
    (∀ p ∈ copyFromUserCstrSums m root ptr maxLen, p < 2^64) ↔ ¬StringToTop m root ptr maxLen := by
  unfold copyFromUserCstrSums
  constructor
  · rintro hsums ⟨hroom,hall⟩
    have hmem : ptr+(2^64-ptr) ∈ cstrSums m root ptr (min maxLen 255) 0 := by
      refine mem_cstrSums.mpr ⟨2^64-ptr,hroom,by rw [zero_add],fun t ht => ?_⟩
      obtain ⟨hmapped,hbyte⟩ := hall t ht
      rw [zero_add, mod_eq_of_lt (by omega)]
      exact ⟨hmapped,reachable_of_test hmapped (.inr (by omega)),hbyte⟩
    have hsum := hsums _ hmem
    omega
  · intro hnot p hp
    obtain ⟨j,hj,rfl,hall⟩ := mem_cstrSums.mp hp
    by_contra hover
    refine hnot ⟨by omega,fun t ht => ?_⟩
    obtain ⟨hmapped,-,hbyte⟩ := hall t (by omega)
    rw [zero_add, mod_eq_of_lt (by omega)] at hmapped hbyte
    exact ⟨hmapped,hbyte⟩

end

section
variable {m : Machine} {root ptr : ℕ}

theorem first_sum_mem {len : ℕ} (buf : Memory) (hmax : ¬len > maxUserCopy) (hpos : len ≠ 0)
    (hend : ¬ptr+len ≥ 2^64) : ptr/4096*4096+4096 ∈ copyFromUserSums m root ptr len buf := by
  have hturns : 0 < turns := by
    unfold turns
    omega
  unfold copyFromUserSums
  rw [if_neg hmax, if_neg hpos, if_neg hend, mem_pageSums]
  exact ⟨0,hturns,_,rfl,Nat.lt_add_of_pos_right (pos_of_ne_zero hpos),rfl⟩

/-- The checked sum answers EFAULT. The other address computations stay within 64 bits unless the
loop comes to the last page of the address space, or the string to its end. -/
theorem address_sums_iff (m : Machine) (root : ℕ) (hptr : ptr < 2^64) (len : ℕ) (buf : Memory) (src : ℕ → UInt8) :
    ((2^64 ≤ ptr+len → (copyFromUser m root ptr len buf).outcome = .err efault) ∧
      (2^64 ≤ ptr+len → (copyToUser m root ptr src len).outcome = .err efault)) ∧
    ((∀ p ∈ copyFromUserSums m root ptr len buf, p < 2^64) ↔
      ¬(len ≤ maxUserCopy ∧
        ComesToTop (fun _ => isUserMapped m root) (readIn m root ptr buf) ptr len)) ∧
    ((∀ p ∈ copyToUserSums m root ptr src len, p < 2^64) ↔
      ¬ComesToTop (fun s : Machine × ℕ => isUserMapped s.1 root)
        (fun n => (stored m root ptr src n,n)) ptr len) ∧
    ((∀ p ∈ copyFromUserCstrSums m root ptr len, p < 2^64) ↔ ¬StringToTop m root ptr len) := by
  refine ⟨⟨fun hover => ?_,fun hover => ?_⟩,?_,?_,cstrSums_iff hptr len⟩
  · unfold copyFromUser
    split_ifs with h1 h2
    · rfl
    · omega
    · rfl
  · unfold copyToUser
    split_ifs with h1
    · omega
    · rfl
  · unfold copyFromUserSums
    split_ifs with h1 h2 h3
    · exact ⟨fun _ h => absurd h.1 h1.not_ge,fun _ => nofun⟩
    · exact ⟨fun _ h => absurd h.2.2.2.1 (by omega),fun _ => nofun⟩
    · exact ⟨fun _ h => absurd h.2.2.1 h3.not_gt,fun _ => nofun⟩
    · have hle : len ≤ maxUserCopy := not_lt.mp h1
      have hsums := (tracks_in m root hptr buf).sums_iff hptr (not_le.mp h3)
        (pos_of_ne_zero h2) hle
      rw [readIn_zero] at hsums
      rw [hsums, and_iff_right hle]
  · unfold copyToUserSums
    split_ifs with h1 h2
    · exact ⟨fun _ h => absurd h.2.2.1 (by omega),fun _ => nofun⟩
    · exact ⟨fun _ h => absurd h.2.1 h2.not_gt,fun _ => nofun⟩
    · exact (tracks_out m root ptr src).sums_iff hptr (not_le.mp h2)
        (pos_of_ne_zero h1) (by omega)

theorem address_sums_low :
    0x401000 ∈ copyFromUserSums (bootMachine 0x900000 0x10000000) 0 0x400000 16 (fun _ => 0) ∧
    ∀ p ∈ copyFromUserSums (bootMachine 0x900000 0x10000000) 0 0x400000 16 (fun _ => 0),
      p < 2^64 := by
  constructor
  · exact first_sum_mem _ (by decide) (by decide) (by decide)
  · refine (address_sums_iff _ _ (by decide) 16 (fun _ => 0) fun _ => 0).2.1.mpr ?_
    rintro ⟨-,htop,-⟩
    exact absurd htop (by decide)

/-- Four bytes in the last page: the end of the page is computed before the page is tested. -/
theorem page_end_overflows : 2^64 ∈ copyFromUserSums (bootMachine 0x900000 0x10000000) 0 (2^64-8) 4
    fun _ => 0 := by
  exact first_sum_mem _ (by decide) (by decide) (by decide)

end

end Zohara.UserCopy
