import Zohara.OpenFiles

/-!
# Strings of a caller (src/usercopy.rs, src/linux_compat.rs, src/syscall.rs)

`IsCstrAt` says in terms of the caller's memory what string starts at an address. The copy of
copy_from_user_cstr is compared with it, under arbitrary tables, and then the path that openat,
mkdir and execve go on with. execve of task 0 reads kernel memory without that function and is
left out.
-/
namespace Zohara.UserStrings
open PageTables Mmu UserCopy UserMemory UserTransfer
  LinuxCompat OpenFiles

section
variable (m : Machine) (root : ℕ)

/-- The byte of an address that passes the page test and can be loaded. -/
def userByte (a : ℕ) : Option UInt8 :=
  if isUserMapped m root a = true ∧ reachable m root a = true then some (byteAt m root a) else none

/-- The string at an address: its bytes are not zero, and a zero byte follows. -/
structure IsCstrAt (ptr : ℕ) (s : List UInt8) : Prop where
  inside : ptr+s.length < 2^64
  bytes : ∀ i < s.length, userByte m root (ptr+i) = s[i]?
  nonzero : ∀ b ∈ s, b ≠ 0
  nul : userByte m root (ptr+s.length) = some 0

/-- A scan of at most `limit` bytes, with addresses of 64 bits, ends without an error after
`k` of them. -/
structure Scans (ptr limit k : ℕ) : Prop where
  le : k ≤ limit
  passes : ∀ i < k, ∃ b, userByte m root ((ptr+i)%2^64) = some b ∧ b ≠ 0
  stops : k < limit → userByte m root ((ptr+k)%2^64) = some 0

/-- The bytes of such a scan. -/
def scanned (ptr k : ℕ) : List UInt8 := (List.range k).map fun i => byteAt m root ((ptr+i)%2^64)

/-- Whatever a scan of at most `limit` bytes ends with is a whole string of valid UTF-8. -/
def WholeWithin (ptr limit : ℕ) : Prop :=
  ∀ k, Scans m root ptr limit k → ptr+k < 2^64 ∧ userByte m root (ptr+k) = some 0 ∧
    (ByteArray.mk (scanned m root ptr k).toArray).validateUTF8 = true

end

section
variable {m : Machine} {root ptr : ℕ}

theorem userByte_eq_some {a : ℕ} {b : UInt8} : userByte m root a = some b ↔
    (isUserMapped m root a = true ∧ reachable m root a = true) ∧ byteAt m root a = b := by
  unfold userByte
  split_ifs with h <;> simp [h]

theorem length_scanned (m : Machine) (root ptr k : ℕ) : (scanned m root ptr k).length = k := by
  simp [scanned]

theorem scanned_succ (m : Machine) (root ptr k : ℕ) : scanned m root ptr (k+1) =
    scanned m root ptr k++[byteAt m root ((ptr+k)%2^64)] := by
  simp [scanned, List.range_succ]

theorem cstrLoop_turn (left i : ℕ) (buf : List UInt8) (touched : List (ℕ × ℕ)) :
    (userByte m root ((ptr+i)%2^64) = none ∧
      ∀ n, (cstrLoop m root ptr (left+1) i buf touched).outcome ≠ .ok n) ∨
    (userByte m root ((ptr+i)%2^64) = some 0 ∧ ∃ touched',
      cstrLoop m root ptr (left+1) i buf touched = ⟨.ok i,buf,touched'⟩) ∨
    (∃ b, userByte m root ((ptr+i)%2^64) = some b ∧ b ≠ 0) ∧ ∃ touched',
      cstrLoop m root ptr (left+1) i buf touched =
        cstrLoop m root ptr left (i+1) (buf++[byteAt m root ((ptr+i)%2^64)]) touched' := by
  rw [cstrLoop]
  dsimp only
  unfold userByte
  cases hm : isUserMapped m root ((ptr+i)%2^64) with
  | false => exact .inl ⟨by simp,fun n => by simp⟩
  | true =>
    cases hr : reachable m root ((ptr+i)%2^64) with
    | false => exact .inl ⟨by simp,fun n => by simp⟩
    | true =>
      right
      simp only [Bool.not_true, Bool.false_eq_true, if_false, and_self, if_true,
        Option.some.injEq, exists_eq_left']
      split_ifs with hb
      · exact .inl ⟨hb,_,rfl⟩
      · exact .inr ⟨hb,_,rfl⟩

theorem cstrLoop_scans {n : ℕ} (left i : ℕ) (touched : List (ℕ × ℕ))
    (hpast : ∀ j < i, ∃ b, userByte m root ((ptr+j)%2^64) = some b ∧ b ≠ 0) :
    ((cstrLoop m root ptr left i (scanned m root ptr i) touched).outcome = .ok n ↔
      i ≤ n ∧ Scans m root ptr (i+left) n) ∧
    ((cstrLoop m root ptr left i (scanned m root ptr i) touched).outcome = .ok n →
      (cstrLoop m root ptr left i (scanned m root ptr i) touched).state = scanned m root ptr n) := by
  induction left generalizing i touched with
  | zero =>
    simp only [cstrLoop, Outcome.ok.injEq, Nat.add_zero]
    refine ⟨⟨?_,fun h => Nat.le_antisymm h.1 h.2.le⟩,fun h => by rw [h]⟩
    rintro rfl
    exact ⟨Nat.le_refl _,Nat.le_refl _,hpast,fun h => absurd h (Nat.lt_irrefl _)⟩
  | succ left ih =>
    -- a scan that goes on from here has looked at this byte
    have hhere : i ≤ n → Scans m root ptr (i+(left+1)) n →
        (i = n ∧ userByte m root ((ptr+i)%2^64) = some 0) ∨
        i+1 ≤ n ∧ ∃ b, userByte m root ((ptr+i)%2^64) = some b ∧ b ≠ 0 := by
      intro hle hscan
      rcases Nat.eq_or_lt_of_le hle with rfl | hlt
      · exact .inl ⟨rfl,hscan.stops (by omega)⟩
      · exact .inr ⟨hlt,hscan.passes i hlt⟩
    rcases cstrLoop_turn left i (scanned m root ptr i) touched with
      ⟨hnone,hbad⟩ | ⟨hzero,touched',heq⟩ | ⟨hbyte,touched',heq⟩
    · refine ⟨⟨fun h => absurd h (hbad n),fun h => ?_⟩,fun h => absurd h (hbad n)⟩
      rcases hhere h.1 h.2 with ⟨-,hb⟩ | ⟨-,b,hb,-⟩ <;> cases hnone.symm.trans hb
    · rw [heq]
      simp only [Outcome.ok.injEq]
      refine ⟨⟨?_,fun h => ?_⟩,fun h => by rw [h]⟩
      · rintro rfl
        exact ⟨Nat.le_refl _,by omega,hpast,fun _ => hzero⟩
      · rcases hhere h.1 h.2 with ⟨hn,-⟩ | ⟨-,b,hb,hne⟩
        · exact hn
        · exact absurd (Option.some.inj (hb.symm.trans hzero)) hne
    · rw [heq, ← scanned_succ]
      have hnext : ∀ j < i+1, ∃ b, userByte m root ((ptr+j)%2^64) = some b ∧ b ≠ 0 := by
        intro j hj
        rcases Nat.lt_succ_iff_lt_or_eq.mp hj with hlt | rfl
        · exact hpast j hlt
        · exact hbyte
      obtain ⟨hiff,hstate⟩ := ih (i+1) touched' hnext
      rw [show i+1+left = i+(left+1) by omega] at hiff
      refine ⟨hiff.trans ⟨fun h => ⟨by omega,h.2⟩,fun h => ⟨?_,h.2⟩⟩,hstate⟩
      obtain ⟨b,hb,hne⟩ := hbyte
      rcases hhere h.1 h.2 with ⟨-,hz⟩ | ⟨hlt,-⟩
      · exact absurd (Option.some.inj (hb.symm.trans hz)) hne
      · exact hlt

/-- copy_from_user_cstr answers exactly where a scan ends, with the bytes of the scan or, if
they are not valid UTF-8, with nothing. -/
theorem cstr_scans {n : ℕ} (m : Machine) (root ptr maxLen : ℕ) :
    ((copyFromUserCstr m root ptr maxLen).outcome = .ok n ↔
      Scans m root ptr (min maxLen 255) n) ∧
    ((copyFromUserCstr m root ptr maxLen).outcome = .ok n →
      (copyFromUserCstr m root ptr maxLen).state =
        if (ByteArray.mk (scanned m root ptr n).toArray).validateUTF8 then scanned m root ptr n
        else []) := by
  obtain ⟨hiff,hstate⟩ := cstrLoop_scans (n := n) (min maxLen 255) 0 []
    (nofun :
      ∀ j < 0, ∃ b, userByte m root ((ptr+j)%2^64) = some b ∧ b ≠ 0)
  rw [Nat.zero_add] at hiff
  refine ⟨hiff.trans ⟨fun h => h.2,fun h => ⟨Nat.zero_le n,h⟩⟩,fun h => ?_⟩
  have hs := hstate h
  unfold copyFromUserCstr
  dsimp only
  rw [show ([] : List UInt8) = scanned m root ptr 0 from rfl, hs]

/-- The bytes of a scan are the string exactly if it ended below 2^64 at a zero byte. -/
theorem isCstrAt_scanned {limit k : ℕ} (h : Scans m root ptr limit k) :
    IsCstrAt m root ptr (scanned m root ptr k) ↔
      ptr+k < 2^64 ∧ userByte m root (ptr+k) = some 0 := by
  constructor
  · intro hs
    have hin := hs.inside
    have hnul := hs.nul
    rw [length_scanned] at hin hnul
    exact ⟨hin,hnul⟩
  · rintro ⟨hin,hnul⟩
    have hbyte : ∀ i < k, ∃ b, userByte m root (ptr+i) = some b ∧ b ≠ 0 := by
      intro i hi
      have hp := h.passes i hi
      rwa [Nat.mod_eq_of_lt (by omega)] at hp
    refine ⟨by rwa [length_scanned],?_,?_,by rwa [length_scanned]⟩
    · intro i hi
      rw [length_scanned] at hi
      obtain ⟨b,hb,-⟩ := hbyte i hi
      simp only [scanned, List.getElem?_map, List.getElem?_range hi, Option.map_some]
      rw [Nat.mod_eq_of_lt (by omega), hb, (userByte_eq_some.mp hb).2]
    · intro b hb
      obtain ⟨i,hi,rfl⟩ := List.mem_map.mp hb
      obtain ⟨c,hc,hne⟩ := hbyte i (List.mem_range.mp hi)
      have hlt := List.mem_range.mp hi
      rw [Nat.mod_eq_of_lt (by omega), (userByte_eq_some.mp hc).2]
      exact hne

theorem not_isCstrAt_nil {limit k : ℕ} (h : Scans m root ptr limit k) (hptr : ptr < 2^64)
    (hk : 0 < k) : ¬IsCstrAt m root ptr [] := by
  intro hs
  obtain ⟨b,hb,hne⟩ := h.passes 0 hk
  rw [Nat.add_zero, Nat.mod_eq_of_lt hptr] at hb
  exact hne (Option.some.inj (hb.symm.trans hs.nul))

theorem cstr_exact_iff (hptr : ptr < 2^64) (maxLen : ℕ) :
    (∀ n, (copyFromUserCstr m root ptr maxLen).outcome = .ok n →
      IsCstrAt m root ptr (copyFromUserCstr m root ptr maxLen).state) ↔
    WholeWithin m root ptr (min maxLen 255) := by
  unfold WholeWithin
  apply forall_congr'
  intro k
  obtain ⟨hiff,hstate⟩ := cstr_scans (n := k) m root ptr maxLen
  rw [← hiff]
  apply imp_congr_right
  intro hok
  rw [hstate hok]
  have hscan := hiff.mp hok
  split_ifs with hvalid
  · rw [isCstrAt_scanned hscan]
    simp only [hvalid, and_true]
  · -- only bytes that are there can be invalid
    have hk : 0 < k := by
      apply Nat.pos_of_ne_zero
      rintro rfl
      exact hvalid rfl
    simp [not_isCstrAt_nil hscan hptr hk, hvalid]

end

/-! ## The calls with a path -/

inductive PathCall where
  | openat
  | mkdir
  | execve

section
variable {ν : Type} (fs : FileSystem ν) (s : State ν)

def PathCall.run (ptr : ℕ) : PathCall → Result ν
  | .openat => sysOpenat fs s ptr
  | .mkdir => sysMkdir fs s ptr
  | .execve => sysExecve fs s ptr

/-- What is left of the call once it has its path. -/
def PathCall.goOn (pathStr : List UInt8) (accessed : List (ℕ × ℕ)) : PathCall → Result ν
  | .openat =>
    match fs.resolvePathIdx s.vfs pathStr with
    | none => ⟨.ret enoent,s,accessed⟩
    | some nodeIdx =>
      match FdTable.openFd s.fds s.sys.current nodeIdx with
      | (.ok fd,fds) => ⟨.ret fd,{s with fds := fds},accessed⟩
      | (.error _,fds) => ⟨.ret enomem,{s with fds := fds},accessed⟩
  | .mkdir =>
    match fs.createDir s.vfs pathStr with
    | none => ⟨.panic,s,accessed⟩
    | some (.ok _,vfs) => ⟨.ret 0,{s with vfs := vfs},accessed⟩
    | some (.error _,vfs) => ⟨.ret (-1),{s with vfs := vfs},accessed⟩
  | .execve => loadAndReplace fs s pathStr accessed

/-- The path that a call goes on with, or how the copy has ended it. -/
def givenPath (ptr : ℕ) : Except (Result ν) (List UInt8 × List (ℕ × ℕ)) :=
  let c := copyFromUserCstr s.sys.machine s.root ptr 256
  match stopped c.outcome with
  | some answer => .error ⟨answer,s,c.completed⟩
  | none => .ok (c.state,c.completed)

theorem run_givenPath {call : PathCall} (hcall : call = .execve → s.sys.current ≠ 0) (ptr : ℕ) :
    call.run fs s ptr = match givenPath s ptr with
      | .error r => r
      | .ok (pathStr,accessed) => call.goOn fs s pathStr accessed := by
  have hpath : ∀ f : List UInt8 → List (ℕ × ℕ) → Result ν,
      withPath s ptr f = match givenPath s ptr with
        | .error r => r
        | .ok (pathStr,accessed) => f pathStr accessed := by
    intro f
    unfold withPath givenPath
    dsimp only
    cases stopped (copyFromUserCstr s.sys.machine s.root ptr 256).outcome <;> rfl
  cases call with
  | openat => exact hpath fun pathStr accessed => PathCall.goOn fs s pathStr accessed .openat
  | mkdir => exact hpath fun pathStr accessed => PathCall.goOn fs s pathStr accessed .mkdir
  | execve => exact (if_neg (hcall rfl)).trans (hpath _)

theorem givenPath_ok {ptr : ℕ} {pathStr : List UInt8} {accessed : List (ℕ × ℕ)} :
    givenPath s ptr = .ok (pathStr,accessed) ↔
      ((∃ n, (copyFromUserCstr s.sys.machine s.root ptr 256).outcome = .ok n) ∧
        (copyFromUserCstr s.sys.machine s.root ptr 256).state = pathStr) ∧
      (copyFromUserCstr s.sys.machine s.root ptr 256).completed = accessed := by
  unfold givenPath
  dsimp only
  cases (copyFromUserCstr s.sys.machine s.root ptr 256).outcome <;> simp [stopped]

theorem givenPath_exact_iff {ptr : ℕ} (hptr : ptr < 2^64) :
    (∀ pathStr accessed, givenPath s ptr = .ok (pathStr,accessed) →
      IsCstrAt s.sys.machine s.root ptr pathStr) ↔
    WholeWithin s.sys.machine s.root ptr 255 := by
  rw [show (255 : ℕ) = min 256 255 by decide, ← cstr_exact_iff hptr]
  simp only [givenPath_ok]
  constructor
  · intro h n hn
    exact h _ _ ⟨⟨⟨n,hn⟩,rfl⟩,rfl⟩
  · rintro h pathStr accessed ⟨⟨⟨n,hn⟩,rfl⟩,-⟩
    exact h n hn

end

/-- The copy gives exactly the caller's string, or an error, only if every scan that it can end
with has met the zero byte at the end of a valid text; the same holds for the path that openat,
mkdir and execve go on with. -/
theorem user_string_exact_iff (ptr : UInt64) :
    (∀ (m : Machine) (root : ℕ) (maxLen : UInt64),
      (∀ n, (copyFromUserCstr m root ptr.toNat maxLen.toNat).outcome = .ok n →
        IsCstrAt m root ptr.toNat (copyFromUserCstr m root ptr.toNat maxLen.toNat).state) ↔
      WholeWithin m root ptr.toNat (min maxLen.toNat 255)) ∧
    ∀ {ν : Type} (s : State ν) (call : PathCall),
      (call = .execve → s.sys.current ≠ 0) →
      (∀ fs : FileSystem ν, call.run fs s ptr.toNat = match givenPath s ptr.toNat with
        | .error r => r
        | .ok (pathStr,accessed) => call.goOn fs s pathStr accessed) ∧
      ((∀ pathStr accessed, givenPath s ptr.toNat = .ok (pathStr,accessed) →
        IsCstrAt s.sys.machine s.root ptr.toNat pathStr) ↔
      WholeWithin s.sys.machine s.root ptr.toNat 255) := by
  constructor
  · intro m root maxLen
    exact cstr_exact_iff ptr.toNat_lt maxLen.toNat
  · intro ν s call hcall
    exact ⟨fun fs => run_givenPath fs s hcall ptr.toNat,givenPath_exact_iff s ptr.toNat_lt⟩

section
variable {m : Machine} {root : ℕ} {b : UInt8}

theorem userByte_string (hacc : Accessible m root 0x400000 2)
    (h₁ : readVirt m root 0x400000 = some b) (h₂ : readVirt m root 0x400001 = some 0) :
    userByte m root 0x400000 = some b ∧ userByte m root 0x400001 = some 0 := by
  have hm₁ : isUserMapped m root 0x400000 = true := hacc.2 0 (by decide)
  have hm₂ : isUserMapped m root 0x400001 = true := hacc.2 1 (by decide)
  have hr₁ := reachable_of_test hm₁ (canonical_low (by decide))
  have hr₂ := reachable_of_test hm₂ (canonical_low (by decide))
  simp [userByte_eq_some, hm₁, hm₂, hr₁, hr₂, byteAt, h₁, h₂]

theorem scans_string {limit k : ℕ} (hlimit : 1 < limit) (hb : b ≠ 0)
    (h₁ : userByte m root 0x400000 = some b) (h₂ : userByte m root 0x400001 = some 0) :
    Scans m root 0x400000 limit k ↔ k = 1 := by
  constructor
  · intro h
    by_contra hk
    rcases Nat.lt_or_gt_of_ne hk with hlt | hgt
    · obtain rfl : k = 0 := by omega
      exact hb (Option.some.inj (h₁.symm.trans (h.stops (by omega))))
    · obtain ⟨c,hc,hne⟩ := h.passes 1 hgt
      exact hne (Option.some.inj (hc.symm.trans h₂))
  · rintro rfl
    refine ⟨by omega,?_,fun _ => h₂⟩
    intro i hi
    obtain rfl : i = 0 := by omega
    exact ⟨b,h₁,hb⟩

theorem scanned_string (h₁ : userByte m root 0x400000 = some b) :
    scanned m root 0x400000 1 = [b] := by
  rw [← (userByte_eq_some.mp h₁).2]
  rfl

end

/-- The path "a" of a task reaches execve as it is. -/
theorem user_string_exact_one_byte : ∃ m root,
    WholeWithin m root 0x400000 255 ∧ (caller m root).sys.current ≠ 0 ∧
    ∀ pathStr accessed, givenPath (caller m root) 0x400000 = .ok (pathStr,accessed) →
      IsCstrAt m root 0x400000 pathStr := by
  obtain ⟨m,root,-,hacc,hread₁,hread₂⟩ := exists_string 0x61
  obtain ⟨h₁,h₂⟩ := userByte_string hacc hread₁ hread₂
  have hwhole : WholeWithin m root 0x400000 255 := by
    intro k hk
    obtain rfl := (scans_string (by decide) (by decide) h₁ h₂).mp hk
    rw [scanned_string h₁]
    exact ⟨by decide,h₂,rfl⟩
  have h := ((user_string_exact_iff 0x400000).2 (caller m root) .execve fun _ => Nat.one_ne_zero).2
  rw [caller_machine, caller_root] at h
  exact ⟨m,root,hwhole,Nat.one_ne_zero,h.mpr hwhole⟩

/-- The byte 0xFF is no text: the call goes on with the empty path. -/
theorem user_string_replaced : ∃ m root, userByte m root 0x400000 = some 0xFF ∧
    userByte m root 0x400001 = some 0 ∧
    (copyFromUserCstr m root 0x400000 256).outcome = .ok 1 ∧
    (copyFromUserCstr m root 0x400000 256).state = [] ∧
    ∃ accessed, givenPath (caller m root) 0x400000 = .ok ([],accessed) := by
  obtain ⟨m,root,-,hacc,hread₁,hread₂⟩ := exists_string 0xFF
  obtain ⟨h₁,h₂⟩ := userByte_string hacc hread₁ hread₂
  obtain ⟨hiff,hstate⟩ := cstr_scans (n := 1) m root 0x400000 256
  have hok := hiff.mpr ((scans_string (by decide) (by decide) h₁ h₂).mpr rfl)
  have hempty := hstate hok
  rw [scanned_string h₁, if_neg (by decide)] at hempty
  refine ⟨m,root,h₁,h₂,hok,hempty,_,(givenPath_ok _).mpr ⟨⟨⟨1,?_⟩,?_⟩,rfl⟩⟩
  · rw [caller_machine, caller_root]
    exact hok
  · rw [caller_machine, caller_root]
    exact hempty

end Zohara.UserStrings
