import Zohara.UserMemory

/-!
# Transfers with accessible user memory

copy_from_user and copy_to_user over a range that lies in the lower half of the address
space and passes the page test at every byte: both succeed and move exactly the bytes of
the range, chunk by chunk. Stores need two facts about the caller's tables, that its pages
do not hold the tables and that no two addresses share a byte of memory. Tables that the
kernel has built have both (`userSpace_of_userOk`).
-/
namespace Zohara.UserTransfer
open ByteMemory PageTables KernelTables KernelRuns UserTables Mmu List Option
  UserCopy UserMemory

def Accessible (m : Machine) (root a n : ℕ) : Prop :=
  a+n ≤ 2^47 ∧ ∀ i < n, isUserMapped m root (a+i) = true

structure UserSpace (m : Machine) (root : ℕ) : Prop where
  apart : TablesApart m root
  distinct : ∀ a b t t', a < 2^47 → b < 2^47 → isUserMapped m root a = true →
    isUserMapped m root b = true → translate m root a = some t → translate m root b = some t' →
    t.pa = t'.pa → a = b

/-- The byte that a caller sees at an address. -/
def byteAt (m : Machine) (root a : ℕ) : UInt8 := (readVirt m root a).getD 0

section
variable {σ : Type} {mapped reach : σ → ℕ → Bool} {move : σ → ℕ → ℕ → Option σ}
  {I : ℕ → σ → Prop} {start fin : ℕ}

/-- `I a s` says that everything below `a` has been moved. -/
structure Moves (mapped reach : σ → ℕ → Bool) (move : σ → ℕ → ℕ → Option σ)
    (I : ℕ → σ → Prop) (start fin : ℕ) : Prop where
  mapped : ∀ a s, I a s → start ≤ a → a < fin → mapped s a = true
  reach : ∀ a s, I a s → start ≤ a → a < fin → reach s a = true
  move : ∀ a n s, I a s → start ≤ a → a+n ≤ fin → a+n ≤ a/4096*4096+4096 →
    ∃ s', move s a n = some s' ∧ I (a+n) s'

theorem copyChunks_moves (h : Moves mapped reach move I start fin) (hfin : fin ≤ 2^47)
    (len n addr : ℕ) (s : σ) (touched : List (ℕ × ℕ)) (hs : I (min addr fin) s) (hstart : start ≤ addr)
    (hnear : addr < fin+4096) (hn : fin+4096 ≤ addr/4096*4096+n*4096) :
    (copyChunks mapped reach move len fin n addr s touched).outcome = .ok len ∧
      I fin (copyChunks mapped reach move len fin n addr s touched).state := by
  induction n generalizing addr s touched with
  | zero => omega
  | succ n ih =>
    rw [copyChunks]
    by_cases hlt : addr < fin
    · rw [Nat.min_eq_left hlt.le] at hs
      have hend : (addr/4096*4096+4096)%2^64 = addr/4096*4096+4096 :=
        Nat.mod_eq_of_lt (by omega)
      obtain ⟨k,hk⟩ : ∃ k, min fin (addr/4096*4096+4096) = addr+k :=
        ⟨_,(Nat.add_sub_of_le (by omega)).symm⟩
      have hlen : (addr+k+2^64-addr)%2^64 = k := by omega
      obtain ⟨s',hmove,hs'⟩ := h.move addr k s hs hstart (by omega) (by omega)
      rw [if_pos hlt, h.mapped addr s hs hstart hlt, Bool.not_true, if_neg Bool.false_ne_true]
      rw [hend, hk, hlen, hmove]
      dsimp only
      rw [if_pos (h.reach addr s hs hstart hlt)]
      apply ih
      · rw [Nat.min_comm, hk]
        exact hs'
      · omega
      · omega
      · exact turns_left hn
    · rw [if_neg hlt]
      rw [Nat.min_eq_right (not_lt.mp hlt)] at hs
      exact ⟨rfl,hs⟩

end

section
variable {m m' : Machine} {root ptr len : ℕ}

theorem canonical_low {a : ℕ} (h : a < 2^47) : Canonical a := .inl h

theorem Accessible.at (h : Accessible m root ptr len) {a : ℕ} (ha : ptr ≤ a) (hf : a < ptr+len) :
    isUserMapped m root a = true := by
  have hi := h.2 (a-ptr) (by omega)
  rwa [Nat.add_sub_of_le ha] at hi

theorem copyFromUser_accessible (h : Accessible m root ptr len) (hlen : len ≤ maxUserCopy)
    (buf : Memory) :
    (copyFromUser m root ptr len buf).outcome = .ok len ∧
      ∀ i < len, (copyFromUser m root ptr len buf).state i = byteAt m root (ptr+i) := by
  have hfin := h.1
  unfold copyFromUser
  rw [if_neg hlen.not_gt]
  by_cases h0 : len = 0
  · rw [if_pos h0, h0]
    exact ⟨rfl,nofun⟩
  · rw [if_neg h0, if_neg (by omega)]
    have hmoves : Moves (fun _ => isUserMapped m root) (fun _ => reachable m root)
        (moveIn m root ptr) (fun a b => ∀ i, ptr+i < a → b i = byteAt m root (ptr+i))
        ptr (ptr+len) := by
      constructor
      · intro a s _ ha hf
        exact h.at ha hf
      · intro a s _ ha hf
        exact reachable_of_test (h.at ha hf) (canonical_low (by omega))
      · intro a n b hb ha hf _
        have hoff : (a+2^64-ptr)%2^64 = a-ptr := by omega
        have hend : (a-ptr+n)%2^64 = a-ptr+n := by omega
        unfold moveIn
        rw [hoff]
        dsimp only
        rw [hend, if_neg (by unfold maxUserCopy at hlen ⊢; omega)]
        refine ⟨_,rfl,?_⟩
        intro i hi
        by_cases hlow : i < a-ptr
        · rw [write_outside _ (.inl hlow), hb i (by omega)]
        · obtain ⟨k,rfl⟩ : ∃ k, i = a-ptr+k := ⟨_,(Nat.add_sub_of_le (not_lt.mp hlow)).symm⟩
          have hk : k < n := by omega
          rw [write_inside _ _ (by rw [length_map, length_range]; exact hk),
            getD_eq_getElem _ _ (by rw [length_map, length_range]; exact hk),
            getElem_map, getElem_range, show ptr+(a-ptr+k) = a+k by omega]
          rfl
    obtain ⟨ho,hI⟩ := copyChunks_moves hmoves hfin len turns ptr buf []
      (fun i hi => by omega) (Nat.le_refl ptr) (by omega) (turns_enough (by omega))
    exact ⟨ho,fun i hi => hI i (by omega)⟩

theorem UserSpace.store (h : UserSpace m root) (ho : OnlyUser m root m') {a : ℕ}
    (ha : a < 2^47) (hmapped : isUserMapped m root a = true) (v : UInt8) :
    OnlyUser m root (storeVirt root m' a v) ∧ readVirt (storeVirt root m' a v) root a = some v ∧
      ∀ b < 2^47, isUserMapped m root b = true → b ≠ a →
        readVirt (storeVirt root m' a v) root b = readVirt m' root b := by
  have hstore := ho.store h.apart hmapped (canonical_low ha) v
  have hwalk := fun b => (hstore.walk h.apart b).2
  obtain ⟨t,ht⟩ := translate_of_test hmapped
  have hmem : (storeVirt root m' a v).mem = write m'.mem t.pa [v] := by
    unfold storeVirt
    rw [(ho.walk h.apart a).2, ht]
  refine ⟨hstore,?_,?_⟩
  · unfold readVirt
    rw [hwalk, ht, map_some, hmem]
    have hbyte : write m'.mem t.pa [v] (t.pa+0) = v := write_inside m'.mem t.pa Nat.zero_lt_one
    exact congrArg some hbyte
  · intro b hb hmb hne
    obtain ⟨t',ht'⟩ := translate_of_test hmb
    have hpa : t'.pa ≠ t.pa := fun he => hne (h.distinct b a t' t hb ha hmb hmapped ht' ht he)
    unfold readVirt
    rw [hwalk, (ho.walk h.apart b).2, ht', map_some, map_some, hmem,
      write_outside _ (by rw [length_singleton]; omega)]

theorem UserSpace.chunk (h : UserSpace m root) (ho : OnlyUser m root m') {a n : ℕ}
    (ha : a+n ≤ 2^47) (hmapped : ∀ i < n, isUserMapped m root (a+i) = true) (src : ℕ → UInt8) :
    let m'' := (List.range n).foldl (fun m i => storeVirt root m (a+i) (src i)) m'
    OnlyUser m root m'' ∧ (∀ i < n, readVirt m'' root (a+i) = some (src i)) ∧
      ∀ b < 2^47, isUserMapped m root b = true → b < a → readVirt m'' root b = readVirt m' root b := by
  induction n with
  | zero => exact ⟨ho,nofun,fun _ _ _ _ => rfl⟩
  | succ n ih =>
    obtain ⟨ho',hnew,hold⟩ := ih (by omega) fun i hi => hmapped i (by omega)
    dsimp only
    rw [range_succ, foldl_append]
    obtain ⟨ho'',hhere,hother⟩ := h.store ho' (by omega) (hmapped n (Nat.lt_succ_self n)) (src n)
    refine ⟨ho'',?_,?_⟩
    · intro i hi
      by_cases hin : i = n
      · rw [hin]
        exact hhere
      · exact (hother (a+i) (by omega) (hmapped i hi) (by omega)).trans (hnew i (by omega))
    · intro b hb hmb hlt
      exact (hother b hb hmb (by omega)).trans (hold b hb hmb hlt)

theorem copyToUser_accessible (hsp : UserSpace m root) (h : Accessible m root ptr len)
    (src : ℕ → UInt8) :
    (copyToUser m root ptr src len).outcome = .ok len ∧
      ∀ i < len, readVirt (copyToUser m root ptr src len).state.1 root (ptr+i) = some (src i) := by
  have hfin := h.1
  unfold copyToUser
  by_cases h0 : len = 0
  · rw [if_pos h0, h0]
    exact ⟨rfl,nofun⟩
  · rw [if_neg h0, if_neg (by omega)]
    have hmoves : Moves (fun s : Machine × ℕ => isUserMapped s.1 root) (fun s => reachable s.1 root)
        (moveOut root src) (fun a s => s.2 = a-ptr ∧ OnlyUser m root s.1 ∧
          ∀ i, ptr+i < a → readVirt s.1 root (ptr+i) = some (src i)) ptr (ptr+len) := by
      constructor
      · intro a s hI ha hf
        rw [(hI.2.1.walk hsp.apart a).1]
        exact h.at ha hf
      · intro a s hI ha hf
        rw [hI.2.1.reachable hsp.apart a]
        exact reachable_of_test (h.at ha hf) (canonical_low (by omega))
      · intro a n s hI ha hf _
        obtain ⟨hoff,ho,hdone⟩ := hI
        obtain ⟨ho',hnew,hold⟩ := hsp.chunk ho (a := a) (n := n) (by omega)
          (fun i hi => h.at (by omega) (by omega)) fun i => src (s.2+i)
        refine ⟨_,rfl,?_,ho',?_⟩
        · dsimp only
          rw [hoff]
          omega
        · intro i hi
          by_cases hlow : ptr+i < a
          · exact (hold (ptr+i) (by omega) (h.at (by omega) (by omega)) hlow).trans (hdone i hlow)
          · have hk := hnew (ptr+i-a) (by omega)
            rwa [show a+(ptr+i-a) = ptr+i by omega, show s.2+(ptr+i-a) = i by omega] at hk
    obtain ⟨ho,hI⟩ := copyChunks_moves hmoves hfin len turns ptr (m,0) []
      ⟨by rw [Nat.min_eq_left (by omega), Nat.sub_self],.refl m root,fun i hi => by omega⟩
      (Nat.le_refl ptr) (by omega) (turns_enough (by omega))
    exact ⟨ho,fun i hi => hI.2.2 i (by omega)⟩

end

/-! ## Tasks that the kernel has built -/

theorem userSpace_of_userOk {m₀ m : Machine} {r U : ℕ} {owned : Finset ℕ} {done : List Mapping}
    (ok : KernelOk m₀ r) (id : IdentityOk m₀ r) (h : UserOk m₀ r m U owned done)
    (hframes : (done.map Mapping.frame).Nodup) : UserSpace m (U*4096) := by
  constructor
  · exact tablesApart_of_userOk ok id h
  · intro a b t t' ha hb hma hmb hta htb hpa
    obtain ⟨d,hd,htr⟩ := mapped_of_test ok id h hma (canonical_low ha)
    obtain ⟨d',hd',htr'⟩ := mapped_of_test ok id h hmb (canonical_low hb)
    cases htr.symm.trans hta
    cases htr'.symm.trans htb
    dsimp only at hpa
    -- the frame determines the mapping, and the mapping the page
    have hframe : d.frame = d'.frame := by omega
    have hsame : d = d' := inj_on_of_nodup_map hframes (mem_of_find?_eq_some hd)
      (mem_of_find?_eq_some hd') hframe
    have hpage : d.addr/4096 = a/4096 := by simpa using find?_some hd
    have hpage' : d'.addr/4096 = b/4096 := by simpa using find?_some hd'
    rw [hsame] at hpage
    omega

end Zohara.UserTransfer
