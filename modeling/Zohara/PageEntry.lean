import Mathlib.Tactic.Ring
import Mathlib.Tactic.Linarith

/-!
# Page-table entries (src/arch/x86_64/paging.rs)

The flag bits, the two address masks and the entry constructors of the x86_64
page tables, as 64-bit vectors. Physical addresses are naturals; a constructor
truncates its address to 64 bits and ors the flags into it.

The second half reads constructed entries back. Every lemma there is about one
bit or one mask and needs the address to be aligned and below 2^52, which all
frame addresses are. Later modules use these lemmas and never look at bits.
-/
namespace Zohara.PageEntry
open BitVec

abbrev Entry := BitVec 64

def pPresent : Entry := 1#64 <<< 0
def pWrite : Entry := 1#64 <<< 1
def pUser : Entry := 1#64 <<< 2
def pPcd : Entry := 1#64 <<< 4
def pSize : Entry := 1#64 <<< 7
def pNx : Entry := 1#64 <<< 63

/-- Bits 12 to 51: the address of a table or a 4 KiB page. -/
def addrMask : Entry := 0x000FFFFFFFFFF000#64

/-- Bits 21 to 51: the address of a 2 MiB block. -/
def blockMask : Entry := 0x000FFFFFFFE00000#64

def tableEntry (pa : ℕ) : Entry := BitVec.ofNat 64 pa ||| pPresent ||| pWrite
def tableEntryUser (pa : ℕ) : Entry := BitVec.ofNat 64 pa ||| pPresent ||| pWrite ||| pUser
def page2mb (pa : ℕ) : Entry := BitVec.ofNat 64 pa ||| pPresent ||| pWrite ||| pSize

def page4k (pa : ℕ) (writable user executable : Bool) : Entry :=
  let f := pPresent
  let f := if writable then f ||| pWrite else f
  let f := if user then f ||| pUser else f
  let f := if executable then f else f ||| pNx
  BitVec.ofNat 64 pa ||| f

/-- Uncacheable 4 KiB page, for device memory. -/
def page4kUc (pa : ℕ) : Entry := BitVec.ofNat 64 pa ||| pPresent ||| pWrite ||| pPcd

def present (e : Entry) : Bool := e &&& pPresent != 0
def writable (e : Entry) : Bool := e &&& pWrite != 0
def user (e : Entry) : Bool := e &&& pUser != 0
def large (e : Entry) : Bool := e &&& pSize != 0
def cacheDisabled (e : Entry) : Bool := e &&& pPcd != 0
def noExecute (e : Entry) : Bool := e &&& pNx != 0

def tableAddr (e : Entry) : ℕ := (e &&& addrMask).toNat
def blockAddr (e : Entry) : ℕ := (e &&& blockMask).toNat

/-! ## Bits -/

theorem and_bit_bne_zero (e : Entry) {k : ℕ} (hk : k < 64) :
    (e &&& (1#64 <<< k) != 0) = e.getLsbD k := by
  have hbit : ∀ i < 64, (e &&& (1#64 <<< k)).getLsbD i = (e.getLsbD i && decide (i = k)) := by
    intro i hi
    rw [getLsbD_and, ← twoPow_eq, getLsbD_twoPow]
    by_cases h : i = k
    · subst h; simp [hi]
    · simp [h, Ne.symm h]
  cases hv : e.getLsbD k with
  | true =>
    refine bne_iff_ne.mpr fun h => ?_
    have hb := hbit k hk
    rw [h, hv] at hb
    simp at hb
  | false =>
    refine Bool.eq_false_iff.mpr fun h => bne_iff_ne.mp h ?_
    apply eq_of_getLsbD_eq
    intro i hi
    rw [hbit i hi]
    by_cases h : i = k
    · subst h; simp [hv]
    · simp [h]

theorem present_eq (e : Entry) : present e = e.getLsbD 0 := and_bit_bne_zero e (by decide)
theorem writable_eq (e : Entry) : writable e = e.getLsbD 1 := and_bit_bne_zero e (by decide)
theorem user_eq (e : Entry) : user e = e.getLsbD 2 := and_bit_bne_zero e (by decide)
theorem cacheDisabled_eq (e : Entry) : cacheDisabled e = e.getLsbD 4 :=
  and_bit_bne_zero e (by decide)
theorem large_eq (e : Entry) : large e = e.getLsbD 7 := and_bit_bne_zero e (by decide)
theorem noExecute_eq (e : Entry) : noExecute e = e.getLsbD 63 := and_bit_bne_zero e (by decide)

@[simp] theorem present_zero : present 0 = false := by decide

theorem getLsbD_ofNat_aligned {pa a b k : ℕ} (ha : 2^a ∣ pa) (hb : pa < 2^b)
    (hk : k < a ∨ b ≤ k) : (BitVec.ofNat 64 pa).getLsbD k = false := by
  rw [getLsbD_ofNat]
  rcases hk with hk | hk
  · obtain ⟨q,rfl⟩ := ha
    rw [Nat.testBit_two_pow_mul]
    simp [show ¬a ≤ k by omega]
  · have hlt : pa < 2^k := hb.trans_le (Nat.pow_le_pow_right (by decide) hk)
    rw [Nat.testBit_lt_two_pow hlt, Bool.and_false]

/-- Masking an entry built from an address and flags outside the mask gives the
address back. -/
theorem mask_or {pa a b : ℕ} {mask flags : Entry} (ha : 2^a ∣ pa) (hb : pa < 2^b) (hw : b ≤ 64)
    (hmask : ∀ k < 64, mask.getLsbD k = (decide (a ≤ k) && decide (k < b)))
    (hflags : flags &&& mask = 0) : ((BitVec.ofNat 64 pa ||| flags) &&& mask).toNat = pa := by
  have hself : BitVec.ofNat 64 pa &&& mask = BitVec.ofNat 64 pa := by
    apply eq_of_getLsbD_eq
    intro k hk
    rw [getLsbD_and, hmask k hk]
    by_cases hin : a ≤ k ∧ k < b
    · simp [hin.1, hin.2]
    · rw [getLsbD_ofNat_aligned ha hb (by omega), Bool.false_and]
  rw [and_or_distrib_right, hself, hflags]
  change (BitVec.ofNat 64 pa ||| 0#64).toNat = pa
  rw [or_zero, toNat_ofNat]
  exact Nat.mod_eq_of_lt (hb.trans_le (Nat.pow_le_pow_right (by decide) hw))

theorem addrMask_bits (k : ℕ) (hk : k < 64) :
    addrMask.getLsbD k = (decide (12 ≤ k) && decide (k < 52)) :=
  (by decide : ∀ k : Fin 64, addrMask.getLsbD k =
    (decide (12 ≤ k.val) && decide (k.val < 52))) ⟨k,hk⟩

theorem blockMask_bits (k : ℕ) (hk : k < 64) :
    blockMask.getLsbD k = (decide (21 ≤ k) && decide (k < 52)) :=
  (by decide : ∀ k : Fin 64, blockMask.getLsbD k =
    (decide (21 ≤ k.val) && decide (k.val < 52))) ⟨k,hk⟩

/-- What can be a frame address: page aligned and within 52 bits. -/
def FrameAddr (pa : ℕ) : Prop := 2^12 ∣ pa ∧ pa < 2^52

theorem frameAddr_mul {f : ℕ} (h : f < 2^40) : FrameAddr (f*4096) :=
  ⟨⟨f,by ring⟩,by omega⟩

variable {pa : ℕ}

/-- Flags outside the address bits survive next to a frame address, and the
address survives next to them. -/
theorem or_spec (h : FrameAddr pa) (flags : Entry) (hf : flags &&& addrMask = 0) :
    present (BitVec.ofNat 64 pa ||| flags) = present flags ∧
    writable (BitVec.ofNat 64 pa ||| flags) = writable flags ∧
    user (BitVec.ofNat 64 pa ||| flags) = user flags ∧
    large (BitVec.ofNat 64 pa ||| flags) = large flags ∧
    cacheDisabled (BitVec.ofNat 64 pa ||| flags) = cacheDisabled flags ∧
    noExecute (BitVec.ofNat 64 pa ||| flags) = noExecute flags ∧
    tableAddr (BitVec.ofNat 64 pa ||| flags) = pa := by
  have hbit : ∀ k, k < 12 ∨ 52 ≤ k →
      (BitVec.ofNat 64 pa ||| flags).getLsbD k = flags.getLsbD k := by
    intro k hk
    rw [getLsbD_or, getLsbD_ofNat_aligned h.1 h.2 hk, Bool.false_or]
  simp only [present_eq, writable_eq, user_eq, large_eq, cacheDisabled_eq, noExecute_eq]
  exact ⟨hbit 0 (by decide),hbit 1 (by decide),hbit 2 (by decide),hbit 7 (by decide),
    hbit 4 (by decide),hbit 63 (by decide),mask_or h.1 h.2 (by decide) addrMask_bits hf⟩

/-! ## Reading constructed entries -/

theorem tableEntry_flags (pa : ℕ) : tableEntry pa = BitVec.ofNat 64 pa ||| 3#64 := by
  rw [tableEntry, BitVec.or_assoc]
  rfl

theorem tableEntryUser_flags (pa : ℕ) : tableEntryUser pa = BitVec.ofNat 64 pa ||| 7#64 := by
  rw [tableEntryUser, BitVec.or_assoc, BitVec.or_assoc]
  rfl

theorem page2mb_flags (pa : ℕ) : page2mb pa = BitVec.ofNat 64 pa ||| 0x83#64 := by
  rw [page2mb, BitVec.or_assoc, BitVec.or_assoc]
  rfl

theorem page4kUc_flags (pa : ℕ) : page4kUc pa = BitVec.ofNat 64 pa ||| 0x13#64 := by
  rw [page4kUc, BitVec.or_assoc, BitVec.or_assoc]
  rfl

theorem tableEntry_spec (h : FrameAddr pa) :
    present (tableEntry pa) = true ∧ writable (tableEntry pa) = true ∧
    user (tableEntry pa) = false ∧ large (tableEntry pa) = false ∧
    noExecute (tableEntry pa) = false ∧ tableAddr (tableEntry pa) = pa := by
  rw [tableEntry_flags]
  obtain ⟨hp,hw,hu,hl,-,hn,ha⟩ := or_spec h 3#64 (by decide)
  rw [hp, hw, hu, hl, hn, ha]
  exact ⟨by decide,by decide,by decide,by decide,by decide,rfl⟩

theorem tableEntryUser_spec (h : FrameAddr pa) :
    present (tableEntryUser pa) = true ∧ writable (tableEntryUser pa) = true ∧
    user (tableEntryUser pa) = true ∧ large (tableEntryUser pa) = false ∧
    noExecute (tableEntryUser pa) = false ∧ tableAddr (tableEntryUser pa) = pa := by
  rw [tableEntryUser_flags]
  obtain ⟨hp,hw,hu,hl,-,hn,ha⟩ := or_spec h 7#64 (by decide)
  rw [hp, hw, hu, hl, hn, ha]
  exact ⟨by decide,by decide,by decide,by decide,by decide,rfl⟩

theorem page2mb_spec (ha : 2^21 ∣ pa) (hb : pa < 2^52) :
    present (page2mb pa) = true ∧ writable (page2mb pa) = true ∧
    user (page2mb pa) = false ∧ large (page2mb pa) = true ∧
    noExecute (page2mb pa) = false ∧ blockAddr (page2mb pa) = pa := by
  have h : FrameAddr pa := ⟨dvd_trans (by decide) ha,hb⟩
  rw [page2mb_flags]
  obtain ⟨hp,hw,hu,hl,-,hn,-⟩ := or_spec h 0x83#64 (by decide)
  rw [hp, hw, hu, hl, hn, blockAddr, mask_or ha hb (by decide) blockMask_bits (by decide)]
  exact ⟨by decide,by decide,by decide,by decide,by decide,rfl⟩

theorem page4k_spec (h : FrameAddr pa) (w u x : Bool) :
    present (page4k pa w u x) = true ∧ writable (page4k pa w u x) = w ∧
    user (page4k pa w u x) = u ∧ large (page4k pa w u x) = false ∧
    noExecute (page4k pa w u x) = !x ∧ cacheDisabled (page4k pa w u x) = false ∧
    tableAddr (page4k pa w u x) = pa := by
  have hflags : (page4k 0 w u x) &&& addrMask = 0 := by
    cases w <;> cases u <;> cases x <;> decide
  have he : page4k pa w u x = BitVec.ofNat 64 pa ||| page4k 0 w u x := by
    cases w <;> cases u <;> cases x <;> rfl
  rw [he]
  obtain ⟨hp,hw,hu,hl,hc,hn,ha⟩ := or_spec h _ hflags
  rw [hp, hw, hu, hl, hc, hn, ha]
  refine ⟨?_,?_,?_,?_,?_,?_,rfl⟩ <;> cases w <;> cases u <;> cases x <;> decide

theorem page4kUc_spec (h : FrameAddr pa) :
    present (page4kUc pa) = true ∧ writable (page4kUc pa) = true ∧
    user (page4kUc pa) = false ∧ large (page4kUc pa) = false ∧
    noExecute (page4kUc pa) = false ∧ cacheDisabled (page4kUc pa) = true ∧
    tableAddr (page4kUc pa) = pa := by
  rw [page4kUc_flags]
  obtain ⟨hp,hw,hu,hl,hc,hn,ha⟩ := or_spec h 0x13#64 (by decide)
  rw [hp, hw, hu, hl, hc, hn, ha]
  exact ⟨by decide,by decide,by decide,by decide,by decide,by decide,rfl⟩

end Zohara.PageEntry
