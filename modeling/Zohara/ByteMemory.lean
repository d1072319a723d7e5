import Mathlib.Data.List.GetD
import Mathlib.Tactic.Ring
import Mathlib.Tactic.Linarith

/-!
# Byte-addressed memory and little-endian numbers

A memory is a total map from addresses to bytes. Writing replaces the bytes of
one range and nothing else; reading collects the bytes of one range. Fixed-width
numbers are stored least significant byte first, and a number that is written
and read back is reduced modulo its width.

The same definitions serve physical memory, where words have eight bytes, and
disks, where whole sectors are moved.
-/
namespace Zohara.ByteMemory
open List Function

abbrev Memory := ℕ → UInt8

def write (m : Memory) (a : ℕ) (bs : List UInt8) : Memory := fun x =>
  if a ≤ x ∧ x < a+bs.length then bs.getD (x-a) 0 else m x

def fill (m : Memory) (a n : ℕ) (v : UInt8) : Memory := fun x =>
  if a ≤ x ∧ x < a+n then v else m x

def read (m : Memory) (a n : ℕ) : List UInt8 := (List.range n).map fun i => m (a+i)

@[simp] theorem length_read (m : Memory) (a n : ℕ) : (read m a n).length = n := by
  simp [read]

theorem getD_read (m : Memory) (a : ℕ) {n i : ℕ} (h : i < n) :
    (read m a n).getD i 0 = m (a+i) := by
  simp [read, List.getD, h]

theorem read_congr {m m' : Memory} {a n : ℕ} (h : ∀ i < n, m' (a+i) = m (a+i)) :
    read m' a n = read m a n := by
  apply map_congr_left
  intro i hi
  exact h i (mem_range.mp hi)

variable {bs : List UInt8}

theorem write_inside (m : Memory) (a : ℕ) {i : ℕ} (h : i < bs.length) :
    write m a bs (a+i) = bs.getD i 0 := by
  rw [write, if_pos ⟨by omega,by omega⟩, Nat.add_sub_cancel_left]

theorem write_outside (m : Memory) {a x : ℕ}
    (h : x < a ∨ a+bs.length ≤ x) : write m a bs x = m x := by
  rw [write, if_neg (by omega)]

theorem fill_inside (m : Memory) {a n x : ℕ} (v : UInt8) (h : a ≤ x ∧ x < a+n) :
    fill m a n v x = v := if_pos h

theorem fill_outside (m : Memory) {a n x : ℕ} (v : UInt8) (h : x < a ∨ a+n ≤ x) :
    fill m a n v x = m x := if_neg (by omega)

theorem write_replicate (m : Memory) (a n : ℕ) (v : UInt8) :
    write m a (replicate n v) = fill m a n v := by
  funext x
  unfold write fill
  rw [length_replicate]
  split_ifs with h
  · exact getD_replicate v (by omega)
  · rfl

theorem read_write_self (m : Memory) (a : ℕ) (bs : List UInt8) :
    read (write m a bs) a bs.length = bs := by
  apply ext_getElem (by simp)
  intro i _ hi
  simp only [read, getElem_map, getElem_range]
  rw [write_inside m a hi, getD_eq_getElem _ _ hi]

theorem read_write_disjoint (m : Memory) {a b n : ℕ}
    (h : a+n ≤ b ∨ b+bs.length ≤ a) : read (write m b bs) a n = read m a n :=
  read_congr fun i hi => write_outside m (by omega)

theorem read_append (m : Memory) (a n k : ℕ) : read m a (n+k) = read m a n++read m (a+n) k := by
  unfold read
  rw [range_add, map_append, List.map_map]
  simp only [comp_def, Nat.add_assoc]

theorem take_drop_read (m : Memory) (a : ℕ) {n off k : ℕ} (h : off+k ≤ n) :
    ((read m a n).drop off).take k = read m (a+off) k := by
  obtain ⟨j,rfl⟩ := Nat.exists_eq_add_of_le h
  rw [Nat.add_assoc, read_append, drop_append_of_le_length (by rw [length_read]),
    drop_of_length_le (by rw [length_read]), nil_append, read_append,
    take_left' (length_read _ _ _)]

theorem read_getD (bs : List UInt8) {off k : ℕ} (h : off+k ≤ bs.length) :
    read (fun i => bs.getD i 0) off k = (bs.drop off).take k := by
  apply ext_getElem
  · simp only [length_read, length_take, length_drop]
    omega
  · intro i hi _
    rw [length_read] at hi
    simp only [read, getElem_map, getElem_range, getElem_take, getElem_drop]
    exact getD_eq_getElem _ _ (by omega)

theorem write_append (m : Memory) (a : ℕ) (bs cs : List UInt8) :
    write (write m a bs) (a+bs.length) cs = write m a (bs++cs) := by
  funext x
  unfold write
  rw [length_append]
  by_cases hx : a+bs.length ≤ x ∧ x < a+bs.length+cs.length
  · rw [if_pos hx, if_pos (by omega), getD_append_right _ _ _ _ (by omega), Nat.sub_add_eq]
  · rw [if_neg hx]
    by_cases hy : a ≤ x ∧ x < a+bs.length
    · rw [if_pos hy, if_pos (by omega), getD_append _ _ _ _ (by omega)]
    · rw [if_neg hy, if_neg (by omega)]

theorem write_read_self (m : Memory) (a n : ℕ) : write m a (read m a n) = m := by
  funext x
  by_cases hx : a ≤ x ∧ x < a+n
  · obtain ⟨i,rfl⟩ := Nat.exists_eq_add_of_le hx.1
    rw [write_inside m a (by rw [length_read]; omega), getD_read m a (by omega)]
  · rw [write_outside m (by rw [length_read]; omega)]

theorem write_read_replace (m : Memory) (a off k : ℕ) (bs : List UInt8) :
    write m a (read m a off++bs++read m (a+off+bs.length) k) = write m (a+off) bs := by
  have hlen : (read m a off).length = off := length_read m a off
  have htail : read (write m (a+off) bs) (a+off+bs.length) k = read m (a+off+bs.length) k :=
    read_write_disjoint m (.inr le_rfl)
  rw [← write_append, ← write_append, write_read_self, length_append, hlen, ← Nat.add_assoc,
    ← htail]
  exact write_read_self _ _ _

/-! ## Patches -/

/-- Bytes copied over a part of a buffer. -/
def patch (buf : List UInt8) (off : ℕ) (bs : List UInt8) : List UInt8 :=
  buf.take off++bs++buf.drop (off+bs.length)

variable {buf bs : List UInt8} {off : ℕ}

theorem length_patch (h : off+bs.length ≤ buf.length) : (patch buf off bs).length = buf.length := by
  unfold patch
  simp only [length_append, length_take, length_drop]
  omega

theorem patch_nil (buf : List UInt8) (off : ℕ) : patch buf off [] = buf := by
  rw [patch, append_nil, length_nil, Nat.add_zero, take_append_drop]

theorem append_patch (x y : List UInt8) (off : ℕ) (bs : List UInt8) :
    patch (x++y) (x.length+off) bs = x++patch y off bs := by
  unfold patch
  rw [take_length_add_append, Nat.add_assoc, drop_length_add_append]
  simp only [append_assoc]

theorem write_patch (m : Memory) (a : ℕ) {len off : ℕ}
    (h : off+bs.length ≤ len) : write m a (patch (read m a len) off bs) = write m (a+off) bs := by
  obtain ⟨k,rfl⟩ := Nat.exists_eq_add_of_le h
  have htake : (read m a (off+bs.length+k)).take off = read m a off := by
    rw [Nat.add_assoc, read_append]
    exact take_left' (length_read _ _ _)
  have hdrop : (read m a (off+bs.length+k)).drop (off+bs.length) = read m (a+off+bs.length) k := by
    rw [read_append, Nat.add_assoc]
    exact drop_left' (length_read _ _ _)
  rw [patch, htake, hdrop]
  exact write_read_replace m a off k bs

theorem patch_append {x y bs : List UInt8} (h : off+bs.length ≤ x.length) :
    patch (x++y) off bs = patch x off bs++y := by
  unfold patch
  rw [take_append_of_le_length (by omega), drop_append_of_le_length h]
  simp only [append_assoc]

theorem patch_append_split {x y bs cs : List UInt8} (h : off+bs.length = x.length) :
    patch (x++y) off (bs++cs) = patch x off bs++patch y 0 cs := by
  unfold patch
  rw [take_append_of_le_length (by omega), length_append, ← Nat.add_assoc, h,
    drop_append, drop_of_length_le (by omega), Nat.add_sub_cancel_left,
    drop_of_length_le (by omega : x.length ≤ x.length)]
  simp

theorem take_drop_patch (h : off+bs.length ≤ buf.length) :
    ((patch buf off bs).drop off).take bs.length = bs := by
  have hlen : (buf.take off).length = off := by
    rw [length_take]
    omega
  rw [patch, append_assoc, drop_left' hlen, take_left]

theorem getD_patch {off p : ℕ} (h : off+bs.length ≤ buf.length)
    (hp : p < off ∨ off+bs.length ≤ p) : (patch buf off bs).getD p 0 = buf.getD p 0 := by
  have hlen : (buf.take off).length = off := by
    rw [length_take]
    omega
  rcases hp with hp | hp
  · rw [patch, append_assoc, getD_append _ _ _ _ (by omega), getD_eq_getElem?_getD,
      getElem?_take_of_lt hp, ← getD_eq_getElem?_getD]
  · rw [patch, getD_append_right _ _ _ _ (by rw [length_append]; omega),
      length_append, hlen, getD_eq_getElem?_getD, getElem?_drop,
      Nat.add_sub_of_le hp, ← getD_eq_getElem?_getD]

/-! ## Little-endian numbers -/

def leNat : List UInt8 → ℕ
  | [] => 0
  | b::bs => b.toNat+256*leNat bs

def toLe : ℕ → ℕ → List UInt8
  | 0,_ => []
  | k+1,n => UInt8.ofNat n::toLe k (n/256)

@[simp] theorem length_toLe (k n : ℕ) : (toLe k n).length = k := by
  induction k generalizing n with
  | zero => rfl
  | succ k ih => simp [toLe, ih]

theorem leNat_lt (bs : List UInt8) : leNat bs < 256^bs.length := by
  induction bs with
  | nil => simp [leNat]
  | cons b bs ih =>
    have hb := b.toNat_lt
    simp only [leNat, length_cons, pow_succ]
    omega

theorem leNat_toLe (k n : ℕ) : leNat (toLe k n) = n%256^k := by
  induction k generalizing n with
  | zero => simp [toLe, leNat, Nat.mod_one]
  | succ k ih =>
    rw [toLe, leNat, ih, UInt8.toNat_ofNat', pow_succ' 256, Nat.mod_mul]

/-! ## Words of eight bytes -/

def readU64 (m : Memory) (a : ℕ) : BitVec 64 := BitVec.ofNat 64 (leNat (read m a 8))

def writeU64 (m : Memory) (a : ℕ) (v : BitVec 64) : Memory := write m a (toLe 8 v.toNat)

theorem readU64_writeU64_self (m : Memory) (a : ℕ) (v : BitVec 64) :
    readU64 (writeU64 m a v) a = v := by
  have h := read_write_self m a (toLe 8 v.toNat)
  rw [length_toLe] at h
  rw [readU64, writeU64, h, leNat_toLe]
  apply BitVec.eq_of_toNat_eq
  rw [BitVec.toNat_ofNat]
  have hv := v.isLt
  omega

theorem readU64_congr {m m' : Memory} {a : ℕ} (h : ∀ i < 8, m' (a+i) = m (a+i)) :
    readU64 m' a = readU64 m a := by
  rw [readU64, readU64, read_congr h]

theorem writeU64_outside (m : Memory) {a x : ℕ} (v : BitVec 64) (h : x < a ∨ a+8 ≤ x) :
    writeU64 m a v x = m x := write_outside m (by simpa using h)

theorem readU64_writeU64_disjoint (m : Memory) {a b : ℕ} (v : BitVec 64)
    (h : a+8 ≤ b ∨ b+8 ≤ a) : readU64 (writeU64 m b v) a = readU64 m a :=
  readU64_congr fun i hi => writeU64_outside m v (by omega)

end Zohara.ByteMemory
