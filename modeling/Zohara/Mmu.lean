import Zohara.TableHeap

/-!
# What the processor makes of the tables

`translate` is the four-level walk of x86-64 over the tables in physical
memory. Permissions combine over the levels that are read: a page is writable or
user-accessible when every level allows it, and not executable when some level
forbids it. Accessed and dirty bits, reserved-bit faults, translation caches
and the control registers that switch protections off are left out.

This is a statement about the processor and not a translation of source code.
The page-table code is measured against it.
-/
namespace Zohara.Mmu
open PageEntry PageTables TableTree TableHeap

/-- Bits 63 to 48 of a canonical address repeat bit 47. -/
def Canonical (va : ℕ) : Prop := va < 2^47 ∨ (2^64-2^47 ≤ va ∧ va < 2^64)

instance (va : ℕ) : Decidable (Canonical va) := inferInstanceAs (Decidable (_ ∨ _))

structure Translation where
  pa : ℕ
  writable : Bool
  user : Bool
  noExecute : Bool
  deriving DecidableEq, Repr

/-- The permissions of a walk that read the entries `es`. -/
def Translation.of (pa : ℕ) (es : List Entry) : Translation :=
  ⟨pa,es.all PageEntry.writable,es.all PageEntry.user,es.any PageEntry.noExecute⟩

/-- The base of a 1 GiB page. -/
def gigaAddr (e : Entry) : ℕ := (e &&& 0x000FFFFFC0000000#64).toNat

def translate (m : Machine) (root va : ℕ) : Option Translation :=
  let e1 := m.entry root (pml4Idx va)
  if !present e1 then none else
  let e2 := m.entry (tableAddr e1) (pdptIdx va)
  if !present e2 then none else
  if large e2 then some (.of (gigaAddr e2+va%2^30) [e1,e2]) else
  let e3 := m.entry (tableAddr e2) (pdIdx va)
  if !present e3 then none else
  if large e3 then some (.of (blockAddr e3+va%2^21) [e1,e2,e3]) else
  let e4 := m.entry (tableAddr e3) (ptIdx va)
  if !present e4 then none else some (.of (tableAddr e4+va%2^12) [e1,e2,e3,e4])

/-- The byte at a virtual address. -/
def readVirt (m : Machine) (root va : ℕ) : Option UInt8 :=
  (translate m root va).map fun t => m.mem t.pa

section
variable {m : Machine} {root pdpt pd pt va : ℕ} {e1 e2 e3 : Entry}

theorem translate_lower (h1 : m.entry root (pml4Idx va) = e1) (p1 : present e1 = true)
    (a1 : tableAddr e1 = pdpt) (h2 : m.entry pdpt (pdptIdx va) = e2) (p2 : present e2 = true)
    (l2 : large e2 = false) (a2 : tableAddr e2 = pd) :
    translate m root va =
      (let e3 := m.entry pd (pdIdx va)
      if !present e3 then none else
      if large e3 then some (.of (blockAddr e3+va%2^21) [e1,e2,e3]) else
      let e4 := m.entry (tableAddr e3) (ptIdx va)
      if !present e4 then none else some (.of (tableAddr e4+va%2^12) [e1,e2,e3,e4])) := by
  simp only [translate, h1, p1, a1, h2, p2, l2, a2, Bool.not_true, Bool.false_eq_true, if_false]

theorem isUserMapped_lower (h1 : m.entry root (pml4Idx va) = e1) (p1 : present e1 = true)
    (a1 : tableAddr e1 = pdpt) (h2 : m.entry pdpt (pdptIdx va) = e2) (p2 : present e2 = true)
    (a2 : tableAddr e2 = pd) :
    isUserMapped m root va =
      (let e3 := m.entry pd (pdIdx va)
      if !present e3 then false else
      if large e3 then user e3 else
      let e4 := m.entry (tableAddr e3) (ptIdx va)
      if !present e4 then false else user e4) := by
  simp only [isUserMapped, h1, p1, a1, h2, p2, a2, Bool.not_true, Bool.false_eq_true, if_false]

end

/-! ## The walk reads only the table tree -/

section
variable {m m' : Machine} {r va : ℕ}

theorem child_of_table {e : Entry} (hp : present e = true) (hl : large e = false) :
    child e = some (tableAddr e/4096) := by
  simp [child, hp, hl]

/-- The cells of the tables at most three steps below `r` are the same. -/
def SameTree (m m' : Machine) (r : ℕ) : Prop :=
  ∀ p f i, Path 3 512 p → node child (cell m) r p = some f → i < 512 → cell m' f i = cell m f i

theorem SameTree.entry (h : SameTree m m' r) {p : List ℕ} {f t i : ℕ} (hp : Path 3 512 p)
    (hf : node child (cell m) r p = some f) (ht : t = f*4096) (hi : i < 512) :
    m'.entry t i = m.entry t i := by
  subst ht
  exact h p f i hp hf hi

theorem node_step {p : List ℕ} {f i : ℕ} (hf : node child (cell m) r p = some f)
    (hp : present (m.entry (f*4096) i) = true) (hl : large (m.entry (f*4096) i) = false) :
    node child (cell m) r (p++[i]) = some (tableAddr (m.entry (f*4096) i)/4096) := by
  rw [node_snoc_of hf]
  exact child_of_table hp hl

theorem translate_congr (h : SameTree m m' r)
    (hroot : ∀ i < 512, present (cell m r i) = true → large (cell m r i) = false) :
    translate m' (r*4096) va = translate m (r*4096) va := by
  have i1 := pml4Idx_lt va
  have i2 := pdptIdx_lt va
  have i3 := pdIdx_lt va
  have q0 : Path 3 512 [] := ⟨by simp,by simp⟩
  have h1 := h.entry q0 rfl rfl i1
  unfold translate
  rw [h1]
  cases p1 : present (m.entry (r*4096) (pml4Idx va)) with
  | false => simp only [p1, Bool.not_false, if_true]
  | true =>
    have n1 : node child (cell m) r [pml4Idx va] =
        some (tableAddr (m.entry (r*4096) (pml4Idx va))/4096) :=
      node_step (p := []) rfl p1 (hroot _ i1 p1)
    have q1 : Path 3 512 [pml4Idx va] := ⟨by simp,by simpa using i1⟩
    have h2 := h.entry q1 n1 (tableAddr_aligned _).symm i2
    have a1 := tableAddr_aligned (m.entry (r*4096) (pml4Idx va))
    simp only [p1, h2]
    generalize hQ : tableAddr (m.entry (r*4096) (pml4Idx va))/4096 = Q at n1 a1
    rw [← a1]
    cases p2 : present (m.entry (Q*4096) (pdptIdx va)) with
    | false => simp only [Bool.not_false, if_true]
    | true =>
      cases l2 : large (m.entry (Q*4096) (pdptIdx va)) with
      | true => simp only [if_true]
      | false =>
        have n2 := node_step n1 p2 l2
        have q2 : Path 3 512 ([pml4Idx va]++[pdptIdx va]) := q1.snoc (by simp) i2
        have h3 := h.entry q2 n2 (tableAddr_aligned _).symm i3
        have a2 := tableAddr_aligned (m.entry (Q*4096) (pdptIdx va))
        simp only [h3]
        generalize hD : tableAddr (m.entry (Q*4096) (pdptIdx va))/4096 = D at n2 a2
        rw [← a2]
        cases p3 : present (m.entry (D*4096) (pdIdx va)) with
        | false => simp only [Bool.not_false, if_true]
        | true =>
          cases l3 : large (m.entry (D*4096) (pdIdx va)) with
          | true => simp only [if_true]
          | false =>
            have n3 := node_step n2 p3 l3
            have q3 : Path 3 512 (([pml4Idx va]++[pdptIdx va])++[pdIdx va]) :=
              q2.snoc (by simp) i3
            have h4 := h.entry q3 n3 (tableAddr_aligned _).symm (ptIdx_lt va)
            simp only [h4]

end

end Zohara.Mmu
