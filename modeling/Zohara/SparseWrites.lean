import Zohara.ByteMemory

/-!
# Writes on a zeroed array

A list of writes, each bytes at an offset, oldest first. `applied` is the array that is long
enough for all of them, filled with zeros, with the writes copied into it in order. `extend`
fills a buffer up with zeros; a write that first extends the buffer keeps pace with `applied`.
-/
namespace Zohara.SparseWrites
open ByteMemory List

abbrev Writes := List (ℕ × List UInt8)

/-- The furthest end of a write. -/
def extent (ws : Writes) : ℕ := (ws.map fun w => w.1+w.2.length).foldr max 0

def applyAll (buf : List UInt8) (ws : Writes) : List UInt8 :=
  ws.foldl (fun buf w => patch buf w.1 w.2) buf

def applied (ws : Writes) : List UInt8 := applyAll (List.replicate (extent ws) 0) ws

def extend (buf : List UInt8) (len : ℕ) : List UInt8 := buf++List.replicate (len-buf.length) 0

theorem length_extend (buf : List UInt8) (len : ℕ) :
    (extend buf len).length = max buf.length len := by
  simp only [extend, length_append, length_replicate]
  omega

theorem extent_snoc (ws : Writes) (off : ℕ) (bs : List UInt8) :
    extent (ws++[(off,bs)]) = max (extent ws) (off+bs.length) := by
  induction ws with
  | nil => simp [extent]
  | cons w ws ih =>
    simp only [extent, cons_append, map_cons, foldr_cons] at ih ⊢
    rw [ih, Nat.max_assoc]

theorem le_extent {ws : Writes} {w : ℕ × List UInt8} (h : w ∈ ws) :
    w.1+w.2.length ≤ extent ws := by
  induction ws with
  | nil => exact absurd h not_mem_nil
  | cons v ws ih =>
    simp only [extent, map_cons, foldr_cons] at ih ⊢
    rcases mem_cons.mp h with rfl | htail
    · exact Nat.le_max_left _ _
    · exact Nat.le_trans (ih htail) (Nat.le_max_right _ _)

theorem applyAll_append (x y : List UInt8) (ws : Writes)
    (h : ∀ w ∈ ws, w.1+w.2.length ≤ x.length) :
    (applyAll x ws).length = x.length ∧ applyAll (x++y) ws = applyAll x ws++y := by
  induction ws generalizing x with
  | nil => exact ⟨rfl,rfl⟩
  | cons w ws ih =>
    have hw := h w mem_cons_self
    have hlen := length_patch hw
    have hrest : ∀ v ∈ ws, v.1+v.2.length ≤ (patch x w.1 w.2).length := by
      intro v hv
      rw [hlen]
      exact h v (mem_cons_of_mem w hv)
    obtain ⟨hl,heq⟩ := ih (patch x w.1 w.2) hrest
    simp only [applyAll, foldl_cons] at hl heq ⊢
    rw [patch_append hw]
    exact ⟨hl.trans hlen,heq⟩

theorem length_applied (ws : Writes) : (applied ws).length = extent ws := by
  have h := (applyAll_append (List.replicate (extent ws) 0) [] ws fun w hw => by
    rw [length_replicate]
    exact le_extent hw).1
  rwa [length_replicate] at h

theorem applied_snoc (ws : Writes) (off : ℕ) (bs : List UInt8) :
    applied (ws++[(off,bs)]) = patch (extend (applied ws) (off+bs.length)) off bs := by
  have hlong : List.replicate (extent (ws++[(off,bs)])) (0 : UInt8) =
      List.replicate (extent ws) 0++List.replicate (off+bs.length-extent ws) 0 := by
    rw [replicate_append_replicate, extent_snoc]
    congr 1
    omega
  have hold := (applyAll_append (List.replicate (extent ws) 0)
    (List.replicate (off+bs.length-extent ws) 0) ws fun w hw => by
      rw [length_replicate]
      exact le_extent hw).2
  unfold applied extend
  rw [hlong, ← applied, length_applied]
  unfold applyAll at hold ⊢
  rw [foldl_append, hold]
  rfl

end Zohara.SparseWrites
