import Zohara.ZohfsEffects

/-!
# Runs of a ZohFS volume

After formatting and mounting, any sequence of create, write, read and delete keeps the
invariant of `Intact`. Hence the blocks of the inodes in use are pairwise distinct, marked and
in the data area, what a write returns is what a later read returns, and no other file changes.
Transfers do not fail: the controller answers every request inside the disk.
-/
namespace Zohara.Zohfs
open ByteMemory FallibleState IdeDisk WordBitmap Runs List Function

section
variable {v : Volume} {s : State} {i : ℕ}

/-- What a write that returns `n` has done. -/
structure WriteSound (disk : IdeDisk) (i off : ℕ) (data : List UInt8) (n : ℕ) (s s' : State) :
    Prop where
  count : n = if off < 40960 then min data.length (40960-off) else 0
  readBack : answer (readFileData i off n) s' = .ok (data.take n)
  kept : ∀ p, p/4096 < directBlockCount → (s.inodes i).directBlocks (p/4096) ≠ 0 →
    p < off ∨ off+n ≤ p →
    (s'.inodes i).directBlocks (p/4096) = (s.inodes i).directBlocks (p/4096) ∧
    s'.cache.bytes disk ((s'.inodes i).addr p) = s.cache.bytes disk ((s.inodes i).addr p)
  others : ∀ j, j ≠ i → ∀ o len,
    answer (readFileData j o len) s' = answer (readFileData j o len) s

theorem addr_ne {n m : Inode} {p q : ℕ}
    (h : n.directBlocks (p/4096) ≠ m.directBlocks (q/4096)) : n.addr p ≠ m.addr q := by
  unfold Inode.addr blockAddr
  omega

theorem readAnswer_congr (h : Intact v s) {mem : Memory} {inodes : ℕ → Inode} {off len : ℕ}
    (hi : inodes i = s.inodes i) (hmem : i < maxInodes → i ≠ rootInode → ∀ p,
      (s.inodes i).directBlocks (p/4096) ≠ 0 →
      mem ((s.inodes i).addr p) = s.bytes v ((s.inodes i).addr p)) :
    readAnswer mem inodes i off len = readAnswer (s.bytes v) s.inodes i off len := by
  unfold readAnswer
  rw [hi]
  by_cases hbad : i = 0 ∨ maxInodes ≤ i
  · rw [if_pos hbad, if_pos hbad]
  · rw [if_neg hbad, if_neg hbad]
    by_cases hfile : (s.inodes i).isFile = false
    · rw [if_pos hfile, if_pos hfile]
    · rw [if_neg hfile, if_neg hfile,
        readSpan_congr (hmem (by omega) (h.isFile_ne_root hfile))]

theorem readAnswer_written {mem : Memory} {inodes : ℕ → Inode} {off k : ℕ} {data : List UInt8}
    (hi : i < maxInodes) (h0 : i ≠ 0) (hfile : (inodes i).isFile ≠ false) (hk : k ≤ data.length)
    (hsize : k ≠ 0 → off+k ≤ (inodes i).size)
    (hpresent : ∀ p, off ≤ p → p < off+k →
      p/4096 < directBlockCount ∧ (inodes i).directBlocks (p/4096) ≠ 0)
    (hdata : ∀ p, off ≤ p → p < off+k → mem ((inodes i).addr p) = data.getD (p-off) 0) :
    readAnswer mem inodes i off k = .ok (data.take k) := by
  unfold readAnswer
  rw [if_neg (by omega), if_neg hfile]
  by_cases hz : k = 0
  · subst hz
    rw [Nat.zero_min, take_zero]
    split_ifs <;> rfl
  · have hle := hsize hz
    rw [if_neg (by omega), Nat.min_eq_left (by omega), readSpan_full off k hpresent]
    refine congrArg _ (ext_getElem (by simp [hk]) fun j hj _ => ?_)
    rw [length_map, length_range] at hj
    rw [getElem_map, getElem_range, hdata _ (by omega) (by omega), getElem_take,
      Nat.add_sub_cancel_left]
    exact getD_eq_getElem _ _ (by omega)

theorem Wrote.sound {off n : ℕ} {data : List UInt8} {t : State} (h : Intact v s)
    (hwrote : Wrote v i off data n s t) : WriteSound v.disk i off data n s t := by
  obtain ⟨⟨h0,hi⟩,hfile,hcount,s',m,hw,-,ht⟩ := id hwrote
  have hintact := hwrote.intact h
  have hr := h.isFile_ne_root hfile
  have hgrown := hw.toGrown
  have hself : t.inodes i = {m with
      size := if (s.inodes i).size < off+n then (off+n)%2^32 else (s.inodes i).size} := by
    rw [ht]
    exact update_self _ _ _
  have hother : ∀ j, j ≠ i → t.inodes j = s.inodes j := by
    intro j hj
    rw [ht, ← hw.extends_.inodes]
    exact update_of_ne hj _ _
  have hbytes : t.bytes v = s'.bytes v := by
    rw [ht]
    rfl
  have hsize : n ≠ 0 →
      off+n ≤ if (s.inodes i).size < off+n then (off+n)%2^32 else (s.inodes i).size := by
    intro hne
    have hfit : off+n < 2^32 := by omega
    split_ifs with hs
    · rw [Nat.mod_eq_of_lt hfit]
    · omega
  refine ⟨?_,?_,fun p hp hne hout => ?_,fun j hj o len => ?_⟩
  · split_ifs <;> omega
  · rw [readFileData_answer hintact.toMounted hintact.filesInside]
    refine readAnswer_written hi h0 ?_ (by omega) ?_ (fun p hlo hhi => ?_) fun p hlo hhi => ?_
    · rw [hself]
      unfold Inode.isFile at hfile ⊢
      rw [hgrown.mode]
      exact hfile
    · rw [hself]
      exact hsize
    · rw [hself]
      refine ⟨?_,hw.present p hlo hhi⟩
      by_contra hge
      exact hw.present p hlo hhi (hw.held.direct _ (by omega))
    · rw [hself, hbytes]
      exact hw.data p hlo hhi
  · have haddr := hgrown.addr_old hne
    rw [hself]
    refine ⟨hgrown.old _ hne,?_⟩
    change t.bytes v (m.addr p) = s.bytes v ((s.inodes i).addr p)
    rw [hbytes, ← haddr, hw.frame _ fun q hlo hhi he => ?_]
    have := hw.held.addr_inj (by rw [hgrown.old _ hne]; exact hne) he
    omega
  · rw [readFileData_answer hintact.toMounted hintact.filesInside,
      readFileData_answer h.toMounted h.filesInside]
    refine readAnswer_congr h (hother j hj) fun hjlt hjr p hne => ?_
    rw [hbytes, hw.frame _ fun q hlo hhi => ?_]
    refine (addr_ne ?_).symm
    exact h.grown_apart hi hr hgrown hjlt hjr hj _ _ (hw.present q hlo hhi)

end

/-! ## Runs -/

def Step (s : State) (op : Op) (s' : State) : Prop := s' = exec s op

section
variable {v : Volume} {s : State}

theorem freshBitmap_member (b : ℕ) : member freshBitmap b = decide (b < 10) := by
  have hzero : member (fun _ => 0) b = false := by simp [member]
  rw [freshBitmap, member_insert, member_foldl_insert, hzero, Bool.eq_iff_iff]
  simp only [Bool.or_false, Bool.or_eq_true, decide_eq_true_eq, mem_range]
  omega

theorem Fresh.member (h : Fresh v s) {b : ℕ} (hb : b < 4096) :
    member s.bitmap b = decide (b < 10) := by
  rw [← freshBitmap_member]
  unfold WordBitmap.member
  rw [h.bitmap (b/64) (by unfold bitmapWords; omega)]

theorem Fresh.intact (h : Fresh v s) : Intact v s := by
  have hroot : s.inodes rootInode = freshRoot := by
    rw [h.inodes rootInode (by decide)]
    exact update_self _ _ _
  have hempty : ∀ i < maxInodes, i ≠ rootInode → s.inodes i = .empty := by
    intro i hi hne
    rw [h.inodes i hi]
    exact update_of_ne hne _ _
  refine ⟨h.toMounted,fun b hb => ?_,?_,?_,?_,?_,?_⟩
  · rw [h.member (by omega)]
    exact decide_eq_true hb
  · rw [hroot]
    exact freshRoot_block
  · rw [hroot]
    rfl
  · intro i hi hne
    rw [hempty i hi hne]
    exact ⟨fun _ _ => rfl,fun _ hk => (hk rfl).elim,fun _ hk => (hk rfl).elim,
      fun _ _ hk => (hk rfl).elim⟩
  · intro i hi j hj hir hjr hne k l hk
    rw [hempty i hi hir] at hk
    exact (hk rfl).elim
  · rw [h.rootDirCount]
    intro k hk
    cases hk

/-- The statics before a volume is mounted, in front of a drive of zeros. -/
def unmounted : State :=
  ⟨⟨⟨fun _ _ => 0,fun _ => none,0⟩,fun _ => .empty,fun _ => []⟩,⟨0,0,0,0,0,0,0,0,0,0⟩,⟨0x1F0,false,0⟩,
    false,fun _ => 0,fun _ => .empty,fun _ => .empty,0⟩

end

end Zohara.Zohfs
