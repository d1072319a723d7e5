import Zohara.ZohfsLeaks

/-!
# ZohFS files without gaps

A write may begin behind the end of its file. A block that it takes keeps its old bytes, a block
that it leaps over is missing, and an offset above ten blocks becomes the size of the file. Without
such writes every byte of a file has been written since its creation.
-/
namespace Zohara.Zohfs
open FallibleState IdeDisk Runs

/-- Which bytes of which inode have been written since its creation, one operation later. A write
that returns has written as many bytes as ten blocks have room for. -/
def covered (s : State) (cov : ℕ → ℕ → Prop) : Op → ℕ → ℕ → Prop
  | .write i off data => fun j p => cov j p ∨ j = i ∧ succeeds s (.write i off data) = true ∧
      off ≤ p ∧ p < off+min data.length (40960-off)
  | .createFile _ | .createDir _ => fun j p => cov j p ∧ (s.inodes j).mode ≠ 0
  | .read _ _ _ | .delete _ => cov

/-- Up to the end of a file its blocks are there, and its bytes have been written. -/
def Dense (s : State) (cov : ℕ → ℕ → Prop) : Prop :=
  ∀ i < maxInodes, (s.inodes i).isFile ≠ false → (s.inodes i).size ≤ 40960 ∧
    ∀ p < (s.inodes i).size, (s.inodes i).directBlocks (p/4096) ≠ 0 ∧ cov i p

section
variable {v : Volume} {s s' : State} {op : Op} {ok : Bool} {cov : ℕ → ℕ → Prop}

theorem Effect.file_cases (he : Effect v s s' op ok) (h : Intact v s) {j : ℕ}
    (hf : (s'.inodes j).isFile ≠ false) : (s'.inodes j).size = 0 ∨ s'.inodes j = s.inodes j ∨
      ∃ off data n, op = .write j off data ∧ ok = true ∧ Wrote v j off data n s s' := by
  have hjr := (he.intact h).isFile_ne_root hf
  cases he with
  | read same => exact .inr (.inl (by rw [same]; rfl))
  | @created _ _ _ _ i _ hc =>
    by_cases hji : j = i
    · rw [hji, hc.inode_self]
      exact .inl rfl
    · exact .inr (.inl (hc.inodes_ne hji hjr))
  | notCreated _ hn =>
    rcases hn with ⟨rfl,-⟩ | ⟨-,i,-,-,rfl⟩
    · exact .inr (.inl rfl)
    · by_cases hji : j = i
      · rw [hji]
        exact .inl (by simp [State.setInode])
      · exact .inr (.inl (Function.update_of_ne hji _ _))
  | @deleted _ idx hd =>
    by_cases hji : j = (s.rootDir idx).inode
    · rw [hji, hd.inode_self h] at hf
      exact absurd rfl hf
    · exact .inr (.inl (hd.inodes_ne h hji hjr))
  | notDeleted same => exact .inr (.inl (by rw [same]))
  | @wrote i off n data hw =>
    by_cases hji : j = i
    · subst hji
      exact .inr (.inr ⟨off,data,n,rfl,rfl,hw⟩)
    · obtain ⟨s₁,m,hwritten,-,rfl⟩ := hw.written
      rw [← hwritten.extends_.inodes]
      exact .inr (.inl (Function.update_of_ne hji _ _))
  | notWritten hn => exact .inr (.inl (by rw [(hn.extends_ h.toMounted).inodes]))

theorem Dense.step (hd : Dense s cov) (h : Intact v s)
    (hgap : ∀ i off data, op = .write i off data → off ≤ (s.inodes i).size) :
    Dense (exec s op) (covered s cov op) := by
  intro j hj hf
  rcases (exec_effect h op).file_cases h hf with hz | hsame | ⟨off,data,n,rfl,hok,hw⟩
  · rw [hz]
    exact ⟨by decide,nofun⟩
  · rw [hsame] at hf ⊢
    obtain ⟨hle,hall⟩ := hd j hj hf
    have hmode : (s.inodes j).mode ≠ 0 := fun hm => hf (by simp [Inode.isFile, hm])
    refine ⟨hle,fun p hp => ⟨(hall p hp).1,?_⟩⟩
    cases op with
    | write i off data => exact .inl (hall p hp).2
    | createFile name | createDir name => exact ⟨(hall p hp).2,hmode⟩
    | read i off len | delete name => exact (hall p hp).2
  · obtain ⟨hle,hall⟩ := hd j hj hw.file
    have hoff := hgap j off data rfl
    have hcount := hw.count
    obtain ⟨s₁,m,hwritten,-,ht⟩ := hw.written
    have hself : (exec s (.write j off data)).inodes j = {m with
        size := if (s.inodes j).size < off+n then (off+n)%2^32 else (s.inodes j).size} := by
      rw [ht]
      exact Function.update_self ..
    rw [hself]
    dsimp only
    rw [Nat.mod_eq_of_lt (by omega)]
    refine ⟨by split_ifs <;> omega,fun p hp => ?_⟩
    by_cases hold : p < (s.inodes j).size
    · rw [hwritten.old _ (hall p hold).1]
      exact ⟨(hall p hold).1,.inl (hall p hold).2⟩
    · have hnew : off ≤ p ∧ p < off+n := by
        split_ifs at hp <;> omega
      exact ⟨hwritten.present p hnew.1 hnew.2,.inr ⟨rfl,hok,hnew.1,hcount ▸ hnew.2⟩⟩

theorem Dense.read (hd : Dense s cov) (h : Intact v s) {i off : ℕ} (hi : i ≠ 0 ∧ i < maxInodes)
    (hf : (s.inodes i).isFile ≠ false) (hoff : off < (s.inodes i).size) (len : ℕ) :
    ∃ bs, answer (readFileData i off len) s = .ok bs ∧
      bs.length = min len ((s.inodes i).size-off) ∧
      ∀ k < bs.length, ¬cov i (off+k) → bs.getD k 0 = 0 := by
  obtain ⟨hle,hall⟩ := hd i hi.2 hf
  have hspan := @readSpan_full (s.inodes i) (s.bytes v) off (min len ((s.inodes i).size-off))
    fun p _ hp => ⟨by unfold directBlockCount; omega,(hall p (by omega)).1⟩
  have hlen := congrArg List.length hspan
  rw [List.length_map, List.length_range] at hlen
  refine ⟨_,?_,hlen,fun k hk hnew => absurd (hall (off+k) (by omega)).2 hnew⟩
  rw [readFileData_answer h.toMounted h.filesInside, readAnswer, if_neg (by omega), if_neg hf,
    if_neg (by omega)]

end

end Zohara.Zohfs
