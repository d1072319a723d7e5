import Zohara.ZohfsDirectory

/-!
# The ZohFS tables after any call

What create_file and write_file_data do to the tables in memory, from every state of the
statics and for every answer of the drive: nothing here assumes that a volume is intact or
that a transfer works. Work on the cache leaves the tables alone. A creation takes the first
free inode, then the directory entry; a write takes blocks one at a time, and the inode gets
them only at the end. Neither undoes what it has done, so a call that fails leaves the tables
alone just when it fails before its first change.
-/
namespace Zohara.Zohfs
open ByteMemory FallibleState IdeDisk BufferCache WordBitmap

/-! ## Only the cache changes -/

/-- Whatever the answer, only the cache is different. -/
def Quiet {α : Type} (x : Action State α) : Prop :=
  ∀ s, Ends x s (fun _ s' => ∃ c, s' = s.withCache c) fun _ s' => ∃ c, s' = s.withCache c

section
variable {α β : Type} {x : Action State α} {f : α → Action State β}

theorem Quiet.bind (h : Quiet x) (hf : ∀ a, Quiet (f a)) : Quiet (x >>= f) := by
  intro s
  apply (h s).bind
  intro a s₁ h₁
  obtain ⟨c₁,rfl⟩ := h₁
  exact hf a (s.withCache c₁)

end

/-- Blocks have been taken, in this order. -/
def State.take (s : State) (l : List ℕ) : State :=
  {s with
    bitmap := l.foldl insert s.bitmap
    fsSuper := {s.fsSuper with freeBlocks := s.fsSuper.freeBlocks-l.length}}

/-- The blocks that alloc_block looks at. -/
def State.blocks (s : State) : ℕ := min 4096 s.fsSuper.totalBlocks

/-- The tables and the inode at hand after blocks have been taken for missing ones. -/
structure Takes (s : State) (n : Inode) (s' : State) (n' : Inode) (l : List ℕ) : Prop where
  state : ∃ c, s' = (s.take l).withCache c
  nodup : l.Nodup
  clear : ∀ b ∈ l, b < s.blocks ∧ member s.bitmap b = false
  none : l = [] → n' = n
  old : ∀ k, n.directBlocks k ≠ 0 → n'.directBlocks k = n.directBlocks k

section
variable {s s' s'' : State} {n n' n'' : Inode} {l l' : List ℕ}

theorem State.take_nil (s : State) : s.take [] = s := rfl

theorem State.take_append (s : State) (l l' : List ℕ) : (s.take l).take l' = s.take (l++l') := by
  unfold State.take
  simp only [List.foldl_append, List.length_append, Nat.sub_sub]

theorem member_take {b : ℕ} : member (s.take l).bitmap b = true ↔ b ∈ l ∨ member s.bitmap b = true := by
  change member (l.foldl insert s.bitmap) b = true ↔ _
  rw [member_foldl_insert, Bool.or_eq_true, decide_eq_true_eq]

theorem Takes.refl (s : State) (n : Inode) : Takes s n s n [] :=
  ⟨⟨s.cache,rfl⟩,List.nodup_nil,by simp,fun _ => rfl,fun _ _ => rfl⟩

theorem Takes.withCache (h : Takes s n s' n' l) (c : Cache) : Takes s n (s'.withCache c) n' l := by
  obtain ⟨c',rfl⟩ := h.state
  exact ⟨⟨c,rfl⟩,h.nodup,h.clear,h.none,h.old⟩

theorem Takes.trans (h : Takes s n s' n' l) (h' : Takes s' n' s'' n'' l') :
    Takes s n s'' n'' (l++l') := by
  obtain ⟨c,rfl⟩ := h.state
  obtain ⟨c',rfl⟩ := h'.state
  have hfresh : ∀ b ∈ l', b ∉ l ∧ member s.bitmap b = false := by
    intro b hb
    have hclear := (h'.clear b hb).2
    rw [Bool.eq_false_iff, ne_eq] at hclear ⊢
    exact not_or.mp (hclear ∘ member_take.mpr)
  refine ⟨⟨c',by rw [← State.take_append]; rfl⟩,?_,fun b hb => ?_,fun hnil => ?_,fun k hk => ?_⟩
  · rw [List.nodup_append']
    exact ⟨h.nodup,h'.nodup,fun b hb hb' => (hfresh b hb').1 hb⟩
  · exact (List.mem_append.mp hb).elim (h.clear b) fun hb => ⟨(h'.clear b hb).1,(hfresh b hb).2⟩
  · rw [List.append_eq_nil_iff] at hnil
    rw [h'.none hnil.2, h.none hnil.1]
  · have hold := h.old k hk
    rw [h'.old k (hold ▸ hk), hold]

/-- The turn of the loop after the block is at hand. -/
def storeChunk (n : Inode) (pos : ℕ) (bs : List UInt8) : Action State Unit := do
  let s ← get
  let sector := blockSector s.fsSuper.dataStartSector (n.directBlocks (pos/blockSize))
  let blockBuf ← onCache (readBlockFrom s.fsDisk sector 0 sectorsPerBlock)
  onCache (writeBlockFrom s.fsDisk sector (patch blockBuf (pos%blockSize) bs) 0 sectorsPerBlock)

theorem writeLoop_eq (data : List UInt8) (pos written : ℕ) (n : Inode) :
    writeLoop data pos written n =
      if written < data.length then
        if directBlockCount ≤ pos/blockSize then pure (written,n)
        else do
          let n ← ensureBlock n (pos/blockSize)
          let m := min (data.length-written) (blockSize-pos%blockSize)
          storeChunk n pos ((data.drop written).take m)
          writeLoop data (pos+m) (written+m) n
      else pure (written,n) := by
  rw [writeLoop]
  split_ifs
  · rfl
  · simp only [storeChunk, bind_assoc]
  · rfl

/-- The first block that a file lacks among those of the positions `off ≤ p < off+len`. -/
structure Lacks (n : Inode) (off len k : ℕ) : Prop where
  lo : off/4096 ≤ k
  hi : k < directBlockCount
  reached : ∃ p, off ≤ p ∧ p < off+len ∧ p/4096 = k
  missing : n.directBlocks k = 0
  first : ∀ j, off/4096 ≤ j → j < k → n.directBlocks j ≠ 0

variable {data : List UInt8}

/-- Up to a block boundary the loop is the loop on the first part of the data. -/
theorem writeLoop_split {off m : ℕ} (hm : m ≤ data.length) {pos written : ℕ}
    (n : Inode) (hpos : pos = off+written) (hw : written ≤ m)
    (halign : written < m → (off+m)%4096 = 0) : writeLoop data pos written n =
      writeLoop (data.take m) pos written n >>= fun r => writeLoop data (off+r.1) r.1 r.2 := by
  have hlen : (data.take m).length = m := by
    rw [List.length_take]
    omega
  induction hk : m-written using Nat.strong_induction_on generalizing pos written n with
  | _ k ih =>
    rw [writeLoop_eq (data.take m), hlen]
    by_cases hlt : written < m
    · rw [if_pos hlt]
      split_ifs with hidx
      · rw [pure_bind, hpos]
      · rw [writeLoop_eq data pos, if_pos (by omega), if_neg hidx]
        unfold blockSize
        have hq : min (data.length-written) (4096-pos%4096) = 4096-pos%4096 ∧
            min (m-written) (4096-pos%4096) = 4096-pos%4096 := by
          have := halign hlt
          omega
        rw [hq.1, hq.2]
        generalize hqq : 4096-pos%4096 = q
        have hfit : written+q ≤ m := by
          have := halign hlt
          omega
        have hchunk : ((data.take m).drop written).take q = (data.drop written).take q := by
          rw [List.drop_take, List.take_take, Nat.min_eq_left (by omega)]
        simp only [bind_assoc, hchunk]
        refine bind_congr fun n₁ => bind_congr fun _ => ?_
        exact ih _ (by omega) n₁ (by omega) hfit (fun _ => halign hlt) rfl
    · rw [if_neg hlt, pure_bind, hpos]

/-- The loop reaches the first block that the file lacks, and there is a clear bit for it. -/
def Reaches (s : State) (n : Inode) (off : ℕ) (data : List UInt8) : Prop :=
  ∃ k, Lacks n off data.length k ∧ (∃ b < s.blocks, member s.bitmap b = false) ∧
    ∃ r s₁, writeLoop (data.take (k*4096-off)) off 0 n s = .ok r s₁

section
variable {off k : ℕ} {data : List UInt8}

theorem Lacks.part_le (h : Lacks n off data.length k) : k*4096-off < data.length := by
  obtain ⟨p,hlo,hhi,hp⟩ := h.reached
  omega

theorem Lacks.split (h : Lacks n off data.length k) : writeLoop data off 0 n =
    writeLoop (data.take (k*4096-off)) off 0 n >>= fun r => writeLoop data (off+r.1) r.1 r.2 :=
  writeLoop_split h.part_le.le n rfl (Nat.zero_le _) fun hlt => by omega

end

end

/-! ## Calls that fail -/

section
variable {s s' : State} {i off : ℕ} {data : List UInt8} {e : Fault}

end

end Zohara.Zohfs
