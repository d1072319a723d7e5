import Zohara.FrameAllocator
import Zohara.Runs
import Mathlib.Data.Nat.Count

/-!
# The frame allocator as a set of used frames

The abstract state is the finite set of used frames below the active frame
count. Each operation of the bitmap model is compared with the set operation it
stands for, and the comparison is carried over every run that starts with
set_total_ram and init.

Two branches of mark_used do not mark what they are asked to mark. Its guard
compares with the end of RAM in bytes while reinit rounds the frame count up to
whole words, and below RAM_BASE the saturating subtraction lands on frame zero.
`MarkPlaced` says that neither branch is taken; both are conditions on the
arguments and the state before the call.
-/
namespace Zohara.FrameRefinement
open WordBitmap FrameAllocator Runs Finset

variable {s s' : State} {arch : Arch}

/-- The set the bitmap stands for. -/
def usedFrames (s : State) : Finset ℕ :=
  (Finset.range s.actualFrameCount).filter fun f => member s.bitmap f = true

variable {f : ℕ}

theorem mem_usedFrames : f ∈ usedFrames s ↔ f < s.actualFrameCount ∧ member s.bitmap f = true := by
  simp [usedFrames]

/-- The frame shares a byte with the half-open range. -/
def Overlaps (arch : Arch) (start fin f : ℕ) : Prop :=
  start < fin ∧ start < startAddress arch (f+1) ∧ startAddress arch f < fin

instance (arch : Arch) (start fin f : ℕ) : Decidable (Overlaps arch start fin f) :=
  inferInstanceAs (Decidable (_ ∧ _ ∧ _))

/-- What every reachable allocator state satisfies. Bits at and above the frame
count are clear, so frames that reinit starts to track are free. -/
structure Valid (s : State) : Prop where
  positive : 1 ≤ s.actualFrameCount
  words : s.actualWords = (s.totalRam/frameSize+63)/64
  ram : s.totalRam/frameSize ≤ s.actualFrameCount
  covered : s.actualFrameCount ≤ 64*s.actualWords
  capped : s.totalRam ≤ maxFrameCount*frameSize
  tail : ∀ f, s.actualFrameCount ≤ f → member s.bitmap f = false

theorem Valid.count_le (h : Valid s) : s.actualFrameCount ≤ maxFrameCount := by
  have hw := h.words
  have hc := h.covered
  have ht : s.totalRam/frameSize ≤ maxFrameCount :=
    Nat.div_le_of_le_mul (by rw [Nat.mul_comm]; exact h.capped)
  unfold maxFrameCount maxWords at *
  omega

/-! ## One bit at a time -/

@[simp] theorem setUsed_actualFrameCount (f : ℕ) (s : State) :
    (setUsed f s).actualFrameCount = s.actualFrameCount := by
  unfold setUsed; split_ifs <;> rfl

@[simp] theorem setUsed_actualWords (f : ℕ) (s : State) :
    (setUsed f s).actualWords = s.actualWords := by
  unfold setUsed; split_ifs <;> rfl

@[simp] theorem setUsed_totalRam (f : ℕ) (s : State) :
    (setUsed f s).totalRam = s.totalRam := by
  unfold setUsed; split_ifs <;> rfl

theorem member_setUsed (f g : ℕ) (s : State) : member (setUsed f s).bitmap g =
    (decide (g = f ∧ f < s.actualFrameCount) || member s.bitmap g) := by
  unfold setUsed
  split_ifs with h
  · have hn : ¬(g = f ∧ f < s.actualFrameCount) := by omega
    simp [hn]
  · have hf : f < s.actualFrameCount := by omega
    simp [member_insert, hf]

theorem usedFrames_setUsed (hf : f < s.actualFrameCount) :
    usedFrames (setUsed f s) = Insert.insert f (usedFrames s) := by
  ext g
  simp only [mem_usedFrames, setUsed_actualFrameCount, member_setUsed, mem_insert,
    Bool.or_eq_true, decide_eq_true_eq]
  constructor
  · rintro ⟨hg,⟨he,-⟩ | hm⟩
    · exact .inl he
    · exact .inr ⟨hg,hm⟩
  · rintro (rfl | ⟨hg,hm⟩)
    · exact ⟨hf,.inl ⟨rfl,hf⟩⟩
    · exact ⟨hg,.inr hm⟩

theorem setUsed_valid (h : Valid s) : Valid (setUsed f s) := by
  refine ⟨by simpa using h.positive,by simpa using h.words,by simpa using h.ram,
    by simpa using h.covered,by simpa using h.capped,?_⟩
  intro g hg
  rw [setUsed_actualFrameCount] at hg
  have hn : ¬(g = f ∧ f < s.actualFrameCount) := by omega
  rw [member_setUsed, h.tail g hg]
  simp [hn]

theorem deallocateFrame_eq (f : ℕ) (s : State) : deallocateFrame f s = setFree f s := by
  unfold deallocateFrame setFree
  split_ifs <;> rfl

@[simp] theorem deallocateFrame_actualFrameCount (f : ℕ) (s : State) :
    (deallocateFrame f s).actualFrameCount = s.actualFrameCount := by
  rw [deallocateFrame_eq]; unfold setFree; split_ifs <;> rfl

@[simp] theorem deallocateFrame_totalRam (f : ℕ) (s : State) :
    (deallocateFrame f s).totalRam = s.totalRam := by
  rw [deallocateFrame_eq]; unfold setFree; split_ifs <;> rfl

@[simp] theorem deallocateFrame_actualWords (f : ℕ) (s : State) :
    (deallocateFrame f s).actualWords = s.actualWords := by
  rw [deallocateFrame_eq]; unfold setFree; split_ifs <;> rfl

theorem member_deallocateFrame (f g : ℕ) (s : State) : member (deallocateFrame f s).bitmap g =
    (!decide (g = f ∧ f < s.actualFrameCount) && member s.bitmap g) := by
  rw [deallocateFrame_eq]
  unfold setFree
  split_ifs with h
  · have hn : ¬(g = f ∧ f < s.actualFrameCount) := by omega
    simp [hn]
  · have hf : f < s.actualFrameCount := by omega
    simp [member_erase, hf]

/-- A frame outside the tracked range is not in the set, so erasing it there
changes nothing either. -/
theorem usedFrames_deallocateFrame (f : ℕ) (s : State) :
    usedFrames (deallocateFrame f s) = (usedFrames s).erase f := by
  ext g
  simp only [mem_usedFrames, deallocateFrame_actualFrameCount, member_deallocateFrame,
    mem_erase, Bool.and_eq_true, Bool.not_eq_true', decide_eq_false_iff_not, ne_eq]
  constructor
  · rintro ⟨hg,hn,hm⟩
    exact ⟨fun he => hn ⟨he,he ▸ hg⟩,hg,hm⟩
  · rintro ⟨hn,hg,hm⟩
    exact ⟨hg,fun he => hn he.1,hm⟩

theorem deallocateFrame_valid (h : Valid s) : Valid (deallocateFrame f s) := by
  refine ⟨by simpa using h.positive,by simpa using h.words,by simpa using h.ram,
    by simpa using h.covered,by simpa using h.capped,?_⟩
  intro g hg
  rw [deallocateFrame_actualFrameCount] at hg
  rw [member_deallocateFrame, h.tail g hg, Bool.and_false]

/-! ## Ranges -/

theorem foldl_setUsed (fs : List ℕ) (s : State) :
    (fs.foldl (fun s f => setUsed f s) s).actualFrameCount = s.actualFrameCount ∧
    (fs.foldl (fun s f => setUsed f s) s).totalRam = s.totalRam ∧
    usedFrames (fs.foldl (fun s f => setUsed f s) s) =
      usedFrames s ∪ (fs.toFinset.filter (· < s.actualFrameCount)) := by
  induction fs generalizing s with
  | nil => simp
  | cons f fs ih =>
    obtain ⟨hc,hr,hu⟩ := ih (setUsed f s)
    rw [setUsed_actualFrameCount] at hc hu
    rw [setUsed_totalRam] at hr
    refine ⟨hc,hr,?_⟩
    rw [List.foldl_cons, hu]
    by_cases hf : f < s.actualFrameCount
    · rw [usedFrames_setUsed hf]
      ext g
      simp only [mem_union, mem_insert, mem_filter, List.mem_toFinset,
        List.toFinset_cons]
      constructor
      · rintro ((rfl | h) | h)
        · exact .inr ⟨.inl rfl,hf⟩
        · exact .inl h
        · exact .inr ⟨.inr h.1,h.2⟩
      · rintro (h | ⟨rfl | h,hl⟩)
        · exact .inl (.inr h)
        · exact .inl (.inl rfl)
        · exact .inr ⟨h,hl⟩
    · have hs : setUsed f s = s := by simp [setUsed, show s.actualFrameCount ≤ f by omega]
      rw [hs, List.toFinset_cons, filter_insert, if_neg hf]

theorem foldl_setUsed_valid (fs : List ℕ) (h : Valid s) :
    Valid (fs.foldl (fun s f => setUsed f s) s) := by
  induction fs generalizing s with
  | nil => exact h
  | cons f fs ih => exact ih (setUsed_valid h)

theorem markUsed_valid (arch : Arch) (start fin : ℕ) (h : Valid s) :
    Valid (markUsed arch start fin s) := by
  unfold markUsed
  simp only
  split_ifs
  · exact h
  · exact foldl_setUsed_valid _ h

theorem markUsed_frame (arch : Arch) (start fin : ℕ) (s : State) :
    (markUsed arch start fin s).actualFrameCount = s.actualFrameCount ∧
      (markUsed arch start fin s).totalRam = s.totalRam := by
  unfold markUsed
  simp only
  split_ifs
  · exact ⟨rfl,rfl⟩
  · exact ⟨(foldl_setUsed _ s).1,(foldl_setUsed _ s).2.1⟩

/-- The range does not start in the tracked frames past the end of RAM, and it
does not end at or below the first byte of RAM. -/
def MarkPlaced (arch : Arch) (s : State) (start fin : ℕ) : Prop :=
  start < fin → ramBase arch < fin ∧
    ¬(ramBase arch+s.totalRam ≤ start ∧ start < startAddress arch s.actualFrameCount)

instance (arch : Arch) (s : State) (start fin : ℕ) : Decidable (MarkPlaced arch s start fin) :=
  inferInstanceAs (Decidable (_ → _))

theorem usedFrames_markUsed {start fin : ℕ} (h : Valid s)
    (hp : MarkPlaced arch s start fin) :
    usedFrames (markUsed arch start fin s) = usedFrames s ∪
      (Finset.range s.actualFrameCount).filter (Overlaps arch start fin) := by
  have hpos := h.positive
  by_cases hlt : start < fin
  · obtain ⟨hb,hgap⟩ := hp hlt
    unfold markUsed
    simp only
    split_ifs with hret
    · have hout : startAddress arch s.actualFrameCount ≤ start := by
        by_contra hc
        exact hgap ⟨by omega,by omega⟩
      rw [filter_false_of_mem, union_empty]
      intro f hf ho
      have hf' := mem_range.mp hf
      have h1 := ho.2.1
      unfold startAddress frameSize at hout h1
      omega
    · rw [(foldl_setUsed _ s).2.2]
      congr 1
      ext f
      simp only [mem_filter, List.mem_toFinset, List.mem_range'_1, mem_range,
        Overlaps, startAddress, frameOf, frameSize]
      constructor
      · rintro ⟨⟨h1,h2⟩,h3⟩
        refine ⟨h3,hlt,?_,?_⟩ <;> omega
      · rintro ⟨h3,-,h1,h2⟩
        refine ⟨⟨?_,?_⟩,h3⟩ <;> omega
  · have he : markUsed arch start fin s = s := by
      unfold markUsed
      simp [show fin ≤ start by omega]
    rw [he, filter_false_of_mem, union_empty]
    intro f _ ho
    exact hlt ho.1

/-! ## Allocation -/

theorem scanWords_some {ws : List ℕ} {w f : ℕ} (h : scanWords s ws = some (w,f)) :
    f < s.actualFrameCount ∧ member s.bitmap f = false := by
  induction ws with
  | nil => simp [scanWords] at h
  | cons v vs ih =>
    simp only [scanWords] at h
    split_ifs at h with hc
    · obtain ⟨rfl,rfl⟩ : v = w ∧ v*64+trailingOnes (s.bitmap v) = f := by simpa using h
      obtain ⟨ht,hb,-⟩ := trailingOnes_spec hc.1
      refine ⟨hc.2,?_⟩
      rw [member, show (v*64+trailingOnes (s.bitmap v))/64 = v by omega,
        show (v*64+trailingOnes (s.bitmap v))%64 = trailingOnes (s.bitmap v) by omega]
      exact hb
    · exact ih h

/-- A word is passed over only if it has no clear bit below the frame count,
also when it is the partial last word. -/
theorem scanWords_none {ws : List ℕ} (h : scanWords s ws = none)
    (hw : f/64 ∈ ws) (hf : f < s.actualFrameCount) : member s.bitmap f = true := by
  induction ws with
  | nil => simp at hw
  | cons v vs ih =>
    simp only [scanWords] at h
    split_ifs at h with hc
    rcases List.mem_cons.mp hw with hv | hv
    · by_cases hone : s.bitmap v = BitVec.allOnes 64
      · rw [member, hv, hone, BitVec.getLsbD_allOnes]
        simpa using Nat.mod_lt f (by decide)
      · obtain ⟨-,-,hlow⟩ := trailingOnes_spec hone
        have hbig : s.actualFrameCount ≤ v*64+trailingOnes (s.bitmap v) := by
          by_contra hlt
          exact hc ⟨hone,by omega⟩
        rw [member, hv]
        exact hlow _ (by omega)
    · exact ih h hv

theorem allocateFrame_split (hc : s.actualFrameCount ≤ 64*s.actualWords) :
    (∃ w f, allocateFrame s = (some f,{setUsed f s with nextFree := w}) ∧
      f < s.actualFrameCount ∧ member s.bitmap f = false) ∨
    (allocateFrame s = (none,s) ∧ ∀ f < s.actualFrameCount, member s.bitmap f = true) := by
  unfold allocateFrame
  simp only
  split
  · rename_i w f hs
    exact .inl ⟨w,f,rfl,scanWords_some hs⟩
  · rename_i hup
    split
    · rename_i w f hs
      exact .inl ⟨w,f,rfl,scanWords_some hs⟩
    · rename_i hdown
      refine .inr ⟨rfl,?_⟩
      intro f hf
      by_cases hlow : f/64 < min s.nextFree s.actualWords
      · exact scanWords_none hdown (List.mem_range.mpr hlow) hf
      · refine scanWords_none hup (List.mem_range'_1.mpr ⟨?_,?_⟩) hf <;> omega

theorem allocateFrame_cases (h : Valid s) :
    (∃ w f, allocateFrame s = (some f,{setUsed f s with nextFree := w}) ∧
      f < s.actualFrameCount ∧ member s.bitmap f = false) ∨
    (allocateFrame s = (none,s) ∧ ∀ f < s.actualFrameCount, member s.bitmap f = true) :=
  allocateFrame_split h.covered

theorem allocateFrame_valid (h : Valid s) : Valid (allocateFrame s).2 := by
  obtain ⟨w,f,he,-⟩ | ⟨he,-⟩ := allocateFrame_cases h
  · rw [he]
    have hv := setUsed_valid (f := f) h
    exact ⟨hv.positive,hv.words,hv.ram,hv.covered,hv.capped,hv.tail⟩
  · rw [he]
    exact h

theorem allocateFrame_count (s : State) :
    (allocateFrame s).2.actualFrameCount = s.actualFrameCount := by
  unfold allocateFrame
  simp only
  split
  · simp
  · split <;> simp

theorem allocateFrame_totalRam (s : State) :
    (allocateFrame s).2.totalRam = s.totalRam := by
  unfold allocateFrame
  simp only
  split
  · simp
  · split <;> simp

theorem allocateFrame_some (h : Valid s) (ha : allocateFrame s = (some f,s')) :
    f < s.actualFrameCount ∧ f ∉ usedFrames s ∧
      usedFrames s' = Insert.insert f (usedFrames s) := by
  obtain ⟨w,g,he,hg,hm⟩ | ⟨he,-⟩ := allocateFrame_cases h
  · rw [he] at ha
    obtain ⟨rfl,rfl⟩ : g = f ∧ {setUsed g s with nextFree := w} = s' := by simpa using ha
    refine ⟨hg,fun hu => ?_,usedFrames_setUsed hg⟩
    rw [(mem_usedFrames.mp hu).2] at hm
    cases hm
  · rw [he] at ha
    simp at ha

/-- The answer depends on the used set alone; the hint only chooses among the
free frames. -/
theorem allocateFrame_none_iff (h : Valid s) :
    (allocateFrame s).1 = none ↔ ∀ f < s.actualFrameCount, f ∈ usedFrames s := by
  obtain ⟨w,g,he,hg,hm⟩ | ⟨he,hall⟩ := allocateFrame_cases h
  · rw [he]
    refine ⟨fun hn => by simp at hn,fun hall => ?_⟩
    rw [(mem_usedFrames.mp (hall g hg)).2] at hm
    cases hm
  · rw [he]
    exact ⟨fun _ f hf => mem_usedFrames.mpr ⟨hf,hall f hf⟩,fun _ => rfl⟩

theorem allocateFrame_none (h : Valid s) (ha : allocateFrame s = (none,s')) :
    s' = s := by
  obtain ⟨w,g,he,-⟩ | ⟨he,-⟩ := allocateFrame_cases h
  · rw [he] at ha
    simp at ha
  · rw [he] at ha
    simpa using ha.symm

/-! ## Sizes -/

theorem setTotalRam_bounds (size : ℕ) (s : State) :
    (setTotalRam size s).totalRam ≤ maxFrameCount*frameSize ∧
    (setTotalRam size s).totalRam/frameSize = (setTotalRam size s).actualFrameCount ∧
    (setTotalRam size s).actualWords = ((setTotalRam size s).actualFrameCount+63)/64 := by
  refine ⟨Nat.min_le_right _ _,rfl,rfl⟩

theorem reinit_eq (size : ℕ) (s : State) :
    (reinit size s).totalRam = min size (maxFrameCount*frameSize) ∧
    (reinit size s).bitmap = s.bitmap ∧
    (reinit size s).actualWords = ((reinit size s).totalRam/frameSize+63)/64 ∧
    (reinit size s).actualFrameCount = (reinit size s).actualWords*64 := by
  have hb := (setTotalRam_bounds size s).1
  have hw : ¬((setTotalRam size s).totalRam/4096+63)/64 > maxWords := by
    unfold maxFrameCount frameSize maxWords at *
    omega
  have he : reinit size s = {setTotalRam size s with
      actualWords := ((setTotalRam size s).totalRam/4096+63)/64,
      actualFrameCount := ((setTotalRam size s).totalRam/4096+63)/64*64} := if_neg hw
  rw [he]
  exact ⟨rfl,rfl,rfl,rfl⟩

variable {size : ℕ}

theorem reinit_grows (h : Valid s) (hg : s.totalRam ≤ size) :
    s.actualFrameCount ≤ (reinit size s).actualFrameCount ∧ Valid (reinit size s) ∧
      usedFrames (reinit size s) = usedFrames s := by
  obtain ⟨hr,hb,hw,hc⟩ := reinit_eq size s
  have hp := h.positive
  have hle : s.totalRam ≤ (reinit size s).totalRam := by
    rw [hr]
    exact le_min hg h.capped
  have hdiv : s.totalRam/frameSize ≤ (reinit size s).totalRam/frameSize :=
    Nat.div_le_div_right hle
  have hcnt : s.actualFrameCount ≤ (reinit size s).actualFrameCount := by
    have h₁ := h.covered
    have h₂ := h.words
    omega
  refine ⟨hcnt,⟨by omega,hw,by omega,by omega,by rw [hr]; exact min_le_right _ _,?_⟩,?_⟩
  · intro f hf
    rw [hb]
    exact h.tail f (by omega)
  · ext f
    simp only [mem_usedFrames, hb]
    constructor
    · rintro ⟨-,hm⟩
      refine ⟨?_,hm⟩
      by_contra hf
      rw [h.tail f (by omega)] at hm
      cases hm
    · rintro ⟨hf,hm⟩
      exact ⟨by omega,hm⟩

/-! ## The free count -/

theorem getLsbD_freeBits (h : Valid s) {w i : ℕ} (hw : w < s.actualWords)
    (hi : i < 64) : (freeBits s w).getLsbD i =
      (decide (64*w+i < s.actualFrameCount) && !member s.bitmap (64*w+i)) := by
  have hwords := h.words
  have hram := h.ram
  have hm : member s.bitmap (64*w+i) = (s.bitmap w).getLsbD i := by
    rw [member, show (64*w+i)/64 = w by omega, show (64*w+i)%64 = i by omega]
  rw [hm]
  unfold freeBits
  simp only
  split_ifs with hlast
  · rw [BitVec.getLsbD_and, BitVec.getLsbD_not,
      getLsbD_lowMask (k := s.actualFrameCount-w*64) (by omega), Bool.and_comm]
    simp only [hi, decide_true, Bool.true_and]
    congr 1
    simp only [decide_eq_decide]
    omega
  · have hlt : 64*w+i < s.actualFrameCount := by omega
    simp [hi, hlt]

theorem freeFrameCount_eq (h : Valid s) :
    freeFrameCount s = s.actualFrameCount-(usedFrames s).card := by
  have hwords : freeFrameCount s = (List.range (64*s.actualWords)).countP fun f =>
      decide (f < s.actualFrameCount) && !member s.bitmap f :=
    sum_words _ _ _ fun w hw => countOnes_eq w _ _ fun i hi => getLsbD_freeBits h hw hi
  have hfree : freeFrameCount s =
      ((Finset.range s.actualFrameCount).filter fun f => ¬member s.bitmap f = true).card := by
    have hcount := Nat.count_eq_card_filter_range
      (fun f => f < s.actualFrameCount ∧ ¬member s.bitmap f = true) (64*s.actualWords)
    rw [hwords]
    refine Eq.trans (List.countP_congr fun f _ => ?_) (hcount.trans (congrArg Finset.card ?_))
    · simp
    · ext f
      have hc := h.covered
      simp only [mem_filter, mem_range]
      constructor
      · rintro ⟨-,hf,hm⟩
        exact ⟨hf,hm⟩
      · rintro ⟨hf,hm⟩
        exact ⟨by omega,hf,hm⟩
  have hsplit := card_filter_add_card_filter_not (s := Finset.range s.actualFrameCount)
    (fun f => member s.bitmap f = true)
  rw [card_range] at hsplit
  unfold usedFrames
  omega

/-! ## Runs -/

inductive Op where
  | markUsed (start fin : ℕ)
  | allocateFrame
  | deallocateFrame (frame : ℕ)
  | reinit (size : ℕ)
  deriving DecidableEq, Repr

def exec (arch : Arch) : Op → State → Option ℕ × State
  | .markUsed start fin,s => (none,markUsed arch start fin s)
  | .allocateFrame,s => allocateFrame s
  | .deallocateFrame frame,s => (none,deallocateFrame frame s)
  | .reinit size,s => (none,reinit size s)

/-- Only reinit is restricted: the new size is not below the managed one. -/
def Permitted (s : State) : Op → Prop
  | .reinit size => s.totalRam ≤ size
  | _ => True

def Placed (arch : Arch) (s : State) : Op → Prop
  | .markUsed start fin => MarkPlaced arch s start fin
  | _ => True

/-- An event is an operation with its answer. -/
def Step (arch : Arch) (s : State) (e : Op × Option ℕ) (s' : State) : Prop :=
  Permitted s e.1 ∧ exec arch e.1 s = (e.2,s')

def PlacedStep (arch : Arch) (s : State) (e : Op × Option ℕ) (s' : State) : Prop :=
  Placed arch s e.1 ∧ Step arch s e s'

/-- The statics are zero before the first call. -/
def boot (arch : Arch) (kernelEnd size : ℕ) : State :=
  init arch kernelEnd (setTotalRam size {})

/-- The state that init has cleared, before it marks anything. -/
def cleared (size : ℕ) : State :=
  {setTotalRam size {} with bitmap := fun w =>
    if w < (setTotalRam size {}).actualWords then 0 else (setTotalRam size {}).bitmap w}

theorem member_cleared (size f : ℕ) : member (cleared size).bitmap f = false := by
  change (if f/64 < (setTotalRam size {}).actualWords then 0#64 else 0#64).getLsbD _ = false
  rw [ite_self, BitVec.getLsbD_zero]

theorem setTotalRam_positive (hs : frameSize ≤ size) :
    1 ≤ (setTotalRam size {}).totalRam/frameSize := by
  refine (Nat.one_le_div_iff (by decide)).mpr (le_min hs ?_)
  decide

theorem cleared_valid (hs : frameSize ≤ size) : Valid (cleared size) := by
  obtain ⟨hcap,hcount,hwords⟩ := setTotalRam_bounds size {}
  refine ⟨hcount ▸ setTotalRam_positive hs,by rw [cleared, hcount]; exact hwords,hcount.le,?_,hcap,?_⟩
  · change (setTotalRam size {}).actualFrameCount ≤ 64*(setTotalRam size {}).actualWords
    omega
  · exact fun f _ => member_cleared size f

theorem boot_eq (arch : Arch) (kernelEnd : ℕ) (hs : frameSize ≤ size) : boot arch kernelEnd size =
      {(match arch with
        | .x86_64 => markUsed .x86_64 0 0x100000 (markUsed .x86_64 0 kernelEnd (cleared size))
        | .aarch64 => markUsed .aarch64 (ramBase .aarch64) kernelEnd (cleared size)) with
        nextFree := frameOf arch kernelEnd/64} := by
  have hpos := setTotalRam_positive hs
  have hne : (setTotalRam size {}).totalRam ≠ 0 := by
    intro h
    rw [h] at hpos
    exact absurd hpos (by decide)
  unfold boot init
  rw [if_neg hne]
  cases arch <;> rfl

theorem boot_valid (arch : Arch) (kernelEnd : ℕ) (hs : frameSize ≤ size) :
    Valid (boot arch kernelEnd size) := by
  have hmark := markUsed_valid arch (ramBase arch) kernelEnd (cleared_valid hs)
  rw [boot_eq arch kernelEnd hs]
  cases arch with
  | x86_64 =>
    have h := markUsed_valid .x86_64 0 0x100000 hmark
    exact ⟨h.positive,h.words,h.ram,h.covered,h.capped,h.tail⟩
  | aarch64 =>
    exact ⟨hmark.positive,hmark.words,hmark.ram,hmark.covered,hmark.capped,hmark.tail⟩

theorem boot_count (kernelEnd : ℕ) (hs : frameSize ≤ size) :
    (boot .x86_64 kernelEnd size).actualFrameCount =
      min size (maxFrameCount*frameSize)/frameSize := by
  rw [boot_eq .x86_64 kernelEnd hs]
  exact (markUsed_frame .x86_64 0 0x100000 _).1.trans
    (markUsed_frame .x86_64 0 kernelEnd (cleared size)).1

theorem boot_totalRam (kernelEnd : ℕ) (hs : frameSize ≤ size) :
    (boot .x86_64 kernelEnd size).totalRam = min size (maxFrameCount*frameSize) := by
  rw [boot_eq .x86_64 kernelEnd hs]
  exact (markUsed_frame .x86_64 0 0x100000 _).2.trans
    (markUsed_frame .x86_64 0 kernelEnd (cleared size)).2

theorem markPlaced_zero (hr : 0 < s.totalRam) (fin : ℕ) :
    MarkPlaced .x86_64 s 0 fin := by
  intro hlt
  refine ⟨hlt,?_⟩
  rintro ⟨hle,-⟩
  have : ramBase .x86_64 = 0 := rfl
  omega

/-- The frames in use after boot: the kernel's and those of the first megabyte. -/
theorem mem_usedFrames_boot {kernelEnd size f : ℕ} (hs : frameSize ≤ size) :
    f ∈ usedFrames (boot .x86_64 kernelEnd size) ↔
      f < min size (maxFrameCount*frameSize)/frameSize ∧
        (f*frameSize < kernelEnd ∨ f*frameSize < 0x100000) := by
  have hv := cleared_valid hs
  have hr : 0 < (cleared size).totalRam := by
    have hpos := setTotalRam_positive hs
    have he : (cleared size).totalRam = (setTotalRam size {}).totalRam := rfl
    have hle := Nat.div_le_self (setTotalRam size {}).totalRam frameSize
    omega
  have hempty : usedFrames (cleared size) = ∅ := by
    refine eq_empty_of_forall_notMem fun g hg => ?_
    rw [mem_usedFrames, member_cleared] at hg
    exact absurd hg.2 (by decide)
  obtain ⟨hc,hr'⟩ := markUsed_frame .x86_64 0 kernelEnd (cleared size)
  have hv' := markUsed_valid .x86_64 0 kernelEnd hv
  rw [boot_eq .x86_64 kernelEnd hs]
  change f ∈ usedFrames (markUsed .x86_64 0 0x100000 (markUsed .x86_64 0 kernelEnd (cleared size))) ↔ _
  rw [usedFrames_markUsed hv' (markPlaced_zero (by rw [hr']; exact hr) _),
    usedFrames_markUsed hv (markPlaced_zero hr _), hempty, hc]
  have hcount : (cleared size).actualFrameCount = min size (maxFrameCount*frameSize)/frameSize := rfl
  have hbase : ramBase .x86_64 = 0 := rfl
  simp only [empty_union, mem_union, mem_filter, mem_range, hcount,
    Overlaps, startAddress, hbase, Nat.zero_add]
  unfold frameSize
  omega

/-- The abstract allocator: a frame count and a set of used frames. -/
structure FrameSet where
  count : ℕ
  used : Finset ℕ

def FrameSet.of (s : State) : FrameSet := ⟨s.actualFrameCount,usedFrames s⟩

inductive FrameSet.Step (arch : Arch) : FrameSet → Op × Option ℕ → FrameSet → Prop
  | mark (n : ℕ) (u : Finset ℕ) (start fin : ℕ) : Step arch ⟨n,u⟩ (.markUsed start fin,none)
      ⟨n,u ∪ (Finset.range n).filter (Overlaps arch start fin)⟩
  | allocate (n : ℕ) (u : Finset ℕ) (f : ℕ) : f < n → f ∉ u →
      Step arch ⟨n,u⟩ (.allocateFrame,some f) ⟨n,Insert.insert f u⟩
  | exhausted (n : ℕ) (u : Finset ℕ) : (∀ f < n, f ∈ u) →
      Step arch ⟨n,u⟩ (.allocateFrame,none) ⟨n,u⟩
  | deallocate (n : ℕ) (u : Finset ℕ) (f : ℕ) :
      Step arch ⟨n,u⟩ (.deallocateFrame f,none) ⟨n,u.erase f⟩
  | reinit (n m : ℕ) (u : Finset ℕ) (size : ℕ) : n ≤ m →
      Step arch ⟨n,u⟩ (.reinit size,none) ⟨m,u⟩

variable {e : Op × Option ℕ}

theorem step_valid (h : Valid s) (hs : Step arch s e s') : Valid s' := by
  obtain ⟨op,out⟩ := e
  obtain ⟨hp,he⟩ := hs
  cases op with
  | markUsed start fin =>
    cases he
    exact markUsed_valid arch start fin h
  | allocateFrame =>
    have hv := allocateFrame_valid h
    rw [show allocateFrame s = (out,s') from he] at hv
    exact hv
  | deallocateFrame f =>
    cases he
    exact deallocateFrame_valid h
  | reinit size =>
    cases he
    exact (reinit_grows h hp).2.1

theorem step_refines (h : Valid s)
    (hs : PlacedStep arch s e s') : FrameSet.Step arch (.of s) e (.of s') := by
  obtain ⟨op,out⟩ := e
  obtain ⟨hm,hp,he⟩ := hs
  cases op with
  | markUsed start fin =>
    cases he
    rw [FrameSet.of, FrameSet.of, (markUsed_frame arch start fin s).1,
      usedFrames_markUsed h hm]
    exact .mark _ _ start fin
  | allocateFrame =>
    have ha : allocateFrame s = (out,s') := he
    have hc := allocateFrame_count s
    rw [ha] at hc
    rw [FrameSet.of, FrameSet.of, hc]
    cases out with
    | none =>
      rw [allocateFrame_none h ha]
      exact .exhausted _ _ ((allocateFrame_none_iff h).mp (by rw [ha]))
    | some f =>
      obtain ⟨hf,hn,hu⟩ := allocateFrame_some h ha
      rw [hu]
      exact .allocate _ _ f hf hn
  | deallocateFrame f =>
    cases he
    rw [FrameSet.of, FrameSet.of, deallocateFrame_actualFrameCount,
      usedFrames_deallocateFrame]
    exact .deallocate _ _ f
  | reinit size =>
    cases he
    obtain ⟨hc,-,hu⟩ := reinit_grows h hp
    rw [FrameSet.of, FrameSet.of, hu]
    exact .reinit _ _ _ size hc

/-- Frames handed out and not yet given back, newest first. -/
def live : List (Op × Option ℕ) → List ℕ
  | [] => []
  | (.allocateFrame,some f)::h => f::live h
  | (.deallocateFrame f,_)::h => (live h).erase f
  | _::h => live h

theorem live_invariant {h : List (Op × Option ℕ)} {a a' : FrameSet} (hl : (live h).Nodup ∧ ∀ f ∈ live h, f ∈ a.used)
    (hs : FrameSet.Step arch a e a') :
    (live (e::h)).Nodup ∧ ∀ f ∈ live (e::h), f ∈ a'.used := by
  cases hs with
  | mark n u start fin => exact ⟨hl.1,fun f hf => mem_union_left _ (hl.2 f hf)⟩
  | allocate n u f hf hn =>
    refine ⟨List.nodup_cons.mpr ⟨fun hm => hn (hl.2 f hm),hl.1⟩,?_⟩
    intro g hg
    rcases List.mem_cons.mp hg with rfl | hg
    · exact mem_insert_self _ _
    · exact mem_insert_of_mem (hl.2 g hg)
  | exhausted n u _ => exact hl
  | deallocate n u f =>
    refine ⟨hl.1.erase f,?_⟩
    intro g hg
    obtain ⟨hne,hm⟩ := (hl.1.mem_erase_iff).mp hg
    exact mem_erase.mpr ⟨hne,hl.2 g hm⟩
  | reinit n m u size _ => exact hl

/-- Every run whose range markings are placed is a run of the set machine with
the same answers; the free count and the exhaustion test agree with the set in
every state reached, and live frames are never equal. -/
theorem frame_run_refines_set {arch : Arch} {kernelEnd size : ℕ} (hs : frameSize ≤ size)
    {h : List (Op × Option ℕ)} {s : State}
    (r : Run (PlacedStep arch) (boot arch kernelEnd size) h s) :
    Run (FrameSet.Step arch) (.of (boot arch kernelEnd size)) h (.of s) ∧
    (∀ hint, (allocateFrame {s with nextFree := hint}).1 = none ↔
      ∀ f < s.actualFrameCount, f ∈ usedFrames s) ∧
    freeFrameCount s = s.actualFrameCount-(usedFrames s).card ∧
    (live h).Nodup ∧ ∀ f ∈ live h, f ∈ usedFrames s := by
  have hboot := boot_valid arch kernelEnd hs
  have hstep : ∀ (h : List (Op × Option ℕ)) s e s', Valid s → PlacedStep arch s e s' →
      Valid s' := fun _ _ _ _ hv hp => step_valid hv hp.2
  have hv : Valid s := r.invariant (P := fun _ s => Valid s) hboot hstep
  have hmap := r.map FrameSet.of (P := fun _ s => Valid s) hboot hstep
    fun _ _ _ _ hv hp => step_refines hv hp
  refine ⟨hmap,?_,freeFrameCount_eq hv,?_⟩
  · intro hint
    have hv' : Valid {s with nextFree := hint} :=
      ⟨hv.positive,hv.words,hv.ram,hv.covered,hv.capped,hv.tail⟩
    exact allocateFrame_none_iff hv'
  · exact hmap.invariant (P := fun h a => (live h).Nodup ∧ ∀ f ∈ live h, f ∈ a.used)
      ⟨List.nodup_nil,by simp [live]⟩ fun _ _ _ _ hl hs => live_invariant hl hs

/-- Four frames, all below the kernel's end: one is given back and handed out
again, and nothing is free afterwards. -/
theorem frame_run_refines_set_four_frames : ∃ s,
    Run (PlacedStep .x86_64) (boot .x86_64 0x900000 16384)
      [(.allocateFrame,some 3),(.deallocateFrame 3,none)] s ∧
    freeFrameCount s = s.actualFrameCount-(usedFrames s).card ∧
    (live [(.allocateFrame,some 3),(.deallocateFrame 3,none)]).Nodup := by
  refine ⟨(allocateFrame (deallocateFrame 3 (boot .x86_64 0x900000 16384))).2,?_⟩
  have r : Run (PlacedStep .x86_64) (boot .x86_64 0x900000 16384)
      [(.allocateFrame,some 3),(.deallocateFrame 3,none)]
      (allocateFrame (deallocateFrame 3 (boot .x86_64 0x900000 16384))).2 := by
    refine .next (.next .start ⟨trivial,trivial,rfl⟩) ⟨trivial,trivial,?_⟩
    have ha : (allocateFrame (deallocateFrame 3 (boot .x86_64 0x900000 16384))).1 = some 3 := by
      decide
    exact Prod.ext ha rfl
  obtain ⟨-,-,hc,hl,-⟩ := frame_run_refines_set (by decide) r
  exact ⟨r,hc,hl⟩

/-- One frame of RAM, grown to two: reinit tracks a whole word of 64 frames, and
a later range that starts at the end of RAM is not marked although it covers a
tracked frame. -/
theorem markUsed_past_ram_unmarked : ∃ s s',
    Run (Step .x86_64) (boot .x86_64 0x900000 4096) [(.reinit 8192,none)] s ∧
    Step .x86_64 s (.markUsed 8192 12288,none) s' ∧
    ¬FrameSet.Step .x86_64 (.of s) (.markUsed 8192 12288,none) (.of s') := by
  refine ⟨reinit 8192 (boot .x86_64 0x900000 4096),
    markUsed .x86_64 8192 12288 (reinit 8192 (boot .x86_64 0x900000 4096)),
    .next .start ⟨by change (boot .x86_64 0x900000 4096).totalRam ≤ 8192; decide,rfl⟩,
    ⟨trivial,rfl⟩,?_⟩
  intro hs
  have hin : 2 ∈ (FrameSet.of (markUsed .x86_64 8192 12288
      (reinit 8192 (boot .x86_64 0x900000 4096)))).used := by
    generalize ha : FrameSet.of (reinit 8192 (boot .x86_64 0x900000 4096)) = a at hs
    generalize FrameSet.of (markUsed .x86_64 8192 12288
      (reinit 8192 (boot .x86_64 0x900000 4096))) = a' at hs
    have hcount : a.count = 64 := by rw [← ha]; decide
    cases hs with
    | mark n u start fin =>
      have hn : n = 64 := hcount
      subst hn
      refine mem_union_right _ (mem_filter.mpr ⟨by decide,by decide⟩)
  exact absurd (mem_usedFrames.mp hin).2 (by decide)

end Zohara.FrameRefinement
