import Mathlib.Data.List.Pairwise
import Zohara.FreeList
import Zohara.Runs

/-!
# The kernel heap

FixedBlockAllocator keeps one list of free blocks for each of nine block sizes. The
links of a list stand in the free blocks themselves. A block that no list has, and a
block that is too large for the lists, is cut off a bump allocator; large blocks are
never used again.

The lists and the bump pointer are machine words; a link is read from memory and
written to memory. Sums in the bump allocator wrap at 2^64, as the kernel is built.

In a run the kernel allocates and frees, and anything may be written to memory that is
not inside a freed block: to live blocks, to memory that was never handed out, and to
everything outside of the heap. Blocks are freed once and with their own layout.

The calls are right as long as the two sums of the bump allocator do not wrap. They
cannot wrap for a heap in the lower half of the address space.
-/
namespace Zohara.HeapAllocator
open ByteMemory FreeList Runs List Option Function Nat

/-! ## The source -/

/-- A layout that Layout::from_size_align accepts. -/
structure Layout where
  size : ℕ
  align : ℕ
  power : ∃ k, align = 2^k
  fits : size+align ≤ 2^63
  deriving DecidableEq

structure BumpAllocator where
  next : ℕ
  endAddr : ℕ

def BumpAllocator.new : BumpAllocator := ⟨0,0⟩

def BumpAllocator.init (start size : ℕ) : BumpAllocator := ⟨start,(start+size)%2^64⟩

/-- The answer 0 is the null pointer. -/
def BumpAllocator.alloc (b : BumpAllocator) (layout : Layout) : ℕ × BumpAllocator :=
  let alignedStart := (b.next+layout.align-1)%2^64 &&& (2^64-1-(layout.align-1))
  let allocatedEnd := (alignedStart+layout.size)%2^64
  if b.endAddr < allocatedEnd then (0,b) else (alignedStart,{b with next := allocatedEnd})

def blockSizes : List ℕ := [8,16,32,64,128,256,512,1024,2048]

def getBlockIndex (layout : Layout) : Option (Fin blockSizes.length) :=
  blockSizes.findFinIdx? fun s => decide (max layout.size layout.align ≤ s)

theorem blockSizes_get (i : Fin blockSizes.length) : blockSizes.get i = 2^(i.val+3) := by
  revert i
  decide

/-- The layout of the blocks of one size. -/
def blockLayout (i : Fin blockSizes.length) : Layout where
  size := blockSizes.get i
  align := blockSizes.get i
  power := ⟨i.val+3,blockSizes_get i⟩
  fits := by
    revert i
    decide

structure Heap where
  listHeads : Fin blockSizes.length → ℕ
  bump : BumpAllocator
  mem : Memory

/-- The allocator after init. -/
def init (start size : ℕ) (mem : Memory) : Heap := ⟨fun _ => 0,.init start size,mem⟩

/-- Store to `list_heads[index]`. -/
def Heap.setHead (h : Heap) (index : Fin blockSizes.length) (p : ℕ) : Heap :=
  {h with listHeads := Function.update h.listHeads index p}

def alloc (h : Heap) (layout : Layout) : ℕ × Heap :=
  match getBlockIndex layout with
  | some index =>
    let currentHead := h.listHeads index
    if currentHead ≠ 0 then
      let next := (readU64 h.mem currentHead).toNat
      (currentHead,h.setHead index next)
    else
      let r := h.bump.alloc (blockLayout index)
      (r.1,{h with bump := r.2})
  | none =>
    let r := h.bump.alloc layout
    (r.1,{h with bump := r.2})

def dealloc (h : Heap) (ptr : ℕ) (layout : Layout) : Heap :=
  match getBlockIndex layout with
  | some index =>
    let mem := writeU64 h.mem ptr (BitVec.ofNat 64 (h.listHeads index))
    {h with mem := mem}.setHead index ptr
  | none => h

/-! ## Runs -/

structure Block where
  addr : ℕ
  layout : Layout
  deriving DecidableEq

/-- What the allocator sets aside for a layout. -/
def Layout.unit (layout : Layout) : Layout :=
  match getBlockIndex layout with
  | some index => blockLayout index
  | none => layout

def Block.chunk (b : Block) : Chunk := ⟨b.addr,b.layout.unit.size⟩

structure World where
  heap : Heap
  live : List Block
  freed : List Block

inductive Event where
  | alloc (layout : Layout) (ptr : ℕ)
  | dealloc (b : Block)
  | write (mem : Memory)

def Step (w : World) : Event → World → Prop
  | .alloc layout ptr,w' => ∃ heap, alloc w.heap layout = (ptr,heap) ∧
      w' = if ptr = 0 then {w with heap := heap}
        else ⟨heap,⟨ptr,layout⟩::w.live,w.freed.filter (·.addr ≠ ptr)⟩
  | .dealloc b,w' => b ∈ w.live ∧
      w' = ⟨dealloc w.heap b.addr b.layout,w.live.erase b,b::w.freed⟩
  | .write mem,w' => w' = {w with heap := {w.heap with mem := mem}} ∧
      ∀ b ∈ w.freed, ∀ x, b.addr ≤ x → x < b.addr+b.chunk.len → mem x = w.heap.mem x

def start (heapStart heapSize : ℕ) (mem : Memory) : World := ⟨init heapStart heapSize mem,[],[]⟩

/-! ## Rounding -/

def roundUp (x a : ℕ) : ℕ := (x+a-1)/a*a

theorem le_roundUp (x : ℕ) {a : ℕ} (ha : 0 < a) : x ≤ roundUp x a := by
  unfold roundUp
  have h := div_add_mod (x+a-1) a
  have hm := mod_lt (x+a-1) ha
  rw [mul_comm] at h
  omega

theorem roundUp_le (x a : ℕ) : roundUp x a ≤ x+a-1 := div_mul_le_self _ _

theorem dvd_roundUp (x a : ℕ) : a ∣ roundUp x a := dvd_mul_left _ _

theorem Layout.align_pos (layout : Layout) : 0 < layout.align := by
  obtain ⟨k,hk⟩ := layout.power
  rw [hk]
  exact Nat.two_pow_pos k

theorem and_mask {x k : ℕ} (hx : x < 2^64) (hk : k ≤ 63) :
    x &&& (2^64-1-(2^k-1)) = x/2^k*2^k := by
  have hpow : 2^k < 2^64 := Nat.pow_lt_pow_right (by decide) (by omega)
  have hpos := Nat.two_pow_pos k
  have hmask : 2^64-1-(2^k-1) = 2^64-((2^k-1)+1) := by omega
  refine eq_of_testBit_eq fun i => ?_
  rw [hmask, testBit_and, testBit_two_pow_sub_succ (by omega), testBit_two_pow_sub_one,
    testBit_mul_two_pow, testBit_div_two_pow]
  by_cases hik : k ≤ i
  · rw [Nat.sub_add_cancel hik]
    by_cases hi : i < 64
    · simp [hi, hik]
    · rw [testBit_lt_two_pow (hx.trans_le (Nat.pow_le_pow_right (by decide) (by omega)))]
      simp
  · simp [hik]
    omega

/-- The sums of one call of the bump allocator do not wrap. -/
def BumpAllocator.Fits (b : BumpAllocator) (layout : Layout) : Prop :=
  b.next+layout.align ≤ 2^64 ∧ roundUp b.next layout.align+layout.size < 2^64

instance (b : BumpAllocator) (layout : Layout) : Decidable (b.Fits layout) :=
  inferInstanceAs (Decidable (_ ∧ _))

variable {layout : Layout}

theorem BumpAllocator.alloc_eq {b : BumpAllocator} (h : b.Fits layout) : b.alloc layout =
      if b.endAddr < roundUp b.next layout.align+layout.size then (0,b)
      else (roundUp b.next layout.align,
        {b with next := roundUp b.next layout.align+layout.size}) := by
  obtain ⟨k,hk⟩ := layout.power
  have hbound := layout.fits
  have hpos := layout.align_pos
  have hk63 : k ≤ 63 := by
    by_contra hc
    have : 2^64 ≤ 2^k := Nat.pow_le_pow_right (by decide) (by omega)
    omega
  have hstart : (b.next+layout.align-1)%2^64 &&& (2^64-1-(layout.align-1)) =
      roundUp b.next layout.align := by
    rw [mod_eq_of_lt (by have := h.1; omega), hk]
    exact and_mask (by have := h.1; omega) hk63
  unfold BumpAllocator.alloc
  dsimp only
  rw [hstart, mod_eq_of_lt h.2]

/-! ## Block sizes -/

variable {i : Fin blockSizes.length}

theorem getBlockIndex_some (h : getBlockIndex layout = some i) :
    layout.size ≤ blockSizes.get i ∧ layout.align ≤ blockSizes.get i := by
  obtain ⟨hi,-⟩ := findFinIdx?_eq_some_iff.mp h
  have hmax := of_decide_eq_true hi
  exact ⟨(le_max_left _ _).trans hmax,(le_max_right _ _).trans hmax⟩

theorem unit_some (h : getBlockIndex layout = some i) : layout.unit = blockLayout i := by
  unfold Layout.unit
  rw [h]

theorem unit_none (h : getBlockIndex layout = none) : layout.unit = layout := by
  unfold Layout.unit
  rw [h]

theorem unit_covers (layout : Layout) :
    layout.size ≤ layout.unit.size ∧ layout.align ∣ layout.unit.align := by
  cases h : getBlockIndex layout with
  | none =>
    rw [unit_none h]
    exact ⟨le_rfl,dvd_rfl⟩
  | some i =>
    obtain ⟨hsize,halign⟩ := getBlockIndex_some h
    rw [unit_some h]
    refine ⟨hsize,?_⟩
    change layout.align ∣ blockSizes.get i
    obtain ⟨k,hk⟩ := layout.power
    rw [hk, blockSizes_get] at halign ⊢
    exact pow_dvd_pow 2 ((Nat.pow_le_pow_iff_right (by decide)).mp halign)

theorem link_fits {b : Block} (h : getBlockIndex b.layout = some i) : 8 ≤ b.chunk.len := by
  change 8 ≤ b.layout.unit.size
  rw [unit_some h]
  change 8 ≤ blockSizes.get i
  rw [blockSizes_get]
  calc 8 = 2^3 := rfl
    _ ≤ 2^(i.val+3) := Nat.pow_le_pow_right (by decide) (le_add_left 3 _)

/-! ## The invariant -/

def Block.Apart (b c : Block) : Prop := b.chunk.Apart c.chunk

theorem Block.Apart.symm {b c : Block} (h : b.Apart c) : c.Apart b := Chunk.Apart.symm h

instance : Std.Symm Block.Apart := ⟨fun _ _ => Block.Apart.symm⟩

theorem Block.Apart.addr_ne {b c : Block} {i j : Fin blockSizes.length} (h : b.Apart c)
    (hi : getBlockIndex b.layout = some i) (hj : getBlockIndex c.layout = some j) :
    b.addr ≠ c.addr := by
  intro heq
  have hb := link_fits hi
  have hc := link_fits hj
  unfold Block.Apart Chunk.Apart at h
  rw [show b.chunk.addr = b.addr from rfl, show c.chunk.addr = c.addr from rfl] at h
  omega

/-- The free blocks of one size, the last one freed first. -/
def freeList (freed : List Block) (i : Fin blockSizes.length) : List ℕ :=
  (freed.filter fun b => getBlockIndex b.layout = some i).map Block.addr

structure HeapOk (heapStart heapSize : ℕ) (w : World) : Prop where
  lower : heapStart ≤ w.heap.bump.next
  upper : w.heap.bump.next ≤ heapStart+heapSize
  endAddr : w.heap.bump.endAddr = heapStart+heapSize
  chains : ∀ i, Chain w.heap.mem (w.heap.listHeads i) (freeList w.freed i)
  apart : (w.live++w.freed).Pairwise Block.Apart
  inside : ∀ b ∈ w.live++w.freed, heapStart ≤ b.addr ∧ b.addr+b.chunk.len ≤ w.heap.bump.next
  aligned : ∀ b ∈ w.live++w.freed, b.layout.unit.align ∣ b.addr

variable {p : ℕ}

theorem mem_freeList {freed : List Block} :
    p ∈ freeList freed i ↔ ∃ b ∈ freed, getBlockIndex b.layout = some i ∧ b.addr = p := by
  unfold freeList
  rw [List.mem_map]
  constructor
  · intro ⟨b,hb,hp⟩
    obtain ⟨hmem,hi⟩ := mem_filter.mp hb
    exact ⟨b,hmem,of_decide_eq_true hi,hp⟩
  · intro ⟨b,hmem,hi,hp⟩
    exact ⟨b,mem_filter.mpr ⟨hmem,decide_eq_true hi⟩,hp⟩

theorem freeList_filter (freed : List Block) (i : Fin blockSizes.length) (p : ℕ) :
    freeList (freed.filter (·.addr ≠ p)) i = (freeList freed i).filter (· ≠ p) := by
  unfold freeList
  rw [List.filter_map, List.filter_filter, List.filter_filter]
  refine congrArg _ (filter_congr fun b _ => ?_)
  exact Bool.and_comm _ _

section
variable {heapStart heapSize : ℕ} {w : World}

theorem start_ok (mem : Memory) (h : heapStart+heapSize < 2^64) :
    HeapOk heapStart heapSize (start heapStart heapSize mem) := by
  refine ⟨le_rfl,le_add_right _ _,mod_eq_of_lt h,fun i => rfl,List.Pairwise.nil,?_,?_⟩
  · intro b hb
    cases hb
  · intro b hb
    cases hb

section

variable (ok : HeapOk heapStart heapSize w)
include ok

theorem HeapOk.freed_apart : w.freed.Pairwise Block.Apart := (pairwise_append.mp ok.apart).2.1

theorem HeapOk.freeList_nodup (i : Fin blockSizes.length) : (freeList w.freed i).Nodup := by
  unfold freeList
  refine pairwise_map.mpr ((ok.freed_apart.filter _).imp_of_mem fun hb hc hapart heq => ?_)
  exact hapart.addr_ne (of_decide_eq_true (mem_filter.mp hb).2)
    (of_decide_eq_true (mem_filter.mp hc).2) heq

theorem HeapOk.freeList_disjoint {i j : Fin blockSizes.length}
    (hij : j ≠ i) (hp : p ∈ freeList w.freed i) : p ∉ freeList w.freed j := by
  intro hq
  obtain ⟨b,hb,hi,rfl⟩ := mem_freeList.mp hp
  obtain ⟨c,hc,hj,haddr⟩ := mem_freeList.mp hq
  have hne : b ≠ c := by
    intro heq
    rw [heq, hj] at hi
    exact hij (some.inj hi)
  have hapart := ok.freed_apart.forall hb hc hne
  exact hapart.addr_ne hi hj haddr.symm

theorem HeapOk.free_inside
    (hp : p ∈ freeList w.freed i) : heapStart ≤ p ∧ p+8 ≤ w.heap.bump.next := by
  obtain ⟨b,hb,hi,rfl⟩ := mem_freeList.mp hp
  have hlen := link_fits hi
  have hin := ok.inside b (mem_append_right _ hb)
  have haddr : b.chunk.addr = b.addr := rfl
  omega

theorem HeapOk.write {mem : Memory}
    (hm : ∀ b ∈ w.freed, ∀ x, b.addr ≤ x → x < b.addr+b.chunk.len → mem x = w.heap.mem x) :
    HeapOk heapStart heapSize {w with heap := {w.heap with mem := mem}} := by
  refine ⟨ok.lower,ok.upper,ok.endAddr,fun i => ?_,ok.apart,ok.inside,ok.aligned⟩
  refine (ok.chains i).congr fun p hp k hk => ?_
  obtain ⟨b,hb,hi,rfl⟩ := mem_freeList.mp hp
  have hlen := link_fits hi
  exact hm b hb _ (by omega) (by omega)

end

/-! ## Taking a block from a list -/

theorem freeList_cons {freed : List Block} {ps : List ℕ} (h : freeList freed i = p::ps) :
    ∃ b ∈ freed, getBlockIndex b.layout = some i ∧ b.addr = p :=
  mem_freeList.mp (h ▸ mem_cons_self)

theorem apart_filter {live freed : List Block} {b : Block} (hb : b ∈ freed)
    (h : (live++freed).Pairwise Block.Apart) :
    (b::(live++freed.filter (·.addr ≠ b.addr))).Pairwise Block.Apart := by
  have hperm : (live++freed).Perm (b::(live++freed.erase b)) :=
    ((perm_cons_erase hb).append_left live).trans perm_middle
  have hfilter : (freed.filter (·.addr ≠ b.addr)).Perm
      ((freed.erase b).filter (·.addr ≠ b.addr)) := by
    have hp := (perm_cons_erase hb).filter (·.addr ≠ b.addr)
    rwa [filter_cons_of_neg (by simp)] at hp
  have hall := (hperm.pairwise_iff Block.Apart.symm).mp h
  have hsub : (b::(live++(freed.erase b).filter (·.addr ≠ b.addr))).Sublist
      (b::(live++freed.erase b)) :=
    ((filter_sublist (l := freed.erase b)).append_left live).cons_cons b
  refine (List.Perm.pairwise_iff Block.Apart.symm ?_).mp (hall.sublist hsub)
  exact (hfilter.symm.append_left live).cons b

theorem HeapOk.freeList_pop (ok : HeapOk heapStart heapSize w)
    {ps : List ℕ} (hlist : freeList w.freed i = p::ps) (j : Fin blockSizes.length) :
    freeList (w.freed.filter (·.addr ≠ p)) j = if j = i then ps else freeList w.freed j := by
  rw [freeList_filter]
  split_ifs with hij
  · have hnodup := ok.freeList_nodup i
    rw [hlist, nodup_cons] at hnodup
    rw [hij, hlist, filter_cons_of_neg (by simp), filter_eq_self]
    intro q hq
    exact decide_eq_true fun heq => hnodup.1 (heq ▸ hq)
  · rw [filter_eq_self]
    intro q hq
    refine decide_eq_true fun heq => ok.freeList_disjoint (i := i) hij ?_ (heq ▸ hq)
    simp [hlist]

variable {ptr : ℕ}

theorem HeapOk.freeList_carve (ok : HeapOk heapStart heapSize w)
    (hle : w.heap.bump.next ≤ ptr) (i : Fin blockSizes.length) :
    freeList (w.freed.filter (·.addr ≠ ptr)) i = freeList w.freed i := by
  rw [freeList_filter, filter_eq_self]
  intro q hq
  have := ok.free_inside hq
  exact decide_eq_true (by omega)

theorem HeapOk.pop (ok : HeapOk heapStart heapSize w) (hi : getBlockIndex layout = some i)
    (hhead : w.heap.listHeads i ≠ 0) :
    HeapOk heapStart heapSize
      ⟨w.heap.setHead i (readU64 w.heap.mem (w.heap.listHeads i)).toNat,
        ⟨w.heap.listHeads i,layout⟩::w.live,
        w.freed.filter (·.addr ≠ w.heap.listHeads i)⟩ := by
  have hchain := ok.chains i
  cases hlist : freeList w.freed i with
  | nil =>
    rw [hlist] at hchain
    exact (hhead hchain).elim
  | cons p ps =>
    rw [hlist] at hchain
    obtain ⟨hp,-,hrest⟩ := hchain
    obtain ⟨b,hb,hbi,hbp⟩ := freeList_cons hlist
    have hchunk : (⟨p,layout⟩ : Block).chunk = b.chunk := by
      unfold Block.chunk
      rw [unit_some hi, unit_some hbi, hbp]
    rw [hp]
    have hsub : ∀ c ∈ ((⟨p,layout⟩ : Block)::w.live)++w.freed.filter (·.addr ≠ p),
        c = ⟨p,layout⟩ ∨ c ∈ w.live++w.freed := by
      intro c hc
      rw [cons_append, mem_cons] at hc
      refine hc.imp_right fun hc => ?_
      rcases mem_append.mp hc with hc | hc
      · exact mem_append_left _ hc
      · exact mem_append_right _ ((mem_filter.mp hc).1)
    refine ⟨ok.lower,ok.upper,ok.endAddr,fun j => ?_,?_,fun c hc => ?_,fun c hc => ?_⟩
    · dsimp only [Heap.setHead]
      rw [ok.freeList_pop hlist]
      by_cases hij : j = i
      · rw [hij, update_self, if_pos rfl]
        exact hrest
      · rw [update_of_ne hij, if_neg hij]
        exact ok.chains j
    · have hapart := apart_filter hb ok.apart
      rw [hbp, pairwise_cons] at hapart
      refine pairwise_cons.mpr ⟨fun c hc => ?_,hapart.2⟩
      have hbc := hapart.1 c hc
      unfold Block.Apart at hbc ⊢
      rw [hchunk]
      exact hbc
    · rcases hsub c hc with rfl | hc
      · have hin := ok.inside b (mem_append_right _ hb)
        rw [hbp] at hin
        rw [hchunk]
        exact hin
      · exact ok.inside c hc
    · rcases hsub c hc with rfl | hc
      · have hal := ok.aligned b (mem_append_right _ hb)
        rw [unit_some hbi, hbp] at hal
        rw [unit_some hi]
        exact hal
      · exact ok.aligned c hc

/-! ## Cutting a block off -/

theorem HeapOk.carve (ok : HeapOk heapStart heapSize w)
    {bump : BumpAllocator} (hptr : ptr = roundUp w.heap.bump.next layout.unit.align)
    (hbump : bump = {w.heap.bump with next := ptr+layout.unit.size})
    (hend : ptr+layout.unit.size ≤ heapStart+heapSize) :
    HeapOk heapStart heapSize
      ⟨{w.heap with bump := bump},⟨ptr,layout⟩::w.live,w.freed.filter (·.addr ≠ ptr)⟩ := by
  have hle : w.heap.bump.next ≤ ptr := hptr ▸ le_roundUp _ layout.unit.align_pos
  have hsub : ∀ c ∈ w.live++w.freed.filter (·.addr ≠ ptr), c ∈ w.live++w.freed := by
    intro c hc
    rcases mem_append.mp hc with hc | hc
    · exact mem_append_left _ hc
    · exact mem_append_right _ ((mem_filter.mp hc).1)
  have hlower := ok.lower
  subst hbump
  refine ⟨?_,hend,ok.endAddr,fun i => ?_,?_,fun c hc => ?_,fun c hc => ?_⟩
  · dsimp only
    omega
  · dsimp only
    rw [ok.freeList_carve hle]
    exact ok.chains i
  · refine pairwise_cons.mpr ⟨fun c hc => ?_,?_⟩
    · have hin := ok.inside c (hsub c hc)
      exact .inr (hin.2.trans hle)
    · exact ok.apart.sublist ((filter_sublist).append_left _)
  · dsimp only
    rcases mem_cons.mp hc with rfl | hc
    · exact ⟨by dsimp only; omega,le_rfl⟩
    · have hin := ok.inside c (hsub c hc)
      exact ⟨hin.1,by omega⟩
  · rcases mem_cons.mp hc with rfl | hc
    · dsimp only
      rw [hptr]
      exact dvd_roundUp _ _
    · exact ok.aligned c (hsub c hc)

/-! ## Freeing a block -/

theorem HeapOk.free (ok : HeapOk heapStart heapSize w) (hpos : 0 < heapStart)
    (htop : heapStart+heapSize < 2^64) {b : Block} (hb : b ∈ w.live) :
    HeapOk heapStart heapSize ⟨dealloc w.heap b.addr b.layout,w.live.erase b,b::w.freed⟩ := by
  have hperm : (w.live.erase b++b::w.freed).Perm (w.live++w.freed) :=
    perm_middle.trans ((perm_cons_erase hb).symm.append_right w.freed)
  have hcross : ∀ i, ∀ q ∈ freeList w.freed i, ∀ j, getBlockIndex b.layout = some j →
      q+8 ≤ b.addr ∨ b.addr+8 ≤ q := by
    intro i q hq j hj
    obtain ⟨c,hc,hi,rfl⟩ := mem_freeList.mp hq
    have hapart := (pairwise_append.mp ok.apart).2.2 b hb c hc
    exact (hapart.shrink (link_fits hj) (link_fits hi)).symm
  have hinside := ok.inside b (mem_append_left _ hb)
  have hapart := (hperm.pairwise_iff Block.Apart.symm).mpr ok.apart
  cases hi : getBlockIndex b.layout with
  | none =>
    have hsame : dealloc w.heap b.addr b.layout = w.heap := by
      unfold dealloc
      rw [hi]
    rw [hsame]
    refine ⟨ok.lower,ok.upper,ok.endAddr,fun i => ?_,hapart,fun c hc => ?_,fun c hc => ?_⟩
    · have hkeep : freeList (b::w.freed) i = freeList w.freed i := by
        unfold freeList
        rw [filter_cons_of_neg (by simp [hi])]
      dsimp only
      rw [hkeep]
      exact ok.chains i
    · exact ok.inside c (hperm.mem_iff.mp hc)
    · exact ok.aligned c (hperm.mem_iff.mp hc)
  | some i =>
    have hnew : dealloc w.heap b.addr b.layout =
        Heap.setHead {w.heap with mem := writeU64 w.heap.mem b.addr (.ofNat 64 (w.heap.listHeads i))}
          i b.addr := by
      unfold dealloc
      rw [hi]
    rw [hnew]
    refine ⟨ok.lower,ok.upper,ok.endAddr,fun j => ?_,hapart,fun c hc => ?_,fun c hc => ?_⟩
    · dsimp only [Heap.setHead]
      by_cases hij : j = i
      · have hcons : freeList (b::w.freed) i = b.addr::freeList w.freed i := by
          unfold freeList
          rw [filter_cons_of_pos (by simp [hi]), map_cons]
        have hhead : w.heap.listHeads i < 2^64 := by
          rw [(ok.chains i).head_eq]
          cases hl : freeList w.freed i with
          | nil => exact Nat.two_pow_pos 64
          | cons p ps =>
            have hin := ok.free_inside (i := i) (p := p) (by rw [hl]; exact mem_cons_self)
            have hupper := ok.upper
            rw [headD_cons]
            omega
        rw [hij, update_self, hcons]
        exact (ok.chains i).push (by omega) hhead fun q hq => hcross i q hq i hi
      · have hkeep : freeList (b::w.freed) j = freeList w.freed j := by
          unfold freeList
          rw [filter_cons_of_neg]
          rw [hi]
          exact fun hc => hij (some.inj (of_decide_eq_true hc)).symm
        rw [update_of_ne hij, hkeep]
        refine (ok.chains j).congr fun q hq k hk => writeU64_outside _ _ ?_
        have := hcross j q hq i hi
        omega
    · exact ok.inside c (hperm.mem_iff.mp hc)
    · exact ok.aligned c (hperm.mem_iff.mp hc)

end

/-! ## Calls and runs -/

/-- A call that needs the bump allocator does not make its sums wrap. -/
def Fits (h : Heap) (layout : Layout) : Prop :=
  (∃ i, getBlockIndex layout = some i ∧ h.listHeads i ≠ 0) ∨ h.bump.Fits layout.unit

section
variable {heapStart heapSize : ℕ} {w w' : World} {layout : Layout}

/-- A block has been cut off. -/
def Cut (h : Heap) (layout : Layout) (ptr : ℕ) (heap : Heap) : Prop :=
  ptr = roundUp h.bump.next layout.align ∧ ptr+layout.size ≤ h.bump.endAddr ∧
    heap = {h with bump := {h.bump with next := ptr+layout.size}}

theorem bump_cases {h : Heap} (hf : h.bump.Fits layout) :
    Cut h layout (h.bump.alloc layout).1 {h with bump := (h.bump.alloc layout).2} ∨
      ((h.bump.alloc layout).1 = 0 ∧ {h with bump := (h.bump.alloc layout).2} = h) := by
  rw [BumpAllocator.alloc_eq hf]
  split_ifs with hend
  · exact .inr ⟨rfl,rfl⟩
  · exact .inl ⟨rfl,not_lt.mp hend,rfl⟩

/-- An allocation takes the first block of a list, or cuts one off, or answers null. -/
theorem alloc_cases {heap : Heap} (hf : Fits w.heap layout) (h : alloc w.heap layout = (ptr,heap)) :
    (∃ i, getBlockIndex layout = some i ∧ w.heap.listHeads i ≠ 0 ∧ ptr = w.heap.listHeads i ∧
      heap = w.heap.setHead i (readU64 w.heap.mem (w.heap.listHeads i)).toNat) ∨
    (∀ i, getBlockIndex layout = some i → w.heap.listHeads i = 0) ∧
      (Cut w.heap layout.unit ptr heap ∨ (ptr = 0 ∧ heap = w.heap)) := by
  unfold HeapAllocator.alloc at h
  cases hi : getBlockIndex layout with
  | none =>
    rw [hi, ← unit_none hi] at h
    cases h
    refine .inr ⟨by simp,bump_cases (hf.resolve_left ?_)⟩
    intro ⟨i,hsome,_⟩
    rw [hi] at hsome
    cases hsome
  | some i =>
    rw [hi] at h
    dsimp only at h
    by_cases hhead : w.heap.listHeads i ≠ 0
    · rw [if_pos hhead] at h
      cases h
      exact .inl ⟨i,rfl,hhead,rfl,rfl⟩
    · rw [if_neg hhead, ← unit_some hi] at h
      cases h
      have hzero : ∀ j, some i = some j → w.heap.listHeads j = 0 := by
        rintro _ ⟨⟩
        exact not_not.mp hhead
      refine .inr ⟨hzero,bump_cases (hf.resolve_left ?_)⟩
      intro ⟨j,hsome,hne⟩
      exact hne (hzero j (hi.symm.trans hsome))

theorem HeapOk.alloc (ok : HeapOk heapStart heapSize w) (hpos : 0 < heapStart)
    {heap : Heap} (hf : Fits w.heap layout) (h : alloc w.heap layout = (ptr,heap)) :
    (ptr = 0 → heap = w.heap) ∧ (ptr ≠ 0 → HeapOk heapStart heapSize
      ⟨heap,⟨ptr,layout⟩::w.live,w.freed.filter (·.addr ≠ ptr)⟩) := by
  rcases alloc_cases hf h with ⟨i,hi,hhead,rfl,rfl⟩ | ⟨-,⟨hptr,hend,rfl⟩ | ⟨rfl,rfl⟩⟩
  · exact ⟨fun hz => (hhead hz).elim,fun _ => ok.pop hi hhead⟩
  · have hle := le_roundUp w.heap.bump.next layout.unit.align_pos
    have hlower := ok.lower
    refine ⟨fun hz => by omega,fun _ => ok.carve hptr rfl ?_⟩
    rw [← ok.endAddr]
    exact hend
  · exact ⟨fun _ => rfl,fun hz => (hz rfl).elim⟩

def GoodStep (w : World) (e : Event) (w' : World) : Prop :=
  Step w e w' ∧ ∀ layout ptr, e = .alloc layout ptr → Fits w.heap layout

theorem HeapOk.step (hpos : 0 < heapStart) (htop : heapStart+heapSize < 2^64) {e : Event}
    (ok : HeapOk heapStart heapSize w) (hs : GoodStep w e w') : HeapOk heapStart heapSize w' := by
  obtain ⟨hs,hf⟩ := hs
  cases e with
  | alloc layout ptr =>
    obtain ⟨heap,h,rfl⟩ := hs
    obtain ⟨hnull,hblock⟩ := ok.alloc hpos (hf layout ptr rfl) h
    split_ifs with hz
    · rw [hnull hz]
      exact ok
    · exact hblock hz
  | dealloc b =>
    obtain ⟨hb,rfl⟩ := hs
    exact ok.free hpos htop hb
  | write mem =>
    obtain ⟨rfl,hm⟩ := hs
    exact ok.write hm

theorem run_ok (hpos : 0 < heapStart) (htop : heapStart+heapSize < 2^64) {mem : Memory}
    {h : List Event} (r : Run GoodStep (start heapStart heapSize mem) h w) :
    HeapOk heapStart heapSize w := by
  induction r with
  | start => exact start_ok mem htop
  | next _ hs ih => exact ih.step hpos htop hs

/-- The sums cannot wrap below the middle of the address space. -/
theorem HeapOk.fits (ok : HeapOk heapStart heapSize w) (hlow : heapStart+heapSize ≤ 2^63)
    (layout : Layout) : Fits w.heap layout := by
  have hupper := ok.upper
  have hbound := layout.unit.fits
  have hpos := layout.unit.align_pos
  have hround := roundUp_le w.heap.bump.next layout.unit.align
  exact .inr ⟨by omega,by omega⟩

end

/-! ## The heap -/

/-- In every run whose calls keep the sums from wrapping, an allocation answers null and changes
nothing, or it answers a block that is aligned, inside of the heap and apart from every live
block. -/
theorem heap_spec {heapStart heapSize : ℕ} {mem : Memory} {h : List Event} {w : World}
    (hpos : 0 < heapStart) (htop : heapStart+heapSize < 2^64)
    (r : Run GoodStep (start heapStart heapSize mem) h w) :
    w.live.Pairwise (fun b c => (⟨b.addr,b.layout.size⟩ : Chunk).Apart ⟨c.addr,c.layout.size⟩) ∧
    ∀ layout ptr heap, Fits w.heap layout → alloc w.heap layout = (ptr,heap) →
      (ptr = 0 → heap = w.heap) ∧
      (ptr ≠ 0 → layout.align ∣ ptr ∧ heapStart ≤ ptr ∧ ptr+layout.size ≤ heapStart+heapSize ∧
        ∀ b ∈ w.live, (⟨ptr,layout.size⟩ : Chunk).Apart ⟨b.addr,b.layout.size⟩) := by
  have ok := run_ok hpos htop r
  have hlive : w.live.Pairwise Block.Apart := (pairwise_append.mp ok.apart).1
  refine ⟨hlive.imp fun hbc => hbc.shrink (unit_covers _).1 (unit_covers _).1,?_⟩
  intro layout ptr heap hf h
  obtain ⟨hnull,hblock⟩ := ok.alloc hpos hf h
  refine ⟨hnull,fun hne => ?_⟩
  have ok' := hblock hne
  have hin := ok'.inside ⟨ptr,layout⟩ (mem_append_left _ mem_cons_self)
  have hal := ok'.aligned ⟨ptr,layout⟩ (mem_append_left _ mem_cons_self)
  have hupper := ok'.upper
  have hsize := (unit_covers layout).1
  have hlen : (⟨ptr,layout⟩ : Block).chunk.len = layout.unit.size := rfl
  dsimp only at hin hupper
  refine ⟨(unit_covers layout).2.trans hal,hin.1,by omega,fun b hb => ?_⟩
  have hapart := (pairwise_cons.mp (pairwise_append.mp ok'.apart).1).1 b hb
  exact hapart.shrink hsize (unit_covers _).1

def fiveBytes : Layout := ⟨5,4,⟨2,rfl⟩,by decide⟩

/-- Two blocks of five bytes, cut off one after the other. -/
theorem heap_spec_two_blocks : ∃ w heap,
    Run GoodStep (start 0x100000 0x10000 fun _ => 0) [.alloc fiveBytes 0x100000] w ∧
    w.live = [⟨0x100000,fiveBytes⟩] ∧ alloc w.heap fiveBytes = (0x100008,heap) ∧
    fiveBytes.align ∣ 0x100008 ∧ 0x100000 ≤ 0x100008 ∧ 0x100008+fiveBytes.size ≤ 0x100000+0x10000 ∧
    ∀ b ∈ w.live, (⟨0x100008,fiveBytes.size⟩ : Chunk).Apart ⟨b.addr,b.layout.size⟩ := by
  have hlow : ∀ w, HeapOk 0x100000 0x10000 w → Fits w.heap fiveBytes := fun w ok =>
    ok.fits (by decide) fiveBytes
  have hgood : ∀ layout ptr, Event.alloc fiveBytes 0x100000 = .alloc layout ptr →
      Fits (start 0x100000 0x10000 fun _ => 0).heap layout := by
    intro layout ptr he
    cases he
    exact hlow _ (start_ok (fun _ => 0) (by decide))
  have run : Run GoodStep (start 0x100000 0x10000 fun _ => 0) [.alloc fiveBytes 0x100000] _ :=
    .next .start ⟨⟨_,rfl,rfl⟩,hgood⟩
  obtain ⟨-,hspec⟩ := heap_spec (by decide) (by decide) run
  exact ⟨_,_,run,rfl,rfl,(hspec fiveBytes _ _ (hlow _ (run_ok (by decide) (by decide) run)) rfl).2
    (by decide)⟩

def wide : Layout := ⟨1,2^62,⟨62,rfl⟩,by decide⟩

/-- On a heap in the upper half a call with a wide alignment answers null, but moves the bump
pointer to address 1, and the next block is outside of the heap. -/
theorem wide_alignment_resets_bump : ∃ w heap,
    Run Step (start 0xFFFFFFFF80000000 0x100000 fun _ => 0) [.alloc wide 0] w ∧
    (start 0xFFFFFFFF80000000 0x100000 fun _ => 0).heap.bump.next = 0xFFFFFFFF80000000 ∧
    w.heap.bump.next = 1 ∧ alloc w.heap fiveBytes = (8,heap) ∧ 8 < 0xFFFFFFFF80000000 :=
  ⟨_,_,.next .start ⟨_,rfl,rfl⟩,rfl,rfl,rfl,by decide⟩

end Zohara.HeapAllocator
