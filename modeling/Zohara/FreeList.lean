import Zohara.ByteMemory

/-!
# Free lists inside the memory they manage

A chunk is a range of addresses. Chunks are apart when they share no byte.

A chain is a list of addresses that is threaded through memory: the head is given, the
word at each address is the next one, and a zero ends the chain. A chain depends on the
words at its own addresses only. Writing the old head to a new address makes that address
the head.
-/
namespace Zohara.FreeList
open ByteMemory

structure Chunk where
  addr : ℕ
  len : ℕ

def Chunk.Apart (c d : Chunk) : Prop := c.addr+c.len ≤ d.addr ∨ d.addr+d.len ≤ c.addr

theorem Chunk.Apart.symm {c d : Chunk} (h : c.Apart d) : d.Apart c := Or.symm h

theorem Chunk.Apart.shrink {c d : Chunk} (h : c.Apart d) {n m : ℕ} (hn : n ≤ c.len)
    (hm : m ≤ d.len) : (⟨c.addr,n⟩ : Chunk).Apart ⟨d.addr,m⟩ := by
  unfold Chunk.Apart at h ⊢
  dsimp only
  omega

def Chain (mem : Memory) : ℕ → List ℕ → Prop
  | head,[] => head = 0
  | head,p::ps => head = p ∧ p ≠ 0 ∧ Chain mem (readU64 mem p).toNat ps

theorem Chain.congr {mem mem' : Memory} {head : ℕ} {ps : List ℕ} (h : Chain mem head ps)
    (hm : ∀ p ∈ ps, ∀ k < 8, mem' (p+k) = mem (p+k)) : Chain mem' head ps := by
  induction ps generalizing head with
  | nil => exact h
  | cons p ps ih =>
    obtain ⟨hhead,hp,hrest⟩ := h
    refine ⟨hhead,hp,?_⟩
    rw [readU64_congr (hm p List.mem_cons_self)]
    exact ih hrest (List.forall_mem_cons.mp hm).2

theorem Chain.push {mem : Memory} {head p : ℕ} {ps : List ℕ} (h : Chain mem head ps)
    (hp : p ≠ 0) (hhead : head < 2^64) (hout : ∀ q ∈ ps, q+8 ≤ p ∨ p+8 ≤ q) :
    Chain (writeU64 mem p (BitVec.ofNat 64 head)) p (p::ps) := by
  refine ⟨rfl,hp,?_⟩
  rw [readU64_writeU64_self, BitVec.toNat_ofNat, Nat.mod_eq_of_lt hhead]
  refine h.congr fun q hq k hk => writeU64_outside _ _ ?_
  have := hout q hq
  omega

theorem Chain.head_eq {mem : Memory} {head : ℕ} {ps : List ℕ} (h : Chain mem head ps) :
    head = ps.headD 0 := by
  cases ps with
  | nil => exact h
  | cons p ps => exact h.1

end Zohara.FreeList
