import Mathlib.Data.List.Nodup
import Mathlib.Logic.Relation

/-!
# Trees kept as two links

Nodes are numbered in the order in which they are made. A node knows its parent and lists
its children; the two maps agree on every listed child, and a child is listed once. New
nodes are hung under old ones and nodes are taken out again; their numbers are not used
twice. A node whose parent lists it, and so on up to the root, is reached from the root.
-/
namespace Zohara.TreeLinks

structure Linked (n : ℕ) (parent : ℕ → ℕ) (children : ℕ → List ℕ) : Prop where
  below : ∀ p c, c ∈ children p → p < c ∧ c < n
  up : ∀ p c, c ∈ children p → parent c = p
  once : ∀ p, (children p).Nodup

section
variable {n : ℕ} {parent parent' : ℕ → ℕ} {children children' : ℕ → List ℕ}

section

variable (h : Linked n parent children)
include h

theorem Linked.unique {p q c : ℕ} (hp : c ∈ children p)
    (hq : c ∈ children q) : p = q := (h.up p c hp).symm.trans (h.up q c hq)

theorem Linked.leaf {p : ℕ} (hp : n ≤ p) : children p = [] := by
  rw [List.eq_nil_iff_forall_not_mem]
  intro c hc
  have := h.below p c hc
  omega

theorem Linked.add {p : ℕ} (hp : p < n)
    (hold : ∀ i < n, parent' i = parent i) (hnew : parent' n = p)
    (hself : children' p = children p++[n]) (hother : ∀ i, i ≠ p → children' i = children i) :
    Linked (n+1) parent' children' := by
  have hmem : ∀ q c, c ∈ children' q → c ∈ children q ∨ q = p ∧ c = n := by
    intro q c hc
    by_cases hq : q = p
    · rw [hq, hself, List.mem_append, List.mem_singleton] at hc
      rw [hq]
      exact hc.imp_right fun hc => ⟨rfl,hc⟩
    · rw [hother q hq] at hc
      exact .inl hc
  refine ⟨fun q c hc => ?_,fun q c hc => ?_,fun q => ?_⟩
  · rcases hmem q c hc with hc | ⟨hq,hc⟩
    · have := h.below q c hc
      omega
    · omega
  · rcases hmem q c hc with hc | ⟨hq,hc⟩
    · rw [hold c (h.below q c hc).2]
      exact h.up q c hc
    · rw [hc, hnew, hq]
  · by_cases hq : q = p
    · rw [hq, hself, List.nodup_append]
      refine ⟨h.once p,List.nodup_singleton n,fun a ha b hb => ?_⟩
      have := h.below p a ha
      rw [List.mem_singleton] at hb
      omega
    · rw [hother q hq]
      exact h.once q

theorem Linked.drop {i : ℕ} (hparent : ∀ j, j ≠ i → parent' j = parent j)
    (hsub : ∀ j, (children' j).Sublist (children j)) (hgone : ∀ j, i ∉ children' j) :
    Linked n parent' children' := by
  refine ⟨fun p c hc => h.below p c ((hsub p).mem hc),fun p c hc => ?_,
    fun p => (h.once p).sublist (hsub p)⟩
  have hne : c ≠ i := fun he => hgone p (he ▸ hc)
  rw [hparent c hne]
  exact h.up p c ((hsub p).mem hc)

end

end

/-! ## Reachable nodes -/

def Reaches (children : ℕ → List ℕ) : ℕ → ℕ → Prop :=
  Relation.ReflTransGen fun p c => c ∈ children p

/-- The live nodes: every listed child is one, and all but the root are listed by a live
parent. -/
structure Hung (root : ℕ) (parent : ℕ → ℕ) (children : ℕ → List ℕ) (live : ℕ → Prop) : Prop where
  top : live root
  listed : ∀ p c, c ∈ children p → live c
  hung : ∀ i, live i → i ≠ root → i ∈ children (parent i) ∧ live (parent i)

section
variable {n root : ℕ} {parent parent' : ℕ → ℕ} {children children' : ℕ → List ℕ}
  {live live' : ℕ → Prop}

theorem Hung.reaches (h : Hung root parent children live) (hl : Linked n parent children) {i : ℕ}
    (hi : live i) : Reaches children root i := by
  induction i using Nat.strongRecOn with
  | _ i ih =>
    by_cases hr : i = root
    · rw [hr]
      exact .refl
    · obtain ⟨hmem,hp⟩ := h.hung i hi hr
      exact .tail (ih _ (hl.below _ _ hmem).1 hp) hmem

theorem Hung.add {p : ℕ} (h : Hung root parent children live) (hp : live p)
    (hlive : ∀ i, live i → i < n) (hold : ∀ i < n, parent' i = parent i)
    (hnew : parent' n = p) (hself : children' p = children p++[n])
    (hother : ∀ i, i ≠ p → children' i = children i)
    (hlive' : ∀ i, live' i ↔ live i ∨ i = n) : Hung root parent' children' live' := by
  have hgrow : ∀ q c, c ∈ children q → c ∈ children' q := by
    intro q c hc
    by_cases hq : q = p
    · rw [hq, hself]
      exact List.mem_append_left _ (hq ▸ hc)
    · rw [hother q hq]
      exact hc
  refine ⟨(hlive' root).mpr (.inl h.top),fun q c hc => ?_,fun i hi hr => ?_⟩
  · rw [hlive']
    by_cases hq : q = p
    · rw [hq, hself, List.mem_append, List.mem_singleton] at hc
      exact hc.imp_left fun hc => h.listed p c hc
    · rw [hother q hq] at hc
      exact .inl (h.listed q c hc)
  · rcases (hlive' i).mp hi with hi | hi
    · obtain ⟨hmem,hpar⟩ := h.hung i hi hr
      rw [hold i (hlive i hi)]
      exact ⟨hgrow _ _ hmem,(hlive' _).mpr (.inl hpar)⟩
    · rw [hi, hnew, hself]
      exact ⟨List.mem_append_right _ (List.mem_singleton_self n),(hlive' p).mpr (.inl hp)⟩

theorem Hung.drop {i : ℕ} (h : Hung root parent children live) (hi : i ≠ root)
    (hleaf : children i = []) (hparent : ∀ j, j ≠ i → parent' j = parent j)
    (hsub : ∀ j, children' j ⊆ children j) (hkeep : ∀ j c, c ≠ i → c ∈ children j → c ∈ children' j)
    (hgone : ∀ j, i ∉ children' j) (hlive' : ∀ j, live' j ↔ live j ∧ j ≠ i) :
    Hung root parent' children' live' := by
  refine ⟨(hlive' root).mpr ⟨h.top,hi.symm⟩,fun q c hc => ?_,fun j hj hr => ?_⟩
  · exact (hlive' c).mpr ⟨h.listed q c (hsub q hc),fun he => hgone q (he ▸ hc)⟩
  · obtain ⟨hj,hne⟩ := (hlive' j).mp hj
    obtain ⟨hmem,hpar⟩ := h.hung j hj hr
    rw [hparent j hne]
    refine ⟨hkeep _ _ hne hmem,(hlive' _).mpr ⟨hpar,fun he => ?_⟩⟩
    rw [he, hleaf] at hmem
    cases hmem

end

/-! ## Depth -/

/-- The number of steps from the root down to a node. -/
inductive Depth (root : ℕ) (children : ℕ → List ℕ) : ℕ → ℕ → Prop
  | root : Depth root children root 0
  | child {p c d : ℕ} : Depth root children p d → c ∈ children p → Depth root children c (d+1)

section
variable {n root i d e : ℕ} {parent : ℕ → ℕ} {children : ℕ → List ℕ}

theorem Depth.eq_root (h : Depth root children i 0) : i = root := by
  cases h
  rfl

theorem Depth.up (h : Depth root children i (d+1)) (hl : Linked n parent children) :
    Depth root children (parent i) d ∧ i ∈ children (parent i) := by
  cases h with
  | child hp hc =>
    rw [hl.up _ _ hc]
    exact ⟨hp,hc⟩

theorem Depth.pos (h : Depth 0 children i (d+1)) (hl : Linked n parent children) : i ≠ 0 := by
  cases h with
  | child hp hc =>
    have := hl.below _ _ hc
    omega

theorem Depth.unique (hl : Linked n parent children) (h : Depth 0 children i d)
    (h' : Depth 0 children i e) : d = e := by
  induction d generalizing i e with
  | zero =>
    rw [h.eq_root] at h'
    cases e with
    | zero => rfl
    | succ e => exact absurd rfl (h'.pos hl)
  | succ d ih =>
    cases e with
    | zero => exact absurd h'.eq_root (h.pos hl)
    | succ e => rw [ih (h.up hl).1 (h'.up hl).1]

end

end Zohara.TreeLinks
