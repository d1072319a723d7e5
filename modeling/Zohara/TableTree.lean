import Mathlib.Data.List.Basic
import Mathlib.Data.List.Infix

/-!
# Trees of tables stored in a heap

A heap gives every table an array of cells, and a cell may point to another
table. A path of cell indices, followed from a root, names a table. Walks of
bounded length over bounded indices form a tree when different paths name
different tables.

The rules say what an update of the heap does to the walks: nothing, when no
cell on the way is changed; and the appearance of exactly one new table, when
one empty cell is made to point to a table that was not in the tree. Clients
choose the cell type and what counts as a pointer. Cells of the tables at full
depth are never followed, so they may hold anything.
-/
namespace Zohara.TableTree
open List Option

variable {V : Type} (child : V → Option ℕ)

def node (E : ℕ → ℕ → V) : ℕ → List ℕ → Option ℕ
  | r,[] => some r
  | r,i::p => (child (E r i)).bind fun c => node E c p

/-- Paths of at most `d` steps whose indices are below `w`. -/
def Path (d w : ℕ) (p : List ℕ) : Prop := p.length ≤ d ∧ ∀ i ∈ p, i < w

/-- Different paths name different tables. -/
def Separate (E : ℕ → ℕ → V) (r d w : ℕ) : Prop :=
  ∀ p q f, Path d w p → Path d w q → node child E r p = some f →
    node child E r q = some f → p = q

variable {child}

theorem node_append (E : ℕ → ℕ → V) (r : ℕ) (p q : List ℕ) :
    node child E r (p++q) = (node child E r p).bind fun c => node child E c q := by
  induction p generalizing r with
  | nil => rfl
  | cons i p ih =>
    simp only [cons_append, node, bind_assoc]
    cases child (E r i) with
    | none => rfl
    | some c => exact ih c

theorem node_snoc (E : ℕ → ℕ → V) (r : ℕ) (p : List ℕ) (i : ℕ) :
    node child E r (p++[i]) = (node child E r p).bind fun f => child (E f i) := by
  rw [node_append]
  cases node child E r p with
  | none => rfl
  | some f => simp [node]

variable {E : ℕ → ℕ → V}

theorem node_snoc_of {r f : ℕ} {p : List ℕ} (h : node child E r p = some f)
    (i : ℕ) : node child E r (p++[i]) = child (E f i) := by
  rw [node_snoc, h, bind_some]

variable {q : List ℕ} {E F : ℕ → ℕ → V}

theorem node_congr {r : ℕ}
    (h : ∀ p i s f, q = p++i::s → node child E r p = some f → F f i = E f i) :
    node child F r q = node child E r q := by
  induction q generalizing r with
  | nil => rfl
  | cons j t ih =>
    simp only [node]
    rw [h [] j t r rfl rfl]
    cases hc : child (E r j) with
    | none => rfl
    | some c =>
      refine ih fun p i s f hp hf => h (j::p) i s f (by rw [hp]; rfl) ?_
      simpa only [node, hc, bind_some] using hf

theorem Path.initial {d w : ℕ} {p q : List ℕ} (h : Path d w q) (hp : p <+: q) : Path d w p :=
  ⟨hp.length_le.trans h.1,fun i hi => h.2 i (hp.subset hi)⟩

theorem Path.weaken {d e w : ℕ} {p : List ℕ} (h : Path d w p) (hde : d ≤ e) : Path e w p :=
  ⟨h.1.trans hde,h.2⟩

theorem Path.snoc {d w i : ℕ} {p : List ℕ} (h : Path d w p) (hl : p.length < d) (hi : i < w) :
    Path d w (p++[i]) := by
  refine ⟨by simp only [length_append, length_singleton]; omega,?_⟩
  intro k hk
  rcases mem_append.mp hk with hk | hk
  · exact h.2 k hk
  · rw [mem_singleton.mp hk]
    exact hi

/-- The walk up to `q` splits at every prefix: the next index is in range and
the prefix is short of full depth. -/
theorem Path.split {d w i : ℕ} {p s : List ℕ} (h : Path d w (p++i::s)) :
    Path d w p ∧ p.length < d ∧ i < w := by
  refine ⟨h.initial ⟨i::s,rfl⟩,?_,h.2 i (by simp)⟩
  have hl := h.1
  simp only [length_append, length_cons] at hl
  omega

/-- Changes confined to tables at full depth, or outside the tree, move nothing. -/
theorem node_eq_of_agree {r d w : ℕ}
    (h : ∀ p f i, Path d w p → p.length < d → i < w → node child E r p = some f → F f i = E f i) (hq : Path d w q) : node child F r q = node child E r q := by
  refine node_congr fun p i s f he hf => ?_
  subst he
  obtain ⟨hp,hl,hi⟩ := hq.split
  exact h p f i hp hl hi hf

theorem Separate.of_agree {r d w : ℕ} (hs : Separate child E r d w)
    (h : ∀ p f i, Path d w p → p.length < d → i < w → node child E r p = some f → F f i = E f i) :
    Separate child F r d w := by
  intro p q f hp hq hpf hqf
  rw [node_eq_of_agree h hp] at hpf
  rw [node_eq_of_agree h hq] at hqf
  exact hs p q f hp hq hpf hqf

/-- The tables at most `d` steps below `r`. -/
def Within (child : V → Option ℕ) (E : ℕ → ℕ → V) (r d w f : ℕ) : Prop :=
  ∃ p, Path d w p ∧ node child E r p = some f

theorem within_zero {r w f : ℕ} : Within child E r 0 w f ↔ f = r := by
  constructor
  · rintro ⟨p,hp,hf⟩
    obtain rfl := length_eq_zero_iff.mp (Nat.le_zero.mp hp.1)
    exact (some.inj hf).symm
  · rintro rfl
    exact ⟨[],⟨le_rfl,by simp⟩,rfl⟩

theorem within_succ {r d w f : ℕ} : Within child E r (d+1) w f ↔
    f = r ∨ ∃ i < w, ∃ c, child (E r i) = some c ∧ Within child E c d w f := by
  constructor
  · rintro ⟨p,hp,hf⟩
    cases p with
    | nil => exact .inl (some.inj hf).symm
    | cons i p =>
      obtain ⟨c,hc,hf⟩ := bind_eq_some_iff.mp hf
      refine .inr ⟨i,hp.2 i mem_cons_self,c,hc,p,⟨?_,?_⟩,hf⟩
      · exact Nat.le_of_succ_le_succ hp.1
      · exact (forall_mem_cons.mp hp.2).2
  · rintro (rfl | ⟨i,hi,c,hc,p,hp,hf⟩)
    · exact ⟨[],⟨Nat.zero_le _,by simp⟩,rfl⟩
    · refine ⟨i::p,⟨Nat.succ_le_succ hp.1,?_⟩,by rw [node, hc]; exact hf⟩
      intro j hj
      rcases mem_cons.mp hj with rfl | hj
      · exact hi
      · exact hp.2 j hj

/-! ## Hanging a new table into an empty cell -/

/-- `F` differs from `E`, on the cells of the tree, in one empty cell, which now
points to a table outside the tree. -/
structure Extends (child : V → Option ℕ) (E F : ℕ → ℕ → V) (r d w : ℕ) (p : List ℕ)
    (t j g : ℕ) : Prop where
  path : Path d w p
  short : p.length < d
  index : j < w
  at_node : node child E r p = some t
  empty : child (E t j) = none
  points : child (F t j) = some g
  fresh : ∀ q, Path d w q → node child E r q ≠ some g
  agree : ∀ q f i, Path d w q → q.length < d → i < w → node child E r q = some f →
    ¬(f = t ∧ i = j) → F f i = E f i
  bare : p.length+1 < d → ∀ i < w, child (F g i) = none

variable {E F : ℕ → ℕ → V} {r d w t j g : ℕ} {p : List ℕ}

section

variable (h : Extends child E F r d w p t j g) (hs : Separate child E r d w)
include h hs

theorem Extends.node_other (hq : Path d w q) (hn : ¬p++[j] <+: q) :
    node child F r q = node child E r q := by
  refine node_congr fun p' i s f he hf => ?_
  subst he
  obtain ⟨hp,hl,hi⟩ := hq.split
  refine h.agree p' f i hp hl hi hf ?_
  rintro ⟨rfl,rfl⟩
  have hpp : p' = p := hs p' p f hp h.path hf h.at_node
  exact hn ⟨s,by rw [hpp]; simp⟩

theorem Extends.node_new : node child F r (p++[j]) = some g := by
  have hp : node child F r p = some t := by
    rw [h.node_other hs h.path ?_]
    · exact h.at_node
    · intro hpre
      have hle := hpre.length_le
      simp only [length_append, length_singleton] at hle
      omega
  rw [node_snoc_of hp, h.points]

theorem Extends.node_below {i : ℕ} {s : List ℕ} (hq : Path d w (p++[j]++i::s)) :
    node child F r (p++[j]++i::s) = none := by
  obtain ⟨-,hl,hi⟩ := hq.split
  rw [node_append, h.node_new hs, bind_some, node,
    h.bare (by simpa using hl) i hi]
  rfl

/-- Every table of the extended tree is an old one under its old path, or the
new one. -/
theorem Extends.node_cases {f : ℕ} (hq : Path d w q) (hf : node child F r q = some f) :
    (q = p++[j] ∧ f = g) ∨ (node child E r q = some f ∧ ¬p++[j] <+: q) := by
  by_cases hpre : p++[j] <+: q
  · obtain ⟨s,rfl⟩ := hpre
    cases s with
    | nil =>
      rw [append_nil] at hf ⊢
      rw [h.node_new hs] at hf
      exact .inl ⟨rfl,(some.inj hf).symm⟩
    | cons i s =>
      rw [h.node_below hs hq] at hf
      cases hf
  · rw [h.node_other hs hq hpre] at hf
    exact .inr ⟨hf,hpre⟩

theorem Extends.node_old {f : ℕ} (hq : Path d w q)
    (hf : node child E r q = some f) : node child F r q = some f := by
  rw [h.node_other hs hq ?_]
  · exact hf
  · rintro ⟨s,rfl⟩
    rw [node_append, node_snoc_of h.at_node, h.empty] at hf
    cases hf

theorem Extends.separate : Separate child F r d w := by
  intro q q' f hq hq' hf hf'
  obtain ⟨rfl,rfl⟩ | ⟨ho,-⟩ := h.node_cases hs hq hf
  · obtain ⟨rfl,-⟩ | ⟨ho',-⟩ := h.node_cases hs hq' hf'
    · rfl
    · exact (h.fresh q' hq' ho').elim
  · obtain ⟨rfl,rfl⟩ | ⟨ho',-⟩ := h.node_cases hs hq' hf'
    · exact (h.fresh q hq ho).elim
    · exact hs q q' f hq hq' ho ho'

end

end Zohara.TableTree
