import Mathlib.Data.Finset.Card
import Mathlib.Data.List.Pairwise
import Zohara.FatVolume
import Zohara.LinkedChain

/-!
# Cluster chains

The clusters of a file are linked by the low 28 bits of their FAT entries; the upper four bits
are reserved. The code follows an entry only when these bits are zero, and takes any other entry
for the end of the chain. So a file has two chains: its own, and the part of it that the code
sees, which ends at the first link with a reserved bit set. Reading from a cluster, and walking
to an offset, go along the part that is seen.
-/
namespace Zohara.Fat32
open FallibleState IdeDisk LinkedChain List

/-- The end-of-chain entry that mark_eoc writes. -/
def eoc : ℕ := 0x0FFFFFF8

theorem View.not_free_eoc {A : View} {c : ℕ} (h : A.fat c = eoc) : ¬A.Free c := by
  unfold View.Free
  rw [h]
  decide

theorem View.free_setEoc {A : View} {c f : ℕ} :
    (A.setFat f eoc).Free c ↔ c ≠ f ∧ A.Free c := by
  by_cases hcf : c = f
  · rw [hcf]
    exact iff_of_false (not_free_eoc (A.setFat_self f eoc)) fun h => h.1 rfl
  · unfold View.Free
    rw [A.setFat_of_ne hcf, and_iff_right hcf]

theorem getD_slot {buf : List UInt8} {i j : ℕ} (hj : j < 32) :
    (slot buf i).getD j 0 = buf.getD (i*32+j) 0 := by
  unfold slot
  rw [getD_eq_getElem?_getD, getElem?_take_of_lt hj, getElem?_drop,
    ← getD_eq_getElem?_getD]

namespace FatVolume
variable (v : FatVolume)

/-- A chain of distinct clusters, each linked to the next by its entry. -/
structure Linked (entry : ℕ → ℕ) (l : List ℕ) : Prop where
  chain : Chain (fun c d => entry c = d) (fun c => eoc ≤ entry c) l
  inside : ∀ c ∈ l, 2 ≤ c ∧ c < v.total
  distinct : l.Nodup

/-- The chain of a file. -/
def FileChain (A : View) (l : List ℕ) : Prop := v.Linked (fun c => A.fat c%2^28) l

/-- The chain as next_cluster follows it. -/
def Seen (A : View) (l : List ℕ) : Prop := v.Linked A.fat l

end FatVolume

/-- The bytes of a chain. -/
def View.contents (A : View) (l : List ℕ) : List UInt8 := l.flatMap A.data

theorem View.contents_nil (A : View) : A.contents [] = [] := rfl

theorem View.contents_append (A : View) (l₁ l₂ : List ℕ) :
    A.contents (l₁++l₂) = A.contents l₁++A.contents l₂ := flatMap_append

theorem View.contents_cons (A : View) (c : ℕ) (l : List ℕ) :
    A.contents (c::l) = A.data c++A.contents l := flatMap_cons

theorem View.contents_congr {A B : View} {l : List ℕ} (h : ∀ c ∈ l, B.data c = A.data c) :
    B.contents l = A.contents l := by
  induction l with
  | nil => rfl
  | cons c l ih =>
    rw [contents_cons, contents_cons, h c mem_cons_self,
      ih (forall_mem_cons.mp h).2]

namespace FatVolume
variable {v : FatVolume} {w : Drives} {A B : View} {entry entry' : ℕ → ℕ} {c d : ℕ} {l R : List ℕ}

theorem length_contents (hw : v.view w = A) (h : ∀ c ∈ l, 2 ≤ c ∧ c < v.total) :
    (A.contents l).length = l.length*v.size := by
  induction l with
  | nil => rw [length_nil, Nat.zero_mul]; rfl
  | cons c l ih =>
    obtain ⟨h2,hc⟩ := h c mem_cons_self
    rw [View.contents_cons, length_append, length_data hw h2 hc,
      ih (forall_mem_cons.mp h).2, length_cons, Nat.succ_mul, Nat.add_comm]

/-! ## Chains under changes of the FAT -/

theorem Linked.congr (h : v.Linked entry l) (he : ∀ c ∈ l, entry' c = entry c) :
    v.Linked entry' l where
  chain := h.chain.mono (fun c hc _ _ hlink => (he c hc).trans hlink) fun c hc hstop =>
    (he c hc).symm ▸ hstop
  inside := h.inside
  distinct := h.distinct

theorem Linked.tail (h : v.Linked entry (c::d::R)) : v.Linked entry (d::R) where
  chain := h.chain.tail
  inside := (forall_mem_cons.mp h.inside).2
  distinct := (nodup_cons.mp h.distinct).2

theorem Linked.suffix {l₁ l₂ : List ℕ} (h : v.Linked entry (l₁++l₂)) (hne : l₂ ≠ []) :
    v.Linked entry l₂ where
  chain := h.chain.suffix hne
  inside := (forall_mem_append.mp h.inside).2
  distinct := h.distinct.of_append_right

theorem length_le_total (hin : ∀ c ∈ l, 2 ≤ c ∧ c < v.total) (hd : l.Nodup) : l.length ≤ v.total := by
  have hsub : l.toFinset ⊆ Finset.range v.total := fun c hc =>
    Finset.mem_range.mpr (hin c (mem_toFinset.mp hc)).2
  have hcard := Finset.card_le_card hsub
  rwa [toFinset_card_of_nodup hd, Finset.card_range] at hcard

theorem Linked.length_le (h : v.Linked entry l) : l.length ≤ v.total :=
  length_le_total h.inside h.distinct

theorem FileChain.used (h : v.FileChain A l) (hc : c ∈ l) : ¬A.Free c := by
  intro hfree
  have hzero : A.fat c%2^28 = 0 := hfree
  obtain hstop | ⟨d,hd,hlink⟩ := h.chain.of_mem hc
  · rw [hzero] at hstop
    exact absurd hstop (by decide)
  · have := h.inside d hd
    omega

theorem Linked.relink {l₁ N : List ℕ} (h : v.Linked entry (l₁++[c])) (hd : (l₁++c::N).Nodup)
    (hN : ∀ x ∈ N, 2 ≤ x ∧ x < v.total) : v.Linked (relink eoc entry c N) (l₁++c::N) where
  chain := h.chain.relink le_rfl hd
  inside := by
    intro x hx
    rw [append_cons, mem_append] at hx
    exact hx.elim (h.inside x) (hN x)
  distinct := hd

theorem member_small (hc : c < v.total) : c%2^28 = c := by
  have hsmall := v.total_small
  exact Nat.mod_eq_of_lt (by omega)

theorem FileChain.seen_upTo (h : v.FileChain A l) :
    v.Seen A (upTo (fun c => 2^28 ≤ A.fat c) l) where
  chain := h.chain.upTo
    (fun c d _ hd hclean => by rw [← hd, Nat.mod_eq_of_lt (not_le.mp hclean)])
    (fun _ hstop => hstop.trans (Nat.mod_le _ _)) fun _ hdirty => le_trans (by decide) hdirty
  inside := fun c hc => h.inside c (upTo_sublist.subset hc)
  distinct := h.distinct.sublist upTo_sublist

theorem FileChain.seen (h : v.FileChain A l) :
    ∃ L T, l = L++T ∧ v.Seen A L ∧ (T ≠ [] → ∃ l₁ c, L = l₁++[c] ∧ 2^28 ≤ A.fat c) := by
  obtain ⟨T,hl,hT⟩ := exists_upTo (fun c => 2^28 ≤ A.fat c) l
  exact ⟨_,T,hl,h.seen_upTo,hT⟩

theorem Seen.clean (h : v.Seen A l) {i : ℕ} (hi : i+1 < l.length) : A.fat (l.getD i 0) < 2^28 := by
  have hlink : A.fat (l.getD i 0) = l.getD (i+1) 0 := h.chain.link_getD 0 hi
  have hmem : l.getD (i+1) 0 ∈ l := by
    rw [getD_eq_getElem _ _ hi]
    exact getElem_mem hi
  have hsmall := v.total_small
  have hin := (h.inside _ hmem).2
  omega

/-! ## Files -/

variable (v) in
/-- The files of a volume. -/
structure Files (A : View) (files : List (List ℕ)) : Prop where
  chains : ∀ F ∈ files, v.FileChain A F
  apart : files.Pairwise List.Disjoint

theorem Files.disjoint {files : List (List ℕ)} (h : v.Files A files) {F G : List ℕ} (hF : F ∈ files)
    (hG : G ∈ files) (hne : F ≠ G) : F.Disjoint G := by
  have hsymm : Std.Symm (α := List ℕ) List.Disjoint := ⟨fun _ _ hd => hd.symm⟩
  exact h.apart.forall hF hG hne

/-! ## Following a chain -/

theorem nextCluster_good (hw : v.view w = A) (hc : c < v.total) (hgood : A.fat c ≠ 0x0FFFFFF7) :
    Ends (v.fs.nextCluster v.disk c) w (fun x w' => x = linked (A.fat c) ∧ v.view w' = A)
      fun _ _ => ¬A.Sound :=
  Ends.fails (nextCluster_ends hw hc) fun _ _ he =>
    he.resolve_right fun hbad => hgood hbad.1

theorem nextCluster_link (hw : v.view w = A) (h : v.Seen A (c::d::R)) :
    Ends (v.fs.nextCluster v.disk c) w (fun x w' => x = d ∧ v.view w' = A)
      fun _ _ => ¬A.Sound := by
  have hc := h.inside c mem_cons_self
  have hd := (h.inside d (mem_cons_of_mem c mem_cons_self)).2
  have hsmall := v.total_small
  have hlink : A.fat c = d := h.chain.head
  refine Ends.imp (nextCluster_good hw hc.2 (by omega)) (fun x w' hx => ⟨?_,hx.2⟩)
  rw [hx.1, hlink, linked, if_neg (by omega), member_small hd]

theorem nextCluster_last (hw : v.view w = A) (h : v.Seen A [c]) :
    Ends (v.fs.nextCluster v.disk c) w (fun x w' => x = 0 ∧ v.view w' = A)
      fun _ _ => ¬A.Sound := by
  have hc := h.inside c mem_cons_self
  have hstop : eoc ≤ A.fat c := h.chain.stops
  unfold eoc at hstop
  refine Ends.imp (nextCluster_good hw hc.2 (by omega)) (fun x w' hx => ⟨?_,hx.2⟩)
  rw [hx.1, linked, if_pos hstop]

theorem take_cluster {x y : List UInt8} {k n : ℕ} (hx : x.length = n) :
    (x++y).take k = x.take (min n k)++y.take (k-min n k) := by
  rw [take_append, hx]
  by_cases hk : k ≤ n
  · rw [Nat.min_eq_right hk, Nat.sub_self, Nat.sub_eq_zero_of_le hk]
  · rw [Nat.min_eq_left (by omega), take_of_length_le (by omega),
      take_of_length_le (by omega : x.length ≤ n)]

theorem readLoop_done (hw : v.view w = A) {size len offset : ℕ} (h : ¬(offset < len ∧ offset < size))
    (bs : List UInt8) :
    Ends (v.fs.readLoop v.disk size len c offset) w
      (fun r w' => r = bs.take (min size len-offset) ∧ v.view w' = A) fun _ _ => ¬A.Sound := by
  have hzero : min size len-offset = 0 := by omega
  rw [Fat32Fs.readLoop, dif_neg h, hzero, take_zero]
  exact ends_pure ⟨rfl,hw⟩

theorem readLoop_ends {c : ℕ} {R : List ℕ} {w : Drives} (hw : v.view w = A) {size len offset : ℕ}
    (h : v.Seen A (c::R)) : Ends (v.fs.readLoop v.disk size len c offset) w
      (fun bs w' => bs = (A.contents (c::R)).take (min size len-offset) ∧ v.view w' = A)
      fun _ _ => ¬A.Sound := by
  have hc := h.inside c mem_cons_self
  by_cases hmore : offset < len ∧ offset < size
  · rw [Fat32Fs.readLoop, v.clusterBytes_eq, dif_pos hmore]
    have hcopy : min (min (size-offset) v.size) (len-offset) =
        min v.size (min size len-offset) := by omega
    refine Ends.bind (readCluster_ends hw hc.1 hc.2) ?_
    intro buf w₁ hbuf
    rw [View.contents_cons, take_cluster (length_data hw hc.1 hc.2), ← hbuf.1, ← hcopy]
    cases R with
    | nil =>
      refine Ends.bind (nextCluster_last hbuf.2 h) ?_
      intro x w₂ hx
      rw [if_pos hx.1, View.contents_nil, take_nil, append_nil]
      exact ends_pure ⟨rfl,hx.2⟩
    | cons d R =>
      have hd := h.inside d (mem_cons_of_mem c mem_cons_self)
      refine Ends.bind (nextCluster_link hbuf.2 h) ?_
      intro x w₂ hx
      rw [if_neg (by omega), hx.1]
      refine Ends.bind (readLoop_ends hx.2 h.tail) ?_
      intro rest w₃ hrest
      rw [hrest.1, Nat.sub_add_eq]
      exact ends_pure ⟨rfl,hrest.2⟩
  · exact readLoop_done hw hmore _
termination_by R.length

theorem walkTo_ends {c : ℕ} {R : List ℕ} {w : Drives} (hw : v.view w = A) {offset : ℕ}
    (h : v.Seen A (c::R)) : Ends (v.fs.walkTo v.disk c offset) w
      (fun r w' => v.view w' = A ∧ ∃ l₁ l₂, c::R = l₁++r.1::l₂ ∧
        offset = l₁.length*v.size+r.2 ∧ r.2 < v.size)
      fun e _ => ¬A.Sound ∨ (c::R).length*v.size ≤ offset ∧ e = .err "offset beyond file" := by
  have hpos := v.size_pos
  rw [Fat32Fs.walkTo, v.clusterSize_eq]
  split_ifs with hlt hzero
  · exact ends_pure ⟨hw,[],R,rfl,by simp,hlt⟩
  · omega
  cases R with
  | nil =>
    refine Ends.bind (Ends.fails (nextCluster_last hw h) fun _ _ h => .inl h) ?_
    intro x w₁ hx
    rw [if_pos hx.1]
    refine ends_throw (.inr ⟨?_,rfl⟩)
    rw [length_singleton, Nat.one_mul]
    exact not_lt.mp hlt
  | cons d R =>
    have hd := h.inside d (mem_cons_of_mem c mem_cons_self)
    refine Ends.bind (Ends.fails (nextCluster_link hw h) fun _ _ h => .inl h) ?_
    intro x w₁ hx
    rw [if_neg (by omega), hx.1]
    refine Ends.mono (walkTo_ends hx.2 h.tail) ?_ ?_
    · rintro r w' ⟨hw',l₁,l₂,hl,hoffset,hr⟩
      refine ⟨hw',c::l₁,l₂,by rw [hl, cons_append],?_,hr⟩
      rw [length_cons, Nat.succ_mul]
      omega
    · intro e w' he
      refine he.imp_right fun hle => ⟨?_,hle.2⟩
      have hle := hle.1
      rw [length_cons, Nat.succ_mul]
      omega
termination_by R.length

theorem ends_hang {α : Type} (hw : v.view w = A) (hc : c < v.total) {f : ℕ → Action Drives α}
    {Q : α → Drives → Prop} {E : Fault → Drives → Prop}
    (hf : ∀ d w', 2 ≤ d ∧ d < v.total → A.Free d → v.view w' = (A.setFat c d).setFat d eoc →
      Ends (f d) w' Q E)
    (hE : ∀ e w', ¬A.Sound ∨ (∀ d, 2 ≤ d → d < v.total → ¬A.Free d) ∧ v.view w' = A → E e w') :
    Ends (do
      let d ← v.fs.allocCluster v.disk
      v.fs.setFatEntry v.disk c d
      v.fs.markEoc v.disk d
      f d) w Q E := by
  refine Ends.bind (Ends.fails (allocCluster_ends hw) hE) ?_
  intro d w₁ hd
  obtain ⟨hd2,hdt,hfree,hw₁⟩ := hd
  refine Ends.bind (Ends.fails (setFatEntry_ends hw₁ hc d) fun e w' h => hE e w' (.inl h)) ?_
  intro _ w₂ hw₂
  rw [member_small hdt] at hw₂
  refine Ends.bind (Ends.fails (setFatEntry_ends hw₂ hdt eoc) fun e w' h => hE e w' (.inl h)) ?_
  intro _ w₃ hw₃
  exact hf d w₃ ⟨hd2,hdt⟩ hfree hw₃

/-! ## Walks -/

variable (v) in
/-- Clusters as next_cluster leads from one to the next; what it takes for the end of the chain
follows the last one. -/
structure Walk (A : View) (l : List ℕ) : Prop where
  chain : Chain (fun c d => linked (A.fat c) = d) (fun c => linked (A.fat c) = 0) l
  inside : ∀ c ∈ l, 2 ≤ c ∧ c < v.total
  distinct : l.Nodup

theorem linked_member (hc : c < v.total) : linked c = c := by
  have hsmall := v.total_small
  rw [linked, if_neg (by omega), member_small hc]

theorem Seen.walk (h : v.Seen A l) : v.Walk A l where
  chain := h.chain.mono (fun _ _ d hd hlink => by rw [hlink, linked_member (h.inside d hd).2])
    fun _ _ hstop => if_pos hstop
  inside := h.inside
  distinct := h.distinct

theorem Walk.tail (h : v.Walk A (c::d::R)) : v.Walk A (d::R) where
  chain := h.chain.tail
  inside := (forall_mem_cons.mp h.inside).2
  distinct := (nodup_cons.mp h.distinct).2

theorem Walk.link (h : v.Walk A (c::d::R)) : linked (A.fat c) = d := h.chain.head

theorem Walk.stop (h : v.Walk A [c]) : linked (A.fat c) = 0 := h.chain.stops

theorem Walk.length_le (h : v.Walk A l) : l.length ≤ v.total := length_le_total h.inside h.distinct

theorem Walk.good (h : v.Walk A (c::R)) : A.fat c ≠ 0x0FFFFFF7 := by
  intro hbad
  have hlinked : linked (A.fat c) = 0x0FFFFFF7 := by
    rw [hbad]
    rfl
  cases R with
  | nil =>
    rw [h.stop] at hlinked
    exact absurd hlinked (by decide)
  | cons d R =>
    have hd := (h.inside d (mem_cons_of_mem c mem_cons_self)).2
    have hsmall := v.total_small
    rw [h.link] at hlinked
    omega

end FatVolume

end Zohara.Fat32
