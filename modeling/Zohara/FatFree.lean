import Zohara.FatChains

/-!
# Allocated and freed clusters of a FAT32 volume

free_cluster_chain reads the link of a cluster, sets the entry to zero in each copy of the FAT and
goes on with the link. It keeps no set of visited clusters: on a cycle it comes back to an entry
that it has set to zero. Zero ends up in the entries of the clusters that the old links lead to,
and in no others. A start or a link that is not below total_clusters is not followed, and
alloc_cluster returns no such number either; total_clusters is the count of the data clusters,
which are numbered from 2 on. The statements are about drives without failing transfers.
-/
namespace Zohara.Fat32
open ByteMemory FallibleState IdeDisk Function

/-- The entries of the clusters of a list set to zero. -/
def View.freed (A : View) (l : List ℕ) : View := {A with fat := fun x => if x ∈ l then 0 else A.fat x}

namespace FatVolume
variable {v : FatVolume} {w : Drives} {A B : View} {c d n : ℕ} {l R : List ℕ}

theorem freed_nil (A : View) : A.freed [] = A := by
  unfold View.freed
  simp only [List.not_mem_nil, if_false]

theorem freed_cons (A : View) (c : ℕ) (l : List ℕ) : (A.setFat c 0).freed l = A.freed (c::l) := by
  unfold View.freed View.setFat
  congr 1
  funext x
  dsimp only
  by_cases hx : x = c
  · subst hx
    rw [if_pos List.mem_cons_self, update_self, ite_self]
  · rw [update_of_ne hx]
    simp only [List.mem_cons, hx, false_or]

theorem Seen.setFat (h : v.Seen A l) (hc : c ∉ l) (value : ℕ) : v.Seen (A.setFat c value) l :=
  Linked.congr h fun _ hx => update_of_ne (ne_of_mem_of_not_mem hx hc) _ _

/-- Clusters with an entry that is not zero. -/
def takenClusters (v : FatVolume) (A : View) : Finset ℕ := {c ∈ Finset.range v.total | A.fat c ≠ 0}

theorem takenClusters_setFat (hc : c < v.total) (hne : A.fat c ≠ 0) :
    (v.takenClusters (A.setFat c 0)).card < (v.takenClusters A).card := by
  have herase : v.takenClusters (A.setFat c 0) = (v.takenClusters A).erase c := by
    ext y
    unfold takenClusters
    rw [Finset.mem_erase, Finset.mem_filter, Finset.mem_filter]
    change y ∈ Finset.range v.total ∧ Function.update A.fat c 0 y ≠ 0 ↔ _
    by_cases hyc : y = c
    · rw [hyc, update_self]
      exact iff_of_false (fun h => h.2 rfl) fun h => h.1 rfl
    · rw [update_of_ne hyc]
      exact (and_iff_right hyc).symm
  rw [herase]
  exact Finset.card_erase_lt_of_mem (Finset.mem_filter.mpr ⟨Finset.mem_range.mpr hc,hne⟩)

/-- Following the links from a cluster, and setting each entry to zero, meets no bad cluster. -/
inductive Frees (v : FatVolume) : View → ℕ → Prop
  | outside {A : View} {c : ℕ} : ¬(2 ≤ c ∧ c < v.total) → Frees v A c
  | step {A : View} {c : ℕ} : 2 ≤ c ∧ c < v.total → A.fat c ≠ 0x0FFFFFF7 →
      Frees v (A.setFat c 0) (linked (A.fat c)) → Frees v A c

/-- What is left when each entry on the way is set to zero. -/
inductive FreedBy (v : FatVolume) : View → ℕ → View → Prop
  | outside {A : View} {c : ℕ} : ¬(2 ≤ c ∧ c < v.total) → FreedBy v A c A
  | step {A B : View} {c : ℕ} : 2 ≤ c ∧ c < v.total → A.fat c ≠ 0x0FFFFFF7 →
      FreedBy v (A.setFat c 0) (linked (A.fat c)) B → FreedBy v A c B

theorem FreedBy.frees (h : v.FreedBy A c B) : v.Frees A c := by
  induction h with
  | outside hout => exact .outside hout
  | step hc hgood _ ih => exact .step hc hgood ih

theorem FreedBy.unique {B' : View} (h : v.FreedBy A c B) (h' : v.FreedBy A c B') : B = B' := by
  induction h with
  | outside hout =>
    cases h' with
    | outside _ => rfl
    | step hc _ _ => exact absurd hc hout
  | step hc _ _ ih =>
    cases h' with
    | outside hout => exact absurd hc hout
    | step _ _ hrest => exact ih hrest

theorem freedBy_none : v.FreedBy A 0 A := .outside fun h => absurd h.1 (by decide)

theorem freedBy_zero (h : A.fat c = 0) : v.FreedBy A c A := by
  by_cases hc : 2 ≤ c ∧ c < v.total
  · have hsame : A.setFat c 0 = A := by
      unfold View.setFat
      rw [← h, update_eq_self]
    refine .step hc (by omega) ?_
    rw [hsame, h]
    exact freedBy_none
  · exact .outside hc

theorem Seen.freedBy (h : v.Seen A (c::R)) : v.FreedBy A c (A.freed (c::R)) := by
  have hsmall := v.total_small
  induction R generalizing A c with
  | nil =>
    have hstop : eoc ≤ A.fat c := h.chain.stops
    refine .step (h.inside c List.mem_cons_self) (by unfold eoc at hstop; omega) ?_
    rw [← freed_cons, freed_nil, linked, if_pos (show 0x0FFFFFF8 ≤ A.fat c from hstop)]
    exact freedBy_none
  | cons d R ih =>
    have hd := h.inside d (List.mem_cons_of_mem c List.mem_cons_self)
    have hlink : A.fat c = d := h.chain.head
    refine .step (h.inside c List.mem_cons_self) (by omega) ?_
    rw [← freed_cons, hlink, linked_member hd.2]
    exact ih (Seen.setFat h.tail (List.nodup_cons.mp h.distinct).1 0)

/-- Some entries are set to zero. -/
structure Zeroed (A B : View) : Prop where
  data : B.data = A.data
  fails : B.fails = A.fails
  fat : ∀ x, B.fat x = A.fat x ∨ B.fat x = 0

theorem Zeroed.refl (A : View) : Zeroed A A := ⟨rfl,rfl,fun _ => .inl rfl⟩

theorem Zeroed.setFat (h : Zeroed (A.setFat c 0) B) : Zeroed A B where
  data := h.data
  fails := h.fails
  fat := by
    intro x
    have hx : B.fat x = Function.update A.fat c 0 x ∨ B.fat x = 0 := h.fat x
    by_cases hxc : x = c
    · rw [hxc, update_self, or_self] at hx
      exact .inr (hxc ▸ hx)
    · rwa [update_of_ne hxc] at hx

theorem Zeroed.start (h : Zeroed (A.setFat c 0) B) : B.fat c = 0 := by
  have hstart := h.fat c
  rwa [A.setFat_self, or_self] at hstart

theorem FreedBy.zeroed (h : v.FreedBy A c B) : Zeroed A B := by
  induction h with
  | outside _ => exact .refl _
  | step _ _ _ ih => exact ih.setFat

theorem FreedBy.start (h : v.FreedBy A c B) (hc : 2 ≤ c ∧ c < v.total) : B.fat c = 0 := by
  cases h with
  | outside hout => exact absurd hc hout
  | step _ _ hrest => exact hrest.zeroed.start

/-! ## The clusters on the way -/

/-- The clusters that the links lead to from a start. -/
inductive Visits (v : FatVolume) (A : View) (c : ℕ) : ℕ → Prop
  | start : 2 ≤ c ∧ c < v.total → Visits v A c c
  | next {x : ℕ} : Visits v A c x → 2 ≤ linked (A.fat x) ∧ linked (A.fat x) < v.total →
      Visits v A c (linked (A.fat x))

theorem Visits.inside {x : ℕ} (h : v.Visits A c x) : 2 ≤ x ∧ x < v.total := by
  cases h with
  | start hc => exact hc
  | next _ hx => exact hx

theorem Visits.start_inside {x : ℕ} (h : v.Visits A c x) : 2 ≤ c ∧ c < v.total := by
  induction h with
  | start hc => exact hc
  | next _ _ ih => exact ih

/-- With the entry of the start at zero, the way from its link comes to the same clusters. -/
theorem visits_step {x : ℕ} (hc : 2 ≤ c ∧ c < v.total) :
    v.Visits A c x ↔ x = c ∨ v.Visits (A.setFat c 0) (linked (A.fat c)) x := by
  constructor
  · intro h
    induction h with
    | start _ => exact .inl rfl
    | @next y _ hin ih =>
      by_cases hyc : y = c
      · rw [hyc] at hin ⊢
        exact .inr (.start hin)
      · rw [← A.setFat_of_ne hyc 0] at hin ⊢
        exact .inr (.next (ih.resolve_left hyc) hin)
  · rintro (rfl | h)
    · exact .start hc
    · induction h with
      | start hin => exact .next (.start hc) hin
      | @next y _ hin ih =>
        by_cases hyc : y = c
        · rw [hyc, A.setFat_self] at hin
          exact absurd hin.1 (by decide)
        · rw [A.setFat_of_ne hyc] at hin ⊢
          exact .next ih hin

theorem Frees.good {x : ℕ} (h : v.Frees A c) (hx : v.Visits A c x) : A.fat x ≠ 0x0FFFFFF7 := by
  induction h with
  | outside hout => exact absurd hx.start_inside hout
  | @step A c hc hgood _ ih =>
    by_cases hxc : x = c
    · rwa [hxc]
    · have hrest := ih (((visits_step hc).mp hx).resolve_left hxc)
      rwa [View.setFat_of_ne _ hxc] at hrest

/-- An entry is zero in each copy of the FAT. -/
def Cleared (v : FatVolume) (w : Drives) (x : ℕ) : Prop := ∀ f < v.fs.numFats, v.copyAt w f x = 0

/-- The drive after the walk. -/
structure Walked (v : FatVolume) (w : Drives) (c : ℕ) (w' : Drives) : Prop where
  freed : v.FreedBy (v.view w) c (v.view w')
  kept : ∀ x < v.fs.fatSize*128, ¬v.Visits (v.view w) c x → v.copyAt w' 0 x = v.copyAt w 0 x
  cleared : ∀ x < v.fs.fatSize*128, v.Cleared w x ∨ v.Visits (v.view w) c x → v.Cleared w' x

theorem walked_outside (hc : ¬(2 ≤ c ∧ c < v.total)) : v.Walked w c w where
  freed := .outside hc
  kept := fun _ _ _ => rfl
  cleared := fun _ _ h => h.elim id fun h => absurd h.start_inside hc

theorem Walked.step {w₁ w' : Drives} (hc : 2 ≤ c ∧ c < v.total)
    (hgood : (v.view w).fat c ≠ 0x0FFFFFF7) (hw₁ : v.view w₁ = (v.view w).setFat c 0)
    (hcopies : ∀ x < v.fs.fatSize*128, (x ≠ c → v.copyAt w₁ 0 x = v.copyAt w 0 x) ∧
      ∀ g < v.fs.numFats, x ≠ c ∧ v.copyAt w₁ g x = v.copyAt w g x ∨
        v.copyAt w₁ g x = v.copyAt w₁ 0 x)
    (h : v.Walked w₁ (linked ((v.view w).fat c)) w') : v.Walked w c w' where
  freed := .step hc hgood (hw₁ ▸ h.freed)
  kept := by
    intro x hx hnot
    rw [visits_step hc, not_or, ← hw₁] at hnot
    rw [h.kept x hx hnot.2, (hcopies x hx).1 hnot.1]
  cleared := by
    intro x hx hzero
    rw [visits_step hc, ← hw₁] at hzero
    apply h.cleared x hx
    by_cases hxc : x = c
    · left
      intro f hf
      have hfirst : v.copyAt w₁ 0 x = 0 := by
        rw [hxc, copyAt_zero hc.2, hw₁, View.setFat_self]
      exact (((hcopies x hx).2 f hf).resolve_left fun h => h.1 hxc).trans hfirst
    · refine hzero.imp (fun hcleared f hf => ?_) fun h => h.resolve_left hxc
      obtain ⟨_,hsame⟩ | hfirst := (hcopies x hx).2 f hf
      · exact hsame.trans (hcleared f hf)
      · rw [hfirst, (hcopies x hx).1 hxc]
        exact hcleared 0 v.copies

/-- The turns that free_cluster_chain is given suffice on every FAT, with cycles or without: each
turn but the last one sets an entry to zero. -/
theorem freeFrom_walked (hn : (v.takenClusters (v.view w)).card < n) :
    Ends (v.fs.freeFrom v.disk n c) w (fun _ w' => v.Walked w c w')
      fun e w' => ¬(v.view w).Sound ∨
        (∃ x, v.Visits (v.view w) c x ∧ (v.view w).fat x = 0x0FFFFFF7) ∧ e = .err "bad cluster" ∧
        Zeroed (v.view w) (v.view w') ∧
        ((v.view w).fat c = 0x0FFFFFF7 ∨ (v.view w').fat c = 0) := by
  induction n generalizing w c with
  | zero => cases hn
  | succ n ih =>
    by_cases hc : 2 ≤ c ∧ c < v.total
    · have hct := hc.2
      unfold total at hct
      rw [Fat32Fs.freeFrom, if_neg (by omega)]
      refine Ends.bind (Ends.fails (nextCluster_spec rfl hc.2) ?_) ?_
      · intro e w' he
        refine he.imp_right fun hbad => ⟨⟨c,.start hc,hbad.1⟩,hbad.2.1,?_,.inl hbad.1⟩
        rw [hbad.2.2]
        exact .refl _
      rintro x w₁ ⟨hgood,hnext,hw₁,hmemory⟩
      refine Ends.bind (Ends.fails (setFatEntry_spec hw₁ hc.2 0) fun _ _ hns => .inl hns) ?_
      rintro _ w₂ ⟨hw₂,hcopies⟩
      unfold copyAt at hcopies
      rw [hmemory] at hcopies
      have hsmall : x < 0x0FFFFFF8 := by
        rw [hnext, linked]
        split
        · decide
        · omega
      split_ifs with hlast
      · have hzero : linked ((v.view w).fat c) = 0 := by omega
        refine ends_pure (.step hc hgood hw₂ hcopies ?_)
        rw [hzero]
        exact walked_outside fun h => absurd h.1 (by decide)
      · rw [hnext]
        have hne : (v.view w).fat c ≠ 0 := by
          intro hzero
          rw [hzero] at hnext
          exact hlast (.inl hnext)
        have hcard := takenClusters_setFat hc.2 hne
        rw [← Nat.zero_mod (2^28), ← hw₂] at hcard
        refine Ends.mono (ih (hcard.trans_le (Nat.le_of_lt_succ hn))) ?_ ?_
        · exact fun _ w' h => .step hc hgood hw₂ hcopies h
        · rw [hw₂]
          refine fun e w' he => he.imp_right fun h =>
            ⟨?_,h.2.1,h.2.2.1.setFat,.inr h.2.2.1.start⟩
          obtain ⟨y,hy,hbad⟩ := h.1
          have hyc : y ≠ c := by
            rintro rfl
            rw [View.setFat_self] at hbad
            exact absurd hbad (by decide)
          refine ⟨y,(visits_step hc).mpr (.inr hy),?_⟩
          rwa [View.setFat_of_ne _ hyc] at hbad
    · have hout : c < 2 ∨ v.fs.totalClusters ≤ c := by
        unfold total at hc
        omega
      rw [Fat32Fs.freeFrom, if_pos hout]
      exact ends_pure (walked_outside hc)

theorem freeClusterChain_walked :
    Ends (v.fs.freeClusterChain v.disk c) w (fun _ w' => v.Walked w c w')
      fun e w' => ¬(v.view w).Sound ∨
        (∃ x, v.Visits (v.view w) c x ∧ (v.view w).fat x = 0x0FFFFFF7) ∧ e = .err "bad cluster" ∧
        Zeroed (v.view w) (v.view w') ∧
        ((v.view w).fat c = 0x0FFFFFF7 ∨ (v.view w').fat c = 0) := by
  refine freeFrom_walked (Nat.lt_succ_of_le ?_)
  have hle := Finset.card_filter_le (Finset.range v.total) fun c => (v.view w).fat c ≠ 0
  rwa [Finset.card_range] at hle

theorem freeClusterChain_freed (hw : v.view w = A) :
    Ends (v.fs.freeClusterChain v.disk c) w (fun _ w' => v.FreedBy A c (v.view w'))
      fun e w' => ¬A.Sound ∨ ¬v.Frees A c ∧ e = .err "bad cluster" ∧ Zeroed A (v.view w') := by
  subst hw
  refine Ends.mono freeClusterChain_walked (fun _ _ h => h.freed) fun e w' he => ?_
  refine he.imp_right fun h => ⟨fun hfrees => ?_,h.2.1,h.2.2.1⟩
  obtain ⟨x,hx,hbad⟩ := h.1
  exact hfrees.good hx hbad

/-- Without a bad cluster on the way the entries of the clusters on the way become zero in each copy
of the FAT, and every other entry of the first copy stays, those of the numbers from
total_clusters on included. -/
theorem freeClusterChain_clears (hs : (v.view w).Sound)
    (hgood : ∀ x, v.Visits (v.view w) c x → (v.view w).fat x ≠ 0x0FFFFFF7) :
    ∃ w', v.fs.freeClusterChain v.disk c w = .ok () w' ∧
      ∀ x < v.fs.fatSize*128, (v.Visits (v.view w) c x → ∀ f < v.fs.numFats, v.copyAt w' f x = 0) ∧
        (¬v.Visits (v.view w) c x → v.copyAt w' 0 x = v.copyAt w 0 x) := by
  have hreturns : Returns (v.fs.freeClusterChain v.disk c) w fun _ w' => v.Walked w c w' := by
    refine freeClusterChain_walked.returns ?_
    rintro e w' (hns | ⟨⟨x,hx,hbad⟩,_⟩)
    · exact hns hs
    · exact hgood x hx hbad
  obtain ⟨_,w',hrun,hwalked⟩ := hreturns.exists
  exact ⟨w',hrun,fun x hx => ⟨fun h => hwalked.cleared x hx (.inr h),hwalked.kept x hx⟩⟩

/-- Two clusters that link to each other. -/
def ring : Drives := image [(520,toLe 4 3++toLe 4 2)]

theorem freeClusterChain_clears_ring :
    (∀ x, small.Visits (small.view ring) 2 x → (small.view ring).fat x ≠ 0x0FFFFFF7) ∧
    small.Visits (small.view ring) 2 3 ∧ ∃ w', small.fs.freeClusterChain small.disk 2 ring = .ok () w' ∧
      small.copyAt w' 0 3 = 0 := by
  have heval : (∀ x < 300, (small.view ring).fat x ≠ 0x0FFFFFF7) ∧
      linked ((small.view ring).fat 2) = 3 := by decide +kernel
  have hgood : ∀ x, small.Visits (small.view ring) 2 x → (small.view ring).fat x ≠ 0x0FFFFFF7 :=
    fun x hx => heval.1 x hx.inside.2
  have hthree : small.Visits (small.view ring) 2 3 := by
    rw [← heval.2]
    refine .next (.start (by decide)) ?_
    rw [heval.2]
    decide
  obtain ⟨w',hrun,hclears⟩ := freeClusterChain_clears (fun _ => rfl) hgood
  exact ⟨hgood,hthree,w',hrun,(hclears 3 (by decide)).1 hthree 0 (by decide)⟩

/-! ## The last two clusters -/

/-- The data clusters are numbered from 2 on, and total_clusters is their count. -/
def DataCluster (v : FatVolume) (c : ℕ) : Prop := 2 ≤ c ∧ c < v.total+2

/-- The cluster is in a chain: its entry is the number of a data cluster, or an end marker. -/
def Chained (v : FatVolume) (w : Drives) (c : ℕ) : Prop :=
  v.DataCluster (v.copyAt w 0 c%2^28) ∨ 0x0FFFFFF8 ≤ v.copyAt w 0 c%2^28

instance (c : ℕ) : Decidable (v.DataCluster c) := inferInstanceAs (Decidable (_ ∧ _))

instance (c : ℕ) : Decidable (v.Chained w c) := inferInstanceAs (Decidable (_ ∨ _))

/-- Each data cluster can be allocated and released. -/
structure Manages (v : FatVolume) (w : Drives) : Prop where
  alloc : (∃ d, answer (v.fs.allocCluster v.disk) w = .ok d) ↔
    ∃ c, v.DataCluster c ∧ v.copyAt w 0 c%2^28 = 0
  returned : ∀ d, answer (v.fs.allocCluster v.disk) w = .ok d →
    v.DataCluster d ∧ v.copyAt w 0 d%2^28 = 0
  release : ∀ c, v.DataCluster c → v.Chained w c →
    v.copyAt (after (v.fs.freeClusterChain v.disk c) w) 0 c%2^28 = 0

theorem allocCluster_some (hs : (v.view w).Sound) (h2 : 2 ≤ c) (hc : c < v.total)
    (hfree : (v.view w).Free c) : ∃ d, answer (v.fs.allocCluster v.disk) w = .ok d := by
  have hreturns : Returns (v.fs.allocCluster v.disk) w fun _ _ => True := by
    refine Ends.returns (Ends.imp (allocCluster_ends rfl) fun _ _ _ => trivial) ?_
    rintro _ w' (hns | hnone)
    · exact hns hs
    · exact hnone.1 c h2 hc hfree
  obtain ⟨d,w',hrun,_⟩ := hreturns.exists
  exact ⟨d,answer_ok hrun⟩

theorem allocCluster_free {d : ℕ} (h : answer (v.fs.allocCluster v.disk) w = .ok d) :
    2 ≤ d ∧ d < v.total ∧ v.copyAt w 0 d%2^28 = 0 := by
  obtain ⟨h2,hd,hfree,_⟩ := (allocCluster_ends rfl).ok (ok_of_answer h)
  refine ⟨h2,hd,?_⟩
  rw [copyAt_zero hd]
  exact hfree

theorem Chained.released (hs : (v.view w).Sound) (h2 : 2 ≤ c) (hc : c < v.total)
    (h : v.Chained w c) : v.copyAt (after (v.fs.freeClusterChain v.disk c) w) 0 c%2^28 = 0 := by
  have hsmall := v.total_small
  have hgood : (v.view w).fat c ≠ 0x0FFFFFF7 := by
    intro hbad
    unfold Chained DataCluster at h
    rw [copyAt_zero hc, hbad] at h
    omega
  have hzero : (v.view (after (v.fs.freeClusterChain v.disk c) w)).fat c = 0 := by
    refine Ends.after (P := fun w' => (v.view w').fat c = 0) (Ends.mono freeClusterChain_walked ?_ ?_)
    · exact fun _ w' h => h.freed.start ⟨h2,hc⟩
    · exact fun e w' he => (he.resolve_left (not_not_intro hs)).2.2.2.resolve_left hgood
  rw [copyAt_zero hc, hzero, Nat.zero_mod]

theorem freeClusterChain_beyond (hc : v.total ≤ c) :
    after (v.fs.freeClusterChain v.disk c) w = w := by
  unfold Fat32Fs.freeClusterChain
  rw [Fat32Fs.freeFrom, if_pos (.inr hc)]
  rfl

/-- The numbers are compared with the count, so the last two data clusters are not seen. The
calls do what they should if and only if neither is in a chain, and neither is the only kind of
free cluster. -/
theorem manages_iff (hs : (v.view w).Sound) : v.Manages w ↔
    ∀ c, v.DataCluster c → v.total ≤ c → ¬v.Chained w c ∧
      (v.copyAt w 0 c%2^28 = 0 → ∃ d, 2 ≤ d ∧ d < v.total ∧ v.copyAt w 0 d%2^28 = 0) := by
  constructor
  · intro h c hc hbeyond
    refine ⟨fun hchained => ?_,fun hfree => ?_⟩
    · have hzero := h.release c hc hchained
      rw [freeClusterChain_beyond hbeyond] at hzero
      unfold Chained DataCluster at hchained
      omega
    · obtain ⟨d,hd⟩ := h.alloc.mpr ⟨c,hc,hfree⟩
      exact ⟨d,allocCluster_free hd⟩
  · intro h
    have hreturned : ∀ d, answer (v.fs.allocCluster v.disk) w = .ok d →
        v.DataCluster d ∧ v.copyAt w 0 d%2^28 = 0 := by
      intro d hd
      obtain ⟨h2,hlt,hfree⟩ := allocCluster_free hd
      exact ⟨⟨h2,by omega⟩,hfree⟩
    refine ⟨⟨fun ⟨d,hd⟩ => ⟨d,hreturned d hd⟩,?_⟩,hreturned,?_⟩
    · rintro ⟨c,hc,hfree⟩
      obtain ⟨d,h2,hd,hzero⟩ : ∃ d, 2 ≤ d ∧ d < v.total ∧ v.copyAt w 0 d%2^28 = 0 := by
        by_cases hbeyond : v.total ≤ c
        · exact (h c hc hbeyond).2 hfree
        · exact ⟨c,hc.1,not_le.mp hbeyond,hfree⟩
      rw [copyAt_zero hd] at hzero
      exact allocCluster_some hs h2 hd hzero
    · intro c hc hchained
      by_cases hbeyond : v.total ≤ c
      · exact absurd hchained (h c hc hbeyond).1
      · exact hchained.released hs hc.1 (not_le.mp hbeyond)

theorem manages_empty : small.Manages (image []) := by
  refine (manages_iff fun _ => rfl).mpr fun c hc hbeyond => ?_
  have heval : (∀ c < 302, 300 ≤ c → ¬small.Chained (image []) c) ∧
      small.copyAt (image []) 0 2%2^28 = 0 := by decide +kernel
  exact ⟨heval.1 c hc.2 hbeyond,fun _ => ⟨2,le_rfl,by decide,heval.2⟩⟩

/-- The last but one data cluster is in a chain. Or it is free, and all below are in use. -/
theorem last_clusters_unmanaged :
    (small.DataCluster 300 ∧ small.Chained (image [(1712,toLe 4 0x0FFFFFF8)]) 300 ∧
      small.copyAt (after (small.fs.freeClusterChain small.disk 300)
        (image [(1712,toLe 4 0x0FFFFFF8)])) 0 300 = 0x0FFFFFF8) ∧
    small.copyAt (image [(520,List.replicate 1192 1)]) 0 300 = 0 ∧
      answer (small.fs.allocCluster small.disk) (image [(520,List.replicate 1192 1)]) =
        .error (.err "no free clusters") := by
  refine ⟨by decide +kernel,?_⟩
  rw [← List.nil_append [(520,List.replicate 1192 1)], image_replicate]
  decide +kernel

end FatVolume

end Zohara.Fat32
