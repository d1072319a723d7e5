import Zohara.FatChains

/-!
# Writing a file of a FAT32 volume

write_file_data walks along the chain that it sees, copies the data over the clusters and hangs
free clusters behind the last one. What it does to the view is one relation, `Extended`, kept by
each turn of the loop: the new clusters were free, the FAT is relinked behind the old chain and
nowhere else, and the bytes of the extended chain are the old ones with the data copied over.

A link with a reserved bit set ends the chain for the code. A file is written and read back as it
should be exactly when no such link is met, neither by the write nor by a read, whose size is a
32-bit number.
-/
namespace Zohara.Fat32
open ByteMemory FallibleState IdeDisk LinkedChain List Function Nat

instance View.decidableFree (A : View) (c : ℕ) : Decidable (A.Free c) :=
  inferInstanceAs (Decidable (A.fat c%2^28 = 0))

namespace FatVolume
variable (v : FatVolume)

def freeClusters (A : View) : Finset ℕ := {c ∈ Finset.range v.total | 2 ≤ c ∧ A.Free c}

/-- The chain `l` is extended by `N`, and `bs` copied over its bytes at `off`. -/
structure Extended (A B : View) (l N : List ℕ) (off : ℕ) (bs : List UInt8) : Prop where
  fresh : ∀ x ∈ N, (2 ≤ x ∧ x < v.total) ∧ A.Free x
  distinct : (l++N).Nodup
  fat : ∃ l₁ c, l = l₁++[c] ∧ B.fat = relink eoc A.fat c N
  other : ∀ x ∉ l++N, B.data x = A.data x
  contents : B.contents (l++N) = patch (A.contents (l++N)) off bs
  fails : B.fails = A.fails
  reach : off+bs.length ≤ (l.length+N.length)*v.size
  grows : N ≠ [] → l.length*v.size < off+bs.length

variable {v : FatVolume} {w : Drives} {A B : View} {c d pos : ℕ} {l R N : List ℕ}
  {bs chunk rest : List UInt8}

theorem mem_freeClusters : c ∈ v.freeClusters A ↔ (2 ≤ c ∧ c < v.total) ∧ A.Free c := by
  unfold freeClusters
  rw [Finset.mem_filter, Finset.mem_range]
  tauto

/-! ## One turn of the loop -/

theorem contents_setData (hc : c ∉ l) (bs : List UInt8) :
    (A.setData c bs).contents l = A.contents l :=
  View.contents_congr fun x hx => update_of_ne (ne_of_mem_of_not_mem hx hc) _ _

theorem Extended.nothing (h : l ≠ []) (hd : l.Nodup) (hpos : pos ≤ l.length*v.size) :
    v.Extended A A l [] pos [] where
  fresh := fun x hx => absurd hx not_mem_nil
  distinct := by rwa [append_nil]
  fat := by
    obtain ⟨l₁,c,hl⟩ := (eq_nil_or_concat' l).resolve_left h
    exact ⟨l₁,c,hl,rfl⟩
  other := fun x _ => rfl
  contents := (patch_nil _ _).symm
  fails := rfl
  reach := hpos
  grows := fun h => absurd rfl h

theorem Extended.done (hw : v.view w = A) (h : v.Seen A (c::R))
    (hroom : pos+bs.length ≤ v.size) :
    v.Extended A (A.setData c (patch (A.data c) pos bs)) (c::R) [] pos bs where
  fresh := fun x hx => absurd hx not_mem_nil
  distinct := by
    rw [append_nil]
    exact h.distinct
  fat := by
    obtain ⟨l₁,a,hl⟩ := (eq_nil_or_concat' (c::R)).resolve_left (cons_ne_nil c R)
    exact ⟨l₁,a,hl,rfl⟩
  other := by
    intro x hx
    rw [append_nil] at hx
    exact update_of_ne (ne_of_not_mem_cons hx) _ _
  contents := by
    have hc := h.inside c mem_cons_self
    rw [append_nil, View.contents_cons, View.contents_cons,
      contents_setData (nodup_cons.mp h.distinct).1, patch_append
        (by rwa [length_data hw hc.1 hc.2])]
    exact congrArg (·++A.contents R) (update_self _ _ _)
  fails := rfl
  reach := by
    rw [length_cons, length_nil, add_zero, succ_mul]
    omega
  grows := fun h => absurd rfl h

theorem contents_turn (hfull : pos+chunk.length = (A.data c).length)
    (hc : B.data c = patch (A.data c) pos chunk)
    (hl : B.contents l = patch (A.contents l) 0 rest) :
    B.contents (c::l) = patch (A.contents (c::l)) pos (chunk++rest) := by
  rw [View.contents_cons, View.contents_cons, hc, hl, patch_append_split hfull]

section

variable (hfull : pos+chunk.length = v.size) (hsize : (A.data c).length = v.size)
  (hused : ¬A.Free c)
include hfull hsize hused

theorem Extended.link (hc : c ∉ l)
    (h : v.Extended (A.setData c (patch (A.data c) pos chunk)) B l N 0 rest) :
    v.Extended A B (c::l) N pos (chunk++rest) := by
  have hcN : c ∉ l++N := by
    rw [mem_append]
    exact fun hmem => hmem.elim hc fun hN => hused (h.fresh c hN).2
  have hother : ∀ x ∉ l++N, x ≠ c → B.data x = A.data x := fun x hx hxc =>
    (h.other x hx).trans (update_of_ne hxc _ _)
  have hlen : pos+(chunk++rest).length = v.size+rest.length := by
    rw [length_append]
    omega
  refine ⟨h.fresh,nodup_cons.mpr ⟨hcN,h.distinct⟩,?_,?_,?_,h.fails,?_,?_⟩
  · obtain ⟨l₁,a,hl,hfat⟩ := h.fat
    exact ⟨c::l₁,a,by rw [hl, cons_append],hfat⟩
  · intro x hx
    exact hother x (not_mem_of_not_mem_cons hx) (ne_of_not_mem_cons hx)
  · rw [cons_append]
    apply contents_turn (hfull.trans hsize.symm)
    · exact (h.other c hcN).trans (update_self _ _ _)
    · rw [← contents_setData (A := A) hcN (patch (A.data c) pos chunk)]
      exact h.contents
  · have hreach := h.reach
    rw [length_cons, add_right_comm, succ_mul]
    omega
  · intro hN
    have hgrows := h.grows hN
    rw [length_cons, succ_mul]
    omega

theorem Extended.grow (hd : 2 ≤ d ∧ d < v.total) (hfree : A.Free d) (hrest : 0 < rest.length)
    (h : v.Extended (((A.setData c (patch (A.data c) pos chunk)).setFat c d).setFat d eoc) B [d] N 0
      rest) :
    v.Extended A B [c] (d::N) pos (chunk++rest) := by
  have hcd : c ≠ d := fun h => hused (h ▸ hfree)
  have hdN : d ∉ N := (nodup_cons.mp h.distinct).1
  have hfat : ∀ x, x ≠ c → x ≠ d →
      (((A.setData c (patch (A.data c) pos chunk)).setFat c d).setFat d eoc).fat x = A.fat x :=
    fun x hxc hxd => (update_of_ne hxd _ _).trans (update_of_ne hxc _ _)
  -- the entry of `c` is the number of `d`, so `c` is not among the clusters that come later
  have hcN : c ∉ N := by
    intro hN
    have hzero : Function.update (Function.update A.fat c d) d eoc c%2^28 = 0 := (h.fresh c hN).2
    rw [update_of_ne hcd, update_self, member_small hd.2] at hzero
    omega
  have hcdN : c ∉ d::N := not_mem_cons_of_ne_of_not_mem hcd hcN
  have hother : ∀ x ∉ d::N, x ≠ c → B.data x = A.data x := fun x hx hxc =>
    (h.other x hx).trans (update_of_ne hxc _ _)
  have hlen : pos+(chunk++rest).length = v.size+rest.length := by
    rw [length_append]
    omega
  refine ⟨?_,nodup_cons.mpr ⟨hcdN,h.distinct⟩,?_,?_,?_,h.fails,?_,?_⟩
  · intro x hx
    cases hx with
    | head => exact ⟨hd,hfree⟩
    | tail _ hx =>
      refine ⟨(h.fresh x hx).1,?_⟩
      have hzero := (h.fresh x hx).2
      unfold View.Free at hzero ⊢
      rwa [hfat x (ne_of_mem_of_not_mem hx hcN) (ne_of_mem_of_not_mem hx hdN)] at hzero
  · obtain ⟨l₁,a,hl,hfat⟩ := h.fat
    obtain ⟨rfl,rfl⟩ : l₁ = [] ∧ d = a := by
      cases l₁ with
      | nil => exact ⟨rfl,(cons_eq_cons.mp hl).1⟩
      | cons _ l₁ => simp at hl
    exact ⟨[],c,rfl,hfat⟩
  · intro x hx
    exact hother x (not_mem_of_not_mem_cons hx) (ne_of_not_mem_cons hx)
  · change B.contents (c::d::N) = patch (A.contents (c::d::N)) pos (chunk++rest)
    apply contents_turn (hfull.trans hsize.symm)
    · exact (h.other c hcdN).trans (update_self _ _ _)
    · rw [← contents_setData (A := A) hcdN (patch (A.data c) pos chunk)]
      exact h.contents
  · have hreach := h.reach
    rw [length_singleton] at hreach ⊢
    rw [length_cons, add_comm 1, succ_mul, add_comm N.length]
    omega
  · intro _
    rw [length_singleton, one_mul]
    omega

end

theorem card_freeClusters (hused : ¬A.Free c) (hd : 2 ≤ d ∧ d < v.total) (hfree : A.Free d)
    (h : B.fat = Function.update (Function.update A.fat c d) d eoc) :
    (v.freeClusters A).card = (v.freeClusters B).card+1 := by
  have hcd : c ≠ d := fun h => hused (h ▸ hfree)
  have herase : v.freeClusters B = (v.freeClusters A).erase d := by
    ext x
    rw [Finset.mem_erase, mem_freeClusters, mem_freeClusters]
    unfold View.Free at hused ⊢
    rw [h]
    by_cases hxd : x = d
    · subst hxd
      rw [update_self]
      exact iff_of_false (fun h => absurd h.2 (by decide)) fun h => h.1 rfl
    · rw [update_of_ne hxd]
      by_cases hxc : x = c
      · subst hxc
        rw [update_self, member_small hd.2]
        exact iff_of_false (fun h => by omega) fun h => hused h.2.2
      · rw [update_of_ne hxc]
        exact (and_iff_right hxd).symm
  have hmem : d ∈ v.freeClusters A := mem_freeClusters.mpr ⟨hd,hfree⟩
  rw [herase, Finset.card_erase_of_mem hmem]
  have hpos := Finset.card_pos.mpr ⟨d,hmem⟩
  omega

/-! ## The loop -/

theorem seen_marked (A : View) (hd : 2 ≤ d ∧ d < v.total) : v.Seen (A.setFat d eoc) [d] where
  chain := .last (by
    change eoc ≤ Function.update A.fat d eoc d
    rw [update_self])
  inside := fun x hx => mem_singleton.mp hx ▸ hd
  distinct := nodup_singleton d

theorem used_marked (A : View) (d : ℕ) : ∀ x ∈ [d], ¬(A.setFat d eoc).Free x := by
  intro x hx
  rw [mem_singleton.mp hx]
  change ¬Function.update A.fat d eoc d%2^28 = 0
  rw [update_self]
  decide

theorem writeLoop_ends (hw : v.view w = A) {data : List UInt8} {written : ℕ}
    (h : v.Seen A (c::R)) (hused : ∀ x ∈ c::R, ¬A.Free x) (hpos : pos < v.size)
    (hwritten : written ≤ data.length) :
    Ends (v.fs.writeLoop v.disk data c pos written) w
      (fun n w' => n = data.length ∧
        ∃ N, v.Extended A (v.view w') (c::R) N pos (data.drop written))
      fun _ _ => ¬A.Sound ∨
        ((c::R).length+(v.freeClusters A).card)*v.size < pos+(data.length-written) := by
  induction hk : data.length-written using Nat.strong_induction_on
    generalizing w A c R pos written with
  | _ k ih =>
  have hc := h.inside c mem_cons_self
  have hsize := length_data hw hc.1 hc.2
  rw [Fat32Fs.writeLoop, v.clusterSize_eq]
  by_cases hmore : written < data.length
  · rw [dif_pos hmore]
    refine Ends.bind (Ends.fails (readCluster_ends hw hc.1 hc.2) fun _ _ h => .inl h) ?_
    intro buf w₁ hbuf
    rw [dif_neg (by omega), hbuf.1]
    dsimp only
    generalize hn : min (data.length-written) (v.size-pos) = n
    generalize hchunk : (data.drop written).take n = chunk
    have hlen : chunk.length = n := by
      rw [← hchunk, length_take, length_drop]
      omega
    have hsplit : data.drop written = chunk++data.drop (written+n) := by
      rw [← hchunk, ← drop_drop, take_append_drop]
    refine Ends.bind (Ends.fails (writeCluster_ends hbuf.2 hc.1 hc.2 ?_) fun _ _ h => .inl h) ?_
    · rw [length_patch (by omega), hsize]
    intro _ w₂ hw₂
    split_ifs with hlast
    · have hfull : pos+chunk.length = v.size := by omega
      have hrest : (data.drop (written+n)).length = data.length-(written+n) := length_drop
      cases R with
      | cons d R =>
        have hseen : v.Seen (A.setData c (patch (A.data c) pos chunk)) (c::d::R) := h
        refine Ends.bind (Ends.fails (nextCluster_link hw₂ hseen) fun _ _ h => .inl h) ?_
        intro x w₃ hx
        have hd := h.inside d (mem_cons_of_mem c mem_cons_self)
        rw [if_neg (by omega), hx.1]
        refine Ends.mono (ih _ (by omega) hx.2 hseen.tail
          ((forall_mem_cons.mp hused).2) v.size_pos hlast.le rfl) ?_ ?_
        · rintro m w' ⟨hm,N,hN⟩
          refine ⟨hm,N,?_⟩
          rw [hsplit]
          exact hN.link hfull hsize (hused c mem_cons_self) (nodup_cons.mp h.distinct).1
        · intro e w' he
          refine he.imp_right fun hlt => ?_
          change ((d::R).length+(v.freeClusters A).card)*v.size < _ at hlt
          rw [length_cons, add_right_comm, succ_mul]
          omega
      | nil =>
        have hseen : v.Seen (A.setData c (patch (A.data c) pos chunk)) [c] := h
        have hcused := hused c mem_cons_self
        refine Ends.bind (Ends.fails (nextCluster_last hw₂ hseen) fun _ _ h => .inl h) ?_
        intro x w₃ hx
        rw [if_pos hx.1]
        refine ends_hang hx.2 hc.2 ?_ ?_
        · intro d w₄ hd hfree hw₄
          have hcard := card_freeClusters hcused hd hfree
            (B := ((A.setData c (patch (A.data c) pos chunk)).setFat c d).setFat d eoc) rfl
          refine Ends.mono (ih _ (by omega) hw₄ (seen_marked _ hd) (used_marked _ d) v.size_pos
            hlast.le rfl) ?_ ?_
          · rintro m w' ⟨hm,N,hN⟩
            refine ⟨hm,d::N,?_⟩
            rw [hsplit]
            exact hN.grow hfull hsize hcused hd hfree (by omega)
          · intro e w' he
            refine he.imp_right fun hlt => ?_
            rw [length_singleton] at hlt ⊢
            rw [hcard, ← add_assoc, succ_mul]
            omega
        · intro e w' he
          refine he.imp_right fun hnone => ?_
          have hempty : v.freeClusters A = ∅ := Finset.eq_empty_of_forall_notMem fun x hx =>
            hnone.1 x (mem_freeClusters.mp hx).1.1 (mem_freeClusters.mp hx).1.2
              (mem_freeClusters.mp hx).2
          rw [hempty, length_singleton, Finset.card_empty, add_zero, one_mul]
          omega
    · have hall : data.drop written = chunk := by
        rw [hsplit, drop_of_length_le (by omega), append_nil]
      refine ends_pure ⟨by omega,[],?_⟩
      rw [hall, hw₂]
      exact .done hw h (by omega)
  · rw [dif_neg hmore]
    have hall : data.drop written = [] := drop_of_length_le (by omega)
    refine ends_pure ⟨by omega,[],?_⟩
    rw [hall, hw]
    refine .nothing (cons_ne_nil c R) h.distinct ?_
    rw [length_cons, succ_mul]
    omega

theorem Extended.before {l₁ : List ℕ} (hw : v.view w = A)
    (hl₁ : ∀ x ∈ l₁, (2 ≤ x ∧ x < v.total) ∧ ¬A.Free x) (hd : (l₁++l).Nodup)
    (h : v.Extended A B l N pos bs) : v.Extended A B (l₁++l) N (l₁.length*v.size+pos) bs := by
  have hapart : ∀ x ∈ l₁, x ∉ l++N := by
    intro x hx hmem
    cases mem_append.mp hmem with
    | inl hl => exact (nodup_append.mp hd).2.2 x hx x hl rfl
    | inr hN => exact (hl₁ x hx).2 (h.fresh x hN).2
  have hlen : (A.contents l₁).length = l₁.length*v.size :=
    length_contents hw fun x hx => (hl₁ x hx).1
  refine ⟨h.fresh,?_,?_,?_,?_,h.fails,?_,?_⟩
  · rw [append_assoc]
    refine nodup_append.mpr ⟨hd.of_append_left,h.distinct,?_⟩
    exact fun x hx y hy hxy => hapart x hx (hxy ▸ hy)
  · obtain ⟨l₂,a,hl,hfat⟩ := h.fat
    exact ⟨l₁++l₂,a,by rw [hl, append_assoc],hfat⟩
  · intro x hx
    rw [append_assoc] at hx
    exact h.other x fun hmem => hx (mem_append_right _ hmem)
  · rw [append_assoc, B.contents_append l₁, A.contents_append l₁, ← hlen, append_patch,
      h.contents, View.contents_congr fun x hx => h.other x (hapart x hx)]
  · have hreach := h.reach
    rw [length_append, add_assoc l₁.length, add_mul]
    omega
  · intro hN
    have hgrows := h.grows hN
    rw [length_append, add_mul]
    omega

theorem Extended.behind {T : List ℕ} (hw : v.view w = A) (hl : ∀ x ∈ l, 2 ≤ x ∧ x < v.total)
    (hd : (l++T).Nodup) (h : v.Extended A B l [] pos bs) : v.Extended A B (l++T) [] pos bs := by
  have hreach := h.reach
  rw [length_nil, add_zero] at hreach
  have hT : ∀ x ∈ T, x ∉ l++[] := by
    intro x hx hmem
    rw [append_nil] at hmem
    exact (nodup_append.mp hd).2.2 x hmem x hx rfl
  refine ⟨fun x hx => absurd hx not_mem_nil,?_,?_,?_,?_,h.fails,?_,fun hN => absurd rfl hN⟩
  · rwa [append_nil]
  · obtain ⟨l₁,c,hlc,hfat⟩ := h.fat
    have hne : l++T ≠ [] := by simp [hlc]
    obtain ⟨l₂,d,hlast⟩ := (eq_nil_or_concat' (l++T)).resolve_left hne
    exact ⟨l₂,d,hlast,hfat⟩
  · intro x hx
    rw [append_nil] at hx
    refine h.other x ?_
    rw [append_nil]
    exact fun hmem => hx (mem_append_left _ hmem)
  · have hcontents := h.contents
    rw [append_nil] at hcontents
    rw [append_nil, View.contents_append, View.contents_append, patch_append, hcontents,
      View.contents_congr fun x hx => h.other x (hT x hx)]
    rwa [length_contents hw hl]
  · rw [length_append, length_nil, add_zero, add_mul]
    omega

theorem writeFileData_ends (hw : v.view w = A) {offset : ℕ} {data : List UInt8}
    (h : v.Seen A (c::R)) (hused : ∀ x ∈ c::R, ¬A.Free x) :
    Ends (v.fs.writeFileData v.disk c offset data) w
      (fun n w' => n = data.length ∧ offset < (c::R).length*v.size ∧
        ∃ N, v.Extended A (v.view w') (c::R) N offset data)
      fun e _ => ¬A.Sound ∨
        (c::R).length*v.size ≤ offset ∧ e = .err "offset beyond file" ∨
        ((c::R).length+(v.freeClusters A).card)*v.size < offset+data.length := by
  unfold Fat32Fs.writeFileData
  refine Ends.bind (Ends.fails (walkTo_ends hw h) fun _ _ he => he.imp_right .inl) ?_
  rintro r w₁ ⟨hw₁,l₁,l₂,hl,hoffset,hr⟩
  rw [hl] at h hused ⊢
  have hl₁ : ∀ x ∈ l₁, (2 ≤ x ∧ x < v.total) ∧ ¬A.Free x := fun x hx =>
    ⟨h.inside x (mem_append_left _ hx),hused x (mem_append_left _ hx)⟩
  refine Ends.mono (writeLoop_ends hw₁ (h.suffix (cons_ne_nil _ _))
    ((forall_mem_append.mp hused).2) hr (zero_le _)) ?_ ?_
  · rintro n w' ⟨hn,N,hN⟩
    refine ⟨hn,?_,N,?_⟩
    · rw [length_append, length_cons, add_mul, succ_mul]
      omega
    · rw [drop_zero] at hN
      rw [hoffset]
      exact hN.before hw hl₁ h.distinct
  · intro e w' he
    refine he.imp_right fun hlt => .inr ?_
    rw [length_append, add_assoc, add_mul]
    omega

/-! ## The chains after a write -/

section

variable (h : v.Extended A B l N pos bs)
include h

theorem Extended.seen (hl : v.Seen A l) : v.Seen B (l++N) := by
  obtain ⟨l₁,c,rfl,hfat⟩ := h.fat
  have hd := h.distinct
  rw [← append_cons] at hd ⊢
  unfold Seen
  rw [hfat]
  exact Linked.relink hl hd fun x hx => (h.fresh x hx).1

theorem Extended.fileChain (hl : v.FileChain A l) : v.FileChain B (l++N) := by
  obtain ⟨l₁,c,rfl,hfat⟩ := h.fat
  have hd := h.distinct
  rw [← append_cons] at hd ⊢
  unfold FileChain
  rw [hfat, comp_relink (· % 2^28) (fun x hx => member_small (h.fresh x hx).1.2) (by decide)]
  exact Linked.relink hl hd fun x hx => (h.fresh x hx).1

theorem Extended.outside (hc : c ∉ l) (hused : ¬A.Free c) :
    c ∉ l++N ∧ B.fat c = A.fat c ∧ B.data c = A.data c := by
  have hout : c ∉ l++N := by
    intro hmem
    cases mem_append.mp hmem with
    | inl hl => exact hc hl
    | inr hN => exact hused (h.fresh c hN).2
  refine ⟨hout,?_,h.other c hout⟩
  obtain ⟨l₁,a,rfl,hfat⟩ := h.fat
  rw [← append_cons, mem_append] at hout
  rw [hfat, relink_of_not_mem fun hmem => hout (.inr hmem)]

theorem Extended.apart {F : List ℕ} (hF : v.FileChain A F) (hd : F.Disjoint l) :
    F.Disjoint (l++N) ∧ v.FileChain B F ∧ B.contents F = A.contents F := by
  have hout : ∀ x ∈ F, x ∉ l++N ∧ B.fat x = A.fat x ∧ B.data x = A.data x := fun x hx =>
    h.outside (fun hl => hd hx hl) (hF.used hx)
  refine ⟨fun x hx hmem => (hout x hx).1 hmem,?_,View.contents_congr fun x hx => (hout x hx).2.2⟩
  refine Linked.congr hF fun x hx => ?_
  rw [(hout x hx).2.1]

end

/-! ## Files -/

variable (v) in
/-- What a write of `data` at `offset` of the file `C` should leave, where `N` are new clusters. -/
structure Written (A : View) (w' : Drives) (files : List (List ℕ)) (C N : List ℕ) (offset : ℕ)
    (data : List UInt8) : Prop where
  free : ∀ x ∈ N, A.Free x
  chains : v.Files (v.view w') (files.map fun F => if F = C then C++N else F)
  holds : (((v.view w').contents (C++N)).drop offset).take data.length = data
  kept : ∀ p < C.length*v.size, p < offset ∨ offset+data.length ≤ p →
    ((v.view w').contents (C++N)).getD p 0 = (A.contents C).getD p 0
  reads : ∀ s len, s < 2^32 → s ≤ (C++N).length*v.size → s ≤ len →
    answer (v.fs.readFileData v.disk (C.headD 0) s len) w' =
      .ok (((v.view w').contents (C++N)).take s)
  others : ∀ F ∈ files, F ≠ C → (v.view w').contents F = A.contents F

variable (v) in
def WriteOk (w : Drives) (files : List (List ℕ)) (C : List ℕ) (offset : ℕ) (data : List UInt8) :
    Prop :=
  ∃ w' N, v.fs.writeFileData v.disk (C.headD 0) offset data w = .ok data.length w' ∧
    v.Written (v.view w) w' files C N offset data

variable (v) in
/-- No link of the chain has a reserved bit set where a read, the walk to the offset or the write
comes to it. -/
def Followed (A : View) (C : List ℕ) (offset len : ℕ) : Prop :=
  ∀ i, i+1 < C.length → (i+1)*v.size < 2^32 ∨ (i+1)*v.size ≤ offset ∨ (i+1)*v.size < offset+len →
    A.fat (C.getD i 0) < 2^28

theorem followed_iff {L T : List ℕ} {offset len : ℕ} (hL : v.Seen A L)
    (hT : T ≠ [] → ∃ l₁ c, L = l₁++[c] ∧ 2^28 ≤ A.fat c) :
    v.Followed A (L++T) offset len ↔
      T = [] ∨ 2^32 ≤ L.length*v.size ∧ offset < L.length*v.size ∧
        offset+len ≤ L.length*v.size := by
  constructor
  · intro h
    by_cases hnil : T = []
    · exact .inl hnil
    · right
      obtain ⟨l₁,c,rfl,hdirty⟩ := hT hnil
      have hpos := length_pos_of_ne_nil hnil
      have hi := h l₁.length (by simp; omega)
      have hget : (l₁++[c]++T).getD l₁.length 0 = c := by simp
      rw [hget] at hi
      rw [length_append, length_singleton]
      by_contra hreach
      have := hi (by omega)
      omega
  · intro h i hi hreach
    by_cases hseen : i+1 < L.length
    · rw [getD_append _ _ _ _ (by omega)]
      exact hL.clean hseen
    · cases h with
      | inl hnil =>
        rw [hnil, append_nil] at hi
        omega
      | inr hout =>
        have hle : L.length*v.size ≤ (i+1)*v.size := mul_le_mul_right _ (by omega)
        omega

/-! ## Writing and reading back -/

variable {files : List (List ℕ)} {C : List ℕ} {offset : ℕ} {data : List UInt8}

theorem Extended.keeps (h : v.Extended A B C N offset data) (hfiles : v.Files A files)
    (hC : C ∈ files) : v.Files B (files.map fun F => if F = C then C++N else F) where
  chains := by
    intro G hG
    obtain ⟨F,hF,rfl⟩ := mem_map.mp hG
    split_ifs with hFC
    · exact h.fileChain (hfiles.chains C hC)
    · exact (h.apart (hfiles.chains F hF) (hfiles.disjoint hF hC hFC)).2.1
  apart := by
    rw [pairwise_map]
    refine hfiles.apart.imp_of_mem fun {F G} hF hG hd => ?_
    have hother : ∀ F ∈ files, F ≠ C → F.Disjoint (C++N) := fun F hF hFC =>
      (h.apart (hfiles.chains F hF) (hfiles.disjoint hF hC hFC)).1
    by_cases hFC : F = C
    · by_cases hGC : G = C
      · obtain ⟨x,hx⟩ := exists_mem_of_ne_nil C (hfiles.chains C hC).chain.ne_nil
        rw [hFC, hGC] at hd
        exact (hd hx hx).elim
      · rw [if_pos hFC, if_neg hGC]
        exact (hother G hG hGC).symm
    · by_cases hGC : G = C
      · rw [if_neg hFC, if_pos hGC]
        exact hother F hF hFC
      · rwa [if_neg hFC, if_neg hGC]

theorem readFileData_answer (hs : A.Sound) (hw : v.view w = A) (h : v.Seen A l) (s len : ℕ) :
    answer (v.fs.readFileData v.disk (l.headD 0) s len) w = .ok ((A.contents l).take (min s len)) := by
  cases l with
  | nil => exact (h.chain.ne_nil rfl).elim
  | cons c R =>
    apply Returns.answer
    refine Ends.mono (readLoop_ends hw h) (fun bs w' hbs => hbs.1) fun _ _ hns => hns hs

theorem written_of_extended {w' : Drives} {L T : List ℕ} (hw : v.view w = A) (hs : A.Sound)
    (hfiles : v.Files A files) (hC : L++T ∈ files) (hL : v.Seen A L)
    (hT : T = [] ∨ 2^32 ≤ L.length*v.size ∧ N = [])
    (h : v.Extended A (v.view w') L N offset data) :
    v.Written A w' files (L++T) N offset data := by
  have hchain := hfiles.chains _ hC
  have hext : v.Extended A (v.view w') (L++T) N offset data := by
    cases hT with
    | inl hnil => rwa [hnil, append_nil]
    | inr hN =>
      rw [hN.2] at h ⊢
      exact h.behind hw hL.inside hchain.distinct
  have hreach := hext.reach
  have hlen : (A.contents (L++T++N)).length = (L++T++N).length*v.size := by
    refine length_contents hw fun x hx => ?_
    cases mem_append.mp hx with
    | inl hl => exact hchain.inside x hl
    | inr hN => exact (h.fresh x hN).1
  have hroom : offset+data.length ≤ (A.contents (L++T++N)).length := by
    rwa [hlen, length_append]
  refine ⟨fun x hx => (h.fresh x hx).2,hext.keeps hfiles hC,?_,?_,?_,?_⟩
  · rw [hext.contents, take_drop_patch hroom]
  · intro p hp hout
    rw [hext.contents, getD_patch hroom hout, View.contents_append]
    exact getD_append _ _ _ _ (by rwa [length_contents hw hchain.inside])
  · intro s len hs32 hcap hle
    have hseen : v.Seen (v.view w') (L++N) := h.seen hL
    have hhead : (L++T).headD 0 = (L++N).headD 0 := by
      cases L with
      | nil => exact (hL.chain.ne_nil rfl).elim
      | cons c R => rfl
    rw [hhead, readFileData_answer (hs.of_fails h.fails) rfl hseen, min_eq_left hle]
    cases hT with
    | inl hnil => rw [hnil, append_nil]
    | inr hN =>
      rw [hN.2, append_nil, append_nil, View.contents_append,
        take_append_of_le_length]
      rw [length_contents rfl hL.inside]
      omega
  · intro F hF hFC
    exact (hext.apart (hfiles.chains F hF) (hfiles.disjoint hF hC hFC)).2.2

/-- New clusters cannot be hung behind a cluster that is linked to another one of the file. -/
theorem Extended.ends_there {L T N₀ : List ℕ} (h : v.Extended A B L N₀ offset data)
    (hchain : v.FileChain A (L++d::T)) (hnew : v.FileChain B (L++d::T++N)) : N₀ = [] := by
  cases N₀ with
  | nil => rfl
  | cons n N₀ =>
    obtain ⟨l₁,c,rfl,hfat⟩ := h.fat
    have hn := h.fresh n mem_cons_self
    have hd := h.distinct
    rw [← append_cons] at hd
    have hB : B.fat c = n := by rw [hfat, relink_head hd.of_append_right]
    have hlink : B.fat c%2^28 = d := by
      have hc := hnew.chain
      rw [append_assoc, cons_append, ← append_cons] at hc
      exact hc.link_at
    rw [hB, member_small hn.1.2] at hlink
    subst hlink
    exact (hchain.used (mem_append_right _ mem_cons_self) hn.2).elim

theorem read_short {L : List ℕ} {s : ℕ} {bs : List UInt8} (hs : A.Sound) (hw : v.view w = A)
    (hL : v.Seen A L) (hlong : L.length*v.size < s) (hbs : bs.length = s) :
    answer (v.fs.readFileData v.disk (L.headD 0) s s) w ≠ .ok bs := by
  intro hread
  rw [readFileData_answer hs hw hL] at hread
  have hlen := congrArg List.length (Except.ok.inj hread)
  rw [length_take, length_contents hw hL.inside, hbs] at hlen
  omega

/-- Where a write leaves what it should, the code sees the chain as far as it and the reads go. -/
theorem Written.reached {w' : Drives} {L T N₀ : List ℕ} (hs : A.Sound)
    (hchain : v.FileChain A (L++d::T)) (hC : L++d::T ∈ files) (hL : v.Seen A L)
    (h : v.Extended A (v.view w') L N₀ offset data)
    (hwritten : v.Written A w' files (L++d::T) N offset data) :
    2^32 ≤ L.length*v.size ∧ offset+data.length ≤ L.length*v.size := by
  have hnew : v.FileChain (v.view w') (L++d::T++N) := by
    apply hwritten.chains.chains
    exact mem_map.mpr ⟨L++d::T,hC,if_pos rfl⟩
  have hnil : N₀ = [] := h.ends_there hchain hnew
  subst hnil
  have hreach := h.reach
  rw [length_nil, add_zero] at hreach
  refine ⟨?_,hreach⟩
  by_contra hsmall
  have hseen := h.seen hL
  rw [append_nil] at hseen
  have hhead : (L++d::T).headD 0 = L.headD 0 := by
    cases L with
    | nil => exact (hL.chain.ne_nil rfl).elim
    | cons c R => rfl
  have hcap : L.length*v.size+1 ≤ (L++d::T++N).length*v.size := by
    have hpos := v.size_pos
    have hle : (L.length+1)*v.size ≤ (L++d::T++N).length*v.size :=
      mul_le_mul_right _ (by simp only [length_append, length_cons]; omega)
    rw [succ_mul] at hle
    omega
  have hsector : L.length*v.size+1 < 2^32 := by
    have hmul : L.length*v.size = L.length*v.fs.sectorsPerCluster*512 := (mul_assoc _ _ _).symm
    omega
  have hread := hwritten.reads _ _ hsector hcap le_rfl
  rw [hhead] at hread
  refine read_short (hs.of_fails h.fails) rfl hseen (lt_succ_self _) ?_ hread
  rw [length_take, length_contents rfl hnew.inside]
  omega

/-- A write does what it should exactly when neither it nor the reads after it meet a link with a
reserved bit set. -/
theorem write_ok_iff (hs : (v.view w).Sound) (hfiles : v.Files (v.view w) files) (hC : C ∈ files)
    (hoffset : offset < C.length*v.size)
    (hroom : offset+data.length ≤ (C.length+(v.freeClusters (v.view w)).card)*v.size) :
    v.WriteOk w files C offset data ↔ v.Followed (v.view w) C offset data.length := by
  have hchain := hfiles.chains C hC
  obtain ⟨L,T,rfl,hL,hT⟩ := hchain.seen
  rw [followed_iff hL hT]
  cases L with
  | nil => exact (hL.chain.ne_nil rfl).elim
  | cons c R =>
  have hused : ∀ x ∈ c::R, ¬(v.view w).Free x := fun x hx =>
    hchain.used (mem_append_left _ hx)
  have hends : Ends (v.fs.writeFileData v.disk c offset data) w _ _ :=
    writeFileData_ends rfl hL hused
  constructor
  · rintro ⟨w',N,hwrite,hwritten⟩
    obtain ⟨_,hbefore,N₀,hext⟩ := hends.ok hwrite
    cases T with
    | nil => exact .inl rfl
    | cons d T =>
      obtain ⟨h32,hreach⟩ := hwritten.reached hs hchain hC hL hext
      exact .inr ⟨h32,hbefore,hreach⟩
  · intro hreach
    have hret : Returns (v.fs.writeFileData v.disk c offset data) w fun n w' => n = data.length ∧
        offset < (c::R).length*v.size ∧
          ∃ N, v.Extended (v.view w) (v.view w') (c::R) N offset data := by
      refine hends.returns fun e w' he => ?_
      cases hreach with
      | inl hnil =>
        rw [hnil, append_nil] at hoffset hroom
        rcases he with hns | hbeyond | hfull
        · exact hns hs
        · omega
        · omega
      | inr hout =>
        have hle : (c::R).length*v.size ≤
            ((c::R).length+(v.freeClusters (v.view w)).card)*v.size :=
          mul_le_mul_right _ (le_add_right _ _)
        rcases he with hns | hbeyond | hfull
        · exact hns hs
        · omega
        · omega
    obtain ⟨n,w',hwrite,hn,_,N,hext⟩ := hret.exists
    refine ⟨w',N,hn ▸ hwrite,written_of_extended rfl hs hfiles hC hL ?_ hext⟩
    refine hreach.imp_right fun hout => ⟨hout.1,?_⟩
    by_contra hN
    have hgrows := hext.grows hN
    omega

/-- A file of two clusters, linked with a reserved bit set or without. -/
def twoClusters (link : ℕ) : Drives := image [(524,toLe 4 link),(528,toLe 4 eoc)]

theorem twoClusters_files {link : ℕ} (h : (small.view (twoClusters link)).fat 3%2^28 = 4)
    (hend : (small.view (twoClusters link)).fat 4 = eoc) :
    small.Files (small.view (twoClusters link)) [[3,4]] where
  chains := by
    intro F hF
    rw [mem_singleton.mp hF]
    refine ⟨.cons h (.last ?_),?_,by decide⟩
    · rw [hend]
      decide
    · decide
  apart := pairwise_singleton _ _

/-- Two bytes in the second cluster. -/
theorem write_ok_two_clusters :
    small.WriteOk (twoClusters 4) [[3,4]] [3,4] 600 [1,2] := by
  refine (write_ok_iff (fun _ => rfl) (twoClusters_files (by decide +kernel) (by decide +kernel)) mem_cons_self (by decide)
    ?_).mpr ?_
  · rw [add_mul]
    exact le_trans (by decide) (le_add_right _ _)
  · intro i hi _
    have hzero : i = 0 := by
      rw [show [3,4].length = 2 from rfl] at hi
      omega
    rw [hzero]
    decide +kernel

/-- The first link has a reserved bit set: the second cluster cannot be written. -/
theorem reserved_bit_hides_cluster :
    (small.view (twoClusters 0x10000004)).Sound ∧
      small.Files (small.view (twoClusters 0x10000004)) [[3,4]] ∧
      512 < [3,4].length*small.size ∧
      512+[(1 : UInt8)].length ≤
        ([3,4].length+(small.freeClusters (small.view (twoClusters 0x10000004))).card)*small.size ∧
      answer (small.fs.writeFileData small.disk 3 512 [1]) (twoClusters 0x10000004) =
        .error (.err "offset beyond file") ∧
      ¬small.WriteOk (twoClusters 0x10000004) [[3,4]] [3,4] 512 [1] := by
  have hfiles : small.Files (small.view (twoClusters 0x10000004)) [[3,4]] :=
    twoClusters_files (by decide +kernel) (by decide +kernel)
  have hsize : small.size = 512 := rfl
  have hfree : 1 ≤ (small.freeClusters (small.view (twoClusters 0x10000004))).card :=
    Finset.card_pos.mpr ⟨5,mem_freeClusters.mpr ⟨by decide,by decide +kernel⟩⟩
  have hanswer : answer (small.fs.writeFileData small.disk 3 512 [1]) (twoClusters 0x10000004) =
      .error (.err "offset beyond file") := by
    decide +kernel
  refine ⟨fun _ => rfl,hfiles,by decide,?_,hanswer,?_⟩
  · rw [hsize, length_singleton, length_cons, length_singleton]
    omega
  · rintro ⟨w',N,hwrite,_⟩
    change small.fs.writeFileData small.disk 3 512 [1] (twoClusters 0x10000004) = _ at hwrite
    rw [answer_ok hwrite] at hanswer
    cases hanswer

end FatVolume

end Zohara.Fat32
