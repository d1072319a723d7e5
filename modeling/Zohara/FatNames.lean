import Zohara.FatCreate
import Zohara.FatLookup
import Zohara.Runs

/-!
# Names in a directory

create_file_entry does not look whether the name is there already. So a run of calls keeps the names
of a directory different as long as every new name is, in its 8.3 form, different from those that are
there. Deletions may come in any order, and calls may fail.

A deletion may free any cluster, those of the directory too, since it reads the start of a chain only
in part. So the chain of the directory may end at a cluster that is free, and may be cut from one call
to the next. The files of the directory are those in front of the first slot that ends it. A new entry
may take this slot, and what is behind it must then not be a file again.
-/
namespace Zohara.Fat32
open ByteMemory FallibleState IdeDisk LinkedChain Runs List Function

/-! ## The files of a list of slots -/

def liveOf (es : List (List UInt8)) : List (List UInt8) :=
  (es.takeWhile fun e => decide (e.getD 0 0 ≠ 0)).filter fun e => decide (IsLive e)

/-- The 8.3 names. -/
def namesOf (es : List (List UInt8)) : List (List UInt8) := (liveOf es).map (·.take 11)

section
variable {es P Q : List (List UInt8)} {e old entry : List UInt8}

theorem liveOf_append (h : ∀ e ∈ P, e.getD 0 0 ≠ 0) :
    liveOf (P++Q) = P.filter (fun e => decide (IsLive e))++liveOf Q := by
  unfold liveOf
  rw [takeWhile_append_of_pos fun e he => decide_eq_true (h e he), filter_append]

theorem liveOf_zero (h : e.getD 0 0 = 0) : liveOf (e::es) = [] := by
  unfold liveOf
  rw [takeWhile_cons_of_neg (by simpa using h), filter_nil]

theorem liveOf_nonzero (h : e.getD 0 0 ≠ 0) :
    liveOf (e::es) = [e].filter (fun e => decide (IsLive e))++liveOf es := by
  rw [← singleton_append]
  exact liveOf_append fun x hx => mem_singleton.mp hx ▸ h

theorem liveOf_zeros (h : ∀ e ∈ es, e.getD 0 0 = 0) : liveOf es = [] := by
  cases es with
  | nil => rfl
  | cons e es => exact liveOf_zero (h e mem_cons_self)

theorem liveOf_deleted (h : e.getD 0 0 = 0xE5) : liveOf (e::es) = liveOf es := by
  have hdead : ¬IsLive e := fun hlive => hlive.2.1 h
  rw [liveOf_nonzero (by rw [h]; decide), filter_cons_of_neg (by simpa using hdead),
    filter_nil, nil_append]

theorem liveOf_cons_sublist : List.Sublist (liveOf (e::es)) (e::liveOf es) := by
  by_cases h0 : e.getD 0 0 = 0
  · rw [liveOf_zero h0]
    exact nil_sublist _
  · rw [liveOf_nonzero h0, ← singleton_append]
    exact List.Sublist.append filter_sublist (List.Sublist.refl _)

theorem liveOf_append_sublist : List.Sublist (liveOf P) (liveOf (P++Q)) := by
  unfold liveOf
  refine List.Sublist.filter _ ?_
  rw [takeWhile_append]
  split
  · exact (takeWhile_sublist _).trans (sublist_append_left _ _)
  · exact List.Sublist.refl _

theorem namesOf_sublist (h : List.Sublist (liveOf P) (liveOf Q)) (hd : (namesOf Q).Nodup) :
    (namesOf P).Nodup := hd.sublist (h.map _)

theorem nonzero_of_full (h : ∀ s ∈ P, ¬IsFree s) : ∀ s ∈ P, s.getD 0 0 ≠ 0 := fun s hs h0 =>
  h s hs (.inl h0)

theorem nodup_insert {F G : List (List UInt8)} (hd : ((F++G).map (·.take 11)).Nodup)
    (hnew : ∀ e ∈ F++G, e.take 11 ≠ entry.take 11) :
    ((F++entry::G).map (·.take 11)).Nodup := by
  rw [map_append, map_cons, nodup_middle, ← map_append, nodup_cons]
  refine ⟨fun hmem => ?_,hd⟩
  obtain ⟨e,he,heq⟩ := mem_map.mp hmem
  exact hnew e he heq

theorem namesOf_enter (hP : ∀ s ∈ P, ¬IsFree s) (hold : IsFree old)
    (hended : (P++old::Q).Pairwise fun e e' => e.getD 0 0 = 0 → e'.getD 0 0 = 0)
    (hnew : ∀ e ∈ liveOf (P++old::Q), e.take 11 ≠ entry.take 11) (hd : (namesOf (P++old::Q)).Nodup) :
    (namesOf (P++entry::Q)).Nodup := by
  have hnonzero := nonzero_of_full hP
  have hrest : List.Sublist (liveOf (entry::Q)) (entry::liveOf (old::Q)) := by
    cases hold with
    | inl hzero =>
      have hQ : ∀ e ∈ Q, e.getD 0 0 = 0 := fun e he =>
        (pairwise_cons.mp (pairwise_append.mp hended).2.1).1 e he hzero
      have hsub : List.Sublist (liveOf (entry::Q)) (entry::liveOf Q) := liveOf_cons_sublist
      rw [liveOf_zeros hQ] at hsub
      rwa [liveOf_zero hzero]
    | inr hdeleted =>
      rw [liveOf_deleted hdeleted]
      exact liveOf_cons_sublist
  unfold namesOf at hd ⊢
  rw [liveOf_append hnonzero] at hd hnew ⊢
  refine (nodup_insert hd hnew).sublist (List.Sublist.map _ ?_)
  exact List.Sublist.append (List.Sublist.refl _) hrest

theorem namesOf_grow {Z : List (List UInt8)} (hP : ∀ s ∈ P, ¬IsFree s) (hZ : ∀ z ∈ Z, z.getD 0 0 = 0)
    (hnew : ∀ e ∈ liveOf (P++Q), e.take 11 ≠ entry.take 11) (hd : (namesOf (P++Q)).Nodup) :
    (namesOf (P++entry::Z)).Nodup := by
  have hnonzero := nonzero_of_full hP
  have hrest : List.Sublist (liveOf (entry::Z)) [entry] := by
    have hsub : List.Sublist (liveOf (entry::Z)) (entry::liveOf Z) := liveOf_cons_sublist
    rwa [liveOf_zeros hZ] at hsub
  unfold namesOf at hd ⊢
  rw [liveOf_append hnonzero] at hd hnew ⊢
  have hinsert := nodup_insert hd hnew
  refine hinsert.sublist (List.Sublist.map _ (List.Sublist.append (List.Sublist.refl _) ?_))
  exact hrest.trans (cons_sublist_cons.mpr (nil_sublist _))

theorem liveOf_mark (hold : old.getD 0 0 ≠ 0) (he : e.getD 0 0 = 0xE5) :
    List.Sublist (liveOf (P++e::Q)) (liveOf (P++old::Q)) := by
  induction P with
  | nil =>
    change List.Sublist (liveOf (e::Q)) (liveOf (old::Q))
    rw [liveOf_deleted he, liveOf_nonzero hold]
    exact sublist_append_right _ _
  | cons p P ih =>
    rw [cons_append, cons_append]
    by_cases h0 : p.getD 0 0 = 0
    · rw [liveOf_zero h0, liveOf_zero h0]
    · rw [liveOf_nonzero h0, liveOf_nonzero h0]
      exact List.Sublist.append (List.Sublist.refl _) ih

end

/-! ## The chain of a directory -/

namespace FatVolume
variable {v : FatVolume} {w w' : Drives} {A B : View} {entry name : List UInt8} {isDir : Bool}
  {c d e f i x : ℕ} {D L L₁ L₂ R T W : List ℕ}

variable (v) in
/-- A chain of clusters that ends as a file's chain does, or at a cluster that is free. -/
structure DirChain (A : View) (W : List ℕ) : Prop where
  chain : Chain (fun c d => A.fat c%2^28 = d) (fun c => eoc ≤ A.fat c%2^28 ∨ A.Free c) W
  inside : ∀ c ∈ W, 2 ≤ c ∧ c < v.total
  distinct : W.Nodup

theorem FileChain.dirChain (h : v.FileChain A D) : v.DirChain A D where
  chain := h.chain.mono (fun _ _ _ _ hlink => hlink) fun _ _ hstop => .inl hstop
  inside := h.inside
  distinct := h.distinct

theorem DirChain.used (h : v.DirChain A (L₁++c::d::L₂)) : ¬A.Free c := by
  have hlink : A.fat c%2^28 = d := h.chain.link_at
  have hd := h.inside d (by simp)
  intro hfree
  have hzero : A.fat c%2^28 = 0 := hfree
  omega

theorem DirChain.walk (h : v.DirChain A (c::R)) :
    ∃ R' T, A.visited (c::R) = c::R' ∧ R = R'++T ∧ v.Walk A (c::R') := by
  obtain ⟨R',T,hR,hl⟩ := exists_visited A c R
  refine ⟨R',T,hR,hl,?_⟩
  rw [← hR, visited_eq]
  refine ⟨h.chain.upTo ?_ ?_ ?_,fun x hx => h.inside x (upTo_sublist.subset hx),
    h.distinct.sublist upTo_sublist⟩
  · intro x d hd hlink hclean
    rw [Nat.mod_eq_of_lt (not_le.mp hclean)] at hlink
    rw [hlink, linked_member (h.inside d hd).2]
  · rintro x (heoc | hfree)
    · exact if_pos (heoc.trans (Nat.mod_le _ _))
    · exact linked_free hfree
  · exact fun x hdirty => if_pos (le_trans (by decide) hdirty)

theorem DirChain.zeroed (h : v.DirChain A (c::R)) (hz : Zeroed A B) :
    ∃ R' T, R = R'++T ∧ v.DirChain B (c::R') := by
  obtain ⟨R',T,hR,hl⟩ := exists_upTo_cons (fun c => B.fat c = 0) c R
  refine ⟨R',T,hl,?_⟩
  rw [← hR]
  refine ⟨h.chain.upTo ?_ ?_ ?_,fun x hx => h.inside x (upTo_sublist.subset hx),
    h.distinct.sublist upTo_sublist⟩
  · intro x d _ hlink hne
    rwa [(hz.fat x).resolve_right hne]
  · intro x hstop
    unfold View.Free at hstop ⊢
    obtain hsame | hzero := hz.fat x
    · rwa [hsame]
    · exact .inr (View.free_of_zero hzero)
  · exact fun x hzero => .inr (View.free_of_zero hzero)

theorem DirChain.setFree (h : v.DirChain A W) (hf : A.Free f) : v.DirChain (A.setFat f eoc) W where
  chain := by
    refine h.chain.mono (fun c _ d hd hlink => ?_) fun c _ hstop => ?_
    · have hcf : c ≠ f := by
        rintro rfl
        have hin := h.inside d hd
        have hzero : A.fat c%2^28 = 0 := hf
        omega
      rwa [A.setFat_of_ne hcf]
    · by_cases hcf : c = f
      · rw [hcf, A.setFat_self]
        exact .inl (by decide)
      · unfold View.Free at hstop ⊢
        rwa [A.setFat_of_ne hcf]
  inside := h.inside
  distinct := h.distinct

theorem DirChain.hang (h : v.DirChain A (L₁++d::T)) (hx : 2 ≤ x ∧ x < v.total)
    (hxL : x ∉ L₁++[d]) (hB : B.fat = ((A.setFat d x).setFat x eoc).fat) :
    v.DirChain B (L₁++[d]++[x]) where
  chain := by
    have hd := nodup_append.mp h.distinct
    have hBx : B.fat x = eoc := by rw [hB, View.setFat_self]
    have hxd : d ≠ x := fun hdx => hxL (by rw [hdx]; simp)
    have hBd : B.fat d%2^28 = x := by
      rw [hB, View.setFat_of_ne _ hxd, A.setFat_self, member_small hx.2]
    have hBc : ∀ c ∈ L₁, B.fat c = A.fat c := by
      intro c hc
      have hcx : c ≠ x := fun hcx => hxL (hcx ▸ mem_append_left _ hc)
      have hcd : c ≠ d := fun hcd => hd.2.2 c hc d mem_cons_self hcd
      rw [hB, View.setFat_of_ne _ hcx, A.setFat_of_ne hcd]
    have hcut : Chain (fun c d => A.fat c%2^28 = d) (fun _ => True) (L₁++[d]) :=
      h.chain.cut (fun _ _ _ _ hlink => hlink) trivial
    rw [← append_cons]
    refine hcut.extend (.last (.inl ?_)) (fun c hc y hlink => ?_) hBd
    · rw [hBx]
      decide
    · rwa [hBc c hc]
  inside := by
    intro c hc
    rw [mem_append, mem_singleton] at hc
    cases hc with
    | inl hc => exact h.inside c (by rw [append_cons]; exact mem_append_left _ hc)
    | inr hc => exact hc ▸ hx
  distinct := by
    have hd := h.distinct
    rw [append_cons] at hd
    refine nodup_append.mpr ⟨hd.of_append_left,nodup_singleton x,?_⟩
    rintro c hc _ hmem rfl
    exact hxL (mem_singleton.mp hmem ▸ hc)

theorem DirChain.endAt (h : v.DirChain A (L₁++d::T)) (hBd : B.fat d = eoc)
    (hBc : ∀ c ∈ L₁, B.fat c = A.fat c) : v.DirChain B (L₁++[d]) where
  chain := by
    refine h.chain.cut (fun c hc y _ hlink => ?_) (.inl ?_)
    · rwa [hBc c hc]
    · rw [hBd]
      decide
  inside := fun c hc => h.inside c (by rw [append_cons]; exact mem_append_left _ hc)
  distinct := by
    have hd := h.distinct
    rw [append_cons] at hd
    exact hd.of_append_left

/-! ## One call -/

variable (v) in
/-- The names of the files of the directory at `d` are different. -/
def NamesDiffer (w : Drives) (d : ℕ) : Prop :=
  ∃ W, v.DirChain (v.view w) W ∧ W.headD 0 = d ∧ (namesOf (v.dirSlots (v.view w) W)).Nodup

theorem DirChain.congr (h : v.DirChain A W) (hfat : B.fat = A.fat) : v.DirChain B W where
  chain := h.chain.mono (fun c _ y _ hlink => by rwa [hfat]) fun c _ hstop => by
    unfold View.Free at hstop ⊢
    rwa [hfat]
  inside := h.inside
  distinct := h.distinct

variable {short : List UInt8 × List UInt8}

theorem hasName_iff {s : List UInt8} (h8 : short.1.length = 8)
    (h3 : short.2.length = 3) : HasName short s ↔ s.take 11 = short.1++short.2 := by
  have hsplit : s.take (8+3) = s.take 8++(s.drop 8).take 3 := take_add
  constructor
  · intro h
    rw [show 11 = 8+3 from rfl, hsplit, h.1, h.2]
  · intro h
    have hlen := congrArg List.length h
    rw [length_append, h8, h3, length_take] at hlen
    rw [show 11 = 8+3 from rfl, hsplit] at h
    have hparts := append_inj h (by rw [length_take, h8]; omega)
    exact hparts

theorem take_newEntry (h8 : short.1.length = 8)
    (h3 : short.2.length = 3) : (newEntry short isDir f).take 11 = short.1++short.2 := by
  unfold newEntry
  simp only [append_assoc]
  rw [← append_assoc short.1, take_left' (by rw [length_append, h8, h3])]

/-- What must hold of a directory before a file with the name is created: no file has the 8.3 name,
and behind the first slot that ends the directory all slots end it. -/
structure Absent (short : List UInt8 × List UInt8) (es : List (List UInt8)) : Prop where
  names : ∀ e ∈ liveOf es, ¬HasName short e
  ended : es.Pairwise fun e e' => e.getD 0 0 = 0 → e'.getD 0 0 = 0

theorem Absent.new {es : List (List UInt8)} (h : Absent (to83 name) es) (isDir : Bool) (f : ℕ) :
    ∀ s ∈ liveOf es, s.take 11 ≠ (newEntry (to83 name) isDir f).take 11 := by
  obtain ⟨h8,h3⟩ := to83_lengths name
  intro s hs heq
  rw [take_newEntry h8 h3] at heq
  exact h.names s hs ((hasName_iff h8 h3).mpr heq)

theorem names_slot (hw : v.view w = A) (hW : v.DirChain A (L₁++e::L₂)) (hf : A.Free f)
    (habsent : Absent (to83 name) (v.dirSlots A (L₁++e::L₂)))
    (hd : (namesOf (v.dirSlots A (L₁++e::L₂))).Nodup)
    (hbefore : ∀ d ∈ L₁, v.fs.freeSlot (A.data d) = none)
    (hslot : v.fs.freeSlot (A.data e) = some i)
    (hw' : v.view w' = (A.setFat f eoc).setData e
      (patch (A.data e) (i*32) (newEntry (to83 name) isDir f))) :
    v.NamesDiffer w' ((L₁++e::L₂).headD 0) := by
  obtain ⟨h8,h3⟩ := to83_lengths name
  have hlen : (newEntry (to83 name) isDir f).length = 32 := length_newEntry h8 h3
  obtain ⟨P,old,Q,hA,hP,hold,hB⟩ := dirSlots_enter hw hW.distinct (hW.inside e (by simp)) hbefore
    hslot hlen
  refine ⟨L₁++e::L₂,(hW.setFree hf).congr (by rw [hw']; rfl),rfl,?_⟩
  have hBw : v.dirSlots (v.view w') (L₁++e::L₂) = P++newEntry (to83 name) isDir f::Q := by
    rw [← hB, hw']
    rfl
  have hnew := habsent.new isDir f
  have hended := habsent.ended
  rw [hA] at hnew hended hd
  rw [hBw]
  exact namesOf_enter hP hold hended hnew hd

theorem names_cluster (hW : v.DirChain A (L₁++d::T)) (hf : A.Free f)
    (habsent : Absent (to83 name) (v.dirSlots A (L₁++d::T)))
    (hd : (namesOf (v.dirSlots A (L₁++d::T))).Nodup)
    (hfull : ∀ y ∈ L₁++[d], v.fs.freeSlot (A.data y) = none) (hx : 2 ≤ x ∧ x < v.total)
    (hxfree : (A.setFat f eoc).Free x)
    (hw' : v.view w' = (((A.setFat f eoc).setFat d x).setFat x eoc).setData x
      (patch (List.replicate v.size 0) 0 (newEntry (to83 name) isDir f))) :
    v.NamesDiffer w' ((L₁++d::T).headD 0) := by
  obtain ⟨h8,h3⟩ := to83_lengths name
  have hlen : (newEntry (to83 name) isDir f).length = 32 := length_newEntry h8 h3
  obtain ⟨Z,hslots,hzeros⟩ := slots_new (v := v) hlen
  have hW' := hW.setFree hf
  have hdistinct := nodup_append.mp hW.distinct
  have hnew := habsent.new isDir f
  have hdata : ∀ l : List ℕ, x ∉ l → v.dirSlots (v.view w') l = v.dirSlots A l := fun l hl =>
    dirSlots_congr fun c hc => by
      rw [hw']
      exact update_of_ne (ne_of_mem_of_not_mem hc hl) _ _
  have hself : v.dirSlots (v.view w') [x] = newEntry (to83 name) isDir f::Z := by
    have hdatax : (v.view w').data x =
        patch (List.replicate v.size 0) 0 (newEntry (to83 name) isDir f) := by
      rw [hw']
      exact update_self _ _ _
    rw [dirSlots_cons, dirSlots_nil, append_nil, hdatax, hslots]
  by_cases hxd : x = d
  · subst hxd
    have hxL : x ∉ L₁ := fun hmem => hdistinct.2.2 x hmem x mem_cons_self rfl
    refine ⟨L₁++[x],hW'.endAt ?_ fun c hc => ?_,?_,?_⟩
    · rw [hw']
      exact update_self _ _ _
    · rw [hw']
      change Function.update (Function.update (Function.update A.fat f eoc) x x) x eoc c =
        Function.update A.fat f eoc c
      rw [update_of_ne (ne_of_mem_of_not_mem hc hxL),
        update_of_ne (ne_of_mem_of_not_mem hc hxL)]
    · cases L₁ <;> rfl
    · rw [dirSlots_append] at hnew hd
      rw [dirSlots_append, hdata L₁ hxL, hself]
      exact namesOf_grow (dirSlots_full (forall_mem_append.mp hfull).1) hzeros hnew
        hd
  · have hxL : x ∉ L₁++[d] := by
      intro hmem
      rw [mem_append, mem_singleton] at hmem
      obtain ⟨l₁,l₂,rfl⟩ := append_of_mem (hmem.resolve_right hxd)
      -- a member in front of `d` is not free
      cases hl : l₂++d::T with
      | nil => simp at hl
      | cons y M =>
        rw [append_assoc, cons_append, hl] at hW'
        exact hW'.used hxfree
    refine ⟨L₁++[d]++[x],hW'.hang hx hxL (by rw [hw']; rfl),?_,?_⟩
    · cases L₁ <;> rfl
    · rw [append_cons, dirSlots_append] at hnew hd
      rw [dirSlots_append, hdata _ hxL, hself]
      exact namesOf_grow (dirSlots_full hfull) hzeros hnew hd

/-- The state after a call: the drive works, and the names are different. -/
def Kept (v : FatVolume) (d : ℕ) (w : Drives) : Prop := (v.view w).Sound ∧ v.NamesDiffer w d

theorem create_keeps (hs : (v.view w).Sound) (hW : v.DirChain (v.view w) W)
    (hd : (namesOf (v.dirSlots (v.view w) W)).Nodup)
    (habsent : Absent (to83 name) (v.dirSlots (v.view w) W)) :
    v.Kept (W.headD 0) (after (v.fs.createFileEntry v.disk (W.headD 0) name isDir) w) := by
  cases W with
  | nil => exact (hW.chain.ne_nil rfl).elim
  | cons c R =>
    obtain ⟨R',T,_,rfl,hwalk⟩ := hW.walk
    change v.Kept ((c::R'++T).headD 0) (after (v.fs.createFileEntry v.disk c name isDir) w)
    refine Ends.after (Ends.mono (createFileEntry_walk rfl hwalk) ?_ ?_)
    · rintro f w' ⟨_,hf,henters⟩
      rw [← cons_append] at hW hd habsent
      cases henters with
      | slot L₁ e L₂ i hL hbefore hslot hB =>
        rw [hL, append_assoc, cons_append] at hW hd habsent ⊢
        exact ⟨hs.of_fails (by rw [hB]; rfl),names_slot rfl hW hf habsent hd hbefore hslot hB⟩
      | cluster L₁ d x hL hfull hx hxfree hB =>
        rw [hL] at hfull
        rw [hL, ← append_cons] at hW hd habsent ⊢
        exact ⟨hs.of_fails (by rw [hB]; rfl),names_cluster hW hf habsent hd hfull hx hxfree hB⟩
    · rintro _ w' (hns | ⟨hw',_⟩ | ⟨f,hf,hw',_⟩)
      · exact absurd hs hns
      · exact ⟨by rwa [hw'],c::(R'++T),by rwa [hw'],rfl,by rwa [hw']⟩
      · refine ⟨hs.of_fails (by rw [hw']; rfl),c::(R'++T),?_,rfl,?_⟩
        · rw [hw']
          exact hW.setFree hf
        · rw [hw']
          exact hd

/-! ## A deletion -/

theorem patch_mark {buf : List UInt8} {b : UInt8} (h : i*32+32 ≤ buf.length) :
    patch buf (i*32) [b] = patch buf (i*32) (b::(slot buf i).tail) := by
  have htail : (slot buf i).tail = (buf.drop (i*32+1)).take 31 := by
    rw [slot, ← drop_one, drop_take, drop_drop]
  have hlen : (b::(slot buf i).tail).length = 32 := by
    rw [length_cons, htail, length_take, length_drop]
    omega
  have hdrop : buf.drop (i*32+32) = (buf.drop (i*32+1)).drop 31 := by rw [drop_drop]
  have hrest : buf.drop (i*32+1) = (slot buf i).tail++buf.drop (i*32+32) := by
    rw [htail, hdrop, take_append_drop]
  unfold patch
  rw [hlen, length_singleton, hrest]
  simp only [append_assoc, cons_append, nil_append]

theorem liveOf_marked (hw : v.view w = A) (hd : (L₁++e::L₂).Nodup) (he : 2 ≤ e ∧ e < v.total)
    (hi : i < v.perCluster) (hused : (A.data e).getD (i*32) 0 ≠ 0) :
    List.Sublist (liveOf (v.dirSlots (A.setData e (patch (A.data e) (i*32) [0xE5])) (L₁++e::L₂)))
      (liveOf (v.dirSlots A (L₁++e::L₂))) := by
  have hdata := length_data hw he.1 he.2
  have hsize := v.size_eq
  have hroom : i*32+32 ≤ (A.data e).length := by omega
  have hlen : ((0xE5 : UInt8)::(slot (A.data e) i).tail).length = 32 := by
    rw [length_cons, length_tail, slot, length_take, length_drop]
    omega
  obtain ⟨Q,hA,hB⟩ := dirSlots_patch hw hd he hi hlen
  rw [patch_mark hroom, hA, hB]
  refine liveOf_mark ?_ rfl
  rw [getD_slot (by decide), Nat.add_zero]
  exact hused

theorem names_deleted (hw : v.view w = A) (hW : v.DirChain A (c::R))
    (hd : (namesOf (v.dirSlots A (c::R))).Nodup) (hz : Zeroed A B)
    (hw' : v.view w' = B ∨ ∃ e i, (2 ≤ e ∧ e < v.total) ∧ i < v.perCluster ∧
      (A.data e).getD (i*32) 0 ≠ 0 ∧ v.view w' = B.setData e (patch (A.data e) (i*32) [0xE5])) :
    v.NamesDiffer w' c := by
  obtain ⟨R',T,rfl,hchain⟩ := hW.zeroed hz
  have hpart : List.Sublist (liveOf (v.dirSlots A (c::R'))) (liveOf (v.dirSlots A (c::(R'++T)))) := by
    rw [← cons_append, dirSlots_append]
    exact liveOf_append_sublist
  have hB : ∀ l, v.dirSlots B l = v.dirSlots A l := fun l => dirSlots_congr fun x _ => by rw [hz.data]
  cases hw' with
  | inl hsame =>
    refine ⟨c::R',by rwa [hsame],rfl,?_⟩
    rw [hsame, hB]
    exact namesOf_sublist hpart hd
  | inr hmarked =>
    obtain ⟨e,i,he,hi,hused,hview⟩ := hmarked
    refine ⟨c::R',hchain.congr (by rw [hview]; rfl),rfl,namesOf_sublist (List.Sublist.trans ?_ hpart) hd⟩
    have hmark : v.dirSlots (v.view w') (c::R') =
        v.dirSlots (A.setData e (patch (A.data e) (i*32) [0xE5])) (c::R') := by
      rw [hview]
      refine dirSlots_congr fun x _ => ?_
      change Function.update B.data e _ x = Function.update A.data e _ x
      rw [hz.data]
    rw [hmark]
    by_cases hmem : e ∈ c::R'
    · obtain ⟨L₁,L₂,hsplit⟩ := append_of_mem hmem
      have hdistinct := hchain.distinct
      rw [hsplit] at hdistinct ⊢
      exact liveOf_marked hw hdistinct he hi hused
    · have hother : v.dirSlots (A.setData e (patch (A.data e) (i*32) [0xE5])) (c::R') =
          v.dirSlots A (c::R') :=
        dirSlots_congr fun x hx => update_of_ne (ne_of_mem_of_not_mem hx hmem) _ _
      rw [hother]

theorem delete_keeps (hs : (v.view w).Sound) (hW : v.DirChain (v.view w) W)
    (hd : (namesOf (v.dirSlots (v.view w) W)).Nodup) :
    v.Kept (W.headD 0) (after (v.fs.deleteFileEntry v.disk (W.headD 0) name) w) := by
  cases W with
  | nil => exact (hW.chain.ne_nil rfl).elim
  | cons c R =>
    obtain ⟨R',T,_,_,hwalk⟩ := hW.walk
    have hlen := hwalk.length_le
    rw [length_cons] at hlen
    have hunchanged : ∀ w', v.view w' = v.view w → v.Kept c w' := fun w' hw' =>
      ⟨by rwa [hw'],names_deleted rfl hW hd (.refl _) (.inl hw')⟩
    change v.Kept c (after (v.fs.deleteFrom v.disk (to83 name) (v.fs.totalClusters+1) c) w)
    refine Ends.after (deleteFrom_walk rfl hwalk (Nat.lt_succ_of_le (Nat.le_of_succ_le hlen)) ?_ ?_
      fun hns => absurd hs hns)
    · intro L₁ e L₂ i hsplit _ hfound w₁ hw₁
      have he := hwalk.inside e (by rw [hsplit]; simp)
      have hi := (matchSlot_eq_some.mp hfound).1
      have hsize := v.size_eq
      split_ifs with hused
      · exact ends_throw (hunchanged w₁ hw₁)
      · refine (deleteSlot_ends hw₁ he (by omega)).mono (fun _ w' h => ?_) fun _ w' hfail => ?_
        · obtain ⟨B,hB,hw'⟩ := h
          exact ⟨hs.of_fails (by rw [hw']; exact hB.zeroed.fails),
            names_deleted rfl hW hd hB.zeroed (.inr ⟨e,i,he,hi,hused,hw'⟩)⟩
        · have hz := (hfail.resolve_left fun hns => hns hs).2.2
          exact ⟨hs.of_fails hz.fails,names_deleted rfl hW hd hz (.inl rfl)⟩
    · exact fun _ w' hw' => hunchanged w' hw'

/-! ## Runs -/

/-- A call on a directory. -/
inductive Call where
  | create (name : List UInt8) (isDir : Bool)
  | delete (name : List UInt8)

/-- The state that a call leaves, whether it fails or not. -/
def Call.next (v : FatVolume) (d : ℕ) : Call → Drives → Drives
  | .create name isDir => after (v.fs.createFileEntry v.disk d name isDir)
  | .delete name => after (v.fs.deleteFileEntry v.disk d name)

/-- A file is created under a name that is not in the directory. -/
def Call.Fresh (v : FatVolume) (d : ℕ) (w : Drives) : Call → Prop
  | .create name _ => ∀ W, v.DirChain (v.view w) W → W.headD 0 = d →
      Absent (to83 name) (v.dirSlots (v.view w) W)
  | .delete _ => True

def FreshStep (v : FatVolume) (d : ℕ) (w : Drives) (a : Call) (w' : Drives) : Prop :=
  a.Fresh v d w ∧ w' = a.next v d w

theorem freshStep_keeps {a : Call} (h : v.Kept d w) (hstep : v.FreshStep d w a w') : v.Kept d w' := by
  obtain ⟨hs,W,hW,rfl,hd⟩ := h
  obtain ⟨hfresh,rfl⟩ := hstep
  cases a with
  | create name isDir => exact create_keeps hs hW hd (hfresh W hW rfl)
  | delete name => exact delete_keeps hs hW hd

/-- In a run that creates files under new names only, the names stay different. -/
theorem names_stay_different {calls : List Call} (hs : (v.view w).Sound)
    (hD : v.FileChain (v.view w) D) (hd : (namesOf (v.dirSlots (v.view w) D)).Nodup)
    (hrun : Run (v.FreshStep (D.headD 0)) w calls w') : v.NamesDiffer w' (D.headD 0) := by
  have hkept : v.Kept (D.headD 0) w' :=
    hrun.invariant (P := fun _ w => v.Kept (D.headD 0) w) ⟨hs,D,hD.dirChain,rfl,hd⟩
      fun _ _ _ _ h hstep => freshStep_keeps h hstep
  exact hkept.2

/-! ## Two calls -/

theorem DirChain.single (h : v.DirChain A W) (hhead : W.headD 0 = c) (hc : A.fat c = eoc) :
    W = [c] := by
  have hsmall := v.total_small
  have heoc : A.fat c%2^28 = 0x0FFFFFF8 := by
    rw [hc]
    rfl
  cases W with
  | nil => exact (h.chain.ne_nil rfl).elim
  | cons y R =>
    obtain rfl : y = c := hhead
    cases R with
    | nil => rfl
    | cons z R =>
      have hz := h.inside z (mem_cons_of_mem y mem_cons_self)
      have hlink : A.fat y%2^28 = z := h.chain.head
      omega

/-- A file "A" is created in an empty directory and deleted. -/
theorem names_differ_after_two_calls :
    small.NamesDiffer (Call.next small 2 (.delete [0x41])
      (Call.next small 2 (.create [0x41] false) emptyRoot)) 2 := by
  have hfresh : (Call.create [0x41] false).Fresh small 2 emptyRoot := by
    intro W hW hhead
    rw [hW.single hhead (by decide +kernel)]
    refine ⟨fun e he => ?_,pairwise_of_forall_mem_list fun _ _ e he _ => emptyRoot_slots e he⟩
    rw [liveOf_zeros emptyRoot_slots] at he
    exact absurd he not_mem_nil
  have hrun : Run (small.FreshStep 2) emptyRoot [.delete [0x41],.create [0x41] false]
      (Call.next small 2 (.delete [0x41])
        (Call.next small 2 (.create [0x41] false) emptyRoot)) :=
    .next (.next .start ⟨hfresh,rfl⟩) ⟨trivial,rfl⟩
  refine names_stay_different (D := [2]) (fun _ => rfl) emptyRoot_chain ?_ hrun
  rw [namesOf, liveOf_zeros emptyRoot_slots]
  exact nodup_nil

/-- A file "A" is created twice. -/
theorem same_entry_twice : small.FileChain (small.view emptyRoot) [2] ∧
    (namesOf (small.dirSlots (small.view emptyRoot) [2])).Nodup ∧
      ∃ f₁ w₁ f₂ w₂, small.fs.createFileEntry small.disk 2 [0x41] false emptyRoot = .ok f₁ w₁ ∧
        small.fs.createFileEntry small.disk 2 [0x41] false w₁ = .ok f₂ w₂ ∧
          ¬small.NamesDiffer w₂ 2 := by
  refine ⟨emptyRoot_chain,by decide +kernel,3,_,4,_,ok_of_answer (by decide +kernel),
    ok_of_answer (by decide +kernel),?_⟩
  rintro ⟨W,hW,hhead,hd⟩
  rw [hW.single hhead (by decide +kernel)] at hd
  exact absurd hd (by decide +kernel)

end FatVolume

end Zohara.Fat32
