import Mathlib.Data.List.TakeWhile
import Zohara.FatListing

/-!
# A new entry in a directory

create_file_entry takes a cluster for the new file, and then the first slot of the directory that is
free, or a new cluster behind the last one that it sees. It sees the directory up to the first link
with a reserved bit set. Where it finds no free slot up to there it overwrites this link, and the
files behind it are lost; and readdir does not list them before or after.

The volume is any one with disjoint chains; the directory has no long names, and behind the first
slot that ends it all slots end it. What comes out of one call is said as what becomes of the slots of
the directory, taken one after the other.
-/
namespace Zohara.Fat32
open ByteMemory FallibleState IdeDisk LinkedChain List Function

/-! ## Names -/

/-- A character of an 8.3 name. -/
def IsNameChar (b : UInt8) : Prop := 0x21 ≤ b ∧ b ≤ 0x7E ∧ b ≠ 0x2E

/-- An 8.3 name: up to eight characters, and an extension of up to three. -/
inductive ValidName : List UInt8 → Prop
  | base {base : List UInt8} : 1 ≤ base.length ∧ base.length ≤ 8 → (∀ b ∈ base, IsNameChar b) →
      ValidName base
  | extended {base ext : List UInt8} : 1 ≤ base.length ∧ base.length ≤ 8 →
      (∀ b ∈ base, IsNameChar b) → 1 ≤ ext.length ∧ ext.length ≤ 3 → (∀ b ∈ ext, IsNameChar b) →
        ValidName (base++0x2E::ext)

section
variable {name base bs : List UInt8} {b : UInt8} {n : ℕ}

theorem IsNameChar.upper (h : IsNameChar b) : IsNameChar (toAsciiUppercase b) := by
  obtain ⟨h1,h2,h3⟩ := h
  unfold toAsciiUppercase
  split_ifs with hlower
  · have hle : (0x20 : UInt8) ≤ b := by
      rw [UInt8.le_iff_toNat_le] at h1 ⊢
      exact le_trans (by decide) h1
    have hsub := UInt8.toNat_sub_of_le b 0x20 hle
    unfold IsNameChar
    rw [UInt8.le_iff_toNat_le, UInt8.le_iff_toNat_le] at hlower ⊢
    rw [ne_eq, ← UInt8.toNat_inj, hsub]
    have hlow : (97 : ℕ) ≤ b.toNat := hlower.1
    have hhigh : b.toNat ≤ 122 := hlower.2
    change 33 ≤ b.toNat-32 ∧ b.toNat-32 ≤ 126 ∧ ¬b.toNat-32 = 46
    omega
  · exact ⟨h1,h2,h3⟩

theorem IsNameChar.ne_space (h : IsNameChar b) : b ≠ 0x20 := by
  rintro rfl
  exact absurd h.1 (by decide)

theorem IsNameChar.encode (h : IsNameChar b) : encodeChar b = [b] := by
  refine if_pos ?_
  have hle := UInt8.le_iff_toNat_le.mp h.2.1
  rw [UInt8.lt_iff_toNat_lt]
  exact hle.trans_lt (by decide)

theorem padded_eq (h : bs.length ≤ n) :
    padded n bs = bs.map toAsciiUppercase++List.replicate (n-bs.length) 0x20 := by
  apply ext_getElem
  · rw [length_padded, length_append, length_map, length_replicate]
    omega
  · intro i hi _
    simp only [padded, getElem_map, getElem_range]
    by_cases hlt : i < bs.length
    · rw [if_pos hlt, getElem_append_left (by rwa [length_map]), getElem_map,
        getD_eq_getElem _ _ hlt]
    · rw [if_neg hlt, getElem_append_right (by rw [length_map]; omega),
        getElem_replicate]

theorem shown_part (h : bs.length ≤ n) (hchars : ∀ b ∈ bs, IsNameChar b) :
    ((padded n bs).takeWhile (· ≠ 0x20)).flatMap encodeChar = bs.map toAsciiUppercase := by
  have hupper : ∀ b ∈ bs.map toAsciiUppercase, IsNameChar b := by
    intro b hb
    obtain ⟨a,ha,rfl⟩ := mem_map.mp hb
    exact (hchars a ha).upper
  have htake : (padded n bs).takeWhile (· ≠ 0x20) = bs.map toAsciiUppercase := by
    rw [padded_eq h, takeWhile_append_of_pos fun b hb => decide_eq_true (hupper b hb).ne_space]
    cases n-bs.length with
    | zero => exact append_nil _
    | succ k => rw [replicate_succ, takeWhile_cons_of_neg (by decide), append_nil]
  rw [htake]
  generalize bs.map toAsciiUppercase = us at hupper
  induction us with
  | nil => rfl
  | cons u us ih =>
    rw [flatMap_cons, (hupper u mem_cons_self).encode,
      ih (forall_mem_cons.mp hupper).2, singleton_append]

theorem padded_first (hpos : 1 ≤ bs.length) (h : bs.length ≤ n) (hchars : ∀ b ∈ bs, IsNameChar b) :
    IsNameChar ((padded n bs).getD 0 0) := by
  cases bs with
  | nil => exact absurd hpos (by decide)
  | cons b bs =>
    rw [padded_eq h, map_cons, cons_append, getD_cons_zero]
    exact (hchars b mem_cons_self).upper

section

variable (hchars : ∀ b ∈ base, IsNameChar b)
include hchars

theorem takeWhile_name : base.takeWhile (· ≠ 0x2E) = base :=
  takeWhile_eq_self_iff.mpr fun b hb => decide_eq_true (hchars b hb).2.2

theorem to83_base : to83 base = (padded 8 base,padded 3 []) := by
  have hdrop : base.dropWhile (· ≠ 0x2E) = [] :=
    dropWhile_eq_nil_iff.mpr fun b hb => decide_eq_true (hchars b hb).2.2
  unfold to83
  rw [takeWhile_name hchars, hdrop]
  rfl

theorem to83_extended {ext : List UInt8} (hext : ∀ b ∈ ext, IsNameChar b) :
    to83 (base++0x2E::ext) = (padded 8 base,padded 3 ext) := by
  have hall : ∀ b ∈ base, decide (b ≠ 0x2E) = true := fun b hb => decide_eq_true (hchars b hb).2.2
  unfold to83
  rw [takeWhile_append_of_pos hall, dropWhile_append_of_pos hall,
    takeWhile_cons_of_neg (by decide), dropWhile_cons_of_neg (by decide), append_nil,
    tail_cons, takeWhile_name hext]

end

theorem ValidName.shown (h : ValidName name) :
    shownName (to83 name) = name.map toAsciiUppercase ∧ IsNameChar ((to83 name).1.getD 0 0) := by
  cases h with
  | base hlen hchars =>
    rw [to83_base hchars]
    refine ⟨?_,padded_first hlen.1 hlen.2 hchars⟩
    unfold shownName
    have hspace : ¬(padded 3 []).getD 0 0 ≠ 0x20 := by decide
    rw [shown_part hlen.2 hchars, if_neg hspace, append_nil]
  | @extended base ext hlen hchars helen hext =>
    rw [to83_extended hchars hext]
    refine ⟨?_,padded_first hlen.1 hlen.2 hchars⟩
    unfold shownName
    rw [shown_part hlen.2 hchars, if_pos (padded_first helen.1 helen.2 hext).ne_space,
      shown_part helen.2 hext, map_append, map_cons]
    rfl

end

/-! ## Slots -/

/-- A slot that can be taken. -/
def IsFree (e : List UInt8) : Prop := e.getD 0 0 = 0 ∨ e.getD 0 0 = 0xE5

/-- The files that are listed from slots without long names. -/
def entriesOf (es : List (List UInt8)) : List DirEntry32 :=
  (es.filter fun e => decide (IsLive e ∧ ¬IsHidden e)).map fun e => entryOf (shortName e) e

section
variable {es P Q : List (List UInt8)} {e entry name : List UInt8} {isDir : Bool} {c : ℕ}

theorem entriesOf_append : entriesOf (P++Q) = entriesOf P++entriesOf Q := by
  unfold entriesOf
  rw [filter_append, map_append]

theorem entriesOf_skip (h : ¬(IsLive e ∧ ¬IsHidden e)) : entriesOf (e::es) = entriesOf es := by
  unfold entriesOf
  rw [filter_cons_of_neg (by rwa [decide_eq_true_eq])]

theorem entriesOf_cons (h : IsLive e ∧ ¬IsHidden e) :
    entriesOf (e::es) = entryOf (shortName e) e::entriesOf es := by
  have hfilter : (e::es).filter (fun e => decide (IsLive e ∧ ¬IsHidden e)) =
      e::es.filter fun e => decide (IsLive e ∧ ¬IsHidden e) :=
    filter_cons_of_pos (decide_eq_true h)
  unfold entriesOf
  rw [hfilter, map_cons]

theorem IsFree.not_live (h : IsFree e) : ¬(IsLive e ∧ ¬IsHidden e) := fun hlive =>
  h.elim hlive.1.1 hlive.1.2.1

theorem entriesOf_zeros (h : ∀ e ∈ es, e.getD 0 0 = 0) : entriesOf es = [] := by
  induction es with
  | nil => rfl
  | cons e es ih =>
    rw [entriesOf_skip (IsFree.not_live (.inl (h e mem_cons_self))),
      ih (forall_mem_cons.mp h).2]

theorem parseEntries_plain (hlong : ∀ e ∈ es, e.getD 0 0 ≠ 0 → ¬IsLong e)
    (hended : es.Pairwise fun e e' => e.getD 0 0 = 0 → e'.getD 0 0 = 0) :
    parseEntries es [] = entriesOf es := by
  induction es with
  | nil => rfl
  | cons e es ih =>
    obtain ⟨hrest,hended⟩ := pairwise_cons.mp hended
    have hih := ih ((forall_mem_cons.mp hlong).2) hended
    rw [parseEntries]
    by_cases h0 : e.getD 0 0 = 0
    · rw [if_pos h0, entriesOf_skip (IsFree.not_live (.inl h0)),
        entriesOf_zeros fun x hx => hrest x hx h0]
    · rw [if_neg h0]
      by_cases h5 : e.getD 0 0 = 0xE5
      · rw [if_pos h5, entriesOf_skip (IsFree.not_live (.inr h5)), hih]
      · have hF : e.getD 11 0 ≠ 0x0F := fun hF => hlong e mem_cons_self h0 ⟨h5,hF⟩
        rw [if_neg h5, if_neg hF]
        dsimp only
        by_cases hh : e.getD 11 0 &&& 0x02 ≠ 0 ∨ e.getD 11 0 &&& 0x04 ≠ 0
        · have hskip : ¬(IsLive e ∧ ¬IsHidden e) := fun h => h.2 hh
          rw [if_pos hh, entriesOf_skip hskip, hih]
        · have hlive : IsLive e ∧ ¬IsHidden e := ⟨⟨h0,h5,hF⟩,hh⟩
          rw [if_neg hh, entriesOf_cons hlive, hih]
          rfl

theorem newEntry_live (h : ValidName name) (hc : c < 2^32) :
    (IsLive (newEntry (to83 name) isDir c) ∧ ¬IsHidden (newEntry (to83 name) isDir c)) ∧
      entryOf (shortName (newEntry (to83 name) isDir c)) (newEntry (to83 name) isDir c) =
        ⟨name.map toAsciiUppercase,c,0,isDir⟩ := by
  obtain ⟨h8,h3⟩ := FatVolume.to83_lengths name
  obtain ⟨hfirst,hshort⟩ : (newEntry (to83 name) isDir c).getD 0 0 = _ ∧ _ := newEntry_names h8 h3
  obtain ⟨hshown,hchar⟩ := h.shown
  have hattr : (newEntry (to83 name) isDir c).getD 11 0 = if isDir then 0x10 else 0x20 :=
    newEntry_attributes h8 h3
  rw [← hfirst] at hchar
  refine ⟨⟨⟨?_,?_,?_⟩,?_⟩,?_⟩
  · intro h0
    rw [h0] at hchar
    exact absurd hchar.1 (by decide)
  · intro h5
    rw [h5] at hchar
    exact absurd hchar.2.1 (by decide)
  · rw [hattr]
    cases isDir <;> decide
  · unfold IsHidden
    rw [hattr]
    cases isDir <;> decide
  · unfold entryOf
    rw [hshort, hshown, FatVolume.startCluster, newEntry_cluster h8 h3 hc, newEntry_size h8 h3, hattr]
    cases isDir <;> rfl

end

/-! ## The search of create_file_entry -/

namespace FatVolume
variable {v : FatVolume} {w : Drives} {A B : View} {buf entry name : List UInt8} {isDir : Bool}
  {c d e f i n x : ℕ} {D L L₁ L₂ R T : List ℕ} {files : List (List ℕ)}

theorem freeSlot_eq_some : v.fs.freeSlot buf = some i ↔
    i < v.perCluster ∧ IsFree (slot buf i) ∧ ∀ t < i, ¬IsFree (slot buf t) := by
  unfold Fat32Fs.freeSlot IsFree
  rw [v.clusterSize_eq, find?_range_eq_some]
  simp only [decide_eq_true_eq, mem_range, Bool.not_eq_true', decide_eq_false_iff_not,
    getD_slot (by decide : 0 < 32), Nat.add_zero]
  exact and_left_comm

theorem freeSlot_eq_none : v.fs.freeSlot buf = none ↔ ∀ i < v.perCluster, ¬IsFree (slot buf i) := by
  unfold Fat32Fs.freeSlot IsFree
  rw [v.clusterSize_eq, find?_range_eq_none]
  simp only [Bool.not_eq_true', decide_eq_false_iff_not, getD_slot (by decide : 0 < 32),
    Nat.add_zero]
  rfl

/-! ## What becomes of the slots -/

theorem dirSlots_congr (h : ∀ c ∈ L, B.data c = A.data c) : v.dirSlots B L = v.dirSlots A L := by
  induction L with
  | nil => rfl
  | cons c L ih =>
    rw [dirSlots_cons, dirSlots_cons, h c mem_cons_self,
      ih (forall_mem_cons.mp h).2]

theorem dirSlots_full (h : ∀ d ∈ L, v.fs.freeSlot (A.data d) = none) :
    ∀ e ∈ v.dirSlots A L, ¬IsFree e := by
  intro e he
  obtain ⟨d,hd,he⟩ := mem_flatMap.mp he
  obtain ⟨i,hi,rfl⟩ := mem_map.mp he
  exact freeSlot_eq_none.mp (h d hd) i (mem_range.mp hi)

section

variable (hw : v.view w = A) (hd : (L₁++e::L₂).Nodup) (he : 2 ≤ e ∧ e < v.total)
include hw hd he

theorem dirSlots_patch (hi : i < v.perCluster) (hentry : entry.length = 32) :
    ∃ Q, v.dirSlots A (L₁++e::L₂) =
        v.dirSlots A L₁++(slots (A.data e) v.perCluster).take i++slot (A.data e) i::Q ∧
      v.dirSlots (A.setData e (patch (A.data e) (i*32) entry)) (L₁++e::L₂) =
        v.dirSlots A L₁++(slots (A.data e) v.perCluster).take i++entry::Q := by
  have hlen := length_slots (A.data e) v.perCluster
  have hdata := length_data hw he.1 he.2
  have hsize := v.size_eq
  have hd' := nodup_append.mp hd
  have hself : (A.setData e (patch (A.data e) (i*32) entry)).data e = patch (A.data e) (i*32) entry :=
    update_self _ _ _
  have hother : ∀ l : List ℕ, e ∉ l →
      v.dirSlots (A.setData e (patch (A.data e) (i*32) entry)) l = v.dirSlots A l := fun l hl =>
    dirSlots_congr fun c hc => update_of_ne (ne_of_mem_of_not_mem hc hl) _ _
  have hsplit : slots (A.data e) v.perCluster = (slots (A.data e) v.perCluster).take i++
      slot (A.data e) i::(slots (A.data e) v.perCluster).drop (i+1) := by
    rw [← getD_slots hi, getD_eq_getElem _ _ (by omega), ← drop_eq_getElem_cons,
      take_append_drop]
  refine ⟨(slots (A.data e) v.perCluster).drop (i+1)++v.dirSlots A L₂,?_,?_⟩
  · rw [dirSlots_append, dirSlots_cons]
    conv => lhs; rw [hsplit]
    simp only [append_assoc, cons_append]
  · rw [dirSlots_append, dirSlots_cons, hself, slots_patch (by omega) hentry hi,
      set_eq_take_append_cons_drop, if_pos (by omega),
      hother L₁ fun hmem => hd'.2.2 e hmem e mem_cons_self rfl,
      hother L₂ (nodup_cons.mp hd'.2.1).1]
    simp only [append_assoc, cons_append]

theorem dirSlots_enter (hbefore : ∀ d ∈ L₁, v.fs.freeSlot (A.data d) = none)
    (hslot : v.fs.freeSlot (A.data e) = some i) (hentry : entry.length = 32) :
    ∃ P old Q, v.dirSlots A (L₁++e::L₂) = P++old::Q ∧ (∀ s ∈ P, ¬IsFree s) ∧ IsFree old ∧
      v.dirSlots (A.setData e (patch (A.data e) (i*32) entry)) (L₁++e::L₂) = P++entry::Q := by
  obtain ⟨hi,hfree,hno⟩ := freeSlot_eq_some.mp hslot
  have hlen := length_slots (A.data e) v.perCluster
  obtain ⟨Q,hA,hB⟩ := dirSlots_patch hw hd he hi hentry
  refine ⟨_,_,Q,hA,?_,hfree,hB⟩
  have hcluster : ∀ s ∈ (slots (A.data e) v.perCluster).take i, ¬IsFree s := by
    refine (forall_mem_take (by omega)).mpr fun t ht => ?_
    rw [getD_slots (ht.trans hi)]
    exact hno t ht
  intro s hs
  exact (mem_append.mp hs).elim (dirSlots_full hbefore s) (hcluster s)

end

theorem slots_new (hentry : entry.length = 32) : ∃ Z : List (List UInt8),
    slots (patch (List.replicate v.size 0) 0 entry) v.perCluster = entry::Z ∧
      ∀ z ∈ Z, z.getD 0 0 = 0 := by
  have hpos := v.perCluster_pos
  have hsize := v.size_eq
  have hzeros := slots_zeros (v := v) v.size
  have hset : slots (patch (List.replicate v.size 0) (0*32) entry) v.perCluster =
      (slots (List.replicate v.size 0) v.perCluster).set 0 entry :=
    slots_patch (by rw [length_replicate]; omega) hentry hpos
  rw [Nat.zero_mul] at hset
  have hlen := length_slots (List.replicate v.size (0 : UInt8)) v.perCluster
  change ∀ e ∈ slots (List.replicate v.size 0) v.perCluster, e.getD 0 0 = 0 at hzeros
  cases hes : slots (List.replicate v.size (0 : UInt8)) v.perCluster with
  | nil =>
    rw [hes, length_nil] at hlen
    omega
  | cons z Z =>
    rw [hes] at hset hzeros
    exact ⟨Z,hset,fun z' hz' => hzeros z' (mem_cons_of_mem z hz')⟩

/-! ## Directories without long names -/

variable (v) in
/-- At most 1024 clusters without long names, and behind the first slot that ends the directory all
slots end it. -/
structure Shape (A : View) (D : List ℕ) : Prop where
  size : D.length ≤ 1024
  noLong : ∀ e ∈ v.dirSlots A D, e.getD 0 0 ≠ 0 → ¬IsLong e
  ended : (v.dirSlots A D).Pairwise fun e e' => e.getD 0 0 = 0 → e'.getD 0 0 = 0

theorem listed_plain (hlong : ∀ e ∈ v.dirSlots A D, e.getD 0 0 ≠ 0 → ¬IsLong e)
    (hended : (v.dirSlots A D).Pairwise fun e e' => e.getD 0 0 = 0 → e'.getD 0 0 = 0) :
    D.flatMap (v.listed A) = entriesOf (v.dirSlots A D) := by
  induction D with
  | nil => rfl
  | cons c D ih =>
    rw [dirSlots_cons] at hlong hended ⊢
    obtain ⟨hfirst,hrest,_⟩ := pairwise_append.mp hended
    rw [flatMap_cons, entriesOf_append,
      ih ((forall_mem_append.mp hlong).2) hrest,
      ← parseEntries_plain ((forall_mem_append.mp hlong).1) hfirst]
    rfl

theorem visited_clean (h : ∀ j, j+1 < L.length → A.fat (L.getD j 0) < 2^28) : A.visited L = L := by
  induction L with
  | nil => rfl
  | cons c L ih =>
    cases L with
    | nil => rw [visited_cons, View.visited, ite_self]
    | cons d L =>
      have hclean := h 0 (by rw [length_cons, length_cons]; omega)
      rw [getD_cons_zero] at hclean
      rw [visited_cons, if_neg hclean.not_ge, ih]
      intro j hj
      exact h (j+1) (Nat.succ_lt_succ hj)

theorem visited_congr (h : ∀ c ∈ L, B.fat c = A.fat c) : B.visited L = A.visited L := by
  induction L with
  | nil => rfl
  | cons c L ih =>
    rw [visited_cons, visited_cons, h c mem_cons_self,
      ih (forall_mem_cons.mp h).2]

theorem readdir_plain (hs : (v.view w).Sound) (hD : v.FileChain (v.view w) D)
    (hvisited : (v.view w).visited D = L) (hlen : L.length ≤ 1025)
    (hlong : ∀ e ∈ v.dirSlots (v.view w) L, e.getD 0 0 ≠ 0 → ¬IsLong e)
    (hended : (v.dirSlots (v.view w) L).Pairwise fun e e' => e.getD 0 0 = 0 → e'.getD 0 0 = 0) :
    answer (v.fs.readdir v.disk (D.headD 0)) w = .ok (entriesOf (v.dirSlots (v.view w) L)) := by
  have hread : readClusters (v.view w) D = L := by
    rw [readClusters, hvisited, take_of_length_le hlen]
  rw [readdir_answer hs hD, hread, ← listed_reports, listed_plain hlong hended]

/-- A chain that is seen is a file's chain when its last entry has no reserved bits that matter. -/
theorem Seen.fileChain (h : v.Seen A (L++[c])) (hc : eoc ≤ A.fat c%2^28) :
    v.FileChain A (L++[c]) where
  chain := h.chain.cut (fun _ _ y hy hlink => by rw [hlink, member_small (h.inside y hy).2]) hc
  inside := h.inside
  distinct := h.distinct

theorem FileChain.unique {l l' : List ℕ} (h : v.FileChain A (c::l)) (h' : v.FileChain A (c::l')) :
    l = l' := by
  have hsmall := v.total_small
  have hlast : ∀ {c d : ℕ} {l : List ℕ}, v.FileChain A [c] → ¬v.FileChain A (c::d::l) := by
    intro c d l h h'
    have hd := h'.inside d (mem_cons_of_mem c mem_cons_self)
    have hstop : eoc ≤ A.fat c%2^28 := h.chain.stops
    have hlink : A.fat c%2^28 = d := h'.chain.head
    unfold eoc at hstop
    omega
  induction l generalizing c l' with
  | nil =>
    cases l' with
    | nil => rfl
    | cons d' l' => exact absurd h' (hlast h)
  | cons d l ih =>
    cases l' with
    | nil => exact absurd h (hlast h')
    | cons d' l' =>
      obtain rfl : d = d' := h.chain.head.symm.trans h'.chain.head
      rw [ih h.tail h'.tail]

/-! ## One call -/

variable (v) in
/-- What a call should leave: the cluster was free and is a chain of its own, the directory has the
same shape, and the other chains have their members and contents. -/
structure Created (A B : View) (files : List (List ℕ)) (D : List ℕ) (f : ℕ) : Prop where
  free : A.Free f
  chain : v.FileChain B [f]
  directory : ∃ D', v.FileChain B D' ∧ D'.headD 0 = D.headD 0 ∧ v.Shape B D'
  others : ∀ F ∈ files, F ≠ D → v.FileChain B F ∧ B.contents F = A.contents F

variable (v) in
/-- The call returns a new file, and readdir lists it besides the files of the directory. -/
def Creates (w : Drives) (files : List (List ℕ)) (D : List ℕ) (name : List UInt8) (isDir : Bool) :
    Prop :=
  ∃ f w', v.fs.createFileEntry v.disk (D.headD 0) name isDir w = .ok f w' ∧
    v.Created (v.view w) (v.view w') files D f ∧
      ∃ xs ys, entriesOf (v.dirSlots (v.view w) D) = xs++ys ∧
        answer (v.fs.readdir v.disk (D.headD 0)) w' =
          .ok (xs++⟨name.map toAsciiUppercase,f,0,isDir⟩::ys)

variable (v) in
/-- No file lies behind a link with a reserved bit set, and a directory of 1024 clusters need not
grow. -/
structure Creatable (A : View) (D : List ℕ) : Prop where
  seen : ∀ k < D.length*v.perCluster, (∃ j < k/v.perCluster, 2^28 ≤ A.fat (D.getD j 0)) →
    ¬(IsLive (v.dirSlot A D k) ∧ ¬IsHidden (v.dirSlot A D k))
  room : ¬(D.length = 1024 ∧ (∀ j, j+1 < D.length → A.fat (D.getD j 0) < 2^28) ∧
    ∀ e ∈ v.dirSlots A D, ¬IsFree e)

variable (v) in
/-- The directory after a call, where `L` is the part of it that is visited. -/
structure Outcome (w' : Drives) (A B : View) (D L D' : List ℕ) (new : DirEntry32) : Prop where
  chain : v.FileChain B D'
  head : D'.headD 0 = D.headD 0
  noLong : ∀ e ∈ v.dirSlots B D', e.getD 0 0 ≠ 0 → ¬IsLong e
  ended : (v.dirSlots B D').Pairwise fun e e' => e.getD 0 0 = 0 → e'.getD 0 0 = 0
  grows : D' = D ∧ (∃ e ∈ v.dirSlots A L, IsFree e) ∨
    D'.length = L.length+1 ∧ ∀ e ∈ v.dirSlots A L, ¬IsFree e
  lists : ∃ xs ys, entriesOf (v.dirSlots A L) = xs++ys ∧
    answer (v.fs.readdir v.disk (D.headD 0)) w' = .ok (xs++new::ys)

theorem ended_enter {P Q : List (List UInt8)} {old : List UInt8} (hfree : ∀ s ∈ P, ¬IsFree s)
    (hlive : IsLive entry) (h : (P++old::Q).Pairwise fun e e' => e.getD 0 0 = 0 → e'.getD 0 0 = 0) :
    (P++entry::Q).Pairwise fun e e' => e.getD 0 0 = 0 → e'.getD 0 0 = 0 := by
  obtain ⟨hP,hQ,_⟩ := pairwise_append.mp h
  refine pairwise_append.mpr ⟨hP,pairwise_cons.mpr ⟨?_,(pairwise_cons.mp hQ).2⟩,?_⟩
  · exact fun _ _ h0 => absurd h0 hlive.1
  · exact fun s hs _ _ h0 => absurd (Or.inl h0) (hfree s hs)

theorem noLong_enter {P Q : List (List UInt8)} {old : List UInt8} (hlive : IsLive entry)
    (h : ∀ e ∈ P++old::Q, e.getD 0 0 ≠ 0 → ¬IsLong e) :
    ∀ e ∈ P++entry::Q, e.getD 0 0 ≠ 0 → ¬IsLong e := by
  intro e he
  rw [mem_append, mem_cons] at he
  obtain he | rfl | he := he
  · exact h e (mem_append_left _ he)
  · exact fun _ hlong => hlive.2.2 hlong.2
  · exact h e (mem_append_right _ (mem_cons_of_mem old he))

section
variable {w' : Drives} {new : DirEntry32}

theorem outcome_slot (hw : v.view w = A) (hs : A.Sound) (hshape : v.Shape A D) (hDA : v.FileChain A D)
    (hvisited : A.visited D = L₁++e::L₂) (hsplit : D = L₁++e::L₂++T) (hf : f ∉ D)
    (hbefore : ∀ d ∈ L₁, v.fs.freeSlot (A.data d) = none)
    (hslot : v.fs.freeSlot (A.data e) = some i) (hentry : entry.length = 32)
    (hlive : IsLive entry ∧ ¬IsHidden entry) (hnew : entryOf (shortName entry) entry = new)
    (hw' : v.view w' = (A.setFat f eoc).setData e (patch (A.data e) (i*32) entry)) :
    v.Outcome w' A (v.view w') D (L₁++e::L₂) D new := by
  have he := hDA.inside e (by rw [hsplit]; simp)
  have hd := hDA.distinct
  rw [hsplit] at hd
  have hdL := nodup_append.mp hd
  obtain ⟨P,old,Q,hA,hfree,hold,hB⟩ := dirSlots_enter hw hdL.1 he hbefore hslot hentry
  have hBL : v.dirSlots (v.view w') (L₁++e::L₂) = P++entry::Q := by
    rw [← hB, hw']
    rfl
  have hBT : v.dirSlots (v.view w') T = v.dirSlots A T := by
    refine dirSlots_congr fun c hc => ?_
    rw [hw']
    refine update_of_ne ?_ _ _
    rintro rfl
    exact hdL.2.2 c (by simp) c hc rfl
  have hAD : v.dirSlots A D = P++old::(Q++v.dirSlots A T) := by
    rw [hsplit, dirSlots_append, hA, append_assoc, cons_append]
  have hBD : v.dirSlots (v.view w') D = P++entry::(Q++v.dirSlots A T) := by
    rw [hsplit, dirSlots_append, hBL, hBT, append_assoc, cons_append]
  have hfat : ∀ c ∈ D, (v.view w').fat c = A.fat c := by
    intro c hc
    rw [hw']
    exact update_of_ne (ne_of_mem_of_not_mem hc hf) _ _
  have hlong := hshape.noLong
  have hended := hshape.ended
  rw [hAD] at hlong hended
  have hchain : v.FileChain (v.view w') D := Linked.congr hDA fun c hc => by rw [hfat c hc]
  have hlongB := noLong_enter hlive.1 hlong
  have hendedB := ended_enter hfree hlive.1 hended
  rw [← hBD] at hlongB hendedB
  refine ⟨hchain,rfl,hlongB,hendedB,.inl ⟨rfl,old,by rw [hA]; simp,hold⟩,
    entriesOf P,entriesOf Q,?_,?_⟩
  · rw [hA, entriesOf_append, entriesOf_skip hold.not_live]
  · have hsize := hshape.size
    rw [hsplit, length_append] at hsize
    rw [hsplit, dirSlots_append] at hlongB hendedB
    have hanswer := readdir_plain (hs.of_fails (by rw [hw']; rfl)) hchain
      ((visited_congr hfat).trans hvisited) (by omega)
      ((forall_mem_append.mp hlongB).1) (pairwise_append.mp hendedB).1
    rw [hanswer, hBL, entriesOf_append, entriesOf_cons hlive, hnew]

/-- The directory got a new cluster. -/
theorem outcome_cluster (hs : A.Sound) (hshape : v.Shape A D)
    (hsplit : D = L₁++[d]++T) (hseen : v.Seen A (L₁++[d])) (hfD : f ∉ D) (hxD : x ∉ D)
    (hfull : ∀ y ∈ L₁++[d], v.fs.freeSlot (A.data y) = none) (hx : 2 ≤ x ∧ x < v.total)
    (hentry : entry.length = 32) (hlive : IsLive entry ∧ ¬IsHidden entry)
    (hnew : entryOf (shortName entry) entry = new)
    (hw' : v.view w' = (((A.setFat f eoc).setFat d x).setFat x eoc).setData x
      (patch (List.replicate v.size 0) 0 entry)) :
    v.Outcome w' A (v.view w') D (L₁++[d]) (L₁++[d]++[x]) new := by
  have hsub : ∀ c ∈ L₁++[d], c ∈ D := fun c hc => hsplit ▸ mem_append_left T hc
  have hxL : x ∉ L₁++[d] := fun hmem => hxD (hsub x hmem)
  have hdistinct : (L₁++d::[x]).Nodup := by
    rw [append_cons]
    refine nodup_append.mpr ⟨hseen.distinct,nodup_singleton x,?_⟩
    rintro c hc _ hmem rfl
    exact hxL (mem_singleton.mp hmem ▸ hc)
  have hseenf : v.Seen (A.setFat f eoc) (L₁++[d]) :=
    Seen.setFat hseen (fun hmem => hfD (hsub f hmem)) eoc
  have hseenB : v.Seen (v.view w') (L₁++[d]++[x]) := by
    have hrelink := Linked.relink hseenf hdistinct fun y hy => mem_singleton.mp hy ▸ hx
    rw [← append_cons, hw']
    exact hrelink
  have hxeoc : (v.view w').fat x = eoc := by
    rw [hw']
    exact update_self _ _ _
  have hchain : v.FileChain (v.view w') (L₁++[d]++[x]) :=
    hseenB.fileChain (by rw [hxeoc]; decide)
  obtain ⟨Z,hslots,hzeros⟩ := slots_new (v := v) hentry
  have hBL : v.dirSlots (v.view w') (L₁++[d]) = v.dirSlots A (L₁++[d]) := by
    refine dirSlots_congr fun c hc => ?_
    rw [hw']
    exact update_of_ne (ne_of_mem_of_not_mem hc hxL) _ _
  have hBx : v.dirSlots (v.view w') [x] = entry::Z := by
    have hdata : (v.view w').data x = patch (List.replicate v.size 0) 0 entry := by
      rw [hw']
      exact update_self _ _ _
    rw [dirSlots_cons, dirSlots_nil, append_nil, hdata, hslots]
  have hB : v.dirSlots (v.view w') (L₁++[d]++[x]) = v.dirSlots A (L₁++[d])++entry::Z := by
    rw [dirSlots_append, hBL, hBx]
  have hnofree := dirSlots_full hfull
  have hlongA : ∀ e ∈ v.dirSlots A (L₁++[d]), e.getD 0 0 ≠ 0 → ¬IsLong e := by
    intro e he
    refine hshape.noLong e ?_
    rw [hsplit, dirSlots_append]
    exact mem_append_left _ he
  have hlongB : ∀ e ∈ v.dirSlots (v.view w') (L₁++[d]++[x]), e.getD 0 0 ≠ 0 → ¬IsLong e := by
    rw [hB]
    intro e he h0
    rw [mem_append, mem_cons] at he
    obtain he | rfl | he := he
    · exact hlongA e he h0
    · exact fun hlong => hlive.1.2.2 hlong.2
    · exact absurd (hzeros e he) h0
  have hendedB : (v.dirSlots (v.view w') (L₁++[d]++[x])).Pairwise
      fun e e' => e.getD 0 0 = 0 → e'.getD 0 0 = 0 := by
    rw [hB]
    refine pairwise_append.mpr ⟨?_,pairwise_cons.mpr ⟨?_,?_⟩,?_⟩
    · exact pairwise_of_forall_mem_list fun s hs _ _ h0 => absurd (Or.inl h0) (hnofree s hs)
    · exact fun _ _ h0 => absurd h0 hlive.1.1
    · exact pairwise_of_forall_mem_list fun _ _ s hs _ => hzeros s hs
    · exact fun s hs _ _ h0 => absurd (Or.inl h0) (hnofree s hs)
  have hhead : (L₁++[d]++[x]).headD 0 = D.headD 0 := by
    rw [hsplit]
    cases L₁ <;> rfl
  refine ⟨hchain,hhead,hlongB,hendedB,.inr ⟨?_,hnofree⟩,entriesOf (v.dirSlots A (L₁++[d])),[],?_,?_⟩
  · rw [length_append, length_singleton]
  · rw [append_nil]
  · have hvisited : (v.view w').visited (L₁++[d]++[x]) = L₁++[d]++[x] :=
      visited_clean fun j hj => hseenB.clean hj
    have hlen : (L₁++[d]++[x]).length ≤ 1025 := by
      have hsize := hshape.size
      rw [hsplit, length_append] at hsize
      rw [length_append, length_singleton]
      omega
    have hanswer := readdir_plain (hs.of_fails (by rw [hw']; rfl)) hchain hvisited hlen hlongB hendedB
    rw [hhead] at hanswer
    rw [hanswer, hB, entriesOf_append, entriesOf_cons hlive, entriesOf_zeros hzeros, hnew]

theorem Enters.others (h : v.Enters (A.setFat f eoc) B L entry) (hfiles : v.Files A files)
    (hD : D ∈ files) (hsub : ∀ c ∈ L, c ∈ D) (hf : A.Free f) :
    ∀ F ∈ files, F ≠ D → v.FileChain B F ∧ B.contents F = A.contents F := by
  intro F hF hne
  have hchain := hfiles.chains F hF
  have hapart : ∀ c ∈ F, ∀ d ∈ L, c ≠ d := by
    rintro c hc _ hd rfl
    exact hfiles.disjoint hF hD hne hc (hsub c hd)
  have hcf : ∀ c ∈ F, c ≠ f := by
    rintro c hc rfl
    exact hchain.used hc hf
  have hsame : (∀ c ∈ F, B.fat c = A.fat c) ∧ ∀ c ∈ F, B.data c = A.data c := by
    cases h with
    | slot L₁ e L₂ i hL _ _ hB =>
      subst hB
      refine ⟨fun c hc => update_of_ne (hcf c hc) _ _,fun c hc => ?_⟩
      exact update_of_ne (hapart c hc e (by rw [hL]; simp)) _ _
    | cluster L₁ d x hL _ _ hfree hB =>
      subst hB
      have hcx : ∀ c ∈ F, c ≠ x := by
        rintro c hc rfl
        exact hchain.used hc (View.free_setEoc.mp hfree).2
      refine ⟨fun c hc => ?_,fun c hc => update_of_ne (hcx c hc) _ _⟩
      exact (View.setFat_of_ne _ (hcx c hc) _).trans ((View.setFat_of_ne _
        (hapart c hc d (by rw [hL]; simp)) _).trans (A.setFat_of_ne (hcf c hc) _))
  refine ⟨Linked.congr hchain fun c hc => ?_,View.contents_congr hsame.2⟩
  rw [hsame.1 c hc]

theorem Enters.file (h : v.Enters (A.setFat f eoc) B L entry) (hf : 2 ≤ f ∧ f < v.total)
    (hL : f ∉ L) : v.FileChain B [f] := by
  refine fileChain_single hf ?_
  cases h with
  | slot L₁ e L₂ i _ _ _ hB =>
    subst hB
    exact update_self _ _ _
  | cluster L₁ d x hsplit _ _ hfree hB =>
    subst hB
    have hfx : f ≠ x := (View.free_setEoc.mp hfree).1.symm
    have hfd : f ≠ d := by
      rintro rfl
      exact hL (by rw [hsplit]; simp)
    exact (View.setFat_of_ne _ hfx _).trans ((View.setFat_of_ne _ hfd _).trans (A.setFat_self f eoc))

variable (v) in
/-- Two clusters are free. -/
def TwoFree (A : View) : Prop :=
  ∃ x y, x ≠ y ∧ (2 ≤ x ∧ x < v.total ∧ A.Free x) ∧ 2 ≤ y ∧ y < v.total ∧ A.Free y

theorem createFileEntry_run (isDir : Bool) (hs : (v.view w).Sound) (hfiles : v.Files (v.view w) files)
    (hD : D ∈ files) (hshape : v.Shape (v.view w) D) (hname : ValidName name)
    (hfree : v.TwoFree (v.view w)) :
    ∃ f w' D' L T, v.fs.createFileEntry v.disk (D.headD 0) name isDir w = .ok f w' ∧
      (v.view w).Free f ∧ v.FileChain (v.view w') [f] ∧
      (∀ F ∈ files, F ≠ D → v.FileChain (v.view w') F ∧
        (v.view w').contents F = (v.view w).contents F) ∧
      D = L++T ∧ (v.view w).visited D = L ∧ v.Outcome w' (v.view w) (v.view w') D L D'
        ⟨name.map toAsciiUppercase,f,0,isDir⟩ := by
  have hDA := hfiles.chains D hD
  cases hDc : D with
  | nil =>
    rw [hDc] at hDA
    exact (hDA.chain.ne_nil rfl).elim
  | cons c l =>
    rw [← hDc]
    have hDA' := hDA
    rw [hDc] at hDA'
    obtain ⟨R,T,hvisited,hl,hseen⟩ := hDA'.visited_seen
    have hsplit : D = c::R++T := by rw [hDc, hl, cons_append]
    rw [← hDc] at hvisited
    have hsub : ∀ y ∈ c::R, y ∈ D := fun y hy => hsplit ▸ mem_append_left T hy
    have hreturns : Returns (v.fs.createFileEntry v.disk (D.headD 0) name isDir) w
        fun f w' => (2 ≤ f ∧ f < v.total) ∧ (v.view w).Free f ∧
          v.Enters ((v.view w).setFat f eoc) (v.view w') (c::R) (newEntry (to83 name) isDir f) := by
      rw [hDc]
      refine Ends.fails (createFileEntry_walk rfl hseen.walk) ?_
      obtain ⟨x,y,hxy,hx,hy⟩ := hfree
      rintro e w' (hns | ⟨_,hnone⟩ | ⟨f,_,_,hfull⟩)
      · exact hns hs
      · exact hnone x hx.1 hx.2.1 hx.2.2
      · by_cases hxf : x = f
        · have hyf : y ≠ f := fun hyf => hxy (hxf.trans hyf.symm)
          exact hfull.clusters y hy.1 hy.2.1 (View.free_setEoc.mpr ⟨hyf,hy.2.2⟩)
        · exact hfull.clusters x hx.1 hx.2.1 (View.free_setEoc.mpr ⟨hxf,hx.2.2⟩)
    obtain ⟨f,w',hok,hf,hffree,henters⟩ := hreturns.exists
    have hfD : f ∉ D := fun hmem => hDA.used hmem hffree
    have hsmall := v.total_small
    have h32 : f < 2^32 := by omega
    obtain ⟨h8,h3⟩ := to83_lengths name
    have hlen : (newEntry (to83 name) isDir f).length = 32 := length_newEntry h8 h3
    obtain ⟨hlive,hnew⟩ : (IsLive (newEntry (to83 name) isDir f) ∧ _) ∧ _ :=
      newEntry_live hname h32
    have hothers := henters.others hfiles hD hsub hffree
    have hfile := henters.file hf fun hmem => hfD (hsub f hmem)
    cases henters with
    | slot L₁ e L₂ i hL hbefore hslot hB =>
      rw [hL] at hvisited hsplit
      exact ⟨f,w',D,_,T,hok,hffree,hfile,hothers,hsplit,hvisited,
        outcome_slot rfl hs hshape hDA hvisited hsplit hfD hbefore hslot hlen hlive hnew hB⟩
    | cluster L₁ d x hL hfull hx hxfree hB =>
      rw [hL] at hvisited hsplit hseen hfull
      have hxD : x ∉ D := fun hmem => hDA.used hmem (View.free_setEoc.mp hxfree).2
      exact ⟨f,w',_,_,T,hok,hffree,hfile,hothers,hsplit,hvisited,
        outcome_cluster hs hshape hsplit hseen hfD hxD hfull hx hlen hlive hnew hB⟩

theorem entriesOf_eq_nil {es : List (List UInt8)} :
    entriesOf es = [] ↔ ∀ e ∈ es, ¬(IsLive e ∧ ¬IsHidden e) := by
  unfold entriesOf
  rw [map_eq_nil_iff, filter_eq_nil_iff]
  simp only [decide_eq_true_eq]

theorem unseen_iff (hsplit : D = L++T) (hvisited : A.visited D = L) :
    entriesOf (v.dirSlots A T) = [] ↔
      ∀ k < D.length*v.perCluster, (∃ j < k/v.perCluster, 2^28 ≤ A.fat (D.getD j 0)) →
        ¬(IsLive (v.dirSlot A D k) ∧ ¬IsHidden (v.dirSlot A D k)) := by
  have hslots : v.dirSlots A D = v.dirSlots A L++v.dirSlots A T := by rw [hsplit, dirSlots_append]
  have hlenL : (v.dirSlots A L).length = L.length*v.perCluster := length_dirSlots
  -- a slot is behind the visited clusters when a link in front of it has a reserved bit set
  have hbehind : ∀ k < D.length*v.perCluster,
      (∃ j < k/v.perCluster, 2^28 ≤ A.fat (D.getD j 0)) ↔ L.length*v.perCluster ≤ k := by
    intro k hk
    have hcluster : k/v.perCluster < L.length ↔ k < L.length*v.perCluster :=
      Nat.div_lt_iff_lt_mul v.perCluster_pos
    have hclean := lt_length_visited (A := A) (D := D) (j := k/v.perCluster)
    rw [hvisited, and_iff_right (cluster_lt hk), hcluster] at hclean
    rw [← not_lt, hclean]
    simp only [not_forall, not_lt, exists_prop]
  rw [entriesOf_eq_nil]
  constructor
  · intro hall k hk hdirty
    refine hall _ ?_
    have hle := (hbehind k hk).mp hdirty
    have hkD : k < (v.dirSlots A D).length := by rwa [length_dirSlots]
    unfold dirSlot
    rw [hslots] at hkD ⊢
    rw [getD_append_right _ _ _ _ (by rwa [hlenL])]
    rw [length_append] at hkD
    rw [getD_eq_getElem _ _ (by omega)]
    exact getElem_mem _
  · intro hall e he
    obtain ⟨t,ht,rfl⟩ := getElem_of_mem he
    have hkD : L.length*v.perCluster+t < D.length*v.perCluster := by
      rw [← length_dirSlots (A := A) (D := D), hslots, length_append, hlenL]
      omega
    have hslot : v.dirSlot A D (L.length*v.perCluster+t) = (v.dirSlots A T)[t] := by
      unfold dirSlot
      rw [hslots, getD_append_right _ _ _ _ (by rw [hlenL]; omega), hlenL,
        Nat.add_sub_cancel_left, getD_eq_getElem _ _ ht]
    rw [← hslot]
    exact hall _ hkD ((hbehind _ hkD).mpr (Nat.le_add_right _ _))

/-- create_file_entry does what it should exactly when no file lies behind a link with a reserved bit
set and a directory of 1024 clusters has a free slot. -/
theorem create_ok_iff (hs : (v.view w).Sound) (hfiles : v.Files (v.view w) files)
    (hD : D ∈ files) (hshape : v.Shape (v.view w) D) (hname : ValidName name)
    (hfree : v.TwoFree (v.view w)) :
    v.Creates w files D name isDir ↔ v.Creatable (v.view w) D := by
  have hDA := hfiles.chains D hD
  obtain ⟨f,w',D',L,T,hok,hffree,hfile,hothers,hsplit,hvisited,hout⟩ :=
    createFileEntry_run isDir hs hfiles hD hshape hname hfree
  obtain ⟨xs,ys,hentries,hanswer⟩ := hout.lists
  have hall : entriesOf (v.dirSlots (v.view w) D) =
      entriesOf (v.dirSlots (v.view w) L)++entriesOf (v.dirSlots (v.view w) T) := by
    rw [hsplit, dirSlots_append, entriesOf_append]
  constructor
  · rintro ⟨f₂,w₂,hok₂,hcreated,xs₂,ys₂,hentries₂,hanswer₂⟩
    rw [hok] at hok₂
    cases hok₂
    refine ⟨(unseen_iff hsplit hvisited).mp ?_,?_⟩
    · -- both lists are one entry longer
      rw [hanswer, Except.ok.injEq] at hanswer₂
      have hlen := congrArg List.length hanswer₂
      have hlen₁ := congrArg List.length hentries
      have hlen₂ := congrArg List.length hentries₂
      rw [hall] at hlen₂
      simp only [length_append, length_cons] at hlen hlen₁ hlen₂
      exact eq_nil_of_length_eq_zero (by omega)
    · rintro ⟨hsize,hclean,hfull⟩
      have hL : L = D := by rw [← hvisited, visited_clean hclean]
      obtain ⟨D₂,hchain₂,hhead₂,hshape₂⟩ := hcreated.directory
      have hsame : D₂ = D' := by
        have hchain' := hout.chain
        have hhead := hout.head
        cases D₂ with
        | nil => exact (hchain₂.chain.ne_nil rfl).elim
        | cons y l₂ =>
          cases D' with
          | nil => exact (hchain'.chain.ne_nil rfl).elim
          | cons z l' =>
            have hyz : y = z := hhead₂.trans hhead.symm
            subst hyz
            rw [hchain₂.unique hchain']
      cases hout.grows with
      | inl hslot =>
        obtain ⟨_,e,he,hfree⟩ := hslot
        exact hfull e (hL ▸ he) hfree
      | inr hgrown =>
        have hle := hshape₂.size
        rw [hsame, hgrown.1, hL] at hle
        omega
  · intro hcond
    have hT := (unseen_iff hsplit hvisited).mpr hcond.seen
    refine ⟨f,w',hok,⟨hffree,hfile,⟨D',hout.chain,hout.head,?_,hout.noLong,hout.ended⟩,hothers⟩,
      xs,ys,?_,hanswer⟩
    · have hsize := hshape.size
      cases hout.grows with
      | inl hslot => rwa [hslot.1]
      | inr hgrown =>
        rw [hgrown.1]
        have hlen : D.length = L.length+T.length := by rw [hsplit, length_append]
        by_contra hbig
        have hTnil : T = [] := eq_nil_of_length_eq_zero (by omega)
        have hDL : L = D := by rw [hsplit, hTnil, append_nil]
        refine hcond.room ⟨by omega,fun j hj => ?_,fun e he => hgrown.2 e (hDL ▸ he)⟩
        have hclean := (lt_length_visited (A := v.view w) (D := D) (j := j+1)).mp
          (by rwa [hvisited, hDL])
        exact hclean.2 j (Nat.lt_succ_self j)
    · rw [hall, hT, append_nil, hentries]

end

/-! ## Two directories -/

theorem emptyRoot_slots : ∀ e ∈ small.dirSlots (small.view emptyRoot) [2], e.getD 0 0 = 0 := by
  decide +kernel

theorem emptyRoot_twoFree : small.TwoFree (small.view emptyRoot) :=
  ⟨3,4,by decide,⟨by decide,by decide,by decide +kernel⟩,by decide,by decide,by decide +kernel⟩

theorem validName_one {b : UInt8} (h : IsNameChar b) : ValidName [b] :=
  .base (by simp) fun _ hc => mem_singleton.mp hc ▸ h

/-- A file "a" in the empty root directory of a small volume. -/
theorem create_in_emptyRoot : small.Creates emptyRoot [[2]] [2] [0x61] false := by
  have hfiles : small.Files (small.view emptyRoot) [[2]] := by
    refine ⟨fun F hF => ?_,pairwise_singleton _ _⟩
    exact mem_singleton.mp hF ▸ emptyRoot_chain
  have hshape : small.Shape (small.view emptyRoot) [2] :=
    ⟨by decide,fun e he h0 => absurd (emptyRoot_slots e he) h0,
      pairwise_of_forall_mem_list fun _ _ e he _ => emptyRoot_slots e he⟩
  have hname : ValidName [0x61] := validName_one ⟨by decide,by decide,by decide⟩
  refine (create_ok_iff (fun _ => rfl) hfiles (mem_singleton.mpr rfl) hshape hname
    emptyRoot_twoFree).mpr ⟨?_,fun h => absurd h.1 (by decide)⟩
  intro k hk
  have hk0 : k/small.perCluster = 0 := Nat.div_eq_of_lt (by rwa [length_singleton, Nat.one_mul] at hk)
  rintro ⟨j,hj,_⟩
  rw [hk0] at hj
  cases hj

/-- A directory of two clusters, linked by an entry with a reserved bit set. All slots of the first
one are deleted, and the second one has a file "B". -/
def hiddenFile : Drives :=
  image [(520,toLe 4 0x10000003),(524,toLe 4 eoc),(2048,List.replicate 512 0xE5),
    (2560,newEntry (to83 [0x42]) false 0)]

theorem hiddenFile_chain : small.FileChain (small.view hiddenFile) [2,3] :=
  ⟨.cons (by decide +kernel) (.last (by decide +kernel)),by decide,by decide⟩

theorem hiddenFile_shape : small.Shape (small.view hiddenFile) [2,3] :=
  ⟨by decide,by decide +kernel,by decide +kernel⟩

theorem hiddenFile_entries :
    entriesOf (small.dirSlots (small.view hiddenFile) [2,3]) = [⟨[0x42],0,0,false⟩] := by
  decide +kernel

/-- After a file "A" is created, readdir lists it alone. -/
theorem hidden_file_not_listed : small.Files (small.view hiddenFile) [[2,3]] ∧
    small.Shape (small.view hiddenFile) [2,3] ∧ ValidName [0x41] ∧
      small.TwoFree (small.view hiddenFile) ∧
      entriesOf (small.dirSlots (small.view hiddenFile) [2,3]) = [⟨[0x42],0,0,false⟩] ∧
      (∃ f w', small.fs.createFileEntry small.disk 2 [0x41] false hiddenFile = .ok f w' ∧
        answer (small.fs.readdir small.disk 2) w' = .ok [⟨[0x41],f,0,false⟩]) ∧
      ¬small.Creates hiddenFile [[2,3]] [2,3] [0x41] false := by
  have hfiles : small.Files (small.view hiddenFile) [[2,3]] := by
    refine ⟨fun F hF => ?_,pairwise_singleton _ _⟩
    exact mem_singleton.mp hF ▸ hiddenFile_chain
  have hname : ValidName [0x41] := validName_one ⟨by decide,by decide,by decide⟩
  have hfree : small.TwoFree (small.view hiddenFile) :=
    ⟨4,5,by decide,⟨by decide,by decide,by decide +kernel⟩,by decide,by decide,by decide +kernel⟩
  have hok : small.fs.createFileEntry small.disk 2 [0x41] false hiddenFile = .ok 4 _ :=
    ok_of_answer (by decide +kernel)
  have hanswer : answer (small.fs.readdir small.disk 2)
      (after (small.fs.createFileEntry small.disk 2 [0x41] false) hiddenFile) =
        .ok [⟨[0x41],4,0,false⟩] := by
    decide +kernel
  refine ⟨hfiles,hiddenFile_shape,hname,hfree,hiddenFile_entries,⟨4,_,hok,hanswer⟩,?_⟩
  rintro ⟨f₂,w₂,hok₂,_,xs₂,ys₂,hentries₂,hanswer₂⟩
  obtain ⟨_,rfl⟩ : 4 = f₂ ∧ _ = w₂ := EStateM.Result.ok.inj (hok.symm.trans hok₂)
  rw [show answer (small.fs.readdir small.disk ([2,3].headD 0)) _ = _ from hanswer,
    Except.ok.injEq] at hanswer₂
  have hlen := congrArg List.length hanswer₂
  have hlen₂ := congrArg List.length (hiddenFile_entries.symm.trans hentries₂)
  simp only [length_append, length_cons, length_nil] at hlen hlen₂
  omega

/-! ## Listing a directory -/

/-- readdir returns one entry for each file of a directory exactly when no file lies behind a link with
a reserved bit set. -/
theorem readdir_lists_iff (hs : (v.view w).Sound) (hD : v.FileChain (v.view w) D)
    (hsize : D.length ≤ 1025)
    (hlong : ∀ e ∈ v.dirSlots (v.view w) D, e.getD 0 0 ≠ 0 → ¬IsLong e)
    (hended : (v.dirSlots (v.view w) D).Pairwise fun e e' => e.getD 0 0 = 0 → e'.getD 0 0 = 0) :
    answer (v.fs.readdir v.disk (D.headD 0)) w = .ok (entriesOf (v.dirSlots (v.view w) D)) ↔
      ∀ k < D.length*v.perCluster, (∃ j < k/v.perCluster, 2^28 ≤ (v.view w).fat (D.getD j 0)) →
        ¬(IsLive (v.dirSlot (v.view w) D k) ∧ ¬IsHidden (v.dirSlot (v.view w) D k)) := by
  obtain ⟨T,hsplit,_⟩ := exists_upTo (fun c => 2^28 ≤ (v.view w).fat c) D
  rw [← visited_eq] at hsplit
  have hslots : v.dirSlots (v.view w) D =
      v.dirSlots (v.view w) ((v.view w).visited D)++v.dirSlots (v.view w) T := by
    conv_lhs => rw [hsplit]
    exact dirSlots_append
  have hlen := congrArg List.length hsplit
  rw [length_append] at hlen
  rw [hslots] at hlong hended
  rw [readdir_plain hs hD rfl (by omega) ((forall_mem_append.mp hlong).1)
    (pairwise_append.mp hended).1, ← unseen_iff hsplit rfl, hslots, entriesOf_append,
    Except.ok.injEq, self_eq_append_right]

/-- The empty root directory of a small volume. -/
theorem readdir_lists_emptyRoot :
    answer (small.fs.readdir small.disk 2) emptyRoot =
      .ok (entriesOf (small.dirSlots (small.view emptyRoot) [2])) := by
  refine (readdir_lists_iff (D := [2]) (fun _ => rfl) emptyRoot_chain (by decide)
    (fun e he h0 => absurd (emptyRoot_slots e he) h0)
    (pairwise_of_forall_mem_list fun _ _ e he _ => emptyRoot_slots e he)).mpr ?_
  rintro k hk ⟨j,hj,_⟩
  have hk0 : k/small.perCluster < 1 := cluster_lt hk
  omega

/-- The file "B" is not listed. -/
theorem readdir_misses_file : small.FileChain (small.view hiddenFile) [2,3] ∧
    small.Shape (small.view hiddenFile) [2,3] ∧
      entriesOf (small.dirSlots (small.view hiddenFile) [2,3]) = [⟨[0x42],0,0,false⟩] ∧
      answer (small.fs.readdir small.disk 2) hiddenFile = .ok [] := by
  exact ⟨hiddenFile_chain,hiddenFile_shape,hiddenFile_entries,by decide +kernel⟩

end FatVolume

end Zohara.Fat32
