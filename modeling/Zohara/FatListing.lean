import Zohara.FatDelete
import Zohara.FatShell

/-!
# What readdir lists

readdir goes through the clusters of a directory one by one. From each cluster it takes the slots
up to the first one that ends the directory, and a file gets the long name that is collected from
the long-name slots directly in front of its slot, or its short name. So what a slot reports is a
function of the slots of its cluster up to this one. The slots of a directory are numbered through,
and every entry that readdir returns is labelled with the number of its slot.

The directory is a file's chain on a drive that works. readdir reads the part of the chain that the
code sees, and at most 1025 clusters of it.
-/
namespace Zohara.Fat32
open FallibleState IdeDisk ElfImage LinkedChain List Option Function Nat

/-! ## The entries of a cluster -/

/-- A slot of a long name. -/
def IsLong (e : List UInt8) : Prop := e.getD 0 0 ≠ 0xE5 ∧ e.getD 11 0 = 0x0F

instance : DecidablePred IsLong := fun e => inferInstanceAs (Decidable (_ ∧ _))

/-- A hidden file or a file of the system. -/
def IsHidden (e : List UInt8) : Prop := e.getD 11 0 &&& 0x02 ≠ 0 ∨ e.getD 11 0 &&& 0x04 ≠ 0

instance : DecidablePred IsHidden := fun e => inferInstanceAs (Decidable (_ ∨ _))

/-- A slot of a file or a directory. -/
def IsLive (e : List UInt8) : Prop := e.getD 0 0 ≠ 0 ∧ e.getD 0 0 ≠ 0xE5 ∧ e.getD 11 0 ≠ 0x0F

instance : DecidablePred IsLive := fun e => inferInstanceAs (Decidable (_ ∧ _))

/-- The characters that are taken from the long-name slots at the end of a list. -/
def frontText (es : List (List UInt8)) : List UInt8 :=
  (es.reverse.takeWhile fun e => decide (IsLong e)).reverse.flatMap longChars

/-- The entry of a slot under a name. -/
def entryOf (name e : List UInt8) : DirEntry32 where
  name := name
  cluster := FatVolume.startCluster e
  size := field e 28 4
  isDir := e.getD 11 0 &&& 0x10 ≠ 0

/-- The entry that is returned for a slot of a cluster. -/
def reportAt (es : List (List UInt8)) (i : ℕ) : Option DirEntry32 :=
  if (∀ e ∈ es.take i, e.getD 0 0 ≠ 0) ∧ IsLive (es.getD i []) ∧ ¬IsHidden (es.getD i []) then
    let text := frontText (es.take i)
    some (entryOf (if text ≠ [] then text else shortName (es.getD i [])) (es.getD i []))
  else none

section
variable {es pre : List (List UInt8)} {e : List UInt8} {i : ℕ}

theorem frontText_nil : frontText [] = [] := rfl

theorem frontText_long (h : IsLong e) : frontText (es++[e]) = frontText es++longChars e := by
  have htake : ((e::es.reverse).takeWhile fun e => decide (IsLong e)) =
      e::es.reverse.takeWhile fun e => decide (IsLong e) :=
    takeWhile_cons_of_pos (decide_eq_true h)
  unfold frontText
  rw [reverse_append, reverse_singleton, singleton_append, htake,
    reverse_cons, flatMap_append, flatMap_singleton]

theorem frontText_other (h : ¬IsLong e) : frontText (es++[e]) = [] := by
  have htake : ((e::es.reverse).takeWhile fun e => decide (IsLong e)) = [] :=
    takeWhile_cons_of_neg (by rwa [decide_eq_true_eq])
  unfold frontText
  rw [reverse_append, reverse_singleton, singleton_append, htake]
  rfl

theorem getD_middle : (pre++e::es).getD pre.length [] = e := by
  rw [getD_append_right _ _ _ _ le_rfl, Nat.sub_self, getD_cons_zero]

theorem reportAt_ended (he : e ∈ es.take i) (h0 : e.getD 0 0 = 0) : reportAt es i = none :=
  if_neg fun h => h.1 e he h0

theorem reportAt_middle (hpre : ∀ x ∈ pre, x.getD 0 0 ≠ 0) :
    reportAt (pre++e::es) pre.length = if IsLive e ∧ ¬IsHidden e then
      some (entryOf (if frontText pre ≠ [] then frontText pre else shortName e) e) else none := by
  unfold reportAt
  rw [getD_middle, take_left]
  by_cases he : IsLive e ∧ ¬IsHidden e
  · rw [if_pos ⟨hpre,he⟩, if_pos he]
  · rw [if_neg fun h => he h.2, if_neg he]

theorem parseEntries_front (hpre : ∀ x ∈ pre, x.getD 0 0 ≠ 0) :
    parseEntries es (frontText pre) =
      (List.range es.length).filterMap fun i => reportAt (pre++es) (pre.length+i) := by
  induction es generalizing pre with
  | nil => rfl
  | cons e es ih =>
    have hsplit : (List.range (e::es).length).filterMap
        (fun i => reportAt (pre++e::es) (pre.length+i)) =
        (reportAt (pre++e::es) pre.length).toList++(List.range es.length).filterMap
          fun i => reportAt (pre++[e]++es) ((pre++[e]).length+i) := by
      rw [length_cons, range_succ_eq_map, filterMap_cons, filterMap_map,
        append_assoc, singleton_append, length_append, length_singleton]
      have hshift : (fun i => reportAt (pre++e::es) (pre.length+i)) ∘ Nat.succ =
          fun i => reportAt (pre++e::es) (pre.length+1+i) := by
        funext i
        rw [comp_apply, succ_eq_add_one, add_comm i 1, add_assoc]
      rw [hshift, add_zero]
      cases reportAt (pre++e::es) pre.length with
      | none | some x => rfl
    rw [hsplit, reportAt_middle hpre, parseEntries]
    by_cases h0 : e.getD 0 0 = 0
    · have hnone : ∀ i, reportAt (pre++[e]++es) ((pre++[e]).length+i) = none := by
        intro i
        refine reportAt_ended (e := e) ?_ h0
        rw [take_length_add_append]
        simp
      rw [if_pos h0, if_neg fun h => h.1.1 h0]
      simp only [hnone, filterMap_none, toList_none, append_nil]
    · have hpre' : ∀ x ∈ pre++[e], x.getD 0 0 ≠ 0 := by
        intro x hx
        cases mem_append.mp hx with
        | inl hmem => exact hpre x hmem
        | inr hmem => exact mem_singleton.mp hmem ▸ h0
      rw [if_neg h0, ← ih hpre']
      by_cases h5 : e.getD 0 0 = 0xE5
      · rw [if_pos h5, if_neg fun h => h.1.2.1 h5, frontText_other fun h => h.1 h5]
        rfl
      · rw [if_neg h5]
        by_cases hF : e.getD 11 0 = 0x0F
        · rw [if_pos hF, if_neg fun h => h.1.2.2 hF, frontText_long ⟨h5,hF⟩]
          rfl
        · rw [if_neg hF, frontText_other fun h => hF h.2]
          dsimp only
          by_cases hh : e.getD 11 0 &&& 0x02 ≠ 0 ∨ e.getD 11 0 &&& 0x04 ≠ 0
          · rw [if_pos hh, if_neg fun h : IsLive e ∧ ¬IsHidden e => h.2 hh]
            rfl
          · have he : IsLive e ∧ ¬IsHidden e := ⟨⟨h0,h5,hF⟩,hh⟩
            rw [if_neg hh, if_pos he]
            rfl

theorem parseEntries_reports (es : List (List UInt8)) :
    parseEntries es [] = (List.range es.length).filterMap (reportAt es) := by
  have hall : parseEntries es (frontText []) = (List.range es.length).filterMap fun i =>
      reportAt ([]++es) (([] : List (List UInt8)).length+i) :=
    parseEntries_front fun x hx => absurd hx not_mem_nil
  simpa only [frontText_nil, nil_append, length_nil, zero_add] using hall

end

/-! ## The slots of a directory -/

/-- The part of a chain up to the first link with a reserved bit set. -/
def View.visited (A : View) : List ℕ → List ℕ
  | [] => []
  | c::l => if 2^28 ≤ A.fat c then [c] else c::A.visited l

namespace FatVolume
variable (v : FatVolume)

/-- The slots of a cluster. -/
def perCluster : ℕ := v.size/32

/-- The slots of the clusters of a directory, one after the other. -/
def dirSlots (A : View) (D : List ℕ) : List (List UInt8) :=
  D.flatMap fun c => slots (A.data c) v.perCluster

def dirSlot (A : View) (D : List ℕ) (k : ℕ) : List UInt8 := (v.dirSlots A D).getD k []

/-- The entries that readdir returns from the clusters of a list, with the numbers of their slots. -/
def reports (A : View) (D : List ℕ) : List (ℕ × DirEntry32) :=
  (List.range D.length).flatMap fun j => (List.range v.perCluster).filterMap fun i =>
    (reportAt (slots (A.data (D.getD j 0)) v.perCluster) i).map fun x => (j*v.perCluster+i,x)

variable {v : FatVolume} {w : Drives} {A : View} {c k n : ℕ} {D l R : List ℕ}

theorem perCluster_pos : 0 < v.perCluster := by
  have hspc := v.fs.clusters
  unfold perCluster size
  omega

theorem size_eq : v.size = v.perCluster*32 := by
  unfold perCluster size
  omega

theorem length_slots (buf : List UInt8) (n : ℕ) : (slots buf n).length = n := by
  rw [slots, length_map, length_range]

theorem getD_slots {buf : List UInt8} {i n : ℕ} (h : i < n) : (slots buf n).getD i [] = slot buf i := by
  rw [getD_eq_getElem _ _ (by rwa [length_slots])]
  simp only [slots, getElem_map, getElem_range]

theorem forall_mem_take {es : List (List UInt8)} {P : List UInt8 → Prop} (h : n ≤ es.length) :
    (∀ e ∈ es.take n, P e) ↔ ∀ i < n, P (es.getD i []) := by
  constructor
  · intro hall i hi
    rw [getD_eq_getElem es [] (hi.trans_le h)]
    exact hall _ (mem_take_iff_getElem.mpr ⟨i,Nat.lt_min.mpr ⟨hi,hi.trans_le h⟩,rfl⟩)
  · intro hall e he
    obtain ⟨i,hi,rfl⟩ := mem_take_iff_getElem.mp he
    have hP := hall i (Nat.lt_min.mp hi).1
    rwa [getD_eq_getElem es [] (Nat.lt_min.mp hi).2] at hP

theorem dirSlots_nil : v.dirSlots A [] = [] := rfl

theorem dirSlots_cons : v.dirSlots A (c::D) = slots (A.data c) v.perCluster++v.dirSlots A D :=
  flatMap_cons

theorem dirSlots_append : v.dirSlots A (D++R) = v.dirSlots A D++v.dirSlots A R :=
  flatMap_append

theorem length_dirSlots : (v.dirSlots A D).length = D.length*v.perCluster := by
  induction D with
  | nil => rw [dirSlots_nil, length_nil, length_nil, zero_mul]
  | cons c D ih =>
    rw [dirSlots_cons, length_append, length_slots, ih, length_cons, succ_mul,
      add_comm]

variable {j i : ℕ}

theorem dirSlot_eq (hj : j < D.length) (hi : i < v.perCluster) :
    v.dirSlot A D (j*v.perCluster+i) = slot (A.data (D.getD j 0)) i := by
  unfold dirSlot
  induction D generalizing j with
  | nil => cases hj
  | cons c D ih =>
    have hlen : (slots (A.data c) v.perCluster).length = v.perCluster := length_slots _ _
    rw [dirSlots_cons]
    cases j with
    | zero =>
      rw [zero_mul, zero_add, getD_append _ _ _ _ (by omega), getD_slots hi,
        getD_cons_zero]
    | succ j =>
      rw [getD_append_right _ _ _ _ (by rw [hlen, succ_mul]; omega), hlen,
        show (j+1)*v.perCluster+i-v.perCluster = j*v.perCluster+i by rw [succ_mul]; omega,
        ih (lt_of_succ_lt_succ hj), getD_cons_succ]

theorem number_split (v : FatVolume) (k : ℕ) :
    k%v.perCluster < v.perCluster ∧ k/v.perCluster*v.perCluster+k%v.perCluster = k :=
  ⟨mod_lt _ v.perCluster_pos,div_add_mod' k v.perCluster⟩

theorem number_eq (hi : i < v.perCluster) :
    (j*v.perCluster+i)/v.perCluster = j ∧ (j*v.perCluster+i)%v.perCluster = i := by
  rw [add_comm, add_mul_div_right _ _ v.perCluster_pos, div_eq_of_lt hi, zero_add,
    add_mul_mod_self_right, mod_eq_of_lt hi]
  exact ⟨rfl,rfl⟩

theorem number_lt (hi : i < v.perCluster) : j*v.perCluster+i < n*v.perCluster ↔ j < n := by
  constructor
  · intro h
    by_contra hle
    have hmul := Nat.mul_le_mul_right v.perCluster (not_lt.mp hle)
    omega
  · intro h
    have hmul := Nat.mul_le_mul_right v.perCluster (succ_le_of_lt h)
    rw [succ_mul] at hmul
    omega

theorem mem_reports {x : DirEntry32} (hi : i < v.perCluster) :
    (j*v.perCluster+i,x) ∈ v.reports A D ↔
      j < D.length ∧ reportAt (slots (A.data (D.getD j 0)) v.perCluster) i = some x := by
  unfold reports
  simp only [mem_flatMap, mem_filterMap, mem_range, map_eq_some_iff,
    Prod.mk.injEq]
  constructor
  · rintro ⟨j',hj',i',hi',y,hy,hnumber,rfl⟩
    have hjj : j' = j := by
      have hdiv := congrArg (· / v.perCluster) hnumber
      rwa [(number_eq hi').1, (number_eq hi).1] at hdiv
    obtain rfl : i' = i := by
      rw [hjj] at hnumber
      omega
    rw [← hjj]
    exact ⟨hj',hy⟩
  · rintro ⟨hj,hx⟩
    exact ⟨j,hj,i,hi,x,hx,rfl,rfl⟩

theorem lt_of_mem_reports {p : ℕ × DirEntry32} (h : p ∈ v.reports A D) :
    p.1 < D.length*v.perCluster := by
  obtain ⟨hi,hsplit⟩ := v.number_split p.1
  have hp : (p.1/v.perCluster*v.perCluster+p.1%v.perCluster,p.2) ∈ v.reports A D := by
    rwa [hsplit]
  rw [← hsplit, number_lt hi]
  exact ((mem_reports hi).mp hp).1

theorem listed_reports : D.flatMap (v.listed A) = (v.reports A D).map Prod.snd := by
  have hD : D = (List.range D.length).map fun j => D.getD j 0 := by
    apply ext_getElem
    · rw [length_map, length_range]
    · intro j hj _
      rw [getElem_map, getElem_range, getD_eq_getElem _ _ hj]
  have hcluster : ∀ j, v.listed A (D.getD j 0) = ((List.range v.perCluster).filterMap fun i =>
      (reportAt (slots (A.data (D.getD j 0)) v.perCluster) i).map
        fun x => (j*v.perCluster+i,x)).map Prod.snd := by
    intro j
    rw [map_filterMap]
    simp only [Option.map_map, comp_def, Option.map_id_fun', id]
    have hparse := parseEntries_reports (slots (A.data (D.getD j 0)) v.perCluster)
    rwa [length_slots] at hparse
  rw [reports, map_flatMap]
  conv => lhs; rw [hD, flatMap_map]
  simp only [hcluster]

/-! ## The walk of readdir -/

theorem visited_cons : A.visited (c::l) = if 2^28 ≤ A.fat c then [c] else c::A.visited l := rfl

theorem lt_length_visited {j : ℕ} :
    j < (A.visited D).length ↔ j < D.length ∧ ∀ t < j, A.fat (D.getD t 0) < 2^28 := by
  induction D generalizing j with
  | nil => exact iff_of_false (not_lt_zero _) fun h => absurd h.1 (not_lt_zero _)
  | cons c D ih =>
    rw [visited_cons]
    cases j with
    | zero =>
      refine iff_of_true ?_ ⟨succ_pos _,fun t ht => absurd ht (not_lt_zero _)⟩
      split
      · exact one_pos
      · exact succ_pos _
    | succ j =>
      by_cases hdirty : 2^28 ≤ A.fat c
      · rw [if_pos hdirty, length_singleton]
        refine iff_of_false (by omega) fun h => ?_
        exact absurd (h.2 0 (succ_pos j)) hdirty.not_gt
      · rw [if_neg hdirty, length_cons, length_cons, succ_lt_succ_iff, ih,
          succ_lt_succ_iff]
        refine and_congr_right fun _ => ⟨fun h t ht => ?_,fun h t ht => ?_⟩
        · cases t with
          | zero => exact not_le.mp hdirty
          | succ t => exact h t (lt_of_succ_lt_succ ht)
        · exact h (t+1) (succ_lt_succ ht)

theorem getD_visited {j : ℕ} (h : j < (A.visited D).length) :
    (A.visited D).getD j 0 = D.getD j 0 := by
  induction D generalizing j with
  | nil => cases h
  | cons c D ih =>
    rw [visited_cons] at h ⊢
    by_cases hdirty : 2^28 ≤ A.fat c
    · rw [if_pos hdirty] at h ⊢
      have hj : j = 0 := lt_one_iff.mp h
      rw [hj, getD_cons_zero, getD_cons_zero]
    · rw [if_neg hdirty] at h ⊢
      cases j with
      | zero => rw [getD_cons_zero, getD_cons_zero]
      | succ j =>
        rw [getD_cons_succ, getD_cons_succ, ih (lt_of_succ_lt_succ h)]

theorem visited_eq (A : View) (l : List ℕ) : A.visited l = upTo (fun c => 2^28 ≤ A.fat c) l := by
  induction l with
  | nil => rfl
  | cons c l ih =>
    rw [visited_cons, ih]
    rfl

theorem exists_visited (A : View) (c : ℕ) (l : List ℕ) :
    ∃ R T, A.visited (c::l) = c::R ∧ l = R++T := by
  rw [visited_eq]
  exact exists_upTo_cons _ c l

theorem FileChain.visited_seen (h : v.FileChain A (c::l)) :
    ∃ R T, A.visited (c::l) = c::R ∧ l = R++T ∧ v.Seen A (c::R) := by
  obtain ⟨R,T,hR,hl⟩ := exists_visited A c l
  refine ⟨R,T,hR,hl,?_⟩
  rw [← hR, visited_eq]
  exact h.seen_upTo

/-- The clusters that readdir reads. -/
def readClusters (A : View) (D : List ℕ) : List ℕ := (A.visited D).take 1025

theorem lt_length_readClusters {j : ℕ} : j < (readClusters A D).length ↔
    j < 1025 ∧ j < D.length ∧ ∀ t < j, A.fat (D.getD t 0) < 2^28 := by
  rw [readClusters, length_take, Nat.lt_min, lt_length_visited]

theorem getD_readClusters {j : ℕ} (h : j < (readClusters A D).length) :
    (readClusters A D).getD j 0 = D.getD j 0 := by
  unfold readClusters at h ⊢
  rw [length_take, Nat.lt_min] at h
  rw [getD_eq_getElem?_getD, getElem?_take_of_lt h.1, ← getD_eq_getElem?_getD,
    getD_visited h.2]

theorem length_readClusters_le : (readClusters A D).length ≤ D.length := by
  by_contra hlt
  exact absurd (lt_length_readClusters.mp (not_le.mp hlt)).2.1 (lt_irrefl _)

theorem readdir_ends (hw : v.view w = A) (hD : v.FileChain A D) :
    Ends (v.fs.readdir v.disk (D.headD 0)) w
      (fun es w' => v.view w' = A ∧ es = (v.reports A (readClusters A D)).map Prod.snd)
      fun _ _ => ¬A.Sound := by
  cases D with
  | nil => exact (hD.chain.ne_nil rfl).elim
  | cons c l =>
    obtain ⟨R,_,hvisited,_,hseen⟩ := hD.visited_seen
    unfold readClusters
    rw [← listed_reports, hvisited]
    exact readdirFrom_seen hw hseen

theorem readdir_answer (hs : (v.view w).Sound) (hD : v.FileChain (v.view w) D) :
    answer (v.fs.readdir v.disk (D.headD 0)) w =
      .ok ((v.reports (v.view w) (readClusters (v.view w) D)).map Prod.snd) := by
  have hreturns : Returns (v.fs.readdir v.disk (D.headD 0)) w fun es _ =>
      es = (v.reports (v.view w) (readClusters (v.view w) D)).map Prod.snd :=
    Ends.mono (readdir_ends rfl hD) (fun _ _ h => h.2) fun _ _ hns => hns hs
  exact hreturns.answer

/-! ## The slots that are reported -/

variable (v) in
/-- The slot is in one of the first 1025 clusters, no link in front of it has a reserved bit set, no
slot in front of it in its cluster ends the directory, and it is not hidden. -/
structure Reached (A : View) (D : List ℕ) (k : ℕ) : Prop where
  depth : k/v.perCluster < 1025
  links : ∀ j < k/v.perCluster, A.fat (D.getD j 0) < 2^28
  before : ∀ i < k%v.perCluster, (v.dirSlot A D (k/v.perCluster*v.perCluster+i)).getD 0 0 ≠ 0
  visible : ¬IsHidden (v.dirSlot A D k)

variable (v) in
/-- The slots of the cluster of a slot that are in front of it. -/
def slotsBefore (A : View) (D : List ℕ) (k : ℕ) : List (List UInt8) :=
  (slots (A.data (D.getD (k/v.perCluster) 0)) v.perCluster).take (k%v.perCluster)

variable (v) in
/-- The name under which a slot is reported. -/
def reportedName (A : View) (D : List ℕ) (k : ℕ) : List UInt8 :=
  if frontText (v.slotsBefore A D k) ≠ [] then frontText (v.slotsBefore A D k)
  else shortName (v.dirSlot A D k)

theorem cluster_lt (hk : k < D.length*v.perCluster) : k/v.perCluster < D.length :=
  Nat.div_lt_of_lt_mul (by rwa [mul_comm])

theorem getD_cluster {i : ℕ} (hk : k < D.length*v.perCluster) (hi : i < v.perCluster) :
    (slots (A.data (D.getD (k/v.perCluster) 0)) v.perCluster).getD i [] =
      v.dirSlot A D (k/v.perCluster*v.perCluster+i) := by
  rw [getD_slots hi, dirSlot_eq (cluster_lt hk) hi]

theorem mem_readdir_reports {x : DirEntry32} (hk : k < D.length*v.perCluster) :
    (k,x) ∈ v.reports A (readClusters A D) ↔ v.Reached A D k ∧ IsLive (v.dirSlot A D k) ∧
      x = entryOf (v.reportedName A D k) (v.dirSlot A D k) := by
  obtain ⟨hi,hsplit⟩ := v.number_split k
  have hbefore : (∀ e ∈ v.slotsBefore A D k, e.getD 0 0 ≠ 0) ↔ ∀ i < k%v.perCluster,
      (v.dirSlot A D (k/v.perCluster*v.perCluster+i)).getD 0 0 ≠ 0 := by
    rw [slotsBefore, forall_mem_take (by rw [length_slots]; exact hi.le)]
    refine forall₂_congr fun i hlt => ?_
    rw [getD_cluster hk (hlt.trans hi)]
  have hslot := getD_cluster (A := A) hk hi
  have hmem : (k,x) ∈ v.reports A (readClusters A D) ↔
      k/v.perCluster < (readClusters A D).length ∧
        reportAt (slots (A.data ((readClusters A D).getD (k/v.perCluster) 0)) v.perCluster)
          (k%v.perCluster) = some x := by
    rw [← mem_reports hi, hsplit]
  rw [hsplit] at hslot
  rw [hmem]
  constructor
  · rintro ⟨hread,hreport⟩
    rw [getD_readClusters hread] at hreport
    obtain ⟨hdepth,_,hlinks⟩ := lt_length_readClusters.mp hread
    unfold reportAt at hreport
    rw [hslot] at hreport
    split at hreport
    · rename_i hcond
      refine ⟨⟨hdepth,hlinks,hbefore.mp hcond.1,hcond.2.2⟩,hcond.2.1,?_⟩
      exact (some.inj hreport).symm
    · cases hreport
  · rintro ⟨hreached,hlive,rfl⟩
    have hread := lt_length_readClusters.mpr ⟨hreached.depth,cluster_lt hk,hreached.links⟩
    refine ⟨hread,?_⟩
    rw [getD_readClusters hread, reportAt, hslot,
      if_pos ⟨hbefore.mpr hreached.before,hlive,hreached.visible⟩]
    rfl

end FatVolume

end Zohara.Fat32
