import Zohara.FatListing

/-!
# Listing and deleting in one directory

delete_file_entry stops at the first slot whose first byte is zero, in whatever cluster it is. For
readdir such a slot only ends its own cluster, and the clusters behind it are listed too. The two
agree on a directory when nothing is left in these clusters that readdir lists. Apart from that
readdir gives up after 1025 clusters, and a deletion fails when the chain of the file, from the start
that is read, comes to a bad cluster.

The directory is any chain on a drive that works, with any slots. The files are those in front of
the first slot that ends the directory.
-/
namespace Zohara.Fat32
open ByteMemory FallibleState IdeDisk List

/-- The 8.3 name of a slot. -/
def HasName (short : List UInt8 × List UInt8) (e : List UInt8) : Prop :=
  e.take 8 = short.1 ∧ (e.drop 8).take 3 = short.2

instance (short : List UInt8 × List UInt8) : DecidablePred (HasName short) := fun e =>
  inferInstanceAs (Decidable (_ ∧ _))

theorem HasName.take_eq {short : List UInt8 × List UInt8} {e e' : List UInt8} (h : HasName short e)
    (h' : HasName short e') : e.take 11 = e'.take 11 := by
  have hsplit : ∀ e : List UInt8, e.take (8+3) = e.take 8++(e.drop 8).take 3 := fun e => take_add
  rw [hsplit e, hsplit e', h.1, h.2, h'.1, h'.2]

/-- A slot at which the search for a name stops. -/
def Hit (short : List UInt8 × List UInt8) (e : List UInt8) : Prop :=
  e.getD 0 0 = 0 ∨ e.getD 0 0 ≠ 0xE5 ∧ HasName short e

namespace FatVolume
variable {v : FatVolume} {w : Drives} {A : View} {short : List UInt8 × List UInt8} {buf : List UInt8}
  {c e i k n : ℕ} {D R L₁ L₂ : List ℕ}

theorem clusterSize_slots : v.fs.clusterSize/32 = v.perCluster := by
  rw [v.clusterSize_eq, perCluster]

theorem matchSlot_eq_some : v.fs.matchSlot buf short = some i ↔
    i < v.perCluster ∧ Hit short (slot buf i) ∧ ∀ t < i, ¬Hit short (slot buf t) := by
  unfold Fat32Fs.matchSlot Hit HasName
  rw [clusterSize_slots, find?_range_eq_some]
  simp only [decide_eq_true_eq, mem_range, Bool.not_eq_true', decide_eq_false_iff_not,
    getD_slot (by decide : 0 < 32), Nat.add_zero]
  tauto

theorem matchSlot_eq_none : v.fs.matchSlot buf short = none ↔
    ∀ i < v.perCluster, ¬Hit short (slot buf i) := by
  unfold Fat32Fs.matchSlot Hit HasName
  rw [clusterSize_slots, find?_range_eq_none]
  simp only [Bool.not_eq_true', decide_eq_false_iff_not, getD_slot (by decide : 0 < 32),
    Nat.add_zero]

/-! ## The search of delete_file_entry -/

variable (v) in
/-- The name is found, and the chain of its file can be freed. -/
def Found (A : View) (short : List UInt8 × List UInt8) (L : List ℕ) : Prop :=
  ∃ L₁ e L₂ i, L = L₁++e::L₂ ∧ v.Entry A short L₁ e i ∧ v.Frees A (deletedStart (A.data e) i)

/-- A deletion returns exactly when the name is found and the chain can be freed. -/
theorem deleteFileEntry_found {name : List UInt8} (hw : v.view w = A) (hD : v.FileChain A D) :
    Ends (v.fs.deleteFileEntry v.disk (D.headD 0) name) w
      (fun _ _ => v.Found A (to83 name) (A.visited D))
      fun _ _ => ¬A.Sound ∨ ¬v.Found A (to83 name) (A.visited D) := by
  cases D with
  | nil => exact (hD.chain.ne_nil rfl).elim
  | cons c l =>
    obtain ⟨R,_,hvisited,_,hseen⟩ := hD.visited_seen
    have hlen := hseen.length_le
    rw [length_cons] at hlen
    rw [hvisited]
    change Ends (v.fs.deleteFrom v.disk (to83 name) (v.fs.totalClusters+1) c) w _ _
    refine deleteFrom_walk hw hseen.walk (Nat.lt_succ_of_le (Nat.le_of_succ_le hlen)) ?_ ?_
      fun hns _ _ => .inl hns
    · intro L₁ e L₂ i hsplit hbefore hfound w' hw'
      have hin := hseen.inside e (by rw [hsplit]; simp)
      split_ifs with hused
      · refine ends_throw (.inr ?_)
        rintro ⟨L₁',e',L₂',i',hsplit',hentry,_⟩
        obtain ⟨_,rfl,rfl⟩ := stop_unique (hsplit.symm.trans hsplit') hbefore hfound hentry.before
          hentry.found
        exact hentry.used hused
      · have hentry : v.Entry A (to83 name) L₁ e i := ⟨hbefore,hfound,hused⟩
        refine (deleteSlot_ends hw' hin hentry.room).mono (fun _ _ h => ?_) fun _ _ he =>
          he.imp_right fun hbad => ?_
        · obtain ⟨B,hB,_⟩ := h
          exact ⟨L₁,e,L₂,i,hsplit,hentry,hB.frees⟩
        · rintro ⟨L₁',e',L₂',i',hsplit',hentry',hfrees⟩
          obtain ⟨_,rfl,rfl⟩ := stop_unique (hsplit.symm.trans hsplit') hbefore hfound
            hentry'.before hentry'.found
          exact hbad.1 hfrees
    · intro hall _ _
      refine .inr ?_
      rintro ⟨L₁,e,L₂,i,hsplit,hentry,_⟩
      have hfound := hentry.found
      rw [hall e (by rw [hsplit]; simp)] at hfound
      cases hfound

theorem delete_returns_iff {name : List UInt8} (hs : (v.view w).Sound)
    (hD : v.FileChain (v.view w) D) :
    (∃ w', v.fs.deleteFileEntry v.disk (D.headD 0) name w = .ok () w') ↔
      v.Found (v.view w) (to83 name) ((v.view w).visited D) := by
  have hends : Ends (v.fs.deleteFileEntry v.disk (D.headD 0) name) w _ _ :=
    deleteFileEntry_found rfl hD
  constructor
  · rintro ⟨w',hok⟩
    exact hends.ok hok
  · intro hfound
    cases hx : v.fs.deleteFileEntry v.disk (D.headD 0) name w with
    | ok _ w' => exact ⟨w',rfl⟩
    | error e w' =>
      exact (hends.error hx).elim (fun hns => absurd hs hns) fun h => absurd hfound h

/-! ## The files of a directory -/

variable (v) in
/-- Slot `k` is in use: it is not deleted, and no slot up to it ends the directory. -/
structure LiveAt (A : View) (D : List ℕ) (k : ℕ) : Prop where
  inside : k < D.length*v.perCluster
  before : ∀ t ≤ k, (v.dirSlot A D t).getD 0 0 ≠ 0
  used : (v.dirSlot A D k).getD 0 0 ≠ 0xE5

variable (v) in
/-- The directory has no long names and no hidden files, and the names are different. -/
structure Plain (A : View) (D : List ℕ) : Prop where
  visible : ∀ k, v.LiveAt A D k →
    (v.dirSlot A D k).getD 11 0 ≠ 0x0F ∧ ¬IsHidden (v.dirSlot A D k)
  distinct : ∀ k k', v.LiveAt A D k → v.LiveAt A D k' →
    (v.dirSlot A D k).take 11 = (v.dirSlot A D k').take 11 → k = k'

theorem Plain.unique {k' : ℕ} (h : v.Plain A D) (hk : v.LiveAt A D k) (hk' : v.LiveAt A D k')
    (hname : HasName short (v.dirSlot A D k)) (hname' : HasName short (v.dirSlot A D k')) : k = k' :=
  h.distinct k k' hk hk' (hname.take_eq hname')

theorem dirSlot_visited {j i : ℕ} (hj : j < (A.visited D).length) (hi : i < v.perCluster) :
    v.dirSlot A D (j*v.perCluster+i) = slot (A.data ((A.visited D).getD j 0)) i := by
  rw [dirSlot_eq (lt_length_visited.mp hj).1 hi, getD_visited hj]

theorem Entry.liveAt (h : v.Entry A short L₁ e i) (hsplit : A.visited D = L₁++e::L₂) :
    v.LiveAt A D (L₁.length*v.perCluster+i) ∧
      HasName short (v.dirSlot A D (L₁.length*v.perCluster+i)) := by
  obtain ⟨hi,hhit,hno⟩ := matchSlot_eq_some.mp h.found
  have hlen : L₁.length < (A.visited D).length := by
    rw [hsplit, length_append, length_cons]
    omega
  have he : (A.visited D).getD L₁.length 0 = e := by
    rw [hsplit, getD_append_right _ _ _ _ le_rfl, Nat.sub_self, getD_cons_zero]
  have hslot : ∀ t < v.perCluster, v.dirSlot A D (L₁.length*v.perCluster+t) = slot (A.data e) t := by
    intro t ht
    rw [dirSlot_visited hlen ht, he]
  have hused : (slot (A.data e) i).getD 0 0 ≠ 0 := by
    rw [getD_slot (by decide), Nat.add_zero]
    exact h.used
  have hname : (slot (A.data e) i).getD 0 0 ≠ 0xE5 ∧ HasName short (slot (A.data e) i) :=
    hhit.resolve_left hused
  refine ⟨⟨?_,?_,?_⟩,?_⟩
  · rw [number_lt hi]
    exact (lt_length_visited.mp hlen).1
  · intro t ht h0
    obtain ⟨hti,htsplit⟩ := v.number_split t
    by_cases hcluster : t/v.perCluster < L₁.length
    · -- a cluster in front of the one with the entry
      have hmem : (A.visited D).getD (t/v.perCluster) 0 ∈ L₁ := by
        rw [hsplit, getD_append _ _ _ _ hcluster, getD_eq_getElem _ _ hcluster]
        exact getElem_mem hcluster
      refine matchSlot_eq_none.mp (h.before _ hmem) (t%v.perCluster) hti (.inl ?_)
      rwa [← dirSlot_visited (hcluster.trans hlen) hti, htsplit]
    · have hle : t/v.perCluster ≤ L₁.length := by
        have hlt := (number_lt (v := v) (n := L₁.length+1) hti).mp (by
          rw [htsplit, Nat.succ_mul]
          omega)
        omega
      have heq : t/v.perCluster = L₁.length := by omega
      rw [heq] at htsplit
      rw [← htsplit, hslot _ hti] at h0
      by_cases hlast : t%v.perCluster = i
      · rw [hlast] at h0
        exact hused h0
      · exact hno _ (by omega) (.inl h0)
  · rw [hslot i hi]
    exact hname.1
  · rw [hslot i hi]
    exact hname.2

theorem Plain.entry (h : v.Plain A D) (hk : v.LiveAt A D k)
    (hname : HasName short (v.dirSlot A D k)) (hlinks : ∀ j < k/v.perCluster, A.fat (D.getD j 0) < 2^28) :
    ∃ L₁ L₂, A.visited D = L₁++D.getD (k/v.perCluster) 0::L₂ ∧
      v.Entry A short L₁ (D.getD (k/v.perCluster) 0) (k%v.perCluster) := by
  obtain ⟨hi,hsplit⟩ := v.number_split k
  have hj : k/v.perCluster < (A.visited D).length :=
    lt_length_visited.mpr ⟨cluster_lt hk.inside,hlinks⟩
  have he := getD_visited hj
  -- no slot in front of the file's is a hit
  have hno : ∀ j t, t < v.perCluster → j*v.perCluster+t < k → j < (A.visited D).length →
      ¬Hit short (slot (A.data ((A.visited D).getD j 0)) t) := by
    intro j t ht hlt hjv hhit
    rw [← dirSlot_visited hjv ht] at hhit
    have h0 := hk.before _ hlt.le
    have hmatch := hhit.resolve_left h0
    have hlive : v.LiveAt A D (j*v.perCluster+t) :=
      ⟨hlt.trans hk.inside,fun x hx => hk.before x (hx.trans hlt.le),hmatch.1⟩
    have heq := h.unique hlive hk hmatch.2 hname
    omega
  refine ⟨(A.visited D).take (k/v.perCluster),(A.visited D).drop (k/v.perCluster+1),?_,?_,?_,?_⟩
  · rw [← he, getD_eq_getElem _ _ hj, ← drop_eq_getElem_cons hj, take_append_drop]
  · intro d hd
    obtain ⟨j,hjlt,rfl⟩ := mem_take_iff_getElem.mp hd
    have hjlt' := Nat.lt_min.mp hjlt
    refine matchSlot_eq_none.mpr fun t ht => ?_
    have hlt : j*v.perCluster+t < k := by
      rw [← hsplit]
      exact Nat.lt_of_lt_of_le ((number_lt ht).mpr hjlt'.1) (Nat.le_add_right _ _)
    have hnohit := hno j t ht hlt hjlt'.2
    rwa [getD_eq_getElem _ _ hjlt'.2] at hnohit
  · rw [← he]
    refine matchSlot_eq_some.mpr ⟨hi,?_,fun t ht => hno _ t (ht.trans hi) (by omega) hj⟩
    rw [← dirSlot_visited hj hi, hsplit]
    exact .inr ⟨hk.used,hname⟩
  · have h0 := hk.before k le_rfl
    rw [← hsplit, dirSlot_visited hj hi, he, getD_slot (by decide), Nat.add_zero] at h0
    exact h0

theorem Plain.found_iff (h : v.Plain A D) : v.Found A short (A.visited D) ↔
    ∃ k, v.LiveAt A D k ∧ HasName short (v.dirSlot A D k) ∧
      (∀ j < k/v.perCluster, A.fat (D.getD j 0) < 2^28) ∧
        v.Frees A (deletedStart (A.data (D.getD (k/v.perCluster) 0)) (k%v.perCluster)) := by
  constructor
  · rintro ⟨L₁,e,L₂,i,hsplit,hentry,hfrees⟩
    obtain ⟨hlive,hname⟩ := hentry.liveAt hsplit
    have hi := (matchSlot_eq_some.mp hentry.found).1
    have hlen : L₁.length < (A.visited D).length := by
      rw [hsplit, length_append, length_cons]
      omega
    have he : D.getD L₁.length 0 = e := by
      rw [← getD_visited hlen, hsplit, getD_append_right _ _ _ _ le_rfl, Nat.sub_self,
        getD_cons_zero]
    refine ⟨L₁.length*v.perCluster+i,hlive,hname,?_⟩
    rw [(number_eq hi).1, (number_eq hi).2, he]
    exact ⟨(lt_length_visited.mp hlen).2,hfrees⟩
  · rintro ⟨k,hlive,hname,hlinks,hfrees⟩
    obtain ⟨L₁,L₂,hsplit,hentry⟩ := h.entry hlive hname hlinks
    exact ⟨L₁,_,L₂,_,hsplit,hentry,hfrees⟩

/-! ## Where the two agree -/

section
variable {name : List UInt8}

variable (v) in
/-- readdir returns the entries of some slots; no slot in front of one of these ends the directory;
and in a plain directory the names that can be deleted are those of these slots. -/
structure Agrees (w : Drives) (D : List ℕ) (name : List UInt8) : Prop where
  lists : answer (v.fs.readdir v.disk (D.headD 0)) w =
    .ok ((v.reports (v.view w) (readClusters (v.view w) D)).map Prod.snd)
  stops : ∀ p ∈ v.reports (v.view w) (readClusters (v.view w) D), ∀ t < p.1,
    (v.dirSlot (v.view w) D t).getD 0 0 ≠ 0
  deletes : v.Plain (v.view w) D →
    ((∃ w', v.fs.deleteFileEntry v.disk (D.headD 0) name w = .ok () w') ↔
      ∃ p ∈ v.reports (v.view w) (readClusters (v.view w) D),
        HasName (to83 name) (v.dirSlot (v.view w) D p.1))

variable (v) in
/-- In the clusters behind a slot that ends the directory, as far as readdir reads them, there are
only hidden files in front of the first slot that ends their cluster. And in a plain directory a
file with the name is in one of the first 1025 clusters exactly when its chain can be freed. -/
structure Consistent (A : View) (D : List ℕ) (name : List UInt8) : Prop where
  tail : ∀ j < (readClusters A D).length,
    (∃ t < j*v.perCluster, (v.dirSlot A D t).getD 0 0 = 0) → ∀ i < v.perCluster,
      IsLive (v.dirSlot A D (j*v.perCluster+i)) → ¬IsHidden (v.dirSlot A D (j*v.perCluster+i)) →
        ∃ u < i, (v.dirSlot A D (j*v.perCluster+u)).getD 0 0 = 0
  names : v.Plain A D → ∀ k, v.LiveAt A D k → HasName (to83 name) (v.dirSlot A D k) →
    (∀ j < k/v.perCluster, A.fat (D.getD j 0) < 2^28) →
      (k/v.perCluster < 1025 ↔
        v.Frees A (deletedStart (A.data (D.getD (k/v.perCluster) 0)) (k%v.perCluster)))

theorem mem_reports_inside {p : ℕ × DirEntry32} (h : p ∈ v.reports A (readClusters A D)) :
    p.1 < D.length*v.perCluster :=
  (lt_of_mem_reports h).trans_le (Nat.mul_le_mul_right _ length_readClusters_le)

theorem stops_iff :
    (∀ p ∈ v.reports A (readClusters A D), ∀ t < p.1, (v.dirSlot A D t).getD 0 0 ≠ 0) ↔
      ∀ j < (readClusters A D).length, (∃ t < j*v.perCluster, (v.dirSlot A D t).getD 0 0 = 0) →
        ∀ i < v.perCluster, IsLive (v.dirSlot A D (j*v.perCluster+i)) →
          ¬IsHidden (v.dirSlot A D (j*v.perCluster+i)) →
            ∃ u < i, (v.dirSlot A D (j*v.perCluster+u)).getD 0 0 = 0 := by
  constructor
  · rintro hstops j hj ⟨t,ht,h0⟩ i hi hlive hvisible
    by_contra hno
    obtain ⟨hdepth,hjD,hlinks⟩ := lt_length_readClusters.mp hj
    have hreached : v.Reached A D (j*v.perCluster+i) := by
      refine ⟨?_,?_,?_,hvisible⟩
      · rwa [(number_eq hi).1]
      · rwa [(number_eq hi).1]
      · rw [(number_eq hi).1, (number_eq hi).2]
        exact fun u hu hzero => hno ⟨u,hu,hzero⟩
    have hmem := (mem_readdir_reports ((number_lt hi).mpr hjD)).mpr ⟨hreached,hlive,rfl⟩
    exact hstops _ hmem t (ht.trans_le (Nat.le_add_right _ _)) h0
  · rintro htail ⟨k,x⟩ hp t ht h0
    have hk := mem_reports_inside hp
    obtain ⟨hreached,hlive,_⟩ := (mem_readdir_reports hk).mp hp
    obtain ⟨hi,hsplit⟩ := v.number_split k
    dsimp only at ht hk
    by_cases hsame : t < k/v.perCluster*v.perCluster
    · have hread := lt_length_readClusters.mpr ⟨hreached.depth,cluster_lt hk,hreached.links⟩
      rw [← hsplit] at hlive
      have hvisible := hreached.visible
      rw [← hsplit] at hvisible
      obtain ⟨u,hu,hzero⟩ := htail _ hread ⟨t,hsame,h0⟩ _ hi hlive hvisible
      exact hreached.before u hu hzero
    · have hlt : t-k/v.perCluster*v.perCluster < k%v.perCluster := by omega
      refine hreached.before _ hlt ?_
      rwa [Nat.add_sub_of_le (not_lt.mp hsame)]

theorem Plain.listed_iff (h : v.Plain A D)
    (hstops : ∀ p ∈ v.reports A (readClusters A D), ∀ t < p.1, (v.dirSlot A D t).getD 0 0 ≠ 0) :
    (∃ p ∈ v.reports A (readClusters A D), HasName short (v.dirSlot A D p.1)) ↔
      ∃ k, v.LiveAt A D k ∧ HasName short (v.dirSlot A D k) ∧
        (∀ j < k/v.perCluster, A.fat (D.getD j 0) < 2^28) ∧ k/v.perCluster < 1025 := by
  constructor
  · rintro ⟨⟨k,x⟩,hp,hname⟩
    have hk := mem_reports_inside hp
    obtain ⟨hreached,hlive,_⟩ := (mem_readdir_reports hk).mp hp
    refine ⟨k,⟨hk,fun t ht => ?_,hlive.2.1⟩,hname,hreached.links,hreached.depth⟩
    cases Nat.lt_or_eq_of_le ht with
    | inl hlt => exact hstops _ hp t hlt
    | inr heq => exact heq ▸ hlive.1
  · rintro ⟨k,hk,hname,hlinks,hdepth⟩
    obtain ⟨hshort,hvisible⟩ := h.visible k hk
    obtain ⟨hi,hsplit⟩ := v.number_split k
    have hreached : v.Reached A D k := ⟨hdepth,hlinks,fun i hlt => hk.before _ (by omega),hvisible⟩
    have hlive : IsLive (v.dirSlot A D k) := ⟨hk.before k le_rfl,hk.used,hshort⟩
    exact ⟨_,(mem_readdir_reports hk.inside).mpr ⟨hreached,hlive,rfl⟩,hname⟩

/-- readdir and delete_file_entry agree exactly on the consistent directories. -/
theorem readdir_delete_agree_iff (hs : (v.view w).Sound) (hD : v.FileChain (v.view w) D) :
    v.Agrees w D name ↔ v.Consistent (v.view w) D name := by
  -- what is left, when the lists stop at the first end, is about the file with the name
  have hnames : (∀ p ∈ v.reports (v.view w) (readClusters (v.view w) D), ∀ t < p.1,
      (v.dirSlot (v.view w) D t).getD 0 0 ≠ 0) → v.Plain (v.view w) D →
      (((∃ w', v.fs.deleteFileEntry v.disk (D.headD 0) name w = .ok () w') ↔
        ∃ p ∈ v.reports (v.view w) (readClusters (v.view w) D),
          HasName (to83 name) (v.dirSlot (v.view w) D p.1)) ↔
      ∀ k, v.LiveAt (v.view w) D k → HasName (to83 name) (v.dirSlot (v.view w) D k) →
        (∀ j < k/v.perCluster, (v.view w).fat (D.getD j 0) < 2^28) →
          (k/v.perCluster < 1025 ↔ v.Frees (v.view w)
            (deletedStart ((v.view w).data (D.getD (k/v.perCluster) 0)) (k%v.perCluster)))) := by
    intro hstops hplain
    rw [delete_returns_iff hs hD, hplain.found_iff, hplain.listed_iff hstops]
    constructor
    · intro hiff k hk hname hlinks
      constructor
      · intro hdepth
        obtain ⟨k',hk',hname',_,hfrees⟩ := hiff.mpr ⟨k,hk,hname,hlinks,hdepth⟩
        rwa [hplain.unique hk hk' hname hname']
      · intro hfrees
        obtain ⟨k',hk',hname',_,hdepth⟩ := hiff.mp ⟨k,hk,hname,hlinks,hfrees⟩
        rwa [hplain.unique hk hk' hname hname']
    · intro hall
      refine exists_congr fun k => and_congr_right fun hk => and_congr_right fun hname =>
        and_congr_right fun hlinks => (hall k hk hname hlinks).symm
  constructor
  · intro h
    exact ⟨stops_iff.mp h.stops,fun hplain => (hnames h.stops hplain).mp (h.deletes hplain)⟩
  · intro h
    have hstops := stops_iff.mpr h.tail
    exact ⟨readdir_answer hs hD,hstops,fun hplain => (hnames hstops hplain).mpr (h.names hplain)⟩

/-- A directory of one cluster with an empty file "A". -/
def emptyFile : Drives := image [(520,toLe 4 eoc),(2048,newEntry (to83 [0x41]) false 0)]

theorem emptyFile_agrees : small.Agrees emptyFile [2] [0x41] := by
  have hchain : small.FileChain (small.view emptyFile) [2] :=
    fileChain_single (by decide) (by decide +kernel)
  refine (readdir_delete_agree_iff (fun _ => rfl) hchain).mpr ⟨?_,?_⟩
  · intro j hj
    have hj0 : j = 0 := by
      have hle := (length_readClusters_le (A := small.view emptyFile) (D := [2]))
      rw [length_singleton] at hle
      omega
    rintro ⟨t,ht,_⟩
    rw [hj0, Nat.zero_mul] at ht
    cases ht
  · intro _ k hk _ _
    have hk0 : k = 0 := by
      by_contra hne
      exact hk.before 1 (Nat.one_le_iff_ne_zero.mpr hne) (by decide +kernel)
    subst hk0
    refine iff_of_true (by decide +kernel) (.outside ?_)
    have hstart : deletedStart ((small.view emptyFile).data ([2].getD (0/small.perCluster) 0))
        (0%small.perCluster) = 0 := by
      decide +kernel
    rw [hstart]
    decide

/-- A directory whose first slot ends it, with a file "A" left in its second cluster. -/
def staleFile : Drives :=
  image [(520,toLe 4 3),(524,toLe 4 eoc),(2560,newEntry (to83 [0x41]) false 0)]

/-- The file is listed, and it cannot be deleted. -/
theorem stale_file_listed : small.FileChain (small.view staleFile) [2,3] ∧
    small.Plain (small.view staleFile) [2,3] ∧
      answer (small.fs.readdir small.disk 2) staleFile = .ok [⟨[0x41],0,0,false⟩] ∧
      (¬∃ w', small.fs.deleteFileEntry small.disk 2 [0x41] staleFile = .ok () w') ∧
      ¬small.Agrees staleFile [2,3] [0x41] := by
  have hchain : small.FileChain (small.view staleFile) [2,3] :=
    ⟨.cons (by decide +kernel) (.last (by decide +kernel)),by decide,by decide⟩
  have hnone : ∀ k, ¬small.LiveAt (small.view staleFile) [2,3] k := fun k hk =>
    hk.before 0 (Nat.zero_le k) (by decide +kernel)
  have hplain : small.Plain (small.view staleFile) [2,3] :=
    ⟨fun k hk => absurd hk (hnone k),fun k _ hk => absurd hk (hnone k)⟩
  have hlisted : (16,(⟨[0x41],0,0,false⟩ : DirEntry32)) ∈
      small.reports (small.view staleFile) (readClusters (small.view staleFile) [2,3]) := by
    decide +kernel
  have hanswer : answer (small.fs.deleteFileEntry small.disk 2 [0x41]) staleFile =
      .error (.err "file not found") := by
    decide +kernel
  refine ⟨hchain,hplain,by decide +kernel,?_,?_⟩
  · rintro ⟨w',hok⟩
    rw [answer_ok hok] at hanswer
    cases hanswer
  · exact fun hagrees => hagrees.stops _ hlisted 0 (by decide) (by decide +kernel)

end

end FatVolume

end Zohara.Fat32
