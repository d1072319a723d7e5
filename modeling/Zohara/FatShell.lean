import Zohara.FatWrite

/-!
# write and cat of the shell

create_file_entry stores a directory entry of size zero, and write_file_data does not know the
entry. So the size stays zero whatever is written, and cat, which reads as many bytes as the entry
says, prints nothing: for no volume, name and text does cat return the text that write was given.

The volume is any one whose root directory is a file's chain; in a directory, the slots behind a
free slot that ends it are free too.
-/
namespace Zohara.Fat32
open ByteMemory FallibleState IdeDisk ElfImage List Option Function

/-! ## New entries -/

section
variable {short : List UInt8 × List UInt8} {isDir : Bool} {cluster : ℕ}

theorem length_padded (n : ℕ) (bs : List UInt8) : (padded n bs).length = n := by
  rw [padded, length_map, length_range]

theorem field_middle (x y z : List UInt8) : field (x++y++z) x.length y.length = leNat y := by
  rw [field, append_assoc, drop_left, take_left]

section

variable (h1 : short.1.length = 8) (h2 : short.2.length = 3)
include h1 h2

theorem length_newEntry : (newEntry short isDir cluster).length = 32 := by
  unfold newEntry
  simp only [length_append, length_replicate, length_toLe, length_singleton, h1, h2]

theorem newEntry_attributes :
    (newEntry short isDir cluster).getD 11 0 = if isDir then 0x10 else 0x20 := by
  have hlen : (short.1++short.2).length = 11 := by rw [length_append, h1, h2]
  unfold newEntry
  simp only [append_assoc]
  rw [← append_assoc short.1, getD_append_right _ _ _ _ (by omega), hlen]
  rfl

theorem newEntry_size : field (newEntry short isDir cluster) 28 4 = 0 := by
  have hfield := field_middle (short.1++short.2++[if isDir then 0x10 else 0x20]++List.replicate 8 0++
    toLe 2 (cluster/2^16)++List.replicate 4 0++toLe 2 (cluster%2^16)) (toLe 4 0) []
  rw [append_nil, leNat_toLe] at hfield
  simp only [length_append, length_replicate, length_toLe, length_singleton, h1,
    h2] at hfield
  exact hfield

theorem newEntry_cluster (hcluster : cluster < 2^32) :
    field (newEntry short isDir cluster) 20 2*2^16+field (newEntry short isDir cluster) 26 2 =
      cluster := by
  have hhigh := field_middle (short.1++short.2++[if isDir then 0x10 else 0x20]++List.replicate 8 0)
    (toLe 2 (cluster/2^16)) (List.replicate 4 0++toLe 2 (cluster%2^16)++toLe 4 0)
  have hlow := field_middle (short.1++short.2++[if isDir then 0x10 else 0x20]++List.replicate 8 0++
    toLe 2 (cluster/2^16)++List.replicate 4 0) (toLe 2 (cluster%2^16)) (toLe 4 0)
  rw [leNat_toLe] at hhigh hlow
  simp only [length_append, length_replicate, length_toLe, length_singleton, h1,
    h2, ← append_assoc] at hhigh hlow
  have hhigh' : field (newEntry short isDir cluster) 20 2 = cluster/2^16%256^2 := hhigh
  have hlow' : field (newEntry short isDir cluster) 26 2 = cluster%2^16%256^2 := hlow
  rw [hhigh', hlow']
  omega

end

/-- The name that readdir makes of the two parts. -/
def shownName (short : List UInt8 × List UInt8) : List UInt8 :=
  (short.1.takeWhile (· ≠ 0x20)).flatMap encodeChar++
    if short.2.getD 0 0 ≠ 0x20 then 0x2E::(short.2.takeWhile (· ≠ 0x20)).flatMap encodeChar else []

theorem newEntry_names (h1 : short.1.length = 8) (h2 : short.2.length = 3) :
    (newEntry short isDir cluster).getD 0 0 = short.1.getD 0 0 ∧
      shortName (newEntry short isDir cluster) = shownName short := by
  obtain ⟨rest,hrest⟩ : ∃ rest, newEntry short isDir cluster = short.1++(short.2++rest) :=
    ⟨_,by unfold newEntry; simp only [append_assoc]; rfl⟩
  have hdrop : (short.1++(short.2++rest)).drop 8 = short.2++rest := drop_left' h1
  have hget : (short.1++(short.2++rest)).getD 8 0 = short.2.getD 0 0 := by
    rw [getD_append_right _ _ _ _ (by omega), h1, Nat.sub_self,
      getD_append _ _ _ _ (by omega)]
  rw [hrest]
  refine ⟨getD_append _ _ _ _ (by omega),?_⟩
  unfold shortName shownName
  rw [take_left' h1, hget, hdrop, take_left' h2]

end

/-! ## The slots of a cluster -/

theorem slot_eq_read {buf : List UInt8} {j : ℕ} (h : j*32+32 ≤ buf.length) :
    slot buf j = read (fun x => buf.getD x 0) (j*32) 32 := (read_getD buf h).symm

theorem slots_patch {buf entry : List UInt8} {i n : ℕ} (hlen : n*32 ≤ buf.length)
    (hentry : entry.length = 32) (hi : i < n) :
    slots (patch buf (i*32) entry) n = (slots buf n).set i entry := by
  have hroom : i*32+entry.length ≤ buf.length := by omega
  have hpatch := length_patch hroom
  apply ext_getElem
  · simp only [slots, length_set, length_map, length_range]
  · intro j hj _
    simp only [slots, length_map, length_range] at hj
    rw [getElem_set]
    simp only [slots, getElem_map, getElem_range]
    by_cases hji : i = j
    · subst hji
      rw [if_pos rfl, slot]
      have htake := take_drop_patch hroom
      rwa [hentry] at htake
    · rw [if_neg hji, slot_eq_read (by omega), slot_eq_read (by omega)]
      refine read_congr fun k hk => getD_patch hroom ?_
      omega

theorem parseEntries_ended {es : List (List UInt8)} {long : List UInt8}
    (h : ∀ e ∈ es, e.getD 0 0 = 0) : parseEntries es long = [] := by
  cases es with
  | nil => rfl
  | cons e es => rw [parseEntries, if_pos (h e mem_cons_self)]

/-- An entry of size zero in a free slot: what is listed was listed before, or has size zero. -/
theorem parseEntries_set {es : List (List UInt8)} {long entry : List UInt8} {i : ℕ}
    (hi : i < es.length)
    (hfree : (es.getD i []).getD 0 0 = 0 ∨ (es.getD i []).getD 0 0 = 0xE5)
    (htidy : es.Pairwise fun e e' => e.getD 0 0 = 0 → e'.getD 0 0 = 0)
    (hattr : entry.getD 11 0 = 0x20) (hsize : field entry 28 4 = 0) :
    ∀ x ∈ parseEntries (es.set i entry) long, x ∈ parseEntries es long ∨ x.size = 0 := by
  induction es generalizing i long with
  | nil => cases hi
  | cons e es ih =>
    have hpair := pairwise_cons.mp htidy
    cases i with
    | zero =>
      intro x hx
      have hrest : x ∈ parseEntries es [] → x ∈ parseEntries (e::es) long := by
        intro hmem
        change e.getD 0 0 = 0 ∨ e.getD 0 0 = 0xE5 at hfree
        cases hfree with
        | inl hend =>
          rw [parseEntries_ended fun e' he' => hpair.1 e' he' hend] at hmem
          exact absurd hmem not_mem_nil
        | inr hdeleted =>
          rw [parseEntries, hdeleted, if_neg (by decide), if_pos rfl]
          exact hmem
      rw [set_cons_zero, parseEntries] at hx
      by_cases h0 : entry.getD 0 0 = 0
      · rw [if_pos h0] at hx
        exact absurd hx not_mem_nil
      · rw [if_neg h0] at hx
        by_cases h5 : entry.getD 0 0 = 0xE5
        · rw [if_pos h5] at hx
          exact .inl (hrest hx)
        · rw [if_neg h5, hattr, if_neg (by decide), if_neg (by decide)] at hx
          cases hx with
          | head => exact .inr hsize
          | tail _ hx => exact .inl (hrest hx)
    | succ i =>
      have hih : ∀ long, ∀ x ∈ parseEntries (es.set i entry) long,
          x ∈ parseEntries es long ∨ x.size = 0 := fun long =>
        ih (Nat.lt_of_succ_lt_succ hi) hfree hpair.2
      intro x hx
      rw [set_cons_succ, parseEntries] at hx
      rw [parseEntries]
      by_cases h0 : e.getD 0 0 = 0
      · rw [if_pos h0] at hx
        exact absurd hx not_mem_nil
      · rw [if_neg h0] at hx ⊢
        by_cases h5 : e.getD 0 0 = 0xE5
        · rw [if_pos h5] at hx ⊢
          exact hih _ x hx
        · rw [if_neg h5] at hx ⊢
          by_cases hlong : e.getD 11 0 = 0x0F
          · rw [if_pos hlong] at hx ⊢
            exact hih _ x hx
          · rw [if_neg hlong] at hx ⊢
            dsimp only at hx ⊢
            by_cases hskip : e.getD 11 0 &&& 0x02 ≠ 0 ∨ e.getD 11 0 &&& 0x04 ≠ 0
            · rw [if_pos hskip] at hx ⊢
              exact hih _ x hx
            · rw [if_neg hskip] at hx ⊢
              cases hx with
              | head => exact .inl mem_cons_self
              | tail _ hx => exact (hih _ x hx).imp_left (mem_cons_of_mem _)

/-! ## Walking a directory -/

namespace FatVolume
variable (v : FatVolume)

/-- The entries that readdir lists from a cluster. -/
def listed (A : View) (c : ℕ) : List DirEntry32 := parseEntries (slots (A.data c) (v.size/32)) []

/-- Behind a free slot that ends the directory all slots of the cluster are free. -/
def Tidy (bs : List UInt8) : Prop :=
  (slots bs (v.size/32)).Pairwise fun e e' => e.getD 0 0 = 0 → e'.getD 0 0 = 0

/-- Clusters that next_cluster does not leave. -/
def Closed (A : View) (S : ℕ → Prop) : Prop :=
  ∀ c, S c → (2 ≤ c ∧ c < v.total) ∧ (linked (A.fat c) = 0 ∨ S (linked (A.fat c)))

variable {v : FatVolume} {w : Drives} {A B : View} {S : ℕ → Prop} {c d f i n : ℕ}
  {D L N R : List ℕ} {entry name text : List UInt8} {isDir : Bool}

theorem FileChain.closed (h : v.FileChain A D) : v.Closed A (· ∈ D) := by
  intro c hc
  refine ⟨h.inside c hc,?_⟩
  by_cases heoc : 0x0FFFFFF8 ≤ A.fat c
  · exact .inl (if_pos heoc)
  · right
    obtain hstop | ⟨d,hd,hlink⟩ := h.chain.of_mem hc
    · exact absurd (hstop.trans (Nat.mod_le _ _)) heoc
    · rw [linked, if_neg heoc, hlink]
      exact hd

theorem readdirFrom_seen {c n : ℕ} {R : List ℕ} {w : Drives} (hw : v.view w = A)
    (h : v.Seen A (c::R)) : Ends (v.fs.readdirFrom v.disk n c) w
      (fun es w' => v.view w' = A ∧ es = ((c::R).take n).flatMap (v.listed A))
      fun _ _ => ¬A.Sound := by
  have hin := h.inside c mem_cons_self
  cases n with
  | zero => exact ends_pure ⟨hw,rfl⟩
  | succ n =>
    rw [Fat32Fs.readdirFrom, if_neg hin.1.not_gt, v.clusterBytes_eq, take_succ_cons, flatMap_cons]
    refine Ends.bind (readCluster_ends hw hin.1 hin.2) ?_
    intro buf w₁ hbuf
    rw [hbuf.1]
    cases R with
    | nil =>
      refine Ends.bind (nextCluster_last hbuf.2 h) ?_
      intro x w₂ hx
      rw [if_pos (.inl hx.1), take_nil, flatMap_nil, append_nil]
      exact ends_pure ⟨hx.2,rfl⟩
    | cons d R =>
      have hd := h.inside d (mem_cons_of_mem c mem_cons_self)
      refine Ends.bind (nextCluster_link hbuf.2 h) ?_
      intro x w₂ hx
      rw [if_neg (by omega), hx.1]
      refine Ends.bind (readdirFrom_seen hx.2 h.tail) ?_
      intro rest w₃ hrest
      rw [hrest.2]
      exact ends_pure ⟨hrest.1,rfl⟩


theorem readdirFrom_ends (hw : v.view w = A) (hS : v.Closed A S) (hc : S c) :
    Ends (v.fs.readdirFrom v.disk n c) w
      (fun es w' => v.view w' = A ∧ ∀ e ∈ es, ∃ d, S d ∧ e ∈ v.listed A d) fun _ _ => True := by
  induction n generalizing c w with
  | zero => exact ends_pure ⟨hw,fun e he => absurd he not_mem_nil⟩
  | succ n ih =>
    obtain ⟨hin,hnext⟩ := hS c hc
    rw [Fat32Fs.readdirFrom, if_neg hin.1.not_gt, v.clusterBytes_eq]
    refine Ends.bind (Ends.fails (readCluster_ends hw hin.1 hin.2) fun _ _ _ => trivial) ?_
    intro buf w₁ hbuf
    refine Ends.bind (Ends.fails (nextCluster_ends hbuf.2 hin.2) fun _ _ _ => trivial) ?_
    intro x w₂ hx
    rw [hbuf.1]
    have hlisted : ∀ e ∈ parseEntries (slots (A.data c) (v.size/32)) [],
        ∃ d, S d ∧ e ∈ v.listed A d := fun e he => ⟨c,hc,he⟩
    split_ifs with hlast
    · exact ends_pure ⟨hx.2,hlisted⟩
    · have hSx : S x := by
        rw [hx.1]
        exact hnext.resolve_left fun hzero => hlast (.inl (hx.1.trans hzero))
      refine Ends.bind (ih hx.2 hSx) ?_
      intro rest w₃ hrest
      refine ends_pure ⟨hrest.1,fun e he => ?_⟩
      exact (mem_append.mp he).elim (hlisted e) (hrest.2 e)

theorem shellCat_ends {len : ℕ} (hw : v.view w = A) (hS : v.Closed A S)
    (hroot : S v.fs.rootCluster)
    (hzero : ∀ d, S d → ∀ e ∈ v.listed A d, eqIgnoreAsciiCase e.name name → e.size = 0) :
    Ends (v.fs.shellCat v.disk name len) w (fun bs _ => bs = []) fun _ _ => True := by
  unfold Fat32Fs.shellCat
  refine Ends.bind (readdirFrom_ends hw hS hroot) ?_
  intro es w₁ hes
  cases hfind : es.find? fun e => eqIgnoreAsciiCase e.name name with
  | none => exact ends_throw trivial
  | some e =>
    obtain ⟨d,hd,he⟩ := hes.2 e (mem_of_find?_eq_some hfind)
    have hname : eqIgnoreAsciiCase e.name name = true :=
      find?_some (p := fun e : DirEntry32 => eqIgnoreAsciiCase e.name name) hfind
    have hsize := hzero d hd e he hname
    dsimp only
    split_ifs with hfile
    · rw [hsize, Fat32Fs.readFileData, Fat32Fs.readLoop, dif_neg (by omega)]
      exact ends_pure rfl
    · exact ends_throw trivial

/-! ## A new file in a directory -/

variable (v) in
/-- The directory after create_file_entry: the entry is in a free slot, or in a new cluster. -/
inductive Entered (A B : View) (S : ℕ → Prop) (entry : List UInt8) : Prop
  | slot (d i : ℕ) : S d → v.fs.freeSlot (A.data d) = some i →
      B = A.setData d (patch (A.data d) (i*32) entry) → Entered A B S entry
  | cluster (d x : ℕ) : S d → 2 ≤ x ∧ x < v.total → A.Free x →
      B.fat = ((A.setFat d x).setFat x eoc).fat →
      B.data = (A.setData x (patch (List.replicate v.size 0) 0 entry)).data → Entered A B S entry

/-- One round of the loop of create_file_entry: the entry is copied to a free slot, a new
cluster is linked for it, or the loop goes on with the next cluster. -/
theorem createFrom_round {Q : Unit → Drives → Prop} {E : Fault → Drives → Prop} (hw : v.view w = A)
    (hc : 2 ≤ c ∧ c < v.total) (hentry : entry.length = 32)
    (hslot : ∀ i, v.fs.freeSlot (A.data c) = some i → ∀ w',
      v.view w' = A.setData c (patch (A.data c) (i*32) entry) → Q () w')
    (hnew : v.fs.freeSlot (A.data c) = none → linked (A.fat c) = 0 → ∀ x, 2 ≤ x ∧ x < v.total →
      A.Free x → ∀ w', v.view w' = ((A.setFat c x).setFat x eoc).setData x
        (patch (List.replicate v.size 0) 0 entry) → Q () w')
    (hnext : v.fs.freeSlot (A.data c) = none → linked (A.fat c) ≠ 0 → ∀ w', v.view w' = A →
      Ends (v.fs.createFrom v.disk entry n (linked (A.fat c))) w' Q E)
    (hbad : A.fat c = 0x0FFFFFF7 → ∀ f w', v.view w' = A → E f w')
    (hfull : v.fs.freeSlot (A.data c) = none → linked (A.fat c) = 0 →
      (∀ x, 2 ≤ x → x < v.total → ¬A.Free x) → ∀ f w', v.view w' = A → E f w')
    (hfail : ¬A.Sound → ∀ f w', E f w') :
    Ends (v.fs.createFrom v.disk entry (n+1) c) w Q E := by
  have h32 : 32 ≤ v.size := by
    have hspc := v.fs.clusters
    unfold size
    omega
  have hdata := length_data hw hc.1 hc.2
  have hsound : ∀ {α : Type} {y : Action Drives α} {w : Drives} {Q : α → Drives → Prop},
      Ends y w Q (fun _ _ => ¬A.Sound) → Ends y w Q E := fun hends =>
    Ends.fails hends fun f w' hns => hfail hns f w'
  rw [Fat32Fs.createFrom, v.clusterSize_eq]
  refine Ends.bind (hsound (readCluster_ends hw hc.1 hc.2)) ?_
  intro buf w₁ hbuf
  rw [hbuf.1]
  cases hfree : v.fs.freeSlot (A.data c) with
  | some i =>
    have hi := mem_range.mp (mem_of_find?_eq_some hfree)
    rw [v.clusterSize_eq] at hi
    refine Ends.imp (hsound (writeCluster_ends hbuf.2 hc.1 hc.2 ?_))
      (fun _ w' hw' => hslot i hfree w' hw')
    rw [length_patch (by omega), hdata]
  | none =>
    refine Ends.bind (Ends.fails (nextCluster_ends hbuf.2 hc.2) fun f w' he =>
      he.elim (fun hns => hfail hns f w') fun h => hbad h.1 f w' h.2.2) ?_
    intro y w₂ hy
    rw [hy.1]
    split_ifs with hlast
    · refine ends_hang hy.2 hc.2 ?_ ?_
      · intro x w₃ hx hxfree hw₃
        refine Ends.bind (hsound (writeCluster_ends hw₃ hx.1 hx.2 length_replicate)) ?_
        intro _ w₄ hw₄
        refine Ends.imp (hsound (writeCluster_ends hw₄ hx.1 hx.2 ?_)) (fun _ w' hw' => ?_)
        · rw [length_patch (by rw [length_replicate]; omega), length_replicate]
        · refine hnew hfree hlast x hx hxfree w' ?_
          rw [hw']
          unfold View.setData
          rw [update_idem]
      · intro f w' he
        exact he.elim (fun hns => hfail hns f w') fun h => hfull hfree hlast h.1 f w' h.2
    · exact hnext hfree hlast w₂ hy.2

theorem to83_lengths (name : List UInt8) :
    (to83 name).1.length = 8 ∧ (to83 name).2.length = 3 :=
  ⟨length_padded 8 _,length_padded 3 _⟩

variable (v) in
/-- The walk `L` after the search: the entry is in the first free slot, or in a new cluster behind the
last one. -/
inductive Enters (A B : View) (L : List ℕ) (entry : List UInt8) : Prop
  | slot (L₁ : List ℕ) (e : ℕ) (L₂ : List ℕ) (i : ℕ) : L = L₁++e::L₂ →
      (∀ d ∈ L₁, v.fs.freeSlot (A.data d) = none) → v.fs.freeSlot (A.data e) = some i →
        B = A.setData e (patch (A.data e) (i*32) entry) → Enters A B L entry
  | cluster (L₁ : List ℕ) (d x : ℕ) : L = L₁++[d] →
      (∀ d ∈ L, v.fs.freeSlot (A.data d) = none) → 2 ≤ x ∧ x < v.total → A.Free x →
        B = ((A.setFat d x).setFat x eoc).setData x (patch (List.replicate v.size 0) 0 entry) →
          Enters A B L entry

variable (v) in
/-- No slot of the walk is free, and no cluster is. -/
structure Full (A : View) (L : List ℕ) : Prop where
  slots : ∀ d ∈ L, v.fs.freeSlot (A.data d) = none
  clusters : ∀ d, 2 ≤ d → d < v.total → ¬A.Free d

theorem Enters.cons (h : v.Enters A B L entry) (hc : v.fs.freeSlot (A.data c) = none) :
    v.Enters A B (c::L) entry := by
  cases h with
  | slot L₁ e L₂ i hL hbefore hslot hB =>
    exact .slot (c::L₁) e L₂ i (by rw [hL, cons_append])
      (forall_mem_cons.mpr ⟨hc,hbefore⟩) hslot hB
  | cluster L₁ d x hL hfull hx hfree hB =>
    exact .cluster (c::L₁) d x (by rw [hL, cons_append])
      (forall_mem_cons.mpr ⟨hc,hfull⟩) hx hfree hB

theorem createFrom_walk (hw : v.view w = A) (h : v.Walk A (c::R)) (hn : R.length < n)
    (hentry : entry.length = 32) :
    Ends (v.fs.createFrom v.disk entry n c) w (fun _ w' => v.Enters A (v.view w') (c::R) entry)
      fun _ w' => ¬A.Sound ∨ v.view w' = A ∧ v.Full A (c::R) := by
  induction R generalizing c n w with
  | nil =>
    obtain ⟨m,rfl⟩ := Nat.exists_eq_add_of_lt hn
    have hall : v.fs.freeSlot (A.data c) = none → ∀ d ∈ [c], v.fs.freeSlot (A.data d) = none :=
      fun hslot d hd => mem_singleton.mp hd ▸ hslot
    refine createFrom_round hw (h.inside c mem_cons_self) hentry ?_ ?_ ?_
      (fun hbad => absurd hbad h.good) ?_ fun hns _ _ => .inl hns
    · exact fun i hi w' hw' => .slot [] c [] i rfl (fun d hd => absurd hd not_mem_nil) hi hw'
    · exact fun hslot _ x hx hfree w' hw' => .cluster [] c x rfl (hall hslot) hx hfree hw'
    · exact fun _ hlink => absurd h.stop hlink
    · exact fun hslot _ hnone _ w' hw' => .inr ⟨hw',hall hslot,hnone⟩
  | cons d R ih =>
    have hd := h.inside d (mem_cons_of_mem c mem_cons_self)
    have hlinked : linked (A.fat c) ≠ 0 := by
      rw [h.link]
      omega
    obtain ⟨m,rfl⟩ := Nat.exists_eq_add_of_lt hn
    refine createFrom_round hw (h.inside c mem_cons_self) hentry ?_
      (fun _ hstop => absurd hstop hlinked) ?_ (fun hbad => absurd hbad h.good)
      (fun _ hstop => absurd hstop hlinked) fun hns _ _ => .inl hns
    · exact fun i hi w' hw' =>
        .slot [] c (d::R) i rfl (fun d hd => absurd hd not_mem_nil) hi hw'
    · intro hslot _ w' hw'
      rw [h.link]
      refine Ends.mono (ih hw' h.tail (by rw [length_cons]; omega)) ?_ ?_
      · exact fun _ _ henters => henters.cons hslot
      · exact fun _ _ he => he.imp_right fun hfull =>
          ⟨hfull.1,forall_mem_cons.mpr ⟨hslot,hfull.2.slots⟩,hfull.2.clusters⟩

theorem linked_setFree (hf : A.Free f) (x : ℕ) :
    linked ((A.setFat f eoc).fat x) = linked (A.fat x) := by
  by_cases hxf : x = f
  · rw [hxf, A.setFat_self, linked_free hf]
    rfl
  · rw [A.setFat_of_ne hxf]

theorem Walk.setFree (h : v.Walk A L) (hf : A.Free f) : v.Walk (A.setFat f eoc) L where
  chain := h.chain.mono (fun x _ _ _ hlink => (linked_setFree hf x).trans hlink)
    fun x _ hstop => (linked_setFree hf x).trans hstop
  inside := h.inside
  distinct := h.distinct

/-- The search begins when a free cluster is marked as a chain of its own. -/
theorem ends_create {Q : ℕ → Drives → Prop} {E : Fault → Drives → Prop} (hw : v.view w = A)
    (hfrom : ∀ f w', 2 ≤ f ∧ f < v.total → A.Free f → v.view w' = A.setFat f eoc →
      Ends (v.fs.createFrom v.disk (newEntry (to83 name) isDir f) (v.total+1) c) w'
        (fun _ w' => Q f w') E)
    (hE : ∀ e w', ¬A.Sound ∨ (∀ d, 2 ≤ d → d < v.total → ¬A.Free d) ∧ v.view w' = A → E e w') :
    Ends (v.fs.createFileEntry v.disk c name isDir) w Q E := by
  refine Ends.bind (Ends.fails (allocCluster_ends hw) hE) ?_
  rintro f w₁ ⟨hf2,hft,hfree,hw₁⟩
  refine Ends.bind (Ends.fails (setFatEntry_ends hw₁ hft eoc) fun e w' h => hE e w' (.inl h)) ?_
  intro _ w₂ hw₂
  exact Ends.bind (hfrom f w₂ ⟨hf2,hft⟩ hfree hw₂) fun _ _ h => ends_pure h

theorem createFileEntry_walk (hw : v.view w = A) (h : v.Walk A (c::R)) :
    Ends (v.fs.createFileEntry v.disk c name isDir) w
      (fun f w' => (2 ≤ f ∧ f < v.total) ∧ A.Free f ∧
        v.Enters (A.setFat f eoc) (v.view w') (c::R) (newEntry (to83 name) isDir f))
      fun _ w' => ¬A.Sound ∨ v.view w' = A ∧ (∀ d, 2 ≤ d → d < v.total → ¬A.Free d) ∨
        ∃ f, A.Free f ∧ v.view w' = A.setFat f eoc ∧ v.Full (A.setFat f eoc) (c::R) := by
  obtain ⟨h8,h3⟩ := to83_lengths name
  have hlen := h.length_le
  rw [length_cons] at hlen
  refine ends_create hw ?_ fun _ _ he => he.imp_right fun hnone => .inl ⟨hnone.2,hnone.1⟩
  intro f w₂ hf hfree hw₂
  refine (createFrom_walk hw₂ (h.setFree hfree) (by omega) (length_newEntry h8 h3)).mono ?_ ?_
  · exact fun _ _ henters => ⟨hf,hfree,henters⟩
  · exact fun _ _ he => he.imp_right fun hfull => .inr ⟨f,hfree,hfull.1,hfull.2⟩

theorem Enters.entered (h : v.Enters A B L entry) (hsub : ∀ c ∈ L, S c) : v.Entered A B S entry := by
  cases h with
  | slot L₁ e L₂ i hL _ hslot hB => exact .slot e i (hsub e (by rw [hL]; simp)) hslot hB
  | cluster L₁ d x hL _ hx hfree hB =>
    exact .cluster d x (hsub d (by rw [hL]; simp)) hx hfree (by rw [hB]; rfl) (by rw [hB]; rfl)

theorem Closed.congr (h : v.Closed A S) (hfat : ∀ c, S c → B.fat c = A.fat c) : v.Closed B S := by
  intro c hc
  rw [hfat c hc]
  exact h c hc

theorem listed_patch {buf : List UInt8} (hlen : buf.length = v.size)
    (hslot : v.fs.freeSlot buf = some i) (htidy : v.Tidy buf) (hentry : entry.length = 32)
    (hattr : entry.getD 11 0 = 0x20) (hsize : field entry 28 4 = 0) :
    ∀ e ∈ parseEntries (slots (patch buf (i*32) entry) (v.size/32)) [],
      e ∈ parseEntries (slots buf (v.size/32)) [] ∨ e.size = 0 := by
  have hi := mem_range.mp (mem_of_find?_eq_some hslot)
  rw [v.clusterSize_eq] at hi
  have hfree : buf.getD (i*32) 0 = 0 ∨ buf.getD (i*32) 0 = 0xE5 := by
    have hfound := find?_some hslot
    simpa only [decide_eq_true_eq] using hfound
  have hn : (slots buf (v.size/32)).length = v.size/32 := by
    rw [slots, length_map, length_range]
  have hget : ((slots buf (v.size/32)).getD i []).getD 0 0 = buf.getD (i*32) 0 := by
    rw [getD_eq_getElem (slots buf (v.size/32)) [] (by omega)]
    simp only [slots, getElem_map, getElem_range]
    rw [getD_slot (by decide), Nat.add_zero]
  rw [slots_patch (by omega) hentry hi]
  refine parseEntries_set (by omega) ?_ htidy hattr hsize
  rwa [hget]

theorem slots_zeros (n : ℕ) : ∀ e ∈ slots (List.replicate n 0) (v.size/32), e.getD 0 0 = 0 := by
  intro e he
  obtain ⟨j,_,rfl⟩ := mem_map.mp he
  rw [getD_slot (by decide)]
  by_cases hj : j*32+0 < n
  · rw [getD_eq_getElem _ _ (by rwa [length_replicate]), getElem_replicate]
  · rw [getD_eq_default _ _ (by rw [length_replicate]; omega)]

theorem freeSlot_zeros : v.fs.freeSlot (List.replicate v.size 0) = some 0 := by
  have hpos : 0 < v.size/32 := by
    have hspc := v.fs.clusters
    unfold size
    omega
  have hfirst : (List.replicate v.size (0 : UInt8)).getD (0*32) 0 = 0 := by
    rw [getD_eq_getElem _ _ (by rw [length_replicate]; omega), getElem_replicate]
  obtain ⟨m,hm⟩ := Nat.exists_eq_succ_of_ne_zero hpos.ne'
  unfold Fat32Fs.freeSlot
  rw [v.clusterSize_eq, hm, range_succ_eq_map, find?_cons_of_pos]
  exact decide_eq_true (.inl hfirst)

variable (v) in
/-- The directory `S` of `A` has become `S'` in `B`, and lists nothing new but empty files. -/
structure Shows (A B : View) (S S' : ℕ → Prop) : Prop where
  closed : v.Closed B S'
  mono : ∀ c, S c → S' c
  used : ∀ c, S' c → ¬B.Free c
  listed : ∀ c, S' c → ∀ e ∈ v.listed B c, (∃ d, S d ∧ e ∈ v.listed A d) ∨ e.size = 0

theorem Entered.shows (h : v.Entered A B S entry) (hlen : ∀ c, S c → (A.data c).length = v.size)
    (hS : v.Closed A S)
    (hused : ∀ c, S c → ¬A.Free c) (htidy : ∀ c, S c → v.Tidy (A.data c))
    (hentry : entry.length = 32) (hattr : entry.getD 11 0 = 0x20) (hsize : field entry 28 4 = 0) :
    ∃ S', v.Shows A B S S' ∧ ∀ c, ¬A.Free c → ¬S c → ¬S' c ∧ B.fat c = A.fat c := by
  cases h with
  | slot d i hd hslot hB =>
    subst hB
    refine ⟨S,⟨hS,fun c hc => hc,hused,fun c hc e he => ?_⟩,fun c _ hc => ⟨hc,rfl⟩⟩
    unfold FatVolume.listed at he
    change e ∈ parseEntries (slots (Function.update A.data d _ c) (v.size/32)) [] at he
    by_cases hcd : c = d
    · rw [hcd, update_self] at he
      refine (listed_patch (hlen d hd) hslot (htidy d hd) hentry hattr hsize e
        he).imp_left fun hold => ⟨d,hd,hold⟩
    · rw [update_of_ne hcd] at he
      exact .inl ⟨c,hc,he⟩
  | cluster d x hd hx hfree hfat hdata =>
    have hne : ∀ c, ¬A.Free c → c ≠ x := fun c hc hcx => hc (hcx ▸ hfree)
    have hBx : B.fat x = eoc := by
      rw [hfat]
      exact View.setFat_self _ x eoc
    have hBd : B.fat d = x := by
      rw [hfat, View.setFat_of_ne _ (hne d (hused d hd)), A.setFat_self]
    have hBc : ∀ c, ¬A.Free c → c ≠ d → B.fat c = A.fat c := by
      intro c hc hcd
      rw [hfat, View.setFat_of_ne _ (hne c hc), A.setFat_of_ne hcd]
    refine ⟨fun c => S c ∨ c = x,⟨?_,fun c hc => .inl hc,?_,?_⟩,?_⟩
    · rintro c (hc | rfl)
      · refine ⟨(hS c hc).1,?_⟩
        by_cases hcd : c = d
        · rw [hcd, hBd, linked_member hx.2]
          exact .inr (.inr rfl)
        · rw [hBc c (hused c hc) hcd]
          exact (hS c hc).2.imp_right .inl
      · rw [hBx]
        exact ⟨hx,.inl rfl⟩
    · rintro c (hc | rfl)
      · unfold View.Free
        by_cases hcd : c = d
        · rw [hcd, hBd, member_small hx.2]
          omega
        · rw [hBc c (hused c hc) hcd]
          exact hused c hc
      · exact View.not_free_eoc hBx
    · intro c hc e he
      unfold FatVolume.listed at he
      rw [hdata] at he
      change e ∈ parseEntries (slots (Function.update A.data x _ c) (v.size/32)) [] at he
      by_cases hcx : c = x
      · rw [hcx, update_self] at he
        have hzeros := slots_zeros (v := v) v.size
        have htidy' : v.Tidy (List.replicate v.size 0) :=
          pairwise_of_forall_mem_list fun _ _ e' he' _ => hzeros e' he'
        refine (listed_patch length_replicate freeSlot_zeros htidy' hentry hattr hsize e
          he).imp_left fun hold => ?_
        rw [parseEntries_ended hzeros] at hold
        exact absurd hold not_mem_nil
      · rw [update_of_ne hcx] at he
        exact .inl ⟨c,hc.resolve_right hcx,he⟩
    · intro c hc hcS
      refine ⟨fun h => h.elim hcS (hne c hc),hBc c hc ?_⟩
      rintro rfl
      exact hcS hd

theorem Shows.written {S' : ℕ → Prop} {B' : View} {f : ℕ} (h : v.Shows A B S S') (hf : ¬S' f)
    (hext : v.Extended B B' [f] N 0 text) : v.Shows A B' S S' := by
  have hout : ∀ c, S' c → B'.fat c = B.fat c ∧ B'.data c = B.data c := by
    intro c hc
    have hcf : c ∉ [f] := by
      rw [mem_singleton]
      rintro rfl
      exact hf hc
    exact (hext.outside hcf (h.used c hc)).2
  refine ⟨h.closed.congr fun c hc => (hout c hc).1,h.mono,fun c hc => ?_,fun c hc => ?_⟩
  · unfold View.Free
    rw [(hout c hc).1]
    exact h.used c hc
  · unfold FatVolume.listed
    rw [(hout c hc).2]
    exact h.listed c hc

theorem createFileEntry_ends (hw : v.view w = A) (hD : v.FileChain A D)
    (hroot : D.head? = some c) (htidy : ∀ d ∈ D, v.Tidy (A.data d)) :
    Ends (v.fs.createFileEntry v.disk c name false) w
      (fun f w' => (2 ≤ f ∧ f < v.total) ∧ (v.view w').fat f = eoc ∧
        ∃ S', v.Shows A (v.view w') (· ∈ D) S' ∧ ¬S' f)
      fun _ _ => True := by
  obtain ⟨h8,h3⟩ := to83_lengths name
  obtain ⟨L,T,rfl,hL,_⟩ := hD.seen
  cases L with
  | nil => exact (hL.chain.ne_nil rfl).elim
  | cons c' R =>
    obtain rfl : c' = c := some.inj hroot
    refine (createFileEntry_walk hw hL.walk).mono ?_ fun _ _ _ => trivial
    rintro f w' ⟨hf,hfree,henters⟩
    have hfD : f ∉ c'::R++T := fun hmem => hD.used hmem hfree
    have hfat : ∀ d ∈ c'::R++T, (A.setFat f eoc).fat d = A.fat d := fun d hd =>
      A.setFat_of_ne (ne_of_mem_of_not_mem hd hfD) eoc
    have hused : ∀ d ∈ c'::R++T, ¬(A.setFat f eoc).Free d := fun d hd hdfree =>
      hD.used hd (View.free_setEoc.mp hdfree).2
    have hlen : ∀ d ∈ c'::R++T, (A.data d).length = v.size := fun d hd =>
      length_data hw (hD.inside d hd).1 (hD.inside d hd).2
    have hentered := henters.entered (S := (· ∈ c'::R++T)) fun x hx => mem_append_left T hx
    obtain ⟨S',hshows,hout⟩ := hentered.shows hlen (hD.closed.congr hfat) hused htidy
      (length_newEntry h8 h3) (newEntry_attributes h8 h3) (newEntry_size h8 h3)
    obtain ⟨hS'f,hBf⟩ := hout f (View.not_free_eoc (A.setFat_self f eoc)) hfD
    exact ⟨hf,hBf.trans (A.setFat_self f eoc),S',
      ⟨hshows.closed,hshows.mono,hshows.used,hshows.listed⟩,hS'f⟩

theorem shellWrite_ends (hw : v.view w = A) (hD : v.FileChain A D)
    (hroot : D.head? = some v.fs.rootCluster) (htidy : ∀ d ∈ D, v.Tidy (A.data d)) :
    Ends (v.fs.shellWrite v.disk name text) w
      (fun _ w' => ∃ S', v.Shows A (v.view w') (· ∈ D) S') fun _ _ => True := by
  refine Ends.bind (createFileEntry_ends hw hD hroot htidy) ?_
  rintro f w₁ ⟨hin,hf,S',hshows,hS'f⟩
  have hseen : v.Seen (v.view w₁) [f] :=
    ⟨.last hf.ge,fun x hx => mem_singleton.mp hx ▸ hin,nodup_singleton f⟩
  refine Ends.mono (writeFileData_ends rfl hseen ?_) ?_ fun _ _ _ => trivial
  · intro x hx
    rw [mem_singleton.mp hx]
    exact View.not_free_eoc hf
  · rintro n w' ⟨_,_,N,hext⟩
    exact ⟨S',hshows.written hS'f hext⟩

theorem write_then_cat_ends {len : ℕ} (hw : v.view w = A) (hD : v.FileChain A D)
    (hroot : D.head? = some v.fs.rootCluster) (htidy : ∀ d ∈ D, v.Tidy (A.data d))
    (hnew : ∀ d ∈ D, ∀ e ∈ v.listed A d, ¬eqIgnoreAsciiCase e.name name) :
    Ends (v.fs.shellWrite v.disk name text >>= fun _ => v.fs.shellCat v.disk name len) w
      (fun bs _ => bs = []) fun _ _ => True := by
  refine Ends.bind (shellWrite_ends hw hD hroot htidy) ?_
  rintro _ w₁ ⟨S',hshows⟩
  refine shellCat_ends rfl hshows.closed (hshows.mono _ (mem_of_head? hroot)) ?_
  intro d hd e he hname
  refine (hshows.listed d hd e he).resolve_left ?_
  rintro ⟨d',hd',he'⟩
  exact hnew d' hd' e he' hname

/-- cat never returns the text of a new file. -/
theorem cat_loses_text {len : ℕ} (hD : v.FileChain (v.view w) D)
    (hroot : D.head? = some v.fs.rootCluster) (htidy : ∀ d ∈ D, v.Tidy ((v.view w).data d))
    (hnew : ∀ d ∈ D, ∀ e ∈ v.listed (v.view w) d, ¬eqIgnoreAsciiCase e.name name)
    (htext : text ≠ []) :
    answer (v.fs.shellWrite v.disk name text >>= fun _ => v.fs.shellCat v.disk name len) w ≠
      .ok text := by
  have hends : Ends (v.fs.shellWrite v.disk name text >>= fun _ =>
      v.fs.shellCat v.disk name len) w _ _ := write_then_cat_ends rfl hD hroot htidy hnew
  exact fun hanswer => htext (hends.ok (ok_of_answer hanswer))

/-! ## A run -/

/-- A volume with an empty root directory of one cluster. -/
def emptyRoot : Drives := image [(520,toLe 4 eoc)]

theorem emptyRoot_chain : small.FileChain (small.view emptyRoot) [2] :=
  ⟨.last (by decide +kernel),by decide,nodup_singleton 2⟩

theorem cat_loses_text_of_empty_root :
    answer (small.fs.shellWrite small.disk [0x41] [0x42] >>= fun _ =>
      small.fs.shellCat small.disk [0x41] 8192) emptyRoot ≠ .ok [0x42] := by
  have htidy : ∀ d ∈ [2], (slots ((small.view emptyRoot).data d) (small.size/32)).Pairwise
      fun e e' => e.getD 0 0 = 0 → e'.getD 0 0 = 0 := by
    decide +kernel
  exact cat_loses_text emptyRoot_chain rfl htidy (by decide +kernel) (by decide)

/-- A byte is written, and cat returns nothing. -/
theorem cat_returns_nothing :
    (∃ w', small.fs.shellWrite small.disk [0x41] [0x42] emptyRoot = .ok 1 w') ∧
      answer (small.fs.shellWrite small.disk [0x41] [0x42] >>= fun _ =>
        small.fs.shellCat small.disk [0x41] 8192) emptyRoot = .ok [] :=
  ⟨⟨_,ok_of_answer (by decide +kernel)⟩,by decide +kernel⟩

end FatVolume

end Zohara.Fat32
