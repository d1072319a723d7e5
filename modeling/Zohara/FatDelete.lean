import Zohara.FatFree

/-!
# Deleting a file of a FAT32 volume

delete_file_entry takes the first entry with the name, frees the chain that the entry names and
marks the entry. The start cluster of an entry is stored in two halves of two bytes; the code
reads the low byte of each half only. And it frees the chain only as far as it sees it. So a
deletion that returns has freed the chain of the file, and nothing else, exactly when the two
high bytes are zero and no link of the chain has a reserved bit set.
-/
namespace Zohara.Fat32.FatVolume
open ByteMemory FallibleState IdeDisk ElfImage List Option Function
variable {v : FatVolume} {w : Drives} {A B : View} {c d n : ℕ} {l R : List ℕ}

/-! ## Entries of a directory -/

/-- The start cluster of an entry, as create_file_entry stores and readdir reads it. -/
def startCluster (e : List UInt8) : ℕ := field e 20 2*2^16+field e 26 2

/-- The start cluster that delete_file_entry reads. -/
def deletedStart (buf : List UInt8) (i : ℕ) : ℕ :=
  (buf.getD (i*32+20) 0).toNat*2^16+(buf.getD (i*32+26) 0).toNat

variable (v) in
/-- The first entry of the directory `D₁++e::D₂` with the name is the i-th of the cluster `e`. -/
structure Entry (A : View) (short : List UInt8 × List UInt8) (D₁ : List ℕ) (e i : ℕ) : Prop where
  before : ∀ d ∈ D₁, v.fs.matchSlot (A.data d) short = none
  found : v.fs.matchSlot (A.data e) short = some i
  used : (A.data e).getD (i*32) 0 ≠ 0

theorem field_two {bs : List UInt8} {off : ℕ} (h : off+2 ≤ bs.length) :
    field bs off 2 = (bs.getD off 0).toNat+256*(bs.getD (off+1) 0).toNat := by
  have hread : (bs.drop off).take 2 = [bs.getD off 0,bs.getD (off+1) 0] := by
    rw [← read_getD bs h]
    rfl
  rw [field, hread]
  rfl

theorem startCluster_slot {buf : List UInt8} {i : ℕ} (h : i*32+32 ≤ buf.length) :
    startCluster (slot buf i) = deletedStart buf i+
      256*((buf.getD (i*32+21) 0).toNat*2^16+(buf.getD (i*32+27) 0).toNat) := by
  have hlen : (slot buf i).length = 32 := by
    rw [slot, length_take, length_drop]
    omega
  unfold startCluster deletedStart
  rw [field_two (by omega), field_two (by omega), getD_slot (by decide), getD_slot (by decide),
    getD_slot (by decide), getD_slot (by decide)]
  ring

theorem startCluster_eq_iff {buf : List UInt8} {i : ℕ} (h : i*32+32 ≤ buf.length) :
    deletedStart buf i = startCluster (slot buf i) ↔
      buf.getD (i*32+21) 0 = 0 ∧ buf.getD (i*32+27) 0 = 0 := by
  rw [startCluster_slot h, ← UInt8.toNat_inj, ← UInt8.toNat_inj, UInt8.toNat_zero]
  omega

section
variable {short : List UInt8 × List UInt8} {D₁ D₂ L₁ L₂ : List ℕ} {e i : ℕ}

theorem Entry.room (h : v.Entry A short D₁ e i) : i*32+32 ≤ v.size := by
  have hi := mem_range.mp (mem_of_find?_eq_some h.found)
  rw [v.clusterSize_eq] at hi
  unfold size at hi ⊢
  omega

theorem deleteSlot_ends (hw : v.view w = A) (he : 2 ≤ e ∧ e < v.total) (hroom : i*32+32 ≤ v.size) :
    Ends (v.fs.deleteSlot v.disk e (A.data e) i) w
      (fun _ w' => ∃ B, v.FreedBy A (deletedStart (A.data e) i) B ∧
        v.view w' = B.setData e (patch (A.data e) (i*32) [0xE5]))
      fun f w' => ¬A.Sound ∨ ¬v.Frees A (deletedStart (A.data e) i) ∧ f = .err "bad cluster" ∧
        Zeroed A (v.view w') := by
  have hlen : (patch (A.data e) (i*32) [0xE5]).length = v.size := by
    have hdata := length_data hw he.1 he.2
    rw [length_patch (by rw [hdata, length_singleton]; omega), hdata]
  have hmark : ∀ w₁, v.FreedBy A (deletedStart (A.data e) i) (v.view w₁) →
      Ends (v.fs.writeCluster v.disk e (patch (A.data e) (i*32) [0xE5])) w₁
        (fun _ w' => ∃ B, v.FreedBy A (deletedStart (A.data e) i) B ∧
          v.view w' = B.setData e (patch (A.data e) (i*32) [0xE5])) fun _ _ => ¬A.Sound := fun w₁ hB =>
    (writeCluster_ends rfl he.1 he.2 hlen).mono (fun _ _ hw' => ⟨_,hB,hw'⟩)
      fun _ _ hns hs => hns (hs.of_fails hB.zeroed.fails)
  change Ends (if 2 ≤ deletedStart (A.data e) i then
    v.fs.freeClusterChain v.disk (deletedStart (A.data e) i) >>= fun _ =>
      v.fs.writeCluster v.disk e (patch (A.data e) (i*32) [0xE5])
    else v.fs.writeCluster v.disk e (patch (A.data e) (i*32) [0xE5])) w _ _
  split_ifs with hcl
  · exact Ends.bind (freeClusterChain_freed hw) fun _ w₁ hB =>
      (hmark w₁ hB).fails fun _ _ hns => .inl hns
  · refine (hmark w ?_).fails fun _ _ hns => .inl hns
    rw [hw]
    exact .outside fun h => hcl h.1

theorem deleteFrom_round {Q : Unit → Drives → Prop} {E : Fault → Drives → Prop} (hw : v.view w = A)
    (hc : 2 ≤ c ∧ c < v.total)
    (hfound : ∀ i, v.fs.matchSlot (A.data c) short = some i → ∀ w', v.view w' = A →
      Ends (if (A.data c).getD (i*32) 0 = 0 then throw (.err "file not found")
        else v.fs.deleteSlot v.disk c (A.data c) i) w' Q E)
    (hnone : v.fs.matchSlot (A.data c) short = none → A.fat c ≠ 0x0FFFFFF7 ∧
      ∀ w', v.view w' = A →
        Ends (if linked (A.fat c) = 0 then throw (.err "file not found")
          else v.fs.deleteFrom v.disk short n (linked (A.fat c))) w' Q E)
    (hfail : ¬A.Sound → ∀ f w', E f w') :
    Ends (v.fs.deleteFrom v.disk short (n+1) c) w Q E := by
  rw [Fat32Fs.deleteFrom, v.clusterSize_eq]
  refine Ends.bind (Ends.fails (readCluster_ends hw hc.1 hc.2) fun f w' hns => hfail hns f w') ?_
  intro buf w₁ hbuf
  rw [hbuf.1]
  cases hslot : v.fs.matchSlot (A.data c) short with
  | some i => exact hfound i hslot w₁ hbuf.2
  | none =>
    obtain ⟨hgood,hnext⟩ := hnone hslot
    refine Ends.bind (Ends.fails (nextCluster_good hbuf.2 hc.2 hgood) fun f w' hns => hfail hns f w') ?_
    intro x w₂ hx
    rw [hx.1]
    exact hnext w₂ hx.2

theorem deleteFrom_walk {Q : Unit → Drives → Prop} {E : Fault → Drives → Prop} (hw : v.view w = A)
    (h : v.Walk A (c::R)) (hn : R.length < n)
    (hfound : ∀ L₁ e L₂ i, c::R = L₁++e::L₂ → (∀ d ∈ L₁, v.fs.matchSlot (A.data d) short = none) →
      v.fs.matchSlot (A.data e) short = some i → ∀ w', v.view w' = A →
        Ends (if (A.data e).getD (i*32) 0 = 0 then throw (.err "file not found")
          else v.fs.deleteSlot v.disk e (A.data e) i) w' Q E)
    (hnone : (∀ d ∈ c::R, v.fs.matchSlot (A.data d) short = none) → ∀ w', v.view w' = A →
      E (.err "file not found") w')
    (hfail : ¬A.Sound → ∀ e w', E e w') : Ends (v.fs.deleteFrom v.disk short n c) w Q E := by
  induction R generalizing c n w with
  | nil =>
    obtain ⟨m,rfl⟩ := Nat.exists_eq_add_of_lt hn
    refine deleteFrom_round hw (h.inside c mem_cons_self) ?_ ?_ hfail
    · exact fun i => hfound [] c [] i rfl fun d hd => absurd hd not_mem_nil
    · refine fun hslot => ⟨h.good,fun w₂ hw₂ => ?_⟩
      rw [if_pos h.stop]
      exact ends_throw (hnone (fun d hd => mem_singleton.mp hd ▸ hslot) w₂ hw₂)
  | cons d R ih =>
    have hd := h.inside d (mem_cons_of_mem c mem_cons_self)
    obtain ⟨m,rfl⟩ := Nat.exists_eq_add_of_lt hn
    refine deleteFrom_round hw (h.inside c mem_cons_self) ?_ ?_ hfail
    · exact fun i => hfound [] c (d::R) i rfl fun d hd => absurd hd not_mem_nil
    · refine fun hslot => ⟨h.good,fun w₂ hw₂ => ?_⟩
      rw [h.link, if_neg (by omega)]
      refine ih hw₂ h.tail (by rw [length_cons]; omega) ?_ ?_
      · intro L₁ e L₂ i hsplit hbefore
        refine hfound (c::L₁) e L₂ i (by rw [hsplit, cons_append]) ?_
        exact forall_mem_cons.mpr ⟨hslot,hbefore⟩
      · exact fun hall => hnone (forall_mem_cons.mpr ⟨hslot,hall⟩)

theorem stop_unique {L₁' L₂' : List ℕ} {e' i' : ℕ} (heq : L₁++e::L₂ = L₁'++e'::L₂')
    (hbefore : ∀ d ∈ L₁, v.fs.matchSlot (A.data d) short = none)
    (hfound : v.fs.matchSlot (A.data e) short = some i)
    (hbefore' : ∀ d ∈ L₁', v.fs.matchSlot (A.data d) short = none)
    (hfound' : v.fs.matchSlot (A.data e') short = some i') : L₁ = L₁' ∧ e = e' ∧ i = i' := by
  induction L₁ generalizing L₁' with
  | nil =>
    cases L₁' with
    | nil =>
      have he : e = e' := (cons_eq_cons.mp heq).1
      rw [← he, hfound] at hfound'
      exact ⟨rfl,he,some.inj hfound'⟩
    | cons d L₁' =>
      have he : e = d := (cons_eq_cons.mp heq).1
      rw [he, hbefore' d mem_cons_self] at hfound
      cases hfound
  | cons d L₁ ih =>
    cases L₁' with
    | nil =>
      have he : d = e' := (cons_eq_cons.mp heq).1
      rw [← he, hbefore d mem_cons_self] at hfound'
      cases hfound'
    | cons d' L₁' =>
      obtain ⟨hd,htail⟩ := cons_eq_cons.mp heq
      have hrest := ih htail ((forall_mem_cons.mp hbefore).2)
        (forall_mem_cons.mp hbefore').2
      exact ⟨by rw [hd, hrest.1],hrest.2⟩

/-- A deletion frees the chain from the start that it reads, or the entry is behind a link with a
reserved bit set, or the chain has a bad cluster. -/
theorem deleteFileEntry_ends {name : List UInt8} (hw : v.view w = A)
    (hD : v.FileChain A (D₁++e::D₂)) (h : v.Entry A (to83 name) D₁ e i) :
    Ends (v.fs.deleteFileEntry v.disk ((D₁++e::D₂).headD 0) name) w
      (fun _ w' => ∃ B, v.FreedBy A (deletedStart (A.data e) i) B ∧
        v.view w' = B.setData e (patch (A.data e) (i*32) [0xE5]))
      fun _ _ => ¬A.Sound ∨ (∃ d ∈ D₁, 2^28 ≤ A.fat d) ∨
        ¬v.Frees A (deletedStart (A.data e) i) := by
  have he := hD.inside e (mem_append_right _ mem_cons_self)
  obtain ⟨L,T,hl,hL,hT⟩ := hD.seen
  cases L with
  | nil => exact (hL.chain.ne_nil rfl).elim
  | cons c R =>
    have hlen := hL.length_le
    rw [length_cons] at hlen
    rw [hl]
    change Ends (v.fs.deleteFrom v.disk (to83 name) (v.fs.totalClusters+1) c) w _ _
    refine deleteFrom_walk hw hL.walk (Nat.lt_succ_of_le (Nat.le_of_succ_le hlen)) ?_ ?_
      fun hns _ _ => .inl hns
    · intro L₁ e' L₂ i' hsplit hbefore hfound w' hw'
      rw [hsplit, append_assoc, cons_append] at hl
      obtain ⟨_,rfl,rfl⟩ := stop_unique hl h.before h.found hbefore hfound
      rw [if_neg h.used]
      exact (deleteSlot_ends hw' he h.room).fails fun _ _ hf => hf.imp_right fun hbad => .inr hbad.1
    · -- the entry is not in the part that is seen
      intro hall _ _
      have hout : e ∉ c::R := by
        intro hmem
        have hfound := h.found
        rw [hall e hmem] at hfound
        cases hfound
      obtain ⟨M,hD₁,hM⟩ | ⟨M,hcR,hM⟩ := append_eq_append_iff.mp hl
      · cases M with
        | nil =>
          obtain ⟨l₁,x,hx,hdirty⟩ := hT (by rw [nil_append] at hM; exact hM ▸ cons_ne_nil e D₂)
          refine .inr (.inl ⟨x,?_,hdirty⟩)
          rw [append_nil] at hD₁
          rw [← hD₁, hx]
          simp
        | cons y M =>
          obtain ⟨rfl,_⟩ := cons_eq_cons.mp hM
          exact absurd (by rw [hD₁]; simp) hout
      · obtain ⟨l₁,x,hx,hdirty⟩ := hT (by rw [hM]; simp)
        refine .inr (.inl ⟨x,?_,hdirty⟩)
        rw [hcR, hx]
        simp

end

/-! ## What a deletion should leave -/

section
variable {files : List (List ℕ)} {D₁ D₂ C : List ℕ} {e i : ℕ}

variable (v) in
/-- The chain `C` is freed and the entry marked, and nothing else is changed. -/
structure Deleted (A B : View) (files : List (List ℕ)) (D₁ D₂ C : List ℕ) (e i : ℕ) : Prop where
  zeroed : ∀ x, A.fat x ≠ 0 ∧ B.fat x = 0 ↔ x ∈ C
  chains : ∀ F ∈ files, F ≠ C → v.FileChain B F
  contents : ∀ F ∈ files, F ≠ C → F ≠ D₁++e::D₂ → B.contents F = A.contents F
  directory : D₁++e::D₂ ≠ C → B.contents (D₁++e::D₂) =
    patch (A.contents (D₁++e::D₂)) (D₁.length*v.size+i*32) [0xE5]

/-- The chain of the file that starts at `c`; an empty file has no cluster. -/
def Names (files : List (List ℕ)) (C : List ℕ) (c : ℕ) : Prop :=
  C = [] ∧ c = 0 ∨ C ∈ files ∧ C.head? = some c

/-- The high bytes of the two halves of the start cluster are zero, and no link of the chain has a
reserved bit set. -/
def Deletable (A : View) (C : List ℕ) (e i : ℕ) : Prop :=
  (A.data e).getD (i*32+21) 0 = 0 ∧ (A.data e).getD (i*32+27) 0 = 0 ∧
    ∀ k, k+1 < C.length → A.fat (C.getD k 0) < 2^28

theorem FileChain.fat_ne_zero (h : v.FileChain A l) (hc : c ∈ l) : A.fat c ≠ 0 := fun hzero =>
  h.used hc (View.free_of_zero hzero)

theorem contents_marked (hw : v.view w = A) (hD : v.FileChain A (D₁++e::D₂))
    (hroom : i*32+32 ≤ v.size) :
    (A.setData e (patch (A.data e) (i*32) [0xE5])).contents (D₁++e::D₂) =
      patch (A.contents (D₁++e::D₂)) (D₁.length*v.size+i*32) [0xE5] := by
  have he := hD.inside e (mem_append_right _ mem_cons_self)
  have hd := nodup_append.mp hD.distinct
  have hother : ∀ l : List ℕ, e ∉ l →
      (A.setData e (patch (A.data e) (i*32) [0xE5])).contents l = A.contents l := fun l hl =>
    View.contents_congr fun x hx => update_of_ne (ne_of_mem_of_not_mem hx hl) _ _
  have hself : (A.setData e (patch (A.data e) (i*32) [0xE5])).data e =
      patch (A.data e) (i*32) [0xE5] := update_self _ _ _
  have hlen : (A.contents D₁).length = D₁.length*v.size :=
    length_contents hw (forall_mem_append.mp hD.inside).1
  rw [View.contents_append, View.contents_append, View.contents_cons, View.contents_cons, hself,
    hother D₁ fun hmem => hd.2.2 e hmem e mem_cons_self rfl,
    hother D₂ (nodup_cons.mp hd.2.1).1, ← hlen, append_patch, patch_append]
  rw [length_data hw he.1 he.2, length_singleton]
  omega

theorem deleted_freed (hw : v.view w = A) (hfiles : v.Files A files) (hD : D₁++e::D₂ ∈ files)
    (hC : C = [] ∨ C ∈ files) (hroom : i*32+32 ≤ v.size) :
    v.Deleted A ((A.freed C).setData e (patch (A.data e) (i*32) [0xE5])) files D₁ D₂ C e i := by
  have hapart : ∀ F ∈ files, F ≠ C → ∀ x ∈ F, x ∉ C := by
    intro F hF hFC x hx hxC
    cases hC with
    | inl hnil =>
      rw [hnil] at hxC
      exact absurd hxC not_mem_nil
    | inr hC => exact hfiles.disjoint hF hC hFC hx hxC
  refine ⟨?_,?_,?_,?_⟩
  · intro x
    change A.fat x ≠ 0 ∧ (if x ∈ C then 0 else A.fat x) = 0 ↔ x ∈ C
    split_ifs with hx
    · have hC : C ∈ files := hC.resolve_left (ne_nil_of_mem hx)
      exact iff_of_true ⟨(hfiles.chains C hC).fat_ne_zero hx,rfl⟩ hx
    · exact iff_of_false (fun h => h.1 h.2) hx
  · intro F hF hFC
    refine Linked.congr (hfiles.chains F hF) fun x hx => ?_
    change (if x ∈ C then 0 else A.fat x)%2^28 = A.fat x%2^28
    rw [if_neg (hapart F hF hFC x hx)]
  · intro F hF hFC hFD
    refine View.contents_congr fun x hx => update_of_ne ?_ _ _
    rintro rfl
    exact hfiles.disjoint hF hD hFD hx (mem_append_right _ mem_cons_self)
  · intro _
    change (A.setData e (patch (A.data e) (i*32) [0xE5])).contents (D₁++e::D₂) = _
    exact contents_marked hw (hfiles.chains _ hD) hroom

theorem freedBy_file {l : List ℕ} (h : v.FileChain A (c::l)) :
    ∃ L T, c::l = L++T ∧ (T = [] ↔ ∀ k, k+1 < (c::l).length → A.fat ((c::l).getD k 0) < 2^28) ∧
      v.FreedBy A c (A.freed L) := by
  obtain ⟨L,T,hl,hL,hT⟩ := h.seen
  refine ⟨L,T,hl,?_,?_⟩
  · rw [hl]
    constructor
    · intro hnil k hk
      rw [hnil, append_nil] at hk ⊢
      exact hL.clean hk
    · intro hclean
      by_contra hne
      obtain ⟨l₁,x,rfl,hdirty⟩ := hT hne
      have hpos := length_pos_of_ne_nil hne
      have hx := hclean l₁.length (by simp; omega)
      rw [show (l₁++[x]++T).getD l₁.length 0 = x by simp] at hx
      omega
  · cases L with
    | nil => exact (hL.chain.ne_nil rfl).elim
    | cons y R =>
      obtain ⟨rfl,_⟩ := cons_eq_cons.mp hl
      exact hL.freedBy

section
variable {w' : Drives} {name : List UInt8}

/-- Where the high bytes are not zero, another cluster is taken for the start, and the start of the
file is not freed, or a cluster that is not of the file is. -/
theorem not_deleted (hfiles : v.Files (v.view w) files) (hD : D₁++e::D₂ ∈ files)
    (h : v.Entry (v.view w) (to83 name) D₁ e i) (hC : c::l ∈ files)
    (hne : deletedStart ((v.view w).data e) i ≠ c)
    (hok : v.fs.deleteFileEntry v.disk ((D₁++e::D₂).headD 0) name w = .ok () w') :
    ¬v.Deleted (v.view w) (v.view w') files D₁ D₂ (c::l) e i := by
  intro hdel
  have hchain := hfiles.chains _ hC
  have hDchain := hfiles.chains _ hD
  have hstart := hchain.fat_ne_zero mem_cons_self
  have hzero := ((hdel.zeroed c).mpr mem_cons_self).2
  obtain ⟨B,hB,hw'⟩ := (deleteFileEntry_ends rfl hDchain h).ok hok
  generalize deletedStart ((v.view w).data e) i = cl at hne hB
  rw [hw'] at hzero
  by_cases hmem : cl ∈ c::l
  · -- a later member of the same file
    have hlater : cl ∈ l := (mem_cons.mp hmem).resolve_left hne
    obtain ⟨l₁,l₂,rfl⟩ := append_of_mem hlater
    rw [← cons_append] at hchain
    obtain ⟨L,T,hL,_,hfree⟩ := freedBy_file (hchain.suffix (cons_ne_nil cl l₂))
    have hout : c ∉ L := by
      intro hc
      have hc' : c ∈ cl::l₂ := hL ▸ mem_append_left T hc
      exact (nodup_append.mp hchain.distinct).2.2 c mem_cons_self c hc' rfl
    rw [hB.unique hfree] at hzero
    change (if c ∈ L then 0 else (v.view w).fat c) = 0 at hzero
    rw [if_neg hout] at hzero
    exact hstart hzero
  · by_cases hfree : (v.view w).fat cl = 0
    · rw [hB.unique (freedBy_zero hfree)] at hzero
      exact hstart hzero
    · by_cases hin : 2 ≤ cl ∧ cl < v.total
      · apply hmem
        apply (hdel.zeroed cl).mp
        rw [hw']
        exact ⟨hfree,hB.start hin⟩
      · rw [hB.unique (.outside hin)] at hzero
        exact hstart hzero

/-- A deletion that returns has freed the chain of the file and nothing else exactly when the high
bytes of the start cluster are zero and the links have no reserved bit set. -/
theorem delete_ok_iff (hfiles : v.Files (v.view w) files) (hD : D₁++e::D₂ ∈ files)
    (h : v.Entry (v.view w) (to83 name) D₁ e i)
    (hC : Names files C (startCluster (slot ((v.view w).data e) i)))
    (hok : v.fs.deleteFileEntry v.disk ((D₁++e::D₂).headD 0) name w = .ok () w') :
    v.Deleted (v.view w) (v.view w') files D₁ D₂ C e i ↔ Deletable (v.view w) C e i := by
  have hDchain := hfiles.chains _ hD
  have he := hDchain.inside e (mem_append_right _ mem_cons_self)
  have hroom := h.room
  have hdata : ((v.view w).data e).length = v.size := length_data rfl he.1 he.2
  have hhigh := startCluster_eq_iff (show i*32+32 ≤ ((v.view w).data e).length by omega)
  obtain ⟨B,hB,hw'⟩ := (deleteFileEntry_ends rfl hDchain h).ok hok
  unfold Deletable
  rw [← and_assoc, ← hhigh]
  cases hC with
  | inl hempty =>
    have hzero := startCluster_slot (show i*32+32 ≤ ((v.view w).data e).length by omega)
    rw [hempty.2] at hzero
    have hcl : deletedStart ((v.view w).data e) i = 0 := by omega
    have hdel := deleted_freed rfl hfiles hD (.inl hempty.1) hroom
    rw [hempty.1] at hdel ⊢
    rw [hw', hB.unique (.outside (by omega))]
    rw [freed_nil] at hdel
    refine iff_of_true hdel ⟨hcl.trans hempty.2.symm,fun k hk => ?_⟩
    cases hk
  | inr hfile =>
    cases C with
    | nil => exact absurd hfile.2 (by simp)
    | cons c R =>
      have hc : c = startCluster (slot ((v.view w).data e) i) := some.inj hfile.2
      rw [← hc]
      by_cases heq : deletedStart ((v.view w).data e) i = c
      · obtain ⟨L,T,hL,hclean,hfree⟩ := freedBy_file (hfiles.chains _ hfile.1)
        rw [heq] at hB
        rw [and_iff_right heq, ← hclean, hw', hB.unique hfree]
        constructor
        · intro hdel
          -- a cluster behind the chain that is seen is not freed
          by_contra hT
          obtain ⟨x,hx⟩ := exists_mem_of_ne_nil T hT
          have hd := (hfiles.chains _ hfile.1).distinct
          have hzero := ((hdel.zeroed x).mpr (hL ▸ mem_append_right L hx))
          rw [hL] at hd
          change _ ∧ (if x ∈ L then 0 else (v.view w).fat x) = 0 at hzero
          rw [if_neg fun hxL => (nodup_append.mp hd).2.2 x hxL x hx rfl] at hzero
          exact hzero.1 hzero.2
        · intro hT
          rw [hT, append_nil] at hL
          rw [← hL]
          exact deleted_freed rfl hfiles hD (.inr hfile.1) hroom
      · exact iff_of_false (not_deleted hfiles hD h hfile.1 heq hok) fun hcond => heq hcond.1

end

end

/-- A directory with one entry, and two files of one cluster. -/
def oneEntry (start : ℕ) : Drives :=
  image [(520,toLe 4 eoc),(524,toLe 4 eoc),(1548,toLe 4 eoc),
    (2048,newEntry (to83 [0x41]) false start)]

theorem fileChain_single (hc : 2 ≤ c ∧ c < v.total) (h : A.fat c = eoc) : v.FileChain A [c] where
  chain := .last (by rw [h]; decide)
  inside := fun x hx => mem_singleton.mp hx ▸ hc
  distinct := nodup_singleton c

theorem oneEntry_files {start : ℕ} (h2 : (small.view (oneEntry start)).fat 2 = eoc)
    (h3 : (small.view (oneEntry start)).fat 3 = eoc)
    (h259 : (small.view (oneEntry start)).fat 259 = eoc) :
    small.Files (small.view (oneEntry start)) [[2],[3],[259]] where
  chains := by
    intro F hF
    simp only [mem_cons, not_mem_nil, or_false] at hF
    rcases hF with rfl | rfl | rfl
    · exact fileChain_single (by decide) h2
    · exact fileChain_single (by decide) h3
    · exact fileChain_single (by decide) h259
  apart := by simp

/-- A file that starts at cluster 3. -/
theorem delete_ok_low_start :
    ∃ w', small.fs.deleteFileEntry small.disk 2 [0x41] (oneEntry 3) = .ok () w' ∧
      small.Deleted (small.view (oneEntry 3)) (small.view w') [[2],[3],[259]] [] [] [3] 2 0 := by
  have hfiles : small.Files (small.view (oneEntry 3)) [[2],[3],[259]] :=
    oneEntry_files (by decide +kernel) (by decide +kernel) (by decide +kernel)
  have hentry : small.Entry (small.view (oneEntry 3)) (to83 [0x41]) [] 2 0 :=
    ⟨fun d hd => absurd hd not_mem_nil,by decide +kernel,by decide +kernel⟩
  refine ⟨_,ok_of_answer (by decide +kernel),?_⟩
  refine (delete_ok_iff hfiles mem_cons_self hentry (.inr ⟨by simp,by decide +kernel⟩)
    (ok_of_answer (by decide +kernel))).mpr ?_
  exact ⟨by decide +kernel,by decide +kernel,fun k hk => absurd hk (by simp)⟩

/-- The file starts at cluster 259, and the deletion frees cluster 3 of another file. -/
theorem delete_frees_other_file :
    small.Files (small.view (oneEntry 259)) [[2],[3],[259]] ∧
      small.Entry (small.view (oneEntry 259)) (to83 [0x41]) [] 2 0 ∧
      Names [[2],[3],[259]] [259] (startCluster (slot ((small.view (oneEntry 259)).data 2) 0)) ∧
      ∃ w', small.fs.deleteFileEntry small.disk 2 [0x41] (oneEntry 259) = .ok () w' ∧
        (small.view w').fat 3 = 0 ∧ (small.view w').fat 259 = eoc ∧
        ¬small.Deleted (small.view (oneEntry 259)) (small.view w') [[2],[3],[259]] [] [] [259] 2 0 := by
  have hfiles : small.Files (small.view (oneEntry 259)) [[2],[3],[259]] :=
    oneEntry_files (by decide +kernel) (by decide +kernel) (by decide +kernel)
  have hentry : small.Entry (small.view (oneEntry 259)) (to83 [0x41]) [] 2 0 :=
    ⟨fun d hd => absurd hd not_mem_nil,by decide +kernel,by decide +kernel⟩
  have hok : small.fs.deleteFileEntry small.disk 2 [0x41] (oneEntry 259) = .ok () _ :=
    ok_of_answer (by decide +kernel)
  exact ⟨hfiles,hentry,.inr ⟨by simp,by decide +kernel⟩,_,hok,by decide +kernel,by decide +kernel,
    not_deleted hfiles mem_cons_self hentry (by simp) (by decide +kernel) hok⟩

end Zohara.Fat32.FatVolume
