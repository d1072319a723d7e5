import Zohara.FatCreate

/-!
# Clusters that create_file_entry takes

create_file_entry takes a cluster for the file and marks it in the FAT before it looks for a slot
in the directory, and it does not write to it. So a new directory has the entries that the old
contents of its cluster show; and a call that returns an error after it has taken a cluster leaves
it marked, though no entry of a directory names it.

For the errors the directory is any set of clusters that next_cluster does not leave, with cycles
or a bad cluster.
-/
namespace Zohara.Fat32.FatVolume
open ByteMemory FallibleState IdeDisk
variable {v : FatVolume} {w : Drives} {A B : View} {S : ℕ → Prop} {c d f n : ℕ} {D L : List ℕ}
  {entry name : List UInt8} {isDir : Bool} {msg : String}

/-! ## New directories -/

/-- Besides the entry only the FAT is written, where the new file stays a chain of its own. -/
theorem Enters.own (h : v.Enters A B L entry) (hf : A.fat f = eoc) (hL : f ∉ L) :
    B.fat f = eoc ∧ B.data f = A.data f ∧ B.fails = A.fails := by
  cases h with
  | slot L₁ e L₂ i hsplit _ _ hB =>
    have hfe : f ≠ e := fun heq => hL (by rw [hsplit, heq]; simp)
    rw [hB]
    exact ⟨hf,Function.update_of_ne hfe _ _,rfl⟩
  | cluster L₁ e x hsplit _ _ hfree hB =>
    have hfe : f ≠ e := fun heq => hL (by rw [hsplit, heq]; simp)
    have hfx : f ≠ x := fun heq => View.not_free_eoc (heq ▸ hf) hfree
    rw [hB]
    refine ⟨?_,Function.update_of_ne hfx _ _,rfl⟩
    exact ((A.setFat e x).setFat_of_ne hfx eoc).trans ((A.setFat_of_ne hfe x).trans hf)

theorem readdir_new (hs : (v.view w).Sound) (hD : v.FileChain (v.view w) D)
    (h : answer (v.fs.createFileEntry v.disk (D.headD 0) name isDir) w = .ok f) :
    answer (v.fs.readdir v.disk f) (after (v.fs.createFileEntry v.disk (D.headD 0) name isDir) w) =
      .ok (v.listed (v.view w) f) := by
  cases D with
  | nil => exact (hD.chain.ne_nil rfl).elim
  | cons c l =>
    obtain ⟨R,T,_,hl,hseen⟩ := hD.visited_seen
    obtain ⟨hf,hfree,henters⟩ := (createFileEntry_walk rfl hseen.walk).ok (ok_of_answer h)
    have hout : f ∉ c::R := fun hmem => hD.used (by
      rw [hl, ← List.cons_append]
      exact List.mem_append_left T hmem) hfree
    obtain ⟨heoc,hdata,hfails⟩ := henters.own ((v.view w).setFat_self f eoc) hout
    have hlisted : v.listed (v.view (after (v.fs.createFileEntry v.disk ((c::l).headD 0) name isDir)
        w)) f = v.listed (v.view w) f := congrArg (fun bs => parseEntries (slots bs _) []) hdata
    have hreads := readdirFrom_seen (n := 1025) rfl
      (R := []) ⟨.last heoc.ge,fun x hx => List.mem_singleton.mp hx ▸ hf,List.nodup_singleton f⟩
    refine Returns.answer (Ends.mono hreads (fun es w' hes => ?_) fun _ _ hns =>
      hns (hs.of_fails hfails))
    rw [hes.2, ← hlisted]
    exact List.flatMap_singleton ..

/-- A new directory shows no file exactly when the old contents of its cluster show none. -/
theorem new_directory_empty_iff (hs : (v.view w).Sound) (hD : v.FileChain (v.view w) D)
    (h : answer (v.fs.createFileEntry v.disk (D.headD 0) name true) w = .ok c) :
    (∃ es, answer (v.fs.readdir v.disk c)
        (after (v.fs.createFileEntry v.disk (D.headD 0) name true) w) = .ok es ∧
      ∀ e ∈ es, e.name = [0x2E] ∨ e.name = [0x2E,0x2E]) ↔
      ∀ e ∈ v.listed (v.view w) c, e.name = [0x2E] ∨ e.name = [0x2E,0x2E] := by
  rw [readdir_new hs hD h]
  constructor
  · rintro ⟨es,hes,hall⟩
    rwa [Except.ok.inj hes]
  · exact fun hall => ⟨_,rfl,hall⟩

/-- A directory "A" on a volume whose free clusters are zeros. -/
theorem new_directory_empty_zeros : ∃ es, answer (small.fs.readdir small.disk 3)
    (after (small.fs.createFileEntry small.disk 2 [0x41] true) emptyRoot) = .ok es ∧
      ∀ e ∈ es, e.name = [0x2E] ∨ e.name = [0x2E,0x2E] :=
  (new_directory_empty_iff (fun _ => rfl) emptyRoot_chain (by decide +kernel)).mpr
    (by decide +kernel)

/-- An empty root directory, and a free cluster with the entry of a file "B". -/
def usedBefore : Drives := image [(520,toLe 4 eoc),(2560,newEntry (to83 [0x42]) false 0)]

/-- The new directory "A" shows the file "B". -/
theorem new_directory_shows_old_file : small.FileChain (small.view usedBefore) [2] ∧
    answer (small.fs.createFileEntry small.disk 2 [0x41] true) usedBefore = .ok 3 ∧
      answer (small.fs.readdir small.disk 3)
        (after (small.fs.createFileEntry small.disk 2 [0x41] true) usedBefore) =
          .ok [⟨[0x42],0,0,false⟩] := by
  have hchain : small.FileChain (small.view usedBefore) [2] :=
    fileChain_single (by decide) (by decide +kernel)
  have hcreate : answer (small.fs.createFileEntry small.disk 2 [0x41] true) usedBefore = .ok 3 := by
    decide +kernel
  have hlisted : small.listed (small.view usedBefore) 3 = [⟨[0x42],0,0,false⟩] := by decide +kernel
  refine ⟨hchain,hcreate,?_⟩
  rw [← hlisted]
  exact readdir_new (D := [2]) (fun _ => rfl) hchain hcreate

/-! ## Calls that return an error -/

theorem createFrom_fails (hw : v.view w = A) (hs : A.Sound) (hS : v.Closed A S) (hc : S c)
    (hentry : entry.length = 32) :
    Ends (v.fs.createFrom v.disk entry n c) w (fun _ _ => True)
      fun e w' => e = .panic ∨ v.view w' = A := by
  induction n generalizing c w with
  | zero => exact ends_throw (.inl rfl)
  | succ n ih =>
    obtain ⟨hin,hnext⟩ := hS c hc
    refine createFrom_round hw hin hentry (fun _ _ _ _ => trivial) (fun _ _ _ _ _ _ _ => trivial)
      (fun _ hlink w' hw' => ih hw' (hnext.resolve_left hlink)) (fun _ _ _ hw' => .inr hw')
      (fun _ _ _ _ _ hw' => .inr hw') fun hns => absurd hs hns

theorem createFileEntry_fails (hw : v.view w = A) (hs : A.Sound) (hS : v.Closed A S) (hd : S d) :
    Ends (v.fs.createFileEntry v.disk d name isDir) w (fun _ _ => True)
      fun e w' => e = .panic ∨ v.view w' = A ∧ (∀ c, 2 ≤ c → c < v.total → ¬A.Free c) ∨
        ∃ f, (2 ≤ f ∧ f < v.total) ∧ A.Free f ∧ v.view w' = A.setFat f eoc := by
  obtain ⟨h8,h3⟩ := to83_lengths name
  refine ends_create hw ?_ fun _ _ he => .inr (.inl (he.resolve_left fun hns => hns hs).symm)
  intro f w₁ hf hfree hw₁
  have hclosed : v.Closed (A.setFat f eoc) S := by
    intro c hc
    rw [linked_setFree hfree]
    exact hS c hc
  refine Ends.fails (createFrom_fails hw₁ hs hclosed hd (length_newEntry h8 h3)) ?_
  exact fun _ _ he => he.imp_right fun hw' => .inr ⟨f,hf,hfree,hw'⟩

/-- A call that returns an error changes nothing exactly when no cluster was free. -/
theorem create_error_keeps_iff (hs : (v.view w).Sound) (hS : v.Closed (v.view w) S) (hd : S d)
    (h : answer (v.fs.createFileEntry v.disk d name isDir) w = .error (.err msg)) :
    v.view (after (v.fs.createFileEntry v.disk d name isDir) w) = v.view w ↔
      ∀ c, 2 ≤ c → c < v.total → ¬(v.view w).Free c := by
  obtain hpanic | ⟨hkept,hnone⟩ | ⟨f,hf,hfree,htaken⟩ :=
    (createFileEntry_fails rfl hs hS hd).error (error_of_answer h)
  · cases hpanic
  · exact iff_of_true hkept hnone
  · refine iff_of_false (fun hkept => ?_) fun hnone => hnone f hf.1 hf.2 hfree
    refine View.not_free_eoc ?_ hfree
    rw [← hkept, htaken, View.setFat_self]

def tinyFs : Fat32Fs := {small.fs with totalClusters := 4}

/-- Two clusters of one sector. -/
def tiny : FatVolume := {small with
  fs := tinyFs
  covers := by decide
  inside := by decide}

/-- A full root directory; the entry of the other cluster is as given. -/
def fullRoot (other : ℕ) : Drives :=
  image [(520,toLe 4 eoc),(524,toLe 4 other),(2048,List.replicate 512 0x41)]

theorem fullRoot_eq (other : ℕ) : fullRoot other =
    {image [(520,toLe 4 eoc),(524,toLe 4 other)] with
      bytes := fun d => fill ((image [(520,toLe 4 eoc),(524,toLe 4 other)]).bytes d) 2048 512 0x41} :=
  image_replicate [_,_] 2048 512 0x41

theorem fullRoot_closed (other : ℕ) (h : (tiny.view (fullRoot other)).fat 2 = eoc) :
    tiny.Closed (tiny.view (fullRoot other)) (· = 2) := by
  rintro _ rfl
  rw [h]
  exact ⟨by decide,.inl rfl⟩

/-- No cluster is free. -/
theorem create_error_keeps_full :
    tiny.view (after (tiny.fs.createFileEntry tiny.disk 2 [0x42] false)
      (fullRoot eoc)) = tiny.view (fullRoot eoc) := by
  have herror : answer (tiny.fs.createFileEntry tiny.disk 2 [0x42] false) (fullRoot eoc) =
      .error (.err "no free clusters") := by
    rw [fullRoot_eq]
    decide +kernel
  have hnone : ∀ c < 4, 2 ≤ c → (tiny.view (fullRoot eoc)).fat c%2^28 ≠ 0 := by decide +kernel
  exact (create_error_keeps_iff (fun _ => rfl) (fullRoot_closed eoc (by decide +kernel)) rfl
    herror).mpr fun c h2 hc => hnone c hc h2

/-- The last free cluster is taken, and the directory cannot grow. -/
theorem create_error_takes_cluster :
    answer (tiny.fs.createFileEntry tiny.disk 2 [0x42] false) (fullRoot 0) =
        .error (.err "no free clusters") ∧
      (tiny.view (fullRoot 0)).fat 3 = 0 ∧
      (tiny.view (after (tiny.fs.createFileEntry tiny.disk 2 [0x42] false)
        (fullRoot 0))).fat 3 = eoc := by
  rw [fullRoot_eq]
  decide +kernel

end Zohara.Fat32.FatVolume
