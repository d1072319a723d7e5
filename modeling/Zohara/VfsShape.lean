import Zohara.VfsTree

/-!
# The shape of the tree and its inode numbers

A node can be hung under a file, and a file is deleted without a look at its children, so
that nodes get lost. In the runs that create nodes under directories only, the nodes with
children are directories and every live node is reached from the root. Inode numbers do not
survive the creation of a node in any run.
-/
namespace Zohara.Vfs
open Runs TreeLinks List Option

/-! ## One tree of directories -/

/-- What is created is created under a directory. -/
def UnderDirectory (fs : Vfs) (op : Op) : Prop :=
  ∀ path make parentPath name p, op.makes = some (path,make) →
    Vfs.splitPath path = .ok (parentPath,name) → fs.resolvePath parentPath = some p →
    (fs.node p).nodeType = .directory

section
variable {fs fs' : Vfs} {e : Event} {history : List Event} {i j : ℕ}

theorem live_idle {op : Op} : Live (⟨op,none,none⟩::history) i ↔ Live history i := by
  unfold Live
  simp

theorem live_added {op : Op} {n : ℕ}
    (h : ∀ a ∈ history, ∀ i, a.made = some i ∨ a.gone = some i → i < n) :
    Live (⟨op,some n,none⟩::history) i ↔ Live history i ∨ i = n := by
  have hnew : ∀ a ∈ history, a.gone ≠ some n :=
    fun a ha he => Nat.lt_irrefl n (h a ha n (.inr he))
  unfold Live
  constructor
  · rintro (h0 | ⟨⟨a,ha,hm⟩,hg⟩)
    · exact .inl (.inl h0)
    · rcases mem_cons.mp ha with rfl | ha
      · cases hm
        exact .inr rfl
      · exact .inl (.inr ⟨⟨a,ha,hm⟩,(forall_mem_cons.mp hg).2⟩)
  · rintro ((h0 | ⟨⟨a,ha,hm⟩,hg⟩) | rfl)
    · exact .inl h0
    · refine .inr ⟨⟨a,mem_cons_of_mem _ ha,hm⟩,fun b hb => ?_⟩
      rcases mem_cons.mp hb with rfl | hb
      · exact fun he => by cases he
      · exact hg b hb
    · refine .inr ⟨⟨_,mem_cons_self,rfl⟩,fun b hb => ?_⟩
      rcases mem_cons.mp hb with rfl | hb
      · exact fun he => by cases he
      · exact hnew b hb

theorem live_removed {op : Op} (hi : i ≠ 0) :
    Live (⟨op,none,some i⟩::history) j ↔ Live history j ∧ j ≠ i := by
  unfold Live
  constructor
  · rintro (h0 | ⟨⟨a,ha,hm⟩,hg⟩)
    · exact ⟨.inl h0,fun he => hi (he.symm.trans h0)⟩
    · refine ⟨.inr ⟨?_,(forall_mem_cons.mp hg).2⟩,fun he => ?_⟩
      · rcases mem_cons.mp ha with rfl | ha
        · cases hm
        · exact ⟨a,ha,hm⟩
      · exact hg _ mem_cons_self (congrArg some he.symm)
  · rintro ⟨h0 | ⟨⟨a,ha,hm⟩,hg⟩,hne⟩
    · exact .inl h0
    · refine .inr ⟨⟨a,mem_cons_of_mem _ ha,hm⟩,fun b hb => ?_⟩
      rcases mem_cons.mp hb with rfl | hb
      · exact fun he => hne (some.inj he).symm
      · exact hg b hb

/-- Children are under directories, and the live nodes hang together. -/
structure Whole (history : List Event) (fs : Vfs) : Prop where
  dirs : ∀ i, (fs.node i).children ≠ [] → (fs.node i).nodeType = .directory
  hung : Hung 0 (parents fs) (childLists fs) (Live history)

theorem Whole.resolved (h : Whole history fs) (ht : Tree fs) {path : List UInt8} {p : ℕ}
    (hp : fs.resolvePath path = some p) : Live history p := by
  refine resolvePath_closed h.hung.top (fun q c _ hc => h.hung.listed q c hc)
    (fun c hc hne _ => ?_) hp
  have hc0 : c ≠ 0 := by
    intro he
    rw [he, ht.rootParent] at hne
    exact hne rfl
  exact (h.hung.hung c hc hc0).2

theorem Effect.whole (he : Effect fs fs' e) (ht : Tree fs) (h : Whole history fs)
    (hmade : ∀ a ∈ history, ∀ i, a.made = some i ∨ a.gone = some i → i < fs.nodes.length)
    (hdir : UnderDirectory fs e.op) : Whole (e::history) fs' := by
  have hlive : ∀ i, Live history i → i < fs.nodes.length := by
    rintro i (rfl | ⟨⟨a,ha,hm⟩,-⟩)
    · exact ht.nonempty
    · exact hmade a ha i (.inl hm)
  cases he with
  | idle same =>
    subst same
    exact ⟨h.dirs,⟨live_idle.mpr h.hung.top,fun p c hc => live_idle.mpr (h.hung.listed p c hc),
      fun i hi hne => (h.hung.hung i (live_idle.mp hi) hne).imp_right live_idle.mpr⟩⟩
  | @added op path parentPath name make p makes split resolved added =>
    obtain ⟨-,hup,hchildren,-⟩ := Op.makes_node makes name p
    have hp := ht.inRange _ _ resolved
    have hnew : parents fs' fs.nodes.length = p := by
      unfold parents
      rw [added.fresh, hup]
    constructor
    · intro i hi
      by_cases hip : i = p
      · rw [hip, added.self]
        exact hdir path make parentPath name p makes split resolved
      · by_cases hlast : i = fs.nodes.length
        · rw [hlast, added.fresh, hchildren] at hi
          exact (hi rfl).elim
        · rw [added.other i hip hlast] at hi ⊢
          exact h.dirs i hi
    · exact h.hung.add (h.resolved ht resolved) hlive (fun i hi => added.parents_old hi) hnew
        added.children_self (fun i hi => added.children_other hchildren ht.links hi)
        fun i => live_added hmade
  | rewritten rewritten =>
    obtain ⟨hp,hc⟩ := rewritten.links_eq
    constructor
    · intro i hi
      obtain ⟨data,size,hn⟩ := rewritten.node_eq i
      rw [hn] at hi ⊢
      exact h.dirs i hi
    · rw [hp, hc]
      exact ⟨live_idle.mpr h.hung.top,fun p c hc => live_idle.mpr (h.hung.listed p c hc),
        fun i hi hne => (h.hung.hung i (live_idle.mp hi) hne).imp_right live_idle.mpr⟩
  | @removed path parentPath name p i split resolved found removed =>
    have hleaf : childLists fs i = [] := by
      by_contra hne
      exact hne (removed.leaf (h.dirs i hne))
    constructor
    · intro j hj
      by_cases hji : j = i
      · rw [hji, removed.self] at hj
        exact (hj rfl).elim
      · by_cases hjp : j = (fs.node i).parent
        · have hself := removed.parent (hjp ▸ hji)
          rw [← hjp] at hself
          rw [hself] at hj ⊢
          exact h.dirs j fun hnil => hj (by dsimp only; rw [hnil]; rfl)
        · rw [removed.other j hji hjp] at hj ⊢
          exact h.dirs j hj
    · refine h.hung.drop removed.inside.1 hleaf (fun j hj => removed.parents_other hj)
        (fun j => (removed.children_sublist ht.links j).subset) (fun j c hc hmem => ?_)
        (removed.not_listed ht.links) fun j => live_removed removed.inside.1
      have hji : j ≠ i := by
        intro he
        rw [he, hleaf] at hmem
        cases hmem
      rw [removed.children_other ht.links hji]
      exact mem_filter.mpr ⟨hmem,decide_eq_true hc⟩

theorem whole_new : Whole [] Vfs.new := by
  have hnone : ∀ p, childLists Vfs.new p = [] := by
    intro p
    cases p <;> rfl
  refine ⟨fun i hi => (hi (hnone i)).elim,⟨.inl rfl,fun p c hc => ?_,fun i hi hne => ?_⟩⟩
  · rw [hnone] at hc
    cases hc
  · rcases hi with hi | ⟨⟨a,ha,-⟩,-⟩
    · exact (hne hi).elim
    · cases ha

/-- In every run that creates nodes under directories only, nodes with children are
directories and every live node is reached from the root. -/
theorem tree_whole (hr : Run (fun fs e fs' => Step fs e fs' ∧ UnderDirectory fs e.op)
    Vfs.new history fs) :
    (∀ i < fs.nodes.length, (fs.node i).children ≠ [] → (fs.node i).nodeType = .directory) ∧
    ∀ i, Live history i → Reaches (fun p => (fs.node p).children) 0 i := by
  have hwhole : Whole history fs := by
    induction hr with
    | start => exact whole_new
    | next r hs ih =>
      have hrun := r.mono fun _ _ _ hs => hs.1
      have htree := run_tree tree_new hrun
      exact (step_effect htree.inRange hs.1).whole htree ih (run_made hrun) hs.2
  have htree := run_tree tree_new (hr.mono fun _ _ _ hs => hs.1)
  exact ⟨fun i _ => hwhole.dirs i,fun i hi => hwhole.hung.reaches htree.links hi⟩

end

/-- A directory with a file in it is reached. -/
theorem tree_whole_one_file :
    let fs₁ := exec Vfs.new (.createDir [slash,0x64])
    let fs₂ := exec fs₁ (.createFile [slash,0x64,slash,0x66])
    (fs₂.node 1).nodeType = .directory ∧ Reaches (fun p => (fs₂.node p).children) 0 2 := by
  intro fs₁ fs₂
  have hdir₁ : UnderDirectory Vfs.new (.createDir [slash,0x64]) := by
    intro path make parentPath name p hmakes hsplit hres
    cases hmakes
    have hs : Vfs.splitPath [slash,0x64] = .ok ([slash],[0x64]) := by rfl
    rw [hs] at hsplit
    cases hsplit
    have hp : Vfs.new.resolvePath [slash] = some 0 := by rfl
    rw [hp] at hres
    cases hres
    rfl
  have hdir₂ : UnderDirectory fs₁ (.createFile [slash,0x64,slash,0x66]) := by
    intro path make parentPath name p hmakes hsplit hres
    cases hmakes
    have hs : Vfs.splitPath [slash,0x64,slash,0x66] = .ok ([0x64],[0x66]) := by rfl
    rw [hs] at hsplit
    cases hsplit
    have hp : fs₁.resolvePath [0x64] = some 1 := by rfl
    rw [hp] at hres
    cases hres
    rfl
  have hall := tree_whole (.next (.next .start ⟨step_event _ _,hdir₁⟩) ⟨step_event _ _,hdir₂⟩)
  refine ⟨hall.1 1 (by decide) (by decide),hall.2 2 (.inr ⟨⟨_,mem_cons_self,rfl⟩,?_⟩)⟩
  intro e he
  simp only [mem_cons, not_mem_nil, or_false] at he
  rcases he with rfl | rfl <;> exact fun h => by cases h

/-- A file is hung under a file, and lost when that one is deleted. -/
theorem file_under_file_lost :
    let fs₁ := exec Vfs.new (.createFile [slash,0x66])
    let fs₂ := exec fs₁ (.createFile [slash,0x66,slash,0x78])
    let fs₃ := exec fs₂ (.delete [slash,0x66])
    let history := [event fs₂ (.delete [slash,0x66]),
      event fs₁ (.createFile [slash,0x66,slash,0x78]),event Vfs.new (.createFile [slash,0x66])]
    Run Step Vfs.new history fs₃ ∧ (fs₂.node 1).nodeType = .file ∧ (fs₂.node 1).children = [2] ∧
      Live history 2 ∧ ¬Reaches (fun p => (fs₃.node p).children) 0 2 := by
  intro fs₁ fs₂ fs₃ history
  refine ⟨.next (.next (.next .start (step_event _ _)) (step_event _ _)) (step_event _ _),rfl,rfl,
    .inr ⟨⟨event fs₁ (.createFile [slash,0x66,slash,0x78]),by simp [history],rfl⟩,?_⟩,fun hr => ?_⟩
  · intro e he
    simp only [history, mem_cons, not_mem_nil, or_false] at he
    rcases he with rfl | rfl | rfl
    · have hg : (event fs₂ (.delete [slash,0x66])).gone = some 1 := by rfl
      rw [hg]
      decide
    · exact fun h => by cases h
    · exact fun h => by cases h
  · rcases Relation.ReflTransGen.cases_head hr with h | ⟨c,hc,-⟩
    · cases h
    · have hnone : (fs₃.node 0).children = [] := by rfl
      dsimp only at hc
      rw [hnone] at hc
      cases hc

/-! ## Inode numbers -/

section
variable {fs fs' : Vfs} {e : Event} {history : List Event}

theorem Effect.inode_zero (he : Effect fs fs' e) {i : ℕ} (hi : (fs.node i).inode = 0) :
    (fs'.node i).inode = 0 := by
  cases he with
  | idle same =>
    rw [same]
    exact hi
  | @added op path parentPath name make p makes split resolved added =>
    by_cases hlast : i = fs.nodes.length
    · rw [hlast, added.fresh]
      exact (Op.makes_node makes name p).2.2.2
    · by_cases hip : i = p
      · rw [hip, added.self]
        exact hip ▸ hi
      · rw [added.other i hip hlast]
        exact hi
  | rewritten rewritten =>
    obtain ⟨data,size,hn⟩ := rewritten.node_eq i
    rw [hn]
    exact hi
  | @removed path parentPath name p j split resolved found removed =>
    by_cases hij : i = j
    · rw [hij, removed.self]
      rfl
    · by_cases hip : i = (fs.node j).parent
      · rw [hip, removed.parent (hip ▸ hij)]
        exact hip ▸ hi
      · rw [removed.other i hij hip]
        exact hi

theorem run_inodes (hr : Run Step Vfs.new history fs) :
    (fs.node 0).inode = 1 ∧ ∀ i, i ≠ 0 → (fs.node i).inode = 0 := by
  induction hr with
  | start =>
    refine ⟨rfl,fun i hi => ?_⟩
    cases i with
    | zero => exact (hi rfl).elim
    | succ i => rfl
  | next r hs ih =>
    have htree := run_tree tree_new r
    have heffect := step_effect htree.inRange hs
    exact ⟨(heffect.root htree).2.2.trans ih.1,fun i hi => heffect.inode_zero (ih.2 i hi)⟩

/-- The live nodes have different inode numbers other than zero exactly while there are none
but the root. -/
theorem inodes_distinct_iff (hr : Run Step Vfs.new history fs) :
    ((∀ i, Live history i → (fs.node i).inode ≠ 0) ∧
      ∀ i j, Live history i → Live history j → (fs.node i).inode = (fs.node j).inode → i = j) ↔
    ∀ i, Live history i → i = 0 := by
  obtain ⟨hroot,hzero⟩ := run_inodes hr
  constructor
  · intro h i hi
    by_contra hne
    exact h.1 i hi (hzero i hne)
  · intro h
    refine ⟨fun i hi => ?_,fun i j hi hj _ => (h i hi).trans (h j hj).symm⟩
    rw [h i hi, hroot]
    decide

end

/-- A file is created and deleted. -/
theorem inodes_distinct_deleted :
    let fs₁ := exec Vfs.new (.createFile [slash,0x61])
    let fs₂ := exec fs₁ (.delete [slash,0x61])
    let history := [event fs₁ (.delete [slash,0x61]),event Vfs.new (.createFile [slash,0x61])]
    (∀ i, Live history i → (fs₂.node i).inode ≠ 0) ∧
      ∀ i j, Live history i → Live history j → (fs₂.node i).inode = (fs₂.node j).inode → i = j := by
  intro fs₁ fs₂ history
  refine (inodes_distinct_iff (.next (.next .start (step_event _ _)) (step_event _ _))).mpr ?_
  rintro i (hi | ⟨⟨a,ha,hm⟩,hg⟩)
  · exact hi
  · have hgone : (event fs₁ (.delete [slash,0x61])).gone = some 1 := by rfl
    have hmade : (event Vfs.new (.createFile [slash,0x61])).made = some 1 := by rfl
    simp only [mem_cons, not_mem_nil, or_false] at ha
    rcases ha with rfl | rfl
    · cases hm
    · rw [hmade] at hm
      exact (hg _ mem_cons_self (hgone.trans hm)).elim

/-- Two files are listed with the same inode number, which is zero. -/
theorem two_files_one_inode :
    let fs₁ := exec Vfs.new (.createFile [slash,0x61])
    let fs₂ := exec fs₁ (.createFile [slash,0x62])
    fs₂.readdir [slash] = [([0x61],0,.file),([0x62],0,.file)] := by
  rfl

end Zohara.Vfs
