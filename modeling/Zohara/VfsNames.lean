import Zohara.VfsTree

/-!
# Names in the tree

Creating does not look for the name among the parent's children, and names are cut at 60
bytes. In the runs in which the name that is stored is new, the children of a node have
different names. Then a path that has just been deleted leads nowhere: the walk along the
path in the new tree is one in the old tree, and its last step would find a second child of
the deleted name. The names `.` and `..` can be given to nodes, but a path does not lead to
them.
-/
namespace Zohara.Vfs
open Runs TreeLinks List Option

variable {path rest parentPath name : List UInt8} {b : UInt8}

/-! ## Components of a path -/

theorem trim_head
    (h : Vfs.trim path = b::rest) : b ≠ slash := by
  have hhead := head?_dropWhile_not (· = slash) path
  unfold Vfs.trim at h
  rw [h] at hhead
  simpa using hhead

theorem trim_of_head (h : b ≠ slash) :
    Vfs.trim (b::rest) = b::rest := by
  unfold Vfs.trim
  rw [dropWhile_cons_of_neg]
  simpa using h

theorem rfindSlash_some {pos : ℕ} (h : Vfs.rfindSlash path = some pos) :
    path = path.take pos++slash::path.drop (pos+1) ∧ slash ∉ path.drop (pos+1) := by
  unfold Vfs.rfindSlash at h
  obtain ⟨i,hi,rfl⟩ := map_eq_some_iff.mp h
  obtain ⟨hlt,hslash,hfirst⟩ := idxOf?_eq_some_iff.mp hi
  rw [length_reverse] at hlt
  have hpos : path.length-1-i < path.length := by omega
  have hat : path[path.length-1-i] = slash := by
    rw [getElem_reverse] at hslash
    exact hslash
  constructor
  · conv_lhs => rw [← take_append_drop (path.length-1-i) path]
    rw [drop_eq_getElem_cons hpos, hat]
  · intro hmem
    obtain ⟨j,hj,hat'⟩ := getElem_of_mem hmem
    rw [length_drop] at hj
    have hlater := hfirst (path.length-1-(path.length-1-i+1+j)) (by omega)
    rw [getElem_reverse] at hlater
    refine hlater ?_
    rw [← hat', getElem_drop]
    congr 1
    omega

theorem rfindSlash_none (h : Vfs.rfindSlash path = none) : slash ∉ path := by
  unfold Vfs.rfindSlash at h
  rw [map_eq_none_iff, idxOf?_eq_none_iff] at h
  simpa using h

theorem splitPath_components
    (h : Vfs.splitPath path = .ok (parentPath,name)) : ∃ components,
      (∀ fs : Vfs, fs.resolvePath parentPath = components.foldlM fs.descend 0) ∧
      (∀ fs : Vfs, fs.resolvePath path = (components++[name]).foldlM fs.descend 0) ∧
      name ≠ [] := by
  unfold Vfs.splitPath at h
  by_cases hempty : Vfs.trim path = []
  · rw [if_pos hempty] at h
    cases h
  rw [if_neg hempty] at h
  cases hf : Vfs.rfindSlash (Vfs.trim path) with
  | none =>
    rw [hf] at h
    cases h
    refine ⟨[],fun fs => rfl,fun fs => ?_,hempty⟩
    unfold Vfs.resolvePath
    rw [if_neg hempty, splitOn_eq_singleton (rfindSlash_none hf)]
    rfl
  | some pos =>
    obtain ⟨hpath,hname⟩ := rfindSlash_some hf
    rw [hf] at h
    dsimp only at h
    have hpos : pos ≠ 0 := by
      intro h0
      rw [h0, take_zero, nil_append] at hpath
      exact trim_head hpath rfl
    rw [if_neg hpos] at h
    by_cases hnil : (Vfs.trim path).drop (pos+1) = []
    · rw [if_pos hnil] at h
      cases h
    rw [if_neg hnil] at h
    cases h
    have hparent : Vfs.trim ((Vfs.trim path).take pos) = (Vfs.trim path).take pos := by
      cases ht : Vfs.trim path with
      | nil => exact (hempty ht).elim
      | cons b rest =>
        obtain ⟨n,rfl⟩ := Nat.exists_eq_succ_of_ne_zero hpos
        rw [take_succ_cons]
        exact trim_of_head (trim_head ht)
    have htake : (Vfs.trim path).take pos ≠ [] := by
      rw [Ne, take_eq_nil_iff]
      exact fun he => he.elim hpos hempty
    refine ⟨((Vfs.trim path).take pos).splitOn slash,fun fs => ?_,fun fs => ?_,hnil⟩
    · unfold Vfs.resolvePath
      rw [hparent, if_neg htake]
    · unfold Vfs.resolvePath
      rw [if_neg hempty]
      conv_lhs => rw [hpath]
      rw [splitOn_append_cons_self, splitOn_eq_singleton hname]

/-! ## Different names -/

/-- The name that a creation stores is new among the children of its parent. -/
def FreshName (fs : Vfs) (op : Op) : Prop :=
  ∀ path make parentPath name p, op.makes = some (path,make) →
    Vfs.splitPath path = .ok (parentPath,name) → fs.resolvePath parentPath = some p →
    fs.lookupChild p (name.take nameLen) = none

def UniqueNames (fs : Vfs) : Prop :=
  ∀ p, ∀ c ∈ childLists fs p, ∀ d ∈ childLists fs p, (fs.node c).name = (fs.node d).name → c = d

section
variable {fs fs' : Vfs} {e : Event}

theorem lookupChild_none {p c : ℕ} (h : fs.lookupChild p name = none)
    (hc : c ∈ childLists fs p) (hlt : c < fs.nodes.length) : (fs.node c).name ≠ name := by
  have hno := find?_eq_none.mp h c hc
  simp only [decide_eq_true_eq, not_and] at hno
  exact hno hlt

theorem lookupChild_unique (h : UniqueNames fs) {p c : ℕ}
    (hc : c ∈ childLists fs p) (hlt : c < fs.nodes.length) (hname : (fs.node c).name = name) :
    fs.lookupChild p name = some c := by
  cases hl : fs.lookupChild p name with
  | none => exact (lookupChild_none hl hc hlt hname).elim
  | some d =>
    obtain ⟨hd,-,hdname⟩ := lookupChild_spec hl
    rw [h p c hc d hd (hname.trans hdname.symm)]

theorem Added.name_old {n : VfsNode} {p i : ℕ} (h : Added fs fs' n p) (hi : i < fs.nodes.length) :
    (fs'.node i).name = (fs.node i).name := by
  by_cases hip : i = p
  · rw [hip, h.self]
  · rw [h.other i hip (by omega)]

theorem Removed.name_other {i j : ℕ} (h : Removed fs fs' i) (hj : j ≠ i) :
    (fs'.node j).name = (fs.node j).name := by
  by_cases hjp : j = (fs.node i).parent
  · rw [hjp, h.parent (hjp ▸ hj)]
  · rw [h.other j hj hjp]

theorem Effect.uniqueNames (he : Effect fs fs' e) (ht : Tree fs) (h : UniqueNames fs)
    (hfresh : FreshName fs e.op) : UniqueNames fs' := by
  cases he with
  | idle same =>
    rw [same]
    exact h
  | @added op path parentPath name make p makes split resolved added =>
    obtain ⟨hstored,-,hchildren,-⟩ := Op.makes_node makes name p
    have hno := hfresh path make parentPath name p makes split resolved
    have hnew : (fs'.node fs.nodes.length).name = name.take nameLen := by
      rw [added.fresh, hstored]
    have hold : ∀ c ∈ childLists fs p, (fs'.node c).name ≠ name.take nameLen := by
      intro c hc
      have hlt := (ht.links.below p c hc).2
      rw [added.name_old hlt]
      exact lookupChild_none hno hc hlt
    intro q c hc d hd hname
    by_cases hq : q = p
    · subst hq
      rw [added.children_self, mem_append, mem_singleton] at hc hd
      rcases hc with hc | rfl
      · rcases hd with hd | rfl
        · rw [added.name_old (ht.links.below q c hc).2,
            added.name_old (ht.links.below q d hd).2] at hname
          exact h q c hc d hd hname
        · exact (hold c hc (hname.trans hnew)).elim
      · rcases hd with hd | rfl
        · exact (hold d hd (hname.symm.trans hnew)).elim
        · rfl
    · rw [added.children_other hchildren ht.links hq] at hc hd
      rw [added.name_old (ht.links.below q c hc).2,
        added.name_old (ht.links.below q d hd).2] at hname
      exact h q c hc d hd hname
  | rewritten rewritten =>
    obtain ⟨-,hlists⟩ := rewritten.links_eq
    intro p c hc d hd hname
    rw [hlists] at hc hd
    obtain ⟨dc,sc,hnc⟩ := rewritten.node_eq c
    obtain ⟨dd,sd,hnd⟩ := rewritten.node_eq d
    rw [hnc, hnd] at hname
    exact h p c hc d hd hname
  | @removed path parentPath name p i split resolved found removed =>
    intro q c hc d hd hname
    have hne : ∀ b ∈ childLists fs' q, b ≠ i := fun b hb he =>
      removed.not_listed ht.links q (he ▸ hb)
    rw [removed.name_other (hne c hc), removed.name_other (hne d hd)] at hname
    have hsub := (removed.children_sublist ht.links q).subset
    exact h q c (hsub hc) d (hsub hd) hname

/-! ## Deleted paths -/

section
variable {i : ℕ}

theorem descend_removed (h : Removed fs fs' i) (ht : Tree fs) (ht' : Tree fs')
    (hu : UniqueNames fs) {cur next : ℕ} {component : List UInt8}
    (hreach : Reaches (childLists fs') 0 cur) (hd : fs'.descend cur component = some next) :
    fs.descend cur component = some next ∧ Reaches (childLists fs') 0 next := by
  have hcur : cur ≠ i := by
    intro he
    rcases Relation.ReflTransGen.cases_tail hreach with h0 | ⟨b,-,hb⟩
    · exact h.inside.1 (he.symm.trans h0)
    · exact h.not_listed ht.links b (he ▸ hb)
  unfold Vfs.descend at hd ⊢
  by_cases hstay : component = [] ∨ component = dot
  · rw [if_pos hstay] at hd ⊢
    cases hd
    exact ⟨rfl,hreach⟩
  rw [if_neg hstay] at hd ⊢
  by_cases hup : component = dotdot
  · have hparent : (fs'.node cur).parent = (fs.node cur).parent := h.parents_other hcur
    rw [if_pos hup] at hd ⊢
    dsimp only at hd ⊢
    rw [hparent, h.count] at hd
    refine ⟨hd,?_⟩
    by_cases hpar : (fs.node cur).parent ≠ 0 ∧ (fs.node cur).parent < fs.nodes.length
    · rw [if_pos hpar] at hd
      cases hd
      rcases Relation.ReflTransGen.cases_tail hreach with h0 | ⟨b,hb,hmem⟩
      · rw [h0, ht.rootParent] at hpar
        exact (hpar.1 rfl).elim
      · have hbp : b = (fs.node cur).parent := by
          rw [← hparent]
          exact (ht'.links.up b cur hmem).symm
        rw [← hbp]
        exact hb
    · rw [if_neg hpar] at hd
      cases hd
      exact hreach
  · rw [if_neg hup] at hd ⊢
    obtain ⟨hmem,hlt,hname⟩ := lookupChild_spec hd
    have hne : next ≠ i := fun he => h.not_listed ht.links cur (he ▸ hmem)
    rw [h.name_other hne] at hname
    rw [h.count] at hlt
    exact ⟨lookupChild_unique hu ((h.children_sublist ht.links cur).subset hmem) hlt hname,
      hreach.tail hmem⟩

theorem walk_removed (h : Removed fs fs' i) (ht : Tree fs) (ht' : Tree fs') (hu : UniqueNames fs)
    {components : List (List UInt8)} {cur q : ℕ} (hreach : Reaches (childLists fs') 0 cur)
    (hw : components.foldlM fs'.descend cur = some q) :
    components.foldlM fs.descend cur = some q := by
  induction components generalizing cur with
  | nil => exact hw
  | cons component components ih =>
    rw [foldlM_cons] at hw ⊢
    obtain ⟨next,hd,hw⟩ := bind_eq_some_iff.mp hw
    obtain ⟨hd',hnext⟩ := descend_removed h ht ht' hu hreach hd
    exact bind_eq_some_iff.mpr ⟨next,hd',ih hnext hw⟩

theorem resolvePath_deleted (ht : Tree fs)
    (hu : UniqueNames fs) (hd : Vfs.delete path fs = .ok () fs')
    (hsplit : Vfs.splitPath path = .ok (parentPath,name)) (hdot : name ≠ dot)
    (hdotdot : name ≠ dotdot) : fs'.resolvePath path = none := by
  obtain ⟨i,parentPath',name',p,-,hsplit',hres,hfound,hremoved⟩ := delete_ends.ok hd
  rw [hsplit] at hsplit'
  cases hsplit'
  have ht' : Tree fs' := (Effect.removed hsplit hres hfound hremoved).tree ht
  obtain ⟨components,hparent,hpath,hnil⟩ := splitPath_components hsplit
  obtain ⟨hmem,hlt,hname⟩ := lookupChild_spec hfound
  rw [hpath]
  cases hw : (components++[name]).foldlM fs'.descend 0 with
  | none => rfl
  | some r =>
    rw [foldlM_append] at hw
    obtain ⟨q,hq,hr⟩ := bind_eq_some_iff.mp hw
    have hqp := walk_removed hremoved ht ht' hu .refl hq
    rw [← hparent, hres] at hqp
    cases hqp
    rw [foldlM_cons] at hr
    obtain ⟨c,hc,-⟩ := bind_eq_some_iff.mp hr
    unfold Vfs.descend at hc
    rw [if_neg (not_or.mpr ⟨hnil,hdot⟩), if_neg hdotdot] at hc
    obtain ⟨hcmem,-,hcname⟩ := lookupChild_spec hc
    have hci : c ≠ i := fun he => hremoved.not_listed ht.links p (he ▸ hcmem)
    rw [hremoved.name_other hci] at hcname
    have hsub := (hremoved.children_sublist ht.links p).subset hcmem
    exact (hci (hu p c hsub i hmem (hcname.trans hname.symm))).elim

end

/-- In every run whose creations store new names, the children of a node have different names,
and a path that is deleted leads nowhere afterwards, unless it ends in `.` or `..`. -/
theorem names_identify {history : List Event}
    (hr : Run (fun fs e fs' => Step fs e fs' ∧ FreshName fs e.op) Vfs.new history fs) :
    (∀ p < fs.nodes.length, ∀ c ∈ (fs.node p).children, ∀ d ∈ (fs.node p).children,
      (fs.node c).name = (fs.node d).name → c = d) ∧
    ∀ path parentPath name fs', Vfs.delete path fs = .ok () fs' →
      Vfs.splitPath path = .ok (parentPath,name) → name ≠ dot → name ≠ dotdot →
      fs'.resolvePath path = none := by
  have htree := run_tree tree_new (hr.mono fun _ _ _ hs => hs.1)
  have hunique : UniqueNames fs := by
    induction hr with
    | start =>
      intro p c hc
      cases p <;> cases hc
    | next r hs ih =>
      have hprev := run_tree tree_new (r.mono fun _ _ _ hs => hs.1)
      exact (step_effect hprev.inRange hs.1).uniqueNames hprev (ih hprev) hs.2
  exact ⟨fun p _ => hunique p,fun path parentPath name fs' hd hsplit hdot hdotdot =>
    resolvePath_deleted htree hunique hd hsplit hdot hdotdot⟩

end

/-- A file is created and deleted. -/
theorem names_identify_one_file :
    let fs₁ := exec Vfs.new (.createFile [slash,0x61])
    (exec fs₁ (.delete [slash,0x61])).resolvePath [slash,0x61] = none := by
  intro fs₁
  have hfresh : FreshName Vfs.new (.createFile [slash,0x61]) := by
    intro path make parentPath name p hmakes hsplit hres
    cases hmakes
    have hs : Vfs.splitPath [slash,0x61] = .ok ([slash],[0x61]) := by rfl
    rw [hs] at hsplit
    cases hsplit
    have hp : Vfs.new.resolvePath [slash] = some 0 := by rfl
    rw [hp] at hres
    cases hres
    rfl
  have hall := names_identify (.next .start ⟨step_event Vfs.new (.createFile [slash,0x61]),hfresh⟩)
  exact hall.2 [slash,0x61] [slash] [0x61] _ rfl rfl (by decide) (by decide)

/-- Two files of one name: one of them is left when the name is deleted. -/
theorem same_name_twice :
    let fs₁ := exec Vfs.new (.createFile [slash,0x61])
    let fs₂ := exec fs₁ (.createFile [slash,0x61])
    let fs₃ := exec fs₂ (.delete [slash,0x61])
    (fs₂.node 0).children = [1,2] ∧ (fs₂.node 1).name = (fs₂.node 2).name ∧
      Vfs.delete [slash,0x61] fs₂ = .ok () fs₃ ∧ fs₃.resolvePath [slash,0x61] = some 2 := by
  exact ⟨rfl,rfl,rfl,rfl⟩

end Zohara.Vfs
