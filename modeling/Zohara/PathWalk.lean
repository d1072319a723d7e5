import Mathlib.Data.List.Find
import Mathlib.Data.List.TakeDrop
import Zohara.VfsNames

/-!
# Path resolution and the tree (src/fs/mod.rs)

A path names a walk over the tree from the root: an empty component or a dot stays, two dots go
to the parent, the root being its own, and any other component goes to the child of that name
(the first one listed, where several have it). resolve_path takes a parent with index 0 for a
missing one, so that two dots do not leave a directory next to the root.
-/
namespace Zohara.Vfs
open Runs TreeLinks List Option

/-! ## The walk -/

section
variable (fs : Vfs)

def parentOf (i : ℕ) : ℕ := if i = 0 then 0 else (fs.node i).parent

def namedChild (i : ℕ) (name : List UInt8) : Option ℕ :=
  (fs.node i).children.find? fun c => (fs.node c).name = name

def walkStep (i : ℕ) (component : List UInt8) : Option ℕ :=
  if component = [] ∨ component = dot then some i
  else if component = dotdot then some (parentOf fs i)
  else namedChild fs i component

def walk (components : List (List UInt8)) (i : ℕ) : Option ℕ := components.foldlM (walkStep fs) i

def components (path : List UInt8) : List (List UInt8) := path.splitOn slash

/-- Somewhere on the walk two dots lead from a child of the root to the root. -/
def EntersRoot (cs : List (List UInt8)) (i : ℕ) : Prop :=
  ∃ before rest c, cs = before++dotdot::rest ∧ walk fs before i = some c ∧ c ≠ 0 ∧
    parentOf fs c = 0

end

/-! ## Components -/

section
variable {fs : Vfs} {path : List UInt8}

theorem components_append (path rest : List UInt8) (h : slash ∉ rest) :
    components (path++slash::rest) = components path++[rest] := by
  unfold components
  rw [splitOn_append_cons_self, splitOn_eq_singleton h]

theorem components_slash (path : List UInt8) :
    components (slash::path) = []::components path := splitOn_append_cons_self [] path

theorem trim_slash (path : List UInt8) : Vfs.trim (slash::path) = Vfs.trim path := by
  unfold Vfs.trim
  rw [dropWhile_cons_of_pos (by simp)]

theorem resolvePath_components (fs : Vfs) (path : List UInt8) :
    fs.resolvePath path = (components path).foldlM fs.descend 0 := by
  induction path with
  | nil => rfl
  | cons b rest ih =>
    by_cases hb : b = slash
    · have hsame : fs.resolvePath (slash::rest) = fs.resolvePath rest := by
        unfold Vfs.resolvePath
        rw [trim_slash]
      rw [hb, hsame, ih, components_slash, foldlM_cons]
      rfl
    · unfold Vfs.resolvePath
      rw [trim_of_head hb, if_neg (cons_ne_nil b rest)]
      rfl

/-- What follows the last slash. -/
def lastComponent (path : List UInt8) : List UInt8 := (components path).getLastD []

theorem lastComponent_trim (path : List UInt8) :
    lastComponent (Vfs.trim path) = lastComponent path := by
  induction path with
  | nil => rfl
  | cons b rest ih =>
    by_cases hb : b = slash
    · rw [hb, trim_slash, ih]
      unfold lastComponent
      rw [components_slash, getLastD_cons]
    · rw [trim_of_head hb]

theorem splitPath_name {parentPath name : List UInt8}
    (h : Vfs.splitPath path = .ok (parentPath,name)) : name = lastComponent path := by
  rw [← lastComponent_trim]
  unfold Vfs.splitPath at h
  split at h
  · exact nomatch h
  · cases hf : Vfs.rfindSlash (Vfs.trim path) with
    | none =>
      rw [hf] at h
      cases h
      unfold lastComponent components
      rw [splitOn_eq_singleton (rfindSlash_none hf)]
      rfl
    | some pos =>
      obtain ⟨hpath,hname⟩ := rfindSlash_some hf
      rw [hf] at h
      dsimp only at h
      split at h
      · exact nomatch h
      · cases h
        unfold lastComponent
        conv_rhs => rw [hpath]
        rw [components_append _ _ hname]
        simp

end

/-! ## One component -/

abbrev DepthOf (fs : Vfs) : ℕ → ℕ → Prop := Depth 0 (childLists fs)

section
variable {fs : Vfs} {i j d next next' : ℕ} {component : List UInt8}

theorem namedChild_eq (ht : Tree fs) (i : ℕ) (name : List UInt8) :
    namedChild fs i name = fs.lookupChild i name := by
  unfold namedChild Vfs.lookupChild
  apply find?_congr
  intro c hc
  have hlt := (ht.links.below i c hc).2
  simp [hlt]

theorem parentOf_depth (ht : Tree fs) (h : DepthOf fs i (d+1)) :
    parentOf fs i = (fs.node i).parent ∧ DepthOf fs (parentOf fs i) d ∧
      (fs.node i).parent < fs.nodes.length := by
  have hpos := h.pos ht.links
  obtain ⟨hd,hc⟩ := h.up ht.links
  have hlt := ht.links.below _ _ hc
  unfold parentOf
  rw [if_neg hpos]
  exact ⟨rfl,hd,hlt.1.trans hlt.2⟩

/-- What two dots do in the source: they stay at the root and next to it. -/
theorem descend_dotdot (ht : Tree fs) (h : DepthOf fs i d) :
    fs.descend i dotdot = some (if parentOf fs i = 0 then i else parentOf fs i) := by
  unfold Vfs.descend
  rw [if_neg (by decide), if_pos rfl]
  dsimp only
  cases d with
  | zero =>
    cases h
    simp [ht.rootParent, parentOf]
  | succ d =>
    obtain ⟨heq,-,hlt⟩ := parentOf_depth ht h
    rw [heq]
    by_cases h0 : (fs.node i).parent = 0
    · simp [h0]
    · simp [h0, hlt]

theorem descend_other (ht : Tree fs) (h : component ≠ dotdot) (i : ℕ) :
    fs.descend i component = walkStep fs i component := by
  unfold Vfs.descend walkStep
  rw [if_neg h, if_neg h, namedChild_eq ht]

theorem walkStep_dotdot (fs : Vfs) (i : ℕ) : walkStep fs i dotdot = some (parentOf fs i) := by
  unfold walkStep
  rw [if_neg (by decide), if_pos rfl]

/-- A component is resolved as it should be, but for two dots at a child of the root. -/
theorem descend_eq (ht : Tree fs) (h : DepthOf fs i d)
    (hup : component = dotdot → i ≠ 0 → parentOf fs i ≠ 0) :
    fs.descend i component = walkStep fs i component := by
  by_cases hdots : component = dotdot
  · rw [hdots, descend_dotdot ht h, walkStep_dotdot]
    by_cases h0 : i = 0
    · simp [h0, parentOf]
    · rw [if_neg (hup hdots h0)]
  · exact descend_other ht hdots i

theorem walkStep_down (hdots : component ≠ dotdot) (hw : walkStep fs i component = some next)
    (h : DepthOf fs i d) :
    (component = [] ∨ component = dot) ∧ next = i ∨
      ¬(component = [] ∨ component = dot) ∧ DepthOf fs next (d+1) := by
  unfold walkStep at hw
  rw [if_neg hdots] at hw
  by_cases hstay : component = [] ∨ component = dot
  · rw [if_pos hstay] at hw
    exact .inl ⟨hstay,(some.inj hw).symm⟩
  · rw [if_neg hstay] at hw
    exact .inr ⟨hstay,h.child (mem_of_find?_eq_some hw)⟩

section

variable (ht : Tree fs) (h : DepthOf fs i d)
include ht h

theorem parentOf_any : DepthOf fs (parentOf fs i) (d-1) := by
  cases d with
  | zero =>
    cases h
    exact .root
  | succ d => exact (parentOf_depth ht h).2.1

theorem walkStep_depth (hw : walkStep fs i component = some next) : ∃ e, DepthOf fs next e := by
  by_cases hdots : component = dotdot
  · rw [hdots, walkStep_dotdot] at hw
    rw [← some.inj hw]
    exact ⟨_,parentOf_any ht h⟩
  · rcases walkStep_down hdots hw h with ⟨-,rfl⟩ | ⟨-,hd⟩
    · exact ⟨d,h⟩
    · exact ⟨_,hd⟩

/-- One level too deep, the source stays one level too deep. -/
theorem descend_deeper (h' : DepthOf fs j (d+1))
    (hw : walkStep fs i component = some next) (hd : fs.descend j component = some next') :
    ∃ e, DepthOf fs next e ∧ DepthOf fs next' (e+1) := by
  by_cases hdots : component = dotdot
  · subst hdots
    rw [walkStep_dotdot] at hw
    rw [descend_dotdot ht h'] at hd
    rw [← some.inj hw, ← some.inj hd]
    have hp := (parentOf_depth ht h').2.1
    refine ⟨d-1,parentOf_any ht h,?_⟩
    cases d with
    | zero =>
      rw [if_pos hp.eq_root]
      exact h'
    | succ d =>
      rw [if_neg (hp.pos ht.links)]
      exact hp
  · rw [descend_other ht hdots] at hd
    rcases walkStep_down hdots hw h with ⟨hstay,rfl⟩ | ⟨hstay,hnext⟩
    · rcases walkStep_down hdots hd h' with ⟨-,rfl⟩ | ⟨hno,-⟩
      · exact ⟨d,h,h'⟩
      · exact absurd hstay hno
    · rcases walkStep_down hdots hd h' with ⟨hyes,-⟩ | ⟨-,hnext'⟩
      · exact absurd hyes hstay
      · exact ⟨d+1,hnext,hnext'⟩

end

end

/-! ## Whole paths -/

section
variable {fs : Vfs} {i j d q q' : ℕ}

theorem walk_cons (fs : Vfs) (c : List UInt8) (cs : List (List UInt8)) (i : ℕ) :
    walk fs (c::cs) i = (walkStep fs i c).bind (walk fs cs) := by
  unfold walk
  rw [foldlM_cons]
  rfl

theorem walk_deeper (ht : Tree fs) (cs : List (List UInt8)) (h : DepthOf fs i d)
    (h' : DepthOf fs j (d+1)) (hw : walk fs cs i = some q)
    (hd : cs.foldlM fs.descend j = some q') :
    ∃ e, DepthOf fs q e ∧ DepthOf fs q' (e+1) := by
  induction cs generalizing i j d with
  | nil =>
    cases hw
    cases hd
    exact ⟨d,h,h'⟩
  | cons c cs ih =>
    rw [walk_cons] at hw
    rw [foldlM_cons] at hd
    obtain ⟨next,hn,hw⟩ := bind_eq_some_iff.mp hw
    obtain ⟨next',hn',hd⟩ := bind_eq_some_iff.mp hd
    obtain ⟨e,he,he'⟩ := descend_deeper ht h h' hn hn'
    exact ih he he' hw hd

theorem entersRoot_cons {c : List UInt8} {cs : List (List UInt8)} {next : ℕ}
    (hn : walkStep fs i c = some next) :
    EntersRoot fs (c::cs) i ↔ (c = dotdot ∧ i ≠ 0 ∧ parentOf fs i = 0) ∨ EntersRoot fs cs next := by
  constructor
  · rintro ⟨before,rest,k,heq,hk,h0,hp⟩
    cases before with
    | nil =>
      cases hk
      exact .inl ⟨(cons.inj heq).1,h0,hp⟩
    | cons b before =>
      obtain ⟨rfl,htail⟩ := cons.inj heq
      rw [walk_cons, hn] at hk
      exact .inr ⟨before,rest,k,htail,hk,h0,hp⟩
  · rintro (⟨rfl,h0,hp⟩ | ⟨before,rest,k,rfl,hk,h0,hp⟩)
    · exact ⟨[],cs,i,rfl,rfl,h0,hp⟩
    · refine ⟨c::before,rest,k,rfl,?_,h0,hp⟩
      rw [walk_cons, hn]
      exact hk

/-- The source follows the walk up to the first time that it should come back to the root. -/
theorem foldlM_descend_iff (ht : Tree fs) (cs : List (List UInt8)) (h : DepthOf fs i d)
    (hw : walk fs cs i = some q) :
    cs.foldlM fs.descend i = some q ↔ ¬EntersRoot fs cs i := by
  induction cs generalizing i d with
  | nil =>
    cases hw
    refine ⟨fun _ hr => ?_,fun _ => rfl⟩
    obtain ⟨before,rest,k,heq,-⟩ := hr
    simp at heq
  | cons c cs ih =>
    rw [walk_cons] at hw
    obtain ⟨next,hn,hw⟩ := bind_eq_some_iff.mp hw
    rw [entersRoot_cons hn, foldlM_cons]
    by_cases hbad : c = dotdot ∧ i ≠ 0 ∧ parentOf fs i = 0
    · apply iff_of_false _ (not_not_intro (.inl hbad))
      obtain ⟨rfl,h0,hp⟩ := hbad
      rw [descend_dotdot ht h, if_pos hp]
      rw [walkStep_dotdot, hp] at hn
      cases some.inj hn
      intro hd
      -- the node is next to the root, and the walk goes on from the root
      have hone : DepthOf fs i (0+1) := by
        cases d with
        | zero => exact absurd h.eq_root h0
        | succ d =>
          have hpar := (parentOf_depth ht h).2.1
          rw [hp] at hpar
          cases hpar.unique ht.links .root
          exact h
      obtain ⟨e,he,he'⟩ := walk_deeper ht cs .root hone hw hd
      exact absurd (he.unique ht.links he') (by omega)
    · have hsame : fs.descend i c = walkStep fs i c :=
        descend_eq ht h fun hc h0 hp => hbad ⟨hc,h0,hp⟩
      obtain ⟨e,he⟩ := walkStep_depth ht h hn
      rw [hsame, hn]
      simp only [hbad, false_or]
      exact ih he hw

theorem descend_depth (ht : Tree fs) {component : List UInt8} (h : DepthOf fs i d)
    (hd : fs.descend i component = some q) : ∃ e, DepthOf fs q e := by
  by_cases hdots : component = dotdot
  · rw [hdots, descend_dotdot ht h] at hd
    rw [← some.inj hd]
    split
    · exact ⟨d,h⟩
    · exact ⟨_,parentOf_any ht h⟩
  · rw [descend_other ht hdots] at hd
    exact walkStep_depth ht h hd

variable {path : List UInt8}

theorem resolvePath_depth (ht : Tree fs) (h : fs.resolvePath path = some q) :
    ∃ d, DepthOf fs q d := by
  rw [resolvePath_components] at h
  apply foldlM_invariant (P := fun i => ∃ d, DepthOf fs i d) _ ⟨0,.root⟩ h
  rintro i component next ⟨d,hd⟩ hnext
  exact descend_depth ht hd hnext

theorem resolvePath_dotdot (ht : Tree fs) (h : fs.resolvePath path = some q) :
    fs.resolvePath (path++slash::dotdot) = some (parentOf fs q) ↔ q = 0 ∨ parentOf fs q ≠ 0 := by
  obtain ⟨d,hd⟩ := resolvePath_depth ht h
  rw [resolvePath_components] at h ⊢
  rw [components_append _ _ (by decide), foldlM_append, h]
  change (fs.descend q dotdot).bind some = _ ↔ _
  rw [descend_dotdot ht hd, bind_some, Option.some.injEq]
  by_cases h0 : parentOf fs q = 0 <;> simp [h0]

end

/-- In every state that path operations reach, a path whose walk leads somewhere resolves to the
end of the walk exactly if the walk never comes back to the root from a child of it; and two dots
behind a path give the parent except at the children of the root. -/
theorem resolvePath_walk_iff {fs : Vfs} {history : List Event}
    (hr : Run Step Vfs.new history fs) :
    (∀ path q, walk fs (components path) 0 = some q →
      (fs.resolvePath path = some q ↔ ¬EntersRoot fs (components path) 0)) ∧
    ∀ path q, fs.resolvePath path = some q →
      (fs.resolvePath (path++slash::dotdot) = some (parentOf fs q) ↔
        q = 0 ∨ parentOf fs q ≠ 0) := by
  have ht := run_tree tree_new hr
  constructor
  · intro path q hw
    rw [resolvePath_components]
    exact foldlM_descend_iff ht _ .root hw
  · intro path q h
    exact resolvePath_dotdot ht h

/-- With one directory next to the root. -/
theorem resolvePath_walk_one_dir :
    let fs := exec Vfs.new (.createDir [slash,0x61])
    ¬EntersRoot fs (components [slash,0x61]) 0 ∧
      fs.resolvePath ([slash]++slash::dotdot) = some (parentOf fs 0) := by
  intro fs
  have hr : Run Step Vfs.new [event Vfs.new (.createDir [slash,0x61])] fs :=
    .next .start (step_event _ _)
  obtain ⟨hwalk,hdots⟩ := resolvePath_walk_iff hr
  exact ⟨(hwalk [slash,0x61] 1 rfl).mp rfl,(hdots [slash] 0 rfl).mpr (.inl rfl)⟩

/-- After mkdir /a, the path /a/.. leads to the root, but it resolves to /a. -/
theorem resolvePath_stays_below_root :
    let fs := exec Vfs.new (.createDir [slash,0x61])
    walk fs (components ([slash,0x61]++slash::dotdot)) 0 = some 0 ∧
      fs.resolvePath [slash,0x61] = some 1 ∧ parentOf fs 1 = 0 ∧
      fs.resolvePath ([slash,0x61]++slash::dotdot) = some 1 := ⟨rfl,rfl,rfl,rfl⟩

/-! ## The path of a new node -/

section
variable {fs fs' : Vfs} {n : VfsNode} {p i d next : ℕ} {component name : List UInt8}

section

variable (ht : Tree fs) (ha : Added fs fs' n p) (hn : n.children = [])
include ht ha hn

theorem lookupChild_added (hp : p < fs.nodes.length) (i : ℕ) (name : List UInt8) :
    fs'.lookupChild i name = (fs.lookupChild i name).or
      (if i = p ∧ n.name = name then some fs.nodes.length else none) := by
  have hold : (childLists fs i).find? (fun c => c < fs'.nodes.length ∧ (fs'.node c).name = name) =
      fs.lookupChild i name := by
    apply find?_congr
    intro c hc
    have hlt := (ht.links.below i c hc).2
    rw [ha.name_old hlt, ha.count]
    simp [hlt, Nat.lt_succ_of_lt hlt]
  by_cases hip : i = p
  · subst hip
    have hchildren := ha.children_self
    unfold childLists at hchildren hold
    unfold Vfs.lookupChild at hold ⊢
    rw [hchildren, find?_append, hold]
    congr 1
    simp only [find?_singleton, ha.count, ha.fresh, Nat.lt_succ_self, true_and,
      decide_eq_true_eq]
  · have hchildren := ha.children_other hn ht.links hip
    unfold childLists at hchildren hold
    unfold Vfs.lookupChild at hold ⊢
    rw [hchildren, hold]
    simp [hip]

theorem descend_added
    (hp : p < fs.nodes.length) (h : DepthOf fs i d) (hd : fs.descend i component = some next) :
    fs'.descend i component = some next := by
  have hi : i < fs.nodes.length ∧ (fs.node i).parent < fs.nodes.length := by
    cases d with
    | zero =>
      rw [h.eq_root, ht.rootParent]
      exact ⟨ht.nonempty,ht.nonempty⟩
    | succ d => exact ⟨(ht.links.below _ _ (h.up ht.links).2).2,(parentOf_depth ht h).2.2⟩
  have hparent : (fs'.node i).parent = (fs.node i).parent := ha.parents_old hi.1
  unfold Vfs.descend at hd ⊢
  rw [hparent, ha.count, lookupChild_added ht ha hn hp]
  simp only [hi.2, Nat.lt_succ_of_lt hi.2, and_true] at hd ⊢
  by_cases hstay : component = [] ∨ component = dot
  · simpa only [if_pos hstay] using hd
  · simp only [if_neg hstay] at hd ⊢
    by_cases hdots : component = dotdot
    · simpa only [if_pos hdots] using hd
    · simp only [if_neg hdots] at hd ⊢
      rw [hd, some_or]

theorem walk_added (hp : p < fs.nodes.length) (cs : List (List UInt8)) (h : DepthOf fs i d) {q : ℕ}
    (hd : cs.foldlM fs.descend i = some q) : cs.foldlM fs'.descend i = some q := by
  induction cs generalizing i d with
  | nil => exact hd
  | cons c cs ih =>
    rw [foldlM_cons] at hd ⊢
    obtain ⟨next,hnext,hd⟩ := bind_eq_some_iff.mp hd
    obtain ⟨e,he⟩ := descend_depth ht h hnext
    rw [descend_added ht ha hn hp h hnext]
    exact ih he hd

end

/-- A node made under a path that led nowhere is found there if its name has been kept. -/
theorem createAt_found_iff (ht : Tree fs) {make : List UInt8 → ℕ → VfsNode}
    (hmake : ∀ name p, (make name p).name = name.take nameLen ∧ (make name p).children = [])
    (hnone : fs.resolvePath path = none) (hc : Vfs.createAt make path fs = .ok i fs') :
    fs'.resolvePath path = some i ↔ (lastComponent path).length ≤ nameLen := by
  obtain ⟨rfl,parentPath,name,p,hsplit,hres,ha⟩ := (createAt_ends make ht.inRange).ok hc
  obtain ⟨hname,hchildren⟩ := hmake name p
  have hp := ht.inRange _ _ hres
  obtain ⟨cs,hparent,hpath,hne⟩ := splitPath_components hsplit
  rw [hparent] at hres
  rw [hpath, foldlM_append, hres] at hnone
  rw [hpath, foldlM_append, walk_added ht ha hchildren hp cs .root hres, ← splitPath_name hsplit]
  change (fs.descend p name).bind some = none at hnone
  change (fs'.descend p name).bind some = _ ↔ _
  rw [bind_fun_some] at hnone ⊢
  -- the name is a proper one, since the step was not possible before
  unfold Vfs.descend at hnone ⊢
  split_ifs at hnone ⊢ with hstay hdots
  rw [lookupChild_added ht ha hchildren hp, hnone, hname]
  simp only [true_and, none_or]
  rw [← take_eq_self_iff]
  split_ifs with hkept
  · exact iff_of_true rfl hkept
  · exact iff_of_false nofun hkept

end

/-- In every state that path operations reach, what is created under a path that led nowhere is
found under that path exactly if the last component has at most 60 bytes. -/
theorem created_found_iff {fs fs' : Vfs} {history : List Event}
    (hr : Run Step Vfs.new history fs) {path : List UInt8} {i : ℕ}
    (hnone : fs.resolvePath path = none)
    (hc : Vfs.createFile path fs = .ok i fs' ∨ Vfs.createDir path fs = .ok i fs') :
    fs'.resolvePath path = some i ↔ (lastComponent path).length ≤ 60 := by
  have ht := run_tree tree_new hr
  rcases hc with hc | hc <;> exact createAt_found_iff ht (fun _ _ => ⟨rfl,rfl⟩) hnone hc

theorem created_found_one_file :
    let fs := exec Vfs.new (.createFile [slash,0x61])
    fs.resolvePath [slash,0x61] = some 1 := by
  intro fs
  have hnone : Vfs.new.resolvePath [slash,0x61] = none := rfl
  have hc : Vfs.createFile [slash,0x61] Vfs.new = .ok 1 fs := rfl
  exact (created_found_iff .start hnone (.inl hc)).mpr (by decide)

/-- A file with a name of 61 bytes is not found. -/
theorem created_lost_long_name :
    let path := slash::List.replicate 61 0x61
    let fs := exec Vfs.new (.createFile path)
    Vfs.new.resolvePath path = none ∧ Vfs.createFile path Vfs.new = .ok 1 fs ∧
      fs.resolvePath path = none := by
  exact ⟨rfl,rfl,rfl⟩

end Zohara.Vfs
