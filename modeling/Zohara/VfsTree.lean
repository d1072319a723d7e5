import Zohara.Runs
import Zohara.TreeLinks
import Zohara.Vfs

/-!
# Runs of the operations on paths

An operation adds one node at the end of the vector, clears one, changes the contents of
one, or does nothing. Links between parents and children stay consistent over every run, and
an index is given out once.

An event of a run says which node an operation has made and which one it has removed.
-/
namespace Zohara.Vfs
open FallibleState Runs TreeLinks List Option

inductive Op where
  | createFile (path : List UInt8)
  | createDir (path : List UInt8)
  | writeFile (path : List UInt8) (offset : ℕ) (data : List UInt8)
  | delete (path : List UInt8)

/-- The state after an operation, whatever its answer. -/
def exec (fs : Vfs) : Op → Vfs
  | .createFile path => after (Vfs.createFile path) fs
  | .createDir path => after (Vfs.createDir path) fs
  | .writeFile path offset data => after (Vfs.writeFile path offset data) fs
  | .delete path => after (Vfs.delete path) fs

def okValue {α : Type} : Except Fault α → Option α
  | .ok a => some a
  | .error _ => none

/-- The index that a creation returns. -/
def made (fs : Vfs) : Op → Option ℕ
  | .createFile path => okValue (answer (Vfs.createFile path) fs)
  | .createDir path => okValue (answer (Vfs.createDir path) fs)
  | _ => none

/-- The index of the node that a deletion removes. -/
def gone (fs : Vfs) : Op → Option ℕ
  | .delete path => (okValue (answer (Vfs.delete path) fs)).bind fun _ =>
    okValue (answer (Vfs.target path) fs)
  | _ => none

structure Event where
  op : Op
  made : Option ℕ
  gone : Option ℕ

def Step (fs : Vfs) (e : Event) (fs' : Vfs) : Prop :=
  fs' = exec fs e.op ∧ e.made = made fs e.op ∧ e.gone = gone fs e.op

/-- The root, and what has been made and not removed. -/
def Live (history : List Event) (i : ℕ) : Prop :=
  i = 0 ∨ (∃ e ∈ history, e.made = some i) ∧ ∀ e ∈ history, e.gone ≠ some i

/-- The path and the kind of node of a creation. -/
def Op.makes : Op → Option (List UInt8 × (List UInt8 → ℕ → VfsNode))
  | .createFile path => some (path,.newFile)
  | .createDir path => some (path,.newDir)
  | _ => none

def parents (fs : Vfs) (i : ℕ) : ℕ := (fs.node i).parent

def childLists (fs : Vfs) (i : ℕ) : List ℕ := (fs.node i).children

/-! ## What an operation does to the nodes -/

/-- A node has been appended and hung under `p`. -/
structure Added (fs fs' : Vfs) (n : VfsNode) (p : ℕ) : Prop where
  count : fs'.nodes.length = fs.nodes.length+1
  fresh : fs'.node fs.nodes.length = n
  self : fs'.node p = {fs.node p with children := (fs.node p).children++[fs.nodes.length]}
  other : ∀ i, i ≠ p → i ≠ fs.nodes.length → fs'.node i = fs.node i

/-- A node has been cleared and taken from its parent's list. -/
structure Removed (fs fs' : Vfs) (i : ℕ) : Prop where
  count : fs'.nodes.length = fs.nodes.length
  inside : i ≠ 0 ∧ i < fs.nodes.length
  leaf : (fs.node i).nodeType = .directory → (fs.node i).children = []
  self : fs'.node i = .empty
  parent : (fs.node i).parent ≠ i → fs'.node (fs.node i).parent =
    {fs.node (fs.node i).parent with
      children := (fs.node (fs.node i).parent).children.filter (· ≠ i)}
  other : ∀ j, j ≠ i → j ≠ (fs.node i).parent → fs'.node j = fs.node j

/-- A file has other contents. -/
structure Rewritten (fs fs' : Vfs) (i : ℕ) : Prop where
  count : fs'.nodes.length = fs.nodes.length
  self : ∃ data size, fs'.node i = {fs.node i with data := data, size := size}
  other : ∀ j, j ≠ i → fs'.node j = fs.node j

section
variable {fs : Vfs} {path : List UInt8} {i : ℕ}

theorem node_push_old (n : VfsNode) (next : ℕ) (h : i ≠ fs.nodes.length) :
    Vfs.node ⟨fs.nodes++[n],next⟩ i = fs.node i := by
  unfold Vfs.node
  rw [getD_eq_getElem?_getD, getD_eq_getElem?_getD]
  by_cases hlt : i < fs.nodes.length
  · rw [getElem?_append_left hlt]
  · rw [getElem?_eq_none (by rw [length_append, length_singleton]; omega),
      getElem?_eq_none (by omega)]

theorem createNode_returns {p : ℕ} (make : List UInt8 → ℕ → VfsNode) (name : List UInt8)
    (hp : p < fs.nodes.length) : Returns (Vfs.createNode make p name) fs fun i fs' =>
      i = fs.nodes.length ∧ Added fs fs' (make name p) p := by
  unfold Vfs.createNode Vfs.allocNode
  generalize hn : ({VfsNode.empty with inode := fs.nextInode} : VfsNode) = n
  refine Ends.bind (Q := fun i fs' => i = fs.nodes.length ∧
    fs' = ⟨fs.nodes++[n],(fs.nextInode+1)%2^64⟩) ?_ fun i fs₁ h₁ => ?_
  · exact ends_get (ends_set_bind (ends_pure ⟨rfl,by rw [← hn]⟩))
  · obtain ⟨rfl,hfs₁⟩ := h₁
    refine ends_modify_bind _ (ends_modify_bind _ (ends_pure ⟨rfl,?_⟩))
    have hlen : fs₁.nodes.length = fs.nodes.length+1 := by
      rw [hfs₁, length_append, length_singleton]
    have hold : ∀ j, j ≠ fs.nodes.length → fs₁.node j = fs.node j := by
      rw [hfs₁]
      exact fun j hj => node_push_old _ _ hj
    generalize hfs₂ : fs₁.setNode fs.nodes.length (make name p) = fs₂
    have hlen₂ : fs₂.nodes.length = fs.nodes.length+1 := by rw [← hfs₂, length_setNode, hlen]
    have hself₂ : fs₂.node fs.nodes.length = make name p := by
      rw [← hfs₂, node_set_self _ (by omega)]
    have hold₂ : ∀ j, j ≠ fs.nodes.length → fs₂.node j = fs.node j := by
      intro j hj
      rw [← hfs₂, node_set_other _ hj, hold j hj]
    refine ⟨by rw [length_setNode, hlen₂],?_,?_,fun j hjp hj => ?_⟩
    · rw [node_set_other _ (by omega), hself₂]
    · rw [node_set_self _ (by omega), hold₂ p (by omega)]
    · rw [node_set_other _ hjp, hold₂ j hj]

theorem deleteNode_ends (i : ℕ) : Ends (Vfs.deleteNode i) fs (fun _ fs' => Removed fs fs' i)
    fun _ fs' => fs' = fs := by
  unfold Vfs.deleteNode
  refine ends_get ?_
  by_cases h0 : i = 0
  · rw [if_pos h0]
    exact ends_throw rfl
  rw [if_neg h0]
  by_cases hlt : fs.nodes.length ≤ i
  · rw [if_pos hlt]
    exact ends_throw rfl
  rw [if_neg hlt]
  by_cases hfull : (fs.node i).nodeType = .directory ∧ (fs.node i).children ≠ []
  · rw [if_pos hfull]
    exact ends_throw rfl
  rw [if_neg hfull]
  have hleaf : (fs.node i).nodeType = .directory → (fs.node i).children = [] :=
    fun hd => not_not.mp fun hc => hfull ⟨hd,hc⟩
  have hi : i < fs.nodes.length := Nat.lt_of_not_le hlt
  split_ifs with hp
  · refine ends_set_bind (ends_modify _ ⟨?_,⟨h0,hi⟩,hleaf,?_,fun hne => ?_,fun j hj hjp => ?_⟩)
    · rw [length_setNode, length_setNode]
    · rw [node_set_self _ (by rw [length_setNode]; exact hi)]
    · rw [node_set_other _ hne, node_set_self _ hp]
    · rw [node_set_other _ hj, node_set_other _ hjp]
  · refine ends_modify _ ⟨length_setNode _ _,⟨h0,hi⟩,hleaf,node_set_self _ hi,fun hne => ?_,
      fun j hj _ => node_set_other _ hj⟩
    have hempty : fs.node (fs.node i).parent = .empty := by
      unfold Vfs.node at hp ⊢
      rw [getD_eq_getElem?_getD, getElem?_eq_none (Nat.le_of_not_lt hp)]
      rfl
    rw [node_set_other _ hne, hempty]
    rfl

theorem locate_ends : Ends (Vfs.locate path) fs
    (fun r fs' => fs' = fs ∧ ∃ parentPath, Vfs.splitPath path = .ok (parentPath,r.2) ∧
      fs.resolvePath parentPath = some r.1) fun _ fs' => fs' = fs := by
  unfold Vfs.locate
  refine ends_get ?_
  cases hs : Vfs.splitPath path with
  | error msg => exact ends_throw rfl
  | ok r =>
    obtain ⟨parentPath,name⟩ := r
    dsimp only
    cases hr : fs.resolvePath parentPath with
    | none => exact ends_throw rfl
    | some p => exact ends_pure ⟨rfl,parentPath,rfl,hr⟩

/-- Every path resolves to an index of the vector. -/
def InRange (fs : Vfs) : Prop := ∀ path p, fs.resolvePath path = some p → p < fs.nodes.length

theorem createAt_ends (make : List UInt8 → ℕ → VfsNode) (h : InRange fs) :
    Ends (Vfs.createAt make path) fs (fun i fs' => i = fs.nodes.length ∧ ∃ parentPath name p,
      Vfs.splitPath path = .ok (parentPath,name) ∧ fs.resolvePath parentPath = some p ∧
      Added fs fs' (make name p) p) fun _ fs' => fs' = fs := by
  refine Ends.bind locate_ends fun r fs₁ h₁ => ?_
  obtain ⟨rfl,parentPath,hsplit,hres⟩ := h₁
  refine Ends.mono (createNode_returns make r.2 (h _ _ hres)) (fun i fs' hq => ?_)
    fun _ _ hf => hf.elim
  exact ⟨hq.1,parentPath,r.2,r.1,hsplit,hres,hq.2⟩

theorem target_ends : Ends (Vfs.target path) fs
    (fun i fs' => fs' = fs ∧ ∃ parentPath name p, Vfs.splitPath path = .ok (parentPath,name) ∧
      fs.resolvePath parentPath = some p ∧ fs.lookupChild p name = some i)
    fun _ fs' => fs' = fs := by
  refine Ends.bind locate_ends fun r fs₁ h₁ => ?_
  obtain ⟨rfl,parentPath,hsplit,hres⟩ := h₁
  dsimp only
  refine ends_get ?_
  cases hl : fs₁.lookupChild r.1 r.2 with
  | none => exact ends_throw rfl
  | some i => exact ends_pure ⟨rfl,parentPath,r.2,r.1,hsplit,hres,hl⟩

theorem delete_ends : Ends (Vfs.delete path) fs
    (fun _ fs' => ∃ i parentPath name p, Vfs.target path fs = .ok i fs ∧
      Vfs.splitPath path = .ok (parentPath,name) ∧ fs.resolvePath parentPath = some p ∧
      fs.lookupChild p name = some i ∧ Removed fs fs' i) fun _ fs' => fs' = fs := by
  have htarget := @target_ends fs path
  unfold Vfs.delete
  cases ht : Vfs.target path fs with
  | error e fs' =>
    have hfs := htarget.error ht
    subst hfs
    refine Ends.bind (Q := fun _ _ => False) ?_ fun _ _ hf => hf.elim
    unfold Ends
    rw [ht]
  | ok i fs' =>
    obtain ⟨hfs,parentPath,name,p,hsplit,hres,hl⟩ := htarget.ok ht
    subst hfs
    refine Ends.bind (Q := fun j fs'' => j = i ∧ fs'' = fs') ?_ fun j fs'' hj => ?_
    · unfold Ends
      rw [ht]
      exact ⟨rfl,rfl⟩
    · obtain ⟨rfl,rfl⟩ := hj
      exact Ends.imp (deleteNode_ends j) (fun _ fs' hr => ⟨j,parentPath,name,p,rfl,hsplit,hres,hl,hr⟩)

theorem writeFile_ends (offset : ℕ) (data : List UInt8) : Ends (Vfs.writeFile path offset data) fs
    (fun _ fs' => ∃ i, Rewritten fs fs' i) fun _ fs' => fs' = fs := by
  unfold Vfs.writeFile Vfs.writeFileByNode
  refine ends_get ?_
  cases hr : fs.resolvePath path with
  | none => exact ends_throw rfl
  | some i =>
    refine ends_get ?_
    split_ifs with hlt htype hend
    · exact ends_throw rfl
    · exact ends_throw rfl
    · exact ends_throw rfl
    · refine ends_set_bind (ends_pure ⟨i,length_setNode _ _,
        ⟨_,_,node_set_self _ (Nat.lt_of_not_le hlt)⟩,fun j hj => node_set_other _ hj⟩)

/-- All that a step can do. -/
inductive Effect (fs fs' : Vfs) : Event → Prop
  | idle {op : Op} (same : fs' = fs) : Effect fs fs' ⟨op,none,none⟩
  | added {op : Op} {path parentPath name : List UInt8} {make : List UInt8 → ℕ → VfsNode} {p : ℕ}
      (makes : op.makes = some (path,make)) (split : Vfs.splitPath path = .ok (parentPath,name))
      (resolved : fs.resolvePath parentPath = some p) (added : Added fs fs' (make name p) p) :
      Effect fs fs' ⟨op,some fs.nodes.length,none⟩
  | rewritten {op : Op} {i : ℕ} (rewritten : Rewritten fs fs' i) : Effect fs fs' ⟨op,none,none⟩
  | removed {path parentPath name : List UInt8} {p i : ℕ}
      (split : Vfs.splitPath path = .ok (parentPath,name))
      (resolved : fs.resolvePath parentPath = some p) (found : fs.lookupChild p name = some i)
      (removed : Removed fs fs' i) : Effect fs fs' ⟨.delete path,none,some i⟩

variable {make : List UInt8 → ℕ → VfsNode}

theorem create_effect {fs' : Vfs} {op : Op} (hr : InRange fs)
    (hmakes : op.makes = some (path,make)) (hfs : fs' = after (Vfs.createAt make path) fs) :
    Effect fs fs' ⟨op,okValue (answer (Vfs.createAt make path) fs),none⟩ := by
  have hends := @createAt_ends fs path make hr
  cases hx : Vfs.createAt make path fs with
  | ok i fs₁ =>
    obtain ⟨rfl,parentPath,name,p,hsplit,hres,hadded⟩ := hends.ok hx
    rw [hfs, after_ok hx, answer_ok hx]
    exact .added hmakes hsplit hres hadded
  | error e fs₁ =>
    rw [hfs, after_error hx, answer_error hx]
    exact .idle (hends.error hx)

theorem delete_cases : (gone fs (.delete path) = none ∧ after (Vfs.delete path) fs = fs) ∨
    ∃ i parentPath name p, gone fs (.delete path) = some i ∧
      Vfs.splitPath path = .ok (parentPath,name) ∧ fs.resolvePath parentPath = some p ∧
      fs.lookupChild p name = some i ∧ Removed fs (after (Vfs.delete path) fs) i := by
  have hends := @delete_ends fs path
  cases hx : Vfs.delete path fs with
  | ok u fs' =>
    obtain ⟨i,parentPath,name,p,ht,hsplit,hres,hl,hremoved⟩ := hends.ok hx
    rw [gone, after_ok hx, answer_ok hx, answer_ok ht]
    exact .inr ⟨i,parentPath,name,p,rfl,hsplit,hres,hl,hremoved⟩
  | error e fs' =>
    rw [gone, after_error hx, answer_error hx]
    exact .inl ⟨rfl,hends.error hx⟩

theorem delete_effect : Effect fs (after (Vfs.delete path) fs)
    ⟨.delete path,none,gone fs (.delete path)⟩ := by
  rcases @delete_cases fs path with ⟨hgone,hsame⟩ | ⟨i,parentPath,name,p,hgone,hsplit,hres,hl,hremoved⟩
  · rw [hgone]
    exact .idle hsame
  · rw [hgone]
    exact .removed hsplit hres hl hremoved

theorem step_effect {fs' : Vfs} {e : Event} (hr : InRange fs) (hs : Step fs e fs') :
    Effect fs fs' e := by
  obtain ⟨op,m,g⟩ := e
  obtain ⟨hfs,hm,hg⟩ := hs
  dsimp only at hfs hm hg
  subst hm
  subst hg
  cases op with
  | createFile path | createDir path => exact create_effect hr rfl hfs
  | writeFile path offset data =>
    have hends := @writeFile_ends fs path offset data
    change fs' = after (Vfs.writeFile path offset data) fs at hfs
    cases hx : Vfs.writeFile path offset data fs with
    | ok n fs₁ =>
      obtain ⟨i,hi⟩ := hends.ok hx
      rw [hfs, after_ok hx]
      exact .rewritten hi
    | error e fs₁ =>
      rw [hfs, after_error hx]
      exact .idle (hends.error hx)
  | delete path =>
    rw [hfs]
    exact delete_effect

end

/-! ## Links -/

structure Tree (fs : Vfs) : Prop where
  links : Linked fs.nodes.length (parents fs) (childLists fs)
  nonempty : 0 < fs.nodes.length
  rootType : (fs.node 0).nodeType = .directory
  rootParent : (fs.node 0).parent = 0

section
variable {fs fs' : Vfs} {e : Event}

theorem foldlM_invariant {α β : Type} {f : β → α → Option β} {P : β → Prop}
    (hstep : ∀ b a b', P b → f b a = some b' → P b') {l : List α} {b b' : β} (h : P b)
    (hf : l.foldlM f b = some b') : P b' := by
  induction l generalizing b with
  | nil =>
    rw [foldlM_nil] at hf
    cases hf
    exact h
  | cons a l ih =>
    rw [foldlM_cons] at hf
    obtain ⟨b₁,h₁,hf⟩ := bind_eq_some_iff.mp hf
    exact ih (hstep b a b₁ h h₁) hf

theorem lookupChild_spec {p i : ℕ} {name : List UInt8} (h : fs.lookupChild p name = some i) :
    i ∈ childLists fs p ∧ i < fs.nodes.length ∧ (fs.node i).name = name := by
  refine ⟨mem_of_find?_eq_some h,?_⟩
  simpa using find?_some h

/-- A property of the root that children inherit, and parents from their children, holds
wherever a path leads. -/
theorem resolvePath_closed {P : ℕ → Prop} (h0 : P 0)
    (hchild : ∀ p c, P p → c ∈ childLists fs p → P c)
    (hparent : ∀ c, P c → (fs.node c).parent ≠ 0 → (fs.node c).parent < fs.nodes.length →
      P (fs.node c).parent) {path : List UInt8} {p : ℕ} (h : fs.resolvePath path = some p) :
    P p := by
  unfold Vfs.resolvePath at h
  by_cases hempty : Vfs.trim path = []
  · rw [if_pos hempty] at h
    cases h
    exact h0
  · rw [if_neg hempty] at h
    refine foldlM_invariant (fun cur component next hcur hnext => ?_) h0 h
    unfold Vfs.descend at hnext
    split_ifs at hnext with hstay hup
    · cases hnext
      exact hcur
    · cases hnext
      split_ifs with hpar
      · exact hparent cur hcur hpar.1 hpar.2
      · exact hcur
    · exact hchild cur next hcur (lookupChild_spec hnext).1

theorem Tree.inRange (h : Tree fs) : InRange fs := by
  intro path p hp
  exact resolvePath_closed (P := fun i => i < fs.nodes.length) h.nonempty
    (fun q c _ hc => (h.links.below q c hc).2) (fun c _ _ hlt => hlt) hp

theorem Op.makes_node {op : Op} {path : List UInt8}
    (h : op.makes = some (path,make)) (name : List UInt8) (p : ℕ) :
    (make name p).name = name.take nameLen ∧ (make name p).parent = p ∧
      (make name p).children = [] ∧ (make name p).inode = 0 := by
  cases op with
  | createFile path =>
    cases h
    exact ⟨rfl,rfl,rfl,rfl⟩
  | createDir path =>
    cases h
    exact ⟨rfl,rfl,rfl,rfl⟩
  | writeFile path offset data | delete path => cases h

section
variable {n : VfsNode} {p : ℕ}

theorem Added.parents_old (h : Added fs fs' n p) (hi : i < fs.nodes.length) :
    parents fs' i = parents fs i := by
  unfold parents
  by_cases hip : i = p
  · rw [hip, h.self]
  · rw [h.other i hip (by omega)]

theorem Added.children_self (h : Added fs fs' n p) :
    childLists fs' p = childLists fs p++[fs.nodes.length] := by
  unfold childLists
  rw [h.self]

theorem Added.children_other (h : Added fs fs' n p) (hn : n.children = [])
    (hl : Linked fs.nodes.length (parents fs) (childLists fs)) (hi : i ≠ p) :
    childLists fs' i = childLists fs i := by
  by_cases hlast : i = fs.nodes.length
  · rw [hl.leaf (Nat.le_of_eq hlast.symm), hlast]
    unfold childLists
    rw [h.fresh, hn]
  · unfold childLists
    rw [h.other i hi hlast]

end

section
variable {i : ℕ}

section

variable (h : Removed fs fs' i)
include h

theorem Removed.parents_other {j : ℕ} (hj : j ≠ i) : parents fs' j = parents fs j := by
  unfold parents
  by_cases hjp : j = (fs.node i).parent
  · rw [hjp, h.parent (hjp ▸ hj)]
  · rw [h.other j hj hjp]

theorem Removed.children_other
    (hl : Linked fs.nodes.length (parents fs) (childLists fs)) {j : ℕ} (hj : j ≠ i) :
    childLists fs' j = (childLists fs j).filter (· ≠ i) := by
  unfold childLists
  by_cases hjp : j = (fs.node i).parent
  · rw [hjp, h.parent (hjp ▸ hj)]
  · rw [h.other j hj hjp, filter_eq_self.mpr]
    intro c hc
    refine decide_eq_true fun he => hjp ?_
    rw [← he]
    exact (hl.up j c hc).symm

theorem Removed.children_self : childLists fs' i = [] := by
  unfold childLists
  rw [h.self]
  rfl

theorem Removed.children_sublist
    (hl : Linked fs.nodes.length (parents fs) (childLists fs)) (j : ℕ) :
    (childLists fs' j).Sublist (childLists fs j) := by
  by_cases hj : j = i
  · rw [hj, h.children_self]
    exact nil_sublist _
  · rw [h.children_other hl hj]
    exact filter_sublist

theorem Removed.not_listed
    (hl : Linked fs.nodes.length (parents fs) (childLists fs)) (j : ℕ) : i ∉ childLists fs' j := by
  by_cases hj : j = i
  · rw [hj, h.children_self]
    exact not_mem_nil
  · rw [h.children_other hl hj]
    intro hc
    simpa using (mem_filter.mp hc).2

end

end

theorem Rewritten.node_eq (h : Rewritten fs fs' i) (j : ℕ) :
    ∃ data size, fs'.node j = {fs.node j with data := data, size := size} := by
  by_cases hj : j = i
  · rw [hj]
    exact h.self
  · exact ⟨_,_,h.other j hj⟩

theorem Rewritten.links_eq (h : Rewritten fs fs' i) :
    parents fs' = parents fs ∧ childLists fs' = childLists fs := by
  constructor
  · funext j
    obtain ⟨data,size,hn⟩ := h.node_eq j
    unfold parents
    rw [hn]
  · funext j
    obtain ⟨data,size,hn⟩ := h.node_eq j
    unfold childLists
    rw [hn]

theorem Effect.root (he : Effect fs fs' e) (h : Tree fs) :
    (fs'.node 0).nodeType = (fs.node 0).nodeType ∧ (fs'.node 0).parent = (fs.node 0).parent ∧
      (fs'.node 0).inode = (fs.node 0).inode := by
  have hpos := h.nonempty
  cases he with
  | idle same => rw [same]; exact ⟨rfl,rfl,rfl⟩
  | @added op path parentPath name make p makes split resolved added =>
    by_cases hp : 0 = p
    · rw [hp, added.self]
      exact ⟨rfl,rfl,rfl⟩
    · rw [added.other 0 hp (by omega)]
      exact ⟨rfl,rfl,rfl⟩
  | rewritten rewritten =>
    obtain ⟨data,size,hn⟩ := rewritten.node_eq 0
    rw [hn]
    exact ⟨rfl,rfl,rfl⟩
  | @removed path parentPath name p i split resolved found removed =>
    have h0 : 0 ≠ i := removed.inside.1.symm
    by_cases hp : 0 = (fs.node i).parent
    · have hself := removed.parent (hp ▸ h0)
      rw [← hp] at hself
      rw [hself]
      exact ⟨rfl,rfl,rfl⟩
    · rw [removed.other 0 h0 hp]
      exact ⟨rfl,rfl,rfl⟩

theorem Effect.tree (he : Effect fs fs' e) (h : Tree fs) : Tree fs' := by
  obtain ⟨htype,hparent,-⟩ := he.root h
  suffices hlinks : Linked fs'.nodes.length (parents fs') (childLists fs') ∧ 0 < fs'.nodes.length by
    exact ⟨hlinks.1,hlinks.2,htype.trans h.rootType,hparent.trans h.rootParent⟩
  cases he with
  | idle same =>
    rw [same]
    exact ⟨h.links,h.nonempty⟩
  | @added op path parentPath name make p makes split resolved added =>
    obtain ⟨-,hup,hchildren,-⟩ := Op.makes_node makes name p
    have hnew : parents fs' fs.nodes.length = p := by
      unfold parents
      rw [added.fresh, hup]
    rw [added.count]
    exact ⟨h.links.add (h.inRange _ _ resolved) (fun i hi => added.parents_old hi) hnew
      added.children_self fun i hi => added.children_other hchildren h.links hi,Nat.succ_pos _⟩
  | rewritten rewritten =>
    obtain ⟨hp,hc⟩ := rewritten.links_eq
    rw [rewritten.count, hp, hc]
    exact ⟨h.links,h.nonempty⟩
  | removed split resolved found removed =>
    rw [removed.count]
    exact ⟨h.links.drop (fun j hj => removed.parents_other hj) (removed.children_sublist h.links)
      (removed.not_listed h.links),h.nonempty⟩

/-- What makes a node the file or directory that it is. -/
def identity (n : VfsNode) : List UInt8 × VfsNodeType × ℕ := (n.name,n.nodeType,n.parent)

/-- A slot of the vector keeps its file or is cleared. -/
theorem Effect.identity_eq (he : Effect fs fs' e) (hi : i < fs.nodes.length) :
    identity (fs'.node i) = identity (fs.node i) ∨ identity (fs'.node i) = identity .empty := by
  cases he with
  | idle same =>
    rw [same]
    exact .inl rfl
  | @added op path parentPath name make p makes split resolved added =>
    by_cases hip : i = p
    · rw [hip, added.self]
      exact .inl rfl
    · rw [added.other i hip (by omega)]
      exact .inl rfl
  | rewritten rewritten =>
    obtain ⟨data,size,hn⟩ := rewritten.node_eq i
    rw [hn]
    exact .inl rfl
  | @removed path parentPath name p j split resolved found removed =>
    by_cases hij : i = j
    · rw [hij, removed.self]
      exact .inr rfl
    · by_cases hip : i = (fs.node j).parent
      · rw [hip, removed.parent (hip ▸ hij)]
        exact .inl rfl
      · rw [removed.other i hij hip]
        exact .inl rfl

theorem Effect.count_le (he : Effect fs fs' e) : fs.nodes.length ≤ fs'.nodes.length := by
  cases he with
  | idle same => exact Nat.le_of_eq (congrArg _ (congrArg _ same.symm))
  | added makes split resolved added =>
    rw [added.count]
    exact Nat.le_succ _
  | rewritten rewritten => exact Nat.le_of_eq rewritten.count.symm
  | removed split resolved found removed => exact Nat.le_of_eq removed.count.symm

theorem tree_new : Tree Vfs.new := by
  have hnone : ∀ p, childLists Vfs.new p = [] := by
    intro p
    cases p <;> rfl
  refine ⟨⟨fun p c hc => ?_,fun p c hc => ?_,fun p => ?_⟩,Nat.zero_lt_one,rfl,rfl⟩
  · rw [hnone] at hc
    cases hc
  · rw [hnone] at hc
    cases hc
  · rw [hnone]
    exact nodup_nil

theorem step_tree (h : Tree fs) (hs : Step fs e fs') : Tree fs' := (step_effect h.inRange hs).tree h

variable {history : List Event}

theorem run_tree (h : Tree fs) (hr : Run Step fs history fs') : Tree fs' :=
  hr.invariant (P := fun _ fs => Tree fs) h fun _ _ _ _ hp hs => step_tree hp hs

theorem run_identity (h : Tree fs) (hr : Run Step fs history fs') :
    fs.nodes.length ≤ fs'.nodes.length ∧ ∀ i < fs.nodes.length,
      identity (fs'.node i) = identity (fs.node i) ∨ identity (fs'.node i) = identity .empty := by
  induction hr with
  | start => exact ⟨Nat.le_refl _,fun _ _ => .inl rfl⟩
  | next r hs ih =>
    have heffect := step_effect (run_tree h r).inRange hs
    refine ⟨Nat.le_trans ih.1 heffect.count_le,fun i hi => ?_⟩
    rcases heffect.identity_eq (Nat.lt_of_lt_of_le hi ih.1) with hsame | hclear
    · rw [hsame]
      exact ih.2 i hi
    · exact .inr hclear

theorem run_made (hr : Run Step Vfs.new history fs) :
    ∀ a ∈ history, ∀ i, a.made = some i ∨ a.gone = some i → i < fs.nodes.length := by
  induction hr with
  | start => exact fun a ha => by cases ha
  | next r hs ih =>
    have htree := run_tree tree_new r
    have heffect := step_effect htree.inRange hs
    have hle := heffect.count_le
    intro a ha i hi
    rcases mem_cons.mp ha with rfl | ha
    · cases heffect with
      | idle same => rcases hi with hi | hi <;> cases hi
      | added makes split resolved added =>
        rw [added.count]
        rcases hi with hi | hi
        · cases hi
          exact Nat.lt_succ_self _
        · cases hi
      | rewritten rewritten => rcases hi with hi | hi <;> cases hi
      | removed split resolved found removed =>
        rcases hi with hi | hi
        · cases hi
        · cases hi
          exact Nat.lt_of_lt_of_le removed.inside.2 hle
    · exact Nat.lt_of_lt_of_le (ih a ha i hi) hle

theorem made_index (h : Tree fs) (hs : Step fs e fs') (hi : e.made = some i) :
    i = fs.nodes.length := by
  have heffect := step_effect h.inRange hs
  cases heffect with
  | idle same => cases hi
  | added makes split resolved added =>
    cases hi
    rfl
  | rewritten rewritten | removed split resolved found removed => cases hi

/-- In every state of every run: children have larger indices of the vector, name the listing
node as their parent, and are listed once and nowhere else; the root is a directory and its
own parent. From there on every slot keeps its file or directory or is cleared, and a new node
gets an index that none has had. -/
theorem tree_links {history : List Event} (hr : Run Step Vfs.new history fs) :
    (∀ p < fs.nodes.length, ∀ c ∈ (fs.node p).children, p < c ∧ c < fs.nodes.length ∧
      (fs.node c).parent = p ∧ (fs.node p).children.count c = 1 ∧
      ∀ q < fs.nodes.length, c ∈ (fs.node q).children → q = p) ∧
    (fs.node 0).nodeType = .directory ∧ (fs.node 0).parent = 0 ∧
    (∀ future fs', Run Step fs future fs' → ∀ i < fs.nodes.length,
      identity (fs'.node i) = identity (fs.node i) ∨ identity (fs'.node i) = identity .empty) ∧
    ∀ e fs' i, Step fs e fs' → e.made = some i →
      fs.nodes.length ≤ i ∧ ∀ a ∈ history, a.made ≠ some i := by
  have htree := run_tree tree_new hr
  have hl := htree.links
  refine ⟨fun p _ c hc => ?_,htree.rootType,htree.rootParent,
    fun future fs' hr' => (run_identity htree hr').2,fun e fs' i hs hi => ?_⟩
  · obtain ⟨hlt,hle⟩ := hl.below p c hc
    exact ⟨hlt,hle,hl.up p c hc,count_eq_one_of_mem (hl.once p) hc,
      fun q _ hq => hl.unique hq hc⟩
  · obtain rfl := made_index htree hs hi
    refine ⟨Nat.le_refl _,fun a ha he => ?_⟩
    exact absurd (run_made hr a ha _ (.inl he)) (Nat.lt_irrefl _)

end

def event (fs : Vfs) (op : Op) : Event := ⟨op,made fs op,gone fs op⟩

theorem step_event (fs : Vfs) (op : Op) : Step fs (event fs op) (exec fs op) := ⟨rfl,rfl,rfl⟩

/-- A directory with a file in it. -/
theorem tree_links_one_file :
    let fs₁ := exec Vfs.new (.createDir [slash,0x64])
    let fs₂ := exec fs₁ (.createFile [slash,0x64,slash,0x66])
    (fs₂.node 1).children = [2] ∧ (fs₂.node 2).parent = 1 ∧ (fs₂.node 0).nodeType = .directory := by
  intro fs₁ fs₂
  have hrun : Run Step Vfs.new [event fs₁ (.createFile [slash,0x64,slash,0x66]),
      event Vfs.new (.createDir [slash,0x64])] fs₂ :=
    .next (.next .start (step_event _ _)) (step_event _ _)
  have hall := tree_links hrun
  have hchildren : (fs₂.node 1).children = [2] := by decide
  refine ⟨hchildren,?_,hall.2.1⟩
  exact (hall.1 1 (by decide) 2 (by rw [hchildren]; exact mem_singleton_self 2)).2.2.1

end Zohara.Vfs
