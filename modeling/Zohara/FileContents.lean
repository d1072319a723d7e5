import Zohara.OpenFiles
import Zohara.SparseWrites
import Zohara.VfsTree

/-!
# Contents of files (src/fs/mod.rs)

Runs of the operations on paths and of writes to a node by its index. An event says which node a
call has made, removed or written to, where and what; from the events `writesTo` collects the
writes to a node since it was made or cleared. The contents of a node are these writes on a
zeroed array, and both read functions give the bytes of that array.

A write whose end does not fit into 64 bits stops the kernel and is no event of a run. A cleared
slot is a file without contents that can be written to by its index. The failure of the kernel
heap is left out, as in the model of the tree.
-/
namespace Zohara.FileContents
open ByteMemory FallibleState Runs SparseWrites Vfs OpenFiles

inductive Call where
  | onPath (op : Op)
  | writeFileByNode (nodeIdx offset : ℕ) (data : List UInt8)

def Call.exec (fs : Vfs) : Call → Vfs
  | .onPath op => Vfs.exec fs op
  | .writeFileByNode idx offset data => after (Vfs.writeFileByNode idx offset data) fs

def Call.made (fs : Vfs) : Call → Option ℕ
  | .onPath op => Vfs.made fs op
  | .writeFileByNode _ _ _ => none

def Call.gone (fs : Vfs) : Call → Option ℕ
  | .onPath op => Vfs.gone fs op
  | .writeFileByNode _ _ _ => none

/-- The node that a write has changed, with the offset and the bytes. -/
def Call.wrote (fs : Vfs) : Call → Option (ℕ × ℕ × List UInt8)
  | .onPath (.writeFile path offset data) =>
    (okValue (answer (Vfs.writeFile path offset data) fs)).bind fun _ =>
      (fs.resolvePath path).map (·,offset,data)
  | .onPath _ => none
  | .writeFileByNode idx offset data =>
    (okValue (answer (Vfs.writeFileByNode idx offset data) fs)).map fun _ => (idx,offset,data)

structure Event where
  made : Option ℕ
  gone : Option ℕ
  wrote : Option (ℕ × ℕ × List UInt8)

def Step (fs : Vfs) (e : Event) (fs' : Vfs) : Prop :=
  ∃ c : Call, fs' = c.exec fs ∧ e = ⟨c.made fs,c.gone fs,c.wrote fs⟩

/-- The writes to a node since it was made or cleared, oldest first. -/
def writesTo : List Event → ℕ → Writes
  | [],_ => []
  | e::h,i =>
    if e.made = some i ∨ e.gone = some i then []
    else
      match e.wrote with
      | some (j,offset,data) => if j = i then writesTo h i++[(offset,data)] else writesTo h i
      | none => writesTo h i

/-! ## One call -/

section
variable {fs fs' : Vfs} {i offset : ℕ} {data : List UInt8}

/-- A write copies its bytes into the extended contents of one node. -/
structure Written (fs fs' : Vfs) (i offset : ℕ) (data : List UInt8) : Prop where
  file : IsFile fs i
  count : fs'.nodes.length = fs.nodes.length
  self : fs'.node i = {fs.node i with
    data := patch (extend (fs.node i).data (offset+data.length)) offset data
    size := (patch (extend (fs.node i).data (offset+data.length)) offset data).length}
  other : ∀ j, j ≠ i → fs'.node j = fs.node j

theorem Written.rewritten (h : Written fs fs' i offset data) : Rewritten fs fs' i :=
  ⟨h.count,⟨_,_,h.self⟩,h.other⟩

theorem writeFileByNode_returns (h : IsFile fs i) (hend : offset+data.length < 2^64) :
    Returns (Vfs.writeFileByNode i offset data) fs fun n fs' =>
      n = data.length ∧ Written fs fs' i offset data := by
  unfold Vfs.writeFileByNode
  apply ends_get
  rw [if_neg h.1.not_ge, if_neg (not_not_intro h.2), if_neg hend.not_ge]
  apply ends_set_bind
  apply ends_pure
  exact ⟨rfl,h,length_setNode _ _,node_set_self _ h.1,fun j hj => node_set_other _ hj⟩

theorem writeFileByNode_ends (i offset : ℕ) (data : List UInt8) :
    Ends (Vfs.writeFileByNode i offset data) fs
      (fun n fs' => n = data.length ∧ Written fs fs' i offset data) fun _ fs' => fs' = fs := by
  by_cases h : IsFile fs i ∧ offset+data.length < 2^64
  · exact Returns.ends (writeFileByNode_returns h.1 h.2)
  · unfold Vfs.writeFileByNode
    apply ends_get
    split_ifs with hlt htype hend
    · exact ends_throw rfl
    · exact ends_throw rfl
    · exact ends_throw rfl
    · exact absurd ⟨⟨not_le.mp hlt,not_not.mp htype⟩,not_le.mp hend⟩ h

/-- The contents of a node, and the size that it records. -/
def contents (fs : Vfs) (i : ℕ) : List UInt8 × ℕ := ((fs.node i).data,(fs.node i).size)

/-- What a call does to the contents of the nodes. -/
inductive Changes (fs fs' : Vfs) : Event → Prop
  | idle (same : contents fs' = contents fs) : Changes fs fs' ⟨none,none,none⟩
  | reset {made gone : Option ℕ} {i : ℕ}
      (event : made = some i ∧ gone = none ∨ made = none ∧ gone = some i)
      (empty : contents fs' i = ([],0)) (other : ∀ j, j ≠ i → contents fs' j = contents fs j) :
      Changes fs fs' ⟨made,gone,none⟩
  | wrote {i offset : ℕ} {data : List UInt8} (written : Written fs fs' i offset data) :
      Changes fs fs' ⟨none,none,some (i,offset,data)⟩

theorem step_tree {e : Event} (ht : Tree fs) (hs : Step fs e fs') : Tree fs' := by
  obtain ⟨c,rfl,-⟩ := hs
  cases c with
  | onPath op => exact Vfs.step_tree ht (step_event fs op)
  | writeFileByNode i offset data =>
    cases hx : Vfs.writeFileByNode i offset data fs with
    | ok n fs₁ =>
      have hw := ((writeFileByNode_ends i offset data).ok hx).2
      have he : Effect fs fs₁ ⟨.delete [],none,none⟩ := .rewritten hw.rewritten
      rw [Call.exec, after_ok hx]
      exact he.tree ht
    | error e fs₁ =>
      rw [Call.exec, after_error hx, (writeFileByNode_ends i offset data).error hx]
      exact ht

end

/-! ## Runs -/

section
variable {fs fs' : Vfs} {h : List Event} {e : Event}

/-- The contents of every node are its writes on a zeroed array. -/
def Recorded (h : List Event) (fs : Vfs) : Prop :=
  ∀ i, contents fs i = (applied (writesTo h i),extent (writesTo h i))

theorem Recorded.start : Recorded [] Vfs.new := by
  intro i
  cases i <;> rfl

theorem Recorded.step (hc : Changes fs fs' e) (hrec : Recorded h fs) : Recorded (e::h) fs' := by
  intro i
  cases hc with
  | idle same =>
    rw [same, hrec i]
    rfl
  | @reset made gone j event empty other =>
    by_cases hij : i = j
    · subst hij
      have hreset : writesTo (⟨made,gone,none⟩::h) i = [] := by
        unfold writesTo
        rcases event with ⟨rfl,rfl⟩ | ⟨rfl,rfl⟩ <;> simp
      rw [empty, hreset]
      rfl
    · have hkeep : writesTo (⟨made,gone,none⟩::h) i = writesTo h i := by
        rw [writesTo]
        rcases event with ⟨rfl,rfl⟩ | ⟨rfl,rfl⟩ <;> simp [Ne.symm hij]
      rw [other i hij, hkeep]
      exact hrec i
  | @wrote j offset data written =>
    have hold := hrec i
    by_cases hij : i = j
    · subst hij
      have hadd : writesTo (⟨none,none,some (i,offset,data)⟩::h) i =
          writesTo h i++[(offset,data)] := by
        simp [writesTo]
      unfold contents at hold ⊢
      have hdata := (Prod.mk.inj hold).1
      rw [hadd, written.self]
      dsimp only
      rw [hdata, ← applied_snoc, length_applied]
    · have hkeep : writesTo (⟨none,none,some (j,offset,data)⟩::h) i = writesTo h i := by
        simp [writesTo, Ne.symm hij]
      unfold contents at hold ⊢
      rw [hkeep, written.other i hij]
      exact hold

end

end Zohara.FileContents
