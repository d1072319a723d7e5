import Zohara.FallibleState
import Mathlib.Data.List.Basic
import Mathlib.Tactic.Ring

/-!
# The in-memory file tree (src/fs/mod.rs, src/fs/node.rs)

Nodes live in a growing vector; a node keeps the index of its parent and the indices of its
children. Deleting clears a slot and never frees it. Paths and names are the bytes of
strings; a node's name is the part of its array that is in use, at most 60 bytes.
Permissions and reference counts, which nothing reads, are left out, and so is the failure of
the kernel heap. The model is that of an initialised tree.

An index outside the vector reads as a cleared node. The operations on paths do not use one:
they start from indices that a path resolves to, and these are in range.
-/
namespace Zohara.Vfs
open FallibleState

def nameLen : ℕ := 60

inductive VfsNodeType where
  | file
  | directory
  | symlink
  deriving DecidableEq

structure VfsNode where
  name : List UInt8
  nodeType : VfsNodeType
  inode : ℕ
  parent : ℕ
  children : List ℕ
  data : List UInt8
  size : ℕ

namespace VfsNode

/-- A cleared node. -/
def empty : VfsNode := ⟨[],.file,0,0,[],[],0⟩

def newFile (name : List UInt8) (parent : ℕ) : VfsNode :=
  {empty with name := name.take nameLen, nodeType := .file, parent := parent}

def newDir (name : List UInt8) (parent : ℕ) : VfsNode :=
  {empty with name := name.take nameLen, nodeType := .directory, parent := parent}

end VfsNode

structure Vfs where
  nodes : List VfsNode
  nextInode : ℕ

def slash : UInt8 := 0x2F
def dot : List UInt8 := [0x2E]
def dotdot : List UInt8 := [0x2E,0x2E]

namespace Vfs

def new : Vfs := ⟨[{VfsNode.newDir [slash] 0 with inode := 1}],2⟩

def node (fs : Vfs) (i : ℕ) : VfsNode := fs.nodes.getD i .empty

def setNode (fs : Vfs) (i : ℕ) (n : VfsNode) : Vfs := {fs with nodes := fs.nodes.set i n}

/-! ## Nodes -/

def allocNode : Action Vfs ℕ := do
  let fs ← get
  set (⟨fs.nodes++[{VfsNode.empty with inode := fs.nextInode}],(fs.nextInode+1)%2^64⟩ : Vfs)
  return fs.nodes.length

/-- create_file and create_dir of the node table. -/
def createNode (make : List UInt8 → ℕ → VfsNode) (parentIdx : ℕ) (name : List UInt8) :
    Action Vfs ℕ := do
  let childIdx ← allocNode
  modify fun fs => fs.setNode childIdx (make name parentIdx)
  modify fun fs => fs.setNode parentIdx
    {fs.node parentIdx with children := (fs.node parentIdx).children++[childIdx]}
  return childIdx

def lookupChild (fs : Vfs) (parentIdx : ℕ) (name : List UInt8) : Option ℕ :=
  (fs.node parentIdx).children.find? fun c => c < fs.nodes.length ∧ (fs.node c).name = name

def deleteNode (idx : ℕ) : Action Vfs Unit := do
  let fs ← get
  if idx = 0 then throw (.err "cannot delete root")
  else if fs.nodes.length ≤ idx then throw (.err "invalid node")
  else if (fs.node idx).nodeType = .directory ∧ (fs.node idx).children ≠ [] then
    throw (.err "directory not empty")
  else do
    if (fs.node idx).parent < fs.nodes.length then
      set (fs.setNode (fs.node idx).parent
        {fs.node (fs.node idx).parent with
          children := (fs.node (fs.node idx).parent).children.filter (· ≠ idx)})
    else pure ()
    modify fun fs => fs.setNode idx .empty

/-! ## Paths -/

/-- trim_start_matches. -/
def trim (path : List UInt8) : List UInt8 := path.dropWhile (· = slash)

/-- One component of a path. -/
def descend (fs : Vfs) (current : ℕ) (component : List UInt8) : Option ℕ :=
  if component = [] ∨ component = dot then some current
  else if component = dotdot then
    let parent := (fs.node current).parent
    some (if parent ≠ 0 ∧ parent < fs.nodes.length then parent else current)
  else fs.lookupChild current component

def resolvePath (fs : Vfs) (path : List UInt8) : Option ℕ :=
  if trim path = [] then some 0
  else ((trim path).splitOn slash).foldlM fs.descend 0

/-- The position of the last slash. -/
def rfindSlash (path : List UInt8) : Option ℕ :=
  (path.reverse.idxOf? slash).map fun i => path.length-1-i

def splitPath (path : List UInt8) : Except String (List UInt8 × List UInt8) :=
  if trim path = [] then .error "empty path"
  else
    match rfindSlash (trim path) with
    | some pos =>
      let parent := if pos = 0 then [slash] else (trim path).take pos
      let name := (trim path).drop (pos+1)
      if name = [] then .error "empty name" else .ok (parent,name)
    | none => .ok ([slash],trim path)

/-! ## Operations on paths -/

/-- The parent's index and the name; create_file, create_dir and delete begin so. -/
def locate (path : List UInt8) : Action Vfs (ℕ × List UInt8) := do
  let fs ← get
  match splitPath path with
  | .error msg => throw (.err msg)
  | .ok (parentPath,name) =>
    match fs.resolvePath parentPath with
    | none => throw (.err "parent not found")
    | some parentIdx => return (parentIdx,name)

/-- create_file and create_dir differ in the node that they make. -/
def createAt (make : List UInt8 → ℕ → VfsNode) (path : List UInt8) : Action Vfs ℕ := do
  let (parentIdx,name) ← locate path
  createNode make parentIdx name

def createFile (path : List UInt8) : Action Vfs ℕ := createAt .newFile path

def createDir (path : List UInt8) : Action Vfs ℕ := createAt .newDir path

/-- The node that delete is about. -/
def target (path : List UInt8) : Action Vfs ℕ := do
  let (parentIdx,name) ← locate path
  let fs ← get
  match fs.lookupChild parentIdx name with
  | none => throw (.err "not found")
  | some childIdx => return childIdx

def delete (path : List UInt8) : Action Vfs Unit := do
  let childIdx ← target path
  deleteNode childIdx

/-- An end beyond the address space makes the slice panic. -/
def writeFileByNode (nodeIdx offset : ℕ) (data : List UInt8) : Action Vfs ℕ := do
  let fs ← get
  if fs.nodes.length ≤ nodeIdx then throw (.err "invalid node")
  else if (fs.node nodeIdx).nodeType ≠ .file then throw (.err "not a file")
  else if 2^64 ≤ offset+data.length then throw .panic
  else do
    let old := (fs.node nodeIdx).data
    let resized := old++List.replicate (offset+data.length-old.length) 0
    let new := resized.take offset++data++resized.drop (offset+data.length)
    set (fs.setNode nodeIdx {fs.node nodeIdx with data := new, size := new.length})
    return data.length

def writeFile (path : List UInt8) (offset : ℕ) (data : List UInt8) : Action Vfs ℕ := do
  let fs ← get
  match fs.resolvePath path with
  | none => throw (.err "file not found")
  | some idx => writeFileByNode idx offset data

/-- The name as text, or a question mark. -/
def text (name : List UInt8) : List UInt8 :=
  if (ByteArray.mk name.toArray).validateUTF8 then name else [0x3F]

def readdir (fs : Vfs) (path : List UInt8) : List (List UInt8 × ℕ × VfsNodeType) :=
  match fs.resolvePath path with
  | none => []
  | some idx =>
    if (fs.node idx).nodeType = .directory then
      ((fs.node idx).children.filter fun c => c < fs.nodes.length ∧ (fs.node c).name ≠ []).map
        fun c => (text (fs.node c).name,(fs.node c).inode,(fs.node c).nodeType)
    else []

end Vfs

section
variable {fs : Vfs}

theorem node_set_self {i : ℕ} (n : VfsNode) (h : i < fs.nodes.length) :
    (fs.setNode i n).node i = n := by
  unfold Vfs.node Vfs.setNode
  rw [List.getD_eq_getElem?_getD, List.getElem?_set_self h]
  rfl

theorem node_set_other {i j : ℕ} (n : VfsNode) (h : j ≠ i) :
    (fs.setNode i n).node j = fs.node j := by
  unfold Vfs.node Vfs.setNode
  rw [List.getD_eq_getElem?_getD, List.getElem?_set_ne h.symm, ← List.getD_eq_getElem?_getD]

theorem length_setNode (i : ℕ) (n : VfsNode) :
    (fs.setNode i n).nodes.length = fs.nodes.length := List.length_set

end

end Zohara.Vfs
