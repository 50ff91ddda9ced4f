import Dynarec.Files.Basic

/-!
# Trees of files

Files and directories held in memory, and the places in them.
-/

namespace Dynarec

/-- A place in a tree: the names of the directories on the way, and its own. -/
abbrev Place := List String

/-- A file, or a directory with what it holds. -/
inductive FileTree where
  | file (bytes : List UInt8)
  | directory (entries : List (String × FileTree))

namespace FileTree

def node : FileTree → FileNode
  | file bytes => .file bytes
  | directory _ => .directory

/-- The tree below a name; a file has none. -/
def child? (name : String) : FileTree → Option FileTree
  | file _ => none
  | directory entries => entries.lookup name

def at? : Place → FileTree → Option FileTree
  | [], tree => some tree
  | name :: rest, tree => (tree.child? name).bind (at? rest)

/-- The tree with another one below a name, or with none. -/
def setChild (name : String) (child : Option FileTree) : FileTree → FileTree
  | file bytes => file bytes
  | directory entries =>
      directory (child.toList.map (name, ·) ++ entries.filter (·.1 ≠ name))

/-- The tree with another one at a place, or with none; directories that are missing on the
way are made. -/
def set : Place → Option FileTree → FileTree → FileTree
  | [], child, tree => child.getD tree
  | [name], child, tree => tree.setChild name child
  | name :: rest, child, tree =>
      tree.setChild name (some (set rest child ((tree.child? name).getD (directory []))))

mutual

def files : FileTree → List (Place × List UInt8)
  | file bytes => [([], bytes)]
  | directory entries => filesOf entries

def filesOf : List (String × FileTree) → List (Place × List UInt8)
  | [] => []
  | (name, tree) :: rest =>
      (files tree).map (fun (place, bytes) => (name :: place, bytes)) ++ filesOf rest

end

end FileTree
end Dynarec
