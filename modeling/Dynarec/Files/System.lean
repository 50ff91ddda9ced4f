import Dynarec.Files.Path
import Dynarec.Files.Tree

/-!
# A file system in memory

Paths are resolved part by part, from the root or from the working directory:
every part but the last has to be a directory, a dot stays where it is, and two
dots go up.
-/

namespace Dynarec

/-- A tree of files, and a place in it. -/
structure FileSystem where
  here : Place := []
  root : FileTree := .directory []

/-- The way to a place, the last step first: the names, and what stands there. -/
abbrev Trail := List (String × Option FileTree)

namespace Trail

def place (trail : Trail) : Place :=
  (trail.map (·.1)).reverse

/-- What stands at the end of a trail from the root. -/
def target? (trail : Trail) (root : FileTree) : Option FileTree :=
  match trail with
  | [] => some root
  | (_, target) :: _ => target

end Trail

namespace FileSystem

def empty (here : Place) : FileSystem :=
  { here, root := (FileTree.directory []).set here (some (.directory [])) }

def put (system : FileSystem) (place : Place) (tree : FileTree) : FileSystem :=
  { system with root := system.root.set place (some tree) }

def remove (system : FileSystem) (place : Place) : FileSystem :=
  { system with root := system.root.set place none }

def filesBelow (system : FileSystem) : List (Place × List UInt8) :=
  (system.root.at? system.here).elim [] FileTree.files

/-- The trail that goes on from another one by the parts of a path. -/
def walk (system : FileSystem) : Trail → List String → Except FileCause Trail
  | trail, [] => .ok trail
  | trail, part :: rest =>
      match trail.target? system.root with
      | none => .error .missing
      | some (.file _) => .error .notDirectory
      | some (.directory entries) =>
          if part = "" ∨ part = "." then system.walk trail rest
          else if part = ".." then system.walk trail.tail rest
          else if Path.maxPartBytes < part.utf8ByteSize then .error .nameTooLong
          else system.walk ((part, entries.lookup part) :: trail) rest

/-- The trail of some parts of a path; there need not be anything at its end. -/
def resolve (system : FileSystem) (path : String) (parts : List String) :
    Except FileCause Trail :=
  if path = "" then .error .missing
  else if path.toList.contains (Char.ofNat 0) then .error .invalid
  else if Path.maxBytes < path.utf8ByteSize then .error .nameTooLong
  else if Path.isAbsolute path then system.walk [] parts
  else do system.walk (← system.walk [] system.here) parts

def trailOf (system : FileSystem) (path : String) : Except FileCause Trail :=
  system.resolve path (Path.parts path)

/-- What is at a path. -/
def find (system : FileSystem) (path : String) : Except FileCause FileNode := do
  let trail ← system.trailOf path
  match trail.target? system.root with
  | some tree => .ok tree.node
  | none => .error .missing

def openNode (system : FileSystem) (path : String) : Except FileFailure FileNode :=
  (system.find path).mapError fun cause => ⟨"open", path, cause⟩

def isDirectory (system : FileSystem) (path : String) : Bool :=
  match system.find path with
  | .ok .directory => true
  | _ => false

def makeDirectory (system : FileSystem) (path : String) : Except FileCause FileSystem := do
  let trail ← system.resolve path (Path.trimmedParts path)
  match trail.target? system.root with
  | some _ => .error .exists
  | none => .ok (system.put trail.place (.directory []))

/-- A directory made at a path, with all directories on the way, of which there are at most as
many as the budget says.  Directories made before a failure stay. -/
def makeDirectories (system : FileSystem) :
    Nat → String → FileSystem × Except FileFailure Unit
  | 0, _ => (system, .ok ())
  | budget + 1, path =>
      match system.find path with
      | .ok .directory => (system, .ok ())
      | .ok (.file _) => (system, .error ⟨"mkdir", path, .notDirectory⟩)
      | .error _ =>
          let above := match Path.parent? path with
            | some parent => system.makeDirectories budget parent
            | none => (system, .ok ())
          match above with
          | (system, .error failure) => (system, .error failure)
          | (system, .ok ()) =>
              match system.makeDirectory path with
              | .ok system => (system, .ok ())
              | .error cause =>
                  (system,
                    if system.isDirectory path then .ok () else .error ⟨"mkdir", path, cause⟩)

/-- Writes a file. -/
def write (system : FileSystem) (path : String) (bytes : List UInt8) :
    FileSystem × Except FileFailure Unit :=
  match system.trailOf path with
  | .error cause => (system, .error ⟨"open", path, cause⟩)
  | .ok trail =>
      match trail.target? system.root with
      | some (.directory _) => (system, .error ⟨"open", path, .isDirectory⟩)
      | _ => (system.put trail.place (.file bytes), .ok ())

end FileSystem
end Dynarec
