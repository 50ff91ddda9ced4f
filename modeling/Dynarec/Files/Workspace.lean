import Dynarec.Files.System

/-!
# A workspace in memory

File operations on a file system that is held in memory.
-/

namespace Dynarec

/-- A file system, the verdicts stored in it, and how many names were given. -/
structure Workspace where
  /-- The files: an empty working directory, and a file that stays empty. -/
  system : FileSystem :=
    (FileSystem.empty ["tmp", "working-directory"]).put ["dev", "null"] (.file [])
  verdicts : List (Place × VerdictStore) := []
  names : Nat := 0

namespace Workspace

def withFile (workspace : Workspace) (name : String) (bytes : List UInt8) : Workspace :=
  { workspace with
    system := workspace.system.put (workspace.system.here ++ [name]) (.file bytes) }

def withoutFile (workspace : Workspace) (place : Place) : Workspace :=
  { workspace with system := workspace.system.remove (workspace.system.here ++ place) }

def update (change : FileSystem → FileSystem × Except FileFailure Unit) :
    StateM Workspace (Except FileFailure Unit) := do
  let workspace ← get
  let (system, outcome) := change workspace.system
  set { workspace with system }
  return outcome

def verdictsAt (workspace : Workspace) (path : String) : VerdictStore :=
  match workspace.system.trailOf path with
  | .ok trail => (workspace.verdicts.lookup trail.place).getD .empty
  | .error _ => .empty

def withVerdicts (workspace : Workspace) (path : String) (store : VerdictStore) : Workspace :=
  match workspace.system.trailOf path with
  | .ok trail =>
      { workspace with
        verdicts :=
          (trail.place, store) :: workspace.verdicts.filter (·.1 ≠ trail.place) }
  | .error _ => workspace

def access : FileAccess (StateM Workspace) where
  openNode path := return (← get).system.openNode path
  makeDirectories path := update fun system => system.makeDirectories (path.length + 1) path
  write path text := update fun system => system.write path (Utf8.bytes text)
  freshName := do
    let workspace ← get
    set { workspace with names := workspace.names + 1 }
    return toString workspace.names
  loadVerdicts path := return .ok ((← get).verdictsAt path)
  saveVerdicts path store := do
    modify fun workspace => workspace.withVerdicts path store
    return .ok ()

end Workspace
end Dynarec
