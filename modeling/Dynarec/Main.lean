import Dynarec.CommandLine.Run
import Dynarec.Verdict.Text

/-!
# The program

File operations on the file system of the host, and the entry point.
-/

namespace Dynarec
namespace Main

def causeOf : IO.Error → FileCause
  | .noFileOrDirectory .. => .missing
  | .inappropriateType .. => .notDirectory
  | .alreadyExists .. => .exists
  | .invalidArgument .. => .invalid
  | error => .other (toString error)

def guarded {α : Type} (operation path : String) (action : IO α) :
    IO (Except FileFailure α) := do
  try return .ok (← action)
  catch error => return .error ⟨operation, path, causeOf error⟩

def randomName : IO String := do
  let digits (count : Nat) : IO String := do
    return Hex.padLeft '0' count (Hex.digits (← IO.rand 0 (Nat.pow 16 count - 1)))
  let groups ← [8, 4, 4, 4, 12].mapM digits
  return "-".intercalate groups

/-- The file that holds the verdicts stored at a path. -/
def verdictFile (path : String) : String :=
  path ++ "/verdicts"

def access : FileAccess IO where
  openNode path := guarded "open" path do
    return .file (← IO.FS.readBinFile path).toList
  makeDirectories path := guarded "mkdir" path (IO.FS.createDirAll path)
  write path text := guarded "open" path (IO.FS.writeFile path text)
  freshName := randomName
  loadVerdicts path := do
    match ← guarded "open" path (IO.FS.readFile (verdictFile path)) with
    | .ok text => return .ok (.ofText text)
    | .error _ => return .ok .empty
  saveVerdicts path store :=
    guarded "open" path (IO.FS.writeFile (verdictFile path) store.toText)

end Main
end Dynarec

def main (arguments : List String) : IO UInt32 := do
  let value := (← IO.getEnv Dynarec.ExecutionMode.settingName).getD ""
  match ← Dynarec.CommandLine.run Dynarec.Main.access (.ofValue value) arguments with
  | .ok _ => return 0
  | .error fault =>
      IO.eprintln fault.message
      return 1
