import Dynarec.Verdict.Store

/-!
# Files

What the program asks of a file system, as operations over any monad, and how
their failures are worded.
-/

namespace Dynarec

/-- Why an operation on files fails. -/
inductive FileCause where
  | missing
  | notDirectory
  | isDirectory
  | exists
  /-- The path holds a character that no path can hold. -/
  | invalid
  | nameTooLong
  | noDevice
  | other (text : String)
deriving DecidableEq, Repr

def FileCause.text : FileCause → String
  | .missing => "no such file or directory"
  | .notDirectory => "not a directory"
  | .isDirectory => "is a directory"
  | .exists => "file exists"
  | .invalid => "invalid argument"
  | .nameTooLong => "file name too long"
  | .noDevice => "no such device"
  | .other text => text

/-- A failed operation and its path. -/
structure FileFailure where
  operation : String
  path : String
  cause : FileCause
deriving DecidableEq, Repr

def FileFailure.fault (failure : FileFailure) : Fault :=
  .onFile failure.operation failure.path (.plain failure.cause.text)

/-- What is found at a path. -/
inductive FileNode where
  | file (bytes : List UInt8)
  | directory
deriving DecidableEq, Repr

/-- The operations on files that commands need. -/
structure FileAccess (m : Type → Type) where
  openNode : String → m (Except FileFailure FileNode)
  makeDirectories : String → m (Except FileFailure Unit)
  write : String → String → m (Except FileFailure Unit)
  freshName : m String
  /-- Reads the verdicts stored in the directory at a path; there are none in a new one. -/
  loadVerdicts : String → m (Except FileFailure VerdictStore)
  saveVerdicts : String → VerdictStore → m (Except FileFailure Unit)

namespace FileAccess

def read {m : Type → Type} [Monad m] (files : FileAccess m) (path : String) :
    m (Except FileFailure (List UInt8)) := do
  match ← files.openNode path with
  | .error failure => return .error failure
  | .ok (.file bytes) => return .ok bytes
  | .ok .directory => return .error ⟨"read", path, .isDirectory⟩

def directoryBytes : Nat := 4096

/-- The file at a path as a guest image at a base address. -/
def mapImage {m : Type → Type} [Monad m] (files : FileAccess m) (path : String)
    (base : Address) : m (Except Fault Image) := do
  match ← files.openNode path with
  | .error failure => return .error (.noted "failed to open guest image" failure.fault)
  | .ok .directory =>
      if directoryBytes > UInt32.size - base.toNat then
        return .error (.plain (Image.FileError.tooLarge directoryBytes base).message)
      else
        return .error (.noted "failed to mmap guest image" (.plain FileCause.noDevice.text))
  | .ok (.file bytes) =>
      return (Image.ofFile path base bytes.toArray).mapError fun error => .plain error.message

end FileAccess
end Dynarec
