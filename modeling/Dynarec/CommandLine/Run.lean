import Dynarec.CommandLine.Settings
import Dynarec.Files.Basic
import Dynarec.Files.Path
import Dynarec.Graph.Listing
import Dynarec.Guest.AddressText
import Dynarec.JumpTable.Queue

/-!
# A run of the program

The functions at the given entry addresses of an image are compiled, and the
listing of each is written to a directory.
-/

namespace Dynarec
namespace CommandLine

variable {m : Type → Type} [Monad m]

abbrev Step (m : Type → Type) := ExceptT Fault m

/-- An action as a step, with its failure changed to a fault. -/
def attempt {ε α : Type} (fault : ε → Fault) (action : m (Except ε α)) : Step m α :=
  ExceptT.mk do return (← action).mapError fault

/-- The configuration file at a path; an empty path stands for an empty file. -/
def readConfig (files : FileAccess m) (path : String) : Step m ConfigFile := do
  if path = "" then return {}
  let bytes ← attempt (fun failure => .noted s!"read config file {path}" failure.fault)
    (files.read path)
  match ConfigFile.parse? bytes with
  | some config => return config
  | none => throw (.noted s!"parse config file {path}" (.plain "invalid configuration"))

/-- The settings that arguments and files give. -/
def readSettings (files : FileAccess m) (arguments : List String) : Step m Settings := do
  match Flags.parse arguments with
  | .error error => throw (.plain error.message)
  | .ok flags =>
      let settings := Settings.ofSources flags (← readConfig files (flags.text "config-path" ""))
      match settings.missing? with
      | some text => throw (.plain text)
      | none => return settings

def Settings.compilerConfig (settings : Settings) : Compiler.Config :=
  let config : Compiler.Config := {}
  let allocation :=
    if 0 < settings.registers then { config.allocation with registers := settings.registers }
    else config.allocation
  { config with workers := settings.workers, allocation, inlines := settings.inlines.getD true }

def readAddress (note text : String) : Step m Address :=
  attempt (fun error => .noted note error.fault) (pure (Guest.parseAddress text))

def verdictFault (path : String) (failure : FileFailure) : Fault :=
  .noted "open verdict cache" (.within s!"error opening database at {quoted path}" failure.fault)

/-- The verdicts stored in a directory, which is made if it is missing; an empty path stands
for none being kept. -/
def loadVerdicts (files : FileAccess m) (path : String) : Step m (Option VerdictStore) := do
  if path = "" then return none
  attempt (verdictFault path) (files.makeDirectories path)
  return some (← attempt (verdictFault path) (files.loadVerdicts path))

def saveVerdicts (files : FileAccess m) (path : String) : Option VerdictStore → Step m Unit
  | none => pure ()
  | some store => attempt (verdictFault path) (files.saveVerdicts path store)

/-- The entry addresses visited, and those of them that were new. -/
def visitAll (table : JumpTable) (addresses : List Address) : JumpTable × List Address :=
  addresses.foldl (fun (table, visited) address =>
    (table.visit address, if table.canVisit address then visited ++ [address] else visited))
    (table, [])

def listingName (function : CompiledFunction) (unique : String) : String :=
  "func_" ++ Hex.padLeft '0' 8 (Hex.digits function.entry.toNat) ++ "_" ++ unique ++ ".iml"

def writeListing (files : FileAccess m) (directory : String) (address : Address)
    (function : CompiledFunction) : Step m Unit := do
  let fault (failure : FileFailure) : Fault :=
    .noted s!"dump function {Hex.word address}" failure.fault
  attempt fault (files.makeDirectories directory)
  let path := Path.join directory (listingName function (← files.freshName))
  attempt fault (files.write path function.graph.listingText)

def writeListings (files : FileAccess m) (directory : String) (table : JumpTable)
    (addresses : List Address) : Step m Unit := do
  if directory = "" then return
  for address in addresses do
    match table.lookup address with
    | some function => writeListing files directory address function
    | none => pure ()

/-- The steps of a command. -/
def runSteps (files : FileAccess m) (mode : ExecutionMode) (arguments : List String) :
    Step m Unit := do
  let settings ← readSettings files arguments
  let base ← readAddress "bad base address" settings.base
  let image ← attempt (.noted "map image") (files.mapImage settings.image base)
  let store ← loadVerdicts files settings.verdictPath
  let table := JumpTable.ofRegion ⟨base, UInt32.ofNat image.data.size⟩ mode
  if !table.enabled then return
  let addresses ← settings.entries.mapM (readAddress "bad entry address")
  let (table, visited) := visitAll table addresses
  let recompiler : Recompiler := { table, config := settings.compilerConfig, store }
  let recompiler := recompiler.process image.memory none
  saveVerdicts files settings.verdictPath recompiler.store
  writeListings files settings.dumpDirectory recompiler.table visited

/-- Runs a command. -/
def run (files : FileAccess m) (mode : ExecutionMode) (arguments : List String) :
    m (Except Fault Unit) :=
  (runSteps files mode arguments).run

end CommandLine
end Dynarec
