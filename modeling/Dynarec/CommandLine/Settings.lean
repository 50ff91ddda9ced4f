import Dynarec.CommandLine.ConfigFile
import Dynarec.CommandLine.Flags
import Dynarec.Text.Blank

/-!
# Settings

Flags that were given go before the configuration file, which goes before the
defaults.
-/

namespace Dynarec
namespace CommandLine

/-- All that a command is given. -/
structure Settings where
  image : String
  base : String
  entries : List String
  /-- The directory for listings, empty for none. -/
  dumpDirectory : String
  verdictPath : String
  workers : Int
  /-- The number of host registers; if it is not positive, the default of the host. -/
  registers : Int
  inlines : Option Bool
deriving DecidableEq, Repr

namespace Settings

def defaultBase : String := "0x82000000"

def splitEntries (text : String) : List String :=
  ((text.splitOn ",").map trimmed).filter (· ≠ "")

/-- The text of a flag if it was given or the file is silent, else that of the file. -/
def chooseText (flags : Flags) (name default file : String) : String :=
  if (flags.value? name).isSome || file = "" then flags.text name default else file

def chooseNumber (flags : Flags) (name : String) (default file : Int) : Int :=
  if (flags.value? name).isSome || file = 0 then flags.number name default else file

/-- Flags come before the file. -/
def ofSources (flags : Flags) (file : ConfigFile) : Settings :=
  { image := chooseText flags "image" "" file.image
    base := chooseText flags "base" defaultBase file.base
    entries :=
      if (flags.value? "entry").isSome || file.entries.isEmpty then
        splitEntries (flags.text "entry" "")
      else file.entries
    dumpDirectory := chooseText flags "dump-dir" "" file.dumpDirectory
    verdictPath := chooseText flags "cache-path" "" file.verdictPath
    workers := chooseNumber flags "workers" 4 file.workers
    registers := chooseNumber flags "registers" 0 file.registers
    inlines := file.inlines }

/-- What a command cannot do without. -/
def missing? (settings : Settings) : Option String :=
  if settings.image = "" then
    some "an image is required (-image or \"image\" in the config file)"
  else if settings.entries.isEmpty then
    some "at least one entry address is required (-entry or \"entries\" in the config file)"
  else none

end Settings
end CommandLine
end Dynarec
