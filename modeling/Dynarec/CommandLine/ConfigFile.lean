import Dynarec.Text.Json

/-!
# Configuration files

A configuration file is a JSON object.  Names of members are compared without
regard to case, unknown members are passed over, and `null` leaves a setting as
it is.
-/

namespace Dynarec
namespace CommandLine

/-- The settings of a file; an empty text is none. -/
structure ConfigFile where
  image : String := ""
  base : String := ""
  entryTexts : List String := []
  /-- How many of these texts the last list has. -/
  entryCount : Nat := 0
  dumpDirectory : String := ""
  verdictPath : String := ""
  workers : Int := 0
  /-- The number of host registers, zero for the default of the host. -/
  registers : Int := 0
  inlines : Option Bool := none
deriving DecidableEq, Repr

namespace ConfigFile

def entries (config : ConfigFile) : List String :=
  config.entryTexts.take config.entryCount

/-- A character without regard to case.  The long s and the Kelvin sign count as their letters. -/
def foldCase (character : Char) : Char :=
  if character.toNat = 0x17F then 's'
  else if character.toNat = 0x212A then 'k'
  else character.toLower

def foldName (name : String) : String :=
  name.map foldCase

/-- The text of a value; `null` leaves the old text. -/
def text? (old : String) : JsonValue → Option String
  | .null => some old
  | .string text => some text
  | _ => none

def magnitude (digits : List Char) : Nat :=
  digits.foldl (fun sum digit => 10 * sum + (digit.toNat - '0'.toNat)) 0

/-- The integer of decimal digits with a sign, if it fits into 64 bits. -/
def integer? (text : String) : Option Int := do
  let (negative, digits) :=
    match text.toList with
    | '-' :: digits => (true, digits)
    | digits => (false, digits)
  if digits.all Char.isDigit then
    let value : Int := if negative then -(magnitude digits : Int) else magnitude digits
    if -0x8000000000000000 ≤ value ∧ value < 0x8000000000000000 then some value else none
  else none

def number? (old : Int) : JsonValue → Option Int
  | .null => some old
  | .number text => integer? text
  | _ => none

/-- The texts of all places after a list of values.  `null` leaves the old text of its place,
and so does a place behind the end of the list. -/
def texts? : List String → List JsonValue → Option (List String)
  | old, [] => some old
  | old, item :: items => do
      let text ← text? (old.head?.getD "") item
      return text :: (← texts? old.tail items)

/-- The configuration with the entry addresses of a list; an empty list and `null` forget the
texts of all places. -/
def setEntries (config : ConfigFile) : JsonValue → Option ConfigFile
  | .null | .array [] => some { config with entryTexts := [], entryCount := 0 }
  | .array items => do
      return { config with
        entryTexts := ← texts? config.entryTexts items
        entryCount := items.length }
  | _ => none

def bool? : JsonValue → Option (Option Bool)
  | .null => some none
  | .bool value => some (some value)
  | _ => none

def setMember (config : ConfigFile) (name : String) (value : JsonValue) : Option ConfigFile :=
  match foldName name with
  | "image" => do return { config with image := ← text? config.image value }
  | "base" => do return { config with base := ← text? config.base value }
  | "entries" => config.setEntries value
  | "dump_dir" => do return { config with dumpDirectory := ← text? config.dumpDirectory value }
  | "cache_path" => do return { config with verdictPath := ← text? config.verdictPath value }
  | "workers" => do return { config with workers := ← number? config.workers value }
  | "registers" => do return { config with registers := ← number? config.registers value }
  | "inline_functions" => do return { config with inlines := ← bool? value }
  | _ => some config

def ofJson? : JsonValue → Option ConfigFile
  | .null => some {}
  | .object members => members.foldlM (fun config (name, value) => config.setMember name value) {}
  | _ => none

/-- The settings of the bytes of a file. -/
def parse? (bytes : List UInt8) : Option ConfigFile := do
  ofJson? (← JsonValue.parse? (Utf8.decode bytes))

end ConfigFile
end CommandLine
end Dynarec
