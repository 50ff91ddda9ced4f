import Dynarec.Fault
import Dynarec.Instruction.Basic
import Dynarec.Text.Blank
import Dynarec.Text.Numeral
import Dynarec.Text.Quoted

/-!
# Guest addresses as text

An address is a numeral of at most 32 bits with white space around it.
-/

namespace Dynarec
namespace Guest

/-- A text that is not an address, and why. -/
structure AddressError where
  text : String
  cause : Numeral.Error
deriving DecidableEq, Repr

/-- Why a text is no number. -/
def describe : Numeral.Error → String
  | .malformed => "invalid syntax"
  | .outOfRange => "value out of range"

/-- The text of an error. -/
def AddressError.message (error : AddressError) : String :=
  let numeral := quoted (trimmed error.text)
  s!"invalid guest address {quoted error.text}: " ++
    s!"strconv.ParseUint: parsing {numeral}: {describe error.cause}"

/-- The fault of an error. -/
def AddressError.fault (error : AddressError) : Fault :=
  .plain error.message

/-- The address that a text stands for. -/
def parseAddress (text : String) : Except AddressError Address :=
  match Numeral.parseNat UInt32.size (trimBlanks text.toList) with
  | .ok value => .ok (UInt32.ofNat value)
  | .error cause => .error ⟨text, cause⟩

end Guest
end Dynarec
