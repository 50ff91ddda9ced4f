import Dynarec.Text.Hex
import Dynarec.Text.Printable

/-!
# Quoted text

Text between quotation marks.  Quotation marks and backslashes are escaped,
printable characters are kept, and all others are written by name or by number.
-/

namespace Dynarec
namespace Quoted

/-- The letters of the control characters that are escaped by name. -/
def named : List (Char × Char) :=
  [('\x07', 'a'), ('\x08', 'b'), ('\x0c', 'f'), ('\n', 'n'), ('\r', 'r'), ('\t', 't'),
   ('\x0b', 'v')]

/-- A number with its mark and at least as many digits as the width says. -/
def numbered (mark : Char) (width code : Nat) : List Char :=
  '\\' :: mark :: (Hex.padLeft '0' width (Hex.digits code)).toList

def character (c : Char) : List Char :=
  if c = '"' ∨ c = '\\' then ['\\', c]
  else if isPrintable c then [c]
  else
    match named.lookup c with
    | some letter => ['\\', letter]
    | none =>
        if c.toNat < 0x20 ∨ c.toNat = 0x7f then numbered 'x' 2 c.toNat
        else if c.toNat < 0x10000 then numbered 'u' 4 c.toNat
        else numbered 'U' 8 c.toNat

end Quoted

def quoted (text : String) : String :=
  String.ofList ('"' :: text.toList.flatMap Quoted.character ++ ['"'])

end Dynarec
