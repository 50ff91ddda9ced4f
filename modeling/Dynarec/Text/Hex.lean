/-!
# Hexadecimal text

Numbers and bytes are written with lower-case hexadecimal digits.  Addresses
have a fixed width of eight digits, byte strings two digits for each byte.
-/

namespace Dynarec
namespace Hex

/-- The lower-case hexadecimal digits of a number, without leading zeros. -/
def digits (value : Nat) : String :=
  String.ofList (Nat.toDigits 16 value)

/-- A text extended on the left by a filler up to a least width. -/
def padLeft (filler : Char) (width : Nat) (text : String) : String :=
  String.ofList (List.replicate (width - text.length) filler) ++ text

/-- A word with its `0x` mark and all eight digits. -/
def word (value : UInt32) : String :=
  "0x" ++ padLeft '0' 8 (digits value.toNat)

/-- A word with its `0x` mark and no leading zeros. -/
def short (value : UInt32) : String :=
  "0x" ++ digits value.toNat

def digit (value : Nat) : Char :=
  Nat.digitChar (value % 16)

def byte (value : UInt8) : List Char :=
  [digit (value.toNat / 16), digit value.toNat]

def bytes (data : List UInt8) : String :=
  String.ofList (data.flatMap byte)

def digitValue? (c : Char) : Option Nat :=
  if '0' ≤ c ∧ c ≤ '9' then some (c.toNat - '0'.toNat)
  else if 'a' ≤ c ∧ c ≤ 'f' then some (c.toNat - 'a'.toNat + 10)
  else if 'A' ≤ c ∧ c ≤ 'F' then some (c.toNat - 'A'.toNat + 10)
  else none

/-- The bytes written by a list of digit pairs; none at an odd length or a bad digit. -/
def parseBytes? : List Char → Option (List UInt8)
  | [] => some []
  | [_] => none
  | high :: low :: rest => do
      let h ← digitValue? high
      let l ← digitValue? low
      let tail ← parseBytes? rest
      return UInt8.ofNat (16 * h + l) :: tail

end Hex
end Dynarec
