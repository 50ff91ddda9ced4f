/-!
# Text from bytes

Bytes are read as UTF-8.  A byte that starts no well-formed sequence stands for
the replacement character, and reading goes on with the next byte.
-/

namespace Dynarec
namespace Utf8

def replacement : Char := Char.ofNat 0xFFFD

/-- The six payload bits of a continuation byte within bounds. -/
def continuation? (low high byte : UInt8) : Option Nat :=
  if low ≤ byte && byte ≤ high then some (byte.toNat % 64) else none

/-- The least and the greatest second byte behind a leading byte. -/
def secondBounds (lead : UInt8) : UInt8 × UInt8 :=
  if lead = 0xE0 then (0xA0, 0xBF)
  else if lead = 0xED then (0x80, 0x9F)
  else if lead = 0xF0 then (0x90, 0xBF)
  else if lead = 0xF4 then (0x80, 0x8F)
  else (0x80, 0xBF)

/-- The character that starts with a leading byte, and how many of the bytes behind it belong
to it. -/
def character? (lead : UInt8) (rest : List UInt8) : Option (Char × Nat) := do
  let value := lead.toNat
  let (low, high) := secondBounds lead
  let second ← rest[0]? |> (·.map (continuation? low high))
  let later (index : Nat) : Option Nat := rest[index]? |> (·.bind (continuation? 0x80 0xBF))
  if 0xC2 ≤ value && value ≤ 0xDF then
    return (Char.ofNat ((value % 32) * 64 + (← second)), 1)
  else if 0xE0 ≤ value && value ≤ 0xEF then
    return (Char.ofNat (((value % 16) * 64 + (← second)) * 64 + (← later 1)), 2)
  else if 0xF0 ≤ value && value ≤ 0xF4 then
    return (Char.ofNat ((((value % 8) * 64 + (← second)) * 64 + (← later 1)) * 64 + (← later 2)), 3)
  else none

/-- The characters of bytes. -/
def decode : List UInt8 → List Char
  | [] => []
  | lead :: rest =>
      if lead < 0x80 then Char.ofNat lead.toNat :: decode rest
      else
        match character? lead rest with
        | some (character, count) => character :: decode (rest.drop count)
        | none => replacement :: decode rest
termination_by bytes => bytes.length

def text (bytes : List UInt8) : String :=
  String.ofList (decode bytes)

def bytes (text : String) : List UInt8 :=
  text.toUTF8.toList

end Utf8
end Dynarec
