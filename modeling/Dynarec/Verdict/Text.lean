import Dynarec.Verdict.Store

/-!
# Stored verdicts as text

One line for each verdict: the hexadecimal digits of its key, a colon, and those
of its record.
-/

namespace Dynarec
namespace VerdictStore

/-- The store as a text, one line for each key. -/
def toText (store : VerdictStore) : String :=
  String.join (store.items.map fun (key, bytes) => Hex.bytes key ++ ":" ++ Hex.bytes bytes ++ "\n")

/-- The key and the bytes of a line. -/
def ofLine? (line : String) : Option (VerdictKey × List UInt8) :=
  match line.splitOn ":" with
  | [key, bytes] => do
      return (← Hex.parseBytes? key.toList, ← Hex.parseBytes? bytes.toList)
  | _ => none

/-- The store of a text; lines that hold no verdict are passed over. -/
def ofText (text : String) : VerdictStore :=
  { items := (text.splitOn "\n").filterMap ofLine? }

end VerdictStore
end Dynarec
