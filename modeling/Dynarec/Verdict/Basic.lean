import Dynarec.Guest.Memory
import Dynarec.Text.Utf8

/-!
# Verdicts

A verdict says how the compilation of a function ended.  Its record also holds
the instruction that made the compilation fail, and is written as a header of
nine bytes with the message behind it.
-/

namespace Dynarec

/-- What became of a function. -/
structure Verdict where
  code : UInt8
deriving DecidableEq, Repr

namespace Verdict

/-- The function was compiled. -/
def compiled : Verdict := ⟨1⟩

/-- The function holds guest code that cannot be compiled. -/
def unsupported : Verdict := ⟨2⟩

/-- The name of a verdict. -/
def text (verdict : Verdict) : String :=
  if verdict = compiled then "compiled"
  else if verdict = unsupported then "unsupported"
  else s!"verdict({verdict.code.toNat})"

end Verdict

/-- A verdict and the report that led to it. -/
structure VerdictRecord where
  verdict : Verdict
  address : Address := 0
  opcode : Word := 0
  message : List UInt8 := []
deriving DecidableEq, Repr

namespace VerdictRecord

/-- Why bytes are no record. -/
inductive Error where
  | short (size : Nat)
deriving DecidableEq, Repr

/-- The text of an error. -/
def Error.message : Error → String
  | .short size => s!"short cache entry of {size} bytes"

/-- The fault of an error. -/
def Error.fault (error : Error) : Fault :=
  .plain error.message

/-- The bytes of a record. -/
def encode (record : VerdictRecord) : List UInt8 :=
  record.verdict.code :: Image.wordBytes record.address ++ Image.wordBytes record.opcode ++
    record.message

/-- The word of four bytes, the highest first. -/
def wordOf (a b c d : UInt8) : Word :=
  (a.toUInt32 <<< 24) ||| (b.toUInt32 <<< 16) ||| (c.toUInt32 <<< 8) ||| d.toUInt32

/-- The record of bytes. -/
def decode : List UInt8 → Except Error VerdictRecord
  | code :: a :: b :: c :: d :: e :: f :: g :: h :: message =>
      .ok { verdict := ⟨code⟩, address := wordOf a b c d, opcode := wordOf e f g h, message }
  | bytes => .error (.short bytes.length)

end VerdictRecord
end Dynarec
