import Dynarec.Instruction.Basic

/-!
# Fields of guest instruction words

A guest word holds its primary opcode in the six highest bits.  Register
fields have five bits; immediates and displacements take up the low half.
-/

namespace Dynarec
namespace Word

/-- The bits of a word from `shift` on, as many as the mask keeps. -/
def field (word : Word) (shift : UInt32) (mask : UInt32) : Nat :=
  ((word >>> shift) &&& mask).toNat

/-- The primary opcode. -/
def primary (word : Word) : Nat := (word >>> 26).toNat

/-- The extended opcode. -/
def extended (word : Word) : Nat := word.field 1 0x3FF

/-- The first register field. -/
def d (word : Word) : Nat := word.field 21 31

/-- The second register field. -/
def a (word : Word) : Nat := word.field 16 31

/-- The third register field. -/
def b (word : Word) : Nat := word.field 11 31

/-- The first bit of a mask. -/
def maskBegin (word : Word) : Nat := word.field 6 31

/-- The last bit of a mask. -/
def maskEnd (word : Word) : Nat := word.field 1 31

/-- The destination field of the condition register. -/
def conditionTarget (word : Word) : UInt8 := ((word >>> 23) &&& 7).toUInt8

/-- The condition register field that is read. -/
def conditionSource (word : Word) : UInt8 := ((word >>> 18) &&& 7).toUInt8

/-- The condition register fields that are moved. -/
def conditionMask (word : Word) : Int32 := ((word >>> 12) &&& 0xFF).toInt32

/-- The number of a special purpose register, whose two halves are stored swapped. -/
def special (word : Word) : Nat := word.field 16 31 + 32 * word.field 11 31

/-- The low half as a signed number. -/
def signedImmediate (word : Word) : Int32 := word.toUInt16.toInt16.toInt32

/-- The immediate operand without a sign. -/
def unsignedImmediate (word : Word) : Int32 := (word &&& 0xFFFF).toInt32

/-- The lower half. -/
def lowHalf (word : Word) : UInt32 := word &&& 0xFFFF

/-- Whether the result sets a condition register field. -/
def records (word : Word) : Bool := word &&& 1 != 0

/-- Whether a branch sets the link register. -/
def links (word : Word) : Bool := word &&& 1 != 0

/-- Whether a target is not relative. -/
def absolute (word : Word) : Bool := word &&& 2 != 0

/-- Whether the word is a branch that is not a call. -/
def isPlainBranch (word : Word) : Bool := word.primary = 18 && !word.links

/-- The target of a branch. -/
def branchTarget (word : Word) (address : Address) : Address :=
  let low := word &&& 0x03FFFFFC
  let offset := if low &&& 0x02000000 != 0 then low ||| 0xFC000000 else low
  if word.absolute then offset else address + offset

/-- The target of a conditional branch. -/
def conditionalTarget (word : Word) (address : Address) : Address :=
  let offset := (word &&& 0xFFFC).toUInt16.toInt16.toInt32.toUInt32
  if word.absolute then offset else address + offset

/-- Whether a branch tests no condition. -/
def ignoresCondition (word : Word) : Bool := word.d.testBit 4

/-- Whether the condition has to hold. -/
def branchesIfSet (word : Word) : Bool := word.d.testBit 3

/-- Whether a branch leaves the count register alone. -/
def ignoresCount (word : Word) : Bool := word.d.testBit 2

/-- Whether the count has to be zero. -/
def branchesIfZero (word : Word) : Bool := word.d.testBit 1

/-- Whether a branch tests nothing. -/
def branchesAlways (word : Word) : Bool := word.ignoresCondition && word.ignoresCount

/-- The condition of a branch. -/
def branchTest (word : Word) : BitTest :=
  { field := UInt8.ofNat (word.a / 4), bit := UInt8.ofNat (word.a % 4),
    isSet := word.branchesIfSet }

end Word

/-- Shift, mask begin and mask end of a rotation in one immediate. -/
def packRotation (shift first last : Nat) : Int32 :=
  Int32.ofNat (shift % 32 + first % 32 * 256 + last % 32 * 65536)

end Dynarec
