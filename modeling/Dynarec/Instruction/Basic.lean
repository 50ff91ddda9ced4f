import Dynarec.Slot

/-!
# Instructions of the intermediate language

An instruction is one uniform record: its kind says which of the other fields
matter.  Fields that a kind does not use keep the values of a no-op.  Code
numbers outside the known tables are kept as `unassigned`, so that every
numeric code has exactly one meaning.
-/

namespace Dynarec

/-- A guest address. -/
abbrev Address := UInt32

/-- A guest word. -/
abbrev Word := UInt32

/-- A register number.  Before allocation it counts the virtual registers of one
function, afterwards the registers of the host. -/
abbrev Register := Int

/-- The kinds of instructions. -/
inductive Kind where
  | noOp
  | jumpmark
  | enter
  | loadSlot
  | storeSlot
  | pair
  | immediate
  | pairImmediate
  | triple
  | tripleCarry
  | pairImmediateCarry
  | conditionalImmediate
  | load
  | loadIndexed
  | store
  | storeIndexed
  | copy
  | conditionLogic
  | jump
  | cycleCheck
  | routine
  | unassigned (code : UInt8)
deriving DecidableEq, Repr

/-- The operations of instructions. -/
inductive Op where
  | none
  | assign
  | endianSwap
  | add
  | sub
  | multiplySigned
  | multiplyHighSigned
  | multiplyHighUnsigned
  | divideSigned
  | divideUnsigned
  | and
  | or
  | xor
  | andComplement
  | orComplement
  | nand
  | nor
  | equivalent
  | not
  | negate
  | countLeadingZeros
  | signExtendByte
  | signExtendHalf
  | shiftLeft
  | shiftRightUnsigned
  | rotateLeft
  /-- Rotate by an immediate and mask; the immediate packs shift, mask begin and mask end. -/
  | rotateMask
  | rotateInsert
  /-- Rotate by a register and mask; the immediate packs mask begin and mask end. -/
  | rotateMaskRegister
  | compareSigned
  | compareUnsigned
  | readConditions
  | writeConditions
  | addCarry
  | addCarryIn
  /-- The second operand less the first. -/
  | subCarry
  /-- The complement of the first operand, the second operand and the carry added up. -/
  | subCarryIn
  | shiftRightSigned
  | conditionOr
  | conditionAnd
  | conditionXor
  | conditionNor
  | conditionNand
  | conditionEquivalent
  | conditionAndComplement
  | conditionOrComplement
  /-- A condition register field is copied; the operands are field numbers. -/
  | conditionMove
  | unassigned (code : UInt8)
deriving DecidableEq, Repr

/-- How a result sets a condition register field. -/
inductive ConditionMode where
  | none
  | compareSigned
  | compareUnsigned
  | logical
  /-- The result is compared with zero and the overflow summary is copied. -/
  | arithmetic
  | unassigned (code : UInt8)
deriving DecidableEq, Repr

/-- When an instruction takes effect. -/
inductive Guard where
  | always
  | conditionBit
  | unassigned (code : UInt8)
deriving DecidableEq, Repr

/-- The host routines that an instruction can call. -/
inductive Routine where
  | none
  | call
  | far
  | toLink
  | callLink
  | toCount
  | callCount
  | leave
  | timeBase
  | service
  | countCycles
  | unassigned (code : UInt8)
deriving DecidableEq, Repr

/-- One instruction of the intermediate language, with register operands in `ρ`: slots where
guest code is lowered, registers in the code of a function. -/
structure Instruction (ρ : Type) where
  kind : Kind := .noOp
  op : Op := .none
  /-- The result, or the data of a memory access. -/
  result : Option ρ := .none
  /-- The first operand, or the base of a memory access. -/
  left : Option ρ := .none
  /-- The second operand, or the index of a memory access. -/
  right : Option ρ := .none
  carry : Option ρ := .none
  /-- The immediate, displacement, packed rotation or condition mask. -/
  imm : Int32 := 0
  imm2 : Int32 := 0
  slot : Slot := .none
  /-- The width of a memory or slot access in bits. -/
  width : UInt8 := 0
  signExtend : Bool := false
  swapBytes : Bool := false
  conditionField : Option UInt8 := .none
  conditionMode : ConditionMode := .none
  guard : Guard := .always
  guardField : UInt8 := 0
  guardBit : UInt8 := 0
  /-- The value of the bit that lets the guard pass. -/
  guardSet : Bool := false
  /-- The address of a jumpmark, or the address that a jump leads to. -/
  target : Address := 0
  /-- Whether a jump follows the taken link of its segment. -/
  bySegment : Bool := false
  conditionD : UInt8 := 0
  conditionA : UInt8 := 0
  conditionB : UInt8 := 0
  routine : Routine := .none
  /-- The first parameter of a host routine, or the address of an entry. -/
  param : UInt32 := 0
  param2 : UInt32 := 0
  /-- The guest address that the instruction was decoded from, zero if it was synthesized. -/
  address : Address := 0
deriving DecidableEq, Repr

/-- Whether the operation uses the carry. -/
def Op.readsCarry : Op → Bool
  | .addCarryIn | .subCarryIn => true
  | _ => false

/-- A condition register field and how it is set. -/
structure ConditionUpdate where
  field : Option UInt8 := .none
  mode : ConditionMode := .none
deriving DecidableEq, Repr

/-- A bit of the condition register and its value. -/
structure BitTest where
  field : UInt8
  bit : UInt8
  isSet : Bool
deriving DecidableEq, Repr

namespace Instruction

variable {ρ : Type}

/-- Does nothing. -/
def noOp : Instruction ρ := {}

/-- A place that jumps to `address` lead to. -/
def jumpmark (address : Address) : Instruction ρ :=
  { kind := .jumpmark, target := address }

/-- Marks an address that can be entered. -/
def enter (address : Address) : Instruction ρ :=
  { kind := .enter, param := address }

/-- Loads a slot of named storage. -/
def loadSlot (reg : Option ρ) (slot : Slot) : Instruction ρ :=
  { kind := .loadSlot, result := reg, slot := slot, width := 32 }

/-- Stores into a slot of named storage. -/
def storeSlot (slot : Slot) (reg : Option ρ) : Instruction ρ :=
  { kind := .storeSlot, result := reg, slot := slot, width := 32 }

/-- An operation with two registers. -/
def pair (op : Op) (result left : Option ρ) (update : ConditionUpdate) : Instruction ρ :=
  { kind := .pair, op := op, result := result, left := left,
    conditionField := update.field, conditionMode := update.mode }

/-- An operation with a register and a constant. -/
def immediate (op : Op) (result : Option ρ) (imm : Int32) (update : ConditionUpdate) :
    Instruction ρ :=
  { kind := .immediate, op := op, result := result, imm := imm,
    conditionField := update.field, conditionMode := update.mode }

/-- An operation with two registers and a constant. -/
def pairImmediate (op : Op) (result left : Option ρ) (imm : Int32)
    (update : ConditionUpdate) : Instruction ρ :=
  { kind := .pairImmediate, op := op, result := result, left := left, imm := imm,
    conditionField := update.field, conditionMode := update.mode }

/-- An operation with three registers. -/
def triple (op : Op) (result left right : Option ρ) (update : ConditionUpdate) :
    Instruction ρ :=
  { kind := .triple, op := op, result := result, left := left, right := right,
    conditionField := update.field, conditionMode := update.mode }

/-- An operation with three registers and the carry. -/
def tripleCarry (op : Op) (result left right carry : Option ρ)
    (update : ConditionUpdate) : Instruction ρ :=
  { triple op result left right update with kind := .tripleCarry, carry := carry }

/-- An operation with two registers, a constant and the carry. -/
def pairImmediateCarry (op : Op) (result left : Option ρ) (imm : Int32)
    (carry : Option ρ) (update : ConditionUpdate) : Instruction ρ :=
  { pairImmediate op result left imm update with kind := .pairImmediateCarry, carry := carry }

/-- An assignment if a bit has a value. -/
def conditionalImmediate (op : Op) (result : Option ρ) (imm : Int32) (test : BitTest) :
    Instruction ρ :=
  { kind := .conditionalImmediate, op := op, result := result, imm := imm,
    guard := .conditionBit, guardField := test.field, guardBit := test.bit,
    guardSet := test.isSet }

/-- Loads from guest memory. -/
def load (data base : Option ρ) (imm : Int32) (width : UInt8)
    (signExtend swapBytes : Bool) : Instruction ρ :=
  { kind := .load, result := data, left := base, imm := imm, width := width,
    signExtend := signExtend, swapBytes := swapBytes }

/-- Loads at the sum of two registers. -/
def loadIndexed (data base index : Option ρ) (width : UInt8)
    (signExtend swapBytes : Bool) : Instruction ρ :=
  { load data base 0 width signExtend swapBytes with kind := .loadIndexed, right := index }

/-- Stores into guest memory. -/
def store (data base : Option ρ) (imm : Int32) (width : UInt8) (swapBytes : Bool) :
    Instruction ρ :=
  { kind := .store, result := data, left := base, imm := imm, width := width,
    swapBytes := swapBytes }

/-- Stores at the sum of two registers. -/
def storeIndexed (data base index : Option ρ) (width : UInt8) (swapBytes : Bool) :
    Instruction ρ :=
  { store data base 0 width swapBytes with kind := .storeIndexed, right := index }

/-- A copy of `width` bits from one place in memory to another. -/
def copy (source : Option ρ) (sourceImm : Int32) (destination : Option ρ)
    (destinationImm : Int32) (width : UInt8) : Instruction ρ :=
  { kind := .copy, left := source, imm := sourceImm, right := destination,
    imm2 := destinationImm, width := width }

/-- An operation on condition register bits. -/
def conditionLogic (op : Op) (d a b : UInt8) : Instruction ρ :=
  { kind := .conditionLogic, op := op, conditionD := d, conditionA := a, conditionB := b }

/-- Jumps to an address. -/
def jump (target : Address) : Instruction ρ :=
  { kind := .jump, target := target }

/-- Jumps if a bit has a value. -/
def jumpIf (target : Address) (test : BitTest) : Instruction ρ :=
  { jump target with
    guard := .conditionBit, guardField := test.field, guardBit := test.bit,
    guardSet := test.isSet }

/-- An unconditional jump along the taken link of the segment. -/
def segmentJump : Instruction ρ :=
  { kind := .jump, bySegment := true }

/-- The test for remaining cycles in a loop guard. -/
def cycleCheck (target : Address) : Instruction ρ :=
  { kind := .cycleCheck, target := target }

/-- Calls a host routine. -/
def ofRoutine (routine : Routine) (param param2 : UInt32) : Instruction ρ :=
  { kind := .routine, routine := routine, param := param, param2 := param2 }

/-- Whether a segment ends with the instruction. -/
def isSuffix (instr : Instruction ρ) : Bool :=
  match instr.kind with
  | .jump | .cycleCheck => true
  | .routine => instr.routine ≠ .countCycles
  | _ => false

/-- Whether the instruction always jumps. -/
def isUnconditionalJump (instr : Instruction ρ) : Bool :=
  instr.kind = .jump && instr.guard = .always

/-- Whether the instruction only marks a place and disappears during segmentation. -/
def isPlaceholder (instr : Instruction ρ) : Bool :=
  instr.kind = .jumpmark || instr.kind = .enter

end Instruction

/-- Instructions on numbered registers. -/
abbrev Code := List (Instruction Register)

end Dynarec
