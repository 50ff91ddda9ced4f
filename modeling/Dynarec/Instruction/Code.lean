import Dynarec.Instruction.Basic

/-!
# Numeric codes of instruction fields

Every enumeration of the instruction record has a table of its known members in
code order.  A code beyond the table reads as `unassigned`.
-/

namespace Dynarec

namespace Kind

/-- The kinds by their codes. -/
def table : List Kind :=
  [.noOp, .jumpmark, .enter, .loadSlot, .storeSlot, .pair, .immediate, .pairImmediate, .triple,
    .tripleCarry, .pairImmediateCarry, .conditionalImmediate, .load, .loadIndexed, .store,
    .storeIndexed, .copy, .conditionLogic, .jump, .cycleCheck, .routine]

/-- The kind of a code. -/
def ofCode (code : UInt8) : Kind :=
  table.getD code.toNat (.unassigned code)

/-- The code of a kind. -/
def code : Kind → UInt8
  | .unassigned code => code
  | kind => UInt8.ofNat (table.idxOf kind)

end Kind

namespace Op

/-- The operations by their codes. -/
def table : List Op :=
  [.none, .assign, .endianSwap, .add, .sub, .multiplySigned, .multiplyHighSigned,
    .multiplyHighUnsigned, .divideSigned, .divideUnsigned, .and, .or, .xor, .andComplement,
    .orComplement, .nand, .nor, .equivalent, .not, .negate, .countLeadingZeros, .signExtendByte,
    .signExtendHalf, .shiftLeft, .shiftRightUnsigned, .rotateLeft, .rotateMask, .rotateInsert,
    .rotateMaskRegister, .compareSigned, .compareUnsigned, .readConditions, .writeConditions,
    .addCarry, .addCarryIn, .subCarry, .subCarryIn, .shiftRightSigned, .conditionOr,
    .conditionAnd, .conditionXor, .conditionNor, .conditionNand, .conditionEquivalent,
    .conditionAndComplement, .conditionOrComplement, .conditionMove]

/-- The operation of a code. -/
def ofCode (code : UInt8) : Op :=
  table.getD code.toNat (.unassigned code)

/-- The code of an operation. -/
def code : Op → UInt8
  | .unassigned code => code
  | op => UInt8.ofNat (table.idxOf op)

end Op

namespace ConditionMode

/-- The modes by their codes. -/
def table : List ConditionMode :=
  [.none, .compareSigned, .compareUnsigned, .logical, .arithmetic]

/-- The mode of a code. -/
def ofCode (code : UInt8) : ConditionMode :=
  table.getD code.toNat (.unassigned code)

/-- The code of a mode. -/
def code : ConditionMode → UInt8
  | .unassigned code => code
  | mode => UInt8.ofNat (table.idxOf mode)

end ConditionMode

namespace Guard

/-- The guards by their codes. -/
def table : List Guard :=
  [.always, .conditionBit]

/-- The guard of a code. -/
def ofCode (code : UInt8) : Guard :=
  table.getD code.toNat (.unassigned code)

/-- The code of a guard. -/
def code : Guard → UInt8
  | .unassigned code => code
  | guard => UInt8.ofNat (table.idxOf guard)

end Guard

namespace Routine

/-- The routines by their codes. -/
def table : List Routine :=
  [.none, .call, .far, .toLink, .callLink, .toCount, .callCount, .leave, .timeBase, .service,
    .countCycles]

/-- The routine of a code. -/
def ofCode (code : UInt8) : Routine :=
  table.getD code.toNat (.unassigned code)

/-- The code of a routine. -/
def code : Routine → UInt8
  | .unassigned code => code
  | routine => UInt8.ofNat (table.idxOf routine)

end Routine

end Dynarec
