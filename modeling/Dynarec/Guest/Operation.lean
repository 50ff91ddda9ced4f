import Dynarec.Guest.Field

/-!
# Guest operations

The operation of a guest word is found in three tables: one by primary opcode,
and one by extended opcode for each of the two grouped primary opcodes.  Some
words that the tables know are refused for the values of their fields.
-/

namespace Dynarec
namespace Guest

/-- What a guest instruction does, apart from its operands. -/
inductive Operation where
  | nothing
  | service
  | trap
  | addImmediate (shifted : Bool)
  | addImmediateCarry (record : Bool)
  | subtractImmediateCarry
  | multiplyImmediate
  | compareImmediate (signed : Bool)
  | compareRegister (signed : Bool)
  /-- Arithmetic on two registers, which change places if `swapped`. -/
  | arithmetic (op : Op) (swapped : Bool)
  | arithmeticCarry (op : Op)
  | arithmeticCarryConstant (op : Op) (constant : Int32)
  | negate
  | logicalImmediate (op : Op) (shifted record : Bool)
  | logical (op : Op)
  | logicalUnary (op : Op)
  | orRegister
  | rotateMask
  | rotateInsert
  | rotateMaskRegister
  | shiftRightSigned
  | shiftRightSignedImmediate
  | load (width : UInt8) (signExtend update : Bool)
  | store (width : UInt8) (update : Bool)
  | loadIndexed (width : UInt8) (signExtend reversed update : Bool)
  | storeIndexed (width : UInt8) (reversed update : Bool)
  | loadMultiple
  | storeMultiple
  | branch
  | branchConditional
  | branchToLink
  | branchToCount
  | readSpecial
  | writeSpecial
  | readConditions
  | writeConditions
  | moveConditionField
  | conditionLogic (op : Op)
deriving DecidableEq, Repr

/-- Why a word is not decoded. -/
inductive Refusal where
  | primary (opcode : Nat)
  | extended (group opcode : Nat)
  | reservedOperand
  | invalidUpdate
  | overwrittenBase
  | countedCondition
  | countedRegisterBranch
  | conditionalTrap
  | unreadableSpecial
  | unwritableSpecial
deriving DecidableEq, Repr

/-- The text of a refusal. -/
def Refusal.message : Refusal → String
  | .primary opcode => s!"primary opcode {opcode}"
  | .extended group opcode => s!"opcode {group}/{opcode}"
  | .reservedOperand => "reserved operand field set"
  | .invalidUpdate => "invalid update form"
  | .overwrittenBase => "lmw overwrites its base register"
  | .countedCondition => "conditional branch combined with CTR decrement"
  | .countedRegisterBranch => "register branch with CTR decrement"
  | .conditionalTrap => "conditional trap"
  | .unreadableSpecial => "mfspr of unsupported register"
  | .unwritableSpecial => "mtspr of unsupported register"

namespace Operation

/-- Operations by primary opcode, the two grouped ones apart. -/
def primaryTable : List (Nat × Operation) :=
  [(1, .service),
    (7, .multiplyImmediate),
    (8, .subtractImmediateCarry),
    (10, .compareImmediate false),
    (11, .compareImmediate true),
    (12, .addImmediateCarry false),
    (13, .addImmediateCarry true),
    (14, .addImmediate false),
    (15, .addImmediate true),
    (16, .branchConditional),
    (18, .branch),
    (20, .rotateInsert),
    (21, .rotateMask),
    (23, .rotateMaskRegister),
    (24, .logicalImmediate .or false false),
    (25, .logicalImmediate .or true false),
    (26, .logicalImmediate .xor false false),
    (27, .logicalImmediate .xor true false),
    (28, .logicalImmediate .and false true),
    (29, .logicalImmediate .and true true),
    (32, .load 32 false false),
    (33, .load 32 false true),
    (34, .load 8 false false),
    (35, .load 8 false true),
    (36, .store 32 false),
    (37, .store 32 true),
    (38, .store 8 false),
    (39, .store 8 true),
    (40, .load 16 false false),
    (41, .load 16 false true),
    (42, .load 16 true false),
    (43, .load 16 true true),
    (44, .store 16 false),
    (45, .store 16 true),
    (46, .loadMultiple),
    (47, .storeMultiple)]

/-- Operations of primary opcode 19 by extended opcode. -/
def group19 : List (Nat × Operation) :=
  [(0, .moveConditionField),
    (16, .branchToLink),
    (33, .conditionLogic .conditionNor),
    (129, .conditionLogic .conditionAndComplement),
    (150, .nothing),
    (193, .conditionLogic .conditionXor),
    (225, .conditionLogic .conditionNand),
    (257, .conditionLogic .conditionAnd),
    (289, .conditionLogic .conditionEquivalent),
    (417, .conditionLogic .conditionOrComplement),
    (449, .conditionLogic .conditionOr),
    (528, .branchToCount)]

/-- Operations of primary opcode 31 by extended opcode. -/
def group31 : List (Nat × Operation) :=
  [(0, .compareRegister true),
    (4, .trap),
    (8, .arithmeticCarry .subCarry),
    (10, .arithmeticCarry .addCarry),
    (11, .arithmetic .multiplyHighUnsigned false),
    (19, .readConditions),
    (23, .loadIndexed 32 false false false),
    (24, .logical .shiftLeft),
    (26, .logicalUnary .countLeadingZeros),
    (28, .logical .and),
    (32, .compareRegister false),
    (40, .arithmetic .sub true),
    (54, .nothing),
    (55, .loadIndexed 32 false false true),
    (60, .logical .andComplement),
    (75, .arithmetic .multiplyHighSigned false),
    (86, .nothing),
    (87, .loadIndexed 8 false false false),
    (104, .negate),
    (119, .loadIndexed 8 false false true),
    (124, .logical .nor),
    (136, .arithmeticCarry .subCarryIn),
    (138, .arithmeticCarry .addCarryIn),
    (144, .writeConditions),
    (151, .storeIndexed 32 false false),
    (183, .storeIndexed 32 false true),
    (200, .arithmeticCarryConstant .subCarryIn 0),
    (202, .arithmeticCarryConstant .addCarryIn 0),
    (215, .storeIndexed 8 false false),
    (232, .arithmeticCarryConstant .subCarryIn (-1)),
    (234, .arithmeticCarryConstant .addCarryIn (-1)),
    (235, .arithmetic .multiplySigned false),
    (246, .nothing),
    (247, .storeIndexed 8 false true),
    (266, .arithmetic .add false),
    (278, .nothing),
    (279, .loadIndexed 16 false false false),
    (284, .logical .equivalent),
    (311, .loadIndexed 16 false false true),
    (316, .logical .xor),
    (339, .readSpecial),
    (343, .loadIndexed 16 true false false),
    (375, .loadIndexed 16 true false true),
    (407, .storeIndexed 16 false false),
    (412, .logical .orComplement),
    (439, .storeIndexed 16 false true),
    (444, .orRegister),
    (459, .arithmetic .divideUnsigned false),
    (467, .writeSpecial),
    (476, .logical .nand),
    (491, .arithmetic .divideSigned false),
    (534, .loadIndexed 32 false true false),
    (536, .logical .shiftRightUnsigned),
    (598, .nothing),
    (662, .storeIndexed 32 true false),
    (790, .loadIndexed 16 false true false),
    (792, .shiftRightSigned),
    (824, .shiftRightSignedImmediate),
    (854, .nothing),
    (918, .storeIndexed 16 true false),
    (922, .logicalUnary .signExtendHalf),
    (954, .logicalUnary .signExtendByte),
    (982, .nothing)]

/-- The operation that the tables have for a word, or why they have none. -/
def ofWord (word : Word) : Except Refusal Operation :=
  let listed (table : List (Nat × Operation)) (opcode : Nat) (refusal : Refusal) :=
    match table.lookup opcode with
    | some operation => .ok operation
    | none => .error refusal
  match word.primary with
  | 19 => listed group19 word.extended (.extended 19 word.extended)
  | 31 => listed group31 word.extended (.extended 31 word.extended)
  | opcode => listed primaryTable opcode (.primary opcode)

/-- Whether a special register can be moved. -/
def isMovable (special : Nat) : Bool :=
  special = 8 || special = 9 || (896 ≤ special && special ≤ 903)

/-- Why the fields of a word keep its operation from being decoded. -/
def refusal? (operation : Operation) (word : Word) : Option Refusal :=
  let require (holds : Bool) (refusal : Refusal) := if holds then none else some refusal
  match operation with
  | .arithmeticCarryConstant _ _ | .logicalUnary _ => require (word.b = 0) .reservedOperand
  | .load _ _ true | .loadIndexed _ _ _ true =>
      require (word.a ≠ 0 && word.a ≠ word.d) .invalidUpdate
  | .store _ true | .storeIndexed _ _ true => require (word.a ≠ 0) .invalidUpdate
  | .loadMultiple => require (word.a < word.d) .overwrittenBase
  | .branchConditional => require (word.ignoresCondition || word.ignoresCount) .countedCondition
  | .branchToLink | .branchToCount => require word.ignoresCount .countedRegisterBranch
  | .trap => require (word.d = 31) .conditionalTrap
  | .readSpecial => require (isMovable word.special) .unreadableSpecial
  | .writeSpecial => require (isMovable word.special) .unwritableSpecial
  | _ => none

/-- The operation of a word that can be decoded, or why it cannot. -/
def decode (word : Word) : Except Refusal Operation := do
  let operation ← ofWord word
  match operation.refusal? word with
  | none => .ok operation
  | some refusal => .error refusal

end Operation

/-- Whether a word is decoded. -/
def supports (word : Word) : Bool :=
  (Operation.ofWord word).isOk

end Guest
end Dynarec
