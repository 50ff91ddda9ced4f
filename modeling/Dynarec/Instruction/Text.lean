import Dynarec.Instruction.Code
import Dynarec.Text.Hex

/-!
# Readable instructions

The text of one instruction, as listings show it.
-/

namespace Dynarec

namespace Op

/-- The mnemonic of an operation; a code without one is shown as a number. -/
def text : Op → String
  | .assign => "mov"
  | .endianSwap => "bswap"
  | .add => "add"
  | .sub => "sub"
  | .multiplySigned => "mul"
  | .multiplyHighSigned => "mulhs"
  | .multiplyHighUnsigned => "mulhu"
  | .divideSigned => "divs"
  | .divideUnsigned => "divu"
  | .and => "and"
  | .or => "or"
  | .xor => "xor"
  | .andComplement => "andc"
  | .orComplement => "orc"
  | .nand => "nand"
  | .nor => "nor"
  | .equivalent => "eqv"
  | .not => "not"
  | .negate => "neg"
  | .countLeadingZeros => "cntlzw"
  | .signExtendByte => "sext8"
  | .signExtendHalf => "sext16"
  | .shiftLeft => "shl"
  | .shiftRightUnsigned => "shr"
  | .rotateLeft => "rol"
  | .rotateMask => "rlwinm"
  | .rotateInsert => "rlwimi"
  | .rotateMaskRegister => "rlwnm"
  | .compareSigned => "cmp"
  | .compareUnsigned => "cmpl"
  | .readConditions => "mfcr"
  | .writeConditions => "mtcrf"
  | .addCarry => "addc"
  | .addCarryIn => "adde"
  | .subCarry => "subfc"
  | .subCarryIn => "subfe"
  | .shiftRightSigned => "sar"
  | .conditionOr => "cror"
  | .conditionAnd => "crand"
  | .conditionXor => "crxor"
  | .conditionNor => "crnor"
  | .conditionNand => "crnand"
  | .conditionEquivalent => "creqv"
  | .conditionAndComplement => "crandc"
  | .conditionOrComplement => "crorc"
  | .conditionMove => "mcrf"
  | .none => "op0"
  | .unassigned code => s!"op{code.toNat}"

end Op

namespace Routine

/-- The name of a host routine; a code without one is shown as a number. -/
def text : Routine → String
  | .call => "BL"
  | .far => "B_FAR"
  | .toLink => "BLR"
  | .callLink => "BLRL"
  | .toCount => "BCTR"
  | .callCount => "BCTRL"
  | .leave => "LEAVE"
  | .timeBase => "MFTB"
  | .service => "HLE"
  | .countCycles => "COUNT_CYCLES"
  | .none => "macro0"
  | .unassigned code => s!"macro{code.toNat}"

end Routine

/-- A register operand, a dash where there is none. -/
def operandText : Option Register → String
  | none => "-"
  | some register => s!"v{register}"

/-- An offset with its sign. -/
def displacementText (imm : Int32) : String :=
  if imm < 0 then s!"{imm.toInt}" else s!"+{imm.toInt}"

/-- The name of a condition register bit. -/
def conditionBitText (bit : UInt8) : String :=
  match (bit &&& 3).toNat with
  | 0 => "lt"
  | 1 => "gt"
  | 2 => "eq"
  | _ => "so"

/-- The width of an access and its flags. -/
def accessText (width : UInt8) (signExtend swapBytes : Bool) : String :=
  s!"u{width.toNat}" ++ (if signExtend then ".s" else "") ++ (if swapBytes then ".be" else "")

namespace Instruction

/-- The test of a guard. -/
def guardText {ρ : Type} (instr : Instruction ρ) : String :=
  let bit := s!"cr{instr.guardField.toNat}.{conditionBitText instr.guardBit}"
  if instr.guardSet then bit else "!" ++ bit

/-- The instruction without what it records. -/
def bodyText (instr : Instruction Register) : String :=
  let op := instr.op.text
  let r := operandText instr.result
  let a := operandText instr.left
  let b := operandText instr.right
  let ca := operandText instr.carry
  let imm := instr.imm.toInt
  let displacement := displacementText instr.imm
  let slot := instr.slot.text
  let target := Hex.word instr.target
  let loadAccess := accessText instr.width instr.signExtend instr.swapBytes
  let storeAccess := accessText instr.width false instr.swapBytes
  match instr.kind with
  | .noOp => "nop"
  | .jumpmark => s!"jumpmark {target}"
  | .enter => s!"enter {Hex.word instr.param}"
  | .loadSlot => s!"{r} = name[{slot}]"
  | .storeSlot => s!"name[{slot}] = {r}"
  | .pair => s!"{op} {r}, {a}"
  | .immediate => s!"{op} {r}, {imm}"
  | .pairImmediate => s!"{op} {r}, {a}, {imm}"
  | .triple => s!"{op} {r}, {a}, {b}"
  | .tripleCarry => s!"{op} {r}, {a}, {b}, ca={ca}"
  | .pairImmediateCarry => s!"{op} {r}, {a}, {imm}, ca={ca}"
  | .conditionalImmediate => s!"{op} {r}, {imm} if {instr.guardText}"
  | .load => s!"{r} = {loadAccess}[{a}{displacement}]"
  | .loadIndexed => s!"{r} = {loadAccess}[{a}+{b}]"
  | .store => s!"{storeAccess}[{a}{displacement}] = {r}"
  | .storeIndexed => s!"{storeAccess}[{a}+{b}] = {r}"
  | .copy =>
      let width := accessText instr.width false false
      s!"{width}[{b}{displacementText instr.imm2}] = {width}[{a}{displacement}]"
  | .conditionLogic =>
      let d := instr.conditionD.toNat
      s!"{op} {d}, {instr.conditionA.toNat}, {instr.conditionB.toNat}"
  | .jump =>
      if instr.bySegment then "jump segment"
      else if instr.guard = .always then s!"jump {target}"
      else s!"jump {target} if {instr.guardText}"
  | .cycleCheck => s!"cycle_check {target}"
  | .routine =>
      let routine := instr.routine.text
      s!"macro {routine} {Hex.word instr.param} {Hex.short instr.param2}"
  | .unassigned code => s!"type{code.toNat}"

/-- The instruction as a text. -/
def text (instr : Instruction Register) : String :=
  match instr.conditionField with
  | none => instr.bodyText
  | some field => s!"{instr.bodyText} -> cr{field.toNat}"

end Instruction
end Dynarec
