import Dynarec.Instruction.Basic

/-!
# Register usage

The registers that an instruction reads and writes, in a fixed order, and the
replacement of its register operands.
-/

namespace Dynarec

/-- How an instruction uses a register. -/
structure Access (ρ : Type) where
  register : ρ
  read : Bool
  write : Bool
deriving DecidableEq, Repr

namespace Instruction

variable {ρ σ : Type}

/-- The operands that are read. -/
def readOperands (instr : Instruction ρ) : List (Option ρ) :=
  let carryIn := if instr.op.readsCarry then [instr.carry] else []
  match instr.kind with
  | .storeSlot | .conditionalImmediate => [instr.result]
  | .pair =>
      match instr.op with
      | .compareSigned | .compareUnsigned | .or | .and | .xor | .add | .sub =>
          [instr.result, instr.left]
      | _ => [instr.left]
  | .immediate =>
      match instr.op with
      | .compareSigned | .compareUnsigned | .writeConditions
      | .add | .sub | .and | .or | .xor | .rotateLeft => [instr.result]
      | _ => []
  | .pairImmediate =>
      match instr.op with
      | .rotateInsert => [instr.result, instr.left]
      | _ => [instr.left]
  | .triple | .loadIndexed | .copy => [instr.left, instr.right]
  | .tripleCarry => [instr.left, instr.right] ++ carryIn
  | .pairImmediateCarry => [instr.left] ++ carryIn
  | .load => [instr.left]
  | .store => [instr.result, instr.left]
  | .storeIndexed => [instr.result, instr.left, instr.right]
  | _ => []

/-- The operands that are written. -/
def writeOperands (instr : Instruction ρ) : List (Option ρ) :=
  match instr.kind with
  | .loadSlot | .pairImmediate | .triple | .conditionalImmediate | .load | .loadIndexed =>
      [instr.result]
  | .pair =>
      match instr.op with
      | .compareSigned | .compareUnsigned => []
      | _ => [instr.result]
  | .immediate =>
      match instr.op with
      | .compareSigned | .compareUnsigned | .writeConditions => []
      | _ => [instr.result]
  | .tripleCarry | .pairImmediateCarry => [instr.result, instr.carry]
  | _ => []

/-- The registers that are read. -/
def reads (instr : Instruction ρ) : List ρ :=
  instr.readOperands.filterMap id

/-- The registers that are written. -/
def writes (instr : Instruction ρ) : List ρ :=
  instr.writeOperands.filterMap id

/-- The distinct registers that an instruction touches, those read first. -/
def registers [DecidableEq ρ] (instr : Instruction ρ) : List ρ :=
  (instr.reads ++ instr.writes).foldl
    (fun seen reg => if reg ∈ seen then seen else seen ++ [reg]) []

/-- The accesses of an instruction, one for each register that it touches. -/
def accesses [DecidableEq ρ] (instr : Instruction ρ) : List (Access ρ) :=
  instr.registers.map fun register =>
    { register, read := register ∈ instr.reads, write := register ∈ instr.writes }

/-- Every register operand replaced by its image; operands that are absent stay so. -/
def mapRegisters (f : ρ → Option σ) (instr : Instruction ρ) : Instruction σ :=
  { instr with
    result := instr.result.bind f
    left := instr.left.bind f
    right := instr.right.bind f
    carry := instr.carry.bind f }

/-- Every register operand of an instruction, used or not. -/
def operands (instr : Instruction ρ) : List ρ :=
  [instr.result, instr.left, instr.right, instr.carry].filterMap id

end Instruction
end Dynarec
