import Dynarec.Instruction.Usage
import Mathlib.Logic.Function.Basic

/-!
# Execution of single instructions

What an instruction does to registers that hold words, to the condition register,
to guest memory and to named storage.  Arithmetic wraps around, and a quotient by
zero is zero.  Guest memory is big-endian: an access that does not swap its bytes
has the least significant one first.  Bits 0 to 2 of a condition register field
say whether a comparison found less, greater or equal; the last bit is a copy of
the summary overflow.
-/

namespace Dynarec.Execution

open Function UInt32

/-- The contents of registers in `ρ` and of everything else that instructions change. -/
structure State (ρ : Type) where
  registers : ρ → Word
  /-- The bits of the condition register, by field and bit. -/
  conditions : UInt8 → UInt8 → Bool
  overflow : Bool
  memory : Address → UInt8
  storage : Slot → Word

def rotate (word amount : Word) : Word :=
  (word <<< (amount &&& 31)) ||| (word >>> ((32 - amount) &&& 31))

/-- The mask of a packed rotation.  It wraps around if it ends before it begins. -/
def rotationMask (packed : Word) : Word :=
  let first := (packed >>> 8) &&& 31
  let last := (packed >>> 16) &&& 31
  let front : Word := 0xFFFFFFFF >>> first
  let back : Word := 0xFFFFFFFF <<< (31 - last)
  if first ≤ last then front &&& back else front ||| back

def signExtend (width : UInt8) (word : Word) : Word :=
  if width = 8 then word.toUInt8.toInt8.toInt32.toUInt32
  else if width = 16 then word.toUInt16.toInt16.toInt32.toUInt32
  else word

def reverseBytes (word : Word) : Word :=
  let middle : Word := 0xFF00
  (word <<< 24) ||| ((word &&& middle) <<< 8) ||| ((word >>> 8) &&& middle) ||| (word >>> 24)

/-- The value of an operation on two words.  Operations on one word take the second.  `old` is
what the result held before, and `packed` the immediate of the instruction. -/
def value (op : Op) (packed old first second : Word) : Word :=
  match op with
  | .add => first + second
  | .sub => first - second
  | .multiplySigned => first * second
  | .multiplyHighSigned =>
      ((first.toInt32.toInt64 * second.toInt32.toInt64) >>> 32).toInt32.toUInt32
  | .multiplyHighUnsigned => ((first.toUInt64 * second.toUInt64) >>> 32).toUInt32
  | .divideSigned => (first.toInt32 / second.toInt32).toUInt32
  | .divideUnsigned => first / second
  | .and => first &&& second
  | .or => first ||| second
  | .xor => first ^^^ second
  | .andComplement => first &&& ~~~second
  | .orComplement => first ||| ~~~second
  | .nand => ~~~(first &&& second)
  | .nor => ~~~(first ||| second)
  | .equivalent => ~~~(first ^^^ second)
  | .not => ~~~second
  | .negate => -second
  | .countLeadingZeros => if second = 0 then 32 else 31 - second.log2
  | .signExtendByte => signExtend 8 second
  | .signExtendHalf => signExtend 16 second
  | .endianSwap => reverseBytes second
  | .shiftLeft => if second &&& 32 = 0 then first <<< (second &&& 31) else 0
  | .shiftRightUnsigned => if second &&& 32 = 0 then first >>> (second &&& 31) else 0
  | .rotateLeft => rotate first second
  | .rotateMask => rotate first second &&& rotationMask second
  | .rotateInsert =>
      (rotate first second &&& rotationMask second) ||| (old &&& ~~~rotationMask second)
  | .rotateMaskRegister => rotate first second &&& rotationMask packed
  | _ => second

/-- The sum of two words and a carry, with the carry out of it. -/
def addWithCarry (first second : Word) (carry : Bool) : Word × Bool :=
  let total := first.toNat + second.toNat + carry.toNat
  (ofNat total, size ≤ total)

/-- The value of an operation that sets the carry, with the carry. -/
def valueWithCarry (op : Op) (carry : Bool) (first second : Word) : Word × Bool :=
  match op with
  | .addCarry => addWithCarry first second false
  | .addCarryIn => addWithCarry first second carry
  | .subCarry => addWithCarry (~~~first) second true
  | .subCarryIn => addWithCarry (~~~first) second carry
  | .shiftRightSigned =>
      let amount := (second &&& 63).toNat
      ((first.toInt32 >>> Int32.ofNat (min amount 31)).toUInt32,
        first.toInt32 < 0 && first.toNat % (1 <<< amount) ≠ 0)
  | _ => (second, carry)

/-- The value of a bit of a condition register field after logic on two bits. -/
def conditionValue (op : Op) (first second : Bool) : Bool :=
  match op with
  | .conditionOr => first || second
  | .conditionAnd => first && second
  | .conditionXor => first ^^ second
  | .conditionNor => !(first || second)
  | .conditionNand => !(first && second)
  | .conditionEquivalent => first == second
  | .conditionAndComplement => first && !second
  | .conditionOrComplement => first || !second
  | _ => first

/-- What a comparison of two words says in a bit of a condition register field: less, greater or
equal. -/
def compares (mode : ConditionMode) (first second : Word) (bit : UInt8) : Bool :=
  let less := if mode = .compareUnsigned then decide (first < second)
    else decide (first.toInt32 < second.toInt32)
  if bit = 0 then less else if bit = 1 then !less && first ≠ second else first = second

namespace State

variable {ρ : Type} [DecidableEq ρ]

/-- The word that an operand holds; a missing one holds zero. -/
def get (state : State ρ) (operand : Option ρ) : Word :=
  operand.elim 0 state.registers

/-- A word put into an operand; a missing one takes none. -/
def set (state : State ρ) (operand : Option ρ) (word : Word) : State ρ :=
  { state with
    registers := operand.elim state.registers (update state.registers · word) }

/-- The outcome of a comparison put into the condition register field of an instruction. -/
def record (state : State ρ) (instr : Instruction ρ) (first second : Word) : State ρ :=
  { state with
    conditions := fun field bit =>
      if instr.conditionField = some field then
        if bit < 3 then compares instr.conditionMode first second bit
        else if instr.conditionMode = .arithmetic then state.overflow
        else state.conditions field bit
      else state.conditions field bit }

/-- The bit of the condition register with a number, four bits to a field. -/
def condition (state : State ρ) (number : UInt8) : Bool :=
  state.conditions (number / 4) (number % 4)

def load (state : State ρ) (addr : Address) (width : UInt8) (swap : Bool) : Word :=
  let bytes := (List.range (width.toNat / 8)).map fun index =>
    state.memory (addr + ofNat index)
  (if swap then bytes else bytes.reverse).foldl (fun word byte => (word <<< 8) ||| byte.toUInt32) 0

/-- A word of `width` bits put at an address. -/
def store (state : State ρ) (addr : Address) (width : UInt8) (swap : Bool) (word : Word) :
    State ρ :=
  let size := width.toNat / 8
  { state with
    memory := fun place =>
      let index := (place - addr).toNat
      let shift := 8 * if swap then size - 1 - index else index
      if index < size then (word >>> ofNat shift).toUInt8 else state.memory place }

/-- All bits of the first eight condition register fields in one word, the first one highest. -/
def packedConditions (state : State ρ) : Word :=
  (List.range 32).foldl
    (fun word number => (word <<< 1) ||| if state.condition (UInt8.ofNat number) then 1 else 0) 0

/-- The condition register fields that a mask selects taken from a word. -/
def unpackConditions (state : State ρ) (mask word : Word) : State ρ :=
  { state with
    conditions := fun field bit =>
      if field < 8 && (mask >>> (7 - field.toUInt32)) &&& 1 = 1 then
        (word >>> (31 - (4 * field + bit).toUInt32)) &&& 1 = 1
      else state.conditions field bit }

/-- Whether the test of a jump or of a conditional assignment holds. -/
def passes (state : State ρ) (instr : Instruction ρ) : Bool :=
  match instr.guard with
  | .always => true
  | .conditionBit =>
      state.conditions instr.guardField instr.guardBit == instr.guardSet
  | .unassigned _ => false

/-- The address that a load or store goes to. -/
def accessed? (state : State ρ) (instr : Instruction ρ) : Option Address :=
  match instr.kind with
  | .load | .store => some (state.get instr.left + instr.imm.toUInt32)
  | .loadIndexed | .storeIndexed =>
      some (state.get instr.left + state.get instr.right)
  | _ => none

/-- An operation on two words, which compares them or changes the result. -/
def operate (state : State ρ) (instr : Instruction ρ) (first second : Word) : State ρ :=
  match instr.op with
  | .compareSigned | .compareUnsigned => state.record instr first second
  | op =>
      let result := value op instr.imm.toUInt32 (state.get instr.result) first second
      (state.set instr.result result).record instr result 0

/-- An operation on two words that sets the carry. -/
def operateWithCarry (state : State ρ) (instr : Instruction ρ) (first second : Word) : State ρ :=
  let (result, carry) :=
    valueWithCarry instr.op (state.get instr.carry ≠ 0) first second
  ((state.set instr.result result).set instr.carry (if carry then 1 else 0)).record
    instr result 0

/-- What an instruction does to the state.  Those that only direct control do nothing. -/
def execute (state : State ρ) (instr : Instruction ρ) : State ρ :=
  let imm := instr.imm.toUInt32
  let result := state.get instr.result
  let left := state.get instr.left
  let right := state.get instr.right
  let width := instr.width
  match instr.kind with
  | .pair => state.operate instr result left
  | .immediate =>
      match instr.op with
      | .readConditions => state.set instr.result state.packedConditions
      | .writeConditions => state.unpackConditions imm result
      | _ => state.operate instr result imm
  | .pairImmediate => state.operate instr left imm
  | .triple => state.operate instr left right
  | .tripleCarry => state.operateWithCarry instr left right
  | .pairImmediateCarry => state.operateWithCarry instr left imm
  | .conditionalImmediate =>
      if state.passes instr then state.set instr.result imm else state
  | .load | .loadIndexed =>
      let word := state.load ((state.accessed? instr).getD 0) width instr.swapBytes
      state.set instr.result (if instr.signExtend then signExtend width word else word)
  | .store | .storeIndexed =>
      state.store ((state.accessed? instr).getD 0) width instr.swapBytes result
  | .copy =>
      state.store (right + instr.imm2.toUInt32) width true (state.load (left + imm) width true)
  | .conditionLogic =>
      let number := instr.conditionD
      if instr.op = .conditionMove then
        { state with
          conditions := update state.conditions number
            (state.conditions instr.conditionA) }
      else
        let bit := conditionValue instr.op (state.condition instr.conditionA)
          (state.condition instr.conditionB)
        { state with
          conditions := update state.conditions (number / 4)
            (update (state.conditions (number / 4)) (number % 4) bit) }
  | .loadSlot => state.set instr.result (state.storage instr.slot)
  | .storeSlot =>
      { state with storage := update state.storage instr.slot result }
  | _ => state

def run (state : State ρ) (code : List (Instruction ρ)) : State ρ :=
  code.foldl execute state

/-- The addresses that the loads and stores of some instructions go to. -/
def trace (state : State ρ) : List (Instruction ρ) → List Address
  | [] => []
  | instr :: rest =>
      (state.accessed? instr).toList ++ (state.execute instr).trace rest

variable {state : State ρ}

theorem registers_set (other : operand ≠ some reg) (word : Word) :
    (state.set operand word).registers reg = state.registers reg := by
  cases operand with
  | none => rfl
  | some target =>
    refine update_of_ne ?_ _ _
    rintro rfl
    exact other rfl

theorem registers_execute (unwritten : reg ∉ instr.writes) :
    (state.execute instr).registers reg = state.registers reg := by
  simp only [Instruction.writes, List.mem_filterMap, id_eq, exists_eq_right] at unwritten
  have operated first second
      (result : instr.op ≠ .compareSigned → instr.op ≠ .compareUnsigned → instr.result ≠ some reg) :
      (state.operate instr first second).registers reg = state.registers reg := by
    unfold operate
    split
    · rfl
    · rfl
    next signed unsigned => exact registers_set (result signed unsigned) _
  have carried first second (result : instr.result ≠ some reg) (carry : instr.carry ≠ some reg) :
      (state.operateWithCarry instr first second).registers reg = state.registers reg :=
    (registers_set carry _).trans (registers_set result _)
  unfold Instruction.writeOperands at unwritten
  unfold execute
  cases kind : instr.kind with
  | pair =>
    refine operated _ _ fun signed unsigned same => unwritten ?_
    simp [kind, same]
  | immediate =>
    dsimp only
    split
    next op => exact registers_set (fun same => unwritten (by simp [kind, op, same])) _
    · rfl
    · refine operated _ _ fun signed unsigned same => unwritten ?_
      simp_all
  | pairImmediate | triple => exact operated _ _ fun _ _ same => unwritten (by simp [kind, same])
  | tripleCarry | pairImmediateCarry =>
    exact carried _ _ (fun same => unwritten (by simp [kind, same]))
      fun same => unwritten (by simp [kind, same])
  | conditionalImmediate =>
    dsimp only
    split
    · exact registers_set (fun same => unwritten (by simp [kind, same])) _
    · rfl
  | load | loadIndexed | loadSlot =>
    exact registers_set (fun same => unwritten (by simp [kind, same])) _
  | conditionLogic =>
    dsimp only
    split <;> rfl
  | _ => rfl

theorem registers_run (state : State ρ) (unwritten : ∀ instr ∈ code, reg ∉ instr.writes) :
    (state.run code).registers reg = state.registers reg := by
  induction code generalizing state with
  | nil => rfl
  | cons instr rest ih =>
    obtain ⟨first, others⟩ := List.forall_mem_cons.mp unwritten
    exact (ih (state.execute instr) others).trans (registers_execute first)

/-- Whether an instruction changes a condition register field. -/
def touches (instr : Instruction ρ) (field : UInt8) : Bool :=
  match instr.kind with
  | .pair | .pairImmediate | .triple | .tripleCarry | .pairImmediateCarry =>
      instr.conditionField = some field
  | .immediate =>
      instr.conditionField = some field || (instr.op = .writeConditions && field < 8)
  | .conditionLogic =>
      if instr.op = .conditionMove then instr.conditionD = field
      else instr.conditionD / 4 = field
  | _ => false

omit [DecidableEq ρ] in
theorem conditions_record (other : instr.conditionField ≠ some field) (first second : Word) :
    (state.record instr first second).conditions field = state.conditions field := by
  funext bit
  exact if_neg other

theorem conditions_operate (other : instr.conditionField ≠ some field) (first second : Word) :
    (state.operate instr first second).conditions field = state.conditions field := by
  unfold operate
  split <;> exact conditions_record other _ _

theorem conditions_execute (untouched : touches instr field = false) :
    (state.execute instr).conditions field = state.conditions field := by
  unfold touches at untouched
  unfold execute
  cases kind : instr.kind with
  | pair | pairImmediate | triple =>
    exact conditions_operate (by simpa [kind] using untouched) _ _
  | tripleCarry | pairImmediateCarry =>
    exact conditions_record (by simpa [kind] using untouched) _ _
  | immediate =>
    simp only [kind, Bool.or_eq_false_iff, decide_eq_false_iff_not] at untouched
    dsimp only
    split
    · rfl
    next op =>
      have high : ¬field < 8 := by simpa [op] using untouched.2
      funext bit
      exact if_neg (by simp [high])
    · exact conditions_operate untouched.1 _ _
  | conditionalImmediate =>
    dsimp only
    split <;> rfl
  | conditionLogic =>
    simp only [kind] at untouched
    dsimp only
    split
    next moves => exact update_of_ne (by simpa [moves, eq_comm] using untouched) _ _
    next moves => exact update_of_ne (by simpa [moves, eq_comm] using untouched) _ _
  | _ => rfl

theorem conditions_run (state : State ρ) (untouched : ∀ instr ∈ code, touches instr field = false) :
    (state.run code).conditions field = state.conditions field := by
  induction code generalizing state with
  | nil => rfl
  | cons instr rest ih =>
    obtain ⟨first, others⟩ := List.forall_mem_cons.mp untouched
    exact (ih (state.execute instr) others).trans (conditions_execute first)

end State
end Dynarec.Execution
