import Dynarec.Guest.Operation

/-!
# Fragments

The fragment of a guest word is the list of instructions that does the work of
the word.  Its operands are slots of named storage, so it depends on the word
and its place only.  Operands that coincide get shorter forms.
-/

namespace Dynarec
namespace Guest

/-- The instructions that stand for one guest word. -/
abbrev Fragment := List (Instruction Slot)

/-- The place of a guest word: its address and the code that is decoded with it. -/
structure Site where
  address : Address
  start : Address
  /-- The first address behind the function. -/
  stop : Address
deriving DecidableEq, Repr, Inhabited

/-- Whether an address is a word of the function. -/
def Site.inRange (site : Site) (address : Address) : Bool :=
  site.start ≤ address && address < site.stop && address &&& 3 = 0

namespace Fragment

/-- A general register as an operand. -/
def gpr (index : Nat) : Option Slot := some (.gpr (UInt32.ofNat index))

/-- A special register as an operand. -/
def spr (index : Nat) : Option Slot := some (.spr (UInt32.ofNat index))

/-- The carry as an operand. -/
def carry : Option Slot := some .carry

/-- The base of a memory access, where register zero stands for none. -/
def base (index : Nat) : Option Slot := if index = 0 then none else gpr index

/-- The condition register field of the compiler itself. -/
def temporaryField : UInt8 := 8

/-- The update of field zero by an instruction that records its result. -/
def recorded (record : Bool) (mode : ConditionMode) : ConditionUpdate :=
  if record then { field := some 0, mode } else {}

/-- A sum with a constant. -/
def addImmediate (d a : Nat) (imm : Int32) : Instruction Slot :=
  if a = 0 then .immediate .assign (gpr d) imm {}
  else if d = a then .immediate .add (gpr d) imm {}
  else .pairImmediate .add (gpr d) (gpr a) imm {}

/-- Arithmetic on two registers. -/
def arithmetic (op : Op) (d left right : Nat) (update : ConditionUpdate) : Instruction Slot :=
  if op = .add ∧ d = left then .pair .add (gpr d) (gpr right) update
  else .triple op (gpr d) (gpr left) (gpr right) update

/-- Logic on a register and a constant. -/
def logicalImmediate (op : Op) (target source : Nat) (imm : Int32) (record : Bool) :
    Instruction Slot :=
  let update := recorded record .logical
  if op = .or ∧ !record ∧ imm = 0 ∧ source = target then .noOp
  else if source = target then .immediate op (gpr target) imm update
  else .pairImmediate op (gpr target) (gpr source) imm update

/-- Logic on two registers. -/
def logical (op : Op) (target left right : Nat) (update : ConditionUpdate) : Instruction Slot :=
  if op = .nor ∧ left = right then .pair .not (gpr target) (gpr left) update
  else if (op = .and ∨ op = .xor) ∧ target = left then
    .pair op (gpr target) (gpr right) update
  else .triple op (gpr target) (gpr left) (gpr right) update

/-- A disjunction, or a copy. -/
def orRegister (target left right : Nat) (record : Bool) : Instruction Slot :=
  let update := recorded record .logical
  if left = right then
    if left = target ∧ !record then .noOp else .pair .assign (gpr target) (gpr left) update
  else if target = left then .pair .or (gpr target) (gpr right) update
  else .triple .or (gpr target) (gpr left) (gpr right) update

/-- A rotation under a mask. -/
def rotateMask (target source shift first last : Nat) (record : Bool) : Instruction Slot :=
  let update := recorded record .logical
  if first = 0 ∧ last = 31 ∧ source = target ∧ !record then
    .immediate .rotateLeft (gpr target) (Int32.ofNat shift) update
  else
    .pairImmediate .rotateMask (gpr target) (gpr source) (packRotation shift first last) update

/-- A load with a displacement; an update form adds the displacement to its base. -/
def load (d a : Nat) (imm : Int32) (width : UInt8) (signExtend update : Bool) : Fragment :=
  .load (gpr d) (base a) imm width signExtend (width > 8) ::
    if update then [.immediate .add (gpr a) imm {}] else []

/-- A store at an offset. -/
def store (s a : Nat) (imm : Int32) (width : UInt8) (update : Bool) : Fragment :=
  .store (gpr s) (base a) imm width (width > 8) ::
    if update then [.immediate .add (gpr a) imm {}] else []

/-- A load at the sum of two registers. -/
def loadIndexed (d a b : Nat) (width : UInt8) (signExtend reversed update : Bool) : Fragment :=
  let swap := width > 8 && !reversed
  if a = 0 then [.load (gpr d) (gpr b) 0 width signExtend swap]
  else
    .loadIndexed (gpr d) (gpr a) (gpr b) width signExtend swap ::
      if update then [.pair .add (gpr a) (gpr b) {}] else []

/-- A store at the sum of two registers. -/
def storeIndexed (s a b : Nat) (width : UInt8) (reversed update : Bool) : Fragment :=
  let swap := width > 8 && !reversed
  if a = 0 then [.store (gpr s) (gpr b) 0 width swap]
  else
    .storeIndexed (gpr s) (gpr a) (gpr b) width swap ::
      if update then [.pair .add (gpr a) (gpr b) {}] else []

/-- The registers from `first` to the last one, with the displacements of consecutive words. -/
def multiple (first : Nat) (imm : Int32) : List (Nat × Int32) :=
  (List.range (32 - first)).map fun i => (first + i, imm + Int32.ofNat (4 * i))

/-- A branch, a call or a way out. -/
def branch (site : Site) (target : Address) (link : Bool) : Instruction Slot :=
  if link then .ofRoutine .call site.address target
  else if site.inRange target then .jump target
  else .ofRoutine .far site.address target

/-- A conditional branch.  A call or a far target is skipped when the condition fails. -/
def branchConditional (site : Site) (word : Word) : Fragment :=
  let target := word.conditionalTarget site.address
  let near := !word.links && site.inRange target
  let counting : Fragment :=
    if word.ignoresCount then []
    else [.immediate .sub (spr 9) 1 { field := some temporaryField, mode := .logical }]
  let test : BitTest :=
    if word.ignoresCount then word.branchTest
    else { field := temporaryField, bit := 2, isSet := word.branchesIfZero }
  if word.branchesAlways then [branch site target word.links]
  else if near then counting ++ [.jumpIf target test]
  else
    counting ++
      [.jumpIf (site.address + 4) { test with isSet := !test.isSet },
        branch site target word.links]

/-- A branch to the link or count register, which is skipped when its condition fails. -/
def branchToRegister (site : Site) (word : Word) (routine : Routine) : Fragment :=
  let test := word.branchTest
  let skip : Fragment :=
    if word.ignoresCondition then []
    else [.jumpIf (site.address + 4) { test with isSet := !test.isSet }]
  skip ++ [.ofRoutine routine site.address 0]

/-- The instructions of a decoded word. -/
def ofOperation (site : Site) (word : Word) : Operation → Fragment
  | .nothing => [.noOp]
  | .service => [.ofRoutine .service site.address word.lowHalf]
  | .trap => [.ofRoutine .leave site.address 0]
  | .addImmediate shifted =>
      let imm := word.signedImmediate
      [addImmediate word.d word.a (if shifted then imm <<< 16 else imm)]
  | .addImmediateCarry record =>
      [.pairImmediateCarry .addCarry (gpr word.d) (gpr word.a) word.signedImmediate carry
        (recorded record .arithmetic)]
  | .subtractImmediateCarry =>
      [.pairImmediateCarry .subCarry (gpr word.d) (gpr word.a) word.signedImmediate carry {}]
  | .multiplyImmediate =>
      [.pairImmediate .multiplySigned (gpr word.d) (gpr word.a) word.signedImmediate {}]
  | .compareImmediate true =>
      [.immediate .compareSigned (gpr word.a) word.signedImmediate
        { field := some word.conditionTarget, mode := .compareSigned }]
  | .compareImmediate false =>
      [.immediate .compareUnsigned (gpr word.a) word.unsignedImmediate
        { field := some word.conditionTarget, mode := .compareUnsigned }]
  | .compareRegister true =>
      [.pair .compareSigned (gpr word.a) (gpr word.b)
        { field := some word.conditionTarget, mode := .compareSigned }]
  | .compareRegister false =>
      [.pair .compareUnsigned (gpr word.a) (gpr word.b)
        { field := some word.conditionTarget, mode := .compareUnsigned }]
  | .arithmetic op swapped =>
      let update := recorded word.records .arithmetic
      if swapped then [arithmetic op word.d word.b word.a update]
      else [arithmetic op word.d word.a word.b update]
  | .arithmeticCarry op =>
      [.tripleCarry op (gpr word.d) (gpr word.a) (gpr word.b) carry
        (recorded word.records .arithmetic)]
  | .arithmeticCarryConstant op constant =>
      [.pairImmediateCarry op (gpr word.d) (gpr word.a) constant carry
        (recorded word.records .arithmetic)]
  | .negate =>
      [.pair .negate (gpr word.d) (gpr word.a) (recorded word.records .arithmetic)]
  | .logicalImmediate op shifted record =>
      let imm := word.unsignedImmediate
      [logicalImmediate op word.a word.d (if shifted then imm <<< 16 else imm) record]
  | .logical op =>
      [logical op word.a word.d word.b (recorded word.records .logical)]
  | .logicalUnary op =>
      [.pair op (gpr word.a) (gpr word.d) (recorded word.records .logical)]
  | .orRegister => [orRegister word.a word.d word.b word.records]
  | .rotateMask =>
      [rotateMask word.a word.d word.b word.maskBegin word.maskEnd word.records]
  | .rotateInsert =>
      [.pairImmediate .rotateInsert (gpr word.a) (gpr word.d)
        (packRotation word.b word.maskBegin word.maskEnd) (recorded word.records .logical)]
  | .rotateMaskRegister =>
      let rotation : Instruction Slot :=
        .triple .rotateMaskRegister (gpr word.a) (gpr word.d) (gpr word.b)
          (recorded word.records .logical)
      [{ rotation with imm := packRotation 0 word.maskBegin word.maskEnd }]
  | .shiftRightSigned =>
      [.tripleCarry .shiftRightSigned (gpr word.a) (gpr word.d) (gpr word.b) carry
        (recorded word.records .logical)]
  | .shiftRightSignedImmediate =>
      [.pairImmediateCarry .shiftRightSigned (gpr word.a) (gpr word.d) (Int32.ofNat word.b) carry
        (recorded word.records .logical)]
  | .load width signExtend update =>
      load word.d word.a word.signedImmediate width signExtend update
  | .store width update => store word.d word.a word.signedImmediate width update
  | .loadIndexed width signExtend reversed update =>
      loadIndexed word.d word.a word.b width signExtend reversed update
  | .storeIndexed width reversed update =>
      storeIndexed word.d word.a word.b width reversed update
  | .loadMultiple =>
      (multiple word.d word.signedImmediate).map fun (reg, imm) =>
        .load (gpr reg) (base word.a) imm 32 false true
  | .storeMultiple =>
      (multiple word.d word.signedImmediate).map fun (reg, imm) =>
        .store (gpr reg) (base word.a) imm 32 true
  | .branch => [branch site (word.branchTarget site.address) word.links]
  | .branchConditional => branchConditional site word
  | .branchToLink => branchToRegister site word (if word.links then .callLink else .toLink)
  | .branchToCount => branchToRegister site word (if word.links then .callCount else .toCount)
  | .readSpecial => [.pair .assign (gpr word.d) (spr word.special) {}]
  | .writeSpecial => [.pair .assign (spr word.special) (gpr word.d) {}]
  | .readConditions => [.immediate .readConditions (gpr word.d) 0 {}]
  | .writeConditions => [.immediate .writeConditions (gpr word.d) word.conditionMask {}]
  | .moveConditionField =>
      [.conditionLogic .conditionMove word.conditionTarget word.conditionSource 0]
  | .conditionLogic op =>
      [.conditionLogic op (UInt8.ofNat word.d) (UInt8.ofNat word.a) (UInt8.ofNat word.b)]

end Fragment

/-- Whether control comes back to the address behind the word of an operation. -/
def Operation.returns (operation : Operation) (word : Word) : Bool :=
  match operation with
  | .service | .trap => true
  | .branch | .branchConditional | .branchToLink | .branchToCount => word.links
  | _ => false

end Guest
end Dynarec
