import Dynarec.Instruction.Basic

/-!
# Mnemonics

The instruction words of the integer instructions by name.  Operands are given
in the order in which they are written; each is cut to the bits of its field.
-/

namespace Dynarec
namespace Assembly

/-- The value of an operand cut to a number of bits. -/
def bits (width : Nat) (value : Int) : Word :=
  UInt32.ofNat (value % Nat.pow 2 width).toNat

/-- A word of five-bit fields and a half word: primary opcode, target, source, immediate. -/
def halfWord (primary : Word) (target source immediate : Int) : Word :=
  primary <<< 26 ||| bits 5 target <<< 21 ||| bits 5 source <<< 16 ||| bits 16 immediate

/-- A word of five-bit fields, an extended opcode and the record bit. -/
def extendedWord (primary : Word) (target first second : Int) (extended : Word)
    (record : Bool) : Word :=
  primary <<< 26 ||| bits 5 target <<< 21 ||| bits 5 first <<< 16 ||| bits 5 second <<< 11 |||
    extended <<< 1 ||| (if record then 1 else 0)

def specialWord (target special : Int) (extended : Word) : Word :=
  extendedWord 31 target special (special / 32) extended false

def ifSet : Int := 12

def ifClear : Int := 4

/-- The branch option that counts down and branches unless zero is reached. -/
def unlessDone : Int := 16

def less : Int := 0

def equal : Int := 2

def conditionBit (field bit : Int) : Int :=
  field * 4 + bit

/-- How the operands of a mnemonic are placed in its word. -/
inductive Form where
  | fixed (word : Word)
  | raw
  | immediate (primary : Word)
  | loadImmediate (primary : Word)
  /-- The operands are target, source and immediate, the target being written second. -/
  | logicalImmediate (primary : Word)
  | displaced (primary : Word)
  | compareImmediate (primary : Word)
  | compare (extended : Word)
  | arithmetic (primary extended : Word) (record : Bool)
  /-- The operands are target and two sources, the target being written second. -/
  | logical (extended : Word)
  /-- The operands are target and one source, which is taken twice. -/
  | move (extended : Word)
  | rotate (primary : Word)
  | special (reg : Int) (extended : Word)
  /-- The operand is a condition field whose equal bit is tested. -/
  | returnIfEqual
  | service
deriving DecidableEq, Repr

/-- The word of some operands. -/
def Form.encode (form : Form) (operands : List Int) : Word :=
  let operand (index : Nat) : Int := operands.getD index 0
  match form with
  | .fixed word => word
  | .raw => bits 32 (operand 0)
  | .immediate primary => halfWord primary (operand 0) (operand 1) (operand 2)
  | .loadImmediate primary => halfWord primary (operand 0) 0 (operand 1)
  | .logicalImmediate primary => halfWord primary (operand 1) (operand 0) (operand 2)
  | .displaced primary => halfWord primary (operand 0) (operand 2) (operand 1)
  | .compareImmediate primary => halfWord primary (operand 0 * 4) (operand 1) (operand 2)
  | .compare extended => extendedWord 31 (operand 0 * 4) (operand 1) (operand 2) extended false
  | .arithmetic primary extended record =>
      extendedWord primary (operand 0) (operand 1) (operand 2) extended record
  | .logical extended => extendedWord 31 (operand 1) (operand 0) (operand 2) extended false
  | .move extended => extendedWord 31 (operand 1) (operand 0) (operand 1) extended false
  | .rotate primary =>
      extendedWord primary (operand 1) (operand 0) (operand 2) 0 false |||
        bits 5 (operand 3) <<< 6 ||| bits 5 (operand 4) <<< 1
  | .special reg extended => specialWord (operand 0) reg extended
  | .returnIfEqual => extendedWord 19 ifSet (conditionBit (operand 0) equal) 0 16 false
  | .service => (1 : Word) <<< 26 ||| bits 16 (operand 0)

/-- The known mnemonics. -/
def mnemonics : List (String × Form) :=
  [("word", .raw),
   ("addi", .immediate 14), ("addis", .immediate 15), ("li", .loadImmediate 14),
   ("lis", .loadImmediate 15), ("addic", .immediate 12), ("subfic", .immediate 8),
   ("mulli", .immediate 7), ("cmpwi", .compareImmediate 11), ("cmplwi", .compareImmediate 10),
   ("cmpw", .compare 0), ("cmplw", .compare 32),
   ("add", .arithmetic 31 266 false), ("add.", .arithmetic 31 266 true),
   ("subf", .arithmetic 31 40 false), ("adde", .arithmetic 31 138 false),
   ("mullw", .arithmetic 31 235 false), ("divw", .arithmetic 31 491 false),
   ("neg", .arithmetic 31 104 false), ("or", .logical 444), ("mr", .move 444),
   ("and", .logical 28), ("xor", .logical 316), ("ori", .logicalImmediate 24),
   ("nop", .fixed 0x60000000), ("andi.", .logicalImmediate 28), ("rlwinm", .rotate 21),
   ("slw", .logical 24), ("srawi", .logical 824), ("extsh", .logical 922),
   ("cntlzw", .logical 26), ("lwz", .displaced 32), ("lwzu", .displaced 33),
   ("lbz", .displaced 34), ("lha", .displaced 42), ("stw", .displaced 36),
   ("stwu", .displaced 37), ("stb", .displaced 38), ("lwzx", .arithmetic 31 23 false),
   ("stwx", .arithmetic 31 151 false), ("lmw", .displaced 46), ("stmw", .displaced 47),
   ("mflr", .special 8 339), ("mtlr", .special 8 467), ("mfctr", .special 9 339),
   ("mtctr", .special 9 467), ("mfcr", .arithmetic 31 19 false),
   ("cror", .arithmetic 19 449 false), ("blr", .fixed 0x4E800020), ("blrl", .fixed 0x4E800021),
   ("beqlr", .returnIfEqual), ("bctr", .fixed 0x4E800420), ("bctrl", .fixed 0x4E800421),
   ("hle", .service), ("trap", .fixed 0x7FE00008), ("sync", .fixed 0x7C0004AC)]

end Assembly
end Dynarec
