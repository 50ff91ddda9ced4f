import Dynarec.Assembly.Mnemonic
import Dynarec.Guest.Memory
import Dynarec.Text.Quoted

/-!
# Assembly programs

A program is a list of words from a base address on, some of which are branches
to labels.  Labels are resolved when the words are asked for.
-/

namespace Dynarec
namespace Assembly

/-- A word, or a branch to a label. -/
inductive Line where
  | word (word : Word)
  | branch (label : String) (links : Bool)
  | branchIf (label : String) (option bit : Int)
deriving DecidableEq, Repr

/-- The lines that were assembled so far. -/
structure Program where
  base : Address
  lines : List Line := []
  /-- The labels and their addresses, the latest first. -/
  labels : List (String × Address) := []
deriving DecidableEq, Repr

/-- Why a label gives no word. -/
inductive Error where
  | undefined (label : String)
  | outOfRange (label : String)
deriving DecidableEq, Repr

def Error.message : Error → String
  | .undefined label => s!"undefined label {quoted label}"
  | .outOfRange label => s!"branch to {quoted label} out of range"

def Error.fault (error : Error) : Fault :=
  .plain error.message

namespace Program

def addressOf (program : Program) (index : Nat) : Address :=
  program.base + UInt32.ofNat index * 4

def here (program : Program) : Address :=
  program.addressOf program.lines.length

def append (program : Program) (line : Line) : Program :=
  { program with lines := program.lines ++ [line] }

/-- Sets a label. -/
def label (program : Program) (name : String) : Program :=
  { program with labels := (name, program.here) :: program.labels }

def branchTo (program : Program) (target : Address) (links : Bool) : Program :=
  program.append (.word ((18 : Word) <<< 26 ||| ((target - program.here) &&& 0x03FFFFFC) |||
    (if links then 1 else 0)))

/-- The branch mnemonics that take a condition field, with their option and bit. -/
def conditionBranches : List (String × Int × Int) :=
  [("beq", ifSet, equal), ("bne", ifClear, equal), ("blt", ifSet, less), ("bge", ifClear, less)]

/-- A program with the instruction of a mnemonic, which may branch to a label.  An unknown
mnemonic changes nothing. -/
def emit (program : Program) (mnemonic : String) (operands : List Int) (label : String) :
    Program :=
  match mnemonic with
  | "b" => program.append (.branch label false)
  | "bl" => program.append (.branch label true)
  | "bc" => program.append (.branchIf label (operands.getD 0 0) (operands.getD 1 0))
  | "bdnz" => program.append (.branchIf label unlessDone 0)
  | _ =>
      match conditionBranches.lookup mnemonic, mnemonics.lookup mnemonic with
      | some (option, bit), _ =>
          program.append (.branchIf label option (conditionBit (operands.getD 0 0) bit))
      | none, some form => program.append (.word (form.encode operands))
      | none, none => program

def distance (program : Program) (index : Nat) (label : String) : Except Error Word :=
  match program.labels.lookup label with
  | some target => .ok (target - program.addressOf index)
  | none => .error (.undefined label)

def fits (distance : Word) : Bool :=
  -0x8000 ≤ distance.toInt32.toInt && distance.toInt32.toInt ≤ 0x7FFC

/-- The word of a line. -/
def resolve (program : Program) (line : Line) (index : Nat) : Except Error Word :=
  match line with
  | .word word => .ok word
  | .branch label links => do
      let distance ← program.distance index label
      return (18 : Word) <<< 26 ||| (if links then 1 else 0) ||| (distance &&& 0x03FFFFFC)
  | .branchIf label option bit => do
      let distance ← program.distance index label
      if fits distance then
        return (16 : Word) <<< 26 ||| bits 5 option <<< 21 ||| bits 5 bit <<< 16 ||| (distance &&& 0xFFFC)
      else .error (.outOfRange label)

/-- The words of a program. -/
def words (program : Program) : Except Error (List Word) :=
  program.lines.zipIdx.mapM fun (line, index) => program.resolve line index

/-- The program written into an image at its base.  Words before a failing one stay written. -/
def writeTo (program : Program) (image : Image) : Image × Except Fault Unit :=
  match program.words with
  | .error error => (image, .error error.fault)
  | .ok words =>
      let (image, done) := image.assemble program.base words
      (image, done.mapError Image.Error.fault)

/-- The image of a program, with some room behind it. -/
def image (program : Program) : Except Fault Image :=
  let size := UInt32.ofNat program.lines.length * 4 + 64
  let (image, done) := program.writeTo (.zeroed program.base size)
  done.map fun _ => image

end Program
end Assembly
end Dynarec
