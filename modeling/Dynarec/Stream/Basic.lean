import Dynarec.Guest.Memory

/-!
# Decoded streams

A stream is the code of one guest function before it is cut into segments: flat
instructions, with placeholders where jumps lead to and where the function can
be entered.  Each register of the stream is bound to a slot of named storage.
-/

namespace Dynarec

/-- The instructions of a function, in the order of guest code. -/
structure Stream where
  entry : Address
  size : UInt32
  instructions : Code
  /-- The decoded code, inlined callees after the function itself. -/
  ranges : List AddressRange
  slots : List Slot
  entries : List Address
deriving Repr

/-- The register bound to a slot, and the slots after binding it. -/
def bindSlot (slots : List Slot) (slot : Slot) : Register × List Slot :=
  match slots.idxOf? slot with
  | some index => (Int.ofNat index, slots)
  | none => (Int.ofNat slots.length, slots ++ [slot])

/-- The register of an operand, with a new one if needed. -/
def bindOperand (slots : List Slot) : Option Slot → Option Register × List Slot
  | none => (none, slots)
  | some slot =>
      let (reg, slots) := bindSlot slots slot
      (some reg, slots)

namespace Instruction

/-- An instruction with its slots replaced by registers, bound in the order of the operands. -/
def bind (slots : List Slot) (instr : Instruction Slot) :
    Instruction Register × List Slot :=
  let (result, slots) := bindOperand slots instr.result
  let (left, slots) := bindOperand slots instr.left
  let (right, slots) := bindOperand slots instr.right
  let (carry, slots) := bindOperand slots instr.carry
  ({ instr with result, left, right, carry }, slots)

/-- Puts registers in the place of slots. -/
def bindAll (slots : List Slot) : List (Instruction Slot) → Code × List Slot
  | [] => ([], slots)
  | instr :: rest =>
      let (instr, slots) := instr.bind slots
      let (rest, slots) := bindAll slots rest
      (instr :: rest, slots)

end Instruction
end Dynarec
