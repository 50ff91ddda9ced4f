/-!
# Named storage slots

A slot is a place in named storage: a guest general purpose register, a guest
special purpose register, the carry bit or a compiler temporary.  Named storage
persists across calls into compiled code.
-/

namespace Dynarec

/-- A place in named storage, identified by its number. -/
structure Slot where
  number : UInt32
deriving DecidableEq, Repr

namespace Slot

/-- No slot. -/
def none : Slot := ⟨0⟩

/-- A slot of the compiler. -/
def temporary (index : UInt32) : Slot := ⟨1000 + index⟩

/-- A general register. -/
def gpr (index : UInt32) : Slot := ⟨2000 + index⟩

/-- A special register. -/
def spr (index : UInt32) : Slot := ⟨3000 + index⟩

/-- The link register. -/
def link : Slot := spr 8

/-- The count register. -/
def count : Slot := spr 9

/-- The carry bit. -/
def carry : Slot := ⟨4100⟩

/-- Whether the slot is a general register. -/
def isGpr (slot : Slot) : Bool :=
  2000 ≤ slot.number && slot.number < 2032

/-- The name of a slot. -/
def text (slot : Slot) : String :=
  let n := slot.number
  if slot = none then "none"
  else if slot = carry then "xer.ca"
  else if slot.isGpr then s!"r{(n - 2000).toNat}"
  else if slot = link then "lr"
  else if slot = count then "ctr"
  else if 3000 ≤ n && n < 4024 then s!"spr{(n - 3000).toNat}"
  else if 1000 ≤ n && n < 2000 then s!"tmp{(n - 1000).toNat}"
  else s!"name{n.toNat}"

end Slot
end Dynarec
