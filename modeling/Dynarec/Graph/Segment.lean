import Dynarec.Guest.Memory

/-!
# Segments

A segment is a straight run of instructions with at most one jump, check or
exit, which stands last.  Points are places in a segment that follow their
instruction when others are inserted or removed; two sentinel places stand for
the boundaries and never move.
-/

namespace Dynarec

/-- A number of a segment. -/
abbrev SegmentId := Nat

/-- A place among the instructions of a segment. -/
abbrev Position := Int

namespace Position

/-- The place that stands for the entry boundary of a segment. -/
def atEntry : Position := -1

/-- The place that stands for the exit boundary of a segment. -/
def atExit : Position := 0x7FFF

/-- Whether a position stands for a boundary. -/
def isSentinel (position : Position) : Bool :=
  position = atEntry || position = atExit

/-- A number as a place; places are signed 64-bit numbers. -/
def wrap (number : Int) : Position :=
  (Int64.ofInt number).toInt

/-- The distance to a place from one before it. -/
def distance (position origin : Position) : Int :=
  wrap (position - origin)

/-- Where a place is found after `count` instructions were inserted at `index`. -/
def afterInsert (index : Int) (count : Nat) (position : Position) : Position :=
  if !position.isSentinel && index ≤ position then wrap (position + count) else position

/-- Where a place is found after the `count` instructions from `index` on were removed. -/
def afterRemove (index : Int) (count : Nat) (position : Position) : Position :=
  if position.isSentinel || position < index then position
  else if index + count ≤ position then position - count
  else index

end Position

/-- A place that moves with the code around it. -/
structure Point where
  id : Nat
  position : Position
  /-- Whether the point still follows its instruction. -/
  attached : Bool := true
deriving DecidableEq, Repr

/-- Code that is entered at its start and left at its end. -/
structure Segment where
  id : SegmentId
  position : Nat := 0
  instructions : Code := []
  /-- The lowest guest address of the instructions, zero if all are synthesized. -/
  lowest : Address := 0
  highest : Address := 0
  enterable : Bool := false
  enterAddress : Address := 0
  isDestination : Bool := false
  jumpAddress : Address := 0
  taken : Option SegmentId := none
  notTaken : Option SegmentId := none
  prev : List SegmentId := []
  /-- Whether control leaves the function in a way that links do not show. -/
  uncertain : Bool := false
  loopDepth : Nat := 0
  points : List Point := []
deriving Repr

namespace Segment

/-- Whether an instruction has a guest address. -/
def hasAddresses (seg : Segment) : Bool :=
  seg.lowest ≠ 0 || seg.highest ≠ 0

/-- The number of instructions. -/
def length (seg : Segment) : Nat :=
  seg.instructions.length

/-- The last instruction. -/
def last? (seg : Segment) : Option (Instruction Register) :=
  seg.instructions.getLast?

/-- The number of instructions that end the segment: one or none. -/
def suffixCount (seg : Segment) : Nat :=
  match seg.last? with
  | some last => if last.isSuffix then 1 else 0
  | none => 0

/-- The linked segments, the taken one first. -/
def successors (seg : Segment) : List SegmentId :=
  seg.taken.toList ++ seg.notTaken.toList

/-- A place moved if the point is still attached. -/
def movePoint (move : Position → Position) (point : Point) : Point :=
  if point.attached then { point with position := move point.position } else point

/-- Adds a point that is attached. -/
def addPoint (seg : Segment) (id : Nat) (position : Position) : Segment :=
  { seg with points := seg.points ++ [{ id, position }] }

/-- Detaches a point. -/
def detachPoint (seg : Segment) (id : Nat) : Segment :=
  { seg with
    points := seg.points.map fun point =>
      if point.id = id then { point with attached := false } else point }

/-- Detaches all points. -/
def detachPoints (seg : Segment) : Segment :=
  { seg with points := seg.points.map fun point => { point with attached := false } }

/-- Instructions inserted at an index; later instructions and points shift. -/
def insert (seg : Segment) (index : Nat) (code : Code) : Segment :=
  { seg with
    instructions := seg.instructions.take index ++ code ++ seg.instructions.drop index
    points := seg.points.map (movePoint (·.afterInsert index code.length)) }

/-- Inserts instructions that do nothing. -/
def insertNoOps (seg : Segment) (index count : Nat) : Segment :=
  seg.insert index (List.replicate count .noOp)

/-- Puts code at the end. -/
def append (seg : Segment) (code : Code) : Segment :=
  { seg with instructions := seg.instructions ++ code }

/-- The `count` instructions from an index on removed.  Points among them move to the index. -/
def remove (seg : Segment) (index count : Nat) : Segment :=
  { seg with
    instructions := seg.instructions.take index ++ seg.instructions.drop (index + count)
    points := seg.points.map (movePoint (·.afterRemove index count)) }

/-- The guest addresses of the instructions, synthesized ones left out. -/
def addresses (seg : Segment) : List Address :=
  (seg.instructions.map (·.address)).filter (· ≠ 0)

/-- Finds the lowest and the highest address anew. -/
def refreshAddresses (seg : Segment) : Segment :=
  let addresses := seg.addresses
  { seg with
    lowest := addresses.min?.getD 0
    highest := addresses.max?.getD 0 }

end Segment
end Dynarec
