import Dynarec.Allocation.Window
import Dynarec.Instruction.Text

/-!
# Allocations

A live range is the lifetime of one register across segments; all of it is
kept in one host register.  Its subranges are the parts inside one segment.
Ranges and subranges keep their numbers for good, and a number whose range was
replaced stays empty.
-/

namespace Dynarec

/-- A number of a live range. -/
abbrev RangeId := Nat

/-- A number of a subrange. -/
abbrev SubrangeId := Nat

/-- The number of a host register; a negative one stands for none. -/
abbrev HostRegister := Int

/-- The lifetime of a register across segments. -/
structure LiveRange where
  id : RangeId
  register : Register
  slot : Slot
  host : HostRegister := -1
  subranges : List SubrangeId := []
deriving DecidableEq, Repr

/-- Whether the range has a host register. -/
def LiveRange.isAssigned (range : LiveRange) : Bool :=
  0 ≤ range.host

/-- The part of a live range inside one segment. -/
structure Subrange where
  id : SubrangeId
  range : RangeId
  segment : SegmentId
  start : Position
  stop : Position
  locations : List Location := []
  taken : Option SubrangeId := none
  notTaken : Option SubrangeId := none
  /-- Whether the register need not be loaded at the start. -/
  noLoad : Bool := false
  hasStore : Bool := false
  hasDelayedStore : Bool := false
deriving DecidableEq, Repr, Inhabited

/-- Counts of the work of an allocation. -/
structure AllocationStats where
  ranges : Nat := 0
  splits : Nat := 0
  holeCuts : Nat := 0
  explodes : Nat := 0
  restarts : Nat := 0
  loads : Nat := 0
  stores : Nat := 0
  delayedStores : Nat := 0
deriving DecidableEq, Repr

/-- The live ranges of a graph and the host registers assigned to them. -/
structure Allocation where
  graph : Graph
  registers : Int
  ranges : Array (Option LiveRange) := #[]
  subranges : Array (Option Subrange) := #[]
  bySegment : Array (Array SubrangeId)
  stats : AllocationStats := {}
deriving Repr

namespace Allocation

/-- Why no allocation is made. -/
inductive Error where
  | registerCount (count : Int)
  | tooManyOperands (seg : SegmentId) (instr : Instruction Register)
      (needed : Nat) (available : Int)
  | invalidSplit (start stop index : Position)
  /-- Two live ranges hold one register at the same place. -/
  | bothHold (seg : SegmentId) (range other : RangeId) (host : HostRegister)
  | noStrategy (seg : SegmentId) (reg : Register) (start : Position)
  | noRange (reg : Register)
  | unsettled (passes : Int)
  | unassigned (range : RangeId) (reg : Register) (host : HostRegister)
  | foreignSubrange (range : RangeId) (sub : SubrangeId)
  | foreignLink (sub : SubrangeId) (range : RangeId)
  | foreignSegment (sub : SubrangeId) (seg actual : SegmentId)
  | sharedRegister (seg : SegmentId) (range other : RangeId) (host : HostRegister)
  /-- Two subranges of one register are live at the same place. -/
  | boundTwice (seg : SegmentId) (reg : Register)
  | outsideRange (seg : SegmentId) (reg : Register) (index : Position)
  /-- A subrange reaches behind the last instruction. -/
  | stillLive (seg : SegmentId) (reg : Register)
deriving DecidableEq, Repr

/-- The text of an error. -/
def Error.message : Error → String
  | .registerCount count => s!"unsupported physical register count {count}"
  | .tooManyOperands segment instr needed available =>
      s!"segment {segment}: {instr.text} needs {needed} registers, {available} available"
  | .invalidSplit start stop index => s!"split of subrange [{start},{stop}) at {index}"
  | .bothHold segment range other host =>
      s!"segment {segment}: ranges {range} and {other} both hold register {host}"
  | .noStrategy segment register start =>
      s!"segment {segment}: no spill strategy frees a register for vreg {register} at {start}"
  | .noRange register => s!"no range to explode for vreg {register}"
  | .unsettled passes => s!"register assignment did not settle after {passes} passes"
  | .unassigned range register host =>
      s!"range {range} of vreg {register} holds register {host}"
  | .foreignSubrange range subrange => s!"range {range} lists foreign subrange {subrange}"
  | .foreignLink subrange range =>
      s!"subrange {subrange} of range {range} continues into another range"
  | .foreignSegment subrange segment actual =>
      s!"subrange {subrange} listed in segment {segment} belongs to {actual}"
  | .sharedRegister segment range other host =>
      s!"segment {segment}: overlapping ranges {range} and {other} share register {host}"
  | .boundTwice segment register => s!"segment {segment}: vreg {register} bound twice"
  | .outsideRange segment register index =>
      s!"segment {segment}: vreg {register} used at {index} outside its range"
  | .stillLive segment register =>
      s!"segment {segment}: subrange of vreg {register} still live after the last instruction"

/-- An error is a broken assumption of the compiler. -/
def Error.fault (error : Error) : Fault :=
  .broken error.message

/-- An allocation without ranges. -/
def empty (graph : Graph) (registers : Int) : Allocation :=
  { graph, registers, bySegment := Array.replicate graph.segments.size #[] }

/-- The range with a number, if it was not replaced. -/
def range? (alloc : Allocation) (id : RangeId) : Option LiveRange :=
  alloc.ranges.getD id none

/-- The subrange of a number, if it was not dropped. -/
def subrange? (alloc : Allocation) (id : SubrangeId) : Option Subrange :=
  alloc.subranges.getD id none

/-- The range with a number; a number without one gives an empty range. -/
def range (alloc : Allocation) (id : RangeId) : LiveRange :=
  (alloc.range? id).getD { id, register := 0, slot := .none }

/-- The subrange of a number, empty if it was dropped. -/
def subrange (alloc : Allocation) (id : SubrangeId) : Subrange :=
  (alloc.subrange? id).getD { id, range := 0, segment := 0, start := 0, stop := 0 }

/-- The ranges that were not dropped. -/
def liveRanges (alloc : Allocation) : List LiveRange :=
  alloc.ranges.toList.filterMap id

/-- The subranges that were not dropped. -/
def liveSubranges (alloc : Allocation) : List Subrange :=
  alloc.subranges.toList.filterMap id

/-- The numbers of the subranges of a segment. -/
def idsIn (alloc : Allocation) (seg : SegmentId) : Array SubrangeId :=
  alloc.bySegment.getD seg #[]

/-- The subranges of a segment. -/
def subrangesIn (alloc : Allocation) (seg : SegmentId) : List Subrange :=
  (alloc.idsIn seg).toList.map alloc.subrange

/-- The subranges of a range. -/
def subrangesOf (alloc : Allocation) (range : LiveRange) : List Subrange :=
  range.subranges.map alloc.subrange

/-- The host register of a subrange. -/
def hostOf (alloc : Allocation) (sub : Subrange) : HostRegister :=
  (alloc.range sub.range).host

/-- The segment of a subrange. -/
def segmentOf (alloc : Allocation) (sub : Subrange) : Segment :=
  alloc.graph.segment sub.segment

/-- Changes a range, unless it was dropped. -/
def modifyRange (alloc : Allocation) (id : RangeId) (change : LiveRange → LiveRange) :
    Allocation :=
  { alloc with ranges := alloc.ranges.modify id (·.map change) }

/-- Changes a subrange, unless it was dropped. -/
def modifySubrange (alloc : Allocation) (id : SubrangeId) (change : Subrange → Subrange) :
    Allocation :=
  { alloc with subranges := alloc.subranges.modify id (·.map change) }

/-- Counts work. -/
def tally (alloc : Allocation) (change : AllocationStats → AllocationStats) : Allocation :=
  { alloc with stats := change alloc.stats }

/-- The number of the next range. -/
def nextRange (alloc : Allocation) : RangeId := alloc.ranges.size

/-- The number of the next subrange. -/
def nextSubrange (alloc : Allocation) : SubrangeId := alloc.subranges.size

/-- Adds a range without subranges. -/
def addRange (alloc : Allocation) (register : Register) (slot : Slot) : Allocation :=
  { alloc with
    ranges := alloc.ranges.push (some { id := alloc.nextRange, register, slot })
    stats := { alloc.stats with ranges := alloc.stats.ranges + 1 } }

/-- Adds a subrange to a range and to its segment. -/
def addSubrange (alloc : Allocation) (range : RangeId) (segment : SegmentId)
    (start stop : Position) (locations : List Location) : Allocation :=
  let id := alloc.nextSubrange
  let alloc := alloc.modifyRange range fun range =>
    { range with subranges := range.subranges ++ [id] }
  { alloc with
    subranges := alloc.subranges.push
      (some { id, range, segment, start, stop, locations })
    bySegment := alloc.bySegment.modify segment (·.push id) }

/-- Drops a subrange; its range still lists it. -/
def dropSubrange (alloc : Allocation) (id : SubrangeId) : Allocation :=
  let segment := (alloc.subrange id).segment
  { alloc with
    subranges := alloc.subranges.setIfInBounds id none
    bySegment := alloc.bySegment.modify segment (·.erase id) }

/-- Drops a range and its subranges. -/
def dropRange (alloc : Allocation) (id : RangeId) : Allocation :=
  let alloc := (alloc.range id).subranges.foldl dropSubrange alloc
  { alloc with ranges := alloc.ranges.setIfInBounds id none }

/-- A subrange put into a list behind those that start before it. -/
def insertByStart (alloc : Allocation) (id : SubrangeId) : List SubrangeId → List SubrangeId
  | [] => [id]
  | other :: rest =>
      if (alloc.subrange id).start ≤ (alloc.subrange other).start then id :: other :: rest
      else other :: insertByStart alloc id rest

/-- The subranges of a segment by their starts. -/
def sortedIds (alloc : Allocation) (seg : SegmentId) : List SubrangeId :=
  (alloc.idsIn seg).foldr alloc.insertByStart []

/-- Lists the subranges of a segment anew. -/
def reorder (alloc : Allocation) (seg : SegmentId) (ids : List SubrangeId) : Allocation :=
  { alloc with bySegment := alloc.bySegment.setIfInBounds seg ids.toArray }

end Allocation

namespace Subrange

/-- Whether two subranges of a segment are live at the same time.  Two that enter, or two
that leave, through the same boundary always are. -/
def overlaps (sub other : Subrange) : Bool :=
  (sub.start < other.stop && other.start < sub.stop) ||
    (sub.start = .atEntry && other.start = .atEntry) ||
    (sub.stop = .atExit && other.stop = .atExit)

/-- The distance to a use that never comes. -/
def maxDistance : Int := 2147483647

/-- The distance from a place to the next access at or behind it. -/
def untilNextUse (sub : Subrange) (index : Position) : Int :=
  match sub.locations.find? (index ≤ ·.index) with
  | some location => location.index.distance index
  | none => maxDistance

end Subrange
end Dynarec
