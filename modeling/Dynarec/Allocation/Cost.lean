import Dynarec.Allocation.Basic

/-!
# Cost of loads and stores

Loads and stores weigh more inside loops.  The cost of spilling compares the
loads and stores that it adds with those of the range as it is.
-/

namespace Dynarec
namespace Allocation

/-- The weight of one load or store in a segment. -/
def accessCost (seg : Segment) : Int :=
  let weight : Int := (seg.loopDepth + 1) * 5
  weight * weight

/-- The cost of an access in the segment of a subrange. -/
def costAt (alloc : Allocation) (sub : Subrange) : Int :=
  accessCost (alloc.segmentOf sub)

/-- The loads and stores of a range, weighed by the most expensive of each. -/
def estimateCost (alloc : Allocation) (range : LiveRange) : Int :=
  let subranges := alloc.subrangesOf range
  let loading := subranges.filter (·.start ≠ .atEntry)
  let storing := subranges.filter (·.stop ≠ .atExit)
  (loading.map alloc.costAt).foldl max 0 + (storing.map alloc.costAt).foldl max 0 +
    ((loading.length + storing.length) / 10 : Nat)

/-- What replacing a range by local ones costs. -/
def explodeCost (alloc : Allocation) (range : LiveRange) : Int :=
  (((alloc.subrangesOf range).filter (·.locations ≠ [])).map
    (2 * alloc.costAt ·)).foldl (· + ·) (-alloc.estimateCost range)

/-- What splitting a subrange at a place costs. -/
def splitCost (alloc : Allocation) (sub : Subrange) (index : Position) : Int :=
  match sub.locations.head?, sub.locations.getLast? with
  | some first, some last =>
      if first.index < index && index ≤ last.index then 2 * alloc.costAt sub else 0
  | _, _ => 0

/-- The registers of the host, at most thirty-two; a negative number of them is no limit. -/
def hostRegisters (alloc : Allocation) : List HostRegister :=
  let count := if alloc.registers < 0 then 32 else min alloc.registers.toNat 32
  (List.range count).map Int.ofNat

/-- The registers that no range holds which overlaps the given one. -/
def allowed (alloc : Allocation) (range : LiveRange) : List HostRegister :=
  let held := (alloc.subrangesOf range).flatMap fun sub =>
    ((alloc.idsIn sub.segment).filterMap fun id =>
      let other := alloc.subrange id
      if id ≠ sub.id && sub.overlaps other then some (alloc.hostOf other)
      else none).toList
  alloc.hostRegisters.filter (· ∉ held)

/-- The distance from a place to the next subrange that holds a register, zero if one does
at the place itself. -/
def untilNextHost (alloc : Allocation) (seg : SegmentId) (index : Position)
    (host : HostRegister) : Int :=
  let holders := (alloc.subrangesIn seg).filter fun sub =>
    alloc.hostOf sub = host
  if holders.any fun sub => sub.start ≤ index && index < sub.stop then 0
  else
    ((holders.filter (index ≤ ·.start)).map (·.start.distance index)).foldl min Subrange.maxDistance

end Allocation
end Dynarec
