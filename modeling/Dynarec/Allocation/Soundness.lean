import Dynarec.Allocation.Basic

/-!
# Sound allocations

An allocation is sound if every range has a register of the host, the links of
subranges stay inside their range, and ranges that overlap hold different
registers.
-/

namespace Dynarec
namespace Allocation

/-- What is wrong with one subrange listed by a range. -/
def unsoundMember? (alloc : Allocation) (range : LiveRange) (id : SubrangeId) :
    Option Error :=
  match alloc.subrange? id with
  | none => some (.foreignSubrange range.id id)
  | some sub =>
      let inRange (link : SubrangeId) : Bool :=
        (alloc.subrange? link).any (·.range = range.id)
      if sub.range ≠ range.id then some (.foreignSubrange range.id id)
      else if (sub.taken.toList ++ sub.notTaken.toList).all inRange then none
      else some (.foreignLink id range.id)

/-- What is wrong with a range. -/
def unsoundRange? (alloc : Allocation) (range : LiveRange) : Option Error :=
  if range.isAssigned && range.host < alloc.registers then
    range.subranges.findSome? (alloc.unsoundMember? range)
  else some (.unassigned range.id range.register range.host)

/-- Two overlapping subranges in one host register. -/
def unsoundPair? (alloc : Allocation) (seg : SegmentId) (sub other : Subrange) :
    Option Error :=
  if sub.range ≠ other.range && sub.overlaps other &&
      alloc.hostOf sub = alloc.hostOf other then
    some (.sharedRegister seg sub.range other.range (alloc.hostOf sub))
  else none

/-- What is wrong with the subranges of a segment. -/
def unsoundIn? (alloc : Allocation) (seg : SegmentId) : List Subrange → Option Error
  | [] => none
  | sub :: rest =>
      if sub.segment ≠ seg then
        some (.foreignSegment sub.id seg sub.segment)
      else
        (rest.findSome? (alloc.unsoundPair? seg sub)).or
          (unsoundIn? alloc seg rest)

/-- What is wrong with an allocation. -/
def unsound? (alloc : Allocation) : Option Error :=
  (alloc.liveRanges.findSome? alloc.unsoundRange?).or
    (alloc.graph.order.findSome? fun seg =>
      alloc.unsoundIn? seg (alloc.subrangesIn seg))

end Allocation
end Dynarec
