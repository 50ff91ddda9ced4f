import Dynarec.Allocation.Cost

/-!
# Synchronisation with named storage

Which subranges load their register at the start and store it at the end.  A
store at the exit of a segment may be delayed to the places where the range
ends, if that is no more expensive.
-/

namespace Dynarec

namespace Subrange

/-- Whether a write comes before all reads. -/
def writesFirst : List Location → Bool
  | [] => false
  | location :: rest =>
      if location.read then false
      else location.write || writesFirst rest

/-- The loads and stores that the accesses of a subrange call for. -/
def sync (sub : Subrange) : Subrange :=
  { sub with
    noLoad := writesFirst sub.locations || sub.start = .atEntry
    hasStore := sub.locations.any (·.write) }

end Subrange

namespace Allocation

/-- The most segments walked from a store to the end of its range. -/
def maxEndingDepth : Nat := 30

/-- The most places that a store is delayed to. -/
def maxEndings : Nat := 128

/-- The continuations of a subrange, each with the link of the segment that leads there. -/
def continuations (alloc : Allocation) (sub : Subrange) :
    List (Option SegmentId × Option SubrangeId) :=
  let segment := alloc.segmentOf sub
  [(segment.taken, sub.taken), (segment.notTaken, sub.notTaken)].filter
    (·.1.isSome)

/-- The subranges where the value of a range ends, from those still to be looked at.  The
bound is the number of continuations.  There is no answer if a path leaves the range at a
boundary or is too long, or if there are too many ends. -/
def endings (alloc : Allocation) :
    Nat → List (SubrangeId × Nat) → List SubrangeId → List SubrangeId → Option (List SubrangeId)
  | 0, _, _, found => some found
  | _, [], _, found => some found
  | bound + 1, (id, depth) :: work, visited, found =>
      let subrange := alloc.subrange id
      if maxEndingDepth ≤ depth then none
      else if id ∈ visited then alloc.endings bound work visited found
      else if subrange.hasDelayedStore then
        alloc.endings bound work (id :: visited) found
      else if subrange.stop ≠ .atExit then
        if maxEndings ≤ found.length then none
        else alloc.endings bound work (id :: visited) (found ++ [id])
      else
        let next := alloc.continuations subrange
        if next.any (·.2.isNone) then none
        else
          alloc.endings bound ((next.filterMap (·.2)).map (·, depth + 1) ++ work)
            (id :: visited) found

/-- The subranges where the value of a subrange ends. -/
def writeEndings (alloc : Allocation) (id : SubrangeId) : Option (List SubrangeId) :=
  alloc.endings (2 * alloc.subranges.size + 2) [(id, 0)] [] []

/-- The store of a subrange that leaves its segment moved to the ends of its range, if that is
no more expensive or they store anyway. -/
def delayStore (alloc : Allocation) (id : SubrangeId) : Allocation :=
  let subrange := alloc.subrange id
  if subrange.stop ≠ .atExit || !subrange.hasStore then alloc
  else
    match alloc.writeEndings id with
    | none => alloc
    | some endings =>
        let storeless := (endings.map alloc.subrange).filter (!·.hasStore)
        let cost := (storeless.map alloc.costAt).foldl max 0
        if storeless = [] || cost ≤ alloc.costAt subrange then
          let alloc := endings.foldl
            (·.modifySubrange · ({ · with hasStore := true })) alloc
          (alloc.modifySubrange id
            ({ · with hasStore := false, hasDelayedStore := true })).tally
            fun stats => { stats with delayedStores := stats.delayedStores + 1 }
        else alloc

/-- The subranges of all ranges. -/
def memberIds (alloc : Allocation) : List SubrangeId :=
  alloc.liveRanges.flatMap (·.subranges)

/-- Decides on loads and stores. -/
def analyzeSync (alloc : Allocation) : Allocation :=
  let alloc := alloc.memberIds.foldl (·.modifySubrange · Subrange.sync) alloc
  alloc.memberIds.foldl delayStore alloc

end Allocation
end Dynarec
