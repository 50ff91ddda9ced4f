import Dynarec.Allocation.Basic

/-!
# Formation of live ranges

Windows of one register that meet at a boundary belong to one live range.  The
ranges are the connected components of the windows.
-/

namespace Dynarec
namespace Liveness

/-- The segments whose windows of a register meet the window in a segment. -/
def neighbours (liveness : Liveness) (reg : Nat) (id : SegmentId) : List SegmentId :=
  let segment := liveness.graph.segment id
  let window := liveness.window id reg
  let following := segment.successors.filter fun other =>
    (liveness.window other reg).start = .atEntry
  let preceding := segment.prev.filter fun other =>
    (liveness.window other reg).stop = .atExit
  (if window.stop = .atExit then following else []) ++
    (if window.start = .atEntry then preceding else [])

/-- An allocation whose ranges are being formed. -/
structure Forming where
  allocation : Allocation
  /-- The subranges of the windows taken up, by segment and register. -/
  members : Array (Array (Option SubrangeId))

/-- The subrange that a window became. -/
def Forming.member? (forming : Forming) (id : SegmentId) (reg : Nat) : Option SubrangeId :=
  (forming.members.getD id #[]).getD reg none

/-- The window of a register in a segment as a subrange of the newest range. -/
def addWindow (liveness : Liveness) (reg : Nat) (forming : Forming) (id : SegmentId) :
    Forming :=
  let window := liveness.window id reg
  let locations := (liveness.graph.segment id).locations (Int.ofNat reg)
  let sub := forming.allocation.nextSubrange
  { allocation := forming.allocation.addSubrange (forming.allocation.nextRange - 1) id
      window.start window.stop locations
    members := forming.members.modify id (·.setIfInBounds reg (some sub)) }

/-- Whether a window is not taken up yet. -/
def isOpen (liveness : Liveness) (reg : Nat) (forming : Forming) (id : SegmentId) : Bool :=
  (liveness.window id reg).isDefined && (forming.member? id reg).isNone

/-- The newest range grown by the windows of a register in the segments still to be looked
at, the one pushed last first, and by all that they meet.  The bound is the number of links,
each of which is followed at most once in each direction. -/
def grow (liveness : Liveness) (reg : Nat) : Nat → List SegmentId → Forming → Forming
  | 0, _, forming => forming
  | _, [], forming => forming
  | bound + 1, id :: work, forming =>
      if liveness.isOpen reg forming id then
        liveness.grow reg bound ((liveness.neighbours reg id).reverse ++ work)
          (liveness.addWindow reg forming id)
      else liveness.grow reg bound work forming

/-- A bound for the steps of a search along links. -/
def linkBound (graph : Graph) : Nat :=
  graph.segments.foldl (fun bound seg => bound + 2 + seg.prev.length) 1

/-- The continuation of a subrange in a linked segment. -/
def continuation (liveness : Liveness) (reg : Nat) (forming : Forming)
    (link : Option SegmentId) : Option SubrangeId :=
  link.bind fun id =>
    if (liveness.window id reg).start = .atEntry then forming.member? id reg
    else none

/-- Tells a subrange what continues it. -/
def linkSubrange (liveness : Liveness) (reg : Nat) (forming : Forming) (id : SubrangeId) :
    Forming :=
  let subrange := forming.allocation.subrange id
  if subrange.stop ≠ .atExit then forming
  else
    let segment := liveness.graph.segment subrange.segment
    let taken := liveness.continuation reg forming segment.taken
    let notTaken := liveness.continuation reg forming segment.notTaken
    { forming with
      allocation := forming.allocation.modifySubrange id ({ · with taken, notTaken }) }

/-- Forms the range of a window that is open. -/
def formRange (liveness : Liveness) (bound : Nat) (forming : Forming) (id : SegmentId)
    (reg : Nat) : Forming :=
  if liveness.isOpen reg forming id then
    let slot := liveness.graph.slotOf (Int.ofNat reg)
    let range := forming.allocation.nextRange
    let forming := liveness.grow reg bound [id]
      { forming with allocation := forming.allocation.addRange (Int.ofNat reg) slot }
    (forming.allocation.range range).subranges.foldl (liveness.linkSubrange reg) forming
  else forming

/-- Forms the ranges of all windows. -/
def buildRanges (liveness : Liveness) (allocation : Allocation) : Allocation :=
  let bound := linkBound liveness.graph
  let members := Array.replicate liveness.graph.segments.size
    (Array.replicate liveness.graph.slots.length none)
  (liveness.graph.order.foldl (fun forming id =>
    liveness.registers.foldl (liveness.formRange bound · id ·) forming)
    ({ allocation, members } : Forming)).allocation

end Liveness
end Dynarec
