import Dynarec.Graph.Basic
import Dynarec.Instruction.Usage

/-!
# Liveness windows

The window of a register in a segment reaches from its first access to just
behind its last one.  Windows of one register that lie close to each other
along the links of a graph are joined across segment boundaries; a joined side
of a window is a boundary place.
-/

namespace Dynarec

/-- An access of a register in a segment. -/
structure Location where
  index : Position
  read : Bool
  write : Bool
deriving DecidableEq, Repr, Inhabited

namespace Segment

/-- The instructions before the one that ends the segment. -/
def body (seg : Segment) : Code :=
  seg.instructions.takeWhile (!·.isSuffix)

/-- The accesses of a register in a segment. -/
def locations (seg : Segment) (reg : Register) : List Location :=
  seg.body.zipIdx.filterMap fun (instr, index) =>
    (instr.accesses.find? (·.register = reg)).map fun access =>
      { index := index, read := access.read, write := access.write }

end Segment

/-- The part of a segment in which a register is kept. -/
structure Window where
  start : Position
  stop : Position
deriving DecidableEq, Repr

namespace Window

/-- The window of a register that a segment does not keep. -/
def undefined : Window := ⟨2147483647, -2147483648⟩

/-- Whether the register is kept at all. -/
def isDefined (window : Window) : Bool :=
  window.start ≠ undefined.start

/-- The window, extended to the exit. -/
def toExit (window : Window) : Window :=
  ⟨if window.isDefined then window.start else .atExit, .atExit⟩

/-- The window, extended to the entry. -/
def fromEntry (window : Window) : Window :=
  ⟨.atEntry, if window.isDefined then window.stop else .atEntry⟩

/-- The window of accesses in order. -/
def ofLocations (locations : List Location) : Window :=
  match locations.head?, locations.getLast? with
  | some first, some last => ⟨first.index, last.index + 1⟩
  | _, _ => undefined

end Window

/-- Where each register is kept in each segment. -/
structure Liveness where
  graph : Graph
  windows : Array (Array Window)
deriving Repr

namespace Liveness

/-- The windows that just cover the accesses in each segment. -/
def ofGraph (graph : Graph) : Liveness where
  graph := graph
  windows := graph.segments.map fun seg =>
    (Array.range graph.slots.length).map fun reg =>
      .ofLocations (seg.locations (Int.ofNat reg))

/-- The window of a register in a segment. -/
def window (liveness : Liveness) (id : SegmentId) (reg : Nat) : Window :=
  (liveness.windows.getD id #[]).getD reg .undefined

/-- Changes the window of a register in a segment. -/
def modify (liveness : Liveness) (id : SegmentId) (reg : Nat)
    (change : Window → Window) : Liveness :=
  { liveness with windows := liveness.windows.modify id (·.modify reg change) }

/-- All registers of the graph. -/
def registers (liveness : Liveness) : List Nat :=
  List.range liveness.graph.slots.length

/-- Keeps a register up to the exit. -/
def extendToExit (liveness : Liveness) (reg : Nat) (id : SegmentId) : Liveness :=
  liveness.modify id reg Window.toExit

/-- A register kept from the entry of a segment on, and so up to the exit of its sources. -/
def extendToEntry (liveness : Liveness) (reg : Nat) (id : SegmentId) : Liveness :=
  (liveness.graph.segment id).prev.foldl (·.extendToExit reg ·)
    (liveness.modify id reg Window.fromEntry)

/-- Keeps a register along the rest of a route. -/
def connectRest (liveness : Liveness) (reg : Nat) : List SegmentId → Liveness
  | [] => liveness
  | [last] => liveness.extendToEntry reg last
  | id :: rest =>
      ((liveness.extendToExit reg id).extendToEntry reg id).connectRest reg rest

/-- A register kept all along a route, from the exit of its first segment on. -/
def connect (liveness : Liveness) (reg : Nat) : List SegmentId → Liveness
  | [] => liveness
  | first :: rest => (liveness.extendToExit reg first).connectRest reg rest

/-- A segment to search, and the way that led to it. -/
structure RouteItem where
  segment : SegmentId
  left : Int
  route : List SegmentId
deriving Repr

/-- The most instructions between two windows that are joined. -/
def maxCloseDistance : Int := 45

/-- The most segments on a route between two windows that are joined. -/
def maxRouteDepth : Nat := 64

/-- The most steps of a search for routes. -/
def maxRouteSteps : Nat := 4096

/-- The segments behind a segment, the one that is fallen through to first. -/
def behind (seg : Segment) (left : Int) (route : List SegmentId) : List RouteItem :=
  (seg.notTaken.toList ++ seg.taken.toList).map fun id => ⟨id, left, route⟩

/-- Whether a route reaches a window before it is too long. -/
def isClose (window : Window) (item : RouteItem) (length : Int) : Bool :=
  if window.start = .atExit then length ≤ item.left
  else window.start = .atEntry || window.start ≤ item.left

/-- The search for further windows of a register.  Every route that is found is connected. -/
def search (reg : Nat) : Nat → List RouteItem → Liveness → Liveness
  | 0, _, liveness => liveness
  | _, [], liveness => liveness
  | steps + 1, item :: work, liveness =>
      if maxRouteDepth ≤ item.route.length then search reg steps work liveness
      else
        let segment := liveness.graph.segment item.segment
        let route := item.route ++ [item.segment]
        let window := liveness.window item.segment reg
        if !window.isDefined then
          let left := item.left - segment.length
          if 0 < left && item.segment ∉ item.route then
            search reg steps (behind segment left route ++ work) liveness
          else search reg steps work liveness
        else if isClose window item segment.length then
          search reg steps work (liveness.connect reg route)
        else search reg steps work liveness

/-- A register kept between its window in a segment and windows close behind it. -/
def tryExtend (liveness : Liveness) (id : SegmentId) (reg : Nat) : Liveness :=
  let segment := liveness.graph.segment id
  let window := liveness.window id reg
  let tail : Int := if window.stop = .atExit then 0 else segment.length - window.stop
  let left := maxCloseDistance - tail
  if window.stop = .atEntry || left ≤ 0 then liveness
  else search reg maxRouteSteps (behind segment left [id]) liveness

/-- The segments met from a queue, breadth first.  The bound is the number of segments, each
of which joins the queue at most once. -/
def breadthFirst (graph : Graph) : Nat → List SegmentId → List SegmentId → List SegmentId
  | 0, _, met => met
  | _, [], met => met
  | bound + 1, id :: queue, met =>
      let segment := graph.segment id
      let fresh :=
        ((segment.notTaken.toList ++ segment.taken.toList).filter (· ∉ met)).eraseDups
      breadthFirst graph bound (queue ++ fresh) (met ++ fresh)

/-- The segments reachable from those without sources, in the order of the walk. -/
def reachable (graph : Graph) : List SegmentId :=
  graph.order.foldl (fun met id =>
    if (graph.segment id).prev = [] && id ∉ met then
      breadthFirst graph (graph.segments.size + 1) [id] (met ++ [id])
    else met) []

/-- Joins the windows of a segment with close ones. -/
def mergeSegment (liveness : Liveness) (id : SegmentId) : Liveness :=
  liveness.registers.foldl (fun liveness reg =>
    if (liveness.window id reg).isDefined then liveness.tryExtend id reg
    else liveness) liveness

/-- Joins windows that are close. -/
def mergeClose (liveness : Liveness) : Liveness :=
  (reachable liveness.graph).foldl mergeSegment liveness

/-- What is live at the exit of a loop segment kept into the segments outside the loop. -/
def leaveLoop (liveness : Liveness) (id : SegmentId) : Liveness :=
  let segment := liveness.graph.segment id
  let exits := segment.successors.filter fun successor =>
    (liveness.graph.segment successor).loopDepth < segment.loopDepth
  liveness.registers.foldl (fun liveness reg =>
    if (liveness.window id reg).stop = .atExit then
      exits.foldl (·.extendToEntry reg ·) liveness
    else liveness) liveness

/-- Keeps registers into the segments outside of loops. -/
def extendOutOfLoops (liveness : Liveness) : Liveness :=
  liveness.graph.order.foldl leaveLoop liveness

end Liveness
end Dynarec
