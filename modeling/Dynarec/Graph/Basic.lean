import Dynarec.Graph.Segment

/-!
# Segment graphs

The code of one function as segments and links between them.  Segments keep
their number for good; program order is a list of numbers of its own.  Every
link is also listed at its destination.
-/

namespace Dynarec

/-- A change of the source list of one segment. -/
inductive SourceChange where
  /-- The first entry of a source is taken off. -/
  | strike (destination source : SegmentId)
  | enter (destination source : SegmentId)
deriving DecidableEq, Repr

/-- The control flow of a function. -/
structure Graph where
  entry : Address
  size : UInt32
  /-- The guest code that the function covers, inlined callees included. -/
  ranges : List AddressRange := []
  slots : List Slot := []
  order : List SegmentId := []
  segments : Array Segment := #[]
deriving Repr

namespace Graph

/-- The segment with a number; a number without one gives an empty segment. -/
def segment (graph : Graph) (id : SegmentId) : Segment :=
  graph.segments.getD id { id }

/-- Changes a segment. -/
def modify (graph : Graph) (id : SegmentId) (change : Segment → Segment) : Graph :=
  { graph with segments := graph.segments.modify id change }

/-- The segments in order. -/
def inOrder (graph : Graph) : List Segment :=
  graph.order.map graph.segment

/-- Changes every segment that is in order. -/
def mapOrdered (graph : Graph) (change : Segment → Segment) : Graph :=
  graph.order.foldl (fun graph id => graph.modify id change) graph

/-- The number of the next segment. -/
def nextId (graph : Graph) : SegmentId :=
  graph.segments.size

/-- Adds an empty segment at the end. -/
def appendSegment (graph : Graph) : Graph :=
  { graph with
    order := graph.order ++ [graph.nextId]
    segments := graph.segments.push { id := graph.nextId, position := graph.order.length } }

/-- Stores positions in the segments. -/
def renumber (graph : Graph) : Graph :=
  graph.order.zipIdx.foldl
    (fun graph (id, position) => graph.modify id ({ · with position })) graph

/-- Puts empty segments at a position. -/
def insertSegments (graph : Graph) (position count : Nat) : Graph :=
  let ids := (List.range count).map (graph.nextId + ·)
  renumber { graph with
    order := graph.order.take position ++ ids ++ graph.order.drop position
    segments := ids.foldl (fun segments id => segments.push { id }) graph.segments }

/-- Changes a source list. -/
def applyChange (graph : Graph) : SourceChange → Graph
  | .strike destination source =>
      graph.modify destination fun seg => { seg with prev := seg.prev.erase source }
  | .enter destination source =>
      graph.modify destination fun seg => { seg with prev := seg.prev ++ [source] }

/-- What happens to source lists when a link moves from one destination to another. -/
def moveChanges (source : SegmentId) (old new : Option SegmentId) : List SourceChange :=
  (old.map (SourceChange.strike · source)).toList ++ (new.map (SourceChange.enter · source)).toList

/-- Sets the link that is taken. -/
def setTaken (graph : Graph) (source : SegmentId) (destination : Option SegmentId) : Graph :=
  (moveChanges source (graph.segment source).taken destination).foldl applyChange
    (graph.modify source ({ · with taken := destination }))

/-- Sets the link that is not taken. -/
def setNotTaken (graph : Graph) (source : SegmentId) (destination : Option SegmentId) : Graph :=
  (moveChanges source (graph.segment source).notTaken destination).foldl applyChange
    (graph.modify source ({ · with notTaken := destination }))

/-- The links of one source that lead to `old` moved to `new`. -/
def relinkSource (old new : SegmentId) (graph : Graph) (source : SegmentId) : Graph :=
  let graph :=
    if (graph.segment source).taken = some old then graph.setTaken source (some new) else graph
  if (graph.segment source).notTaken = some old then graph.setNotTaken source (some new)
  else graph

/-- Makes links to a segment lead to another one. -/
def relinkInputs (graph : Graph) (old new : SegmentId) : Graph :=
  (graph.segment old).prev.foldl (relinkSource old new) graph

/-- The slot of a register. -/
def slotOf (graph : Graph) (reg : Register) : Slot :=
  if reg < 0 then .none else graph.slots.getD reg.toNat .none

/-- Whether the function covers an address. -/
def covers (graph : Graph) (address : Address) : Bool :=
  AddressRange.contains ⟨graph.entry, graph.size⟩ address ||
    graph.ranges.any (·.contains address)

/-- The depth of the innermost loop. -/
def maxLoopDepth (graph : Graph) : Nat :=
  (graph.inOrder.map (·.loopDepth)).foldl max 0

end Graph
end Dynarec
