import Dynarec.Graph.Loop

/-!
# Edges into joins

Where paths join, the loads and stores of one path need a place of their own.
An empty segment on every fall through that leads to a join gives them one.
-/

namespace Dynarec
namespace Graph

/-- Whether a branch falls into a segment with more sources. -/
def fallsIntoJoin (graph : Graph) (seg : Segment) : Bool :=
  match seg.taken, seg.notTaken with
  | some _, some next =>
      let next := graph.segment next
      !seg.uncertain && 1 < next.prev.length && !next.enterable
  | _, _ => false

/-- An empty segment put on the fall through of a segment that leads to a join. -/
def splitJoinEdge (graph : Graph) (id : SegmentId) : Graph :=
  let segment := graph.segment id
  if graph.fallsIntoJoin segment then
    let edge := graph.nextId
    let graph := graph.insertSegments (segment.position + 1) 1
    (graph.setNotTaken id (some edge)).setNotTaken edge segment.notTaken
  else graph

/-- Puts a segment on every such edge. -/
def splitJoinEdges (graph : Graph) : Graph :=
  (graph.order.foldl splitJoinEdge graph).detectLoops

end Graph
end Dynarec
