import Dynarec.Graph.Basic

/-!
# Loop depth

A taken link to the same or an earlier segment closes a loop.  The loop is
searched forward from its header, a few links deep; every segment found on a
path back to the tail lies in it.
-/

namespace Dynarec
namespace Graph

/-- The most links from the header of a loop to a segment of it. -/
def maxLoopSearch : Nat := 8

/-- The state of a search for the segments of a loop. -/
structure LoopSearch where
  met : List SegmentId
  searched : List SegmentId := []
  links : List (SegmentId × SegmentId) := []
  reached : Bool := false
deriving Repr

/-- The links that a search follows from a segment: forward ones and those to the tail. -/
def forwardLinks (graph : Graph) (tail : SegmentId) (seg : Segment) : List SegmentId :=
  seg.successors.filter fun id =>
    id = tail || seg.position < (graph.segment id).position

/-- The search for a tail, each segment of the queue with its distance from the header.  The
bound is the number of segments, each of which joins the queue at most once. -/
def searchLoop (graph : Graph) (tail : SegmentId) :
    Nat → List (SegmentId × Nat) → LoopSearch → LoopSearch
  | 0, _, search => search
  | _, [], search => search
  | bound + 1, (id, depth) :: queue, search =>
      if id = tail then graph.searchLoop tail bound queue { search with reached := true }
      else
        let segment := graph.segment id
        let search := { search with searched := search.searched ++ [id] }
        if maxLoopSearch ≤ depth || segment.uncertain then
          graph.searchLoop tail bound queue search
        else
          let next := graph.forwardLinks tail segment
          let fresh := (next.filter (· ∉ search.met)).eraseDups
          graph.searchLoop tail bound (queue ++ fresh.map (·, depth + 1))
            { search with
              met := search.met ++ fresh
              links := search.links ++ next.map (id, ·) }

/-- The segments among `candidates` from which the links lead to one of `found`.  Every round
but the last finds a candidate, so as many rounds as candidates are enough. -/
def leadingTo (links : List (SegmentId × SegmentId)) (candidates : List SegmentId) :
    Nat → List SegmentId → List SegmentId
  | 0, found => found
  | rounds + 1, found =>
      let more := candidates.filter fun id =>
        id ∉ found && links.any fun (source, destination) => source = id && destination ∈ found
      if more = [] then found else leadingTo links candidates rounds (found ++ more)

/-- The segments of the loop that a link from `tail` back to `header` closes. -/
def loopSegments (graph : Graph) (tail header : SegmentId) : List SegmentId :=
  let search := graph.searchLoop tail (graph.segments.size + 1) [(header, 0)] { met := [header] }
  if search.reached then
    leadingTo search.links search.searched search.searched.length [tail]
  else []

/-- The segments of the loop that the taken link of a segment closes. -/
def closedLoop (graph : Graph) (id : SegmentId) : List SegmentId :=
  let segment := graph.segment id
  match segment.taken with
  | none => []
  | some header =>
      if segment.uncertain then []
      else if header = id then [id]
      else if (graph.segment header).position < segment.position then
        graph.loopSegments id header
      else []

/-- Counts the loops around every segment. -/
def detectLoops (graph : Graph) : Graph :=
  let graph := graph.renumber.mapOrdered ({ · with loopDepth := 0 })
  let inLoops := graph.order.flatMap graph.closedLoop
  graph.mapOrdered fun seg => { seg with loopDepth := inLoops.count seg.id }

end Graph
end Dynarec
