import Dynarec.Graph.Partition

/-!
# Well-formed graphs

A graph is well formed if instructions that end segments stand last, no
placeholder is left, jumps lead where the taken link does, entries have no
sources, sources are listed in full, and cycle checks resume at an entry.
-/

namespace Dynarec
namespace Graph

/-- The first misplaced instruction among those of a segment from an index on. -/
def misplaced? (seg : Segment) : Nat → Code → Option Error
  | _, [] => none
  | index, instr :: rest =>
      if instr.isSuffix && rest ≠ [] then
        some (.suffixInside seg.id index seg.length)
      else if instr.isPlaceholder then some (.placeholder seg.id)
      else misplaced? seg (index + 1) rest

/-- What is wrong with the last instruction of a segment and its taken link. -/
def misled? (graph : Graph) (seg : Segment) : Option Error :=
  match seg.last? with
  | none => none
  | some last =>
      if last.kind = .jump && last.bySegment then
        if seg.taken = none then some (.noTakenLink seg.id) else none
      else if last.kind = .jump || last.kind = .cycleCheck then
        let destinations := graph.inOrder.filter fun other =>
          other.isDestination && other.jumpAddress = last.target
        match destinations.map (·.id) with
        | [destination] =>
            if seg.taken = some destination then none
            else some (.wrongTakenLink seg.id seg.taken destination)
        | ids => some (.ambiguousTarget last.target seg.id ids.length)
      else none

/-- What is wrong with the code of a segment. -/
def malformed? (graph : Graph) (seg : Segment) : Option Error :=
  (misplaced? seg 0 seg.instructions).or <|
    (if seg.enterable && seg.prev ≠ [] then
      some (.enteredInside seg.id seg.prev.length) else none).or <|
    graph.misled? seg

/-- The number of links to a segment. -/
def incoming (graph : Graph) (id : SegmentId) : Nat :=
  (graph.inOrder.flatMap Segment.successors).count id

/-- What is wrong with the listed sources of a segment. -/
def miscounted? (graph : Graph) (seg : Segment) : Option Error :=
  let actual := graph.incoming seg.id
  if actual = seg.prev.length then none
  else some (.predecessorCount seg.id seg.prev.length actual)

/-- A cycle check that does not leave for an entry. -/
def misresumed? (graph : Graph) (seg : Segment) : Option Error :=
  match seg.last? with
  | none => none
  | some last =>
      if last.kind ≠ .cycleCheck then none
      else
        match seg.notTaken with
        | none => some (.noLeave seg.id)
        | some leaveId =>
            match (graph.segment leaveId).last? with
            | none => some (.notLeave seg.id)
            | some leave =>
                if leave.kind ≠ .routine || leave.routine ≠ .leave then
                  some (.notLeave seg.id)
                else if graph.inOrder.any fun other =>
                    other.enterable && other.enterAddress = leave.param then none
                else some (.unknownResume seg.id leave.param)

/-- Why the graph is not valid. -/
def error? (graph : Graph) : Option Error :=
  (graph.inOrder.findSome? graph.malformed?).or <|
    (graph.inOrder.findSome? graph.miscounted?).or <|
    graph.inOrder.findSome? graph.misresumed?

end Graph
end Dynarec
