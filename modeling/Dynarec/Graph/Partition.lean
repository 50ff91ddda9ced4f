import Dynarec.Graph.Basic
import Dynarec.Stream.Basic

/-!
# Partition of a stream

A stream is cut after every instruction that ends a segment and before every
placeholder that follows another instruction.  Placeholders become properties of
the segment that they precede, and the last instruction of a segment gives its
links.
-/

namespace Dynarec
namespace Graph

/-- The addresses that jumps lead to. -/
def jumpTargets (code : Code) : List Address :=
  (code.filter fun instr => instr.kind = .jump && !instr.bySegment).map
    (·.target)

/-- The code without jumpmarks that no jump uses. -/
def dropUnusedJumpmarks (code : Code) : Code :=
  let targets := jumpTargets code
  code.filter fun instr =>
    !(instr.kind = .jumpmark && instr.target ∉ targets)

/-- Whether an instruction belongs to the segment of the one before it. -/
def joins (previous instr : Instruction Register) : Bool :=
  previous.isPlaceholder || (!previous.isSuffix && !instr.isPlaceholder)

/-- The code cut into the runs that become segments. -/
def runs (code : Code) : List Code :=
  code.splitBy joins

/-- A segment with the property that a placeholder in front of it stands for. -/
def marked (seg : Segment) (instr : Instruction Register) : Segment :=
  match instr.kind with
  | .jumpmark => { seg with isDestination := true, jumpAddress := instr.target }
  | .enter => { seg with enterable := true, enterAddress := instr.param }
  | _ => seg

/-- A run as a new segment at the end of program order. -/
def addRun (graph : Graph) (run : Code) : Graph :=
  graph.appendSegment.modify graph.nextId fun seg =>
    (run.foldl marked seg).append (run.filter (!·.isPlaceholder))

/-- Cuts code into segments. -/
def cut (graph : Graph) (code : Code) : Graph :=
  ((runs code).foldl addRun graph).mapOrdered Segment.refreshAddresses

/-- Why a graph is not valid. -/
inductive Error where
  | noDestination (target : Address)
  | suffixInside (seg : SegmentId) (index length : Nat)
  | placeholder (seg : SegmentId)
  | enteredInside (seg : SegmentId) (predecessors : Nat)
  | noTakenLink (seg : SegmentId)
  /-- The target of a jump does not name exactly one segment. -/
  | ambiguousTarget (target : Address) (seg : SegmentId) (count : Nat)
  | wrongTakenLink (seg : SegmentId) (taken : Option SegmentId) (target : SegmentId)
  | predecessorCount (seg : SegmentId) (listed actual : Nat)
  | noLeave (seg : SegmentId)
  | notLeave (seg : SegmentId)
  /-- The exit of a cycle check resumes where no segment can be entered. -/
  | unknownResume (seg : SegmentId) (address : Address)
deriving DecidableEq, Repr

/-- The text of an error. -/
def Error.message : Error → String
  | .noDestination target => s!"jump to {Hex.word target} has no destination segment"
  | .suffixInside segment index length =>
      s!"segment {segment} has suffix instruction at {index} of {length}"
  | .placeholder segment => s!"segment {segment} still holds a placeholder"
  | .enteredInside segment predecessors =>
      s!"enterable segment {segment} has {predecessors} predecessors"
  | .noTakenLink segment => s!"segment {segment} jumps by segment without a taken link"
  | .ambiguousTarget target segment count =>
      s!"jump target {Hex.word target} of segment {segment} resolves to {count} segments"
  | .wrongTakenLink segment taken target =>
      let link := match taken with
        | none => "-1"
        | some id => toString id
      s!"segment {segment} taken link {link} disagrees with jump target {target}"
  | .predecessorCount segment listed actual =>
      s!"segment {segment} lists {listed} predecessors, graph has {actual}"
  | .noLeave segment => s!"cycle check of segment {segment} has no leave segment"
  | .notLeave segment => s!"cycle check of segment {segment} does not lead to a LEAVE"
  | .unknownResume segment address =>
      s!"LEAVE after segment {segment} resumes at {Hex.word address}, which no segment enters"

/-- An error is a broken assumption of the compiler. -/
def Error.fault (error : Error) : Fault :=
  .broken error.message

/-- The segment that a jump leads to. -/
def destination? (graph : Graph) (target : Address) : Option SegmentId :=
  (graph.inOrder.find? fun seg =>
    seg.isDestination && seg.jumpAddress = target).map (·.id)

/-- The links of one segment, which falls through to `next`. -/
def linkSegment (graph : Graph) (id : SegmentId) (next : Option SegmentId) :
    Except Error Graph :=
  match (graph.segment id).last? with
  | none => .ok (graph.setNotTaken id next)
  | some last =>
      if !last.isSuffix then .ok (graph.setNotTaken id next)
      else if last.kind = .jump && !last.bySegment then
        match graph.destination? last.target with
        | none => .error (.noDestination last.target)
        | some destination =>
            let graph := graph.setTaken id (some destination)
            .ok (if last.isUnconditionalJump then graph else graph.setNotTaken id next)
      else if last.kind = .routine then .ok (graph.modify id ({ · with uncertain := true }))
      else .ok graph

/-- Links segments in order. -/
def linkAll (graph : Graph) : List SegmentId → Except Error Graph
  | [] => .ok graph
  | id :: rest => do linkAll (← graph.linkSegment id rest.head?) rest

/-- The linked segments of a stream.  The first one is entered at the entry address. -/
def ofStream (stream : Stream) : Except Error Graph := do
  let empty : Graph :=
    { entry := stream.entry, size := stream.size, ranges := stream.ranges, slots := stream.slots }
  let graph := empty.cut (dropUnusedJumpmarks stream.instructions)
  let graph ← graph.linkAll graph.order
  match graph.order.head? with
  | none => return graph
  | some first =>
      return graph.modify first ({ · with enterable := true, enterAddress := graph.entry })

end Graph
end Dynarec
