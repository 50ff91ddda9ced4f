import Dynarec.Graph.Basic
import Dynarec.Instruction.Usage

/-!
# Cycle guards and entries

Compiled code yields after a while.  Segments of guest code count their cycles,
and every backward jump is guarded by a check for remaining cycles that leaves
compiled code when none remain.  Afterwards a segment is either entered from
outside or reached from inside, never both.
-/

namespace Dynarec

namespace Segment

/-- Whether a register is changed by a constant. -/
def isStep (instr : Instruction Register) : Bool :=
  instr.kind = .immediate && (instr.op = .add || instr.op = .sub)

/-- Whether an instruction counts down and records that in the compiler's own field. -/
def isCountdown (instr : Instruction Register) : Bool :=
  isStep instr && instr.op = .sub && instr.conditionField = some 8

/-- Whether an instruction steps a register and records nothing. -/
def isSilentStep (instr : Instruction Register) : Bool :=
  isStep instr && instr.conditionField = none

/-- The registers that are stepped silently and changed in no other way. -/
def steppedOnly (seg : Segment) : List (Option Register) :=
  let stepped := ((seg.instructions.filter isSilentStep).map (·.result)).eraseDups
  let written := (seg.instructions.filter (!isSilentStep ·)).flatMap (·.writes)
  stepped.filter fun
    | none => true
    | some reg => reg ∉ written

/-- Whether a segment that loops to itself is known to end: it counts down, or it steps
exactly one register and changes it in no other way. -/
def isTightFiniteLoop (seg : Segment) : Bool :=
  seg.taken = some seg.id &&
    (seg.instructions.any isCountdown || seg.steppedOnly.length = 1)

/-- Whether a segment closes a loop that compiled code could spin in. -/
def needsCycleCheck (seg : Segment) : Bool :=
  match seg.last? with
  | none => false
  | some last =>
      last.kind = .jump && !last.bySegment && seg.hasAddresses &&
        last.target ≤ seg.lowest && !seg.isTightFiniteLoop

/-- The segment with a count of its guest instructions in front, if it has any. -/
def countCycles (seg : Segment) : Segment :=
  let cycles := seg.addresses.eraseDups.length
  if seg.hasAddresses && cycles > 0 then
    seg.insert 0 [.ofRoutine .countCycles (UInt32.ofNat cycles) 0]
  else seg

end Segment

namespace Graph

/-- Counts cycles at the start of every segment. -/
def countCycles (graph : Graph) : Graph :=
  graph.mapOrdered Segment.countCycles

/-- The first of the addresses that name loop bodies behind a guard. -/
def syntheticBase : Address := 0xFF000000

/-- One loop body put behind a guard.  The guard takes over the links and the address of the
body; when no cycles remain it falls through to an exit that resumes at the guard. -/
def guardLoop (graph : Graph) (bodyId : SegmentId) (number : Nat) : Graph :=
  let guardId := graph.nextId
  let leaveId := guardId + 1
  let entryId := guardId + 2
  let graph := (graph.insertSegments (graph.segment bodyId).position 2).appendSegment
  let graph := graph.relinkInputs bodyId guardId
  let graph := graph.setNotTaken guardId (some leaveId)
  let graph := graph.setTaken guardId (some bodyId)
  let graph := graph.setTaken entryId (some guardId)
  let body := graph.segment bodyId
  let name := syntheticBase + UInt32.ofNat number
  let graph := graph.modify guardId fun seg =>
    { seg.append [.cycleCheck name] with
      isDestination := body.isDestination
      jumpAddress := body.jumpAddress
      lowest := body.lowest
      highest := body.highest }
  let graph := graph.modify leaveId fun seg =>
    { seg.append [.ofRoutine .leave body.lowest 0] with uncertain := true }
  let graph := graph.modify entryId fun seg =>
    { seg.append [.segmentJump] with
      enterable := true
      enterAddress := if body.enterable then body.enterAddress else body.lowest }
  graph.modify bodyId fun seg =>
    { seg with
      enterable := false
      enterAddress := if seg.enterable then 0 else seg.enterAddress
      isDestination := true
      jumpAddress := name }

/-- Guards all loops by cycle checks. -/
def guardLoops (graph : Graph) : Graph :=
  let loops := graph.order.filter fun id => (graph.segment id).needsCycleCheck
  (loops.zipIdx.foldl (fun graph (id, number) => graph.guardLoop id number) graph).renumber

/-- An entry that is also reached from inside moved to a segment of its own. -/
def isolateEntry (graph : Graph) (id : SegmentId) : Graph :=
  let segment := graph.segment id
  if segment.enterable && segment.prev ≠ [] then
    let trampoline := graph.nextId
    let graph := graph.appendSegment.modify trampoline fun added =>
      { added.append [.segmentJump] with
        enterable := true
        enterAddress := segment.enterAddress }
    let graph := graph.setTaken trampoline (some id)
    graph.modify id ({ · with enterable := false, enterAddress := 0 })
  else graph

/-- Gives entries segments of their own. -/
def isolateEntries (graph : Graph) : Graph :=
  graph.order.foldl isolateEntry graph

end Graph
end Dynarec
