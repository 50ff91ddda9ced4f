import Dynarec.Allocation.Assign
import Dynarec.Allocation.Materialize
import Dynarec.Allocation.Ranges
import Dynarec.Allocation.Soundness
import Dynarec.Allocation.Sync
import Dynarec.Graph.JoinEdge

/-!
# Register allocation

The phases that give every register operand of a graph a register of the host
and keep named storage in step.
-/

namespace Dynarec

namespace Allocation

/-- What an allocation is asked for. -/
structure Config where
  registers : Int
  /-- Whether the allocation is checked before the code is changed. -/
  verify : Bool := false
  /-- The most passes of the assignment; if it is not positive, the default. -/
  maxPasses : Int := 0
deriving DecidableEq, Repr

/-- The most passes unless others are asked for. -/
def defaultMaxPasses : Int := 10000

/-- The first instruction before the end of a segment that touches too many registers. -/
def overloaded? (registers : Int) (seg : Segment) : Option Error :=
  seg.body.findSome? fun instr =>
    let needed : Nat := instr.registers.length
    if registers < needed then
      some (.tooManyOperands seg.id instr needed registers)
    else none

/-- The first instruction with too many operands. -/
def operandError? (graph : Graph) (registers : Int) : Option Error :=
  graph.inOrder.findSome? (overloaded? registers)

/-- Fails with an error, if there is one. -/
def refuse (error : Option Error) : Except Fault Unit :=
  match error with
  | some error => .error error.fault
  | none => .ok ()

/-- An outcome whose error is given a context. -/
def within {α : Type} (context : String) : Except Error α → Except Fault α
  | .ok value => .ok value
  | .error error => .error (.within context error.fault)

/-- The ranges of a graph, without host registers. -/
def ofGraph (graph : Graph) (registers : Int) : Allocation :=
  (Liveness.ofGraph graph).mergeClose.extendOutOfLoops.buildRanges (.empty graph registers)

/-- Fails if the number of host registers or an instruction rules out an allocation. -/
def precheck (graph : Graph) (config : Config) : Except Fault Unit := do
  if config.registers < 1 || 32 < config.registers then
    refuse (some (.registerCount config.registers))
  refuse (operandError? graph config.registers)

/-- Allocates registers and puts them into the code. -/
def ofConfig (graph : Graph) (config : Config) : Except Fault Allocation := do
  precheck graph config
  let maxPasses := if config.maxPasses ≤ 0 then defaultMaxPasses else config.maxPasses
  let allocation := ofGraph graph.splitJoinEdges config.registers
  let allocation ← within "assign registers" (allocation.assignRegisters maxPasses)
  if config.verify then refuse allocation.unsound?
  within "materialize" allocation.analyzeSync.materialize

/-- The graph, with no point attached. -/
def release (alloc : Allocation) : Graph :=
  alloc.graph.mapOrdered Segment.detachPoints

end Allocation

/-- The graph in host registers, and the work that was done. -/
def Graph.allocate (graph : Graph) (config : Allocation.Config) :
    Except Fault (Graph × AllocationStats) := do
  let allocation ← Allocation.ofConfig graph config
  return (allocation.release, allocation.stats)

end Dynarec
