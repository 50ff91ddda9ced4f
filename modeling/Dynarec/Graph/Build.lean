import Dynarec.Graph.ConditionalMove
import Dynarec.Graph.CycleGuard
import Dynarec.Graph.Loop
import Dynarec.Graph.Validity

/-!
# From streams to graphs

The passes that turn a decoded stream into the graph that registers are
allocated for.
-/

namespace Dynarec
namespace Graph

/-- The optional passes. -/
structure BuildOptions where
  foldMoves : Bool := true
  countCycles : Bool := true
deriving DecidableEq, Repr

/-- The graph of a stream after all passes, not yet checked. -/
def passes (options : BuildOptions) (graph : Graph) : Graph :=
  let graph := if options.foldMoves then graph.foldConditionalMoves else graph
  let graph := if options.countCycles then graph.countCycles else graph
  graph.guardLoops.isolateEntries.detectLoops

/-- The graph of a stream, if it is valid. -/
def build (stream : Stream) (options : BuildOptions) : Except Error Graph := do
  let graph := (← ofStream stream).passes options
  match graph.error? with
  | some error => .error error
  | none => .ok graph

end Graph
end Dynarec
