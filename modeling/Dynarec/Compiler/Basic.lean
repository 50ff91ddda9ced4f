import Dynarec.Allocation.Allocate
import Dynarec.Graph.Build
import Dynarec.Host
import Dynarec.Stream.Generate

/-!
# Compilation of one function

A request names the guest words of a function.  They are decoded into a stream,
the stream becomes a graph, and the graph is given host registers.
-/

namespace Dynarec

namespace Compiler

/-- How functions are compiled. -/
structure Config where
  inlines : Bool := true
  limit : Int := 4096
  graph : Graph.BuildOptions := {}
  allocation : Allocation.Config :=
    { registers := Host.default.registers, maxPasses := Allocation.defaultMaxPasses }
  workers : Int := 4
deriving DecidableEq, Repr

/-- A function to compile. -/
structure Request where
  entry : Address
  /-- The number of words; if it is not positive, the extent is tracked. -/
  count : Int := 0
  /-- Further addresses that can be entered from outside. -/
  entries : List Address := []
deriving DecidableEq, Repr

end Compiler

/-- A function in host registers. -/
structure CompiledFunction where
  entry : Address
  graph : Graph
  stats : AllocationStats
deriving Repr

namespace CompiledFunction

/-- The guest code of the function. -/
def ranges (function : CompiledFunction) : List AddressRange :=
  function.graph.ranges

/-- Whether the function has a byte in a range. -/
def overlaps (function : CompiledFunction) (range : AddressRange) : Bool :=
  function.ranges.any fun own =>
    own.start.toNat < range.start.toNat + range.size.toNat &&
      range.start.toNat < own.start.toNat + own.size.toNat

/-- The addresses at which the function is entered. -/
def enterAddresses (function : CompiledFunction) : List Address :=
  (function.graph.inOrder.filter (·.enterable)).map (·.enterAddress)

end CompiledFunction

namespace Compiler

/-- Compiles a function of a given extent. -/
def pipeline (config : Config) (memory : Memory) (request : Request) (count : Int) :
    Except Interruption CompiledFunction := do
  let stream ← Stream.generate memory
    { entry := request.entry, count, entries := request.entries, inlines := config.inlines,
      limit := config.limit }
  match Graph.build stream config.graph with
  | .error error => .error (.fault error.fault)
  | .ok graph =>
      match graph.allocate config.allocation with
      | .error fault => .error (.fault fault)
      | .ok (graph, stats) => .ok { entry := request.entry, graph, stats }

/-- A result whose crashes are broken assumptions of the compiler. -/
def contain {α : Type} : Except Interruption α → Except Fault α
  | .ok value => .ok value
  | .error (.fault fault) => .error fault
  | .error (.crash text) => .error (.invariantBecause "compiler panicked" (.plain text))

/-- The fault of a request that failed. -/
def Request.failed (request : Request) (fault : Fault) : Fault :=
  .within s!"compile {Hex.word request.entry}" fault

end Compiler
end Dynarec
