import Dynarec.Compiler.Compile
import Dynarec.ExecutionMode

/-!
# The jump table

One slot for each guest word says whether a function can be entered there.
Addresses are visited, wait in a queue, and end up compiled or failed.  An
invalidation drops the functions whose guest code changed; compilations that
were started before it are not installed.
-/

namespace Dynarec

/-- What came of an address so far. -/
inductive Entrance.State where
  | unvisited
  | visited
  | compiled
  | failed
deriving DecidableEq, Repr

/-- What the table holds for a guest word.  The state and the function are written apart, and
nothing but the operations of the table makes them agree. -/
structure Entrance where
  state : Entrance.State := .unvisited
  function? : Option CompiledFunction := none
deriving Repr

namespace Entrance

/-- The names of the states by their codes. -/
def names : List String := ["unvisited", "visited", "compiled", "failed"]

/-- The name of the state with a code, known or not. -/
def nameOf (code : UInt8) : String :=
  names.getD code.toNat "unknown"

/-- The code of a state. -/
def State.code : State → UInt8
  | .unvisited => 0
  | .visited => 1
  | .compiled => 2
  | .failed => 3

/-- The name of the state of an entrance. -/
def name (entrance : Entrance) : String :=
  nameOf entrance.state.code

/-- Nobody asked for the address yet. -/
abbrev unvisited : Entrance := {}

/-- The address waits for its compilation. -/
abbrev visited : Entrance := { state := .visited }

/-- The address is left to the interpreter. -/
abbrev failed : Entrance := { state := .failed }

/-- A function is entered at the address. -/
abbrev compiled (function : CompiledFunction) : Entrance := ⟨.compiled, some function⟩

end Entrance

/-- The functions of a code region and the addresses where they are entered. -/
structure JumpTable where
  base : Address
  entrances : Array Entrance
  functions : List (Address × CompiledFunction) := []
  queue : List Address := []
  /-- The number of invalidations.  It has no bound here; a counter of 64 bits does as well, since
  no run exhausts it. -/
  epoch : Nat := 0
  failures : Nat := 0
  invalidated : Nat := 0
  enabled : Bool := true
deriving Repr

namespace JumpTable

/-- The table of a region in which nothing happened. -/
def ofRegion (region : AddressRange) (mode : ExecutionMode) : JumpTable :=
  { base := region.start
    entrances := Array.replicate (region.size / 4).toNat .unvisited
    enabled := mode = .recompiler }

/-- The place of a guest word in the table. -/
def index? (table : JumpTable) (address : Address) : Option Nat :=
  if address < table.base || address &&& 3 ≠ 0 then none
  else
    let index := ((address - table.base) / 4).toNat
    if index < table.entrances.size then some index else none

/-- The entrance at an address; outside the region nothing is ever visited. -/
def entrance (table : JumpTable) (address : Address) : Entrance :=
  match table.index? address with
  | some index => table.entrances.getD index .unvisited
  | none => .unvisited

/-- The table with one entrance changed; an address outside the region changes nothing. -/
def setEntrance (table : JumpTable) (address : Address) (entrance : Entrance) : JumpTable :=
  match table.index? address with
  | some index => { table with entrances := table.entrances.setIfInBounds index entrance }
  | none => table

/-- The table with the state of one entrance changed; its function stays as it is. -/
def setState (table : JumpTable) (address : Address) (state : Entrance.State) : JumpTable :=
  table.setEntrance address { table.entrance address with state }

/-- The function that is entered at an address, while compiled functions are used. -/
def lookup (table : JumpTable) (address : Address) : Option CompiledFunction :=
  if table.enabled && (table.entrance address).state = .compiled then
    (table.entrance address).function?
  else none

/-- Whether an address of the region has a state. -/
def hasState (table : JumpTable) (state : Entrance.State) (address : Address) : Bool :=
  (table.index? address).isSome && (table.entrance address).state = state

/-- Whether an address can be queued for compilation. -/
def canVisit (table : JumpTable) (address : Address) : Bool :=
  table.enabled && table.hasState .unvisited address

/-- An address queued for compilation, if it can be visited. -/
def visit (table : JumpTable) (address : Address) : JumpTable :=
  if table.canVisit address then
    let table := table.setState address .visited
    { table with queue := table.queue ++ [address] }
  else table

/-- The queued addresses, and the table without them. -/
def takeQueue (table : JumpTable) : List Address × JumpTable :=
  (table.queue, { table with queue := [] })

/-- An address put back into the queue. -/
def requeue (table : JumpTable) (address : Address) : JumpTable :=
  { table with queue := table.queue ++ [address] }

/-- A further entrance of a function; an address that is compiled keeps its function. -/
def addEntrance (function : CompiledFunction) (table : JumpTable) (address : Address) :
    JumpTable :=
  if (table.entrance address).state = .compiled then table
  else table.setEntrance address (.compiled function)

/-- The functions with the one of an entry replaced. -/
def putFunction (functions : List (Address × CompiledFunction)) (entry : Address)
    (function : CompiledFunction) : List (Address × CompiledFunction) :=
  (entry, function) :: functions.filter (·.1 ≠ entry)

/-- A function kept, and entered at its address and wherever else it can be. -/
def install (table : JumpTable) (address : Address) (function : CompiledFunction) : JumpTable :=
  let table := table.setEntrance address (.compiled function)
  let table := { table with functions := putFunction table.functions address function }
  (function.enterAddresses.filter (· ≠ address)).foldl (addEntrance function) table

/-- The end of a compilation that was started in an epoch. -/
def finish (table : JumpTable) (address : Address) (epoch : Nat)
    (outcome : Except Fault CompiledFunction) : JumpTable :=
  if !table.hasState .visited address then table
  else if epoch ≠ table.epoch then table.setState address .unvisited
  else
    match outcome with
    | .error _ =>
        let table := table.setState address .failed
        { table with failures := table.failures + 1 }
    | .ok function => table.install address function

/-- The guest address of a place in the table. -/
def addressOf (table : JumpTable) (index : Nat) : Address :=
  table.base + UInt32.ofNat index * 4

/-- Whether an address lies in a range that may reach beyond the last address. -/
def reaches (range : AddressRange) (address : Address) : Bool :=
  range.start ≤ address && address.toNat < range.start.toNat + range.size.toNat

/-- The entry addresses of the functions that meet a range. -/
def overlapping (table : JumpTable) (range : AddressRange) : List Address :=
  (table.functions.filter (·.2.overlaps range)).map (·.1)

/-- An entrance after some functions were dropped and a range was invalidated. -/
def afterDrop (dropped : List Address) (range : AddressRange) (address : Address)
    (entrance : Entrance) : Entrance :=
  if entrance.function?.any (·.entry ∈ dropped) ||
      reaches range address && entrance.state = .failed then .unvisited
  else entrance

/-- The functions that meet a range dropped, and the failures in the range forgotten. -/
def invalidate (table : JumpTable) (range : AddressRange) : JumpTable :=
  let dropped := table.overlapping range
  { table with
    functions := table.functions.filter (!·.2.overlaps range)
    entrances := table.entrances.mapIdx fun index entrance =>
      afterDrop dropped range (table.addressOf index) entrance
    epoch := table.epoch + 1
    invalidated := table.invalidated + dropped.length }

/-- Everything forgotten but the epoch and what was counted. -/
def reset (table : JumpTable) : JumpTable :=
  { table with
    entrances := table.entrances.map fun _ => .unvisited
    functions := []
    queue := [] }

end JumpTable
end Dynarec
