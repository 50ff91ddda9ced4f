import Dynarec.JumpTable.Basic

/-!
# Processing the queue

The addresses of the queue are compiled one after another.  An invalidation may
arrive while one of them is compiled.
-/

namespace Dynarec

/-- A jump table together with what its functions are compiled with. -/
structure Recompiler where
  table : JumpTable
  config : Compiler.Config := {}
  store : Option VerdictStore := none
deriving Repr

/-- An invalidation that arrives when the word at an address is read. -/
structure Intervention where
  address : Address
  range : AddressRange
deriving DecidableEq, Repr

namespace Recompiler

/-- The intervention, if compiling the function at an address sets it off. -/
def triggered (recompiler : Recompiler) (memory : Memory) (address : Address)
    (pending : Option Intervention) : Option Intervention :=
  pending.filter fun intervention =>
    Compiler.reads recompiler.config recompiler.store memory { entry := address }
      intervention.address

/-- One address compiled, with the intervention that is still to come. -/
def compileNext (memory : Memory) (state : Recompiler × Option Intervention)
    (address : Address) : Recompiler × Option Intervention :=
  let (recompiler, pending) := state
  let epoch := recompiler.table.epoch
  let outcome := Compiler.compile recompiler.config recompiler.store memory { entry := address }
  let arrived := recompiler.triggered memory address pending
  let table :=
    match arrived with
    | some intervention => recompiler.table.invalidate intervention.range
    | none => recompiler.table
  ({ recompiler with
      table := table.finish address epoch (Compiler.contain outcome.result)
      store := outcome.store },
    if arrived.isSome then none else pending)

/-- The queue compiled, with an intervention that may arrive meanwhile. -/
def process (recompiler : Recompiler) (memory : Memory)
    (intervention : Option Intervention) : Recompiler :=
  let (queue, table) := recompiler.table.takeQueue
  (queue.foldl (compileNext memory) ({ recompiler with table }, intervention)).1

/-- Every queued address put back because processing was cancelled before it began. -/
def cancel (recompiler : Recompiler) : Recompiler :=
  let (queue, table) := recompiler.table.takeQueue
  { recompiler with table := queue.foldl JumpTable.requeue table }

end Recompiler
end Dynarec
