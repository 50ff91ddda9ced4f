import Dynarec.Allocation.Conflict

/-!
# Assignment of host registers

Registers are assigned segment by segment, inside loops first, to subranges in
the order of their starts.  A conflict changes the ranges and starts a new pass;
the assignment is settled after a pass without one.
-/

namespace Dynarec
namespace Allocation

/-- A live subrange and the host register of its range. -/
structure Holder where
  subrange : Subrange
  host : HostRegister
deriving Repr

/-- The holders whose subranges are still live at a place. -/
def unexpired (index : Position) : List Holder → List Holder
  | [] => []
  | holder :: rest =>
      if index < holder.subrange.stop || holder.subrange.stop = .atExit then
        holder :: unexpired index rest
      else unexpired index rest

/-- The outcome of a pass: it may end early because a conflict changed the ranges. -/
inductive Pass where
  | complete (alloc : Allocation)
  | changed (alloc : Allocation)
deriving Repr

/-- The first of the registers that no live subrange holds which a range may hold. -/
def free? (alloc : Allocation) (range : LiveRange) (unused : List HostRegister) :
    Option HostRegister :=
  if unused.isEmpty then none
  else
    let allowed := alloc.allowed range
    unused.find? (· ∈ allowed)

/-- Registers assigned to the subranges of a segment from the given ones on, given the ones
live before them, the latest first. -/
def assignFrom (seg : SegmentId) :
    List SubrangeId → List Holder → Allocation → Except Error Pass
  | [], _, alloc => .ok (.complete alloc)
  | id :: rest, live, alloc =>
      let subrange := alloc.subrange id
      let live := unexpired subrange.start live
      let range := alloc.range subrange.range
      if range.isAssigned then
        match live.find? (·.host = range.host) with
        | some other => .error (.bothHold seg other.subrange.range range.id range.host)
        | none => assignFrom seg rest (⟨subrange, range.host⟩ :: live) alloc
      else
        let held := live.map (·.host)
        let unused := alloc.hostRegisters.filter (· ∉ held)
        match alloc.free? range unused with
        | some host =>
            assignFrom seg rest (⟨subrange, host⟩ :: live)
              (alloc.modifyRange range.id ({ · with host }))
        | none => do
            return .changed
              (← alloc.resolveConflict seg subrange (live.reverse.map (·.subrange)) unused)

/-- Gives registers to the ranges of a segment. -/
def assignSegment (alloc : Allocation) (seg : SegmentId) : Except Error Pass :=
  let ids := alloc.sortedIds seg
  assignFrom seg ids [] (alloc.reorder seg ids)

/-- Gives registers until a segment asks for a new pass. -/
def assignSegments : List SegmentId → Allocation → Except Error Pass
  | [], alloc => .ok (.complete alloc)
  | seg :: rest, alloc => do
      match ← alloc.assignSegment seg with
      | .complete alloc => assignSegments rest alloc
      | .changed alloc => return .changed alloc

/-- The segments of a graph, the deepest loops first. -/
def hottestFirst (graph : Graph) : List SegmentId :=
  (List.range (graph.maxLoopDepth + 1)).reverse.flatMap fun depth =>
    graph.order.filter fun id => (graph.segment id).loopDepth = depth

/-- Passes made until one completes, at most `passes` of them; `limit` is what was allowed
in all. -/
def settle (limit : Int) : Nat → Allocation → Except Error Allocation
  | 0, _ => .error (.unsettled limit)
  | passes + 1, alloc => do
      match ← assignSegments (hottestFirst alloc.graph) alloc with
      | .complete alloc => return alloc
      | .changed alloc =>
          settle limit passes
            (alloc.tally fun stats => { stats with restarts := stats.restarts + 1 })

/-- Makes passes until one is complete. -/
def assignRegisters (alloc : Allocation) (limit : Int) : Except Error Allocation :=
  settle limit limit.toNat alloc

end Allocation
end Dynarec
