import Dynarec.Allocation.Cost
import Dynarec.Allocation.Spill

/-!
# Conflicts

A conflict is a subrange for which no register is left.  It is resolved by the
cheapest way to free one: cutting a hole into a local subrange, using a register
until its next holder needs it, or replacing a range that leaves the segment.
-/

namespace Dynarec
namespace Allocation

/-- A way to free a register. -/
structure Strategy (α : Type) where
  cost : Int
  /-- How far away the register is needed again. -/
  distance : Int
  victim : α
deriving Repr

/-- The cost of a strategy, if there is one. -/
def Strategy.costOf {α : Type} : Option (Strategy α) → Int
  | some strategy => strategy.cost
  | none => Subrange.maxDistance

/-- The first strategy of least cost. -/
def Strategy.cheapest {α : Type} (strategies : List (Strategy α)) : Option (Strategy α) :=
  strategies.foldl (fun best strategy =>
    if strategy.cost < costOf best then some strategy else best) none

/-- The cost of giving a subrange only the next `distance` places. -/
def shortfall (alloc : Allocation) (sub : Subrange) (distance : Int) : Int :=
  let required := sub.stop - sub.start
  if distance < required then
    alloc.splitCost sub (sub.start + distance) + (required - distance) / 10
  else 0

/-- The cheapest live local subrange whose next use is at least `least` places away. -/
def holeStrategy (alloc : Allocation) (sub : Subrange) (live : List Subrange)
    (least : Int) : Option (Strategy SubrangeId) :=
  let start := sub.start
  if start < 0 then none
  else
    Strategy.cheapest <| live.filterMap fun other =>
      let distance := other.untilNextUse start
      if other.stop = .atExit || distance < least || distance = Subrange.maxDistance then none
      else
        some {
          cost := alloc.splitCost other (start + distance) +
            alloc.shortfall sub distance
          distance
          victim := other.id }

/-- The cheapest register that stays free for at least `least` places. -/
def availableStrategy (alloc : Allocation) (sub : Subrange)
    (unused : List HostRegister) (least : Int) : Option (Strategy HostRegister) :=
  let start := sub.start
  if start < 0 then none
  else
    Strategy.cheapest <| unused.filterMap fun host =>
      let distance := alloc.untilNextHost sub.segment start host
      if alloc.registers ≤ host || distance < least || sub.stop - start ≤ distance then
        none
      else some { cost := alloc.shortfall sub distance, distance, victim := host }

/-- The cheapest live range that leaves the segment and whose next use is at least `least`
places away. -/
def explodeStrategy (alloc : Allocation) (sub : Subrange) (live : List Subrange)
    (least : Int) : Option (Strategy RangeId) :=
  Strategy.cheapest <| live.filterMap fun other =>
    let distance := other.untilNextUse sub.start
    if other.stop ≠ .atExit || distance < least then none
    else
      some {
        cost := alloc.explodeCost (alloc.range other.range) +
          alloc.shortfall sub distance
        distance
        victim := other.range }

/-- A subrange split where a register is needed again, if it reaches that far. -/
def splitAhead (alloc : Allocation) (sub : Subrange) (distance : Int) :
    Except Error Allocation := do
  if distance < sub.stop - sub.start then
    return (← alloc.split sub.id (sub.start + distance) true).1
  else return alloc

/-- A range replaced, and the subrange split where the range needs its register again. -/
def explodeFor (alloc : Allocation) (sub : Subrange) (strategy : Strategy RangeId) :
    Except Error Allocation :=
  (alloc.explode strategy.victim).splitAhead sub strategy.distance

/-- A hole cut into a local subrange, and the subrange split where the hole ends. -/
def cutHole (alloc : Allocation) (sub : Subrange) (strategy : Strategy SubrangeId) :
    Except Error Allocation := do
  let alloc := alloc.tally fun stats => { stats with holeCuts := stats.holeCuts + 1 }
  let (alloc, _) ← alloc.split strategy.victim (sub.start + strategy.distance) true
  alloc.splitAhead sub strategy.distance

/-- The subrange split where a register that is free for now is needed. -/
def useAvailable (alloc : Allocation) (sub : Subrange)
    (strategy : Strategy HostRegister) : Except Error Allocation := do
  return (← alloc.split sub.id (sub.start + strategy.distance) true).1

/-- The cheapest range that leaves the segment replaced, possibly that of the subrange. -/
def explodeCheapest (alloc : Allocation) (sub : Subrange) (live : List Subrange) :
    Except Error Allocation :=
  let own := alloc.range sub.range
  let leaving := (live.filter (·.stop = .atExit)).map fun other => alloc.range other.range
  let strategies : List (Strategy RangeId) := (leaving ++ [own]).map fun range =>
    { cost := alloc.explodeCost range, distance := 0, victim := range.id }
  match Strategy.cheapest strategies with
  | some strategy => .ok (alloc.explode strategy.victim)
  | none => .error (.noRange own.register)

/-- A register freed where the pressure lasts a single instruction. -/
def resolveTight (alloc : Allocation) (seg : SegmentId) (sub : Subrange)
    (live : List Subrange) (unused : List HostRegister) : Except Error Allocation :=
  match alloc.holeStrategy sub live 1 with
  | some hole => alloc.cutHole sub hole
  | none =>
      match alloc.availableStrategy sub unused 1 with
      | some available => alloc.useAvailable sub available
      | none =>
          match alloc.explodeStrategy sub live 1 with
          | some explosion => alloc.explodeFor sub explosion
          | none =>
              .error (.noStrategy seg (alloc.range sub.range).register
                sub.start)

/-- A register freed for a subrange, given the subranges live at its start and the registers
that none of those holds. -/
def resolveConflict (alloc : Allocation) (seg : SegmentId) (sub : Subrange)
    (live : List Subrange) (unused : List HostRegister) : Except Error Allocation :=
  if sub.stop = .atExit then alloc.explodeCheapest sub live
  else
    let hole := alloc.holeStrategy sub live 2
    let available := alloc.availableStrategy sub unused 2
    let explosion := (alloc.explodeStrategy sub live 2).filter fun strategy =>
      strategy.cost ≤ Strategy.costOf hole && strategy.cost ≤ Strategy.costOf available
    match explosion, available.filter (·.cost ≤ Strategy.costOf hole), hole with
    | some explosion, _, _ => alloc.explodeFor sub explosion
    | none, some available, _ => alloc.useAvailable sub available
    | none, none, some hole => alloc.cutHole sub hole
    | none, none, none =>
        if sub.start = .atEntry then .ok (alloc.explode sub.range)
        else alloc.resolveTight seg sub live unused

end Allocation
end Dynarec
