import Dynarec.Allocation.Basic

/-!
# Spilling

A live range gives up its register in two ways: a subrange inside a segment is
split in two, or a range is replaced by local ranges that pass every boundary
through named storage.
-/

namespace Dynarec
namespace Allocation

/-- Whether a place lies inside a subrange. -/
def isSplittable (sub : Subrange) (index : Position) : Bool :=
  sub.stop ≠ .atExit && sub.start < index && index < sub.stop

/-- The tail of a split subrange as a range of its own, if it has an access. -/
def addTail (alloc : Allocation) (sub : Subrange) (start : Position)
    (locations : List Location) : Allocation × Option SubrangeId :=
  if locations = [] then (alloc, none)
  else
    let head := alloc.range sub.range
    let tail := alloc.nextSubrange
    let range := alloc.nextRange
    ((alloc.addRange head.register head.slot).addSubrange range sub.segment start
      sub.stop locations, some tail)

/-- A subrange split at a place.  If `trim` is set, the head ends behind its last access and
the tail starts at its first one. -/
def split (alloc : Allocation) (id : SubrangeId) (index : Position) (trim : Bool) :
    Except Error (Allocation × Option SubrangeId) :=
  let sub := alloc.subrange id
  if !isSplittable sub index then
    .error (.invalidSplit sub.start sub.stop index)
  else
    let before := sub.locations.takeWhile (·.index < index)
    let after := sub.locations.dropWhile (·.index < index)
    let headStop :=
      if !trim then index
      else match before.getLast? with
        | some last => last.index + 1
        | none => sub.start + 1
    let tailStart :=
      match after.head? with
      | some first => if trim then first.index else index
      | none => index
    let (alloc, tail) := alloc.addTail sub tailStart after
    let alloc := alloc.modifySubrange id fun sub =>
      { sub with stop := headStop, locations := before }
    .ok (alloc.tally (fun stats => { stats with splits := stats.splits + 1 }), tail)

/-- Adds a range for the accesses of one subrange. -/
def addLocal (range : LiveRange) (alloc : Allocation) (id : SubrangeId) : Allocation :=
  let subrange := alloc.subrange id
  match subrange.locations.head?, subrange.locations.getLast? with
  | some first, some last =>
      (alloc.addRange range.register range.slot).addSubrange alloc.nextRange
        subrange.segment first.index (last.index + 1) subrange.locations
  | _, _ => alloc

/-- A range replaced by one local range for each subrange that has an access. -/
def explode (alloc : Allocation) (id : RangeId) : Allocation :=
  let range := alloc.range id
  let alloc := range.subranges.foldl (addLocal range) alloc
  (alloc.dropRange id).tally fun stats => { stats with explodes := stats.explodes + 1 }

end Allocation
end Dynarec
