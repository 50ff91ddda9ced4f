import Dynarec.Allocation.Basic

/-!
# Loads, stores and host registers in the code

The loads and stores that an allocation calls for are inserted at the ends of
subranges, and every register operand becomes the host register of the subrange
that is live there.  Each insertion is kept with the boundary between two
instructions that it stands at and moves the places behind it; the code is woven
together at the end.
-/

namespace Dynarec

/-- An instruction put at a boundary of the code. -/
structure Insertion where
  boundary : Nat
  instruction : Instruction Register
deriving Repr

namespace Insertion

/-- Code with insertions in the order of their boundaries, its first instruction having the
given index. -/
def weave : Nat → List Insertion → Code → Code
  | _, insertions, [] => insertions.map (·.instruction)
  | index, insertions, instr :: rest =>
      (insertions.takeWhile (·.boundary ≤ index)).map (·.instruction) ++
        instr :: weave (index + 1) (insertions.dropWhile (·.boundary ≤ index)) rest

end Insertion

namespace Allocation

/-- What the walk over a segment carries from instruction to instruction. -/
structure Walk where
  subranges : Array Subrange
  starts : Array Position
  stops : Array Position
  points : List Point
  live : List Nat := []
  bound : Array (Option Register)
  insertions : List Insertion := []
  loads : Nat := 0
  stores : Nat := 0
deriving Repr

namespace Walk

/-- The present place of an instruction in front of which everything was inserted. -/
def placeOf (walk : Walk) (index : Nat) : Position :=
  index + walk.loads + walk.stores

/-- The host register that is bound to a register. -/
def operandOf (walk : Walk) (reg : Register) : Option Register :=
  if reg < 0 then none else walk.bound.getD reg.toNat none

/-- Ends the binding of a register. -/
def unbind (walk : Walk) (reg : Register) : Walk :=
  { walk with bound := walk.bound.setIfInBounds reg.toNat none }

/-- Inserts an instruction and moves the places behind it. -/
def insert (walk : Walk) (boundary : Nat) (instr : Instruction Register) : Walk :=
  let place := walk.placeOf boundary
  { walk with
    insertions := ⟨boundary, instr⟩ :: walk.insertions
    starts := walk.starts.map (·.afterInsert place 1)
    stops := walk.stops.map (·.afterInsert place 1)
    points := walk.points.map (Segment.movePoint (·.afterInsert place 1)) }

/-- The subranges at their present places. -/
def placed (walk : Walk) : Array Subrange :=
  walk.subranges.mapIdx fun slot sub =>
    { sub with
      start := walk.starts.getD slot sub.start
      stop := walk.stops.getD slot sub.stop }

end Walk

/-- A host register as an operand, which has sixteen bits. -/
def hostOperand (host : HostRegister) : Option Register :=
  let operand := host.bmod 65536
  if operand = -1 then none else some operand

/-- Loads a slot into the register of a subrange. -/
def insertLoad (alloc : Allocation) (boundary : Nat) (walk : Walk) (sub : Subrange) :
    Walk :=
  let range := alloc.range sub.range
  let walk := walk.insert boundary (.loadSlot (hostOperand range.host) range.slot)
  { walk with loads := walk.loads + 1 }

/-- Stores the register of a subrange in its slot. -/
def insertStore (alloc : Allocation) (boundary : Nat) (walk : Walk) (sub : Subrange) :
    Walk :=
  let range := alloc.range sub.range
  let walk := walk.insert boundary (.storeSlot range.slot (hostOperand range.host))
  { walk with stores := walk.stores + 1 }

/-- Binds the register of a subrange that begins. -/
def bind (alloc : Allocation) (seg : SegmentId) (walk : Walk) (sub : Subrange) :
    Except Error Walk :=
  let range := alloc.range sub.range
  if (walk.operandOf range.register).isSome then .error (.boundTwice seg range.register)
  else
    .ok { walk with
      bound := walk.bound.setIfInBounds range.register.toNat (hostOperand range.host) }

/-- A live subrange that ends: its register is given up and, if need be, stored. -/
def finish (alloc : Allocation) (boundary : Nat) (walk : Walk) (sub : Subrange) :
    Walk :=
  let walk := walk.unbind (alloc.range sub.range).register
  if sub.hasStore then alloc.insertStore boundary walk sub else walk

/-- Ends a live subrange if it stops here. -/
def expire (alloc : Allocation) (boundary index : Nat) (walk : Walk) (slot : Nat) : Walk :=
  match walk.subranges[slot]?, walk.stops[slot]? with
  | some sub, some stop =>
      if walk.placeOf index < stop then { walk with live := walk.live ++ [slot] }
      else alloc.finish boundary walk sub
  | _, _ => walk

/-- The start of a subrange: its register is bound and, if need be, loaded at a boundary. -/
def begin (alloc : Allocation) (seg : SegmentId) (boundary slot : Nat)
    (sub : Subrange) (walk : Walk) : Except Error Walk :=
  let walk := { walk with live := walk.live ++ [slot] }
  let walk :=
    if sub.noLoad then walk
    else
      let walk := alloc.insertLoad boundary walk sub
      { walk with starts := walk.starts.modify slot (· - 1) }
  alloc.bind seg walk sub

/-- The starts of those of the given subranges that start in front of the instruction with an
index. -/
def beginAt (alloc : Allocation) (seg : SegmentId) (boundary index : Nat) :
    List Nat → Walk → Except Error Walk
  | [], walk => .ok walk
  | slot :: rest, walk =>
      match walk.subranges[slot]?, walk.starts[slot]? with
      | some sub, some start =>
          if start = walk.placeOf index then do
            alloc.beginAt seg boundary index rest
              (← alloc.begin seg boundary slot sub walk)
          else alloc.beginAt seg boundary index rest walk
      | _, _ => alloc.beginAt seg boundary index rest walk

/-- Ends and begins subranges at a boundary. -/
def crossBoundary (alloc : Allocation) (seg : SegmentId) (slots : List Nat)
    (boundary index : Nat) (walk : Walk) : Except Error Walk :=
  alloc.beginAt seg boundary index slots
    (walk.live.foldl (alloc.expire boundary index) { walk with live := [] })

/-- Puts host registers into an instruction. -/
def rehost (seg : SegmentId) (index : Nat) (walk : Walk)
    (instr : Instruction Register) : Except Error (Instruction Register) :=
  match instr.operands.reverse.find? fun reg => (walk.operandOf reg).isNone with
  | some reg => .error (.outsideRange seg reg (walk.placeOf index))
  | none => .ok (instr.mapRegisters walk.operandOf)

/-- The walk over the instructions of a segment from an index on.  The subranges are those of
the given slots, and `last` is the boundary behind which nothing may be inserted. -/
def walkCode (alloc : Allocation) (seg : SegmentId) (slots : List Nat) (last : Nat) :
    Nat → Code → Walk → Except Error (Code × Walk)
  | index, [], walk => do
      return ([], ← alloc.crossBoundary seg slots (min index last) index walk)
  | index, instr :: rest, walk => do
      let walk ← alloc.crossBoundary seg slots (min index last) index walk
      let instr ← rehost seg index walk instr
      let (rest, walk) ← alloc.walkCode seg slots last (index + 1) rest walk
      return (instr :: rest, walk)

/-- A walk over a segment with the subranges that are live at its entry bound. -/
def enter (alloc : Allocation) (seg : Segment) : Except Error Walk :=
  let subranges := (alloc.subrangesIn seg.id).toArray
  let bound := Array.replicate alloc.graph.slots.length none
  (List.range subranges.size).foldlM (fun walk slot =>
    match subranges[slot]? with
    | none => .ok walk
    | some sub =>
        if sub.start = .atEntry then
          alloc.bind seg.id { walk with live := walk.live ++ [slot] } sub
        else .ok walk)
    { subranges, starts := subranges.map (·.start), stops := subranges.map (·.stop),
      points := seg.points, bound }

/-- The stores of the subranges that leave a segment, and the loads of those that start at
its exit. -/
def leave (alloc : Allocation) (seg : SegmentId) (last : Nat) (walk : Walk) :
    Except Error Walk :=
  let subranges := walk.placed
  let leaving := walk.live.filterMap (subranges[·]?)
  match leaving.find? (·.stop ≠ .atExit) with
  | some sub =>
      .error (.stillLive seg (alloc.range sub.range).register)
  | none =>
      let loading := subranges.toList.filter fun sub =>
        sub.start = .atExit && !sub.noLoad
      .ok (loading.foldl (alloc.insertLoad last)
        (leaving.foldl (alloc.finish last) walk))

/-- Puts loads, stores and host registers into a segment. -/
def materializeSegment (alloc : Allocation) (id : SegmentId) : Except Error Allocation := do
  let alloc := alloc.reorder id (alloc.sortedIds id)
  let seg := alloc.graph.segment id
  let last := seg.length - seg.suffixCount
  let walk ← alloc.enter seg
  let slots := List.range walk.subranges.size
  let (code, walk) ← alloc.walkCode id slots last 0 seg.instructions walk
  let walk ← alloc.leave id last walk
  let graph := alloc.graph.modify id fun seg =>
    { seg with
      instructions := Insertion.weave 0 walk.insertions.reverse code
      points := walk.points }
  let alloc := walk.placed.foldl (fun alloc sub =>
    alloc.modifySubrange sub.id fun _ => sub) { alloc with graph }
  return alloc.tally fun stats =>
    { stats with loads := stats.loads + walk.loads, stores := stats.stores + walk.stores }

/-- The loads, stores and host registers of all segments put into the code. -/
def materialize (alloc : Allocation) : Except Error Allocation :=
  alloc.graph.order.foldlM materializeSegment alloc

end Allocation
end Dynarec
