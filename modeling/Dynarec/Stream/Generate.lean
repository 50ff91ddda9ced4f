import Dynarec.Guest.Extent
import Dynarec.Stream.Basic
import Dynarec.Stream.Inline

/-!
# Generation of streams

The words of a function are decoded one after another.  A word that cannot be
decoded fails the whole function.  Places that jumps lead to and places where
the function can be entered get placeholders in front of their fragment, and a
stream whose end can be reached leaves compiled code there.
-/

namespace Dynarec
namespace Stream

/-- What a stream is made from. -/
structure Options where
  entry : Address
  /-- The number of words; if it is not positive, the extent is tracked. -/
  count : Int := 0
  entries : List Address := []
  inlines : Bool := false
  /-- The most words of a tracked function; if it is not positive, the default. -/
  limit : Int := 0
deriving Repr

/-- The most registers of a function. -/
def maxRegisters : Nat := 256

/-- The code of one word. -/
structure Piece where
  address : Address
  fragment : Code
  enters : Bool
deriving Repr

/-- What is known behind the words decoded so far. -/
structure Progress where
  slots : List Slot := []
  callees : List AddressRange := []
  /-- How many unconditional branches end at the last word without a gap. -/
  branchRun : Nat := 0
  /-- Whether control comes back behind the last word. -/
  returned : Bool := false
deriving Repr

/-- The fragment of a word and what was learned from it. -/
structure Lowered where
  fragment : Guest.Fragment
  /-- The instructions of an abandoned attempt, whose slots are bound first. -/
  abandoned : Guest.Fragment := []
  callee : Option AddressRange := none
  returns : Bool
deriving Repr

/-- The fragment of a decoded word, a call being decoded in place if it qualifies. -/
def lower (memory : Memory) (inlines : Bool) (site : Guest.Site) (word : Word)
    (operation : Guest.Operation) : Except Interruption Lowered := do
  let plain : Lowered :=
    { fragment := .ofOperation site word operation, returns := operation.returns word }
  let target := word.branchTarget site.address
  if inlines && operation = .branch && word.links && !site.inRange target then
    match ← Guest.Inlining.attempt memory site target with
    | .declined partway => return { plain with abandoned := partway }
    | .inlined fragment range => return { fragment, callee := some range, returns := false }
  else return plain

/-- The word at an address of the function with its operation. -/
def fetch (memory : Memory) (address : Address) :
    Except Interruption (Word × Guest.Operation) :=
  match memory.read address with
  | .crashed text => .error (.crash text)
  | .refused cause =>
      .error (.fault (.unsupportedBecause address "unreadable guest memory" cause))
  | .word word =>
      match Guest.Operation.decode word with
      | .error refusal => .error (.fault (.unsupported address word refusal.message))
      | .ok operation => .ok (word, operation)

/-- Instructions without an address take that of their word. -/
def placeAt (address : Address) (instr : Instruction Register) : Instruction Register :=
  if instr.address = 0 then { instr with address := address } else instr

/-- The pieces of `count` words from an address on. -/
def pieces (memory : Memory) (inlines : Bool) (start stop : Address) (isEntry : Address → Bool) :
    Nat → Address → Progress → Except Interruption (List Piece × Progress)
  | 0, _, progress => .ok ([], progress)
  | count + 1, address, progress => do
      let (word, operation) ← fetch memory address
      let lowered ← lower memory inlines ⟨address, start, stop⟩ word operation
      let (_, slots) := Instruction.bindAll progress.slots lowered.abandoned
      let (code, slots) := Instruction.bindAll slots lowered.fragment
      let piece : Piece :=
        { address, fragment := code.map (placeAt address),
          enters := isEntry address || progress.returned || 2 ≤ progress.branchRun }
      let (rest, progress) ← pieces memory inlines start stop isEntry count (address + 4)
        { slots, callees := progress.callees ++ lowered.callee.toList,
          branchRun := if word.isPlainBranch then progress.branchRun + 1 else 0,
          returned := lowered.returns }
      return (piece :: rest, progress)

/-- The addresses that jumps of the piece lead to. -/
def Piece.targets (piece : Piece) : List Address :=
  (piece.fragment.filter fun instr =>
    instr.kind = .jump && !instr.bySegment).map (·.target)

/-- The code of a piece with its marks. -/
def Piece.code (targets : List Address) (piece : Piece) : Code :=
  (if piece.address ∈ targets ∨ piece.enters then [.jumpmark piece.address] else []) ++
    (if piece.enters then [.enter piece.address] else []) ++ piece.fragment

/-- Whether control never falls off the end of the code. -/
def endsFlow (code : Code) : Bool :=
  match code.getLast? with
  | none => false
  | some last =>
      match last.kind with
      | .jump => last.guard = .always
      | .routine => last.routine ≠ .countCycles
      | _ => false

/-- The instructions that leave compiled code at the end of the function, if it is reached. -/
def closing (targets : List Address) (stop : Address) (code : Code) : Code :=
  if stop ∈ targets then [.jumpmark stop, .ofRoutine .far stop stop]
  else if endsFlow code then []
  else [.ofRoutine .far stop stop]

/-- The stream of `size` guest bytes from the entry on. -/
def ofRange (memory : Memory) (options : Options) (size : UInt32) :
    Except Interruption Stream := do
  let start := options.entry
  let stop := start + size
  let inRange := Guest.Site.inRange ⟨start, start, stop⟩
  let isEntry (address : Address) : Bool :=
    address = start || (address ∈ options.entries && inRange address)
  let count := if start < stop then (stop - start).toNat / 4 else 0
  let (list, progress) ← pieces memory options.inlines start stop isEntry count start {}
  if progress.slots.length > maxRegisters then
    .error (.fault (.unsupported start 0
      s!"function needs {progress.slots.length} virtual registers"))
  else
    let targets := list.flatMap Piece.targets
    let code := list.flatMap (Piece.code targets)
    return {
      entry := start
      size
      instructions := code ++ closing targets stop code
      ranges := ⟨start, size⟩ :: progress.callees
      slots := progress.slots
      entries := (list.filter (·.enters)).map (·.address) }

/-- The size of the code that is asked for. -/
def extent (memory : Memory) (options : Options) : Except Interruption UInt32 := do
  if options.count > 0 then return UInt32.ofInt options.count * 4
  else
    let limit := if options.limit > 0 then UInt32.ofInt options.limit else Guest.defaultLimit
    let range ← Guest.Tracker.track { memory, limit } options.entry
    return range.size

/-- The stream of a function. -/
def generate (memory : Memory) (options : Options) : Except Interruption Stream := do
  ofRange memory options (← extent memory options)

end Stream
end Dynarec
