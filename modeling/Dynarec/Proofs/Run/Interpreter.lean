import Dynarec.Graph.ConditionalMove
import Dynarec.Proofs.Run.Machine
import Dynarec.Stream.Basic

/-!
# Execution of streams and of graphs

An interpreter says what instructions do to the registers and to everything
else.  It knows immediate assignments, which may be conditional, and the tests
of jumps; any other instruction has an arbitrary effect.

A stream is executed from one instruction to the next, and jumps go to the
jumpmark of their target.  A graph is executed along its links.  A check for
remaining cycles may go either way at any time.
-/

namespace Dynarec

namespace Interpreter

/-- The registers and everything else. -/
structure State (V E : Type) where
  registers : Register → V
  /-- Everything else, the condition register among it. -/
  environment : E

/-- What an execution shows. -/
inductive Event (V E : Type) where
  | assigned (reg : Option Register) (imm : Int32) (after : State V E)
  | performed (instr : Instruction Register) (after : State V E)
  | yielded
  | exited (routine : Routine) (param param2 : UInt32) (state : State V E)
  /-- Control fell off the end of the code. -/
  | fell (state : State V E)

end Interpreter

open Interpreter

/-- What instructions do to registers with values in `V` and an environment in `E`. -/
structure Interpreter (V E : Type) where
  effect : Instruction Register → State V E → State V E
  constant : Int32 → V
  /-- The value of a bit of a condition register field. -/
  bit : E → UInt8 → UInt8 → Bool

namespace Interpreter

variable {V E : Type} (interp : Interpreter V E)

/-- Whether the test of a jump or of a conditional assignment holds. -/
def passes (instr : Instruction Register) (state : State V E) : Bool :=
  match instr.guard with
  | .always => true
  | .conditionBit =>
      interp.bit state.environment instr.guardField instr.guardBit ==
        instr.guardSet
  | .unassigned _ => false

/-- The immediate of an instruction assigned to its result. -/
def assign (instr : Instruction Register) (state : State V E) : State V E × List (Event V E) :=
  let registers := match instr.result with
    | none => state.registers
    | some reg =>
        Function.update state.registers reg (interp.constant instr.imm)
  let after := { state with registers }
  (after, [.assigned instr.result instr.imm after])

/-- The effect of an instruction that does not end a segment.  Placeholders, no-ops and cycle
counters have none. -/
def perform (instr : Instruction Register) (state : State V E) : State V E × List (Event V E) :=
  match instr.kind with
  | .noOp | .jumpmark | .enter | .routine => (state, [])
  | .conditionalImmediate =>
      if interp.passes instr state then interp.assign instr state
      else (state, [])
  | _ =>
      if Graph.isPlainAssignment instr then interp.assign instr state
      else
        let after := interp.effect instr state
        (after, [.performed instr after])

/-- How control leaves the code, by the routine that stands there or off the end. -/
def depart (code : Code) (state : State V E) : List (Event V E) :=
  match code.head? with
  | none => [.fell state]
  | some instr =>
      if instr.kind = .routine then
        [.exited instr.routine instr.param instr.param2 state]
      else [.fell state]

theorem depart_of_routine (kind_eq : instr.kind = .routine) (rest : Code) (state : State V E) :
    depart (instr :: rest) state = [.exited instr.routine instr.param instr.param2 state] :=
  if_pos kind_eq

theorem depart_of_jump (kind_eq : instr.kind = .jump) (rest : Code) (state : State V E) :
    depart (instr :: rest) state = [.fell state] :=
  if_neg (by simp [kind_eq])

def machine : Machine (State V E) (Event V E) where
  perform := interp.perform
  decides instruction state side shown after :=
    after = state ∧
      match instruction.kind with
      | .jump => side = interp.passes instruction state ∧ shown = []
      | .cycleCheck => shown = if side then [] else [.yielded]
      | _ => side = false ∧ shown = []
  arrive _ := []
  exit _ := depart

end Interpreter

/-- Where a step inside a segment leads. -/
inductive Graph.Onward {S : Type} (g : Graph) (id : SegmentId) : Standing S → Prop
  | running (rest : Code) (state : S) : Onward g id (.running id rest state)
  | entering {next : SegmentId} {side : Bool} (state : S)
      (linked : (g.segment id).link side = some next) : Onward g id (.entering next state)
  | outside : Onward g id .outside

namespace Graph.Step

variable {V E : Type} {interp : Interpreter V E} {g : Graph} {id : SegmentId}
  {state : State V E} {shown : List (Event V E)} {next : Standing (State V E)}
  (one : g.Step interp.machine (.running id left state) shown next)

include one

theorem onward : g.Onward id next := by
  cases one with
  | perform => exact .running _ _
  | follow _ link => exact .entering _ link
  | leave => exact .outside

theorem congr {other : Graph}
    (link_eq : ∀ side, (other.segment id).link side = (g.segment id).link side) :
    other.Step interp.machine (.running id left state) shown next := by
  cases one with
  | perform _ rest _ inside => exact .perform id rest state inside
  | follow ends link => exact .follow ends ((link_eq _).trans link)
  | leave ends link => exact .leave ends ((link_eq _).trans link)

end Graph.Step

/-- Where an execution of a stream stands. -/
inductive Stream.Place (S : Type) where
  | before (rest : Code) (state : S)
  | outside

namespace Stream

def fromJumpmark (stream : Stream) (target : Address) : Code :=
  stream.instructions.dropWhile (· ≠ .jumpmark target)

/-- The code from the place on where the function is entered at an address. -/
def fromEntry (stream : Stream) (addr : Address) : Code :=
  if addr = stream.entry then stream.instructions
  else stream.instructions.dropWhile (· ≠ .enter addr)

/-- The code from the first instruction on that was decoded from an address. -/
def fromAddress (stream : Stream) (addr : Address) : Code :=
  stream.instructions.dropWhile (·.address ≠ addr)

def EnteredAt (stream : Stream) (addr : Address) : Prop :=
  addr = stream.entry ∨ .enter addr ∈ stream.instructions

inductive Step {V E : Type} (stream : Stream) (interpreter : Interpreter V E) :
    Place (State V E) → List (Event V E) → Place (State V E) → Prop
  | perform {instr : Instruction Register} (rest : Code) (state : State V E)
      (inside : instr.isSuffix = false) : Step stream interpreter (.before (instr :: rest) state)
        (interpreter.perform instr state).2 (.before rest (interpreter.perform instr state).1)
  | jump {instr : Instruction Register} (rest : Code) (state : State V E)
      (kind_eq : instr.kind = .jump) (passes : interpreter.passes instr state) :
      Step stream interpreter (.before (instr :: rest) state) []
        (.before (stream.fromJumpmark instr.target) state)
  | skip {instr : Instruction Register} (rest : Code) (state : State V E)
      (kind_eq : instr.kind = .jump) (fails : interpreter.passes instr state = false) :
      Step stream interpreter (.before (instr :: rest) state) [] (.before rest state)
  /-- Control leaves by a host routine. -/
  | exit {instr : Instruction Register} (rest : Code) (state : State V E)
      (kind_eq : instr.kind = .routine) (final : instr.isSuffix) :
      Step stream interpreter (.before (instr :: rest) state)
        [.exited instr.routine instr.param instr.param2 state] .outside
  | fall (state : State V E) : Step stream interpreter (.before [] state) [.fell state] .outside

end Stream
end Dynarec
