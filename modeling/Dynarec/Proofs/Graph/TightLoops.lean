import Dynarec.Graph.Build
import Dynarec.Proofs.Except
import Dynarec.Proofs.Run.Execution
import Dynarec.Stream.Generate
import Mathlib.Data.Int.GCD
import Mathlib.Data.Nat.Prime.Basic

/-!
# Tight loops

A segment that loops to itself gets no cycle check if it counts down or steps
one register.  Whether it ends depends on what its closing jump tests.  If that
is a register that the segment changes in steps only, each round tests the value
of the last one and a constant, so the loop ends exactly if some value of this
sequence fails the test.  A sequence with an odd step takes every value.
-/

namespace Dynarec

open Execution List

namespace Segment

variable {seg : Segment} {state : State Register}

/-- A register changes in steps by immediates only. -/
def StepsOnly (reg : Register) (code : Code) : Prop :=
  ∀ instr ∈ code, reg ∈ instr.writes → isStep instr

/-- What an instruction adds to a register that changes in steps only. -/
def stepOf (reg : Register) (instr : Instruction Register) : Word :=
  if isStep instr && instr.result = some reg then
    if instr.op = .add then instr.imm.toUInt32 else -instr.imm.toUInt32
  else 0

/-- What some instructions add to a register that changes in steps only. -/
def stepSum (reg : Register) : Code → Word
  | [] => 0
  | instr :: rest => stepOf reg instr + stepSum reg rest

theorem isStep_iff :
    isStep instr ↔ instr.kind = .immediate ∧ (instr.op = .add ∨ instr.op = .sub) := by
  simp [isStep]

theorem writes_of_isStep (steps : isStep instr) : instr.writes = instr.result.toList := by
  obtain ⟨kind, op | op⟩ := isStep_iff.mp steps <;>
    cases result : instr.result <;>
    simp [Instruction.writes, Instruction.writeOperands, kind, op, result]

theorem registers_execute_of_isStep (steps : isStep instr) (result : instr.result = some reg) :
    (state.execute instr).registers reg = state.registers reg + stepOf reg instr := by
  rw [stepOf, steps, result]
  obtain ⟨kind, op | op⟩ := isStep_iff.mp steps
  · simp [State.execute, State.operate, State.record, State.set, State.get, value, kind, op, result]
  · simp [State.execute, State.operate, State.record, State.set, State.get, value, kind, op,
      result, UInt32.sub_eq_add_neg]

theorem registers_execute_of_stepsOnly (state : State Register)
    (steps : reg ∈ instr.writes → isStep instr) :
    (state.execute instr).registers reg = state.registers reg + stepOf reg instr := by
  by_cases stepped : isStep instr = true ∧ instr.result = some reg
  · exact registers_execute_of_isStep stepped.1 stepped.2
  · have unwritten : reg ∉ instr.writes := by
      intro written
      refine stepped ⟨steps written, ?_⟩
      rw [writes_of_isStep (steps written)] at written
      exact Option.mem_toList.mp written
    have still : stepOf reg instr = 0 := by
      rw [stepOf, if_neg]
      simpa using stepped
    rw [State.registers_execute unwritten, still, UInt32.add_zero]

theorem registers_run_of_stepsOnly (state : State Register) (steps : StepsOnly reg code) :
    (state.run code).registers reg = state.registers reg + stepSum reg code := by
  induction code generalizing state with
  | nil => exact (UInt32.add_zero _).symm
  | cons instr rest ih =>
    have rest_eq := ih (state.execute instr)
      fun other mem => steps other (mem_cons_of_mem _ mem)
    have head_eq := registers_execute_of_stepsOnly state (steps instr mem_cons_self)
    calc
      _ = (state.execute instr).registers reg + stepSum reg rest := rest_eq
      _ = _ := by rw [head_eq, stepSum, UInt32.add_assoc]

theorem registers_iterate_of_stepsOnly (steps : StepsOnly reg code) (rounds : Nat) :
    ((State.run · code)^[rounds] state).registers reg =
      state.registers reg + UInt32.ofNat rounds * stepSum reg code := by
  induction rounds with
  | zero => simp
  | succ rounds ih =>
    rw [Function.iterate_succ_apply', registers_run_of_stepsOnly _ steps, ih,
      UInt32.ofNat_add, UInt32.add_mul, UInt32.add_assoc]
    simp

theorem exists_rounds_of_odd (odd : Odd step.toNat) (start goal : Word) :
    ∃ rounds : Nat, start + UInt32.ofNat rounds * step = goal := by
  have coprime : Nat.Coprime step.toNat (2 ^ 32) := odd.coprime_two_right.pow_right 32
  obtain ⟨inverse, -, inverted⟩ := Nat.exists_mul_mod_eq_one_of_coprime coprime (by decide)
  have unit : UInt32.ofNat inverse * step = 1 := by
    apply UInt32.toNat_inj.mp
    rw [UInt32.toNat_mul, UInt32.toNat_ofNat', Nat.mod_mul_mod, Nat.mul_comm]
    exact inverted
  refine ⟨(goal - start).toNat * inverse, ?_⟩
  calc
    _ = start + (goal - start) * (UInt32.ofNat inverse * step) := by
      rw [UInt32.ofNat_mul, UInt32.ofNat_toNat, UInt32.mul_assoc]
    _ = start + (goal - start) := by rw [unit, UInt32.mul_one]
    _ = goal := by rw [UInt32.add_comm, UInt32.sub_add_cancel]

/-- Control falls out of a loop in some round, if the loop is entered in the given state. -/
def Leaves (seg : Segment) (state : State Register) : Prop :=
  ∃ jump, seg.last? = some jump ∧
    ∃ rounds, ((State.run · seg.instructions)^[rounds + 1] state).passes jump = false

/-- The closing jump of a segment tests what an instruction of the segment has found out about a
register: how it compares with an immediate, or how a step of it compares with zero. -/
structure ClosingTest (seg : Segment) (reg : Register) where
  front : Code
  decider : Instruction Register
  back : Code
  jump : Instruction Register
  code_eq : seg.instructions = front ++ decider :: (back ++ [jump])
  kind_eq : jump.kind = .jump
  guard_eq : jump.guard = .conditionBit
  bit_lt : jump.guardBit < 3
  compares : isStep decider = true ∨ decider.kind = .immediate ∧
    (decider.op = .compareSigned ∨ decider.op = .compareUnsigned)
  result_eq : decider.result = some reg
  field_eq : decider.conditionField = some jump.guardField
  /-- What was found out is still known at the jump. -/
  undisturbed : ∀ instr ∈ back, State.touches instr jump.guardField = false

namespace ClosingTest

def reference (test : ClosingTest seg reg) : Word :=
  if isStep test.decider then 0 else test.decider.imm.toUInt32

/-- Whether the loop goes on if the register is found to hold a value. -/
def goesOn (test : ClosingTest seg reg) (value : Word) : Bool :=
  Execution.compares test.decider.conditionMode value test.reference test.jump.guardBit ==
    test.jump.guardSet

/-- What one round adds to the register before it is compared. -/
def offset (test : ClosingTest seg reg) : Word :=
  stepSum reg test.front + stepOf reg test.decider

variable (test : ClosingTest seg reg)

theorem conditions_execute_decider (state : State Register) :
    (state.execute test.decider).conditions test.jump.guardField test.jump.guardBit =
      Execution.compares test.decider.conditionMode
        (state.registers reg + stepOf reg test.decider) test.reference test.jump.guardBit := by
  have field := test.field_eq
  have bit := test.bit_lt
  by_cases steps : isStep test.decider = true
  · rw [← registers_execute_of_isStep steps test.result_eq, reference, if_pos steps]
    obtain ⟨kind, op | op⟩ := isStep_iff.mp steps <;>
      simp [State.execute, State.operate, State.record, State.set, State.get, kind, op, field,
        bit, test.result_eq]
  · obtain ⟨kind, op⟩ := test.compares.resolve_left steps
    have still : stepOf reg test.decider = 0 := by simp [stepOf, steps]
    rw [still, UInt32.add_zero, reference, if_neg steps]
    rcases op with op | op <;>
      simp [State.execute, State.operate, State.record, State.get, kind, op, field, bit,
        test.result_eq]

theorem passes_run (steps : StepsOnly reg seg.instructions) (state : State Register) :
    (state.run seg.instructions).passes test.jump =
      test.goesOn (state.registers reg + test.offset) := by
  have split_eq := test.code_eq
  have frontSteps : StepsOnly reg test.front := by
    intro instr mem
    refine steps instr ?_
    rw [split_eq]
    exact mem_append_left _ mem
  have jumpKept : State.touches test.jump test.jump.guardField = false := by
    simp [State.touches, test.kind_eq]
  have kept : ∀ instr ∈ test.back ++ [test.jump],
      State.touches instr test.jump.guardField = false := by
    intro instr mem
    rcases mem_append.mp mem with behind | last
    · exact test.undisturbed instr behind
    · rwa [mem_singleton.mp last]
  have run_eq : state.run seg.instructions =
      (((state.run test.front).execute test.decider).run (test.back ++ [test.jump])) := by
    rw [split_eq, State.run, foldl_append]
    rfl
  rw [State.passes, test.guard_eq, run_eq, State.conditions_run _ kept,
    test.conditions_execute_decider, registers_run_of_stepsOnly _ frontSteps, UInt32.add_assoc]
  rfl

theorem leaves_iff (steps : StepsOnly reg seg.instructions) (state : State Register) :
    seg.Leaves state ↔ ∃ rounds : Nat, test.goesOn (state.registers reg +
      UInt32.ofNat rounds * stepSum reg seg.instructions + test.offset) = false := by
  have last : seg.last? = some test.jump := by
    rw [last?, test.code_eq]
    simp [getLast?_cons]
  have passes_eq rounds : ((State.run · seg.instructions)^[rounds + 1] state).passes test.jump =
        test.goesOn (state.registers reg +
          UInt32.ofNat rounds * stepSum reg seg.instructions + test.offset) := by
    rw [Function.iterate_succ_apply', test.passes_run steps, registers_iterate_of_stepsOnly steps]
  constructor
  · rintro ⟨jump, isLast, rounds, left⟩
    cases isLast.symm.trans last
    exact ⟨rounds, passes_eq rounds ▸ left⟩
  · rintro ⟨rounds, fails⟩
    exact ⟨test.jump, last, rounds, (passes_eq rounds).trans fails⟩

end ClosingTest

/-- A register that a loop counts with: it is stepped silently and changed in no other way, or
nothing but counting down changes it. -/
def IsCounter (seg : Segment) (reg : Register) : Prop :=
  some reg ∈ seg.steppedOnly ∨
    ∀ instr ∈ seg.instructions, reg ∈ instr.writes →
      isCountdown instr

theorem IsCounter.stepsOnly (counter : seg.IsCounter reg) : StepsOnly reg seg.instructions := by
  intro instr mem written
  rcases counter with stepped | counted
  · have silent : isSilentStep instr := by
      by_contra loud
      have outside := (mem_filter.mp stepped).2
      simp only [decide_eq_true_eq, mem_flatMap, mem_filter] at outside
      exact outside ⟨instr, ⟨mem, by simpa using loud⟩, written⟩
    simp only [isSilentStep, Bool.and_eq_true] at silent
    exact silent.1
  · have counts := counted instr mem written
    simp only [isCountdown, Bool.and_eq_true] at counts
    exact counts.1.1

/-- A tight loop gets no cycle check.  If its closing jump tests a register that it counts with,
the loop is left exactly if one of the values that the register takes fails the test.  It is left
from every state if one round changes the register by an odd number and some value fails the
test. -/
theorem tight_loops_end
    (segment : Segment)
    (register : Register)
    (tight : segment.isTightFiniteLoop = true)
    (counter : segment.IsCounter register)
    (test : ClosingTest segment register) :
    let step := stepSum register segment.instructions
    segment.needsCycleCheck = false ∧
      (∀ state, segment.Leaves state ↔ ∃ rounds : Nat, test.goesOn
        (state.registers register + UInt32.ofNat rounds * step + test.offset) = false) ∧
      (Odd step.toNat → (∃ value, test.goesOn value = false) → ∀ state, segment.Leaves state) := by
  have leaves_iff := test.leaves_iff counter.stepsOnly
  refine ⟨?_, leaves_iff, fun odd fails state => ?_⟩
  · rw [needsCycleCheck]
    split
    · rfl
    · simp [tight]
  · obtain ⟨value, fails⟩ := fails
    obtain ⟨rounds, reached⟩ := exists_rounds_of_odd odd (state.registers register)
      (value - test.offset)
    refine (leaves_iff state).mpr ⟨rounds, ?_⟩
    rw [reached, UInt32.sub_add_cancel]
    exact fails

end Segment

namespace Graph

/-- The code of a loop at `0x1000` that steps register 0 and tests what an instruction finds out
about register 1. -/
def steppingLoop (cycles : UInt32) (decider jump : Instruction Register) : Code :=
  [.ofRoutine .countCycles cycles 0,
    { Instruction.immediate .add (some 0) 1 {} with address := 0x1000 }, decider, jump]

/-- `addi r3, r3, 1; bdnz 0x1000; blr`: a loop that counts down. -/
def countdown : Image where
  base := 0x1000
  data := #[0x38, 0x63, 0, 1, 0x42, 0, 0xFF, 0xFC, 0x4E, 0x80, 0, 0x20]

theorem countdown_ends :
    ∃ stream graph, Stream.generate countdown.memory { entry := 0x1000, count := 3 } = .ok stream ∧
      build stream {} = .ok graph ∧ (graph.segment 0).isTightFiniteLoop = true ∧
      (graph.segment 0).IsCounter 1 ∧ ∀ state, (graph.segment 0).Leaves state := by
  let decider : Instruction Register :=
    { Instruction.immediate .sub (some 1) 1 { field := some 8, mode := .logical } with
      address := 0x1004 }
  let jump : Instruction Register :=
    { Instruction.jumpIf 0x1000 { field := 8, bit := 2, isSet := false } with address := 0x1004 }
  have evaluated : ((Stream.generate countdown.memory { entry := 0x1000, count := 3 }).toOption.any
      fun stream => (build stream {}).toOption.any fun graph =>
        (graph.segment 0).isTightFiniteLoop &&
          (graph.segment 0).instructions = steppingLoop 2 decider jump) = true := by
    decide +kernel
  obtain ⟨stream, generated, evaluated⟩ := of_any_toOption evaluated
  obtain ⟨graph, built, evaluated⟩ := of_any_toOption evaluated
  simp only [Bool.and_eq_true, decide_eq_true_eq] at evaluated
  obtain ⟨tight, code_eq⟩ := evaluated
  have counter : (graph.segment 0).IsCounter 1 := by
    refine .inr ?_
    rw [code_eq]
    decide
  let test : (graph.segment 0).ClosingTest 1 :=
    { front := (steppingLoop 2 decider jump).take 2, decider, back := [], jump, code_eq
      kind_eq := rfl, guard_eq := rfl, bit_lt := by decide, compares := .inl rfl
      result_eq := rfl, field_eq := rfl, undisturbed := by simp }
  refine ⟨stream, graph, generated, built, tight, counter, ?_⟩
  refine (Segment.tight_loops_end _ 1 tight counter test).2.2 ?_ ⟨0, rfl⟩
  rw [code_eq]
  decide

/-- `addi r3, r3, 1; cmpwi r4, 0; beq 0x1000; blr`: a loop that steps one register and tests
another. -/
def waiting : Image where
  base := 0x1000
  data := #[0x38, 0x63, 0, 1, 0x2C, 4, 0, 0, 0x41, 0x82, 0xFF, 0xF8, 0x4E, 0x80, 0, 0x20]

/-- The loop counts as finite and gets no cycle check, but it is never left while the register
that it tests is zero. -/
theorem waiting_spins :
    ∃ stream graph, Stream.generate waiting.memory { entry := 0x1000, count := 4 } = .ok stream ∧
      build stream {} = .ok graph ∧ (graph.segment 0).isTightFiniteLoop = true ∧
      (graph.segment 0).needsCycleCheck = false ∧
      ∀ state : State Register, state.registers 1 = 0 → ¬(graph.segment 0).Leaves state := by
  let decider : Instruction Register :=
    { Instruction.immediate .compareSigned (some 1) 0
        { field := some 0, mode := .compareSigned } with address := 0x1004 }
  let jump : Instruction Register :=
    { Instruction.jumpIf 0x1000 { field := 0, bit := 2, isSet := true } with address := 0x1008 }
  have evaluated : ((Stream.generate waiting.memory { entry := 0x1000, count := 4 }).toOption.any
      fun stream => (build stream {}).toOption.any fun graph =>
        (graph.segment 0).isTightFiniteLoop && !(graph.segment 0).needsCycleCheck &&
          (graph.segment 0).instructions = steppingLoop 3 decider jump) = true := by
    decide +kernel
  obtain ⟨stream, generated, evaluated⟩ := of_any_toOption evaluated
  obtain ⟨graph, built, evaluated⟩ := of_any_toOption evaluated
  simp only [Bool.and_eq_true, Bool.not_eq_true', decide_eq_true_eq] at evaluated
  obtain ⟨⟨tight, unchecked⟩, code_eq⟩ := evaluated
  have steps : Segment.StepsOnly 1 (graph.segment 0).instructions := by
    rw [code_eq, Segment.StepsOnly]
    decide
  have still : Segment.stepSum 1 (graph.segment 0).instructions = 0 := by
    rw [code_eq]
    decide
  let test : (graph.segment 0).ClosingTest 1 :=
    { front := (steppingLoop 3 decider jump).take 2, decider, back := [], jump, code_eq
      kind_eq := rfl, guard_eq := rfl, bit_lt := by decide, compares := .inr ⟨rfl, .inl rfl⟩
      result_eq := rfl, field_eq := rfl, undisturbed := by simp }
  refine ⟨stream, graph, generated, built, tight, unchecked, fun state zero left => ?_⟩
  obtain ⟨rounds, fails⟩ := (test.leaves_iff steps state).mp left
  rw [zero, still, UInt32.mul_zero] at fails
  exact Bool.noConfusion fails

end Graph
end Dynarec
