import Dynarec.Proofs.Instruction.Operands
import Dynarec.Proofs.Run.Machine

/-!
# Meanings of instructions

A meaning says what an instruction does to the values of its registers and to
an environment that holds everything else.  It sees the instruction without its
registers: the values that are read are given in order, and so are those that
are written.

Code is run in two ways under a meaning.  Without host registers each register
is a slot of named storage.  With host registers, loads and stores move values
between them and named storage in silence.
-/

namespace Dynarec

open Function

section

variable {α β ρ V : Type} [DecidableEq α] [DecidableEq β]

/-- Values assigned to cells one after the other. -/
def assignAll : (α → V) → List α → (Nat → V) → α → V
  | contents, [], _ => contents
  | contents, cell :: rest, values =>
      assignAll (update contents cell (values 0)) rest fun index => values (index + 1)

theorem assignAll_of_not_mem (unassigned : cell ∉ cells) (contents : α → V) (values : Nat → V) :
    assignAll contents cells values cell = contents cell := by
  induction cells generalizing contents values with
  | nil => rfl
  | cons first cells ih =>
    rw [List.mem_cons, not_or] at unassigned
    rw [assignAll, ih unassigned.2, update_of_ne unassigned.1]

/-- Assigning the same values to the cells of the same registers in two places makes the cells
of a register agree if it is assigned or if they agreed before. -/
theorem assignAll_map_eq {regs : List ρ}
    (same : ∀ other ∈ regs, left other = left reg ↔ right other = right reg) {contents : α → V}
    {contents' : β → V} (values : Nat → V)
    (agree : reg ∈ regs ∨ contents (left reg) = contents' (right reg)) :
    assignAll contents (regs.map left) values (left reg) =
      assignAll contents' (regs.map right) values (right reg) := by
  induction regs generalizing contents contents' values with
  | nil => simpa [assignAll] using agree
  | cons first regs ih =>
    obtain ⟨head, others⟩ := List.forall_mem_cons.mp same
    apply ih others
    by_cases here : left first = left reg
    · exact .inr (by rw [← here, ← head.mp here, update_self, update_self])
    · have there := mt head.mpr here
      rw [update_of_ne (Ne.symm here), update_of_ne (Ne.symm there)]
      refine agree.imp_left fun member => ?_
      cases List.mem_cons.mp member with
      | inl equal => exact absurd (congrArg left equal.symm) here
      | inr behind => exact behind

end

/-- What instructions do to values in `V` and an environment in `E`. -/
structure Meaning (V E : Type) where
  /-- The values that an instruction writes and the environment behind it, from the values that
  it reads and the environment in front of it. -/
  effect : Instruction Unit → List V → E → (Nat → V) × E
  /-- The outcomes that a jump or check may have in an environment. -/
  branches : Instruction Unit → E → Bool → E → Prop

/-- A state in which registers are slots. -/
structure Named (V E : Type) where
  storage : Slot → V
  environment : E

/-- A state with host registers. -/
structure Hosted (V E : Type) where
  registers : Register → V
  storage : Slot → V
  environment : E

/-- What can be seen of a run. -/
inductive Sight (V E : Type) where
  | visit (seg : SegmentId)
  | performed (environment : E)
  /-- Control leaves a segment that nothing follows. -/
  | left (storage : Slot → V)

namespace Meaning

variable {V E : Type} (meaning : Meaning V E)

/-- The outcomes of an instruction at the end of a segment.  Routines have no links to decide
between. -/
def decides (instr : Instruction Register) (environment : E) (side : Bool) (after : E) :
    Prop :=
  if instr.kind = .routine then after = environment
  else meaning.branches instr.shape environment side after

/-- What is shown where control leaves a segment. -/
def exit (seg : Segment) (storage : Slot → V) : List (Sight V E) :=
  if seg.successors = [] then [.left storage] else []

/-- Code whose registers are slots.  Only the visits of some segments are shown. -/
def named (slotOf : Register → Slot) (visible : List SegmentId) :
    Machine (Named V E) (Sight V E) where
  perform instruction state :=
    let (values, environment) := meaning.effect instruction.shape
      (instruction.reads.map fun reg => state.storage (slotOf reg)) state.environment
    (⟨assignAll state.storage (instruction.writes.map slotOf) values, environment⟩,
      [.performed environment])
  decides instruction state side shown after :=
    shown = [] ∧ after.storage = state.storage ∧
      meaning.decides instruction state.environment side after.environment
  arrive id := if id ∈ visible then [.visit id] else []
  exit segment _ state := exit segment state.storage

/-- Code whose registers are those of the host.  Only the visits of some segments are shown. -/
def hosted (visible : List SegmentId) : Machine (Hosted V E) (Sight V E) where
  perform instruction state :=
    match instruction.kind with
    | .loadSlot =>
        ({ state with
          registers := assignAll state.registers instruction.writes
            fun _ => state.storage instruction.slot }, [])
    | .storeSlot =>
        ({ state with
          storage := instruction.reads.foldl
            (fun storage reg =>
              update storage instruction.slot (state.registers reg))
            state.storage }, [])
    | _ =>
        let (values, environment) := meaning.effect instruction.shape
          (instruction.reads.map state.registers) state.environment
        ({ state with
          registers := assignAll state.registers instruction.writes values
          environment }, [.performed environment])
  decides instruction state side shown after :=
    shown = [] ∧ after.registers = state.registers ∧ after.storage = state.storage ∧
      meaning.decides instruction state.environment side after.environment
  arrive id := if id ∈ visible then [.visit id] else []
  exit segment _ state := exit segment state.storage

end Meaning
end Dynarec
