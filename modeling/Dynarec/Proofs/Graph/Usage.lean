import Dynarec.Proofs.Graph.Slots

/-!
# Operands of built code

The code of a built graph names only registers of its table, and every
instruction reads or writes all the registers that it names.
-/

namespace Dynarec

open Instruction List

/-- An instruction that uses its operands, all of which are among `count` registers. -/
structure Instruction.Uses (count : Nat) (instr : Instruction Register) : Prop where
  used : instr.usesOperands
  bounds : ∀ reg ∈ instr.operands, 0 ≤ reg ∧ reg < count

variable {count : Nat} {instr : Instruction Register}

namespace Instruction

theorem uses_of_operands_eq_nil (unnamed : instr.operands = []) (count : Nat) :
    instr.Uses count := by
  refine ⟨?_, by simp [unnamed]⟩
  simp only [operands, filterMap_eq_nil_iff, id_eq, forall_mem_cons] at unnamed
  obtain ⟨result, left, right, carry, -⟩ := unnamed
  unfold usesOperands
  split <;> simp [result, left, right, carry]

theorem Uses.operands_eq_nil (uses : instr.Uses count)
    (isSuffix : instr.isSuffix) : instr.operands = [] := by
  refine eq_nil_iff_forall_not_mem.mpr fun reg mem => ?_
  have used := mem_reads_or_writes uses.used mem
  simp only [reads, writes, readOperands, writeOperands] at used
  unfold Instruction.isSuffix at isSuffix
  split at isSuffix <;> simp_all

end Instruction

theorem Segment.getElem?_body {seg : Segment} (placed : WellPlaced seg.instructions)
    {index : Nat} (found : seg.instructions[index]? = some instr)
    (inside : instr.isSuffix = false) : seg.body[index]? = some instr := by
  rcases eq_nil_or_concat' seg.instructions with empty | ⟨front, last, split⟩
  · rw [empty] at found
    cases found
  · have early : ∀ other ∈ front, (!other.isSuffix) = true := by
      intro other listed
      have plain := placed.suffix_last other
      rw [split, dropLast_concat] at plain
      simp [plain listed]
    rw [split] at found
    rw [Segment.body, split, takeWhile_append_of_pos early]
    cases final : last.isSuffix with
    | false => simpa [final] using found
    | true =>
      rw [takeWhile_cons_of_neg (by simp [final]), append_nil]
      by_cases before : index < front.length
      · rwa [getElem?_append_left before] at found
      · rw [getElem?_append_right (Nat.not_lt.mp before)] at found
        rw [mem_singleton.mp (mem_of_getElem? found), final] at inside
        cases inside

namespace Stream

theorem Piece.BoundIn.uses {start stop} {piece : Piece}
    (bound : piece.BoundIn memory inlines start stop table) :
    ∀ instr ∈ piece.fragment, instr.Uses table.length := by
  obtain ⟨word, operation, lowered, -, decoded, done, listed, fragment_eq⟩ := bound
  rw [fragment_eq]
  refine forall_mem_map.mpr fun orig mem => ?_
  have uses : (orig.mapRegisters (registerIn table)).Uses table.length := by
    refine ⟨?_, fun reg named => ?_⟩
    · rw [← usesOperands_shape, shape_registerIn (listed orig mem),
        usesOperands_shape, ((fits_of_lower decoded done).guest orig mem).uses]
    · obtain ⟨slot, -, place⟩ := exists_of_mem_operands_mapRegisters named
      obtain ⟨lower, upper, -⟩ := getElem?_of_registerIn place
      exact ⟨lower, upper⟩
  unfold placeAt
  split
  · exact ⟨uses.used, uses.bounds⟩
  · exact uses

theorem uses_of_generate (generated : generate memory options = .ok stream) :
    ∀ instr ∈ stream.instructions, instr.Uses stream.slots.length := by
  intro instr mem
  rcases (bound_of_generate generated).2.2 instr mem with unnamed | ⟨piece, here, bound⟩
  · exact uses_of_operands_eq_nil unnamed _
  · exact bound.uses instr here

end Stream

namespace Graph

/-- A graph whose code uses registers of its table. -/
def UsesTable (g : Graph) : Prop :=
  ∀ id ∈ g.order, ∀ instr ∈ (g.segment id).instructions,
    instr.Uses g.slots.length

theorem usesTable_of_build (generated : Stream.generate memory options = .ok stream)
    (built : build stream buildOptions = .ok g) : g.UsesTable := by
  have persists : Persists (Instruction.Uses stream.slots.length) := by
    refine ⟨fun unnamed _ => uses_of_operands_eq_nil unnamed _,
      fun {assignment} uses jump => ⟨rfl, fun reg listed => uses.bounds reg ?_⟩⟩
    have named : assignment.result = some reg := by
      simpa [conditionalMove, conditionalImmediate, operands, eq_comm] using listed
    simp [operands, named]
  have upholds := upholds_of_build generated built persists fun tiled instr listed => by
    rw [← tiled.dropUnusedJumpmarks_eq] at listed
    exact Stream.uses_of_generate generated instr (mem_of_mem_filter listed)
  intro id mem
  rw [upholds.slots_eq]
  exact upholds.all mem

theorem Subdivides.usesTable {orig g : Graph} (subdivides : orig.Subdivides g)
    (uses : orig.UsesTable) : g.UsesTable := by
  have slots_eq : g.slots = orig.slots := by rw [subdivides.shape_eq]
  rw [UsesTable, slots_eq]
  exact subdivides.forall_code (motive := fun code => ∀ instr ∈ code, instr.Uses orig.slots.length)
    (forall_mem_nil _) uses

end Graph
end Dynarec
