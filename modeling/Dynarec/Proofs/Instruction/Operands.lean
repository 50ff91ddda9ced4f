import Dynarec.Instruction.Usage
import Mathlib.Data.List.Nodup

/-!
# Operands and their replacement

The registers that an instruction reads and writes are among its operands, and
its accesses name each of them once.  When operands are replaced, the rest of
the instruction, its shape, stays.
-/

namespace Dynarec.Instruction

open List

variable {ρ σ : Type}

/-- An instruction without the names of its registers. -/
def shape (instr : Instruction ρ) : Instruction Unit :=
  instr.mapRegisters fun _ => some ()

theorem mem_operands_of_mem_reads {instr : Instruction ρ} (mem : reg ∈ instr.reads) :
    reg ∈ instr.operands := by
  unfold reads readOperands at mem
  unfold operands
  grind

theorem mem_operands_of_mem_writes {instr : Instruction ρ} (mem : reg ∈ instr.writes) :
    reg ∈ instr.operands := by
  unfold writes writeOperands at mem
  unfold operands
  grind

/-- Whether an instruction names only operands that instructions of its kind use. -/
def usesOperands (instr : Instruction ρ) : Bool :=
  match instr.kind with
  | .tripleCarry => true
  | .triple | .loadIndexed | .storeIndexed => instr.carry.isNone
  | .pairImmediateCarry => instr.right.isNone
  | .pair | .pairImmediate | .load | .store =>
      instr.right.isNone && instr.carry.isNone
  | .copy => instr.result.isNone && instr.carry.isNone
  | .immediate | .conditionalImmediate | .loadSlot | .storeSlot =>
      instr.left.isNone && instr.right.isNone && instr.carry.isNone
  | _ =>
      instr.result.isNone && instr.left.isNone && instr.right.isNone &&
        instr.carry.isNone

theorem usesOperands_shape (instr : Instruction ρ) :
    instr.shape.usesOperands = instr.usesOperands := by
  have kept (operand : Option ρ) : (operand.bind fun _ => some ()).isNone = operand.isNone := by
    cases operand <;> rfl
  simp only [usesOperands, shape, mapRegisters, kept]

theorem mem_reads_or_writes {instr : Instruction ρ} (uses : instr.usesOperands)
    (mem : reg ∈ instr.operands) : reg ∈ instr.reads ∨ reg ∈ instr.writes := by
  have listed : instr.result = some reg ∨ instr.left = some reg ∨
      instr.right = some reg ∨ instr.carry = some reg := by
    simpa [operands, eq_comm] using mem
  have found {operand} (named : operand = some reg)
      (used : operand ∈ instr.readOperands ∨ operand ∈ instr.writeOperands) :
      reg ∈ instr.reads ∨ reg ∈ instr.writes := by
    simpa [reads, writes, named] using used
  unfold usesOperands at uses
  unfold readOperands writeOperands at found
  rcases listed with named | named | named | named
  all_goals
    refine found named ?_
    cases kind : instr.kind <;> simp_all
  -- what is left depends on the operation
  all_goals cases instr.op <;> simp

theorem readOperands_mapRegisters (image : ρ → Option σ) (instr : Instruction ρ) :
    (instr.mapRegisters image).readOperands = instr.readOperands.map (·.bind image) := by
  obtain ⟨kind, op⟩ := instr
  cases kind with
  | pair | immediate | pairImmediate | tripleCarry | pairImmediateCarry => cases op <;> rfl
  | _ => rfl

theorem writeOperands_mapRegisters (image : ρ → Option σ) (instr : Instruction ρ) :
    (instr.mapRegisters image).writeOperands = instr.writeOperands.map (·.bind image) := by
  obtain ⟨kind, op⟩ := instr
  cases kind with
  | pair | immediate => cases op <;> rfl
  | _ => rfl

private theorem filterMap_bind {value : ρ → σ} {operands : List (Option ρ)}
    (total : ∀ reg ∈ operands.filterMap id, image reg = some (value reg)) :
    (operands.map (·.bind image)).filterMap id = (operands.filterMap id).map value := by
  induction operands with
  | nil => rfl
  | cons operand operands ih =>
    cases operand with
    | none => exact ih total
    | some reg =>
      obtain ⟨first, others⟩ := forall_mem_cons.mp total
      rw [map_cons, Option.bind_some, first]
      exact congrArg (value reg :: ·) (ih others)

section

variable {image : ρ → Option σ} {value : ρ → σ} {instr : Instruction ρ}
  (total : ∀ reg ∈ instr.operands, image reg = some (value reg))

include total

theorem reads_mapRegisters : (instr.mapRegisters image).reads = instr.reads.map value := by
  rw [reads, readOperands_mapRegisters, filterMap_bind]
  · rfl
  · exact fun reg mem => total reg (mem_operands_of_mem_reads mem)

theorem writes_mapRegisters : (instr.mapRegisters image).writes = instr.writes.map value := by
  rw [writes, writeOperands_mapRegisters, filterMap_bind]
  · rfl
  · exact fun reg mem => total reg (mem_operands_of_mem_writes mem)

theorem shape_mapRegisters : (instr.mapRegisters image).shape = instr.shape := by
  have kept operand (listed : ∀ reg, operand = some reg → reg ∈ instr.operands) :
      (operand.bind image).bind (fun _ => some ()) = operand.bind fun _ => some () := by
    cases operand with
    | none => rfl
    | some reg =>
      rw [Option.bind_some, total reg (listed reg rfl)]
      rfl
  unfold shape mapRegisters
  simp only [Instruction.mk.injEq, true_and, and_true]
  refine ⟨kept _ ?_, kept _ ?_, kept _ ?_, kept _ ?_⟩ <;>
  · intro reg equal
    simp [operands, equal]

end

/-! ## Accesses -/

theorem length_readOperands_le (instr : Instruction ρ) : instr.readOperands.length ≤ 4 := by
  unfold readOperands
  split <;> (try split) <;> grind

theorem length_writeOperands_le (instr : Instruction ρ) : instr.writeOperands.length ≤ 2 := by
  unfold writeOperands
  split <;> (try split) <;> grind

section

variable [DecidableEq ρ]

private theorem foldl_collect (nodup : collected.Nodup) (pending : List ρ) :
    let all := pending.foldl
      (fun seen reg => if reg ∈ seen then seen else seen ++ [reg]) collected
    all.Nodup ∧ ∀ reg, reg ∈ all ↔ reg ∈ collected ∨ reg ∈ pending := by
  induction pending generalizing collected with
  | nil => simpa using nodup
  | cons head pending ih =>
    rw [foldl_cons]
    by_cases present : head ∈ collected
    · rw [if_pos present]
      refine ⟨(ih nodup).1, fun reg => ((ih nodup).2 reg).trans ?_⟩
      rw [mem_cons]
      constructor
      · rintro (inside | inside)
        · exact .inl inside
        · exact .inr (.inr inside)
      · rintro (inside | rfl | inside)
        · exact .inl inside
        · exact .inl present
        · exact .inr inside
    · rw [if_neg present]
      have nodup : (collected ++ [head]).Nodup := by
        rw [← concat_eq_append]
        exact nodup.concat present
      refine ⟨(ih nodup).1, fun reg => ((ih nodup).2 reg).trans ?_⟩
      simp [or_assoc]

theorem mem_registers_iff (instr : Instruction ρ) (reg : ρ) :
    reg ∈ instr.registers ↔ reg ∈ instr.reads ∨ reg ∈ instr.writes := by
  rw [registers, (foldl_collect nodup_nil _).2]
  simp

theorem mem_accesses_iff (instr : Instruction ρ) (access : Access ρ) :
    access ∈ instr.accesses ↔ (access.register ∈ instr.reads ∨ access.register ∈ instr.writes) ∧
        (access.read = true ↔ access.register ∈ instr.reads) ∧
        (access.write = true ↔ access.register ∈ instr.writes) := by
  obtain ⟨reg, read, write⟩ := access
  simp only [accesses, mem_map, Access.mk.injEq, mem_registers_iff]
  constructor
  · rintro ⟨_, used, rfl, rfl, rfl⟩
    simp [used]
  · rintro ⟨used, reads, writes⟩
    exact ⟨reg, used, rfl, by simp [← reads], by simp [← writes]⟩

/-- A replacement of registers replaces them where they are read and written and changes nothing
else; an instruction reads at most four registers, writes at most two, and its accesses tell of
each of them once how it is used. -/
theorem usage_commutes_with_replacement (instruction : Instruction ρ) (image : ρ → σ) :
    let replaced := instruction.mapRegisters fun register => some (image register)
    replaced.reads = instruction.reads.map image ∧
      replaced.writes = instruction.writes.map image ∧
      replaced = { instruction with
        result := instruction.result.map image
        left := instruction.left.map image
        right := instruction.right.map image
        carry := instruction.carry.map image } ∧
      instruction.reads.length ≤ 4 ∧ instruction.writes.length ≤ 2 ∧
      (instruction.accesses.map (·.register)).Nodup ∧
      ∀ access, access ∈ instruction.accesses ↔
        (access.register ∈ instruction.reads ∨ access.register ∈ instruction.writes) ∧
          (access.read = true ↔ access.register ∈ instruction.reads) ∧
          (access.write = true ↔ access.register ∈ instruction.writes) := by
  have total : ∀ reg ∈ instruction.operands, some (image reg) = some (image reg) :=
    fun _ _ => rfl
  refine ⟨reads_mapRegisters total, writes_mapRegisters total, ?_, ?_, ?_, ?_,
    instruction.mem_accesses_iff⟩
  · simp only [mapRegisters, Option.map_eq_bind, Function.comp_def]
  · exact Nat.le_trans (length_filterMap_le ..) instruction.length_readOperands_le
  · exact Nat.le_trans (length_filterMap_le ..) instruction.length_writeOperands_le
  · rw [accesses, map_map]
    exact (map_id' instruction.registers).symm ▸ (foldl_collect nodup_nil _).1

end

@[simp] theorem operands_loadSlot (reg : Option ρ) (slot : Slot) :
    (loadSlot reg slot).operands = reg.toList := by
  cases reg <;> rfl

@[simp] theorem operands_storeSlot (slot : Slot) (reg : Option ρ) :
    (storeSlot slot reg).operands = reg.toList := by
  cases reg <;> rfl

theorem exists_of_mem_operands_mapRegisters {instr : Instruction ρ}
    (listed : operand ∈ (instr.mapRegisters image).operands) :
    ∃ reg ∈ instr.operands, image reg = some operand := by
  simp only [operands, mapRegisters, mem_filterMap, id_eq, exists_eq_right, mem_cons,
    not_mem_nil, or_false] at listed ⊢
  rcases listed with found | found | found | found <;>
  · obtain ⟨reg, operand_eq, image_eq⟩ := Option.bind_eq_some_iff.mp found.symm
    exact ⟨reg, by simp [operand_eq], image_eq⟩

@[simp] theorem isSuffix_mapRegisters (image : ρ → Option σ) (instr : Instruction ρ) :
    (instr.mapRegisters image).isSuffix = instr.isSuffix := rfl

theorem exists_mem_of_map_shape_eq {code : List (Instruction ρ)} {other : List (Instruction σ)}
    (same : other.map shape = code.map shape) (mem : instr ∈ other) :
    ∃ orig ∈ code, instr.shape = orig.shape := by
  have listed := mem_map_of_mem (f := shape) mem
  rw [same] at listed
  obtain ⟨orig, originalMem, equal⟩ := mem_map.mp listed
  exact ⟨orig, originalMem, equal.symm⟩

end Dynarec.Instruction
