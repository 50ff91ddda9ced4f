import Dynarec.Proofs.Instruction.Operands
import Dynarec.Stream.Basic

/-!
# Tables of slots

Binding the operands of code extends the table of slots by those that it does not
have yet.  An operand is bound to the place of its slot, which is the same in
every table that continues the one it was bound in.
-/

namespace Dynarec

open List

/-- A table with a slot behind it, unless the table has the slot. -/
def extend (table : List Slot) (slot : Slot) : List Slot :=
  if slot ∈ table then table else table ++ [slot]

/-- The register that stands for a slot in a table. -/
def registerIn (table : List Slot) (slot : Slot) : Option Register :=
  (table.idxOf? slot).map Int.ofNat

variable {named : List Slot} {slot : Slot}

/-! ## Growing tables -/

theorem prefix_extend (table : List Slot) (slot : Slot) : table <+: extend table slot := by
  unfold extend
  split
  · exact prefix_rfl
  · exact prefix_append _ _

theorem mem_extend_iff : other ∈ extend table slot ↔ other ∈ table ∨ other = slot := by
  unfold extend
  split
  next listed => exact ⟨.inl, fun either => either.elim id (· ▸ listed)⟩
  · rw [mem_append, mem_singleton]

theorem nodup_extend (nodup : table.Nodup) (slot : Slot) : (extend table slot).Nodup := by
  unfold extend
  split
  · exact nodup
  next fresh =>
    refine nodup_append.mpr ⟨nodup, nodup_singleton slot, ?_⟩
    rintro other listed last lastListed rfl
    exact fresh (mem_singleton.mp lastListed ▸ listed)

theorem prefix_foldl_extend (table named : List Slot) : table <+: named.foldl extend table := by
  induction named generalizing table with
  | nil => exact prefix_rfl
  | cons slot named ih => exact (prefix_extend table slot).trans (ih _)

theorem mem_foldl_extend_iff : slot ∈ named.foldl extend table ↔ slot ∈ table ∨ slot ∈ named := by
  induction named generalizing table with
  | nil => simp
  | cons other named ih =>
    rw [foldl_cons, ih, mem_extend_iff, mem_cons, or_assoc]

theorem nodup_foldl_extend (nodup : table.Nodup) (named : List Slot) :
    (named.foldl extend table).Nodup := by
  induction named generalizing table with
  | nil => exact nodup
  | cons slot named ih => exact ih (nodup_extend nodup slot)

/-! ## Places in a table -/

theorem getElem?_of_registerIn (bound : registerIn table slot = some reg) :
    0 ≤ reg ∧ reg < table.length ∧ table[reg.toNat]? = some slot := by
  obtain ⟨index, found, rfl⟩ := Option.map_eq_some_iff.mp bound
  obtain ⟨inside, place, -⟩ := idxOf?_eq_some_iff.mp found
  exact ⟨Int.natCast_nonneg index, Int.ofNat_lt.mpr inside,
    List.getElem?_eq_some_iff.mpr ⟨inside, place⟩⟩

theorem exists_registerIn (listed : slot ∈ table) : ∃ reg, registerIn table slot = some reg := by
  obtain ⟨index, found⟩ := Option.isSome_iff_exists.mp (isSome_idxOf?.mpr listed)
  exact ⟨Int.ofNat index, by rw [registerIn, found, Option.map_some]⟩

theorem registerIn_of_isPrefix (continues : table <+: final) (listed : slot ∈ table) :
    registerIn final slot = registerIn table slot := by
  obtain ⟨rest, rfl⟩ := continues
  obtain ⟨index, found⟩ := Option.isSome_iff_exists.mp (isSome_idxOf?.mpr listed)
  have further : (table ++ rest).idxOf? slot = some index := by
    rw [List.idxOf?] at found ⊢
    rw [findIdx?_append, found]
    rfl
  rw [registerIn, registerIn, found, further]

/-! ## Binding -/

theorem bindSlot_spec (table : List Slot) (slot : Slot) :
    (bindSlot table slot).2 = extend table slot ∧
      registerIn (extend table slot) slot = some (bindSlot table slot).1 := by
  unfold bindSlot extend registerIn
  split
  next index found =>
    rw [if_pos (isSome_idxOf?.mp (found ▸ rfl)), found]
    exact ⟨rfl, rfl⟩
  next fresh =>
    rw [if_neg (idxOf?_eq_none_iff.mp fresh)]
    rw [List.idxOf?] at fresh ⊢
    simp [findIdx?_append, fresh, findIdx?_cons]

theorem bindOperand_snd (table : List Slot) (operand : Option Slot) :
    (bindOperand table operand).2 = operand.toList.foldl extend table := by
  cases operand with
  | none => rfl
  | some slot => exact (bindSlot_spec table slot).1

theorem bindOperand_fst (continues : (bindOperand table operand).2 <+: final) :
    (bindOperand table operand).1 = operand.bind (registerIn final) := by
  cases operand with
  | none => rfl
  | some slot =>
    obtain ⟨grown, place⟩ := bindSlot_spec table slot
    rw [bindOperand_snd] at continues
    exact ((registerIn_of_isPrefix continues (mem_extend_iff.mpr (.inr rfl))).trans place).symm

namespace Instruction

theorem bind_snd (table : List Slot) (instr : Instruction Slot) :
    (instr.bind table).2 = instr.operands.foldl extend table := by
  rw [operands, filterMap_eq_flatMap_toList]
  simp only [bind, bindOperand_snd, flatMap_cons, flatMap_nil, foldl_append, id_eq, foldl_nil]

theorem bind_fst {instr : Instruction Slot} (continues : (instr.bind table).2 <+: final) :
    (instr.bind table).1 = instr.mapRegisters (registerIn final) := by
  have grows table operand : table <+: (bindOperand table operand).2 :=
    bindOperand_snd table operand ▸ prefix_foldl_extend table _
  have carry : (bindOperand (bindOperand (bindOperand (bindOperand table instr.result).2
      instr.left).2 instr.right).2 instr.carry).2 <+: final := continues
  have right := (grows _ instr.carry).trans carry
  have left := (grows _ instr.right).trans right
  have result := (grows _ instr.left).trans left
  simp only [bind, mapRegisters, bindOperand_fst carry, bindOperand_fst right,
    bindOperand_fst left, bindOperand_fst result]

theorem bindAll_snd (table : List Slot) (code : List (Instruction Slot)) :
    (bindAll table code).2 = (code.flatMap operands).foldl extend table := by
  induction code generalizing table with
  | nil => rfl
  | cons instr rest ih =>
    rw [flatMap_cons, foldl_append, ← bind_snd]
    exact ih _

theorem bindAll_fst {code : List (Instruction Slot)} (continues : (bindAll table code).2 <+: final)
    : (bindAll table code).1 = code.map (mapRegisters (registerIn final)) := by
  induction code generalizing table with
  | nil => rfl
  | cons instr rest ih =>
    have grows : (instr.bind table).2 <+: (bindAll (instr.bind table).2 rest).2 :=
      bindAll_snd _ rest ▸ prefix_foldl_extend _ _
    exact congrArg₂ List.cons (bind_fst (grows.trans continues)) (ih continues)

theorem mem_bindAll (member : instr ∈ code) (named : slot ∈ instr.operands) :
    slot ∈ (bindAll table code).2 := by
  rw [bindAll_snd, mem_foldl_extend_iff]
  exact .inr (mem_flatMap.mpr ⟨instr, member, named⟩)

theorem shape_registerIn {instr : Instruction Slot} (listed : ∀ slot ∈ instr.operands, slot ∈ table)
    : (instr.mapRegisters (registerIn table)).shape = instr.shape := by
  have total : ∀ slot ∈ instr.operands,
      registerIn table slot = some ((registerIn table slot).getD 0) := by
    intro slot named
    obtain ⟨reg, bound⟩ := exists_registerIn (listed slot named)
    rw [bound, Option.getD_some]
  exact shape_mapRegisters total

end Instruction
end Dynarec
