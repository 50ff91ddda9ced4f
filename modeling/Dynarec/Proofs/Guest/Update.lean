import Dynarec.Proofs.Guest.Fragment
import Dynarec.Proofs.Run.Execution

/-!
# Update forms

The update form of a load or store leaves the address of the access in its base
register.  The fragment of such a word accesses memory first and adds up the
address again afterwards.  That gives the same address unless the access itself
has changed the index register, as a load into its own index does.
-/

namespace Dynarec

open Execution List

namespace Word

/-- Whether a word is the update form of a load or store with a displacement. -/
def isUpdate (word : Word) : Bool :=
  word.primary ∈ [33, 35, 37, 39, 41, 43, 45]

/-- Whether a word is the update form of a load from the sum of two registers. -/
def isIndexedLoadUpdate (word : Word) : Bool :=
  word.primary = 31 && word.extended ∈ [55, 119, 311, 375]

/-- Whether a word is the update form of a store to the sum of two registers. -/
def isIndexedStoreUpdate (word : Word) : Bool :=
  word.primary = 31 && word.extended ∈ [183, 247, 439]

end Word

namespace Guest

open Fragment

theorem Operation.of_isUpdate (known : ofWord word = .ok operation) (form : word.isUpdate) :
    (∃ width signExtend, operation = .load width signExtend true) ∨
      ∃ width, operation = .store width true := by
  simp only [Word.isUpdate, mem_cons, not_mem_nil, or_false, decide_eq_true_eq] at form
  unfold ofWord at known
  rcases form with primary | primary | primary | primary | primary | primary | primary <;>
    rw [primary] at known <;> cases known
  all_goals first | exact .inl ⟨_, _, rfl⟩ | exact .inr ⟨_, rfl⟩

theorem Operation.of_isIndexedLoadUpdate (known : ofWord word = .ok operation)
    (form : word.isIndexedLoadUpdate) :
    ∃ width signExtend, operation = .loadIndexed width signExtend false true := by
  simp only [Word.isIndexedLoadUpdate, mem_cons, not_mem_nil, or_false,
    Bool.and_eq_true, decide_eq_true_eq] at form
  unfold ofWord at known
  rw [form.1] at known
  rcases form.2 with extended | extended | extended | extended <;> rw [extended] at known <;>
    cases known <;> exact ⟨_, _, rfl⟩

theorem Operation.of_isIndexedStoreUpdate (known : ofWord word = .ok operation)
    (form : word.isIndexedStoreUpdate) : ∃ width, operation = .storeIndexed width false true := by
  simp only [Word.isIndexedStoreUpdate, mem_cons, not_mem_nil, or_false,
    Bool.and_eq_true, decide_eq_true_eq] at form
  unfold ofWord at known
  rw [form.1] at known
  rcases form.2 with extended | extended | extended <;> rw [extended] at known <;>
    cases known <;> exact ⟨_, rfl⟩

theorem gpr_ne (firstSmall : first < 32) (secondSmall : second < 32) (ne : first ≠ second) :
    gpr first ≠ gpr second := by
  intro same
  have numbers : (2000 : UInt32) + UInt32.ofNat first = 2000 + UInt32.ofNat second :=
    congrArg Slot.number (Option.some.inj same)
  have equal := congrArg UInt32.toNat ((UInt32.add_right_inj 2000).mp numbers)
  rw [UInt32.toNat_ofNat', UInt32.toNat_ofNat'] at equal
  omega

/-- The address that a word accesses: its base and its index or displacement. -/
def effectiveAddress (state : State Slot) (word : Word) : Address :=
  state.get (gpr word.a) +
    if word.primary = 31 then state.get (gpr word.b) else word.signedImmediate.toUInt32

variable {state : State Slot}

theorem get_set_gpr (state : State Slot) (index : Nat) (word : Word) :
    (state.set (gpr index) word).get (gpr index) = word :=
  Function.update_self _ _ _

theorem get_execute (state : State Slot)
    (unwritten : ∀ operand ∈ instruction.writeOperands, operand ≠ gpr index) :
    (state.execute instruction).get (gpr index) = state.get (gpr index) := by
  refine State.registers_execute fun written => ?_
  obtain ⟨operand, listed, same⟩ := mem_filterMap.mp written
  exact unwritten operand listed same

theorem get_run_displaced (imm : Int32)
    (unwritten : ∀ operand ∈ access.writeOperands, operand ≠ gpr a) :
    (state.run [access, .immediate .add (gpr a) imm {}]).get (gpr a) =
      state.get (gpr a) + imm.toUInt32 :=
  calc
    _ = (state.execute access).get (gpr a) + imm.toUInt32 := get_set_gpr _ _ _
    _ = _ := by rw [get_execute state unwritten]

theorem get_run_indexed (unwritten : ∀ operand ∈ access.writeOperands, operand ≠ gpr a) :
    (state.run [access, .pair .add (gpr a) (gpr b) {}]).get (gpr a) =
      state.get (gpr a) + (state.execute access).get (gpr b) :=
  calc
    _ = (state.execute access).get (gpr a) + (state.execute access).get (gpr b) := get_set_gpr _ _ _
    _ = _ := by rw [get_execute state unwritten]

/-- Code accesses memory once, at an address that it leaves in an operand. -/
structure Leaves (state : State Slot) (code : Fragment) (operand : Option Slot)
    (addr : Address) : Prop where
  trace_eq : state.trace code = [addr]
  get_run_eq : (state.run code).get operand = addr

section

variable {signExtend : Bool}

theorem leaves_load (imm : Int32) (pos : a ≠ 0) (apart : gpr d ≠ gpr a) :
    Leaves state (load d a imm width signExtend true) (gpr a)
      (state.get (gpr a) + imm.toUInt32) := by
  rw [load, base, if_neg pos]
  constructor
  · rfl
  · refine get_run_displaced imm ?_
    simpa [Instruction.writeOperands, Instruction.load] using apart

theorem leaves_store (imm : Int32) (pos : a ≠ 0) :
    Leaves state (store d a imm width true) (gpr a) (state.get (gpr a) + imm.toUInt32) := by
  rw [store, base, if_neg pos]
  constructor
  · rfl
  · refine get_run_displaced imm ?_
    simp [Instruction.writeOperands, Instruction.store]

theorem leaves_storeIndexed (pos : a ≠ 0) :
    Leaves state (storeIndexed d a b width reversed true) (gpr a)
      (state.get (gpr a) + state.get (gpr b)) := by
  rw [storeIndexed, if_neg pos]
  constructor
  · rfl
  · refine get_run_indexed ?_
    simp [Instruction.writeOperands, Instruction.storeIndexed]

theorem trace_loadIndexed (pos : a ≠ 0) :
    state.trace (loadIndexed d a b width signExtend reversed true) =
      [state.get (gpr a) + state.get (gpr b)] := by
  rw [loadIndexed, if_neg pos]
  rfl

theorem get_run_loadIndexed_of_ne (pos : a ≠ 0) (apart : gpr d ≠ gpr a)
    (kept : gpr d ≠ gpr b) :
    (state.run (loadIndexed d a b width signExtend reversed true)).get (gpr a) =
      state.get (gpr a) + state.get (gpr b) := by
  rw [loadIndexed, if_neg pos]
  refine (get_run_indexed ?_).trans ?_
  · simpa [Instruction.writeOperands, Instruction.loadIndexed, Instruction.load] using apart
  · rw [get_execute state]
    simpa [Instruction.writeOperands, Instruction.loadIndexed, Instruction.load] using kept

theorem get_run_loadIndexed_self (pos : a ≠ 0) (apart : gpr d ≠ gpr a) :
    let code := loadIndexed d a d width signExtend reversed true
    (state.run code).get (gpr a) = state.get (gpr a) + (state.run code).get (gpr d) := by
  rw [loadIndexed, if_neg pos]
  refine (get_run_indexed ?_).trans ?_
  · simpa [Instruction.writeOperands, Instruction.loadIndexed, Instruction.load] using apart
  · have indexKept : ∀ operand ∈ (Instruction.pair .add (gpr a) (gpr d) {}).writeOperands,
        operand ≠ gpr d := by
      simpa [Instruction.writeOperands, Instruction.pair] using apart.symm
    exact congrArg (state.get (gpr a) + ·) (get_execute (state.execute _) indexKept).symm

end

/-- The update form of a word accesses memory at its effective address and leaves that address
in its base register.  A load into its own index is the exception: it adds what it has loaded. -/
theorem update_forms_leave_address
    (site : Site)
    (word : Word)
    (operation : Operation)
    (state : State Slot)
    (form : word.isUpdate ∨ word.isIndexedLoadUpdate ∨ word.isIndexedStoreUpdate)
    (decoded : Operation.decode word = .ok operation) :
    let fragment := ofOperation site word operation
    let address := effectiveAddress state word
    state.trace fragment = [address] ∧
      (¬(word.isIndexedLoadUpdate ∧ word.d = word.b) →
        (state.run fragment).get (gpr word.a) = address) ∧
      (word.isIndexedLoadUpdate ∧ word.d = word.b →
        (state.run fragment).get (gpr word.a) =
          state.get (gpr word.a) + (state.run fragment).get (gpr word.d)) := by
  obtain ⟨known, accepted⟩ := Operation.of_decode decoded
  have apart {index : Nat} (small : index < 32) (different : word.d ≠ index) :
      gpr word.d ≠ gpr index :=
    gpr_ne (word.field_lt _) small different
  have leaves {fragment : Fragment} {address : Address}
      (plain : ¬word.isIndexedLoadUpdate)
      (left : Leaves state fragment (gpr word.a) address) :
      state.trace fragment = [address] ∧
        (¬(word.isIndexedLoadUpdate ∧ word.d = word.b) →
          (state.run fragment).get (gpr word.a) = address) ∧
        (word.isIndexedLoadUpdate ∧ word.d = word.b →
          (state.run fragment).get (gpr word.a) =
            state.get (gpr word.a) + (state.run fragment).get (gpr word.d)) :=
    ⟨left.trace_eq, fun _ => left.get_run_eq, fun exception => absurd exception.1 plain⟩
  rcases form with form | form | form
  · have displaced : word.primary ≠ 31 := by
      intro primary
      simp [Word.isUpdate, primary] at form
    have plain : ¬word.isIndexedLoadUpdate := by simp [Word.isIndexedLoadUpdate, displaced]
    rw [effectiveAddress, if_neg displaced]
    rcases Operation.of_isUpdate known form with ⟨width, signExtend, rfl⟩ | ⟨width, rfl⟩
    · have fields : (word.a ≠ 0 && word.a ≠ word.d) = true := Operation.of_require accepted
      rw [Bool.and_eq_true, decide_eq_true_eq, decide_eq_true_eq] at fields
      exact leaves plain
        (leaves_load _ fields.1 (apart (word.field_lt _) fields.2.symm))
    · have positive : decide (word.a ≠ 0) = true := Operation.of_require accepted
      exact leaves plain (leaves_store _ (of_decide_eq_true positive))
  · have indexed : word.primary = 31 := by
      simp only [Word.isIndexedLoadUpdate, Bool.and_eq_true, decide_eq_true_eq] at form
      exact form.1
    rw [effectiveAddress, if_pos indexed]
    obtain ⟨width, signExtend, rfl⟩ := Operation.of_isIndexedLoadUpdate known form
    have fields : (word.a ≠ 0 && word.a ≠ word.d) = true := Operation.of_require accepted
    rw [Bool.and_eq_true, decide_eq_true_eq, decide_eq_true_eq] at fields
    have baseKept := apart (word.field_lt _) fields.2.symm
    refine ⟨trace_loadIndexed fields.1, fun ordinary => ?_, fun exception => ?_⟩
    · have indexKept := apart (word.field_lt _) fun same => ordinary ⟨form, same⟩
      exact get_run_loadIndexed_of_ne fields.1 baseKept indexKept
    · rw [ofOperation, ← exception.2]
      exact get_run_loadIndexed_self fields.1 baseKept
  · have indexed : word.primary = 31 := by
      simp only [Word.isIndexedStoreUpdate, Bool.and_eq_true, decide_eq_true_eq] at form
      exact form.1
    have plain : ¬word.isIndexedLoadUpdate := by
      intro loads
      simp only [Word.isIndexedStoreUpdate, Word.isIndexedLoadUpdate] at form loads
      grind
    rw [effectiveAddress, if_pos indexed]
    obtain ⟨width, rfl⟩ := Operation.of_isIndexedStoreUpdate known form
    have positive : decide (word.a ≠ 0) = true := Operation.of_require accepted
    exact leaves plain (leaves_storeIndexed (of_decide_eq_true positive))

/-- Registers of a machine with a base of `0x100` in register 4, an index of 4 in register 3 and
memory full of zeros. -/
def indexing : State Slot where
  registers slot := if slot = .gpr 4 then 0x100 else if slot = .gpr 3 then 4 else 0
  conditions _ _ := false
  overflow := false
  memory _ := 0
  storage _ := 0

/-- `lwzux r5, r4, r3` reads the word at `0x104` and leaves that address in register 4. -/
theorem indexing_leaves_address :
    let word : Word := 0x7CA4186E
    let fragment := ofOperation default word (.loadIndexed 32 false false true)
    Operation.decode word = .ok (.loadIndexed 32 false false true) ∧
      indexing.trace fragment = [0x104] ∧ (indexing.run fragment).get (gpr 4) = 0x104 := by
  have decoded : Operation.decode 0x7CA4186E = .ok (.loadIndexed 32 false false true) := rfl
  have left := update_forms_leave_address default 0x7CA4186E _ indexing (.inr (.inl rfl)) decoded
  exact ⟨decoded, left.1, left.2.1 (by decide)⟩

/-- `lwzux r3, r4, r3` reads the word at `0x104` and leaves another address in register 4. -/
theorem indexing_loses_address :
    let word : Word := 0x7C64186E
    let fragment := ofOperation default word (.loadIndexed 32 false false true)
    Operation.decode word = .ok (.loadIndexed 32 false false true) ∧
      indexing.trace fragment = [0x104] ∧ (indexing.run fragment).get (gpr 4) = 0x100 := by
  exact ⟨rfl, rfl, rfl⟩

end Guest
end Dynarec
