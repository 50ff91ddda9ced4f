import Dynarec.Proofs.Guest.Fragment
import Dynarec.Proofs.Run.Execution
import Dynarec.Stream.Generate

/-!
# Shorter forms for operands that coincide

Some words get a shorter form where their register fields coincide: an operation
in place, a move, a complement, a rotation, or nothing at all.  Each of these does
what the plain form does, which puts the value of an operation on two operands
into a third.
-/

namespace Dynarec

open Dynarec.Stream Execution List

namespace Execution

theorem value_rotateMask (small : shift < 32) (word : Word) :
    value .rotateMask 0 0 word (packRotation shift 0 31).toUInt32 =
      rotate word (Int32.ofNat shift).toUInt32 := by
  have amounts : ∀ shift < 32,
      (packRotation shift 0 31).toUInt32 &&& 31 = (Int32.ofNat shift).toUInt32 &&& 31 ∧
      (32 - (packRotation shift 0 31).toUInt32) &&& 31 =
        (32 - (Int32.ofNat shift).toUInt32) &&& 31 ∧
      rotationMask (packRotation shift 0 31).toUInt32 = 0xFFFFFFFF := by
    decide
  obtain ⟨left, right, mask⟩ := amounts shift small
  have full (other : Word) : other &&& 0xFFFFFFFF = other := UInt32.and_neg_one
  rw [value, mask, full, rotate, left, right, rotate]

namespace State

variable {ρ : Type} {state : State ρ}

theorem record_of_none (unrecorded : instr.conditionField = none) (first second : Word) :
    state.record instr first second = state := by
  simp [record, unrecorded]

theorem set_get [DecidableEq ρ] (state : State ρ) (operand : Option ρ) :
    state.set operand (state.get operand) = state := by
  cases operand with
  | none => rfl
  | some reg => simp [set, get]

end State
end Execution

namespace Guest

open Fragment

/-- The plain form of a word: the value of an operation on two operands goes to a register, and a
condition register field says how it compares with zero. -/
structure PlainForm where
  op : Op
  target : Nat
  /-- The first operand, zero if it is missing. -/
  first : Option Slot
  /-- The second operand, a register or a constant. -/
  second : Option Slot ⊕ Int32
  update : ConditionUpdate

/-- A result put into a general purpose register and recorded. -/
def put (state : State Slot) (target : Nat) (update : ConditionUpdate) (result : Word) :
    State Slot :=
  (state.set (gpr target) result).record
    { conditionField := update.field, conditionMode := update.mode } result 0

/-- What a plain form does, from the old values of its operands. -/
def PlainForm.perform (form : PlainForm) (state : State Slot) : State Slot :=
  put state form.target form.update
    (value form.op 0 0 (state.get form.first) (form.second.elim state.get Int32.toUInt32))

/-- The plain forms of the words that may have a shorter one. -/
inductive HasPlainForm (word : Word) : PlainForm → Prop
  | addi (primary : word.primary = 14) :
      HasPlainForm word ⟨.add, word.d, base word.a, .inr word.signedImmediate, {}⟩
  | addis (primary : word.primary = 15) :
      HasPlainForm word ⟨.add, word.d, base word.a, .inr (word.signedImmediate <<< 16), {}⟩
  | add (primary : word.primary = 31) (extended : word.extended = 266) : HasPlainForm word
        ⟨.add, word.d, gpr word.a, .inl (gpr word.b), recorded word.records .arithmetic⟩
  | logical {opcode : Nat} {op : Op}
      (listed : (opcode, op) ∈ [(28, .and), (124, .nor), (316, .xor)])
      (primary : word.primary = 31) (extended : word.extended = opcode) : HasPlainForm word
        ⟨op, word.a, gpr word.d, .inl (gpr word.b), recorded word.records .logical⟩
  | or (primary : word.primary = 31) (extended : word.extended = 444) : HasPlainForm word
        ⟨.or, word.a, gpr word.d, .inl (gpr word.b), recorded word.records .logical⟩
  | logicalImmediate {opcode : Nat} {op : Op} {shifted record : Bool}
      (listed : (opcode, op, shifted, record) ∈
        [(24, .or, false, false), (25, .or, true, false), (26, .xor, false, false),
          (27, .xor, true, false), (28, .and, false, true), (29, .and, true, true)])
      (primary : word.primary = opcode) : HasPlainForm word ⟨op, word.a, gpr word.d,
          .inr (if shifted then word.unsignedImmediate <<< 16 else word.unsignedImmediate),
          recorded record .logical⟩
  | rlwinm (primary : word.primary = 21) : HasPlainForm word
        ⟨.rotateMask, word.a, gpr word.d, .inr (packRotation word.b word.maskBegin word.maskEnd),
          recorded word.records .logical⟩

theorem put_get (state : State Slot) (target : Nat) :
    put state target {} (state.get (gpr target)) = state := by
  rw [put, State.set_get]
  exact State.record_of_none rfl _ _

/-- An instruction does what a plain form does, and updates the same condition register field in
the same way. -/
structure Agrees (instr : Instruction Slot) (form : PlainForm) : Prop where
  field_eq : instr.conditionField = form.update.field
  mode_eq : instr.conditionMode = form.update.mode
  execute_eq : ∀ state : State Slot, state.execute instr = form.perform state

section

theorem agrees_addImmediate (d a : Nat) (imm : Int32) :
    Agrees (addImmediate d a imm) ⟨.add, d, base a, .inr imm, {}⟩ := by
  unfold addImmediate base
  split
  · refine ⟨rfl, rfl, fun state => ?_⟩
    change put state d {} imm.toUInt32 = put state d {} (0 + imm.toUInt32)
    rw [UInt32.zero_add]
  · split
    next same => exact same ▸ ⟨rfl, rfl, fun _ => rfl⟩
    · exact ⟨rfl, rfl, fun _ => rfl⟩

theorem agrees_arithmetic :
    Agrees (arithmetic .add target left right update)
      ⟨.add, target, gpr left, .inl (gpr right), update⟩ := by
  unfold arithmetic
  split
  next same => exact same.2 ▸ ⟨rfl, rfl, fun _ => rfl⟩
  · exact ⟨rfl, rfl, fun _ => rfl⟩

theorem agrees_logicalImmediate (logic : op ∈ [.or, .xor, .and]) (imm : Int32) :
    Agrees (logicalImmediate op target left imm record)
      ⟨op, target, gpr left, .inr imm, recorded record .logical⟩ := by
  unfold logicalImmediate
  split
  next nothing =>
    obtain ⟨rfl, plain, rfl, rfl⟩ := nothing
    obtain rfl : record = false := by simpa using plain
    refine ⟨rfl, rfl, fun state => ?_⟩
    change state = put state left {} (state.get (gpr left) ||| 0)
    rw [UInt32.or_zero, put_get]
  · simp only [mem_cons, not_mem_nil, or_false] at logic
    split
    next same =>
      subst same
      rcases logic with rfl | rfl | rfl <;> exact ⟨rfl, rfl, fun _ => rfl⟩
    · rcases logic with rfl | rfl | rfl <;> exact ⟨rfl, rfl, fun _ => rfl⟩

theorem agrees_logical (logic : op ∈ [.and, .nor, .xor]) :
    Agrees (logical op target left right update)
      ⟨op, target, gpr left, .inl (gpr right), update⟩ := by
  unfold logical
  split
  next complement =>
    obtain ⟨rfl, rfl⟩ := complement
    refine ⟨rfl, rfl, fun state => ?_⟩
    change put state target update (~~~state.get (gpr left)) =
      put state target update (~~~(state.get (gpr left) ||| state.get (gpr left)))
    rw [UInt32.or_self]
  · simp only [mem_cons, not_mem_nil, or_false] at logic
    split
    next same =>
      obtain ⟨-, rfl⟩ := same
      rcases logic with rfl | rfl | rfl <;> exact ⟨rfl, rfl, fun _ => rfl⟩
    · rcases logic with rfl | rfl | rfl <;> exact ⟨rfl, rfl, fun _ => rfl⟩

theorem agrees_orRegister :
    Agrees (orRegister target left right record)
      ⟨.or, target, gpr left, .inl (gpr right), recorded record .logical⟩ := by
  unfold orRegister
  split
  next same =>
    subst same
    split
    next nothing =>
      obtain ⟨rfl, plain⟩ := nothing
      obtain rfl : record = false := by simpa using plain
      refine ⟨rfl, rfl, fun state => ?_⟩
      change state = put state left {} (state.get (gpr left) ||| state.get (gpr left))
      rw [UInt32.or_self, put_get]
    · refine ⟨rfl, rfl, fun state => ?_⟩
      change put state target _ (state.get (gpr left)) =
        put state target _ (state.get (gpr left) ||| state.get (gpr left))
      rw [UInt32.or_self]
  · split
    next same => exact same ▸ ⟨rfl, rfl, fun _ => rfl⟩
    · exact ⟨rfl, rfl, fun _ => rfl⟩

theorem agrees_rotateMask (small : shift < 32) (first last : Nat) :
    Agrees (rotateMask target left shift first last record)
      ⟨.rotateMask, target, gpr left, .inr (packRotation shift first last),
        recorded record .logical⟩ := by
  unfold rotateMask
  split
  next full =>
    obtain ⟨rfl, rfl, rfl, -⟩ := full
    refine ⟨rfl, rfl, fun state => ?_⟩
    change put state left _ (rotate (state.get (gpr left)) (Int32.ofNat shift).toUInt32) =
      put state left _ (value .rotateMask 0 0 (state.get (gpr left))
        (packRotation shift 0 31).toUInt32)
    rw [value_rotateMask small]
  · exact ⟨rfl, rfl, fun _ => rfl⟩

end

namespace Operation

theorem ofWord_of_primary (listed : primaryTable.lookup word.primary = some operation)
    (ungrouped : word.primary ≠ 19 ∧ word.primary ≠ 31) : ofWord word = .ok operation := by
  unfold ofWord
  split
  next grouped => exact absurd grouped ungrouped.1
  next grouped => exact absurd grouped ungrouped.2
  · dsimp only
    rw [listed]

theorem ofWord_of_extended (grouped : word.primary = 31)
    (listed : group31.lookup word.extended = some operation) : ofWord word = .ok operation := by
  simp only [ofWord, grouped, listed]

end Operation

theorem lower_eq (other : operation ≠ .branch) (memory : Memory) (inlines : Bool) (site : Site)
    (word : Word) :
    lower memory inlines site word operation =
      .ok { fragment := ofOperation site word operation, returns := operation.returns word } := by
  simp only [lower, other, decide_false, Bool.and_false, Bool.false_and]
  rfl

/-- Words with a plain form are known, are never refused, and get one instruction that agrees with
the plain form. -/
theorem HasPlainForm.exists_agrees (plain : HasPlainForm word form) :
    ∃ operation instr, Operation.ofWord word = .ok operation ∧
      operation.refusal? word = none ∧ (operation ≠ .branch ∧ operation.returns word = false) ∧
      (∀ site, ofOperation site word operation = [instr]) ∧ Agrees instr form := by
  cases plain with
  | addi primary =>
    exact ⟨.addImmediate false, _, Operation.ofWord_of_primary (by rw [primary]; rfl) (by omega),
      rfl, ⟨nofun, rfl⟩, fun _ => rfl, agrees_addImmediate _ _ _⟩
  | addis primary =>
    exact ⟨.addImmediate true, _, Operation.ofWord_of_primary (by rw [primary]; rfl) (by omega),
      rfl, ⟨nofun, rfl⟩, fun _ => rfl, agrees_addImmediate _ _ _⟩
  | add primary extended =>
    exact ⟨.arithmetic .add false, _,
      Operation.ofWord_of_extended primary (by rw [extended]; rfl), rfl, ⟨nofun, rfl⟩,
      fun _ => rfl, agrees_arithmetic⟩
  | @logical opcode op listed primary extended =>
    have entries : ∀ entry ∈ [(28, .and), (124, .nor), (316, .xor)],
        Operation.group31.lookup entry.1 = some (.logical entry.2) ∧
        entry.2 ∈ [.and, .nor, .xor] := by
      decide
    obtain ⟨entry, logic⟩ := entries _ listed
    exact ⟨.logical op, _, Operation.ofWord_of_extended primary (extended ▸ entry), rfl,
      ⟨nofun, rfl⟩, fun _ => rfl, agrees_logical logic⟩
  | or primary extended =>
    exact ⟨.orRegister, _, Operation.ofWord_of_extended primary (by rw [extended]; rfl), rfl,
      ⟨nofun, rfl⟩, fun _ => rfl, agrees_orRegister⟩
  | @logicalImmediate opcode op shifted record listed primary =>
    have entries : ∀ entry ∈
        [(24, .or, false, false), (25, .or, true, false), (26, .xor, false, false),
          (27, .xor, true, false), (28, .and, false, true), (29, .and, true, true)],
        Operation.primaryTable.lookup entry.1 =
          some (.logicalImmediate entry.2.1 entry.2.2.1 entry.2.2.2) ∧
        (entry.1 ≠ 19 ∧ entry.1 ≠ 31) ∧ entry.2.1 ∈ [.or, .xor, .and] := by
      decide
    obtain ⟨entry, ungrouped, logic⟩ := entries _ listed
    exact ⟨.logicalImmediate op shifted record, _,
      Operation.ofWord_of_primary (primary ▸ entry) (primary ▸ ungrouped), rfl, ⟨nofun, rfl⟩,
      fun _ => rfl, agrees_logicalImmediate logic _⟩
  | rlwinm primary =>
    exact ⟨.rotateMask, _, Operation.ofWord_of_primary (by rw [primary]; rfl) (by omega),
      rfl, ⟨nofun, rfl⟩, fun _ => rfl, agrees_rotateMask (Word.field_lt _ _) _ _⟩

/-- A word with a plain form is decoded to one instruction, whatever surrounds it, that does
what the plain form does: the same registers, the same condition register field in the same way,
with the same value compared, whichever of its operands coincide. -/
theorem shortcuts_agree
    {word : Word}
    {form : PlainForm}
    (plain : HasPlainForm word form) :
    ∃ operation instr,
      Operation.decode word = .ok operation ∧
      (∀ memory inlines site, Stream.lower memory inlines site word operation =
        .ok { fragment := [instr], returns := false }) ∧
      instr.conditionField = form.update.field ∧
      instr.conditionMode = form.update.mode ∧
      ∀ state : State Slot, state.execute instr = form.perform state := by
  obtain ⟨operation, instr, known, accepted, ⟨other, stays⟩, emitted, agrees⟩ :=
    plain.exists_agrees
  have decoded : Operation.decode word = .ok operation := by
    rw [Operation.decode_eq known, accepted]
    rfl
  have lowered (memory : Memory) (inlines : Bool) (site : Site) :
      Stream.lower memory inlines site word operation =
        .ok { fragment := [instr], returns := false } := by
    rw [lower_eq other, emitted, stays]
  exact ⟨operation, instr, decoded, lowered, agrees.field_eq, agrees.mode_eq,
    agrees.execute_eq⟩

/-- A register that is combined with itself and recorded is a move that updates field zero. -/
theorem recordedMove_agrees :
    ofOperation default 0x7C631B79 .orRegister =
      [.pair .assign (gpr 3) (gpr 3) { field := some 0, mode := .logical }] ∧
    ∃ operation instr,
      Operation.decode 0x7C631B79 = .ok operation ∧
      (∀ memory inlines site, Stream.lower memory inlines site 0x7C631B79 operation =
        .ok { fragment := [instr], returns := false }) ∧
      instr.conditionField = some 0 ∧
      instr.conditionMode = .logical ∧
      ∀ state : State Slot, state.execute instr =
        PlainForm.perform
          ⟨.or, 3, gpr 3, .inl (gpr 3), { field := some 0, mode := .logical }⟩ state :=
  ⟨rfl, shortcuts_agree (HasPlainForm.or rfl rfl)⟩

end Guest
end Dynarec
