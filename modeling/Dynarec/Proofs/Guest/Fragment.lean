import Dynarec.Guest.Fragment
import Dynarec.Proofs.Except
import Dynarec.Proofs.Instruction.Operands

/-!
# The form of fragments

A fragment is a run of plain instructions that nothing follows, or one
instruction that ends a segment, or a conditional jump to the next word and an
exit that the jump skips.  Other jumps lead to a word of the function.
-/

namespace Dynarec

open Instruction List

namespace Instruction

variable {ρ : Type}

/-- An instruction without its registers and its address. -/
def form (instr : Instruction ρ) : Instruction Unit :=
  { instr.shape with address := 0 }

/-- Whether an instruction neither marks a place nor moves a slot nor ends a segment. -/
def isPlain (instr : Instruction ρ) : Bool :=
  match instr.kind with
  | .jumpmark | .enter | .loadSlot | .storeSlot | .jump | .cycleCheck | .routine => false
  | _ => true

/-- Whether an instruction leaves the function. -/
def isExit (instr : Instruction ρ) : Bool :=
  instr.kind = .routine && instr.routine ≠ .countCycles

/-- Whether control comes back behind an instruction that leaves the function. -/
def comesBack (instr : Instruction ρ) : Bool :=
  instr.kind = .routine &&
    [Routine.call, .callLink, .callCount, .service, .leave].contains instr.routine

variable {instr : Instruction ρ} (plain : instr.isPlain)

include plain

theorem isSuffix_of_isPlain : instr.isSuffix = false := by
  unfold isPlain at plain
  unfold isSuffix
  split at plain <;> simp_all

theorem comesBack_of_isPlain : instr.comesBack = false := by
  unfold isPlain at plain
  unfold comesBack
  cases kind : instr.kind <;> simp_all

end Instruction

theorem Word.field_lt (word : Word) (shift : UInt32) : word.field shift 31 < 32 := by
  have bound : (word >>> shift &&& 31).toNat ≤ (31 : UInt32).toNat := by
    exact Nat.and_le_right
  exact Nat.lt_succ_of_le bound

namespace Guest

variable {ρ σ : Type}

/-- What may stand behind the plain instructions of a fragment. -/
inductive Ending (site : Site) : List (Instruction ρ) → Prop
  | falls : Ending site []
  | jumps {jump : Instruction ρ} (kind_eq : jump.kind = .jump) (named : jump.bySegment = false)
      (near : site.inRange jump.target) : Ending site [jump]
  | exits {exit : Instruction ρ} (isExit : exit.isExit)
      (param_eq : exit.param = site.address) : Ending site [exit]
  | skips {jump exit : Instruction ρ} (kind_eq : jump.kind = .jump) (named : jump.bySegment = false)
      (conditional : jump.guard = .conditionBit) (target_eq : jump.target = site.address + 4)
      (isExit : exit.isExit) (param_eq : exit.param = site.address) : Ending site [jump, exit]

/-- The form of a fragment: plain instructions and what ends them, not both missing. -/
structure Formed (site : Site) (fragment : List (Instruction ρ)) : Prop where
  split : ∃ front ending, fragment = front ++ ending ∧
    (∀ instr ∈ front, instr.isPlain) ∧ Ending site ending
  ne_nil : fragment ≠ []

namespace Formed

variable {fragment : List (Instruction ρ)}

theorem of_plain (ne_nil : fragment ≠ [])
    (plain : ∀ instr ∈ fragment, instr.isPlain) : Formed site fragment :=
  ⟨⟨fragment, [], (append_nil _).symm, plain, .falls⟩, ne_nil⟩

theorem of_ending (ne_nil : fragment ≠ []) (ending : Ending site fragment) : Formed site fragment :=
  ⟨⟨[], fragment, rfl, by simp, ending⟩, ne_nil⟩

theorem cons (plain : instr.isPlain) (formed : Formed site fragment) :
    Formed site (instr :: fragment) := by
  obtain ⟨⟨front, ending, rfl, others, ends⟩, -⟩ := formed
  exact ⟨⟨instr :: front, ending, rfl, forall_mem_cons.mpr ⟨plain, others⟩, ends⟩, cons_ne_nil _ _⟩

end Formed

theorem Ending.of_form (same : other.map form = code.map form) (ending : Ending site code) :
    Ending site other := by
  cases ending with
  | falls =>
    rw [map_nil, map_eq_nil_iff] at same
    exact same ▸ .falls
  | @jumps jump kind_eq named near =>
    obtain ⟨jump', rfl, equal⟩ := map_eq_singleton_iff.mp same
    exact .jumps ((congrArg kind equal).trans kind_eq) ((congrArg bySegment equal).trans named)
      (congrArg (fun form => site.inRange form.target) equal ▸ near)
  | @exits exit isExit param_eq =>
    obtain ⟨exit', rfl, equal⟩ := map_eq_singleton_iff.mp same
    exact .exits ((congrArg Instruction.isExit equal).trans isExit)
      ((congrArg param equal).trans param_eq)
  | @skips jump exit kind_eq named conditional target_eq isExit param_eq =>
    obtain ⟨jump', rest, rfl, equalJump, equalRest⟩ := map_eq_cons_iff.mp same
    obtain ⟨exit', rfl, equal⟩ := map_eq_singleton_iff.mp equalRest
    exact .skips ((congrArg kind equalJump).trans kind_eq)
      ((congrArg bySegment equalJump).trans named)
      ((congrArg guard equalJump).trans conditional)
      ((congrArg target equalJump).trans target_eq)
      ((congrArg Instruction.isExit equal).trans isExit)
      ((congrArg param equal).trans param_eq)

theorem Formed.of_form (same : other.map form = code.map form) (formed : Formed site code) :
    Formed site other := by
  obtain ⟨⟨front, ending, rfl, plain, ends⟩, ne_nil⟩ := formed
  rw [map_append] at same
  obtain ⟨front', ending', rfl, sameFront, sameEnding⟩ := map_eq_append_iff.mp same
  refine ⟨⟨front', ending', rfl, ?_, ends.of_form sameEnding⟩, ?_⟩
  · intro instr mem
    have mapped := mem_map_of_mem (f := form) mem
    rw [sameFront] at mapped
    obtain ⟨original, listed, equal⟩ := mem_map.mp mapped
    exact (congrArg isPlain equal.symm).trans (plain original listed)
  · intro empty
    rw [empty, ← map_append, map_nil, eq_comm, map_eq_nil_iff] at same
    exact ne_nil same

namespace Operation

theorem decode_eq (known : ofWord word = .ok operation) :
    decode word = (operation.refusal? word).elim (.ok operation) .error := by
  rw [decode, bind_eq_of_eq_ok known]
  cases operation.refusal? word <;> rfl

theorem of_decode (decoded : decode word = .ok operation) :
    ofWord word = .ok operation ∧ operation.refusal? word = none := by
  obtain ⟨found, known, -⟩ := of_bind_eq_ok decoded
  rw [decode_eq known] at decoded
  cases accepted : found.refusal? word with
  | none =>
    rw [accepted] at decoded
    cases decoded
    exact ⟨known, accepted⟩
  | some refusal =>
    rw [accepted] at decoded
    cases decoded

theorem of_require (accepted : (if holds then none else some refusal) = none) : holds = true := by
  split at accepted
  · assumption
  · cases accepted

end Operation

/-- Whether control only falls through the fragments of an operation. -/
def Operation.isStraight : Operation → Bool
  | .service | .trap | .branch | .branchConditional | .branchToLink | .branchToCount => false
  | _ => true

def slots : List Slot :=
  (List.range 32).map (fun index => .gpr (UInt32.ofNat index)) ++
    [8, 9, 896, 897, 898, 899, 900, 901, 902, 903].map (fun index => .spr (UInt32.ofNat index)) ++
    [.carry]

/-- An operand that is missing or a slot of guest code. -/
def Named (operand : Option Slot) : Prop :=
  ∀ slot, operand = some slot → slot ∈ slots

namespace Named

theorem none : Named none := nofun

theorem gpr (small : index < 32) : Named (Fragment.gpr index) := by
  rintro slot ⟨⟩
  refine mem_append_left _ (mem_append_left _ ?_)
  exact mem_map_of_mem (mem_range.mpr small)

theorem base (small : index < 32) : Named (Fragment.base index) := by
  unfold Fragment.base
  split
  · exact none
  · exact gpr small

theorem carry : Named Fragment.carry := by
  rintro slot ⟨⟩
  exact mem_append_right _ (mem_singleton_self _)

theorem spr (movable : Operation.isMovable index) : Named (Fragment.spr index) := by
  rintro slot ⟨⟩
  refine mem_append_left _ (mem_append_right _ ?_)
  have listed : index ∈ [8, 9, 896, 897, 898, 899, 900, 901, 902, 903] := by
    simp only [Operation.isMovable, Bool.or_eq_true, decide_eq_true_eq, Bool.and_eq_true] at movable
    simp only [mem_cons, not_mem_nil, or_false]
    omega
  exact mem_map_of_mem listed

end Named

/-- An instruction whose operands are slots of guest code, all of them used. -/
structure OfGuest (instr : Instruction Slot) : Prop where
  result : Named instr.result
  left : Named instr.left
  right : Named instr.right
  carry : Named instr.carry
  uses : instr.usesOperands

theorem OfGuest.place (guest : OfGuest instr) (addr : Address) :
    OfGuest { instr with address := addr } :=
  ⟨guest.result, guest.left, guest.right, guest.carry, guest.uses⟩

theorem OfGuest.mem_slots (guest : OfGuest instr) : ∀ slot ∈ instr.operands, slot ∈ slots := by
  intro slot listed
  have either : instr.result = some slot ∨ instr.left = some slot ∨
      instr.right = some slot ∨ instr.carry = some slot := by
    simpa [operands, eq_comm] using listed
  rcases either with named | named | named | named
  · exact guest.result slot named
  · exact guest.left slot named
  · exact guest.right slot named
  · exact guest.carry slot named

/-- An instruction with operands that control falls through. -/
structure Simple (instr : Instruction Slot) : Prop where
  result : Named instr.result
  left : Named instr.left
  right : Named instr.right
  carry : Named instr.carry
  falls : (instr.usesOperands && instr.isPlain && instr.address = 0) = true

/-- What is known of the instructions of a word: their operands are slots of guest code, they have
no address yet, and control falls through them or comes back as the operation of the word says. -/
structure Emitted (operation : Operation) (word : Word) (instr : Instruction Slot) : Prop
    extends OfGuest instr where
  unplaced : instr.address = 0
  plain : operation.isStraight → instr.isPlain
  returns : instr.comesBack → operation.returns word

theorem Simple.emitted (simple : Simple instr) (operation : Operation) (word : Word) :
    Emitted operation word instr := by
  obtain ⟨result, left, right, carry, falls⟩ := simple
  simp only [Bool.and_eq_true, decide_eq_true_eq] at falls
  refine ⟨⟨result, left, right, carry, falls.1.1⟩, falls.2, fun _ => falls.1.2, fun comesBack => ?_⟩
  rw [comesBack_of_isPlain falls.1.2] at comesBack
  cases comesBack

namespace Fragment

variable {operation : Operation} {word : Word}

section

variable (dSmall : d < 32) (aSmall : a < 32)

include dSmall aSmall

theorem simple_addImmediate (imm : Int32) : Simple (addImmediate d a imm) := by
  unfold addImmediate
  split
  · exact ⟨.gpr dSmall, .none, .none, .none, rfl⟩
  · split
    · exact ⟨.gpr dSmall, .none, .none, .none, rfl⟩
    · exact ⟨.gpr dSmall, .gpr aSmall, .none, .none, rfl⟩

theorem simple_logicalImmediate (op : Op) (imm : Int32) (record : Bool) :
    Simple (logicalImmediate op d a imm record) := by
  unfold logicalImmediate
  split
  · exact ⟨.none, .none, .none, .none, rfl⟩
  · split
    · exact ⟨.gpr dSmall, .none, .none, .none, rfl⟩
    · exact ⟨.gpr dSmall, .gpr aSmall, .none, .none, rfl⟩

theorem simple_rotateMask (shift first last : Nat) (record : Bool) :
    Simple (rotateMask d a shift first last record) := by
  unfold rotateMask
  split
  · exact ⟨.gpr dSmall, .none, .none, .none, rfl⟩
  · exact ⟨.gpr dSmall, .gpr aSmall, .none, .none, rfl⟩

variable (bSmall : b < 32)

include bSmall

theorem simple_arithmetic (op : Op) (update : ConditionUpdate) :
    Simple (arithmetic op d a b update) := by
  unfold arithmetic
  split
  · exact ⟨.gpr dSmall, .gpr bSmall, .none, .none, rfl⟩
  · exact ⟨.gpr dSmall, .gpr aSmall, .gpr bSmall, .none, rfl⟩

theorem simple_logical (op : Op) (update : ConditionUpdate) : Simple (logical op d a b update) := by
  unfold logical
  split
  · exact ⟨.gpr dSmall, .gpr aSmall, .none, .none, rfl⟩
  · split
    · exact ⟨.gpr dSmall, .gpr bSmall, .none, .none, rfl⟩
    · exact ⟨.gpr dSmall, .gpr aSmall, .gpr bSmall, .none, rfl⟩

theorem simple_orRegister (record : Bool) : Simple (orRegister d a b record) := by
  unfold orRegister
  split
  · split
    · exact ⟨.none, .none, .none, .none, rfl⟩
    · exact ⟨.gpr dSmall, .gpr aSmall, .none, .none, rfl⟩
  · split
    · exact ⟨.gpr dSmall, .gpr bSmall, .none, .none, rfl⟩
    · exact ⟨.gpr dSmall, .gpr aSmall, .gpr bSmall, .none, rfl⟩

end

section

variable (leaves : operation.isStraight = false)

include leaves

theorem emitted_branch (returns_eq : operation.returns word = word.links) (target : Address) :
    Emitted operation word (branch site target word.links) := by
  have plain {goal : Prop} (straight : operation.isStraight) : goal := by
    rw [leaves] at straight
    cases straight
  unfold branch
  split
  next links =>
    exact ⟨⟨.none, .none, .none, .none, rfl⟩, rfl, plain, fun _ => returns_eq.trans links⟩
  · split <;> exact ⟨⟨.none, .none, .none, .none, rfl⟩, rfl, plain, nofun⟩

theorem emitted_jumpIf (target : Address) (test : BitTest) :
    Emitted operation word (.jumpIf target test) := by
  refine ⟨⟨.none, .none, .none, .none, rfl⟩, rfl, fun straight => ?_, nofun⟩
  rw [leaves] at straight
  cases straight

end

theorem emitted_of_mem_branchConditional (mem : instr ∈ branchConditional site word) :
    Emitted .branchConditional word instr := by
  have counting {update} : Simple (.immediate .sub (spr 9) 1 update) :=
    ⟨.spr (by decide), .none, .none, .none, rfl⟩
  have front (mem : instr ∈ (if word.ignoresCount then [] else
      [.immediate .sub (spr 9) 1 { field := some temporaryField, mode := .logical }] : Fragment)) :
      Emitted .branchConditional word instr := by
    split at mem
    · cases mem
    · rw [mem_singleton.mp mem]
      exact counting.emitted _ _
  unfold branchConditional at mem
  dsimp only at mem
  split at mem
  · rw [mem_singleton.mp mem]
    exact emitted_branch rfl rfl _
  · split at mem
    · rcases mem_append.mp mem with first | last
      · exact front first
      · rw [mem_singleton.mp last]
        exact emitted_jumpIf rfl _ _
    · rcases mem_append.mp mem with first | last
      · exact front first
      · rcases mem_cons.mp last with rfl | last
        · exact emitted_jumpIf rfl _ _
        · rw [mem_singleton.mp last]
          exact emitted_branch rfl rfl _

theorem emitted_of_mem_branchToRegister {routine} (leaves : operation.isStraight = false)
    (returns : (ofRoutine routine site.address 0 : Instruction Slot).comesBack →
      operation.returns word) (mem : instr ∈ branchToRegister site word routine) :
    Emitted operation word instr := by
  rcases mem_append.mp mem with front | last
  · split at front
    · cases front
    · rw [mem_singleton.mp front]
      exact emitted_jumpIf leaves _ _
  · rw [mem_singleton.mp last]
    refine ⟨⟨.none, .none, .none, .none, rfl⟩, rfl, fun straight => ?_, returns⟩
    rw [leaves] at straight
    cases straight

theorem lt_of_mem_multiple {imm displacement}
    (mem : (reg, displacement) ∈ multiple first imm) : reg < 32 := by
  obtain ⟨index, inside, same⟩ := mem_map.mp mem
  cases same
  have := mem_range.mp inside
  omega

theorem isMovable_of_decode (decoded : Operation.decode word = .ok operation)
    (special : operation = .readSpecial ∨ operation = .writeSpecial) :
    Operation.isMovable word.special := by
  have accepted := (Operation.of_decode decoded).2
  rcases special with rfl | rfl
  · exact Operation.of_require accepted
  · exact Operation.of_require accepted

theorem emitted_of_mem_ofOperation (decoded : Operation.decode word = .ok operation)
    (mem : instr ∈ ofOperation site word operation) : Emitted operation word instr := by
  have d : word.d < 32 := word.field_lt 21
  have a : word.a < 32 := word.field_lt 16
  have b : word.b < 32 := word.field_lt 11
  have single {only operation} (simple : Simple only)
      (mem : instr ∈ [only]) : Emitted operation word instr := by
    rw [mem_singleton.mp mem]
    exact simple.emitted _ _
  have accessed {access addition} {update : Bool} {operation : Operation}
      (first : Simple access) (second : Simple addition)
      (mem : instr ∈ access :: if update then [addition] else []) :
      Emitted operation word instr := by
    rcases mem_cons.mp mem with rfl | behind
    · exact first.emitted _ _
    · split at behind
      · exact single second behind
      · cases behind
  cases operation with
  | addImmediate shifted => exact single (simple_addImmediate d a _) mem
  | compareImmediate signed =>
    cases signed <;> exact single ⟨.gpr a, .none, .none, .none, rfl⟩ mem
  | compareRegister signed =>
    cases signed <;> exact single ⟨.gpr a, .gpr b, .none, .none, rfl⟩ mem
  | arithmetic op swapped =>
    cases swapped with
    | false => exact single (simple_arithmetic d a b ..) mem
    | true => exact single (simple_arithmetic d b a ..) mem
  | arithmeticCarry op => exact single ⟨.gpr d, .gpr a, .gpr b, .carry, rfl⟩ mem
  | addImmediateCarry record => exact single ⟨.gpr d, .gpr a, .none, .carry, rfl⟩ mem
  | subtractImmediateCarry => exact single ⟨.gpr d, .gpr a, .none, .carry, rfl⟩ mem
  | arithmeticCarryConstant op constant => exact single ⟨.gpr d, .gpr a, .none, .carry, rfl⟩ mem
  | multiplyImmediate | negate => exact single ⟨.gpr d, .gpr a, .none, .none, rfl⟩ mem
  | logicalImmediate op shifted record => exact single (simple_logicalImmediate a d ..) mem
  | logical op => exact single (simple_logical a d b ..) mem
  | logicalUnary op | rotateInsert => exact single ⟨.gpr a, .gpr d, .none, .none, rfl⟩ mem
  | orRegister => exact single (simple_orRegister a d b _) mem
  | rotateMask => exact single (simple_rotateMask a d ..) mem
  | rotateMaskRegister => exact single ⟨.gpr a, .gpr d, .gpr b, .none, rfl⟩ mem
  | shiftRightSigned => exact single ⟨.gpr a, .gpr d, .gpr b, .carry, rfl⟩ mem
  | shiftRightSignedImmediate => exact single ⟨.gpr a, .gpr d, .none, .carry, rfl⟩ mem
  | load width signExtend update | store width update =>
    exact accessed ⟨.gpr d, .base a, .none, .none, rfl⟩ ⟨.gpr a, .none, .none, .none, rfl⟩ mem
  | loadIndexed width signExtend reversed update =>
    simp only [ofOperation, loadIndexed] at mem
    split at mem
    · exact single ⟨.gpr d, .gpr b, .none, .none, rfl⟩ mem
    · exact accessed ⟨.gpr d, .gpr a, .gpr b, .none, rfl⟩ ⟨.gpr a, .gpr b, .none, .none, rfl⟩ mem
  | storeIndexed width reversed update =>
    simp only [ofOperation, storeIndexed] at mem
    split at mem
    · exact single ⟨.gpr d, .gpr b, .none, .none, rfl⟩ mem
    · exact accessed ⟨.gpr d, .gpr a, .gpr b, .none, rfl⟩ ⟨.gpr a, .gpr b, .none, .none, rfl⟩ mem
  | loadMultiple | storeMultiple =>
    obtain ⟨_, listed, rfl⟩ := mem_map.mp mem
    exact Simple.emitted ⟨.gpr (lt_of_mem_multiple listed), .base a, .none, .none, rfl⟩ _ _
  | service | trap =>
    rw [mem_singleton.mp mem]
    exact ⟨⟨.none, .none, .none, .none, rfl⟩, rfl, nofun, fun _ => rfl⟩
  | branch =>
    rw [mem_singleton.mp mem]
    exact emitted_branch rfl rfl _
  | branchConditional => exact emitted_of_mem_branchConditional mem
  | branchToLink | branchToCount =>
    refine emitted_of_mem_branchToRegister rfl (fun comesBack => ?_) mem
    by_contra unlinked
    rw [Operation.returns] at unlinked
    rw [if_neg unlinked] at comesBack
    cases comesBack
  | readSpecial =>
    exact single ⟨.gpr d, .spr (isMovable_of_decode decoded (.inl rfl)), .none, .none, rfl⟩ mem
  | writeSpecial =>
    exact single ⟨.spr (isMovable_of_decode decoded (.inr rfl)), .gpr d, .none, .none, rfl⟩ mem
  | readConditions | writeConditions => exact single ⟨.gpr d, .none, .none, .none, rfl⟩ mem
  | nothing | moveConditionField | conditionLogic _ =>
    exact single ⟨.none, .none, .none, .none, rfl⟩ mem

theorem ofOperation_ne_nil (site : Site) (word : Word) (operation : Operation) :
    ofOperation site word operation ≠ [] := by
  have regs imm : multiple word.d imm ≠ [] := by
    have pos : 32 - word.d ≠ 0 := Nat.sub_ne_zero_of_lt (word.field_lt 21)
    simpa [multiple] using pos
  cases operation with
  | compareImmediate signed | compareRegister signed => cases signed <;> exact cons_ne_nil _ _
  | arithmetic op swapped => cases swapped <;> exact cons_ne_nil _ _
  | loadIndexed width signExtend reversed update =>
    simp only [ofOperation, loadIndexed]
    split <;> exact cons_ne_nil _ _
  | storeIndexed width reversed update =>
    simp only [ofOperation, storeIndexed]
    split <;> exact cons_ne_nil _ _
  | loadMultiple | storeMultiple => exact fun empty => regs _ (map_eq_nil_iff.mp empty)
  | branchConditional =>
    simp only [ofOperation, branchConditional]
    split
    · exact cons_ne_nil _ _
    · split <;> simp
  | branchToLink | branchToCount => simp [ofOperation, branchToRegister]
  | _ => exact cons_ne_nil _ _

theorem ending_branch (site : Site) (target : Address) (link : Bool) :
    Ending site [branch site target link] := by
  unfold branch
  split
  · exact .exits rfl rfl
  · split
    next near => exact .jumps rfl rfl near
    · exact .exits rfl rfl

theorem isExit_branch {target} (far : ¬(!word.links && site.inRange target)) :
    (branch site target word.links).isExit ∧
      (branch site target word.links).param = site.address := by
  unfold branch
  split
  · exact ⟨rfl, rfl⟩
  · split
    · simp_all
    · exact ⟨rfl, rfl⟩

theorem formed_branchConditional (site : Site) (word : Word) :
    Formed site (branchConditional site word) := by
  have counted {ending} (count : Instruction Slot) (plain : count.isPlain)
      (ne_nil : ending ≠ []) (ends : Ending site ending) :
      Formed site ((if word.ignoresCount then [] else [count]) ++ ending) := by
    split
    · exact .of_ending ne_nil ends
    · exact .cons plain (.of_ending ne_nil ends)
  simp only [branchConditional]
  split
  · exact .of_ending (cons_ne_nil _ _) (ending_branch _ _ _)
  · split
    next near =>
      refine counted _ rfl (cons_ne_nil _ _) (.jumps rfl rfl ?_)
      exact (Bool.and_eq_true _ _ ▸ near).2
    next far =>
      obtain ⟨isExit, param⟩ := isExit_branch far
      exact counted _ rfl (cons_ne_nil _ _) (.skips rfl rfl rfl rfl isExit param)

theorem formed_branchToRegister (site : Site) (word : Word) {routine}
    (leaves : routine ≠ .countCycles) : Formed site (branchToRegister site word routine) := by
  have isExit : (ofRoutine routine site.address 0 : Instruction Slot).isExit := by
    simp [isExit, ofRoutine, leaves]
  simp only [branchToRegister]
  split
  · exact .of_ending (cons_ne_nil _ _) (.exits isExit rfl)
  · exact .of_ending (cons_ne_nil _ _) (.skips rfl rfl rfl rfl isExit rfl)

theorem formed_ofOperation (site : Site) (decoded : Operation.decode word = .ok operation) :
    Formed site (ofOperation site word operation) := by
  by_cases straight : operation.isStraight = true
  · exact .of_plain (ofOperation_ne_nil site word operation)
      fun _ mem => (emitted_of_mem_ofOperation decoded mem).plain straight
  · cases operation with
    | service | trap => exact .of_ending (cons_ne_nil _ _) (.exits rfl rfl)
    | branch => exact .of_ending (cons_ne_nil _ _) (ending_branch _ _ _)
    | branchConditional => exact formed_branchConditional site word
    | branchToLink | branchToCount =>
      refine formed_branchToRegister site word ?_
      split <;> decide
    | _ => exact absurd rfl straight

end Fragment

end Guest
end Dynarec
