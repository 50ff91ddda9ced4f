import Dynarec.Proofs.Graph.Generated

/-!
# Slots of a function

Every register of a generated function is bound to a slot of its own, and as
long as a graph has no host registers its code moves no values between
registers and slots.
-/

namespace Dynarec

open List

variable {stream : Stream}

/-- Whether an instruction moves a value between a register and a slot. -/
def Instruction.movesSlot {ρ : Type} (instr : Instruction ρ) : Bool :=
  instr.kind = .loadSlot || instr.kind = .storeSlot

theorem Stream.Tiled.movesSlot_eq_false (tiled : stream.Tiled list)
    (listed : instr ∈ stream.trimmed list) : instr.movesSlot = false := by
  have ofKind {kind} (kind_eq : instr.kind = kind) (other : kind ≠ .loadSlot)
      (ne : kind ≠ .storeSlot) : instr.movesSlot = false := by
    simp [Instruction.movesSlot, kind_eq, other, ne]
  have ofExit (isExit : instr.isExit) : instr.movesSlot = false := by
    simp only [Instruction.isExit, Bool.and_eq_true, decide_eq_true_eq] at isExit
    exact ofKind isExit.1 (by simp) (by simp)
  have ofPlaceholder (placeholder : instr.isPlaceholder) : instr.movesSlot = false := by
    simp only [Instruction.isPlaceholder, Bool.or_eq_true, decide_eq_true_eq] at placeholder
    rcases placeholder with kind_eq | kind_eq <;> exact ofKind kind_eq (by simp) (by simp)
  rcases mem_trimmed_iff.mp listed with ⟨_, _, mark⟩ | ⟨piece, mem, guest⟩ | closing
  · exact ofPlaceholder (Piece.of_mem_marks mark).1
  · obtain ⟨front, ending, fragment_eq, plain, ends⟩ := (tiled.formed piece mem).split
    rw [fragment_eq, mem_append] at guest
    rcases guest with inFront | inEnding
    · have isPlain := plain instr inFront
      unfold Instruction.isPlain at isPlain
      split at isPlain <;> simp_all
    · cases ends with
      | falls => cases inEnding
      | jumps kind_eq =>
        exact ofKind (mem_singleton.mp inEnding ▸ kind_eq) (by simp) (by simp)
      | exits isExit => exact ofExit (mem_singleton.mp inEnding ▸ isExit)
      | skips kind_eq _ _ _ isExit =>
        rcases mem_cons.mp inEnding with rfl | behind
        · exact ofKind kind_eq (by simp) (by simp)
        · exact ofExit (mem_singleton.mp behind ▸ isExit)
  · cases placeholder : instr.isPlaceholder with
    | true => exact ofPlaceholder placeholder
    | false => exact ofExit (isExit_of_mem_closing closing placeholder)

namespace Graph

variable {g after : Graph} {slots : List Slot}

/-- A property of instructions that no pass breaks: it holds of whatever passes add. -/
structure Persists (holds : Instruction Register → Prop) : Prop where
  /-- What touches neither registers nor slots has the property. -/
  idle : ∀ {instruction}, instruction.operands = [] → instruction.movesSlot = false →
    holds instruction
  move : ∀ {assignment}, holds assignment → ∀ jump, holds (conditionalMove jump assignment)

/-- A graph whose registers stand for the given slots, and all of whose instructions have a
property. -/
structure Upholds (holds : Instruction Register → Prop) (slots : List Slot) (g : Graph) : Prop where
  slots_eq : g.slots = slots
  all : ∀ {id}, id ∈ g.order → ∀ instr ∈ (g.segment id).instructions, holds instr

namespace Upholds

theorem of_alike (upholds : g.Upholds holds slots) (alike : g.Alike after) :
    after.Upholds holds slots := by
  refine ⟨by rw [alike.shape_eq, upholds.slots_eq], fun {id} mem instr listed => ?_⟩
  rw [(alike.content_eq id).code_eq] at listed
  exact upholds.all (by rwa [← alike.order_eq]) instr listed

variable (persists : Persists holds)

include persists

section

variable (upholds : g.Upholds holds slots)

include upholds

/-- Segments keep their code, and new ones hold one instruction that touches nothing. -/
theorem of_instructions (slots_eq : after.slots = g.slots)
    (kept : ∀ {id}, id ∈ after.order → id ∈ g.order ∧
        (after.segment id).instructions = (g.segment id).instructions ∨
      ∃ instr, instr.operands = [] ∧ instr.movesSlot = false ∧
        (after.segment id).instructions = [instr]) : after.Upholds holds slots := by
  refine ⟨slots_eq.trans upholds.slots_eq, fun mem instr listed => ?_⟩
  rcases kept mem with ⟨old, code_eq⟩ | ⟨only, untouched, unmoved, code_eq⟩
  · exact upholds.all old instr (code_eq ▸ listed)
  · rw [code_eq, mem_singleton] at listed
    exact listed ▸ persists.idle untouched unmoved

theorem of_branchFolded {id skipped} (mem : id ∈ g.order)
    (skippedMem : skipped ∈ g.order) (folded : g.BranchFolded id skipped jump after) :
    after.Upholds holds slots := by
  refine ⟨by rw [folded.shape_eq, upholds.slots_eq], fun {other} otherMem instr listed => ?_⟩
  rw [folded.shape_eq] at otherMem
  by_cases source : other = id
  · subst source
    rw [folded.instructions_source, mem_append] at listed
    rcases listed with front | move
    · exact upholds.all mem instr (dropLast_subset _ front)
    · obtain ⟨assignment, assigned, rfl⟩ := mem_map.mp move
      exact persists.move (upholds.all skippedMem assignment assigned) jump
  · by_cases isSkipped : other = skipped
    · rw [isSkipped, folded.instructions_skipped] at listed
      cases listed
    · have fields := folded.others_eq other source isSkipped
      rw [fields.code_eq] at listed
      exact upholds.all otherMem instr listed

theorem countCycles (numbered : g.Numbered) : g.countCycles.Upholds holds slots := by
  have mapped := mapped_mapOrdered numbered Segment.countCycles
  refine ⟨mapped.slots_eq.trans upholds.slots_eq, fun {id} mem instr listed => ?_⟩
  rw [Graph.countCycles, mapped.order_eq] at mem
  have segment_eq := mapped.segment_eq id
  rw [if_pos mem] at segment_eq
  rw [Graph.countCycles, segment_eq] at listed
  rcases countCycles_cases (g.segment id) with same | ⟨-, cycles, points, counted⟩
  · exact upholds.all mem instr (same ▸ listed)
  · rw [counted] at listed
    rcases mem_cons.mp listed with rfl | behind
    · exact persists.idle rfl rfl
    · exact upholds.all mem instr behind

theorem of_loopGuarded (guarded : g.LoopGuarded body name after) : after.Upholds holds slots := by
  refine upholds.of_instructions persists (by rw [guarded.shape_eq]) fun {id} mem => ?_
  rcases guarded.mem_cases mem with old | rfl | rfl | rfl
  · exact .inl ⟨old, guarded.code_eq old⟩
  · exact .inr ⟨_, rfl, rfl, guarded.guard_eq.code_eq⟩
  · exact .inr ⟨_, rfl, rfl, guarded.leave_eq.code_eq⟩
  · exact .inr ⟨_, rfl, rfl, guarded.entry_eq.code_eq⟩

theorem of_entryIsolated {id} (isolated : g.EntryIsolated id after) :
    after.Upholds holds slots := by
  refine upholds.of_instructions persists (by rw [isolated.shape_eq]) fun {other} mem => ?_
  rcases isolated.mem_order_iff.mp mem with old | rfl
  · exact .inl ⟨old, isolated.code_eq old⟩
  · exact .inr ⟨_, rfl, rfl, isolated.trampoline_eq.code_eq⟩

theorem passes (tied : g.Tied) (placed : ∀ id ∈ g.order, WellPlaced (g.segment id).instructions)
    (options : BuildOptions) : (g.passes options).Upholds holds slots := by
  have prepared : (g.prepared options).Upholds holds slots :=
    prepared_induction (motive := Upholds holds slots) tied upholds
      (fun tied mem foldable folded upholds => upholds.of_branchFolded persists mem
        (tied.numbered.link_mem mem foldable.notTaken_eq) folded)
      (fun tied upholds => upholds.countCycles persists tied.numbered) options
  have kept := LayoutKept.prepared tied placed options
  exact (expansion_induction (fun g _ => g.Upholds holds slots) kept.toTied prepared
    (fun _ _ guarded upholds => upholds.of_loopGuarded persists guarded) id
    (fun _ _ _ _ isolated upholds => upholds.of_entryIsolated persists isolated)
    fun _ alike upholds => upholds.of_alike alike).2

end

end Upholds

theorem upholds_of_build (generated : Stream.generate memory options = .ok stream)
    (built : build stream buildOptions = .ok g) (persists : Persists holds)
    (generates : ∀ {list}, stream.Tiled list → ∀ instr ∈ stream.trimmed list, holds instr) :
    g.Upholds holds stream.slots := by
  obtain ⟨base, made, rfl, -⟩ := of_build_eq_ok built
  obtain ⟨list, tiled, isBase, -, -, slots_eq⟩ := isBase_of_generate generated made
  have upholds : base.Upholds holds stream.slots := ⟨slots_eq, fun mem instr listed =>
      generates tiled instr (isBase.mem_code mem listed).1⟩
  exact upholds.passes persists isBase.toTied
    (fun _ => isBase.wellPlaced tiled.arranged) buildOptions

/-- A graph whose registers stand for the given slots, and whose code moves no slots. -/
abbrev Slotted (slots : List Slot) (g : Graph) : Prop :=
  g.Upholds (fun instr => instr.movesSlot = false) slots

theorem slotted_of_build (generated : Stream.generate memory options = .ok stream)
    (built : build stream buildOptions = .ok g) : g.Slotted stream.slots ∧ stream.slots.Nodup := by
  refine ⟨upholds_of_build generated built ⟨fun _ unmoved => unmoved, fun _ _ => rfl⟩ ?_,
    (Stream.bound_of_generate generated).1⟩
  exact fun tiled _ listed => tiled.movesSlot_eq_false listed

end Graph
end Dynarec
