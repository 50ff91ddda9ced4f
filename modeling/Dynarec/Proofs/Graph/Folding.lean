import Dynarec.Graph.ConditionalMove
import Dynarec.Proofs.Graph.Guarding

/-!
# Folded branches

What a graph shows after a branch around immediate assignments was folded: the
branching segment ends with conditional assignments and falls through, and the
segment that was skipped is empty.
-/

namespace Dynarec.Graph

variable {g : Graph}

/-- A branching segment with the skipped assignments in place of its jump. -/
def folded (jump : Instruction Register) (skipped seg : Segment) : Segment :=
  ((seg.remove (seg.length - 1) 1).append
    (skipped.instructions.map (conditionalMove jump))).refreshAddresses

/-- A segment whose assignments were moved away. -/
def emptied (seg : Segment) : Segment :=
  { seg with instructions := [] }.refreshAddresses

/-- A branch that only skips assignments. -/
structure IsFoldableBranch (g : Graph) (id skipped : SegmentId) (jump : Instruction Register)
    (join : SegmentId) : Prop where
  last_eq : (g.segment id).last? = some jump
  taken_eq : (g.segment id).link true = some join
  notTaken_eq : (g.segment id).link false = some skipped
  isFoldableJump : isFoldableJump jump
  isFoldable : isFoldable (g.segment skipped) join

structure BranchFolded (before : Graph) (id skipped : SegmentId) (jump : Instruction Register)
    (after : Graph) : Prop extends after.Tied where
  shape_eq : after = { before with segments := after.segments }
  placed : before.Placed → after.Placed
  source_eq : (after.segment id).SameFields
    (folded jump (before.segment skipped) (before.segment id))
  skipped_eq : (after.segment skipped).SameFields (emptied (before.segment skipped))
  others_eq : ∀ other, other ≠ id → other ≠ skipped →
    (after.segment other).SameFields (before.segment other)
  link_eq : ∀ other side, (after.segment other).link side =
    if other = id ∧ side = true then none else (before.segment other).link side

namespace IsFoldableBranch

variable {id : SegmentId} (foldable : g.IsFoldableBranch id skipped jump join)

include foldable

theorem ne : id ≠ skipped := by
  rintro rfl
  have skips := foldable.isFoldable
  have taken : (g.segment id).taken = some join := foldable.taken_eq
  simp [Graph.isFoldable, taken] at skips

theorem branchFolded (tied : g.Tied) (mem : id ∈ g.order) :
    g.BranchFolded id skipped jump
      (((g.modify id (folded jump (g.segment skipped))).setLink id none true).modify skipped
        emptied) := by
  have skippedMem := tied.numbered.link_mem mem foldable.notTaken_eq
  have filled := (Refilled.refl tied).modify mem
    (folded jump (g.segment skipped)) fun _ => ⟨rfl, rfl, rfl, rfl⟩
  have cut := (Rewired.refl filled.toTied).setLink
    (filled.order_eq ▸ mem) (fun _ absent => absurd absent (Option.not_mem_none _)) true
  have cleared := (Refilled.refl cut.toTied).modify
    (cut.order_eq ▸ filled.order_eq ▸ skippedMem) emptied fun _ => ⟨rfl, rfl, rfl, rfl⟩
  refine ⟨cleared.toTied, ?_, ?_, ?_, ?_, ?_, ?_⟩
  · rw [cleared.shape_eq, cut.shape_eq, filled.shape_eq]
  · intro placed
    exact (cut.placed (placed.modify id fun _ => rfl)).modify skipped fun _ => rfl
  · rw [cleared.segment_eq, if_neg (Ne.symm foldable.ne)]
    refine (cut.content_eq id).trans ?_
    rw [filled.segment_eq, if_pos rfl]
  · have kept := cut.content_eq skipped
    rw [filled.segment_eq, if_neg foldable.ne] at kept
    rw [cleared.segment_eq, if_pos rfl]
    exact .map₂ kept (fun _ => emptied) (fun _ _ => rfl) kept
  · intro other notSource notSkipped
    rw [cleared.segment_eq, if_neg (Ne.symm notSkipped)]
    refine (cut.content_eq other).trans ?_
    rw [filled.segment_eq, if_neg (Ne.symm notSource)]
  · intro other side
    rw [(cleared.same _).link_eq, cut.link_eq, (filled.same _).link_eq]
    simp only [eq_comm]

end IsFoldableBranch

theorem foldBranch_cases (tied : g.Tied) {id} (mem : id ∈ g.order) :
    g.foldBranch id = g ∨ ∃ skipped jump join, g.IsFoldableBranch id skipped jump join ∧
        g.BranchFolded id skipped jump (g.foldBranch id) := by
  rw [foldBranch]
  split
  next jump join skipped last_eq taken_eq notTaken_eq =>
    dsimp only
    split
    next both =>
      rw [Bool.and_eq_true] at both
      have foldable : g.IsFoldableBranch id skipped jump join :=
        ⟨last_eq, taken_eq, notTaken_eq, both.1, both.2⟩
      exact .inr ⟨skipped, jump, join, foldable, foldable.branchFolded tied mem⟩
    · exact .inl rfl
  · exact .inl rfl

theorem foldConditionalMoves_induction {motive : Graph → Prop} (tied : g.Tied)
    (initial : motive g) (step : ∀ {before id skipped jump join after}, before.Tied →
      id ∈ before.order → before.IsFoldableBranch id skipped jump join →
      before.BranchFolded id skipped jump after → motive before → motive after) :
    motive g.foldConditionalMoves := by
  have each (ids : List SegmentId) g (tied : g.Tied)
      (members : ∀ id ∈ ids, id ∈ g.order) (holds : motive g) :
      motive (ids.foldl foldBranch g) := by
    induction ids generalizing g with
    | nil => exact holds
    | cons first rest ih =>
      obtain ⟨mem, members⟩ := List.forall_mem_cons.mp members
      rw [List.foldl_cons]
      rcases foldBranch_cases tied mem with
        unchanged | ⟨skipped, jump, join, foldable, folded⟩
      · rw [unchanged]
        exact ih g tied members holds
      · have order_eq : (g.foldBranch first).order = g.order := by rw [folded.shape_eq]
        exact ih _ folded.toTied (order_eq ▸ members) (step tied mem foldable folded holds)
  exact each g.order g tied (fun _ mem => mem) initial

end Dynarec.Graph
