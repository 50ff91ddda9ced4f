import Dynarec.Proofs.Graph.Layout
import Dynarec.Proofs.Run.Interpreter

/-!
# Runs of folded branches

A conditional assignment does what the assignment does if the jump that skipped
it is not taken, and nothing otherwise.  Assignments do not change the outcome
of the test, so a folded branch shows the same as the branch did.
-/

namespace Dynarec

open Bool Dynarec.Graph Instruction List
open Interpreter (Event State)

namespace Interpreter

variable {V E : Type} (interp : Interpreter V E) {jump : Instruction Register}

theorem passes_assign (jump assignment : Instruction Register) (state : State V E) :
    interp.passes jump (interp.assign assignment state).1 = interp.passes jump state := rfl

theorem perform_assignment (plain : isPlainAssignment assignment) (state : State V E) :
    interp.perform assignment state = interp.assign assignment state := by
  have kind_eq : assignment.kind = .immediate := by
    simp only [isPlainAssignment, and_eq_true, decide_eq_true_eq] at plain
    exact plain.1.1
  simp [perform, kind_eq, plain]

theorem perform_of_conditional (kind_eq : assignment.kind = .conditionalImmediate)
    (state : State V E) :
    interp.perform assignment state =
      if interp.passes assignment state then interp.assign assignment state else (state, []) := by
  simp [perform, kind_eq]

theorem perform_conditionalMove (foldable : isFoldableJump jump)
    (assignment : Instruction Register) (state : State V E) :
    interp.perform (conditionalMove jump assignment) state =
      if interp.passes jump state then (state, []) else interp.assign assignment state := by
  simp only [isFoldableJump, and_eq_true, decide_eq_true_eq] at foldable
  have guard_eq := foldable.1.1.2
  have opposite : interp.passes (conditionalMove jump assignment) state =
      !interp.passes jump state := by
    simp only [passes, guard_eq, conditionalMove, conditionalImmediate]
    cases interp.bit state.environment jump.guardField jump.guardBit <;>
      cases jump.guardSet <;> rfl
  rw [interp.perform_of_conditional rfl, opposite]
  cases interp.passes jump state <;> rfl

end Interpreter

namespace Graph

theorem isSuffix_of_isPlainAssignment (plain : isPlainAssignment assignment) :
    assignment.isSuffix = false := by
  simp only [isPlainAssignment, and_eq_true, decide_eq_true_eq] at plain
  simp [isSuffix, plain.1.1]

variable {g : Graph} {id : SegmentId} {jump : Instruction Register}

namespace IsFoldableBranch

variable (foldable : g.IsFoldableBranch id skipped jump join)

include foldable

theorem skipped_cases :
    (g.segment skipped).prev.length = 1 ∧ (g.segment skipped).enterable = false ∧
      (g.segment skipped).isDestination = false ∧ (g.segment skipped).link false = some join ∧
      ∀ assignment ∈ (g.segment skipped).instructions, isPlainAssignment assignment := by
  have isFoldable := foldable.isFoldable
  simp only [Graph.isFoldable, and_eq_true, decide_eq_true_eq, not_eq_true',
    all_eq_true] at isFoldable
  obtain ⟨⟨⟨⟨⟨⟨⟨single, enterable⟩, isDestination⟩, -⟩, notTaken⟩, -⟩, -⟩, assigns⟩ := isFoldable
  exact ⟨single, enterable, isDestination, notTaken, assigns⟩

theorem eq_of_link (tied : g.Tied) (mem : id ∈ g.order) (sourceMem : source ∈ g.order)
    (linked : (g.segment source).link side = some skipped) : source = id ∧ side = false := by
  have skippedMem := tied.numbered.link_mem mem foldable.notTaken_eq
  have single := foldable.skipped_cases.1
  obtain ⟨only, prev_eq⟩ := length_eq_one_iff.mp single
  have count source (sourceMem : source ∈ g.order) :=
    tied.backlinked skipped skippedMem source sourceMem
  rw [prev_eq] at count
  have listed {source side} (sourceMem : source ∈ g.order)
      (linked : (g.segment source).link side = some skipped) : source = only := by
    have pos := count_pos_iff.mpr (Segment.mem_successors_of_link linked)
    rw [← count source sourceMem, count_pos_iff] at pos
    exact mem_singleton.mp pos
  have source_eq := listed sourceMem linked
  have id_eq := listed mem foldable.notTaken_eq
  have same : source = id := source_eq.trans id_eq.symm
  refine ⟨same, ?_⟩
  subst same
  cases side with
  | false => rfl
  | true =>
    have once := count source mem
    have notTaken := foldable.notTaken_eq
    rw [Segment.count_successors, linked, notTaken, id_eq] at once
    simp at once

theorem join_ne (tied : g.Tied) (mem : id ∈ g.order) : join ≠ skipped := by
  rintro rfl
  cases (foldable.eq_of_link tied mem mem foldable.taken_eq).2

end IsFoldableBranch

section

variable {V E : Type} (interp : Interpreter V E)

/-- Where a graph stands behind a branch with some of the skipped assignments left. -/
def behindBranch (skipped join : SegmentId) (jump : Instruction Register) (left : Code)
    (state : State V E) : Standing (State V E) :=
  if interp.passes jump state then .entering join state else .running skipped left state

/-- A folded graph in the middle of conditional assignments, and the graph before. -/
inductive Moving (id skipped join : SegmentId) (jump : Instruction Register) :
    Standing (State V E) → Standing (State V E) → Prop
  | branch {left : Code} (state : State V E)
      (assigns : ∀ assignment ∈ left, isPlainAssignment assignment) :
      Moving id skipped join jump (.running id (left.map (conditionalMove jump)) state)
        (behindBranch interp skipped join jump left state)
  | entering (state : State V E) : Moving id skipped join jump (.entering skipped state)
        (behindBranch interp skipped join jump [] state)
  | running (state : State V E) : Moving id skipped join jump (.running skipped [] state)
        (behindBranch interp skipped join jump [] state)

/-- A place in a folded graph and one in the graph before. -/
inductive Refolded (g : Graph) (id skipped join : SegmentId) (jump : Instruction Register) :
    Standing (State V E) → Standing (State V E) → Prop
  | entering {other : SegmentId} (state : State V E) (member : other ∈ g.order)
      (notSkipped : other ≠ skipped) :
      Refolded g id skipped join jump (.entering other state) (.entering other state)
  | running {other : SegmentId} (left : Code) (state : State V E)
      (member : other ∈ g.order) (notSource : other ≠ id) (notSkipped : other ≠ skipped) :
      Refolded g id skipped join jump (.running other left state) (.running other left state)
  | front {left : Code} (state : State V E)
      (inside : ∀ instr ∈ left, instr.isSuffix = false) : Refolded g id skipped join jump
        (.running id (left ++ (g.segment skipped).instructions.map (conditionalMove jump)) state)
        (.running id (left ++ [jump]) state)
  | skipping (state : State V E) (fails : interp.passes jump state = false) :
      Refolded g id skipped join jump
        (.running id ((g.segment skipped).instructions.map (conditionalMove jump)) state)
        (.entering skipped state)
  | moving {place other : Standing (State V E)}
      (moving : Moving interp id skipped join jump place other) :
      Refolded g id skipped join jump place other
  | outside : Refolded g id skipped join jump .outside .outside

end

structure Folds (g : Graph) (id skipped join : SegmentId) (jump : Instruction Register)
    (after : Graph) : Prop extends g.Tied where
  member : id ∈ g.order
  placed : WellPlaced (g.segment id).instructions
  foldable : g.IsFoldableBranch id skipped jump join
  folded : g.BranchFolded id skipped jump after

namespace Folds

variable {after : Graph} (folds : g.Folds id skipped join jump after) {V E : Type}
  (interp : Interpreter V E)

include folds

theorem join_mem : join ∈ g.order := folds.numbered.link_mem folds.member folds.foldable.taken_eq

theorem join_ne : join ≠ skipped := folds.foldable.join_ne folds.toTied folds.member

theorem assigns : ∀ assignment ∈ (g.segment skipped).instructions, isPlainAssignment assignment :=
  folds.foldable.skipped_cases.2.2.2.2

theorem link_skipped : (g.segment skipped).link false = some join :=
  folds.foldable.skipped_cases.2.2.2.1

theorem kind_eq : jump.kind = .jump := by
  have isJump := folds.foldable.isFoldableJump
  simp only [isFoldableJump, and_eq_true, decide_eq_true_eq] at isJump
  exact isJump.1.1.1

theorem ends_jump (state : State V E) :
    interp.machine.Ends [jump] state (interp.passes jump state) [] state := by
  refine .decide [] (isSuffix_of_jump folds.kind_eq) ⟨rfl, ?_⟩
  rw [folds.kind_eq]
  exact ⟨rfl, rfl⟩

theorem step_jump {next} (one : g.Step interp.machine (.running id [jump] state) shown next) :
    shown = [] ∧ next = .entering (if interp.passes jump state then join else skipped) state := by
  have decided {side shown last} (ends : interp.machine.Ends [jump] state side shown last) :
      last = state ∧ side = interp.passes jump state ∧ shown = [] := by
    cases ends with
    | decide _ _ decides =>
      obtain ⟨same, decides⟩ := decides
      rw [folds.kind_eq] at decides
      exact ⟨same, decides⟩
  have linked : (g.segment id).link (interp.passes jump state) =
      some (if interp.passes jump state then join else skipped) := by
    cases interp.passes jump state with
    | true => exact folds.foldable.taken_eq
    | false => exact folds.foldable.notTaken_eq
  cases one with
  | perform _ _ _ nonfinal => cases (isSuffix_of_jump folds.kind_eq).symm.trans nonfinal
  | follow ends link =>
    obtain ⟨rfl, rfl, rfl⟩ := decided ends
    cases linked.symm.trans link
    exact ⟨rfl, rfl⟩
  | leave ends link =>
    obtain ⟨rfl, rfl, rfl⟩ := decided ends
    cases linked.symm.trans link

theorem runs_branch (state : State V E) :
    Runs (g.Step interp.machine) (.running id [jump] state) []
      (behindBranch interp skipped join jump (g.segment skipped).instructions state) := by
  have ends := folds.ends_jump interp state
  rw [behindBranch]
  cases passes : interp.passes jump state with
  | true =>
    rw [passes] at ends
    exact .single (.follow ends folds.foldable.taken_eq)
  | false =>
    rw [passes] at ends
    have follow : g.Step interp.machine _ _ _ := .follow ends folds.foldable.notTaken_eq
    have arrive : g.Step interp.machine _ _ _ := .arrive skipped state
    exact (Runs.single follow).trans (.single arrive)

theorem runs_behindBranch (state : State V E) :
    Runs (g.Step interp.machine) (behindBranch interp skipped join jump [] state) []
      (.entering join state) := by
  rw [behindBranch]
  split
  · exact .refl _
  · exact .single (.follow (.fall state) folds.link_skipped)

theorem runs_assignment (plain : isPlainAssignment assignment) (left : Code) (state : State V E) :
    Runs (g.Step interp.machine) (behindBranch interp skipped join jump (assignment :: left) state)
      (interp.perform (conditionalMove jump assignment) state).2
      (behindBranch interp skipped join jump left
        (interp.perform (conditionalMove jump assignment) state).1) := by
  rw [interp.perform_conditionalMove folds.foldable.isFoldableJump]
  cases passes : interp.passes jump state with
  | true =>
    simp only [behindBranch, passes, if_true]
    exact .refl _
  | false =>
    have fails := (interp.passes_assign jump assignment state).trans passes
    simp only [behindBranch, passes, fails, false_eq_true, if_false]
    rw [← interp.perform_assignment plain]
    exact .single (.perform skipped left state (isSuffix_of_isPlainAssignment plain))

theorem runs_passing (passes : interp.passes jump state) (left : Code) :
    Runs (after.Step interp.machine) (.running id (left.map (conditionalMove jump)) state) []
      (.running id [] state) := by
  induction left with
  | nil => exact .refl _
  | cons assignment left ih =>
    have one : after.Step interp.machine
        (.running id (conditionalMove jump assignment :: left.map (conditionalMove jump)) state)
        _ _ :=
      .perform id _ state rfl
    have silent : interp.machine.perform (conditionalMove jump assignment) state = (state, []) :=
      (interp.perform_conditionalMove folds.foldable.isFoldableJump _ _).trans (if_pos passes)
    rw [silent] at one
    exact .head one ih

theorem link_source_after : (after.segment id).link false = some skipped := by
  rw [folds.folded.link_eq, if_neg (by simp)]
  exact folds.foldable.notTaken_eq

theorem link_skipped_after : (after.segment skipped).link false = some join := by
  rw [folds.folded.link_eq, if_neg (by simp)]
  exact folds.link_skipped

/-- From the end of the conditional assignments, the folded graph gets to where both ways meet. -/
theorem runs_moved (state : State V E) :
    Runs (after.Step interp.machine) (.running id [] state) [] (.entering skipped state) ∧
      Runs (after.Step interp.machine) (.entering skipped state) [] (.running skipped [] state) ∧
      Runs (after.Step interp.machine) (.running skipped [] state) [] (.entering join state) := by
  have arrive : after.Step interp.machine _ _ _ := .arrive skipped state
  rw [folds.folded.instructions_skipped] at arrive
  exact ⟨.single (.follow (.fall state) folds.link_source_after), .single arrive,
    .single (.follow (.fall state) folds.link_skipped_after)⟩

theorem refolded_arrive (otherMem : other ∈ g.order) (notSkipped : other ≠ skipped)
    (state : State V E) :
    Refolded interp g id skipped join jump (.running other (after.segment other).instructions state)
      (.running other (g.segment other).instructions state) := by
  by_cases source : other = id
  · subst source
    have front := dropLast_append_getLast? jump folds.foldable.last_eq
    rw [folds.folded.instructions_source, ← front, dropLast_concat]
    exact .front state folds.placed.suffix_last
  · have same := folds.folded.others_eq other source notSkipped
    rw [same.code_eq]
    exact .running _ state otherMem source notSkipped

theorem link_eq_of_ne (notSource : other ≠ id) (side : Bool) :
    (after.segment other).link side = (g.segment other).link side := by
  rw [folds.folded.link_eq, if_neg fun both => notSource both.1]

theorem refolded_onward (otherMem : other ∈ g.order) (notSource : other ≠ id)
    (notSkipped : other ≠ skipped) (onward : g.Onward other place) :
    Refolded interp g id skipped join jump place place := by
  cases onward with
  | running rest state => exact .running rest state otherMem notSource notSkipped
  | entering state linked =>
    refine .entering state (folds.numbered.link_mem otherMem linked) ?_
    rintro rfl
    exact notSource (folds.foldable.eq_of_link folds.toTied folds.member otherMem linked).1
  | outside => exact .outside

theorem step_moving {next} (moving : Moving interp id skipped join jump place other)
    (one : after.Step interp.machine place shown next) :
    ∃ nextOther, Runs (g.Step interp.machine) other shown nextOther ∧
      Refolded interp g id skipped join jump next nextOther := by
  cases moving with
  | @branch left state assigns =>
    cases left with
    | nil =>
      obtain ⟨rfl, rfl⟩ := step_running_nil folds.link_source_after one
      exact ⟨_, .refl _, .moving (.entering state)⟩
    | cons assignment left =>
      obtain ⟨plain, assigns⟩ := forall_mem_cons.mp assigns
      obtain ⟨rfl, rfl⟩ := step_running_body rfl one
      exact ⟨_, folds.runs_assignment interp plain left state, .moving (.branch _ assigns)⟩
  | entering state =>
    cases one with
    | arrive =>
      rw [folds.folded.instructions_skipped]
      exact ⟨_, .refl _, .moving (.running state)⟩
  | running state =>
    obtain ⟨rfl, rfl⟩ := step_running_nil folds.link_skipped_after one
    exact ⟨_, folds.runs_behindBranch interp state, .entering state folds.join_mem folds.join_ne⟩

theorem simulates_unfolded :
    Simulates (after.Step interp.machine) (g.Step interp.machine)
      (Refolded interp g id skipped join jump) := by
  constructor
  intro place other shown next related one
  cases related with
  | entering state otherMem notSkipped =>
    cases one with
    | arrive => exact ⟨_, .single (.arrive _ state),
        folds.refolded_arrive interp otherMem notSkipped state⟩
  | @running source left state otherMem notSource notSkipped =>
    have one := one.congr fun side => (folds.link_eq_of_ne notSource side).symm
    exact ⟨_, .single one, folds.refolded_onward interp otherMem notSource notSkipped one.onward⟩
  | @front left state inside =>
    cases left with
    | nil =>
      obtain ⟨nextOther, run, related⟩ := folds.step_moving interp (.branch state folds.assigns) one
      exact ⟨nextOther, (folds.runs_branch interp state).trans run, related⟩
    | cons instruction left =>
      obtain ⟨nonfinal, inside⟩ := forall_mem_cons.mp inside
      obtain ⟨rfl, rfl⟩ := step_running_body nonfinal one
      exact ⟨_, .single (.perform id _ state nonfinal), .front _ inside⟩
  | skipping state fails =>
    obtain ⟨nextOther, run, related⟩ := folds.step_moving interp (.branch state folds.assigns) one
    rw [behindBranch, fails] at run
    have arrive : g.Step interp.machine _ _ _ := .arrive skipped state
    exact ⟨nextOther, (Runs.single arrive).trans run, related⟩
  | moving moving => exact folds.step_moving interp moving one
  | outside => cases one

/-- A folded graph shows what the graph before shows in the middle of the skipped assignments. -/
theorem step_unmoving (moving : Moving interp id skipped join jump place other)
    (one : g.Step interp.machine other shown nextOther) :
    ∃ next, Runs (after.Step interp.machine) place shown next ∧
      Refolded interp g id skipped join jump next nextOther := by
  -- Where nothing is left to assign, both graphs go on where the ways meet.
  have meet {place state} (meets : Runs (after.Step interp.machine) place [] (.entering join state))
      (one : g.Step interp.machine
        (behindBranch interp skipped join jump [] state) shown nextOther) :
      ∃ next, Runs (after.Step interp.machine) place shown next ∧
        Refolded interp g id skipped join jump next nextOther := by
    rw [behindBranch] at one
    split at one
    · cases one with
      | arrive => exact ⟨_, meets.trans (.single (.arrive join state)),
          folds.refolded_arrive interp folds.join_mem folds.join_ne state⟩
    · obtain ⟨rfl, rfl⟩ := step_running_nil folds.link_skipped one
      exact ⟨_, meets, .entering state folds.join_mem folds.join_ne⟩
  cases moving with
  | @branch left state assigns =>
    obtain ⟨fall, enter, pass⟩ := folds.runs_moved interp state
    cases passes : interp.passes jump state with
    | true =>
      have same : behindBranch interp skipped join jump left state =
          behindBranch interp skipped join jump [] state := by
        simp [behindBranch, passes]
      rw [same] at one
      exact meet ((folds.runs_passing interp passes left).trans (fall.trans (enter.trans pass))) one
    | false =>
      cases left with
      | nil => exact meet (fall.trans (enter.trans pass)) one
      | cons assignment left =>
        obtain ⟨plain, assigns⟩ := forall_mem_cons.mp assigns
        have moved : interp.machine.perform (conditionalMove jump assignment) state =
            interp.perform assignment state := by
          rw [interp.perform_assignment plain]
          refine (interp.perform_conditionalMove folds.foldable.isFoldableJump _ _).trans
            (if_neg ?_)
          rw [passes]
          exact false_ne_true
        have fails : interp.passes jump (interp.perform assignment state).1 = false := by
          rw [interp.perform_assignment plain]
          exact passes
        have related : Refolded interp g id skipped join jump _
            (behindBranch interp skipped join jump left
              (interp.perform assignment state).1) := .moving (.branch _ assigns)
        have move : after.Step interp.machine
            (.running id (conditionalMove jump assignment :: left.map (conditionalMove jump))
              state) _ _ := .perform id _ state rfl
        rw [moved] at move
        simp only [behindBranch, passes, fails, false_eq_true, if_false] at one related
        obtain ⟨rfl, rfl⟩ := step_running_body (isSuffix_of_isPlainAssignment plain) one
        exact ⟨_, .single move, related⟩
  | entering state =>
    obtain ⟨-, enter, pass⟩ := folds.runs_moved interp state
    exact meet (enter.trans pass) one
  | running state =>
    obtain ⟨-, -, pass⟩ := folds.runs_moved interp state
    exact meet pass one

theorem simulates_folded :
    Simulates (g.Step interp.machine) (after.Step interp.machine) fun other place =>
      Refolded interp g id skipped join jump place other := by
  have branched state : Refolded interp g id skipped join jump _
      (behindBranch interp skipped join jump (g.segment skipped).instructions state) :=
    .moving (.branch state folds.assigns)
  constructor
  intro other place shown nextOther related one
  cases related with
  | entering state otherMem notSkipped =>
    cases one with
    | arrive => exact ⟨_, .single (.arrive _ state),
        folds.refolded_arrive interp otherMem notSkipped state⟩
  | @running source left state otherMem notSource notSkipped =>
    exact ⟨_, .single (one.congr (folds.link_eq_of_ne notSource)),
      folds.refolded_onward interp otherMem notSource notSkipped one.onward⟩
  | @front left state inside =>
    cases left with
    | nil =>
      obtain ⟨rfl, rfl⟩ := folds.step_jump interp one
      refine ⟨_, .refl _, ?_⟩
      cases passes : interp.passes jump state with
      | true =>
        have related := branched state
        rwa [behindBranch, passes] at related
      | false => exact .skipping state passes
    | cons instruction left =>
      obtain ⟨nonfinal, inside⟩ := forall_mem_cons.mp inside
      obtain ⟨rfl, rfl⟩ := step_running_body nonfinal one
      exact ⟨_, .single (.perform id _ state nonfinal), .front _ inside⟩
  | skipping state fails =>
    cases one with
    | arrive =>
      have related := branched state
      rw [behindBranch, fails] at related
      exact ⟨_, .refl _, related⟩
  | moving moving => exact folds.step_unmoving interp moving one
  | outside => cases one

end Folds
end Graph
end Dynarec
