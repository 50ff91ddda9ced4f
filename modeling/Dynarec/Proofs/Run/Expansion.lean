import Dynarec.Proofs.Graph.Expansion
import Dynarec.Proofs.Run.Interpreter

/-!
# Runs over guards and trampolines

New segments are passed in silence, except that a check may find no cycles.  It
then leaves at the lowest address of the loop body that it stands in front of.
-/

namespace Dynarec.Graph

variable {orig g : Graph} {V E : Type} {interp : Interpreter V E}

section

variable {id next : SegmentId} {state : Interpreter.State V E}

theorem step_segmentJump_iff (linked : (g.segment id).link true = some next) :
    g.Step interp.machine (.running id [.segmentJump] state) shown place ↔
      shown = [] ∧ place = .entering next state := by
  constructor
  · intro one
    cases one with
    | perform _ _ _ inside => cases inside
    | follow ends link =>
      cases ends with
      | decide _ _ decides =>
        obtain ⟨rfl, rfl, rfl⟩ := decides
        cases linked.symm.trans link
        exact ⟨rfl, rfl⟩
    | leave ends link =>
      cases ends with
      | decide _ _ decides =>
        obtain ⟨rfl, rfl, rfl⟩ := decides
        cases linked.symm.trans link
  · rintro ⟨rfl, rfl⟩
    exact .follow (.decide [] rfl ⟨rfl, rfl, rfl⟩) linked

theorem step_cycleCheck_iff (linked : (g.segment id).link true = some next)
    (declined : (g.segment id).link false = some leave) :
    g.Step interp.machine (.running id [.cycleCheck name] state) shown place ↔
      shown = [] ∧ place = .entering next state ∨
        shown = [.yielded] ∧ place = .entering leave state := by
  constructor
  · intro one
    cases one with
    | perform _ _ _ inside => cases inside
    | @follow _ _ _ _ _ side _ ends link =>
      cases ends with
      | decide _ _ decides =>
        obtain ⟨rfl, rfl⟩ := decides
        cases side with
        | true =>
          cases linked.symm.trans link
          exact .inl ⟨rfl, rfl⟩
        | false =>
          cases declined.symm.trans link
          exact .inr ⟨rfl, rfl⟩
    | @leave _ _ _ _ side _ ends link =>
      cases side with
      | true => cases linked.symm.trans link
      | false => cases declined.symm.trans link
  · rintro (⟨rfl, rfl⟩ | ⟨rfl, rfl⟩)
    · refine .follow (.decide [] rfl ⟨rfl, ?_⟩) linked
      rfl
    · refine .follow (.decide [] rfl ⟨rfl, ?_⟩) declined
      rfl

theorem Leaves.shown_prefix (leaves : Leaves orig g leave body)
    (run : Runs (g.Step interp.machine) (.entering leave state) shown last) :
    shown <+: [.exited .leave (orig.segment body).lowest 0 state] := by
  cases run with
  | refl => exact List.nil_prefix
  | head one more =>
    cases one with
    | arrive =>
      rw [leaves.code_eq] at more
      cases more with
      | refl => exact List.nil_prefix
      | head one more =>
        cases one with
        | perform _ _ _ inside => cases inside
        | follow ends link =>
          cases ends with
          | decide _ _ decides =>
            obtain ⟨rfl, rfl, rfl⟩ := decides
            cases leaves.unlinked.symm.trans link
        | leave ends link =>
          cases ends with
          | decide _ _ decides =>
            obtain ⟨rfl, rfl, rfl⟩ := decides
            cases more with
            | refl => exact List.prefix_refl _
            | head one => cases one

end

/-- A place in a graph with guards and trampolines and one in the graph before. -/
inductive Rerouted {S : Type} (orig g : Graph) : Standing S → Standing S → Prop
  | entering {id target : SegmentId} (state : S) (way : Way orig g id target) :
      Rerouted orig g (.entering id state) (.entering target state)
  | jumping {id next target : SegmentId} (state : S) (linked : (g.segment id).link true = some next)
      (way : Way orig g next target) :
      Rerouted orig g (.running id [.segmentJump] state) (.entering target state)
  | checking {id next leave target : SegmentId} {name : Address} (state : S)
      (linked : (g.segment id).link true = some next)
      (declined : (g.segment id).link false = some leave) (yields : Yields orig g leave target)
      (way : Way orig g next target) :
      Rerouted orig g (.running id [.cycleCheck name] state) (.entering target state)
  | running {id : SegmentId} (left : Code) (state : S) (member : id ∈ orig.order) :
      Rerouted orig g (.running id left state) (.running id left state)
  | outside : Rerouted orig g .outside .outside

theorem Way.runs {id target} (way : Way orig g id target) (state : Interpreter.State V E) :
    Runs (g.Step interp.machine) (.entering id state) [] (.entering target state) := by
  induction way with
  | direct => exact .refl _
  | @jump id _ _ _ _ code_eq linked _ ih =>
    have arrive : g.Step interp.machine _ _ _ := .arrive id state
    rw [code_eq] at arrive
    exact .head arrive (.head ((step_segmentJump_iff linked).mpr ⟨rfl, rfl⟩) ih)
  | @check id _ _ _ _ _ _ code_eq linked declined _ _ _ ih =>
    have arrive : g.Step interp.machine _ _ _ := .arrive id state
    rw [code_eq] at arrive
    exact .head arrive (.head ((step_cycleCheck_iff linked declined).mpr (.inl ⟨rfl, rfl⟩)) ih)

namespace Expands

variable (expands : orig.Expands g)

include expands

theorem link_eq_none_iff {id} (mem : id ∈ orig.order) :
    (g.segment id).link side = none ↔ (orig.segment id).link side = none := by
  refine ⟨fun unlinked => ?_, expands.unlinked mem⟩
  cases linked : (orig.segment id).link side with
  | none => rfl
  | some next =>
    obtain ⟨first, led, -⟩ := expands.links mem linked
    cases unlinked.symm.trans led

/-- The graph before executes a graph with guards and trampolines, up to checks that leave. -/
theorem step_original (related : Rerouted orig g place other)
    (one : g.Step interp.machine place shown next) :
    (∃ nextOther, Runs (orig.Step interp.machine) other shown nextOther ∧
        Rerouted orig g next nextOther) ∨
      ∃ leave body state, shown = [.yielded] ∧ next = .entering leave state ∧
        other = .entering body state ∧ body ∈ orig.order ∧ Yields orig g leave body := by
  cases related with
  | entering state way =>
    left
    cases one with
    | arrive =>
      cases way with
      | direct mem =>
        rw [expands.code_eq mem]
        exact ⟨_, .single (.arrive _ state), .running _ state mem⟩
      | jump _ _ code_eq linked way =>
        rw [code_eq]
        exact ⟨_, .refl _, .jumping state linked way⟩
      | check _ mem code_eq linked declined leaves closes way =>
        have yields : Yields orig g _ _ := ⟨⟨_, mem, _, code_eq, declined⟩, leaves, closes⟩
        rw [code_eq]
        exact ⟨_, .refl _, .checking state linked declined yields way⟩
  | jumping state linked way =>
    obtain ⟨rfl, rfl⟩ := (step_segmentJump_iff linked).mp one
    exact .inl ⟨_, .refl _, .entering state way⟩
  | checking state linked declined yields way =>
    rcases (step_cycleCheck_iff linked declined).mp one with ⟨rfl, rfl⟩ | ⟨rfl, rfl⟩
    · exact .inl ⟨_, .refl _, .entering state way⟩
    · exact .inr ⟨_, _, state, rfl, rfl, rfl, way.target_mem, yields⟩
  | @running id left state mem =>
    left
    cases one with
    | perform _ rest _ inside =>
      exact ⟨_, .single (.perform id rest state inside), .running rest _ mem⟩
    | @follow _ first _ _ _ side _ ends link =>
      cases before : (orig.segment id).link side with
      | none => cases (expands.unlinked mem before).symm.trans link
      | some target =>
        obtain ⟨_, led, way⟩ := expands.links mem before
        cases led.symm.trans link
        exact ⟨_, .single (.follow ends before), .entering _ way⟩
    | leave ends link =>
      exact ⟨_, .single (.leave ends ((expands.link_eq_none_iff mem).mp link)), .outside⟩
  | outside => cases one

theorem simulates_original :
    Simulates (orig.Step interp.machine) (g.Step interp.machine)
      fun other place => Rerouted orig g place other := by
  constructor
  intro other place shown next related one
  -- Where a way leads to a segment, it is passed before the segment is entered.
  have arriving {place target} {state} (mem : target ∈ orig.order)
      (reach : Runs (g.Step interp.machine) place [] (.entering target state))
      (one : orig.Step interp.machine (.entering target state) shown next) :
      ∃ nextPlace, Runs (g.Step interp.machine) place shown nextPlace ∧
        Rerouted orig g nextPlace next := by
    cases one with
    | arrive =>
      have arrive : g.Step interp.machine _ _ _ := .arrive target state
      rw [expands.code_eq mem] at arrive
      exact ⟨_, reach.trans (.single arrive), .running _ state mem⟩
  cases related with
  | entering state way => exact arriving way.target_mem (way.runs state) one
  | jumping state linked way =>
    have jump : g.Step interp.machine (.running _ [.segmentJump] state) [] _ :=
      (step_segmentJump_iff linked).mpr ⟨rfl, rfl⟩
    exact arriving way.target_mem (.head jump (way.runs state)) one
  | @checking _ _ _ _ name state linked declined _ way =>
    have check : g.Step interp.machine (.running _ [.cycleCheck name] state) [] _ :=
      (step_cycleCheck_iff linked declined).mpr (.inl ⟨rfl, rfl⟩)
    exact arriving way.target_mem (.head check (way.runs state)) one
  | @running id left state mem =>
    cases one with
    | perform _ rest _ inside =>
      exact ⟨_, .single (.perform id rest state inside), .running rest _ mem⟩
    | follow ends link =>
      obtain ⟨first, led, way⟩ := expands.links mem link
      exact ⟨_, .single (.follow ends led), .entering _ way⟩
    | leave ends link =>
      exact ⟨_, .single (.leave ends (expands.unlinked mem link)), .outside⟩
  | outside => cases one

end Expands
end Dynarec.Graph
