import Dynarec.Proofs.Run.Folding

/-!
# Runs before and after the first passes

Folding branches and counting cycles change what segments hold.  The graph
before and the graph after execute each other, and both enter the segments that
are led to at the same time.
-/

namespace Dynarec
variable {id : SegmentId}

namespace Graph

variable {V E : Type} {g : Graph}

/-- Two graphs that execute each other, with the places that they reach at the same time. -/
structure Interchanges (interpreter : Interpreter V E) (g after : Graph)
    (related : Standing (Interpreter.State V E) → Standing (Interpreter.State V E) → Prop) :
    Prop where
  kept : g.LayoutKept after
  forth : Simulates (after.Step interpreter.machine) (g.Step interpreter.machine) related
  back : Simulates (g.Step interpreter.machine) (after.Step interpreter.machine)
    fun other place => related place other
  enters : ∀ {id}, id ∈ g.order → (after.segment id).opens → ∀ state,
    related (.entering id state) (.entering id state)
  entered : ∀ {id state place}, id ∈ g.order → (after.segment id).opens →
    related (.entering id state) place → place = .entering id state

section

namespace Interchanges

theorem refl (tied : g.Tied) : Interchanges interp g g Eq := by
  refine ⟨.refl tied, ⟨?_⟩, ⟨?_⟩, fun _ _ _ => rfl, fun _ _ equal => equal.symm⟩
  · rintro place _ shown next rfl one
    exact ⟨next, .single one, rfl⟩
  · rintro place _ shown next rfl one
    exact ⟨next, .single one, rfl⟩

/-- Two changes one after the other. -/
theorem trans

    (one : Interchanges interp g middle first) (two : Interchanges interp middle after second) :
    Interchanges interp g after fun place last =>
      ∃ between, second place between ∧ first between last := by
  have opens {id} (mem : id ∈ g.order)
      (opens : (after.segment id).opens = true) : (middle.segment id).opens = true :=
    (two.kept.each id (one.kept.order_eq ▸ mem)).opens opens
  have middleMem {id : SegmentId} (mem : id ∈ g.order) : id ∈ middle.order :=
    one.kept.order_eq ▸ mem
  refine ⟨one.kept.trans two.kept, two.forth.trans one.forth, ⟨?_⟩, ?_, ?_⟩
  · rintro last place shown nextLast ⟨between, secondRelated, firstRelated⟩ step
    obtain ⟨nextBetween, run, nextFirst⟩ := one.back.step firstRelated step
    obtain ⟨next, further, nextSecond⟩ := two.back.runs secondRelated run
    exact ⟨next, further, nextBetween, nextSecond, nextFirst⟩
  · intro id mem opensAfter state
    exact ⟨_, two.enters (middleMem mem) opensAfter state,
      one.enters mem (opens mem opensAfter) state⟩
  · rintro id state last mem opensAfter ⟨between, secondRelated, firstRelated⟩
    rw [two.entered (middleMem mem) opensAfter secondRelated] at firstRelated
    exact one.entered mem (opens mem opensAfter) firstRelated

end Interchanges

theorem Folds.interchanges (folds : g.Folds id skipped join jump after) (kept : g.LayoutKept after)
    : Interchanges interp g after (Refolded interp g id skipped join jump) := by
  have apart {other : SegmentId} (opens : (after.segment other).opens) : other ≠ skipped := by
    rintro rfl
    obtain ⟨-, enterable, isDestination, -⟩ := folds.foldable.skipped_cases
    have keeps := kept.each other (folds.numbered.link_mem folds.member folds.foldable.notTaken_eq)
    simp [Segment.opens, keeps.enterable_eq, keeps.isDestination_eq, enterable, isDestination,
      Segment.jumpTarget?, Segment.last?, folds.folded.instructions_skipped] at opens
  refine ⟨kept, folds.simulates_unfolded interp, folds.simulates_folded interp,
    fun mem opens state => .entering state mem (apart opens), ?_⟩
  intro other state place mem opens related
  cases related with
  | entering => rfl
  | moving moving =>
    cases moving with
    | entering => exact absurd rfl (apart opens)

end

/-- A place in a graph that counts its cycles and one in the graph before. -/
inductive Counted {S : Type} (g : Graph) : Standing S → Standing S → Prop
  | entering {id : SegmentId} (state : S) (member : id ∈ g.order) :
      Counted g (.entering id state) (.entering id state)
  | counting {id : SegmentId} (cycles : UInt32) (left : Code) (state : S) (member : id ∈ g.order) :
      Counted g (.running id (.ofRoutine .countCycles cycles 0 :: left) state)
        (.running id left state)
  | running {id : SegmentId} (left : Code) (state : S) (member : id ∈ g.order) :
      Counted g (.running id left state) (.running id left state)
  | outside : Counted g .outside .outside

section

variable (interp : Interpreter V E) (tied : g.Tied)

include tied

theorem counted_onward {S : Type} (mem : id ∈ g.order) {place : Standing S}
    (onward : g.Onward id place) : g.Counted place place := by
  cases onward with
  | running rest state => exact .running rest state mem
  | entering state linked => exact .entering state (tied.numbered.link_mem mem linked)
  | outside => exact .outside

theorem counted_arrive {S : Type} (mem : id ∈ g.order) (state : S) :
    g.Counted (.running id (g.countCycles.segment id).instructions state)
      (.running id (g.segment id).instructions state) := by
  have counted := (mapped_mapOrdered tied.numbered Segment.countCycles).segment_eq id
  rw [if_pos mem] at counted
  rw [Graph.countCycles, counted]
  rcases countCycles_cases (g.segment id) with unchanged | ⟨-, cycles, points, changed⟩
  · rw [unchanged]
    exact .running _ state mem
  · rw [changed]
    exact .counting cycles _ state mem

theorem link_countCycles (id : SegmentId) (side : Bool) :
    (g.countCycles.segment id).link side = (g.segment id).link side := by
  rw [Graph.countCycles, (mapped_mapOrdered tied.numbered Segment.countCycles).segment_eq id]
  split
  · rw [Segment.countCycles]
    split <;> cases side <;> rfl
  · rfl

theorem interchanges_countCycles : Interchanges interp g g.countCycles g.Counted := by
  refine ⟨.countCycles tied, ⟨?_⟩, ⟨?_⟩, fun mem _ state => .entering state mem, ?_⟩
  · intro place other shown next related one
    cases related with
    | entering state mem =>
      cases one with
      | arrive => exact ⟨_, .single (.arrive _ state), counted_arrive tied mem state⟩
    | counting cycles left state mem =>
      obtain ⟨rfl, rfl⟩ := step_running_body rfl one
      exact ⟨_, .refl _, .running left state mem⟩
    | @running id left state mem =>
      have one := one.congr fun side => (link_countCycles tied id side).symm
      exact ⟨_, .single one, counted_onward tied mem one.onward⟩
    | outside => cases one
  · intro other place shown next related one
    cases related with
    | entering state mem =>
      cases one with
      | arrive => exact ⟨_, .single (.arrive _ state), counted_arrive tied mem state⟩
    | @counting id cycles left state mem =>
      have count : g.countCycles.Step interp.machine
          (.running id (.ofRoutine .countCycles cycles 0 :: left) state) []
          (.running id left state) :=
        .perform id left state rfl
      exact ⟨_, .head count (.single (one.congr (link_countCycles tied id))),
        counted_onward tied mem one.onward⟩
    | @running id left state mem =>
      exact ⟨_, .single (one.congr (link_countCycles tied id)), counted_onward tied mem one.onward⟩
    | outside => cases one
  · intro id state place _ _ related
    cases related
    rfl

theorem exists_interchanges_prepared
    (placed : ∀ id ∈ g.order, WellPlaced (g.segment id).instructions) (options : BuildOptions) :
    ∃ related, Interchanges interp g (g.prepared options) related := by
  refine prepared_induction
    (motive := fun after => ∃ related, Interchanges interp g after related) tied
    ⟨_, .refl tied⟩ ?_ ?_ options
  · rintro before id skipped jump join after tied mem foldable folded ⟨_, others⟩
    have placed := others.kept.wellPlaced placed
    have folds : before.Folds id skipped join jump after :=
      ⟨tied, mem, placed id mem, foldable, folded⟩
    exact ⟨_, others.trans (folds.interchanges (.of_branchFolded placed mem foldable folded))⟩
  · rintro before tied ⟨_, others⟩
    exact ⟨_, others.trans (interchanges_countCycles interp tied)⟩

end
end Graph
end Dynarec
