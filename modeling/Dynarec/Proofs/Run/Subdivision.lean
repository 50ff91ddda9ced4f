import Dynarec.Proofs.Graph.Edge
import Dynarec.Proofs.Run.Machine

/-!
# Runs through edges

An edge is empty and leads on, so a machine that shows nothing on edges shows
the same in a graph and in one with some of its fall throughs subdivided.
-/

namespace Dynarec

open List Segment
theorem Graph.IsEdge.runs {next} {S O : Type} {g : Graph} {machine : Machine S O}
    (isEdge : g.IsEdge edge next) (silent : machine.arrive edge = []) (state : S) :
    Runs (g.Step machine) (.entering edge state) [] (.entering next state) := by
  have empty : (g.segment edge).instructions = [] :=
    congrArg instructions isEdge.content_eq
  have enter : g.Step machine _ _ _ := .arrive edge state
  rw [silent, empty] at enter
  exact .head enter (.single (.follow (.fall state) isEdge.notTaken_eq))

variable {id : SegmentId}

namespace Graph.Subdivides

variable {S O : Type} {orig : Graph} {machine : Machine S O} (subdivides : orig.Subdivides g)

include subdivides

theorem body_eq (mem : id ∈ orig.order) : (g.segment id).body = (orig.segment id).body := by
  rw [body, body, subdivides.code_eq mem]

theorem tail_eq (mem : id ∈ orig.order) : (g.segment id).tail = (orig.segment id).tail := by
  rw [Segment.tail, Segment.tail, subdivides.code_eq mem]

theorem link_eq_none_iff (mem : id ∈ orig.order) (side : Bool) :
    (g.segment id).link side = none ↔ (orig.segment id).link side = none := by
  cases side with
  | true => rw [subdivides.taken_eq mem]
  | false =>
    rcases subdivides.notTaken_eq mem with same | ⟨edge, next, before, now, _⟩
    · rw [same]
    · rw [before, now]
      simp

theorem successors_eq_nil_iff (mem : id ∈ orig.order) :
    (g.segment id).successors = [] ↔ (orig.segment id).successors = [] := by
  have taken := subdivides.link_eq_none_iff mem true
  have notTaken := subdivides.link_eq_none_iff mem false
  simp only [link] at taken notTaken
  simp [successors, taken, notTaken]

/-- A link leads where it led before, maybe through an edge. -/
theorem runs_link {next} (silent : ∀ id, id ∉ orig.order → machine.arrive id = [])
    (mem : id ∈ orig.order) {state after : S} {side : Bool}
    (ends : machine.Ends (orig.segment id).tail state side shown after)
    (link : (orig.segment id).link side = some next) :
    Runs (g.Step machine) (.running id (g.segment id).tail state) shown (.entering next after) := by
  rw [subdivides.tail_eq mem]
  by_cases same : (g.segment id).link side = (orig.segment id).link side
  · exact .single (.follow ends (same.trans link))
  · cases side with
    | true => exact absurd (subdivides.taken_eq mem) same
    | false =>
      rcases subdivides.notTaken_eq mem with equal | ⟨edge, target, before, now, unlisted, isEdge⟩
      · exact absurd equal same
      · rw [before, Option.some.injEq] at link
        subst link
        have run := (Runs.single (Graph.Step.follow ends now)).trans
          (isEdge.runs (silent edge unlisted) after)
        rwa [append_nil] at run

section

variable (numbered : orig.Numbered) (silent : ∀ id, id ∉ orig.order → machine.arrive id = [])
  (exit_eq : ∀ id ∈ orig.order, machine.exit (g.segment id) = machine.exit (orig.segment id))

include numbered silent exit_eq

theorem mirrors_original :
    Mirrors orig machine g machine
      fun id state id' state' => id ∈ orig.order ∧ id' = id ∧ state' = state := by
  have reach {id} (mem : id ∈ orig.order) state : Runs (g.Step machine) (.entering id state)
        (machine.arrive id ++ (machine.run (orig.segment id).body state).2)
        (.running id (g.segment id).tail (machine.run (orig.segment id).body state).1) := by
    have run : Runs (g.Step machine) _ _ _ := runs_segment id state
    rwa [subdivides.body_eq mem] at run
  constructor
  · rintro id state _ _ ⟨mem, rfl, rfl⟩
    exact .of_runs (reach mem _) (prefix_refl _)
  · rintro id state _ _ side shown after ⟨mem, rfl, rfl⟩ ends link
    rw [← subdivides.tail_eq mem] at ends ⊢
    rw [← exit_eq _ mem]
    exact .of_leave (reach mem _) ends ((subdivides.link_eq_none_iff mem side).mpr link)
  · rintro id state _ _ side shown next after ⟨mem, rfl, rfl⟩ ends link
    exact ⟨next, after, ⟨numbered.link_mem mem link, rfl, rfl⟩,
      (reach mem _).trans (subdivides.runs_link silent mem ends link)⟩

theorem mirrors_subdivided :
    Mirrors g machine orig machine fun id state id' state' => state' = state ∧ id' ∈ orig.order ∧
        (id = id' ∨ id ∉ orig.order ∧ g.IsEdge id id') := by
  have reach {id} (mem : id ∈ orig.order) state : Runs (orig.Step machine) (.entering id state)
        (machine.arrive id ++ (machine.run (g.segment id).body state).2)
        (.running id (g.segment id).tail (machine.run (g.segment id).body state).1) := by
    have run : Runs (orig.Step machine) _ _ _ := runs_segment id state
    rwa [← subdivides.body_eq mem, ← subdivides.tail_eq mem] at run
  have edgeCode {id next} (isEdge : g.IsEdge id next) :
      (g.segment id).body = [] ∧ (g.segment id).tail = [] := by
    have empty : (g.segment id).instructions = [] :=
      congrArg instructions isEdge.content_eq
    rw [Segment.body, Segment.tail, empty]
    exact ⟨rfl, rfl⟩
  constructor
  · rintro id state id' _ ⟨rfl, mem, rfl | ⟨unlisted, isEdge⟩⟩
    · exact .of_runs (reach mem _) (prefix_refl _)
    · rw [silent id unlisted, (edgeCode isEdge).1]
      exact .of_runs (.refl _) (prefix_refl _)
  · rintro id state id' _ side shown after ⟨rfl, mem, rfl | ⟨unlisted, isEdge⟩⟩ ends link
    · rw [exit_eq _ mem]
      exact .of_leave (reach mem _) ends ((subdivides.link_eq_none_iff mem side).mp link)
    · rw [(edgeCode isEdge).2] at ends
      cases ends
      rw [isEdge.notTaken_eq] at link
      cases link
  · rintro id state id' _ side shown next after ⟨rfl, mem, rfl | ⟨unlisted, isEdge⟩⟩ ends link
    · cases before : (orig.segment id).link side with
      | none =>
        rw [← subdivides.link_eq_none_iff mem, link] at before
        cases before
      | some target =>
        refine ⟨target, after, ⟨rfl, numbered.link_mem mem before, ?_⟩,
          (reach mem _).trans (.single (.follow ends before))⟩
        cases side with
        | true =>
          rw [subdivides.taken_eq mem, before, Option.some.injEq] at link
          exact .inl link.symm
        | false =>
          rcases subdivides.notTaken_eq mem with
            same | ⟨edge, other, originally, now, unlisted, isEdge⟩
          · rw [same, before, Option.some.injEq] at link
            exact .inl link.symm
          · cases now.symm.trans link
            cases before.symm.trans originally
            exact .inr ⟨unlisted, isEdge⟩
    · obtain ⟨body, tail⟩ := edgeCode isEdge
      rw [tail, body] at ends
      cases ends
      cases isEdge.notTaken_eq.symm.trans link
      rw [silent id unlisted, body]
      exact ⟨id', _, ⟨rfl, mem, .inl rfl⟩, .refl _⟩

theorem observes_iff (mem : id ∈ orig.order) (state : S) (shown : List O) :
    Observes (orig.Step machine) (.entering id state) shown ↔
      Observes (g.Step machine) (.entering id state) shown :=
  ⟨(subdivides.mirrors_original numbered silent exit_eq).observes ⟨mem, rfl, rfl⟩,
    (subdivides.mirrors_subdivided numbered silent exit_eq).observes ⟨rfl, mem, .inl rfl⟩⟩

end

end Graph.Subdivides
end Dynarec
