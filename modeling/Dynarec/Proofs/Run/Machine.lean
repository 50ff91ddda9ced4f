import Dynarec.Allocation.Window
import Dynarec.Proofs.Graph.Links
import Mathlib.Data.List.TakeWhile

/-!
# Runs of a graph

A transition relation shows a list of observations at each of its steps.  Two
systems are compared by what their runs show, up to observations that one of
them still has to catch up with.

A graph is run by a machine that says what single instructions do: a run enters
a segment, performs the instructions before its end, and follows the link that
the instruction at the end decides for.
-/

namespace Dynarec

open List Segment

section

variable {C D O : Type} {step : C → List O → C → Prop}

/-- A run of any length and all that it shows. -/
inductive Runs (step : C → List O → C → Prop) : C → List O → C → Prop
  | refl (place : C) : Runs step place [] place
  | head {first second last : C} {shown rest : List O} (one : step first shown second)
      (more : Runs step second rest last) : Runs step first (shown ++ rest) last

namespace Runs

theorem single (one : step first shown second) : Runs step first shown second := by
  have run := head one (refl second)
  rwa [append_nil] at run

theorem trans (run : Runs step first shown second) (more : Runs step second rest last) :
    Runs step first (shown ++ rest) last := by
  induction run with
  | refl => exact more
  | head one _ ih =>
    rw [append_assoc]
    exact head one (ih more)

end Runs

/-- Some run from a place begins by showing the given observations. -/
def Observes (step : C → List O → C → Prop) (place : C) (shown : List O) : Prop :=
  ∃ total last, Runs step place total last ∧ shown <+: total

namespace Observes

theorem of_runs (run : Runs step first total last) (beginning : shown <+: total) :
    Observes step first shown :=
  ⟨total, last, run, beginning⟩

theorem behind (run : Runs step first shown second) (observes : Observes step second rest) :
    Observes step first (shown ++ rest) := by
  obtain ⟨total, last, more, beginning⟩ := observes
  exact ⟨shown ++ total, last, run.trans more, (prefix_append_right_inj shown).mpr beginning⟩

end Observes

/-- Whatever step one system takes, the other one runs along: it shows the same and stays
related. -/
structure Simulates (step : C → List O → C → Prop) (other : D → List O → D → Prop)
    (related : C → D → Prop) : Prop where
  step : ∀ {place follower shown next}, related place follower → step place shown next →
    ∃ nextFollower, Runs other follower shown nextFollower ∧ related next nextFollower

namespace Simulates

theorem runs (simulates : Simulates step other related) (relation : related place follower)
    (run : Runs step place shown last) :
    ∃ lastFollower, Runs other follower shown lastFollower ∧ related last lastFollower := by
  induction run generalizing follower with
  | refl => exact ⟨follower, .refl follower, relation⟩
  | head one _ ih =>
    obtain ⟨next, first, nextRelation⟩ := simulates.step relation one
    obtain ⟨final, rest, finalRelation⟩ := ih nextRelation
    exact ⟨final, first.trans rest, finalRelation⟩

theorem trans {B : Type} {third : B → List O → B → Prop} {further : D → B → Prop}
    (first : Simulates step other related) (second : Simulates other third further) :
    Simulates step third fun place last => ∃ middle, related place middle ∧ further middle last := by
  constructor
  rintro place last shown next ⟨middle, relation, furtherRelation⟩ one
  obtain ⟨nextMiddle, run, nextRelation⟩ := first.step relation one
  obtain ⟨nextLast, furtherRun, nextFurther⟩ := second.runs furtherRelation run
  exact ⟨nextLast, furtherRun, nextMiddle, nextRelation, nextFurther⟩

end Simulates

/-- One system follows another, lagging behind by observations that it can show. -/
structure Follows (step : C → List O → C → Prop) (other : D → List O → D → Prop)
    (lags : List O → C → D → Prop) : Prop where
  shows : ∀ {pending place follower}, lags pending place follower → Observes other follower pending
  step : ∀ {pending place follower shown next}, lags pending place follower →
    step place shown next → ∃ caught left nextFollower, pending ++ shown = caught ++ left ∧
      Runs other follower caught nextFollower ∧ lags left next nextFollower

theorem Follows.observes (follows : Follows step other lags)
    (together : lags [] place follower) (observes : Observes step place shown) :
    Observes other follower shown := by
  obtain ⟨total, last, run, beginning⟩ := observes
  suffices caught : ∀ pending follower, lags pending place follower →
      Observes other follower (pending ++ total) by
    obtain ⟨all, final, followed, longer⟩ := caught [] follower together
    exact ⟨all, final, followed, beginning.trans longer⟩
  clear together beginning follower
  induction run with
  | refl place =>
    intro pending follower lagging
    rw [append_nil]
    exact follows.shows lagging
  | head one _ ih =>
    intro pending follower lagging
    obtain ⟨caught, left, next, equal, run, still⟩ := follows.step lagging one
    rw [← append_assoc, equal, append_assoc]
    exact .behind run (ih left next still)

end

/-- What single instructions do to a state, and what of it is shown. -/
structure Machine (S O : Type) where
  /-- An instruction before the end of a segment. -/
  perform : Instruction Register → S → S × List O
  decides : Instruction Register → S → Bool → List O → S → Prop
  arrive : SegmentId → List O
  /-- What is shown where control leaves the graph, at the rest of the code of a segment. -/
  exit : Segment → Code → S → List O

/-- The end of a segment: the side of the link that is followed. -/
inductive Machine.Ends {S O : Type} (machine : Machine S O) : Code → S → Bool → List O → S → Prop
  | fall (state : S) : machine.Ends [] state false [] state
  | decide {instr : Instruction Register} {state after : S} {side : Bool} {shown : List O}
      (rest : Code) (final : instr.isSuffix)
      (decides : machine.decides instr state side shown after) :
      machine.Ends (instr :: rest) state side shown after

inductive Standing (S : Type) where
  | entering (seg : SegmentId) (state : S)
  | running (seg : SegmentId) (rest : Code) (state : S)
  | outside

inductive Graph.Step {S O : Type} (g : Graph) (machine : Machine S O) :
    Standing S → List O → Standing S → Prop
  | arrive (id : SegmentId) (state : S) : g.Step machine (.entering id state) (machine.arrive id)
        (.running id (g.segment id).instructions state)
  | perform (id : SegmentId) {instr : Instruction Register} (rest : Code) (state : S)
      (inside : instr.isSuffix = false) : g.Step machine (.running id (instr :: rest) state)
        (machine.perform instr state).2 (.running id rest (machine.perform instr state).1)
  | follow {id next : SegmentId} {rest : Code} {state after : S} {side : Bool} {shown : List O}
      (ends : machine.Ends rest state side shown after)
      (link : (g.segment id).link side = some next) :
      g.Step machine (.running id rest state) shown (.entering next after)
  | leave {id : SegmentId} {rest : Code} {state after : S} {side : Bool} {shown : List O}
      (ends : machine.Ends rest state side shown after) (link : (g.segment id).link side = none) :
      g.Step machine (.running id rest state)
        (shown ++ machine.exit (g.segment id) rest after) .outside

namespace Machine

variable {S O : Type} (machine : Machine S O)

/-- The state behind instructions none of which ends a segment, and all that they show. -/
def run : Code → S → S × List O
  | [], state => (state, [])
  | instr :: rest, state =>
      let (state, shown) := machine.perform instr state
      let (state, more) := run rest state
      (state, shown ++ more)

@[simp] theorem run_nil (state : S) : machine.run [] state = (state, []) := rfl

@[simp] theorem run_cons (instr : Instruction Register) (rest : Code) (state : S) :
    machine.run (instr :: rest) state = ((machine.run rest (machine.perform instr state).1).1,
        (machine.perform instr state).2 ++
          (machine.run rest (machine.perform instr state).1).2) := rfl

theorem run_append (code rest : Code) (state : S) :
    machine.run (code ++ rest) state = ((machine.run rest (machine.run code state).1).1,
        (machine.run code state).2 ++ (machine.run rest (machine.run code state).1).2) := by
  induction code generalizing state with
  | nil => rfl
  | cons instr code ih =>
    rw [cons_append, run_cons, ih, run_cons, append_assoc]

end Machine

namespace Segment

variable {seg : Segment}

/-- The instructions from the one on that ends the segment. -/
def tail (seg : Segment) : Code :=
  seg.instructions.dropWhile (!·.isSuffix)

theorem body_append_tail (seg : Segment) : seg.body ++ seg.tail = seg.instructions :=
  takeWhile_append_dropWhile

theorem isSuffix_of_mem_body (mem : instr ∈ seg.body) : instr.isSuffix = false := by
  have inside := mem_takeWhile_imp mem
  simpa using inside

theorem isSuffix_of_tail (equal : seg.tail = instr :: rest) : instr.isSuffix = true := by
  have head := head?_dropWhile_not (fun instr : Instruction Register =>
    !instr.isSuffix) seg.instructions
  rw [tail] at equal
  rw [equal] at head
  simpa using head

theorem body_eq_and_tail_eq (equal : seg.instructions = code ++ ending)
    (inside : ∀ instr ∈ code, instr.isSuffix = false)
    (ends : ∀ instr ∈ ending.head?, instr.isSuffix) : seg.body = code ∧ seg.tail = ending := by
  have all : ∀ instr ∈ code, (!instr.isSuffix) = true := fun instr mem => by
    rw [inside instr mem]
    rfl
  rw [body, tail, equal, takeWhile_append_of_pos all, dropWhile_append_of_pos all]
  cases ending with
  | nil => exact ⟨append_nil code, rfl⟩
  | cons instr rest =>
    have final : instr.isSuffix := ends instr rfl
    simp [final]

end Segment

section

variable {S T O : Type} {g : Graph} {id : SegmentId}

theorem runs_body (id : SegmentId) (inside : ∀ instr ∈ code, instr.isSuffix = false) (rest : Code)
    (state : S) :
    Runs (g.Step machine) (.running id (code ++ rest) state) (machine.run code state).2
      (.running id rest (machine.run code state).1) := by
  induction code generalizing state with
  | nil => exact .refl _
  | cons instr code ih =>
    obtain ⟨first, others⟩ := forall_mem_cons.mp inside
    exact .head (.perform id (code ++ rest) state first) (ih others _)

theorem runs_segment (id : SegmentId) (state : S) :
    Runs (g.Step machine) (.entering id state)
      (machine.arrive id ++ (machine.run (g.segment id).body state).2)
      (.running id (g.segment id).tail (machine.run (g.segment id).body state).1) := by
  refine .head (.arrive id state) ?_
  have run : Runs (g.Step machine)
      (.running id ((g.segment id).body ++ (g.segment id).tail) state) _ _ :=
    runs_body id (fun _ => isSuffix_of_mem_body) (g.segment id).tail state
  rwa [body_append_tail] at run

theorem Observes.of_leave {after} (run : Runs (g.Step machine) start shown (.running id rest state))
    (ends : machine.Ends rest state side more after) (link : (g.segment id).link side = none) :
    Observes (g.Step machine) start (shown ++ (more ++ machine.exit (g.segment id) rest after)) :=
  .of_runs (run.trans (.single (.leave ends link))) (prefix_refl _)

/-- Segment by segment, a graph shows what related segments of another one show, and its links
lead to related segments. -/
structure Mirrors (g : Graph) (machine : Machine S O) (other : Graph) (follower : Machine T O)
    (related : SegmentId → S → SegmentId → T → Prop) : Prop where
  /-- What a segment shows up to its end. -/
  body : ∀ {id state id' state'}, related id state id' state' →
    Observes (other.Step follower) (.entering id' state')
      (machine.arrive id ++ (machine.run (g.segment id).body state).2)
  leaves : ∀ {id state id' state' side shown after}, related id state id' state' →
    machine.Ends (g.segment id).tail (machine.run (g.segment id).body state).1 side shown
      after → (g.segment id).link side = none →
    Observes (other.Step follower) (.entering id' state')
      (machine.arrive id ++ (machine.run (g.segment id).body state).2 ++
        (shown ++ machine.exit (g.segment id) (g.segment id).tail after))
  links : ∀ {id state id' state' side shown next after}, related id state id' state' →
    machine.Ends (g.segment id).tail (machine.run (g.segment id).body state).1 side shown
      after → (g.segment id).link side = some next →
    ∃ next' after', related next after next' after' ∧
      Runs (other.Step follower) (.entering id' state')
        (machine.arrive id ++ (machine.run (g.segment id).body state).2 ++ shown)
        (.entering next' after')

/-- A follower that waits in front of a segment for the one that it follows to reach its end. -/
inductive Mirrors.Lags (g : Graph) (machine : Machine S O) (other : Graph)
    (follower : Machine T O) (related : SegmentId → S → SegmentId → T → Prop) :
    List O → Standing S → Standing T → Prop
  | entering {id id' : SegmentId} {state : S} {state' : T}
      (relation : related id state id' state') :
      Lags g machine other follower related [] (.entering id state) (.entering id' state')
  | running {id id' : SegmentId} {state : S} {state' : T} (done rest : Code)
      (relation : related id state id' state') (split : done ++ rest = (g.segment id).body) :
      Lags g machine other follower related (machine.arrive id ++ (machine.run done state).2)
        (.running id (rest ++ (g.segment id).tail) (machine.run done state).1)
        (.entering id' state')
  | outside {pending : List O} {place : Standing T}
      (shows : Observes (other.Step follower) place pending) :
      Lags g machine other follower related pending .outside place

theorem step_running_body {next} (inside : instr.isSuffix = false)
    (one : g.Step machine (.running id (instr :: rest) state) shown next) :
    shown = (machine.perform instr state).2 ∧
      next = .running id rest (machine.perform instr state).1 := by
  cases one with
  | perform => exact ⟨rfl, rfl⟩
  | follow ends =>
    cases ends with
    | decide _ final => rw [inside] at final; cases final
  | leave ends =>
    cases ends with
    | decide _ final => rw [inside] at final; cases final

theorem step_running_nil {next} (link : (g.segment id).link false = some target)
    (one : g.Step machine (.running id [] state) shown next) :
    shown = [] ∧ next = .entering target state := by
  cases one with
  | follow ends linked =>
    cases ends with
    | fall =>
      cases link.symm.trans linked
      exact ⟨rfl, rfl⟩
  | leave ends unlinked =>
    cases ends with
    | fall => cases link.symm.trans unlinked

theorem step_running_tail {next}
    (one : g.Step machine (.running id (g.segment id).tail state) shown next) :
    ∃ side shown' after, machine.Ends (g.segment id).tail state side shown' after ∧
      ((∃ target, (g.segment id).link side = some target ∧ shown = shown' ∧
          next = .entering target after) ∨
        ((g.segment id).link side = none ∧ next = .outside ∧
          shown = shown' ++ machine.exit (g.segment id) (g.segment id).tail after)) := by
  generalize equal : (g.segment id).tail = rest at one
  cases one with
  | perform _ _ _ inside =>
    rw [isSuffix_of_tail equal] at inside
    cases inside
  | follow ends link => exact ⟨_, _, _, ends, Or.inl ⟨_, link, rfl, rfl⟩⟩
  | leave ends link => exact ⟨_, _, _, ends, Or.inr ⟨link, rfl, rfl⟩⟩

theorem Mirrors.follows (mirrors : Mirrors g machine other follower related) :
    Follows (g.Step machine) (other.Step follower) (Lags g machine other follower related) := by
  constructor
  · intro pending place waiting lagging
    cases lagging with
    | entering => exact .of_runs (.refl _) nil_prefix
    | running done rest relation split =>
      obtain ⟨total, last, run, beginning⟩ := mirrors.body relation
      refine ⟨total, last, run, List.IsPrefix.trans ?_ beginning⟩
      rw [← split, Machine.run_append, prefix_append_right_inj]
      exact prefix_append _ _
    | outside shows => exact shows
  · intro pending place waiting shown next lagging one
    cases lagging with
    | @entering id _ _ _ relation =>
      cases one with
      | arrive =>
        refine ⟨[], _, _, rfl, .refl _, ?_⟩
        have front : Lags g machine other follower related _ _ _ :=
          .running [] (g.segment id).body relation rfl
        rwa [body_append_tail, Machine.run_nil, append_nil] at front
    | running done rest relation split =>
      cases rest with
      | cons instr rest =>
        have mem : instr ∈ (done ++ instr :: rest) := by simp
        rw [split] at mem
        obtain ⟨rfl, rfl⟩ := step_running_body (isSuffix_of_mem_body mem) one
        refine ⟨[], _, _, rfl, .refl _, ?_⟩
        have further : Lags g machine other follower related _ _ _ :=
          .running (done ++ [instr]) rest relation (by simpa using split)
        rw [Machine.run_append] at further
        simpa using further
      | nil =>
        rw [append_nil] at split
        subst split
        obtain ⟨side, shown', after, ends, ⟨target, link, rfl, rfl⟩ | ⟨link, rfl, rfl⟩⟩ :=
          step_running_tail one
        · obtain ⟨next', after', related, run⟩ := mirrors.links relation ends link
          exact ⟨_, [], _, (append_nil _).symm, run, .entering related⟩
        · exact ⟨[], _, _, rfl, .refl _, .outside (mirrors.leaves relation ends link)⟩
    | outside => cases one

theorem Mirrors.observes (mirrors : Mirrors g machine other follower related)
    (relation : related id state id' state')
    (observes : Observes (g.Step machine) (.entering id state) shown) :
    Observes (other.Step follower) (.entering id' state') shown :=
  mirrors.follows.observes (.entering relation) observes

end
end Dynarec
