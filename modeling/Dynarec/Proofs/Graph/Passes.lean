import Dynarec.Proofs.Graph.Edge
import Dynarec.Proofs.Graph.Layout

/-!
# The passes one after another

What holds of a graph after all passes is shown pass by pass: it holds before
loops are guarded, one guard keeps it, one trampoline keeps it, and numbering
segments and loops anew does not matter.
-/

namespace Dynarec.Graph

open List

variable {g : Graph}

/-- The segments whose jumps close loops. -/
def loops (g : Graph) : List SegmentId :=
  g.order.filter fun id => (g.segment id).needsCycleCheck

/-- What every guard keeps holds after all loops were guarded. -/
theorem guardLoops_induction {motive : Graph → List (SegmentId × Nat) → Prop}
    (tied : g.Tied) (initial : motive g g.loops.zipIdx)
    (step : ∀ {before id number rest after}, before.Numbered → id ∈ before.order →
      before.LoopGuarded id (syntheticBase + UInt32.ofNat number) after →
      motive before ((id, number) :: rest) → motive after rest) :
    ∃ guarded : Graph, guarded.Numbered ∧ motive guarded [] ∧ guarded.Alike g.guardLoops := by
  have each pending g (tied : g.Tied)
      (members : ∀ loop ∈ pending, loop.1 ∈ g.order) (holds : motive g pending) :
      ∃ guarded, pending.foldl (fun g loop => g.guardLoop loop.1 loop.2) g = guarded ∧
        guarded.Tied ∧ motive guarded [] := by
    induction pending generalizing g with
    | nil => exact ⟨g, rfl, tied, holds⟩
    | cons first rest ih =>
      obtain ⟨id, number⟩ := first
      obtain ⟨mem, members⟩ := forall_mem_cons.mp members
      have guarded := loopGuarded_guardLoop tied mem number
      rw [foldl_cons]
      generalize g.guardLoop id number = after at guarded ⊢
      exact ih after guarded.toTied
        (fun loop listed => guarded.mem_order_iff.mpr (.inl (members loop listed)))
        (step tied.numbered mem guarded holds)
  obtain ⟨guarded, guarded_eq, guardedTied, holds⟩ :=
    each g.loops.zipIdx g tied (fun loop listed => by
      have known := mem_map_of_mem (f := Prod.fst) listed
      rw [zipIdx_map_fst] at known
      exact mem_of_mem_filter known) initial
  refine ⟨guarded, guardedTied.numbered, holds, ?_⟩
  have guardLoops_eq : g.guardLoops = guarded.renumber := by
    rw [← guarded_eq]
    rfl
  rw [guardLoops_eq]
  exact alike_renumber guardedTied

/-- What every trampoline keeps holds after all entries were isolated. -/
theorem isolateEntries_induction {motive : Graph → List SegmentId → Prop}
    (tied : g.Tied) (initial : motive g g.order)
    (skip : ∀ {before id rest}, before.Tied → id ∈ before.order →
      ((before.segment id).enterable → (before.segment id).prev = []) →
      motive before (id :: rest) → motive before rest)
    (step : ∀ {before id rest after}, before.Tied →
      id ∈ before.order → (before.segment id).enterable → (before.segment id).prev ≠ [] →
      before.EntryIsolated id after → motive before (id :: rest) → motive after rest) :
    g.isolateEntries.Tied ∧ motive g.isolateEntries [] := by
  have each pending g (tied : g.Tied)
      (members : ∀ id ∈ pending, id ∈ g.order) (holds : motive g pending) :
      (pending.foldl isolateEntry g).Tied ∧ motive (pending.foldl isolateEntry g) [] := by
    induction pending generalizing g with
    | nil => exact ⟨tied, holds⟩
    | cons first rest ih =>
      obtain ⟨mem, members⟩ := forall_mem_cons.mp members
      rw [foldl_cons]
      rcases isolateEntry_cases tied mem with ⟨unchanged, alone⟩ | ⟨enterable, reached, isolated⟩
      · rw [unchanged]
        exact ih g tied members (skip tied mem alone holds)
      · exact ih _ isolated.toTied
          (fun id listed => isolated.mem_order_iff.mpr (.inl (members id listed)))
          (step tied mem enterable reached isolated holds)
  exact each g.order g tied (fun _ mem => mem) initial

/-- What guards and trampolines keep holds after all of them if it does not depend on places. -/
theorem expansion_induction (guarding : Graph → List (SegmentId × Nat) → Prop)
    {motive : Graph → Prop} (tied : g.Tied) (initial : guarding g g.loops.zipIdx)
    (guard : ∀ {before id number rest after}, before.Numbered → id ∈ before.order →
      before.LoopGuarded id (syntheticBase + UInt32.ofNat number) after →
      guarding before ((id, number) :: rest) → guarding after rest)
    (guarded : ∀ {before : Graph}, guarding before [] → motive before)
    (isolate : ∀ {before : Graph} {id after}, before.Tied →
      id ∈ before.order → (before.segment id).enterable → (before.segment id).prev ≠ [] →
      before.EntryIsolated id after → motive before → motive after)
    (alike : ∀ {before after}, before.Numbered → before.Alike after →
      motive before → motive after) :
    g.guardLoops.isolateEntries.detectLoops.Tied ∧
      motive g.guardLoops.isolateEntries.detectLoops := by
  obtain ⟨middle, middleNumbered, done, restarted⟩ := guardLoops_induction tied initial guard
  obtain ⟨isolatedTied, isolated⟩ :=
    isolateEntries_induction (motive := fun g _ => motive g) restarted.toTied
      (alike middleNumbered restarted (guarded done)) (fun _ _ _ holds => holds) isolate
  have detected := alike_detectLoops isolatedTied
  exact ⟨detected.toTied, alike isolatedTied.numbered detected isolated⟩

theorem passes_eq (options : BuildOptions) (g : Graph) :
    g.passes options = (g.prepared options).guardLoops.isolateEntries.detectLoops := rfl

theorem Laid.prepared (laid : g.Laid start) (options : BuildOptions) :
    (g.prepared options).Laid start :=
  laid.of_layoutKept (.prepared laid.toTied (fun _ => laid.placed) options)

theorem of_build_eq_ok (built : build stream options = .ok g) :
    ∃ base, ofStream stream = .ok base ∧ g = base.passes options ∧ g.error? = none := by
  obtain ⟨base, made, built⟩ := of_bind_eq_ok built
  dsimp only at built
  split at built
  · cases built
  next valid =>
    cases built
    exact ⟨base, made, rfl, valid⟩

theorem tied_of_build (built : build stream options = .ok g) : g.Tied := by
  obtain ⟨base, made, rfl, -⟩ := of_build_eq_ok built
  have tied := tied_ofStream made
  have prepared : (base.prepared options).Tied := prepared_induction tied tied
    (fun _ _ _ folded _ => folded.toTied) (fun tied _ => (LayoutKept.countCycles tied).toTied)
    options
  obtain ⟨_, _, -, alike⟩ := guardLoops_induction (motive := fun _ _ => True) prepared trivial
    fun _ _ _ _ => trivial
  obtain ⟨isolated, -⟩ := isolateEntries_induction (motive := fun _ _ => True) alike.toTied trivial
    (fun _ _ _ _ => trivial) fun _ _ _ _ _ _ => trivial
  exact (alike_detectLoops isolated).toTied

end Dynarec.Graph
