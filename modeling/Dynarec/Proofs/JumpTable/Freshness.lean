import Dynarec.Proofs.JumpTable.Consistency

/-!
# Freshness of installed functions

A compilation remembers the epoch in which it was started.  Every invalidation
begins a new epoch, so a function is installed only if no range was invalidated
since its compilation began.  A reset begins no epoch: what holds it back is that
the address must have been visited since.
-/

namespace Dynarec.JumpTable.Traffic

open Compiler List

/-- Times that agree with epochs and entrances. -/
structure Dated (traffic : Traffic) : Prop where
  /-- Nothing happened later than now. -/
  reset_le : traffic.reset ≤ traffic.time
  /-- No compilation was started in a later epoch, or later than now. -/
  running_le : ∀ attempt ∈ traffic.running,
    attempt.epoch ≤ traffic.table.epoch ∧ attempt.begun ≤ traffic.time
  /-- A compilation of this epoch was started behind the last invalidation. -/
  invalidated_lt : ∀ attempt ∈ traffic.running, attempt.epoch = traffic.table.epoch →
    traffic.invalidated < attempt.begun
  invalidated_le : traffic.invalidated ≤ traffic.time
  reset_lt : ∀ addr, traffic.table.entrance addr = .visited → traffic.reset < traffic.visits addr

namespace Dated

variable {traffic : Traffic} (dated : traffic.Dated)

include dated

/-- What keeps the epoch, begins no compilation and makes no address wait. -/
theorem of_quiet {after : Traffic} (epoch_eq : after.table.epoch = traffic.table.epoch)
    (running : after.running ⊆ traffic.running)
    (waits : ∀ {addr}, after.table.entrance addr = .visited →
      traffic.table.entrance addr = .visited) (time_le : traffic.time ≤ after.time)
    (invalidated_eq : after.invalidated = traffic.invalidated)
    (reset_eq : after.reset = traffic.reset) (visits_eq : after.visits = traffic.visits) :
    after.Dated where
  reset_le := reset_eq ▸ Nat.le_trans dated.reset_le time_le
  running_le := fun attempt listed => by
    obtain ⟨epoch_le, begun_le⟩ := dated.running_le attempt (running listed)
    exact ⟨epoch_eq ▸ epoch_le, Nat.le_trans begun_le time_le⟩
  invalidated_lt := fun attempt listed same => by
    rw [invalidated_eq]
    exact dated.invalidated_lt attempt (running listed) (same.trans epoch_eq)
  invalidated_le := invalidated_eq ▸ Nat.le_trans dated.invalidated_le time_le
  reset_lt := fun addr visited => by
    rw [reset_eq, visits_eq]
    exact dated.reset_lt addr (waits visited)

theorem step {after : Traffic} (formed : traffic.table.IsFormed) (step : Step traffic after) :
    after.Dated := by
  have later := Nat.le_succ traffic.time
  cases step with
  | visit addr =>
    refine ⟨Nat.le_trans dated.reset_le later, fun attempt listed => ?_,
      fun attempt listed same => ?_, Nat.le_trans dated.invalidated_le later,
      fun other visited => ?_⟩
    · obtain ⟨epoch_le, begun_le⟩ := dated.running_le attempt listed
      exact ⟨(epoch_visit traffic.table addr).symm ▸ epoch_le, Nat.le_trans begun_le later⟩
    · exact dated.invalidated_lt attempt listed (same.trans (epoch_visit traffic.table addr))
    · dsimp only [visit] at visited ⊢
      rw [entrance_visit formed] at visited
      split
      · exact Nat.lt_succ_of_le dated.reset_le
      next elsewhere =>
        rw [if_neg elsewhere] at visited
        exact dated.reset_lt other visited
  | take => exact dated.of_quiet rfl (List.Subset.refl _) (fun waits => waits) later rfl rfl rfl
  | @start addr listed =>
    refine ⟨Nat.le_trans dated.reset_le later, ?_, ?_, Nat.le_trans dated.invalidated_le later,
      dated.reset_lt⟩
    · refine forall_mem_cons.mpr ⟨⟨Nat.le_refl _, Nat.le_refl _⟩, fun attempt listed => ?_⟩
      obtain ⟨epoch_le, begun_le⟩ := dated.running_le attempt listed
      exact ⟨epoch_le, Nat.le_trans begun_le later⟩
    · refine forall_mem_cons.mpr ⟨fun _ => ?_, dated.invalidated_lt⟩
      exact Nat.lt_succ_of_le dated.invalidated_le
  | @finish attempt listed config store memory =>
    refine dated.of_quiet (epoch_finish ..) (erase_subset ..) (fun waits => ?_) later rfl
      rfl rfl
    rcases entrance_finish_cases formed attempt.epoch _ _ with same | closed | ⟨closed, -⟩ |
      ⟨function, -, compiled, -⟩
    · exact same.symm.trans waits
    · cases closed.symm.trans waits
    · cases closed.symm.trans waits
    · cases compiled.symm.trans waits
  | requeue =>
    exact dated.of_quiet rfl (List.Subset.refl _) (fun waits => waits) later rfl rfl rfl
  | invalidate range =>
    refine ⟨Nat.le_trans dated.reset_le later, fun attempt listed => ?_,
      fun attempt listed same => ?_, Nat.le_refl _, fun addr visited => ?_⟩
    · obtain ⟨epoch_le, begun_le⟩ := dated.running_le attempt listed
      exact ⟨Nat.le_succ_of_le epoch_le, Nat.le_trans begun_le later⟩
    · have epoch_le := (dated.running_le attempt listed).1
      exact absurd same (Nat.ne_of_lt (Nat.lt_succ_of_le epoch_le))
    · obtain ⟨place, -, entrance_eq⟩ := entrance_invalidate traffic.table range addr
      exact dated.reset_lt addr (afterDrop_eq_visited_iff.mp (entrance_eq.symm.trans visited))
  | forget =>
    refine ⟨Nat.le_refl _, fun attempt listed => ?_, dated.invalidated_lt,
      Nat.le_trans dated.invalidated_le later, fun addr visited => ?_⟩
    · obtain ⟨epoch_le, begun_le⟩ := dated.running_le attempt listed
      exact ⟨epoch_le, Nat.le_trans begun_le later⟩
    · cases (entrance_reset traffic.table addr).symm.trans visited
  | enable => exact dated.of_quiet rfl (List.Subset.refl _) (fun waits => waits) later rfl rfl rfl

end Dated

theorem Reachable.dated (reachable : Reachable region mode traffic) : traffic.Dated := by
  induction reachable with
  | initial =>
    refine ⟨Nat.le_refl _, nofun, nofun, Nat.le_refl _, fun addr visited => ?_⟩
    cases (entrance_ofRegion region mode addr).symm.trans visited
  | step reachable step ih => exact ih.step reachable.consistent.formed step

/-- A function that can be entered could be so before, or its compilation ends with this step: its
address waited, and no epoch began since its start. -/
theorem Step.compiled_cases {traffic after} (formed : traffic.table.IsFormed)
    (step : Step traffic after) (compiled : after.table.entrance addr = .compiled function) :
    traffic.table.entrance addr = .compiled function ∨
      ∃ attempt ∈ traffic.running, after.running = traffic.running.erase attempt ∧
        (∃ config store memory, contain
          (compile config store memory { entry := attempt.address }).result = .ok function) ∧
        traffic.table.entrance attempt.address = .visited ∧ attempt.epoch = traffic.table.epoch := by
  cases step with
  | visit visited =>
    dsimp only [Traffic.visit] at compiled
    rw [entrance_visit formed] at compiled
    split at compiled
    · cases compiled
    · exact .inl compiled
  | take => exact .inl compiled
  | start => exact .inl compiled
  | @finish attempt listed config store memory =>
    rcases entrance_finish_cases formed attempt.epoch _ _ with same | closed | ⟨closed, -⟩ |
      ⟨installed, done, found, visited, epoch_eq⟩
    · exact .inl (same.symm.trans compiled)
    · cases closed.symm.trans compiled
    · cases closed.symm.trans compiled
    · cases found.symm.trans compiled
      exact .inr ⟨attempt, listed, rfl, ⟨config, store, memory, done⟩, visited, epoch_eq⟩
  | requeue => exact .inl compiled
  | invalidate range =>
    obtain ⟨place, -, entrance_eq⟩ := entrance_invalidate traffic.table range addr
    exact .inl (afterDrop_eq_compiled_iff.mp (entrance_eq.symm.trans compiled)).1
  | forget => cases (entrance_reset traffic.table addr).symm.trans compiled
  | enable => exact .inl compiled

/-- Whatever visits, compilations, invalidations and resets did and in whichever order: a function
that can be entered from now on was compiled by an attempt that ends now, was started behind the
last invalidation, and was started behind the last reset as well unless its address was visited
again behind both. -/
theorem installed_behind_invalidation
    {region : AddressRange}
    {mode : ExecutionMode}
    {traffic after : Traffic}
    (reachable : Reachable region mode traffic)
    (step : Step traffic after)
    {address : Address}
    {function : CompiledFunction}
    (found : after.table.entrance address = .compiled function)
    (new : traffic.table.entrance address ≠ .compiled function) :
    ∃ attempt ∈ traffic.running, after.running = traffic.running.erase attempt ∧
      (∃ config store memory, Compiler.contain
        (Compiler.compile config store memory { entry := attempt.address }).result =
          .ok function) ∧
      traffic.invalidated < attempt.begun ∧
      (traffic.reset < attempt.begun ∨
        traffic.reset < traffic.visits attempt.address ∧
          attempt.begun < traffic.visits attempt.address) := by
  have dated := reachable.dated
  obtain ⟨attempt, listed, ended, compiled, visited, epoch_eq⟩ :=
    (step.compiled_cases reachable.consistent.formed found).resolve_left new
  have revisited := dated.reset_lt attempt.address visited
  refine ⟨attempt, listed, ended, compiled, dated.invalidated_lt attempt listed epoch_eq, ?_⟩
  by_cases again : attempt.begun < traffic.visits attempt.address
  · exact .inr ⟨revisited, again⟩
  · exact .inl (Nat.lt_of_lt_of_le revisited (Nat.not_lt.mp again))

/-- The address of the return was visited and its compilation started; then everything was
forgotten, and the address was visited again. -/
def revisited : Traffic :=
  compiling.forget.visit 0x1000

theorem reachable_revisited : Reachable ⟨0x1000, 8⟩ .recompiler revisited :=
  .step (.step reachable_compiling (.forget _)) (.visit _ 0x1000)

theorem revisited_waits : revisited.table.entrance 0x1000 = .visited := by
  have formed : compiling.table.reset.IsFormed :=
    (reachable_compiling.step (.forget _)).consistent.formed
  have inside : (compiling.table.reset.index? 0x1000).isSome := by
    have same : compiling.table.reset.index? 0x1000 = compiling.table.index? 0x1000 :=
      index?_congr rfl (by simp [JumpTable.reset])
    rw [same]
    decide
  have can : compiling.table.reset.canVisit 0x1000 := by
    rw [canVisit, Bool.and_eq_true, hasState_unvisited_iff formed]
    exact ⟨rfl, inside, entrance_reset compiling.table 0x1000⟩
  exact (entrance_visit formed).trans (if_pos ⟨can, rfl⟩)

theorem exists_finish_revisited :
    ∃ function, Step revisited (revisited.finish ⟨0x1000, 0, 3⟩ (.ok function)) ∧
      (revisited.finish ⟨0x1000, 0, 3⟩ (.ok function)).table.lookup 0x1000 = some function := by
  obtain ⟨function, compiled, -⟩ := exists_compile_loneReturn
  have epoch : revisited.table.epoch = 0 := epoch_visit ..
  have enabled : revisited.table.enabled := by
    obtain ⟨entrances, shape⟩ := visit_shape (JumpTable.reset _) 0x1000
    exact (congrArg JumpTable.enabled shape).trans rfl
  have installed := entrance_finish_of_visited reachable_revisited.consistent.formed
    revisited_waits function
  obtain ⟨entrances, functions, failures, shape⟩ :=
    revisited.table.finish_shape 0x1000 revisited.table.epoch (.ok function)
  have kept := (congrArg JumpTable.enabled shape).trans enabled
  rw [epoch] at installed kept
  refine ⟨function, ?_, ?_⟩
  · rw [← compiled]
    exact .finish revisited (by decide) {} none loneReturn
  · dsimp only [finish, settle]
    rw [lookup, kept, installed]
    rfl

/-- A compilation that was started before a reset may install its function behind it. -/
theorem stale_behind_reset :
    Reachable ⟨0x1000, 8⟩ .recompiler revisited ∧
      ∃ attempt ∈ revisited.running, attempt.begun < revisited.reset ∧
        revisited.table.lookup attempt.address = none ∧
        ∃ function, Step revisited (revisited.finish attempt (.ok function)) ∧
          (revisited.finish attempt (.ok function)).table.lookup attempt.address =
            some function := by
  obtain ⟨function, step, found⟩ := exists_finish_revisited
  refine ⟨reachable_revisited, ⟨0x1000, 0, 3⟩, by decide, by decide, ?_, function, step, found⟩
  rw [lookup, revisited_waits]
  split <;> rfl

theorem revisited_behind_invalidation :
    Reachable ⟨0x1000, 8⟩ .recompiler revisited ∧
      ∃ attempt ∈ revisited.running, revisited.invalidated < attempt.begun ∧
        revisited.reset < revisited.visits attempt.address := by
  obtain ⟨function, step, found⟩ := exists_finish_revisited
  obtain ⟨attempt, listed, -, -, behind, late | ⟨again, -⟩⟩ :=
    installed_behind_invalidation reachable_revisited step (entrance_of_lookup found)
      (by rw [revisited_waits]; simp)
  · obtain rfl : attempt = ⟨0x1000, 0, 3⟩ := List.mem_singleton.mp listed
    exact absurd late (by decide)
  · exact ⟨reachable_revisited, attempt, listed, behind, again⟩

end Dynarec.JumpTable.Traffic
