import Dynarec.Proofs.JumpTable.Freshness

/-!
# Invalidations

Guest code that changed is invalidated by its range.  What is dropped are the
functions with a byte in the range, and the verdicts on addresses in the range.
A range without bytes may still lie inside a function, and a verdict is kept by
the address of its function only, not by the words that it was about.
-/

namespace Dynarec

open AddressRange Bool Compiler Guest.Tracker List UInt32

/-- Some guest byte of a function lies in a range. -/
def CompiledFunction.Touches (function : CompiledFunction) (range : AddressRange) : Prop :=
  ∃ own ∈ function.ranges, ∃ byte, own.contains byte ∧ range.contains byte

variable {function : CompiledFunction} {range : AddressRange}

theorem AddressRange.contains_iff : range.contains addr ↔ range.start.toNat ≤ addr.toNat ∧
      addr.toNat < range.start.toNat + range.size.toNat := by
  rw [contains, and_eq_true, decide_eq_true_eq, decide_eq_true_eq, le_iff_toNat_le]
  refine and_congr_right fun le => ?_
  rw [UInt32.lt_iff_toNat_lt, UInt32.toNat_sub_of_le _ _ (UInt32.le_iff_toNat_le.mpr le)]
  omega

theorem CompiledFunction.overlaps_iff (whole : ∀ own ∈ function.ranges, own.size ≠ 0)
    (nonempty : range.size ≠ 0) : function.overlaps range ↔ function.Touches range := by
  have pos {size : UInt32} (ne : size ≠ 0) : 0 < size.toNat :=
    Nat.pos_of_ne_zero fun zero => ne (UInt32.toNat_inj.mp zero)
  have some := pos nonempty
  rw [overlaps, any_eq_true]
  refine exists_congr fun own => and_congr_right fun mem => ?_
  have more := pos (whole own mem)
  simp only [and_eq_true, decide_eq_true_eq, contains_iff]
  constructor
  · rintro ⟨before, behind⟩
    -- The first byte they have in common is the first byte of one of them.
    rcases Nat.le_total own.start.toNat range.start.toNat with le | le
    · exact ⟨range.start, ⟨le, behind⟩, Nat.le_refl _, Nat.lt_add_of_pos_right some⟩
    · exact ⟨own.start, ⟨Nat.le_refl _, Nat.lt_add_of_pos_right more⟩, le, before⟩
  · rintro ⟨byte, own, other⟩
    omega

namespace JumpTable

theorem reaches_eq_contains : reaches range addr = range.contains addr := by
  rw [Bool.eq_iff_iff, contains_iff, reaches, Bool.and_eq_true, decide_eq_true_eq,
    decide_eq_true_eq, le_iff_toNat_le]

namespace Traffic

/-- In all that can be reached by a region that begins with a word, an invalidation with at least
one byte drops the functions with a byte in the range and counts them, forgets who could be entered
through them and which addresses of the range had failed, and changes nothing else. -/
theorem invalidation_is_exact
    (reachable : Reachable region mode traffic)
    (aligned : traffic.table.base &&& 3 = 0)
    (range : AddressRange)
    (nonempty : range.size ≠ 0) :
    let before := traffic.table
    let after := before.invalidate range
    let forgotten (address : Address) :=
      (∃ function, before.entrance address = .compiled function ∧ function.Touches range) ∨
        before.entrance address = .failed ∧ range.contains address = true
    (∀ entry function, (entry, function) ∈ after.functions ↔
      (entry, function) ∈ before.functions ∧ ¬function.Touches range) ∧
    (∃ dropped : List Address, dropped.Nodup ∧
      (∀ entry, entry ∈ dropped ↔
        ∃ function, (entry, function) ∈ before.functions ∧ function.Touches range) ∧
      after.invalidated = before.invalidated + dropped.length) ∧
    (∀ address, (forgotten address → after.entrance address = .unvisited) ∧
      (¬forgotten address → after.entrance address = before.entrance address)) ∧
    after = { before with
      functions := after.functions, entrances := after.entrances, epoch := before.epoch + 1,
      invalidated := after.invalidated } := by
  have consistent := reachable.consistent
  have touches {entry function} (listed : (entry, function) ∈ traffic.table.functions) :
      function.overlaps range = true ↔ function.Touches range :=
    CompiledFunction.overlaps_iff (consistent.keyed listed).2 nonempty
  have dropped {entry : Address} : entry ∈ traffic.table.overlapping range ↔
      ∃ function, (entry, function) ∈ traffic.table.functions ∧ function.Touches range :=
    mem_overlapping.trans (exists_congr fun _ => and_congr_right touches)
  refine ⟨fun entry function => ?_, ⟨traffic.table.overlapping range, ?_, fun _ => dropped, rfl⟩,
    fun address => ?_, rfl⟩
  · refine mem_functions_invalidate.trans (and_congr_right fun listed => ?_)
    rw [← touches listed, Bool.not_eq_true]
  · exact consistent.nodup.sublist (filter_sublist.map _)
  · obtain ⟨place, whole, entrance_eq⟩ := entrance_invalidate traffic.table range address
    obtain rfl := whole aligned
    rw [entrance_eq]
    have formed := consistent.formed place
    cases state : (traffic.table.entrance place).state with
    | unvisited => simp [formed.eq_mk state, afterDrop]
    | visited => simp [formed.eq_mk state, afterDrop]
    | failed => simp [formed.eq_mk state, afterDrop, reaches_eq_contains]
    | compiled =>
      -- Functions are dropped by their entry addresses, and these are their own.
      obtain ⟨function, function_eq⟩ := Option.isSome_iff_exists.mp (formed.mp state)
      have known : traffic.table.entrance place = .compiled function :=
        congrArg₂ Entrance.mk state function_eq
      have listed := (consistent.held known).1
      have owned : function.entry ∈ traffic.table.overlapping range ↔ function.Touches range := by
        refine dropped.trans ⟨?_, fun meets => ⟨_, listed, meets⟩⟩
        rintro ⟨other, kept, meets⟩
        cases (consistent.installed kept).symm.trans (consistent.installed listed)
        exact meets
      simp [afterDrop, owned, known]

/-- One byte of the return changed. -/
theorem return_is_dropped :
    ∃ function, (0x1000, function) ∈ (ended {} loneReturn).table.functions ∧
      (0x1000, function) ∉
        ((ended {} loneReturn).table.invalidate ⟨0x1002, 1⟩).functions := by
  obtain ⟨function, ranges_eq, -, kept⟩ := exists_installed
  obtain ⟨stays_iff, -⟩ := invalidation_is_exact (reachable_ended {} loneReturn)
    (by rw [(ended_shape ..).1]; decide) ⟨0x1002, 1⟩ (by decide)
  refine ⟨function, kept, fun stays => ((stays_iff _ _).mp stays).2 ?_⟩
  exact ⟨⟨0x1000, 4⟩, by simp [ranges_eq], 0x1002, by decide, by decide⟩

/-- No byte changed, and the return is dropped all the same. -/
theorem return_is_dropped_without_change :
    Reachable ⟨0x1000, 8⟩ .recompiler (ended {} loneReturn) ∧
      (ended {} loneReturn).table.base &&& 3 = 0 ∧
      ∃ function, (0x1000, function) ∈ (ended {} loneReturn).table.functions ∧
        ¬function.Touches ⟨0x1002, 0⟩ ∧
        (0x1000, function) ∉
          ((ended {} loneReturn).table.invalidate ⟨0x1002, 0⟩).functions := by
  obtain ⟨function, ranges_eq, -, kept⟩ := exists_installed
  refine ⟨reachable_ended .., by rw [(ended_shape ..).1]; decide, function, kept, ?_,
    fun stays => ?_⟩
  · rintro ⟨own, -, byte, -, inside⟩
    have bounds := AddressRange.contains_iff.mp inside
    exact absurd bounds.2 (Nat.not_lt.mpr bounds.1)
  · have apart := (mem_functions_invalidate.mp stays).2
    rw [CompiledFunction.overlaps, ranges_eq] at apart
    exact absurd apart (by decide)

/-! ## Verdicts -/

/-- An address has failed since its compilation with some memory ended. -/
inductive FailedBy (region : AddressRange) (mode : ExecutionMode) (entry : Address)
    (config : Compiler.Config) (store : Option VerdictStore) (memory : Memory) : Traffic → Prop
  | ended {traffic : Traffic} {attempt : Attempt} (reachable : Reachable region mode traffic)
      (listed : attempt ∈ traffic.running) (own : attempt.address = entry)
      (sound : traffic.table.entrance entry ≠ .failed) (failed : (traffic.finish attempt (contain
        (compile config store memory { entry }).result)).table.entrance entry = .failed) :
      FailedBy region mode entry config store memory
        (traffic.finish attempt (contain (compile config store memory { entry }).result))
  | kept {before after : Traffic} (since : FailedBy region mode entry config store memory before)
      (step : Step before after) (failed : after.table.entrance entry = .failed) :
      FailedBy region mode entry config store memory after

theorem FailedBy.failed {memory} (since : FailedBy region mode entry config store memory traffic) :
    traffic.table.entrance entry = .failed := by
  cases since with
  | ended _ _ _ _ failed => exact failed
  | kept _ _ failed => exact failed

theorem afterDrop_eq_failed_iff {entrance} :
    afterDrop dropped range addr entrance = .failed ↔
      entrance = .failed ∧ range.contains addr = false := by
  unfold afterDrop
  rw [reaches_eq_contains]
  split
  next gone =>
    refine ⟨nofun, ?_⟩
    rintro ⟨rfl, outside⟩
    simp [outside] at gone
  next stays =>
    refine ⟨?_, And.left⟩
    rintro rfl
    exact ⟨rfl, by simpa using stays⟩

theorem exists_failedBy (reachable : Reachable region mode traffic)
    (failed : traffic.table.entrance entry = .failed) :
    ∃ config store memory, FailedBy region mode entry config store memory traffic := by
  induction reachable with
  | initial => cases (entrance_ofRegion region mode entry).symm.trans failed
  | @step before after reachable step ih =>
    by_cases known : before.table.entrance entry = .failed
    · obtain ⟨config, store, memory, since⟩ := ih known
      exact ⟨config, store, memory, since.kept step failed⟩
    · cases step with
      | visit visited =>
        dsimp only [visit] at failed
        rw [entrance_visit reachable.consistent.formed] at failed
        split at failed
        · cases failed
        · exact absurd failed known
      | take => exact absurd failed known
      | start => exact absurd failed known
      | @finish attempt listed config store memory =>
        by_cases here : entry = attempt.address
        · subst here
          exact ⟨config, store, memory, .ended reachable listed rfl known failed⟩
        · have formed := reachable.consistent.formed
          rcases entrance_finish_cases formed attempt.epoch _ entry with same | closed |
            ⟨-, there⟩ | ⟨function, -, compiled, -⟩
          · exact absurd (same.symm.trans failed) known
          · cases closed.symm.trans failed
          · exact absurd there here
          · cases compiled.symm.trans failed
      | requeue => exact absurd failed known
      | invalidate range =>
        obtain ⟨place, -, entrance_eq⟩ := entrance_invalidate before.table range entry
        exact absurd (afterDrop_eq_failed_iff.mp (entrance_eq.symm.trans failed)).1 known
      | forget => cases (entrance_reset before.table entry).symm.trans failed
      | enable enabled => exact absurd failed known

/-- In all that can be reached by a region that begins with a word: whatever failed, a compilation
of it did; and if that compilation read a word of the function in a range, invalidating the range
forgets the verdict unless the function begins before the range.  An address whose verdict is
forgotten can be visited and compiled again. -/
theorem verdict_goes_unless_begun_before
    (reachable : Reachable region mode traffic)
    (aligned : traffic.table.base &&& 3 = 0) :
    (∀ entry, traffic.table.entrance entry = .failed →
      ∃ config store memory, FailedBy region mode entry config store memory traffic) ∧
    ∀ entry config store memory, FailedBy region mode entry config store memory traffic →
      ∀ (size : UInt32) (word : Address) (range : AddressRange),
        Compiler.reads config store memory { entry } word = true →
        AddressRange.contains ⟨entry, size⟩ word = true →
        range.contains word = true →
        let after := traffic.table.invalidate range
        (after.entrance entry = .failed ↔ entry < range.start) ∧
        (range.start ≤ entry → traffic.table.enabled = true →
          after.canVisit entry = true ∧
          ∀ function, ((after.visit entry).finish entry after.epoch (.ok function)).entrance entry =
            .compiled function) := by
  refine ⟨fun _ => exists_failedBy reachable, ?_⟩
  intro entry config store memory since size word range _ own changed
  have dropped := reachable.consistent.invalidate range
  have formed : (traffic.table.invalidate range).IsFormed := dropped.formed
  have failed := since.failed
  have inside := AddressRange.contains_iff.mp changed
  have behind : entry.toNat ≤ word.toNat := (AddressRange.contains_iff.mp own).1
  obtain ⟨place, whole, entrance_eq⟩ := entrance_invalidate traffic.table range entry
  obtain rfl := whole aligned
  have begun : range.contains place = false ↔ place < range.start := by
    rw [← Bool.not_eq_true, AddressRange.contains_iff, UInt32.lt_iff_toNat_lt]
    omega
  refine ⟨?_, fun late enabled => ?_⟩
  · rw [entrance_eq, afterDrop_eq_failed_iff, begun]
    exact and_iff_right failed
  · have covers : range.contains place = true := by
      rw [← Bool.not_eq_false, begun]
      exact UInt32.not_lt.mpr late
    have free : (traffic.table.invalidate range).entrance place = .unvisited := by
      rw [entrance_eq, failed]
      simp [afterDrop, reaches_eq_contains, covers]
    have known : ((traffic.table.invalidate range).index? place).isSome = true := by
      have same : (traffic.table.invalidate range).index? place = traffic.table.index? place :=
        index?_congr rfl (by simp [JumpTable.invalidate])
      rw [same, Option.isSome_iff_ne_none]
      intro outside
      cases (entrance_of_index?_eq_none outside).symm.trans failed
    have can : (traffic.table.invalidate range).canVisit place = true := by
      rw [canVisit, Bool.and_eq_true, hasState_unvisited_iff formed]
      exact ⟨enabled, known, free⟩
    refine ⟨can, fun function => ?_⟩
    have visited := (entrance_visit formed).trans (if_pos ⟨can, rfl⟩)
    rw [← epoch_visit _ place]
    exact entrance_finish_of_visited (dropped.visit place).formed visited function

/-- Two words, of which the second cannot be compiled. -/
def refusedLater : Memory where
  read addr :=
    if addr = 0x1000 then .word 0x38600001
    else if addr = 0x1004 then .word 0x44000002
    else .refused (.plain "no word")
  slice _ _ := .error (.plain "no bytes")

theorem track_refusedLater :
    track { memory := refusedLater, limit := ofInt 2 } 0x1000 = .ok ⟨0x1000, 8⟩ := by
  have walked : walk { memory := refusedLater, limit := ofInt 2 } ⟨0x1000, 8⟩ 8 [0x1000] ∅ =
        .ok (((∅ : Std.HashSet Address).insert 0x1000).insert 0x1004) := by cbv
  have budget : (effectiveLimit
      { memory := refusedLater, limit := ofInt 2 }).toNat * 4 = 8 := by decide
  have window : window { memory := refusedLater, limit := ofInt 2 } 0x1000 =
      ⟨0x1000, 8⟩ := by decide
  rw [track, budget, window, walked]
  simp [bind, Except.bind, Std.HashSet.size_insert, run]

theorem reads_refusedLater :
    reads { limit := 2 } none refusedLater { entry := 0x1000 } 0x1004 = true := by
  have crashed : track { memory := refusedLater.crashingAt 0x1004 watchMark, limit := ofInt 2 }
      0x1000 = .error (.crash watchMark) := by cbv
  have sound : refusedLater.crashesAt 0x1004 = false := rfl
  simp [reads, sound, plan, pipeline, Stream.generate, Stream.extent,
    crashed, bind, Except.bind, isWatched]

theorem failedBy_refusedLater :
    FailedBy ⟨0x1000, 8⟩ .recompiler 0x1000 { limit := 2 } none refusedLater
      (ended { limit := 2 } refusedLater) := by
  have refused : (pipeline { limit := 2 } refusedLater { entry := 0x1000 } 0).toBool = false := by
    have generated := generate_of_track (by decide) track_refusedLater
    unfold pipeline
    rw [generated]
    decide +kernel
  have fails : ∃ fault, contain (compile { limit := 2 } none refusedLater
      { entry := 0x1000 }).result = .error fault := by
    cases outcome : pipeline { limit := 2 } refusedLater { entry := 0x1000 } 0 with
    | ok function =>
      rw [outcome] at refused
      cases refused
    | error interruption =>
      cases interruption <;> simp [compile, plan, outcome, contain]
  obtain ⟨fault, fails⟩ := fails
  refine .ended reachable_compiling (by decide) rfl (by simp [compiling_waits]) ?_
  rw [fails]
  exact entrance_finish_of_error reachable_compiling.consistent.formed compiling_waits fault

/-- Both words changed. -/
theorem refusedLater_can_be_visited :
    ((ended { limit := 2 } refusedLater).table.invalidate ⟨0x1000, 8⟩).canVisit 0x1000 = true := by
  have shape := ended_shape { limit := 2 } refusedLater
  obtain ⟨-, verdicts⟩ := verdict_goes_unless_begun_before
    (reachable_ended { limit := 2 } refusedLater) (by rw [shape.1]; decide)
  exact ((verdicts _ _ _ _ failedBy_refusedLater 8 0x1004 ⟨0x1000, 8⟩ reads_refusedLater (by decide)
    (by decide)).2 (by decide) shape.2).1

/-- The word that could not be compiled changed, and the verdict on the function is kept. -/
theorem verdict_outlives_its_word :
    Reachable ⟨0x1000, 8⟩ .recompiler (ended { limit := 2 } refusedLater) ∧
      FailedBy ⟨0x1000, 8⟩ .recompiler 0x1000 { limit := 2 } none refusedLater
        (ended { limit := 2 } refusedLater) ∧
      Guest.Tracker.track { memory := refusedLater, limit := UInt32.ofInt 2 } 0x1000 =
        .ok ⟨0x1000, 8⟩ ∧
      Compiler.reads { limit := 2 } none refusedLater { entry := 0x1000 } 0x1004 = true ∧
      ((ended { limit := 2 } refusedLater).table.invalidate ⟨0x1004, 4⟩).entrance 0x1000 =
        .failed := by
  refine ⟨reachable_ended .., failedBy_refusedLater, track_refusedLater, reads_refusedLater, ?_⟩
  obtain ⟨place, whole, entrance_eq⟩ := entrance_invalidate
    (ended { limit := 2 } refusedLater).table ⟨0x1004, 4⟩ 0x1000
  obtain rfl := whole (by rw [(ended_shape ..).1]; decide)
  rw [entrance_eq, afterDrop_eq_failed_iff]
  exact ⟨failedBy_refusedLater.failed, by decide⟩

end Traffic
end JumpTable
end Dynarec
