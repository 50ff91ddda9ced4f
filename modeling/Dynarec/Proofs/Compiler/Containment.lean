import Dynarec.Proofs.Compiler.Classification

/-!
# Failures stay inside a compilation

A compilation turns the crashes of the memory into faults, with one exception:
while the extent of a function is tracked to look up its verdict, nothing holds
them back yet.
-/

namespace Dynarec

namespace Compiler

open Guest.Tracker UInt32

variable {memory : Memory}

theorem wordCount_eq_crash_iff :
    wordCount config memory request = .error (.crash text) ↔ request.count ≤ 0 ∧
        track { memory, limit := ofInt config.limit } request.entry = .error (.crash text) := by
  unfold wordCount
  split
  next missing =>
    cases tracked :
      track { memory, limit := ofInt config.limit } request.entry with
    | error interruption => simp [tracked, bind, Except.bind, missing]
    | ok range => simp [tracked, bind, Except.bind, pure, Except.pure]
  next given => simp [given]

theorem plan_eq_error_iff :
    plan config store memory request = .error text ↔
      store.isSome ∧ wordCount config memory request = .error (.crash text) := by
  unfold plan
  cases store with
  | none => simp
  | some store =>
    cases wordCount config memory request with
    | error interruption => cases interruption <;> simp
    | ok count =>
      cases sliced : memory.slice request.entry (ofInt count * 4) <;> simp [sliced]

theorem refuses_of_plan (failed : plan config store memory request = .ok (.fail fault)) :
    fault.Refuses memory := by
  unfold plan at failed
  split at failed
  · cases failed
  · split at failed
    · cases failed
    next cause counted =>
      cases failed
      unfold wordCount at counted
      split at counted
      · rcases of_bind_eq_error counted with counted | ⟨range, -, counted⟩
        · exact (refuses_of_track counted).of_fault.within _
        · cases counted
      · cases counted
    · split at failed
      · cases failed
      · injection failed with failed
        unfold planFor at failed
        split at failed
        · split at failed
          · cases failed
            exact Fault.refuses_unsupported ..
          · cases failed
        · cases failed

theorem compile_eq_crash_iff :
    (compile config store memory request).result = .error (.crash text) ↔
      plan config store memory request = .error text := by
  unfold compile
  split
  next planned => simp [planned]
  next planned => simp [planned]
  next count key planned =>
    cases contain (pipeline config memory request count) <;> simp [planned]

theorem kind_of_compile
    (failed : (compile config store memory request).result = .error (.fault fault)) :
    fault.Refuses memory ∨ fault.Breaks := by
  unfold compile at failed
  split at failed
  · cases failed
  next planned =>
    cases failed
    exact .inl (refuses_of_plan planned)
  next count key planned =>
    cases ended : contain (pipeline config memory request count) with
    | ok function =>
      rw [ended] at failed
      cases failed
    | error cause =>
      rw [ended] at failed
      cases failed
      rcases kind_of_contain ended with refuses | breaks
      · exact .inl (refuses.within _)
      · exact .inr (breaks.within _)

/-- A compilation comes back unless the extent of the function is tracked for the verdict
store and a read crashes there.  Every failure that comes back has a kind, and only one
unless a refused read of the memory is a broken assumption itself. -/
theorem failures_are_contained
    (config : Config)
    (store : Option VerdictStore)
    (memory : Memory)
    (request : Request) :
    (∀ text, (compile config store memory request).result = .error (.crash text) ↔
      store.isSome = true ∧ request.count ≤ 0 ∧
        Guest.Tracker.track { memory, limit := UInt32.ofInt config.limit } request.entry =
          .error (.crash text)) ∧
      ∀ fault, (compile config store memory request).result = .error (.fault fault) →
        (fault.isUnsupported = true ∨ fault.isInvariant = true) ∧
          (memory.Sound → ¬(fault.isUnsupported = true ∧ fault.isInvariant = true)) := by
  constructor
  · intro text
    rw [compile_eq_crash_iff, plan_eq_error_iff, wordCount_eq_crash_iff]
  · intro fault failed
    rcases kind_of_compile failed with ⟨unsupported, alone⟩ | ⟨supported, broken⟩
    · exact ⟨.inl unsupported, fun sound both => by simp [alone sound] at both⟩
    · exact ⟨.inr broken, fun _ both => by simp [supported] at both⟩

/-- A memory that holds a return and crashes when it is read. -/
def faultyReturn : Memory :=
  Image.memory { base := 0x02000000, data := #[0x4E, 0x80, 0x00, 0x20] }
    |>.crashingAt 0x02000000 "bus error"

theorem track_faultyReturn :
    track { memory := faultyReturn, limit := 4096 } 0x02000000 = .error (.crash "bus error") := by
  have inside : AddressRange.contains ⟨0x02000000, 0x4000⟩ 0x02000000 = true := by decide
  have read : faultyReturn.read 0x02000000 = .crashed "bus error" := rfl
  have budget : (effectiveLimit { memory := faultyReturn, limit := 4096 }).toNat *
      4 = 16384 := by decide
  have window : window { memory := faultyReturn, limit := 4096 } 0x02000000 =
      ⟨0x02000000, 0x4000⟩ := by decide
  rw [track, budget, window]
  simp [walk, inside, read, bind, Except.bind]

theorem pipeline_faultyReturn :
    pipeline {} faultyReturn { entry := 0x02000000 } 0 = .error (.crash "bus error") := by
  have limit : ofInt (4096 : Int) = 4096 := by decide
  have extent : Stream.extent faultyReturn
      { entry := 0x02000000, inlines := true, limit := 4096 } = .error (.crash "bus error") := by
    rw [Stream.extent, if_neg (by decide)]
    dsimp only
    rw [if_pos (by decide), limit, track_faultyReturn]
    rfl
  unfold pipeline Stream.generate
  rw [extent]
  rfl

/-- With a verdict store, the crash of a read may come out of a compilation. -/
theorem crash_escapes_with_store :
    (compile {} (some .empty) faultyReturn { entry := 0x02000000 }).result =
      .error (.crash "bus error") := by
  rw [compile_eq_crash_iff, plan_eq_error_iff, wordCount_eq_crash_iff]
  exact ⟨rfl, by decide, track_faultyReturn⟩

theorem faultyReturn_is_contained :
    ∃ fault, (compile {} none faultyReturn { entry := 0x02000000 }).result =
        .error (.fault fault) ∧
      (fault.isUnsupported = true ∨ fault.isInvariant = true) ∧
        ¬(fault.isUnsupported = true ∧ fault.isInvariant = true) := by
  have sound : faultyReturn.Sound := (Image.sound_memory _).crashingAt _ _
  obtain ⟨fault, ended⟩ : ∃ fault,
      (compile {} none faultyReturn { entry := 0x02000000 }).result = .error (.fault fault) := by
    unfold compile plan
    dsimp only
    rw [pipeline_faultyReturn]
    exact ⟨_, rfl⟩
  obtain ⟨-, kinds⟩ := failures_are_contained {} none faultyReturn { entry := 0x02000000 }
  exact ⟨fault, ended, (kinds _ ended).1, (kinds _ ended).2 sound⟩

end Compiler
end Dynarec
