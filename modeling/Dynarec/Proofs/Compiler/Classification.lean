import Dynarec.Compiler.Compile
import Dynarec.Proofs.Stream.Pieces

/-!
# The kinds of failures

Guest code is refused while it is tracked or decoded; what the later phases
report are broken assumptions.  So every failure of a compilation has exactly
one kind, unless the memory reports broken assumptions of its own.
-/

namespace Dynarec

/-- A memory whose refused reads are no broken assumptions. -/
def Memory.Sound (memory : Memory) : Prop :=
  ∀ addr cause, memory.read addr = .refused cause → cause.isInvariant = false

theorem Memory.Sound.crashingAt {memory : Memory} (sound : memory.Sound) (addr : Address)
    (text : String) : (memory.crashingAt addr text).Sound := by
  intro other cause refused
  unfold Memory.crashingAt at refused
  dsimp only at refused
  split at refused
  · cases refused
  · exact sound other cause refused

theorem Image.sound_memory (image : Image) : image.memory.Sound := by
  intro addr cause refused
  unfold Image.memory at refused
  dsimp only at refused
  split at refused
  · cases refused
  · cases refused
    rfl

namespace Fault

variable (memory : Memory)

/-- A fault says that guest code cannot be compiled, and nothing else unless the memory does. -/
def Refuses (fault : Fault) : Prop :=
  fault.isUnsupported ∧ (memory.Sound → fault.isInvariant = false)

/-- A fault is a broken assumption, and nothing else. -/
def Breaks (fault : Fault) : Prop :=
  fault.isUnsupported = false ∧ fault.isInvariant

@[simp] theorem unsupported?_within (context : String) (fault : Fault) :
    (within context fault).unsupported? = fault.unsupported? := rfl

theorem refuses_unsupported (addr opcode : UInt32) (message : String) :
    (unsupported addr opcode message).Refuses memory :=
  ⟨rfl, fun _ => rfl⟩

variable {memory} in
theorem Refuses.within (refuses : fault.Refuses memory) (context : String) :
    (within context fault).Refuses memory :=
  refuses

theorem breaks_broken (text : String) : (broken text).Breaks := ⟨rfl, rfl⟩

theorem Breaks.within (breaks : fault.Breaks) (context : String) : (within context fault).Breaks :=
  breaks

end Fault

def Memory.Crashes (memory : Memory) (interruption : Interruption) : Prop :=
  ∃ addr text, memory.read addr = .crashed text ∧ interruption = .crash text

/-- A read that crashed, or a fault that refuses guest code. -/
inductive Interruption.Refuses (memory : Memory) : Interruption → Prop
  | crash {interruption : Interruption} (crashes : memory.Crashes interruption) :
      Refuses memory interruption
  | fault {cause : Fault} (refuses : cause.Refuses memory) : Refuses memory (.fault cause)

theorem Interruption.Refuses.of_fault {fault}
    (refuses : (Interruption.fault fault).Refuses memory) : fault.Refuses memory := by
  cases refuses with
  | crash crashes =>
    obtain ⟨_, _, -, same⟩ := crashes
    cases same
  | fault refuses => exact refuses

namespace Guest.Tracker

variable {tracker : Tracker}

theorem crashes_of_test (failed : tracker.test addr refused holds = .error interruption) :
    tracker.memory.Crashes interruption := by
  unfold test at failed
  split at failed
  · cases failed
  · cases failed
  next text read =>
    cases failed
    exact ⟨addr, text, read, rfl⟩

theorem crashes_of_stops (failed : tracker.stops addr word = .error interruption) :
    tracker.memory.Crashes interruption := by
  unfold stops at failed
  split at failed
  · cases failed
  · cases failed
  · split at failed
    · cases failed
    · exact crashes_of_test failed
  · split at failed
    · cases failed
    · split at failed
      · exact crashes_of_test failed
      · cases failed
    · cases failed
  · cases failed

theorem crashes_of_walk {window}
    (failed : tracker.walk window budget work visited = .error interruption) :
    tracker.memory.Crashes interruption := by
  fun_induction tracker.walk window budget work visited with
  | case1 => cases failed
  | case2 => cases failed
  | case3 _ _ _ _ _ ih => exact ih failed
  | case4 budget addr rest visited _ text read =>
    cases failed
    exact ⟨addr, text, read, rfl⟩
  | case5 _ _ _ _ _ _ _ ih => exact ih failed
  | case6 _ _ _ _ _ _ ih => exact ih failed
  | case7 _ _ _ _ _ _ _ _ ih =>
    rcases of_bind_eq_error failed with failed | ⟨next, -, failed⟩
    · rcases of_bind_eq_error failed with failed | ⟨stops, -, failed⟩
      · exact crashes_of_stops failed
      · cases failed
    · exact ih next failed

theorem track_error_cases (failed : tracker.track entry = .error interruption) :
    tracker.memory.Crashes interruption ∨
      interruption = .fault (.unsupported entry 0 "no decodable code at entry") := by
  rcases of_bind_eq_error failed with failed | ⟨visited, -, failed⟩
  · exact .inl (crashes_of_walk failed)
  · split at failed
    · cases failed
      exact .inr rfl
    · cases failed

theorem refuses_of_track (failed : tracker.track entry = .error interruption) :
    interruption.Refuses tracker.memory := by
  rcases track_error_cases failed with crashes | rfl
  · exact .crash crashes
  · exact .fault (Fault.refuses_unsupported ..)

end Guest.Tracker

namespace Stream

theorem crashes_of_calleeWords (failed : Guest.calleeWords memory reads addr = .error interruption)
    : memory.Crashes interruption := by
  induction reads generalizing addr with
  | zero => cases failed
  | succ reads ih =>
    unfold Guest.calleeWords at failed
    split at failed
    next text read =>
      cases failed
      exact ⟨addr, text, read, rfl⟩
    · cases failed
    · split at failed
      · cases failed
      · split at failed
        · cases failed
        · rcases of_bind_eq_error failed with failed | ⟨rest, -, failed⟩
          · exact ih failed
          · cases failed

theorem crashes_of_lower (failed : lower memory inlines site word operation = .error interruption) :
    memory.Crashes interruption := by
  unfold lower at failed
  dsimp only at failed
  split at failed
  · rcases of_bind_eq_error failed with failed | ⟨inlining, -, failed⟩
    · rcases of_bind_eq_error failed with failed | ⟨words, -, failed⟩
      · exact crashes_of_calleeWords failed
      · split at failed
        · cases failed
        · split at failed <;> cases failed
    · split at failed <;> cases failed
  · cases failed

theorem refuses_of_fetch (failed : fetch memory addr = .error interruption) :
    interruption.Refuses memory := by
  unfold fetch at failed
  split at failed
  next text read =>
    cases failed
    exact .crash ⟨addr, text, read, rfl⟩
  next cause refused =>
    cases failed
    exact .fault ⟨rfl, fun sound => (sound _ cause refused : cause.isInvariant = false)⟩
  · split at failed
    · cases failed
      exact .fault (Fault.refuses_unsupported ..)
    · cases failed

theorem pieces_error_cases {start stop}
    (failed : pieces memory inlines start stop isEntry count addr progress = .error interruption) :
    memory.Crashes interruption ∨ ∃ addr, fetch memory addr = .error interruption := by
  induction count generalizing addr progress with
  | zero => cases failed
  | succ count ih =>
    rcases of_bind_eq_error failed with failed | ⟨⟨word, operation⟩, -, failed⟩
    · exact .inr ⟨addr, failed⟩
    · rcases of_bind_eq_error failed with failed | ⟨lowered, -, failed⟩
      · exact .inl (crashes_of_lower failed)
      · rcases of_bind_eq_error failed with failed | ⟨rest, -, failed⟩
        · exact ih failed
        · cases failed

theorem ofRange_error_cases {size} (failed : ofRange memory options size = .error interruption) :
    memory.Crashes interruption ∨ ∃ addr, fetch memory addr = .error interruption := by
  rcases of_bind_eq_error failed with failed | ⟨⟨list, progress⟩, done, failed⟩
  · exact pieces_error_cases failed
  · have few : progress.slots.length ≤ maxRegisters :=
      Nat.le_trans (length_slots_of_pieces done) (by decide)
    dsimp only at failed
    rw [if_neg (Nat.not_lt.mpr few)] at failed
    cases failed

theorem generate_error_cases (failed : generate memory options = .error interruption) :
    memory.Crashes interruption ∨ (∃ addr, fetch memory addr = .error interruption) ∨
      interruption = .fault (.unsupported options.entry 0 "no decodable code at entry") := by
  rcases of_bind_eq_error failed with failed | ⟨size, -, failed⟩
  · unfold extent at failed
    split at failed
    · cases failed
    · rcases of_bind_eq_error failed with failed | ⟨range, -, failed⟩
      · exact (Guest.Tracker.track_error_cases failed).imp_right .inr
      · cases failed
  · exact (ofRange_error_cases failed).imp_right .inl

theorem refuses_of_ofRange {size}
    (failed : ofRange memory options size = .error interruption) : interruption.Refuses memory := by
  rcases ofRange_error_cases failed with crashes | ⟨addr, failed⟩
  · exact .crash crashes
  · exact refuses_of_fetch failed

theorem refuses_of_generate (failed : generate memory options = .error interruption) :
    interruption.Refuses memory := by
  rcases generate_error_cases failed with crashes | ⟨addr, failed⟩ | rfl
  · exact .crash crashes
  · exact refuses_of_fetch failed
  · exact .fault (Fault.refuses_unsupported ..)

end Stream

namespace Allocation

theorem breaks_of_refuse (failed : refuse error = .error fault) : fault.Breaks := by
  cases error with
  | none => cases failed
  | some error =>
    cases failed
    exact Fault.breaks_broken _

theorem breaks_of_within (failed : within context result = .error fault) : fault.Breaks := by
  cases result with
  | ok value => cases failed
  | error error =>
    cases failed
    exact (Fault.breaks_broken _).within context

theorem breaks_of_ofConfig (failed : ofConfig g config = .error fault) : fault.Breaks := by
  rcases of_bind_eq_error failed with failed | ⟨_, -, failed⟩
  · unfold precheck at failed
    split at failed
    · rcases of_bind_eq_error failed with failed | ⟨_, -, failed⟩
      · exact breaks_of_refuse failed
      · exact breaks_of_refuse failed
    · exact breaks_of_refuse failed
  · rcases of_bind_eq_error failed with failed | ⟨assigned, -, failed⟩
    · exact breaks_of_within failed
    · dsimp only at failed
      split at failed
      · rcases of_bind_eq_error failed with failed | ⟨_, -, failed⟩
        · exact breaks_of_refuse failed
        · exact breaks_of_within failed
      · exact breaks_of_within failed

end Allocation

namespace Compiler

def Request.options (request : Request) (config : Config) (count : Int) : Stream.Options :=
  { entry := request.entry, count, entries := request.entries, inlines := config.inlines,
    limit := config.limit }

theorem pipeline_failed_cases (failed : pipeline config memory request count = .error interruption)
    :
    Stream.generate memory (request.options config count) = .error interruption ∨
      ∃ fault, interruption = .fault fault ∧ fault.Breaks := by
  rcases of_bind_eq_error failed with failed | ⟨stream, -, failed⟩
  · exact .inl failed
  · right
    split at failed
    · cases failed
      exact ⟨_, rfl, Fault.breaks_broken _⟩
    · split at failed
      next fault refused =>
        cases failed
        rcases of_bind_eq_error refused with refused | ⟨allocation, -, done⟩
        · exact ⟨_, rfl, Allocation.breaks_of_ofConfig refused⟩
        · cases done
      · cases failed

theorem kind_of_contain (failed : contain (pipeline config memory request count) = .error fault) :
    fault.Refuses memory ∨ fault.Breaks := by
  cases ended : pipeline config memory request count with
  | ok function =>
    rw [ended] at failed
    cases failed
  | error interruption =>
    rw [ended] at failed
    cases interruption with
    | crash text =>
      cases failed
      exact .inr ⟨rfl, rfl⟩
    | fault cause =>
      cases failed
      rcases pipeline_failed_cases ended with refused | ⟨broken, same, breaks⟩
      · exact .inl (Stream.refuses_of_generate refused).of_fault
      · cases same
        exact .inr breaks

end Compiler

end Dynarec
