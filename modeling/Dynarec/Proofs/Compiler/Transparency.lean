import Dynarec.Proofs.Compiler.Containment
import Dynarec.Proofs.Stream.Determinacy
import Dynarec.Proofs.Verdict.Store

/-!
# Stored verdicts change no answer

A stored refusal was found for the same entry address and the same code bytes, which
alone decide whether and where code is refused.  So compilations that share a verdict
store answer as they would without one.
-/

namespace Dynarec

open Dynarec.Stream Guest.Tracker Option UInt32

namespace Guest.Tracker

theorem walk_limit (memory : Memory) (limit other : UInt32) (window : AddressRange) (budget : Nat)
    (work : List Address) (visited : Std.HashSet Address) :
    walk { memory, limit } window budget work visited =
      walk { memory, limit := other } window budget work visited := by
  fun_induction walk { memory, limit } window budget work visited with
  | case1 => rw [walk]
  | case2 budget visited pos => rw [walk.eq_2 _ _ _ _ pos]
  | case3 budget addr rest visited skipped ih =>
    rw [walk, if_pos skipped, ih]
  | case4 budget addr rest visited kept text read => rw [walk, if_neg kept, read]
  | case5 budget addr rest visited kept cause read ih =>
    rw [walk, if_neg kept, read]
    exact ih
  | case6 budget addr rest visited kept read ih =>
    rw [walk, if_neg kept, read]
    exact ih
  | case7 budget addr rest visited kept word read nonzero ih =>
    rw [walk, if_neg kept, read]
    dsimp only
    rw [if_neg nonzero]
    exact bind_congr ih

theorem track_default (memory : Memory) (entry : Address) :
    track { memory, limit := 0 } entry = track { memory, limit := defaultLimit } entry := by
  have same : effectiveLimit { memory, limit := 0 } =
      effectiveLimit { memory, limit := defaultLimit } := rfl
  unfold track window
  rw [same]
  dsimp only
  rw [walk_limit]

end Guest.Tracker

namespace Compiler

variable {config : Config} {memory : Memory} {request : Request} {count : Int}

theorem track_of_options (limited : 0 ≤ config.limit) :
    track
        { memory
          limit := if config.limit > 0 then ofInt config.limit else Guest.defaultLimit }
        request.entry =
      track { memory, limit := ofInt config.limit } request.entry := by
  split
  · rfl
  next nonpositive =>
    have zero : config.limit = 0 := by omega
    rw [zero]
    exact (track_default memory request.entry).symm

theorem ofInt_toNat_div_mul {size} (whole : size.toNat % 4 = 0) :
    UInt32.ofInt ((size / 4).toNat : Int) * 4 = size := by
  apply UInt32.toNat_inj.mp
  have four : (4 : UInt32).toNat = 4 := rfl
  have small := size.toNat_lt
  rw [UInt32.toNat_mul, UInt32.ofInt, UInt32.toNat_ofNat', UInt32.toNat_div, four]
  omega

section

variable (limited : 0 ≤ config.limit) (counted : wordCount config memory request = .ok count)

include limited counted

theorem extent_of_wordCount :
    extent memory (request.options config request.count) = .ok (ofInt count * 4) ∧
      extent memory (request.options config count) = .ok (ofInt count * 4) := by
  unfold wordCount at counted
  split at counted
  next missing =>
    obtain ⟨range, tracked, counted⟩ := of_bind_eq_ok counted
    have retracked again (nonpositive : ¬again > 0) :
        extent memory (request.options config again) = .ok range.size := by
      unfold extent Request.options
      dsimp only
      rw [if_neg nonpositive, track_of_options limited, tracked]
      rfl
    have first := retracked request.count (by omega)
    have size_eq := ofInt_toNat_div_mul (size_mod_of_extent first)
    cases counted
    rw [size_eq]
    refine ⟨first, ?_⟩
    by_cases pos : ((range.size / 4).toNat : Int) > 0
    · unfold extent Request.options
      rw [if_pos pos, size_eq]
      rfl
    · exact retracked _ pos
  next given =>
    cases counted
    have pos : request.count > 0 := by omega
    constructor <;>
    · unfold extent Request.options
      rw [if_pos pos]
      rfl

theorem generate_of_wordCount :
    generate memory (request.options config request.count) =
        ofRange memory (request.options config count) (ofInt count * 4) ∧
      generate memory (request.options config count) =
        ofRange memory (request.options config count) (ofInt count * 4) := by
  obtain ⟨plain, again⟩ := extent_of_wordCount limited counted
  unfold generate
  rw [plain, again]
  exact ⟨rfl, rfl⟩

theorem pipeline_of_wordCount :
    pipeline config memory request count = pipeline config memory request request.count := by
  obtain ⟨plain, again⟩ := generate_of_wordCount limited counted
  unfold Request.options at plain again
  unfold pipeline
  rw [plain, again]

omit counted in
theorem pipeline_of_not_counted (failed : wordCount config memory request = .error interruption) :
    pipeline config memory request request.count = .error interruption := by
  unfold wordCount at failed
  split at failed
  next missing =>
    rcases of_bind_eq_error failed with tracked | ⟨range, -, failed⟩
    · have extent : extent memory (request.options config request.count) = .error interruption := by
        unfold extent Request.options
        dsimp only
        rw [if_neg (by omega), track_of_options limited, tracked]
        rfl
      unfold Request.options at extent
      unfold pipeline generate
      rw [extent]
      rfl
    · cases failed
  · cases failed

end

structure Call where
  config : Config
  image : Image
  request : Request

namespace Call

variable {call other : Call} {fault : Fault}

def run (call : Call) (store : Option VerdictStore) : Outcome :=
  compile call.config store call.image.memory call.request

/-- The code bytes that the verdict on a call is stored for. -/
def code? (call : Call) : Option (List UInt8) :=
  match wordCount call.config call.image.memory call.request with
  | .error _ => none
  | .ok count =>
      (call.image.memory.slice call.request.entry (ofInt count * 4)).toOption

/-- The answers to calls one after another. -/
def answers : Option VerdictStore → List Call → List (Except Interruption CompiledFunction)
  | _, [] => []
  | store, call :: calls => (call.run store).result :: answers (call.run store).store calls

def Refused (call : Call) (code : List UInt8) (fault : Fault) : Prop :=
  ∃ count, wordCount call.config call.image.memory call.request = .ok count ∧
    call.image.memory.slice call.request.entry (ofInt count * 4) = .ok code ∧
    ofRange call.image.memory (call.request.options call.config count)
      (ofInt count * 4) = .error (.fault fault)

theorem code?_eq_some_iff :
    call.code? = some code ↔
      ∃ count, wordCount call.config call.image.memory call.request = .ok count ∧
        call.image.memory.slice call.request.entry (ofInt count * 4) = .ok code := by
  unfold code?
  cases wordCount call.config call.image.memory call.request with
  | error interruption => simp
  | ok count =>
    cases sliced : call.image.memory.slice call.request.entry (ofInt count * 4) <;>
      simp [sliced, Except.toOption]

theorem Refused.again (refused : call.Refused code fault)
    (entry_eq : call.request.entry = other.request.entry) (code_eq : other.code? = some code) :
    other.Refused code fault := by
  obtain ⟨count, -, sliced, failed⟩ := refused
  obtain ⟨again, counted, otherSliced⟩ := code?_eq_some_iff.mp code_eq
  have size_eq : UInt32.ofInt count * 4 = UInt32.ofInt again * 4 := UInt32.toNat_inj.mp
      ((Image.length_of_slice sliced).symm.trans (Image.length_of_slice otherSliced))
  refine ⟨again, counted, otherSliced, ?_⟩
  rw [← size_eq] at otherSliced ⊢
  rw [← entry_eq] at otherSliced
  refine ofRange_refused_again (lower_ne_error (Image.read_ne_crashed _))
    (lower_ne_error (Image.read_ne_crashed _)) entry_eq rfl rfl
    (fun addr lower upper => ?_) failed
  exact (Image.read_of_slice sliced lower upper).trans
    (Image.read_of_slice otherSliced lower upper).symm

theorem Refused.result_eq (limited : 0 ≤ call.config.limit) (refused : call.Refused code fault) :
    (call.run none).result = .error (.fault (call.request.failed fault)) := by
  obtain ⟨count, counted, -, failed⟩ := refused
  have generated := (generate_of_wordCount limited counted).1.trans failed
  have stopped : pipeline call.config call.image.memory call.request call.request.count =
      .error (.fault fault) := by
    unfold Request.options at generated
    unfold pipeline
    rw [generated]
    rfl
  unfold run compile plan
  dsimp only
  rw [stopped]
  rfl

theorem Refused.refuses (refused : call.Refused code fault) : fault.Refuses call.image.memory := by
  obtain ⟨count, -, -, failed⟩ := refused
  exact (refuses_of_ofRange failed).of_fault

end Call

/-- Answers with the same function, or with faults of the same kind about the same word. -/
inductive Agrees :
    Except Interruption CompiledFunction → Except Interruption CompiledFunction → Prop
  | function {function : CompiledFunction} : Agrees (.ok function) (.ok function)
  | fault {fault other : Fault} (isUnsupported_eq : fault.isUnsupported = other.isUnsupported)
      (isInvariant_eq : fault.isInvariant = other.isInvariant)
      (place_eq : fault.unsupported?.map (fun report => (report.address, report.opcode)) =
        other.unsupported?.map fun report => (report.address, report.opcode)) :
      Agrees (.error (.fault fault)) (.error (.fault other))

theorem Agrees.refl_mapError (outcome : Except Fault CompiledFunction) (enclose : Fault → Fault) :
    Agrees (outcome.mapError fun fault => .fault (enclose fault))
      (outcome.mapError fun fault => .fault (enclose fault)) := by
  cases outcome with
  | ok function => exact .function
  | error fault => exact .fault rfl rfl rfl

/-- Every refusal in a store was found by one of some calls. -/
def Faithful (calls : List Call) (store : VerdictStore) : Prop :=
  ∀ key record, store.get key = .ok (some record) → record.verdict = .unsupported →
    ∃ call ∈ calls, ∃ code fault report, key = .ofCode call.request.entry code ∧
      call.Refused code fault ∧ fault.unsupported? = some report ∧
      record.address = report.address ∧ record.opcode = report.opcode

theorem faithful_empty (calls : List Call) : Faithful calls .empty :=
  nofun

/-- Only refused code is stored as such. -/
theorem refused_of_recordOf?
    (recorded : recordOf? (contain (pipeline config memory request count)) = some record)
    (unsupported : record.verdict = .unsupported) :
    ∃ fault report, generate memory (request.options config count) = .error (.fault fault) ∧
        fault.unsupported? = some report ∧ record.address = report.address ∧
        record.opcode = report.opcode := by
  cases ended : pipeline config memory request count with
  | ok function =>
    rw [ended] at recorded
    cases recorded
    cases unsupported
  | error interruption =>
    rw [ended] at recorded
    cases interruption with
    | crash text => cases recorded
    | fault fault =>
      obtain ⟨report, reported, rfl⟩ := map_eq_some_iff.mp recorded
      refine ⟨fault, report, ?_, reported, rfl, rfl⟩
      rcases pipeline_failed_cases ended with failed | ⟨broken, same, breaks⟩
      · exact failed
      · cases same
        have supported := breaks.1
        rw [Fault.isUnsupported, reported] at supported
        cases supported

section

variable (faithful : Faithful calls store) (limited : 0 ≤ call.config.limit) (listed : call ∈ calls)

include faithful limited listed

/-- A verdict is stored for code that was refused. -/
theorem Faithful.remember
    (counted : wordCount call.config call.image.memory call.request = .ok count)
    (sliced : call.image.memory.slice call.request.entry (ofInt count * 4) = .ok code) :
    ∃ next, remember (some store) (some (.ofCode call.request.entry code))
        (contain (pipeline call.config call.image.memory call.request count)) = some next ∧
      Faithful calls next := by
  cases recorded :
      recordOf? (contain (pipeline call.config call.image.memory call.request count)) with
  | none =>
    refine ⟨store, ?_, faithful⟩
    unfold Compiler.remember
    rw [recorded]
  | some record =>
    refine ⟨store.put (.ofCode call.request.entry code) record, ?_, ?_⟩
    · unfold Compiler.remember
      rw [recorded]
    · intro key found got unsupported
      rw [VerdictStore.get_put] at got
      split at got
      next same =>
        cases got
        obtain ⟨fault, report, failed, reported, address_eq, opcode_eq⟩ :=
          refused_of_recordOf? recorded unsupported
        refine ⟨call, listed, code, fault, report, same, ⟨count, counted, sliced, ?_⟩, reported,
          address_eq, opcode_eq⟩
        exact (generate_of_wordCount limited counted).2.symm.trans failed
      · exact faithful key found got unsupported

variable (distinct : ∀ first ∈ calls, ∀ second ∈ calls, ∀ code ∈ first.code?,
  ∀ other ∈ second.code?, Blake2b.digest code = Blake2b.digest other → code = other)

include distinct

/-- A stored refusal is the answer without the store. -/
theorem Faithful.agrees_storedFault (code_eq : call.code? = some code)
    (found : store.get (.ofCode call.request.entry code) = .ok (some record))
    (unsupported : record.verdict = .unsupported) :
    Agrees (.error (.fault (storedFault record))) (call.run none).result := by
  obtain ⟨earlier, earlierListed, bytes, fault, report, key_eq, refused, reported, address_eq,
    opcode_eq⟩ := faithful _ _ found unsupported
  obtain ⟨entry_eq, digest_eq⟩ := VerdictKey.ofCode_eq_ofCode_iff.mp key_eq
  have earlierCode : earlier.code? = some bytes := by
    obtain ⟨count, counted, sliced, -⟩ := refused
    exact Call.code?_eq_some_iff.mpr ⟨count, counted, sliced⟩
  obtain rfl := distinct call listed earlier earlierListed code code_eq bytes earlierCode digest_eq
  have again := refused.again entry_eq.symm code_eq
  rw [again.result_eq limited]
  obtain ⟨isUnsupported, isInvariant⟩ := again.refuses
  refine .fault isUnsupported.symm (isInvariant call.image.sound_memory).symm ?_
  unfold Request.failed
  rw [Fault.unsupported?_within, reported, map_some, ← address_eq, ← opcode_eq]
  rfl

/-- A call with a store answers as without it, and leaves a store to rely on. -/
theorem Faithful.step :
    Agrees (call.run (some store)).result (call.run none).result ∧
      ∃ next, (call.run (some store)).store = some next ∧ Faithful calls next := by
  have compiled {count} (key : Option VerdictKey)
      (planned : plan call.config (some store) call.image.memory call.request =
        .ok (.compile count key))
      (counted : wordCount call.config call.image.memory call.request = .ok count) :
      Agrees (call.run (some store)).result (call.run none).result ∧
        (call.run (some store)).store = Compiler.remember (some store) key
          (contain (pipeline call.config call.image.memory call.request count)) := by
    unfold Call.run compile
    rw [planned]
    dsimp only
    rw [pipeline_of_wordCount limited counted]
    exact ⟨.refl_mapError _ _, rfl⟩
  cases counted : wordCount call.config call.image.memory call.request with
  | error interruption =>
    cases interruption with
    | crash text =>
      have tracked := (wordCount_eq_crash_iff.mp counted).2
      cases refuses_of_track tracked with
      | crash crashes =>
        obtain ⟨addr, _, read, -⟩ := crashes
        exact absurd read (call.image.read_ne_crashed addr _)
    | fault fault =>
      have stopped := pipeline_of_not_counted limited counted
      unfold Call.run compile plan
      dsimp only
      rw [counted, stopped]
      exact ⟨.fault rfl rfl rfl, store, rfl, faithful⟩
  | ok count =>
    cases sliced : call.image.memory.slice call.request.entry (ofInt count * 4) with
    | error fault =>
      have planned : plan call.config (some store) call.image.memory call.request =
          .ok (.compile count none) := by
        simp only [plan, counted, sliced]
      obtain ⟨agrees, store_eq⟩ := compiled none planned counted
      exact ⟨agrees, store, store_eq, faithful⟩
    | ok code =>
      have planned : plan call.config (some store) call.image.memory call.request =
          .ok (planFor store count (.ofCode call.request.entry code)) := by
        simp only [plan, counted, sliced]
      have kept (planned_eq : planFor store count (.ofCode call.request.entry code) =
          .compile count (some (.ofCode call.request.entry code))) :
          Agrees (call.run (some store)).result (call.run none).result ∧
            ∃ next, (call.run (some store)).store = some next ∧ Faithful calls next := by
        obtain ⟨agrees, store_eq⟩ := compiled _ (planned_eq ▸ planned) counted
        rw [store_eq]
        exact ⟨agrees, faithful.remember limited listed counted sliced⟩
      have code_eq : call.code? = some code := Call.code?_eq_some_iff.mpr ⟨count, counted, sliced⟩
      unfold planFor at planned kept
      split at planned
      next record found =>
        simp only [found] at kept
        split at planned
        next unsupported =>
          have answer := faithful.agrees_storedFault limited listed distinct code_eq found
            unsupported
          have failed : call.run (some store) =
              ⟨.error (.fault (storedFault record)), some store⟩ := by
            unfold Call.run compile
            rw [planned]
          rw [failed]
          exact ⟨answer, store, rfl, faithful⟩
        next supported => exact kept (if_neg supported)
      next missing =>
        apply kept
        split
        next record found => exact absurd found (missing record)
        · rfl

end

/-- Calls that share a verdict store, at first an empty one, answer as each of them would without
a store, unless two different codes among theirs have the same digest. -/
theorem answers_with_store_agree
    (calls : List Call)
    (limited : ∀ call ∈ calls, 0 ≤ call.config.limit)
    (distinct : ∀ first ∈ calls, ∀ second ∈ calls, ∀ code ∈ first.code?, ∀ other ∈ second.code?,
      Blake2b.digest code = Blake2b.digest other → code = other) :
    List.Forall₂ Agrees (Call.answers (some .empty) calls)
      (calls.map fun call => (call.run none).result) := by
  have answered (rest : List Call) (store : VerdictStore) (listed : rest ⊆ calls)
      (faithful : Faithful calls store) :
      List.Forall₂ Agrees (Call.answers (some store) rest)
        (rest.map fun call => (call.run none).result) := by
    induction rest generalizing store with
    | nil => exact .nil
    | cons call rest inductionHypothesis =>
        obtain ⟨here, later⟩ := List.cons_subset.mp listed
        obtain ⟨agrees, next, store_eq, nextFaithful⟩ :=
          faithful.step (limited call here) here distinct
        unfold Call.answers
        rw [store_eq]
        exact .cons agrees (inductionHypothesis next later nextFaithful)
  exact answered calls .empty (List.Subset.refl _) (faithful_empty calls)

/-- Two calls for the same refused word, in different images and compiled differently. -/
def refusedTwice : List Call :=
  [{ config := {}
     image := { base := 0x1000, data := #[8, 0, 0, 0] }
     request := { entry := 0x1000, count := 1 } },
    { config := { inlines := false, limit := 0 }
      image := { base := 0x0FFC, data := #[0x60, 0, 0, 0, 8, 0, 0, 0] }
      request := { entry := 0x1000, count := 1, entries := [0x1000] } }]

theorem refusedTwice_agrees :
    (∀ call ∈ refusedTwice, 0 ≤ call.config.limit ∧ call.code? = some [8, 0, 0, 0]) ∧
      List.Forall₂ Agrees (Call.answers (some .empty) refusedTwice)
        (refusedTwice.map fun call => (call.run none).result) := by
  have known : ∀ call ∈ refusedTwice, 0 ≤ call.config.limit ∧ call.code? = some [8, 0, 0, 0] := by
    refine List.forall_mem_cons.mpr ⟨⟨by decide, by cbv⟩, ?_⟩
    exact List.forall_mem_singleton.mpr ⟨by decide, by cbv⟩
  refine ⟨known, answers_with_store_agree refusedTwice (fun call listed => (known call listed).1) ?_⟩
  intro first firstListed second secondListed code code_eq other other_eq _
  rw [(known first firstListed).2] at code_eq
  rw [(known second secondListed).2] at other_eq
  exact (Option.mem_some.mp code_eq).symm.trans (Option.mem_some.mp other_eq)

end Compiler

end Dynarec
