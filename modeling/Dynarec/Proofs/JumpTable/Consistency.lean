import Dynarec.JumpTable.Basic
import Dynarec.Proofs.Compiler.Entry

/-!
# Consistency of the jump table

Visits, compilations and invalidations may interleave in any way.  Whatever they
do, a function that is kept can be entered where the table says so, an address
that was visited is never lost, and nothing is left of functions whose code
changed.
-/

namespace Dynarec

open Compiler Guest.Tracker List UInt32

/-- The state of an entrance says whether there is a function. -/
def Entrance.IsFormed (entrance : Entrance) : Prop :=
  entrance.state = .compiled ↔ entrance.function?.isSome = true

theorem Entrance.IsFormed.eq_mk {entrance : Entrance} (formed : entrance.IsFormed)
    (state_eq : entrance.state = known) (free : known ≠ .compiled) :
    entrance = { state := known } := by
  obtain ⟨_, function?⟩ := entrance
  cases state_eq
  cases function? with
  | none => rfl
  | some function => exact absurd (formed.mpr rfl) free

namespace JumpTable

/-! ## Entrances -/

section

variable {table : JumpTable} {entrance : Entrance} {range : AddressRange}

/-- The place of a word. -/
theorem index?_spec (found : table.index? addr = some index) :
    index < table.entrances.size ∧ addr.toNat % 4 = 0 ∧ table.base.toNat ≤ addr.toNat ∧
      (addr.toNat - table.base.toNat) / 4 = index := by
  unfold index? at found
  dsimp only at found
  split at found
  · cases found
  next inside =>
    split at found
    next small =>
      cases found
      simp only [Bool.or_eq_true, decide_eq_true_eq, not_or, UInt32.not_lt, ne_eq,
        Decidable.not_not] at inside
      refine ⟨small, Stream.toNat_mod_four inside.2, UInt32.le_iff_toNat_le.mp inside.1, ?_⟩
      rw [UInt32.toNat_div, UInt32.toNat_sub_of_le _ _ inside.1]
      rfl
    · cases found

theorem index?_inj (found : table.index? addr = some index)
    (otherFound : table.index? other = some index) : addr = other := by
  have first := index?_spec found
  have second := index?_spec otherFound
  rw [← UInt32.toNat_inj]
  omega

theorem addressOf_of_index? (aligned : table.base &&& 3 = 0)
    (found : table.index? addr = some index) : table.addressOf index = addr := by
  have place := index?_spec found
  have whole := Stream.toNat_mod_four aligned
  have four : (4 : UInt32).toNat = 4 := rfl
  rw [← UInt32.toNat_inj, addressOf, UInt32.toNat_add, UInt32.toNat_mul, UInt32.toNat_ofNat', four]
  have small := addr.toNat_lt
  omega

theorem index?_congr {changed : JumpTable} (base_eq : changed.base = table.base)
    (size_eq : changed.entrances.size = table.entrances.size) :
    changed.index? addr = table.index? addr := by
  rw [index?, index?, base_eq, size_eq]

@[simp] theorem index?_setEntrance (entrance : Entrance) :
    (table.setEntrance addr entrance).index? other = table.index? other := by
  unfold setEntrance
  split
  · exact index?_congr rfl (by simp)
  · rfl

theorem entrance_setEntrance (entrance : Entrance) :
    (table.setEntrance addr entrance).entrance other =
      if other = addr ∧ (table.index? addr).isSome then entrance else table.entrance other := by
  cases found : table.index? addr with
  | none => simp [setEntrance, found]
  | some index =>
    have set : (table.setEntrance addr entrance).entrances =
        table.entrances.setIfInBounds index entrance := by rw [setEntrance, found]
    have inside := (index?_spec found).1
    by_cases same : other = addr
    · subst same
      rw [JumpTable.entrance, index?_setEntrance, found, set]
      simp [inside]
    · rw [JumpTable.entrance, index?_setEntrance, set, if_neg (by simp [same])]
      cases otherFound : table.index? other with
      | none => simp [JumpTable.entrance, otherFound]
      | some otherIndex =>
        have apart : index ≠ otherIndex := by
          rintro rfl
          exact same (index?_inj otherFound found)
        simp [JumpTable.entrance, otherFound, apart]

theorem entrance_of_index?_eq_none (outside : table.index? addr = none) :
    table.entrance addr = .unvisited := by
  rw [entrance, outside]

theorem isSome_index?_of_visited (visited : table.entrance addr = .visited) :
    (table.index? addr).isSome := by
  rw [Option.isSome_iff_ne_none]
  intro outside
  cases (entrance_of_index?_eq_none outside).symm.trans visited

theorem entrance_setEntrance_of_isSome (inside : (table.index? addr).isSome)
    (entrance : Entrance) (other : Address) :
    (table.setEntrance addr entrance).entrance other =
      if other = addr then entrance else table.entrance other := by
  rw [entrance_setEntrance]
  simp [inside]

theorem hasState_iff : table.hasState state addr ↔
    (table.index? addr).isSome ∧ (table.entrance addr).state = state := by
  rw [hasState, Bool.and_eq_true, decide_eq_true_eq]

theorem hasState_visited :
    table.hasState .visited addr = decide ((table.entrance addr).state = .visited) := by
  rw [hasState]
  cases found : table.index? addr with
  | none => simp [entrance_of_index?_eq_none found]
  | some index => rfl

/-- In all entrances the state and the function agree. -/
def IsFormed (table : JumpTable) : Prop :=
  ∀ addr, (table.entrance addr).IsFormed

section

variable (formed : table.IsFormed)

include formed

theorem hasState_visited_iff : table.hasState .visited addr ↔ table.entrance addr = .visited := by
  rw [hasState_visited, decide_eq_true_eq]
  exact ⟨fun state => (formed addr).eq_mk state (by simp), congrArg Entrance.state⟩

theorem hasState_unvisited_iff : table.hasState .unvisited addr ↔
    (table.index? addr).isSome ∧ table.entrance addr = .unvisited := by
  rw [hasState_iff]
  refine and_congr_right fun _ => ?_
  exact ⟨fun state => (formed addr).eq_mk state (by simp), congrArg Entrance.state⟩

/-- The state is all that an entrance without a function has. -/
theorem entrance_setState (known : table.hasState before addr)
    (free : before ≠ .compiled) (state : Entrance.State) (other : Address) :
    (table.setState addr state).entrance other =
      if other = addr then { state } else table.entrance other := by
  obtain ⟨inside, state_eq⟩ := hasState_iff.mp known
  rw [setState, entrance_setEntrance_of_isSome inside, (formed addr).eq_mk state_eq free]

end

/-- A table of which nothing but the entrances may differ. -/
def SameBooks (before after : JumpTable) : Prop :=
  after = { before with entrances := after.entrances }

theorem sameBooks_setEntrance (table : JumpTable) (addr : Address) (entrance : Entrance) :
    table.SameBooks (table.setEntrance addr entrance) := by
  unfold setEntrance
  split <;> exact rfl

theorem sameBooks_setState (table : JumpTable) (addr : Address) (state : Entrance.State) :
    table.SameBooks (table.setState addr state) :=
  sameBooks_setEntrance ..

/-- Entrances that were added for a function.  Those that are compiled stay. -/
structure Added (function : CompiledFunction) (addresses : List Address)
    (before after : JumpTable) : Prop where
  same : before.SameBooks after
  cases : ∀ addr, after.entrance addr = before.entrance addr ∨
    after.entrance addr = .compiled function ∧ addr ∈ addresses ∧
      (before.entrance addr).state ≠ .compiled

theorem added_foldl_addEntrance (function : CompiledFunction) (addresses : List Address)
    (table : JumpTable) :
    Added function addresses table (addresses.foldl (addEntrance function) table) := by
  induction addresses generalizing table with
  | nil => exact ⟨rfl, fun _ => .inl rfl⟩
  | cons first rest ih =>
    have one : Added function [first] table (table.addEntrance function first) := by
      unfold addEntrance
      split
      · exact ⟨rfl, fun _ => .inl rfl⟩
      next free =>
        refine ⟨sameBooks_setEntrance table first _, fun addr => ?_⟩
        rw [entrance_setEntrance]
        split
        next here =>
          refine .inr ⟨rfl, mem_singleton.mpr here.1, ?_⟩
          rw [here.1]
          exact free
        · exact .inl rfl
    have more := ih (table.addEntrance function first)
    rw [foldl_cons]
    refine ⟨?_, fun addr => ?_⟩
    · rw [SameBooks, more.same, one.same]
    · rcases more.cases addr with unchanged | ⟨compiled, listed, free⟩
      · rw [unchanged]
        refine (one.cases addr).imp_right fun ⟨compiled, listed, free⟩ => ⟨compiled, ?_, free⟩
        exact mem_cons.mpr (.inl (mem_singleton.mp listed))
      · rcases one.cases addr with before | ⟨taken, -, -⟩
        · exact .inr ⟨compiled, mem_cons_of_mem _ listed, before ▸ free⟩
        · exact absurd (congrArg Entrance.state taken) free

theorem entrance_ofRegion (region : AddressRange) (mode : ExecutionMode) (addr : Address) :
    (ofRegion region mode).entrance addr = .unvisited := by
  unfold entrance
  split
  · simp only [ofRegion, Array.getD_eq_getD_getElem?, Array.getElem?_replicate]
    split <;> rfl
  · rfl

theorem entrance_reset (table : JumpTable) (addr : Address) :
    table.reset.entrance addr = .unvisited := by
  unfold entrance
  split
  next index _ =>
    simp only [reset, Array.getD_eq_getD_getElem?, Array.getElem?_map]
    cases table.entrances[index]? <;> rfl
  · rfl

theorem afterDrop_unvisited (dropped : List Address) (range : AddressRange) (addr : Address) :
    afterDrop dropped range addr .unvisited = .unvisited := by
  simp [afterDrop]

theorem afterDrop_eq_compiled_iff :
    afterDrop dropped range addr entrance = .compiled function ↔
      entrance = .compiled function ∧ function.entry ∉ dropped := by
  unfold afterDrop
  split
  next gone =>
    refine ⟨nofun, ?_⟩
    rintro ⟨rfl, stays⟩
    simp [stays] at gone
  next stays =>
    refine ⟨?_, And.left⟩
    rintro rfl
    exact ⟨rfl, fun listed => stays (by simp [listed])⟩

theorem afterDrop_eq_visited_iff :
    afterDrop dropped range addr entrance = .visited ↔ entrance = .visited := by
  unfold afterDrop
  split
  next gone =>
    refine ⟨nofun, ?_⟩
    rintro rfl
    simp at gone
  · rfl

theorem entrance_invalidate (table : JumpTable) (range : AddressRange) (addr : Address) :
    ∃ place, (table.base &&& 3 = 0 → place = addr) ∧ (table.invalidate range).entrance addr =
      afterDrop (table.overlapping range) range place (table.entrance addr) := by
  have index?_eq : (table.invalidate range).index? addr = table.index? addr :=
    index?_congr rfl (by simp [invalidate])
  unfold entrance
  rw [index?_eq]
  cases found : table.index? addr with
  | none => exact ⟨addr, fun _ => rfl, (afterDrop_unvisited ..).symm⟩
  | some index =>
    refine ⟨table.addressOf index, fun aligned => addressOf_of_index? aligned found, ?_⟩
    simp only [invalidate, Array.getD_eq_getD_getElem?, Array.getElem?_mapIdx]
    cases table.entrances[index]? with
    | none => exact (afterDrop_unvisited ..).symm
    | some entrance => rfl

theorem mem_functions_invalidate :
    (entry, function) ∈ (table.invalidate range).functions ↔
      (entry, function) ∈ table.functions ∧ function.overlaps range = false := by
  rw [invalidate, mem_filter]
  simp

theorem mem_overlapping : entry ∈ table.overlapping range ↔
    ∃ function, (entry, function) ∈ table.functions ∧ function.overlaps range := by
  simp [overlapping]

structure Installed (addr : Address) (function : CompiledFunction) (before after : JumpTable) :
    Prop where
  shape_eq : after = { before with
    entrances := after.entrances
    functions := putFunction before.functions addr function }
  entrance_eq : after.entrance addr = .compiled function
  cases : ∀ other, other ≠ addr → after.entrance other = before.entrance other ∨
    after.entrance other = .compiled function ∧ other ∈ function.enterAddresses ∧
      (before.entrance other).state ≠ .compiled

theorem installed_install (inside : (table.index? addr).isSome) (function : CompiledFunction) :
    Installed addr function table (table.install addr function) := by
  have set := entrance_setEntrance_of_isSome inside (.compiled function)
  have same := sameBooks_setEntrance table addr (.compiled function)
  have added := added_foldl_addEntrance function (function.enterAddresses.filter (· ≠ addr))
    { table.setEntrance addr (.compiled function) with
      functions := putFunction (table.setEntrance addr (.compiled function)).functions addr
        function }
  refine ⟨?_, ?_, fun other ne => ?_⟩
  · exact added.same.trans (congrArg (fun books : JumpTable => { books with
      entrances := (table.install addr function).entrances
      functions := putFunction books.functions addr function }) same)
  · rcases added.cases addr with unchanged | ⟨compiled, -, -⟩
    · exact unchanged.trans ((set addr).trans (if_pos rfl))
    · exact compiled
  · have before := (set other).trans (if_neg ne)
    rcases added.cases other with unchanged | ⟨compiled, listed, free⟩
    · exact .inl (unchanged.trans before)
    · exact .inr ⟨compiled, mem_of_mem_filter listed, before ▸ free⟩

end

/-! ## Operations -/

section

variable (table : JumpTable) (addr : Address)

theorem visit_shape : ∃ entrances, table.visit addr = { table with
    entrances
    queue := if table.canVisit addr then table.queue ++ [addr] else table.queue } := by
  unfold visit
  split
  · have same := sameBooks_setState table addr .visited
    exact ⟨_, by rw [same]⟩
  · exact ⟨_, rfl⟩

theorem finish_shape (epoch : Nat) (outcome : Except Fault CompiledFunction) :
    ∃ entrances functions failures, table.finish addr epoch outcome =
      { table with entrances, functions, failures } := by
  unfold finish
  split
  · exact ⟨_, _, _, rfl⟩
  next waiting =>
    split
    · exact ⟨_, _, _, sameBooks_setState table addr .unvisited⟩
    · cases outcome with
      | error fault =>
        have same := sameBooks_setState table addr .failed
        exact ⟨_, table.functions, table.failures + 1, by dsimp only; rw [same]⟩
      | ok function =>
        have waits : table.hasState .visited addr = true := by simpa using waiting
        exact ⟨_, _, _, (installed_install (hasState_iff.mp waits).1 function).shape_eq⟩

theorem epoch_visit : (table.visit addr).epoch = table.epoch := by
  obtain ⟨entrances, shape⟩ := table.visit_shape addr
  rw [shape]

theorem epoch_finish (epoch : Nat) (outcome : Except Fault CompiledFunction) :
    (table.finish addr epoch outcome).epoch = table.epoch := by
  obtain ⟨entrances, functions, failures, shape⟩ := table.finish_shape addr epoch outcome
  rw [shape]

end

section

variable {table : JumpTable}

theorem finish_of_ok (waits : table.hasState .visited addr) (function : CompiledFunction) :
    table.finish addr table.epoch (.ok function) = table.install addr function := by
  simp [finish, waits]

variable (formed : table.IsFormed)

include formed

theorem entrance_visit :
    (table.visit addr).entrance other = if table.canVisit addr ∧ other = addr then .visited
      else table.entrance other := by
  unfold visit
  by_cases can : table.canVisit addr = true
  · have known : table.hasState .unvisited addr := (Bool.and_eq_true_iff.mp can).2
    simp only [can, true_and]
    exact entrance_setState formed known (by simp) .visited other
  · rw [if_neg can, if_neg fun both => can both.1]

/-- The end of a compilation leaves an entrance alone, closes its own, or installs the function
at an address that waited for it since the same epoch. -/
theorem entrance_finish_cases (epoch : Nat) (outcome : Except Fault CompiledFunction)
    (other : Address) :
    (table.finish addr epoch outcome).entrance other = table.entrance other ∨
      (table.finish addr epoch outcome).entrance other = .unvisited ∨
      (table.finish addr epoch outcome).entrance other = .failed ∧ other = addr ∨
      ∃ function, outcome = .ok function ∧
        (table.finish addr epoch outcome).entrance other = .compiled function ∧
        table.entrance addr = .visited ∧ epoch = table.epoch := by
  unfold finish
  split
  · exact .inl rfl
  next waiting =>
    have waits : table.hasState .visited addr = true := by simpa using waiting
    have view state := entrance_setState formed waits (by simp) state other
    split
    · rw [view]
      split
      · exact .inr (.inl rfl)
      · exact .inl rfl
    next same =>
      cases outcome with
      | error fault =>
        by_cases here : other = addr
        · exact .inr (.inr (.inl ⟨(view .failed).trans (if_pos here), here⟩))
        · exact .inl ((view .failed).trans (if_neg here))
      | ok function =>
        have visited := (hasState_visited_iff formed).mp waits
        have installed := installed_install (isSome_index?_of_visited visited) function
        by_cases here : other = addr
        · subst here
          exact .inr (.inr (.inr ⟨function, rfl, installed.entrance_eq, visited, by
            simpa using same⟩))
        · refine (installed.cases other here).imp_right fun ⟨compiled, _, _⟩ => ?_
          exact .inr (.inr ⟨function, rfl, compiled, visited, by simpa using same⟩)

theorem entrance_finish_of_visited (visited : table.entrance addr = .visited)
    (function : CompiledFunction) :
    (table.finish addr table.epoch (.ok function)).entrance addr = .compiled function := by
  rw [finish_of_ok ((hasState_visited_iff formed).mpr visited)]
  exact (installed_install (isSome_index?_of_visited visited) function).entrance_eq

theorem entrance_finish_of_error (visited : table.entrance addr = .visited) (fault : Fault) :
    (table.finish addr table.epoch (.error fault)).entrance addr = .failed := by
  have waits := (hasState_visited_iff formed).mpr visited
  have view := entrance_setState formed waits (by simp) .failed addr
  rw [if_pos rfl] at view
  simp only [finish, waits, Bool.not_true, Bool.false_eq_true, if_false, ne_eq, not_true_eq_false]
  exact view

end

/-! ## Interleavings -/

/-- A compilation that was started and did not end yet. -/
structure Attempt where
  address : Address
  epoch : Nat
  begun : Nat
deriving DecidableEq, Repr

/-- A jump table, the addresses that left its queue, and when things happened last.  What never
happened has the time zero. -/
structure Traffic where
  table : JumpTable
  /-- The addresses whose compilation was not started yet. -/
  taken : List Address := []
  running : List Attempt := []
  /-- The number of steps so far. -/
  time : Nat := 0
  invalidated : Nat := 0
  /-- When everything was forgotten last. -/
  reset : Nat := 0
  visits : Address → Nat := fun _ => 0

namespace Traffic

/-- A region in which nothing happened. -/
def ofRegion (region : AddressRange) (mode : ExecutionMode) : Traffic :=
  { table := .ofRegion region mode }

/-- An address visited now. -/
def visit (traffic : Traffic) (addr : Address) : Traffic :=
  { traffic with
    table := traffic.table.visit addr
    time := traffic.time + 1
    visits := fun other =>
      if traffic.table.canVisit addr = true ∧ other = addr then traffic.time + 1
      else traffic.visits other }

/-- The queue taken now. -/
def take (traffic : Traffic) : Traffic :=
  { traffic with
    table := traffic.table.takeQueue.2
    taken := traffic.taken ++ traffic.table.takeQueue.1
    time := traffic.time + 1 }

/-- The compilation of an address started now. -/
def start (traffic : Traffic) (addr : Address) : Traffic :=
  { traffic with
    taken := traffic.taken.erase addr
    running := ⟨addr, traffic.table.epoch, traffic.time + 1⟩ :: traffic.running
    time := traffic.time + 1 }

/-- A compilation ended now and left a table. -/
def settle (traffic : Traffic) (attempt : Attempt) (table : JumpTable) : Traffic :=
  { traffic with table, running := traffic.running.erase attempt, time := traffic.time + 1 }

/-- A compilation ended now with an outcome. -/
def finish (traffic : Traffic) (attempt : Attempt) (outcome : Except Fault CompiledFunction) :
    Traffic :=
  traffic.settle attempt (traffic.table.finish attempt.address attempt.epoch outcome)

/-- An address put back into the queue now. -/
def requeue (traffic : Traffic) (addr : Address) : Traffic :=
  { traffic with
    table := traffic.table.requeue addr
    taken := traffic.taken.erase addr
    time := traffic.time + 1 }

/-- A range invalidated now. -/
def invalidate (traffic : Traffic) (range : AddressRange) : Traffic :=
  { traffic with
    table := traffic.table.invalidate range
    time := traffic.time + 1
    invalidated := traffic.time + 1 }

/-- Everything forgotten now. -/
def forget (traffic : Traffic) : Traffic :=
  { traffic with
    table := traffic.table.reset
    time := traffic.time + 1
    reset := traffic.time + 1 }

/-- Compiled functions used from now on, or not any more. -/
def enable (traffic : Traffic) (enabled : Bool) : Traffic :=
  { traffic with
    table := { traffic.table with enabled }
    time := traffic.time + 1 }

/-- An address left the queue and its compilation did not end yet. -/
def InFlight (traffic : Traffic) (addr : Address) : Prop :=
  addr ∈ traffic.taken ∨ ∃ attempt ∈ traffic.running, attempt.address = addr

/-- What can happen next, whoever does it. -/
inductive Step : Traffic → Traffic → Prop
  | visit (traffic : Traffic) (addr : Address) : Step traffic (traffic.visit addr)
  | take (traffic : Traffic) : Step traffic traffic.take
  | start (traffic : Traffic) {addr : Address} (listed : addr ∈ traffic.taken) :
      Step traffic (traffic.start addr)
  /-- A compilation ends, with whatever the guest memory was like. -/
  | finish (traffic : Traffic) {attempt : Attempt} (listed : attempt ∈ traffic.running)
      (config : Compiler.Config) (store : Option VerdictStore) (memory : Memory) :
      Step traffic (traffic.finish attempt (contain
        (compile config store memory { entry := attempt.address }).result))
  /-- An address is put back because processing was cancelled. -/
  | requeue (traffic : Traffic) {addr : Address} (listed : addr ∈ traffic.taken) :
      Step traffic (traffic.requeue addr)
  | invalidate (traffic : Traffic) (range : AddressRange) : Step traffic (traffic.invalidate range)
  | forget (traffic : Traffic) : Step traffic traffic.forget
  | enable (traffic : Traffic) (enabled : Bool) : Step traffic (traffic.enable enabled)

/-- What a table of a region can come to. -/
inductive Reachable (region : AddressRange) (mode : ExecutionMode) : Traffic → Prop
  | initial : Reachable region mode (ofRegion region mode)
  | step {before after : Traffic} (reachable : Reachable region mode before)
      (step : Step before after) : Reachable region mode after

/-- A table whose entrances and functions fit, and that lost no address. -/
structure Consistent (traffic : Traffic) : Prop where
  formed : traffic.table.IsFormed
  nodup : (traffic.table.functions.map Prod.fst).Nodup
  keyed : ∀ {entry function}, (entry, function) ∈ traffic.table.functions →
    function.entry = entry ∧ ∀ range ∈ function.ranges, range.size ≠ 0
  installed : ∀ {entry function}, (entry, function) ∈ traffic.table.functions →
    traffic.table.entrance entry = .compiled function
  /-- A function that is entered anywhere is kept, and can be entered there. -/
  held : ∀ {addr function}, traffic.table.entrance addr = .compiled function →
    (function.entry, function) ∈ traffic.table.functions ∧ addr ∈ function.enterAddresses
  awaited : ∀ {addr}, traffic.table.entrance addr = .visited →
    addr ∈ traffic.table.queue ∨ traffic.InFlight addr

theorem consistent_of_unvisited {traffic : Traffic} (functions_eq : traffic.table.functions = [])
    (unvisited : ∀ addr, traffic.table.entrance addr = .unvisited) : traffic.Consistent := by
  refine ⟨fun addr => ?_, ?_, ?_, ?_, ?_, ?_⟩
  · rw [unvisited]
    exact ⟨nofun, nofun⟩
  · simp [functions_eq]
  · simp [functions_eq]
  · simp [functions_eq]
  · intro addr function compiled
    cases (unvisited addr).symm.trans compiled
  · intro addr visited
    cases (unvisited addr).symm.trans visited

variable {after : Traffic}

namespace Consistent

variable {traffic : Traffic} (consistent : traffic.Consistent)

include consistent

/-- What changes no entrance that is compiled and no function may change the others, as long as
no address is lost. -/
theorem of_uncompiled (functions_eq : after.table.functions = traffic.table.functions)
    (cases : ∀ addr, after.table.entrance addr = traffic.table.entrance addr ∨
      (traffic.table.entrance addr).state ≠ .compiled ∧
        ∃ state ≠ .compiled, after.table.entrance addr = { state })
    (awaited : ∀ {addr}, after.table.entrance addr = .visited →
      addr ∈ after.table.queue ∨ after.InFlight addr) : after.Consistent := by
  refine ⟨fun addr => ?_, functions_eq ▸ consistent.nodup, ?_, ?_, ?_, awaited⟩
  · rcases cases addr with same | ⟨-, state, free, changed⟩
    · rw [same]
      exact consistent.formed addr
    · rw [changed]
      exact ⟨fun compiled => absurd compiled free, nofun⟩
  · rw [functions_eq]
    exact consistent.keyed
  · intro entry function listed
    rw [functions_eq] at listed
    have compiled := consistent.installed listed
    rcases cases entry with same | ⟨free, -⟩
    · exact same.trans compiled
    · exact absurd (congrArg Entrance.state compiled) free
  · intro addr function compiled
    rw [functions_eq]
    rcases cases addr with same | ⟨-, state, free, changed⟩
    · exact consistent.held (same.symm.trans compiled)
    · exact absurd (congrArg Entrance.state (changed.symm.trans compiled)) free

/-- What changes nothing but the places where addresses wait. -/
theorem of_waiting (functions_eq : after.table.functions = traffic.table.functions)
    (entrance_eq : ∀ addr, after.table.entrance addr = traffic.table.entrance addr)
    (waiting : ∀ addr, addr ∈ traffic.table.queue ∨ traffic.InFlight addr →
      addr ∈ after.table.queue ∨ after.InFlight addr) : after.Consistent :=
  consistent.of_uncompiled functions_eq (fun addr => .inl (entrance_eq addr))
    fun visited => waiting _ (consistent.awaited ((entrance_eq _).symm.trans visited))

theorem visit (addr : Address) : (traffic.visit addr).Consistent := by
  obtain ⟨entrances, shape⟩ := traffic.table.visit_shape addr
  have view {other} : (traffic.visit addr).table.entrance other = _ :=
    entrance_visit consistent.formed
  refine consistent.of_uncompiled (congrArg functions shape :) (fun other => ?_)
    fun {other} visited => ?_
  · rw [view]
    split
    next new =>
      have known : traffic.table.hasState .unvisited addr := (Bool.and_eq_true_iff.mp new.1).2
      refine .inr ⟨?_, .visited, by simp, rfl⟩
      rw [new.2, (hasState_iff.mp known).2]
      simp
    · exact .inl rfl
  · rw [view] at visited
    have queue_eq : (traffic.visit addr).table.queue = _ := congrArg queue shape
    rw [queue_eq]
    split at visited
    next new =>
      rw [if_pos new.1, new.2]
      exact .inl (mem_append_right _ (mem_singleton.mpr rfl))
    · refine (consistent.awaited visited).imp_left fun queued => ?_
      split
      · exact mem_append_left _ queued
      · exact queued

theorem awaited_settle (attempt : Attempt) (table : JumpTable)
    (ne : other ≠ attempt.address) (visited : traffic.table.entrance other = .visited) :
    other ∈ traffic.table.queue ∨ (traffic.settle attempt table).InFlight other := by
  refine (consistent.awaited visited).imp_right (Or.imp_right ?_)
  rintro ⟨started, listed, rfl⟩
  have kept : started ≠ attempt := fun same => ne (congrArg Attempt.address same)
  exact ⟨started, (mem_erase_of_ne kept).mpr listed, rfl⟩

theorem setState
    (waits : traffic.table.hasState .visited attempt.address) (free : state ≠ .compiled)
    (ended : state ≠ .visited) :
    (traffic.settle attempt (traffic.table.setState attempt.address state)).Consistent := by
  have same := sameBooks_setState traffic.table attempt.address state
  have view := entrance_setState consistent.formed waits (by simp) state
  refine consistent.of_uncompiled (congrArg functions same :) (fun other => ?_)
    fun {other} visited => ?_
  · dsimp only [settle]
    rw [view]
    split
    next here =>
      refine .inr ⟨?_, state, free, rfl⟩
      rw [here, (hasState_iff.mp waits).2]
      simp
    · exact .inl rfl
  · dsimp only [settle] at visited ⊢
    rw [view] at visited
    split at visited
    · exact absurd (congrArg Entrance.state visited) ended
    next ne =>
      rw [congrArg queue same]
      exact consistent.awaited_settle attempt _ ne visited

theorem install (visited : traffic.table.entrance attempt.address = .visited)
    (entry_eq : function.entry = attempt.address)
    (entered : attempt.address ∈ function.enterAddresses)
    (whole : ∀ range ∈ function.ranges, range.size ≠ 0) :
    (traffic.settle attempt (traffic.table.install attempt.address function)).Consistent := by
  have installed := installed_install (isSome_index?_of_visited visited) function
  generalize traffic.table.install attempt.address function = table at installed ⊢
  have functions_eq := congrArg functions installed.shape_eq
  -- The address waited, so that no function of its own was kept.
  have unknown {known} : (attempt.address, known) ∉ traffic.table.functions := by
    intro listed
    cases visited.symm.trans (consistent.installed listed)
  have mem_functions {entry known} : (entry, known) ∈ table.functions ↔
        entry = attempt.address ∧ known = function ∨ (entry, known) ∈ traffic.table.functions := by
    rw [functions_eq, putFunction, mem_cons, mem_filter, Prod.mk.injEq]
    refine or_congr_right ⟨And.left, fun listed => ⟨listed, ?_⟩⟩
    have ne : entry ≠ attempt.address := by
      rintro rfl
      exact unknown listed
    simpa using ne
  refine ⟨fun other => ?_, ?_, ?_, ?_, ?_, ?_⟩
  · by_cases here : other = attempt.address
    · subst here
      dsimp only [settle]
      rw [installed.entrance_eq]
      exact ⟨fun _ => rfl, fun _ => rfl⟩
    · dsimp only [settle]
      rcases installed.cases other here with same | ⟨new, -⟩
      · rw [same]
        exact consistent.formed other
      · rw [new]
        exact ⟨fun _ => rfl, fun _ => rfl⟩
  · dsimp only [settle]
    rw [functions_eq, putFunction, map_cons, nodup_cons]
    exact ⟨by simp, consistent.nodup.sublist (filter_sublist.map _)⟩
  · intro entry known listed
    rcases mem_functions.mp listed with ⟨rfl, rfl⟩ | before
    · exact ⟨entry_eq, whole⟩
    · exact consistent.keyed before
  · intro entry known listed
    rcases mem_functions.mp listed with ⟨rfl, rfl⟩ | before
    · exact installed.entrance_eq
    · have compiled := consistent.installed before
      have ne : entry ≠ attempt.address := by
        rintro rfl
        exact unknown before
      rcases installed.cases entry ne with same | ⟨-, -, free⟩
      · exact same.trans compiled
      · exact absurd (congrArg Entrance.state compiled) free
  · intro other known compiled
    have own : (function.entry, function) ∈ table.functions :=
      mem_functions.mpr (.inl ⟨entry_eq, rfl⟩)
    by_cases here : other = attempt.address
    · subst here
      cases installed.entrance_eq.symm.trans compiled
      exact ⟨own, entered⟩
    · rcases installed.cases other here with same | ⟨new, listed, -⟩
      · obtain ⟨kept, enters⟩ := consistent.held (same.symm.trans compiled)
        exact ⟨mem_functions.mpr (.inr kept), enters⟩
      · cases new.symm.trans compiled
        exact ⟨own, listed⟩
  · intro other waits
    have ne : other ≠ attempt.address := by
      rintro rfl
      cases installed.entrance_eq.symm.trans waits
    rcases installed.cases other ne with same | ⟨new, -, -⟩
    · dsimp only [settle]
      rw [congrArg queue installed.shape_eq]
      exact consistent.awaited_settle attempt _ ne (same.symm.trans waits)
    · cases new.symm.trans waits

theorem finish (outcome_ok : ∀ {function}, outcome = .ok function →
      function.entry = attempt.address ∧ attempt.address ∈ function.enterAddresses ∧
        ∀ range ∈ function.ranges, range.size ≠ 0) :
    (traffic.finish attempt outcome).Consistent := by
  unfold Traffic.finish JumpTable.finish
  split
  next gone =>
    refine consistent.of_uncompiled rfl (fun _ => .inl rfl) fun {other} visited => ?_
    refine consistent.awaited_settle attempt _ ?_ visited
    rintro rfl
    rw [(hasState_visited_iff consistent.formed).mpr visited] at gone
    cases gone
  next waiting =>
    have waits : traffic.table.hasState .visited attempt.address = true := by simpa using waiting
    split
    · exact consistent.setState waits (by simp) (by simp)
    · cases outcome with
      | error fault =>
        have failed : (traffic.settle attempt
            (traffic.table.setState attempt.address .failed)).Consistent :=
          consistent.setState waits (by simp) (by simp)
        exact ⟨failed.formed, failed.nodup, failed.keyed, failed.installed, failed.held,
          failed.awaited⟩
      | ok function =>
        obtain ⟨entry_eq, entered, whole⟩ := outcome_ok rfl
        exact consistent.install ((hasState_visited_iff consistent.formed).mp waits) entry_eq
          entered whole

theorem invalidate (range : AddressRange) : (traffic.invalidate range).Consistent := by
  refine ⟨fun addr => ?_, consistent.nodup.sublist (filter_sublist.map _),
    fun listed => consistent.keyed (mem_functions_invalidate.mp listed).1, ?_, ?_, ?_⟩
  · obtain ⟨place, -, entrance_eq⟩ := entrance_invalidate traffic.table range addr
    dsimp only [Traffic.invalidate]
    rw [entrance_eq, afterDrop]
    split
    · exact ⟨nofun, nofun⟩
    · exact consistent.formed addr
  · intro entry function listed
    obtain ⟨kept, apart⟩ := mem_functions_invalidate.mp listed
    have compiled := consistent.installed kept
    obtain ⟨place, -, entrance_eq⟩ := entrance_invalidate traffic.table range entry
    refine entrance_eq.trans (afterDrop_eq_compiled_iff.mpr ⟨compiled, ?_⟩)
    rw [(consistent.keyed kept).1, mem_overlapping]
    rintro ⟨known, knownListed, meets⟩
    cases compiled.symm.trans (consistent.installed knownListed)
    rw [apart] at meets
    cases meets
  · intro addr function compiled
    obtain ⟨place, -, entrance_eq⟩ := entrance_invalidate traffic.table range addr
    obtain ⟨before, stays⟩ := afterDrop_eq_compiled_iff.mp (entrance_eq.symm.trans compiled)
    obtain ⟨kept, enters⟩ := consistent.held before
    refine ⟨mem_functions_invalidate.mpr ⟨kept, ?_⟩, enters⟩
    rw [Bool.eq_false_iff]
    exact fun meets => stays (mem_overlapping.mpr ⟨_, kept, meets⟩)
  · intro addr visited
    obtain ⟨place, -, entrance_eq⟩ := entrance_invalidate traffic.table range addr
    exact consistent.awaited (afterDrop_eq_visited_iff.mp (entrance_eq.symm.trans visited))

theorem step (step : Step traffic after) : after.Consistent := by
  cases step with
  | visit addr => exact consistent.visit addr
  | take =>
    refine consistent.of_waiting rfl (fun _ => rfl) fun addr waits => .inr ?_
    rcases waits with queued | taken | started
    · exact .inl (mem_append_right _ queued)
    · exact .inl (mem_append_left _ taken)
    · exact .inr started
  | @start first =>
    refine consistent.of_waiting rfl (fun _ => rfl) fun addr => Or.imp_right fun flying => ?_
    rcases flying with taken | ⟨attempt, started, same⟩
    · by_cases here : addr = first
      · exact .inr ⟨_, mem_cons_self, here.symm⟩
      · exact .inl ((mem_erase_of_ne here).mpr taken)
    · exact .inr ⟨attempt, mem_cons_of_mem _ started, same⟩
  | finish _ config store memory => exact consistent.finish entered_of_compile
  | @requeue first =>
    refine consistent.of_waiting rfl (fun _ => rfl) fun addr waits => ?_
    rcases waits with queued | taken | started
    · exact .inl (mem_append_left _ queued)
    · by_cases here : addr = first
      · exact .inl (mem_append_right _ (mem_singleton.mpr here))
      · exact .inr (.inl ((mem_erase_of_ne here).mpr taken))
    · exact .inr (.inr started)
  | invalidate range => exact consistent.invalidate range
  | forget => exact consistent_of_unvisited rfl (entrance_reset traffic.table)
  | enable => exact consistent.of_waiting rfl (fun _ => rfl) fun _ waits => waits

end Consistent

theorem Reachable.consistent (reachable : Reachable region mode traffic) : traffic.Consistent := by
  induction reachable with
  | initial => exact consistent_of_unvisited rfl (entrance_ofRegion region mode)
  | step _ step ih => exact ih.step step

theorem entrance_of_lookup {table : JumpTable} (found : table.lookup addr = some function) :
    table.entrance addr = .compiled function := by
  unfold lookup at found
  split at found
  next compiled =>
    rw [Bool.and_eq_true, decide_eq_true_eq] at compiled
    exact congrArg₂ Entrance.mk compiled.2 found
  · cases found

/-- Whatever visits, compilations and invalidations did and in whichever order: entrances and
functions fit, no address that was visited is lost, a function that is looked up has a segment that
is entered at the address, and behind an invalidation no function with a byte in the range is
looked up. -/
theorem table_stays_consistent
    {region : AddressRange}
    {mode : ExecutionMode}
    {traffic : Traffic}
    (reachable : Reachable region mode traffic) :
    (∀ address, (traffic.table.entrance address).name = "compiled" ↔
      (traffic.table.entrance address).function?.isSome = true) ∧
    (∀ entry function, (entry, function) ∈ traffic.table.functions →
      traffic.table.entrance entry = .compiled function) ∧
    (∀ address function, traffic.table.entrance address = .compiled function →
      (function.entry, function) ∈ traffic.table.functions) ∧
    (∀ address, traffic.table.entrance address = .visited →
      address ∈ traffic.table.queue ∨ traffic.InFlight address) ∧
    (∀ address function, traffic.table.lookup address = some function →
      ∃ id ∈ function.graph.order, (function.graph.segment id).enterable = true ∧
        (function.graph.segment id).enterAddress = address) ∧
    ∀ range address function, (traffic.table.invalidate range).lookup address = some function →
      ∀ own ∈ function.ranges, ∀ byte : Nat,
        own.start.toNat ≤ byte ∧ byte < own.start.toNat + own.size.toNat →
        ¬(range.start.toNat ≤ byte ∧ byte < range.start.toNat + range.size.toNat) := by
  have consistent := reachable.consistent
  refine ⟨fun address => ?_, fun _ _ => consistent.installed, fun _ _ compiled =>
    (consistent.held compiled).1, fun _ => consistent.awaited, ?_, ?_⟩
  · refine Iff.trans ?_ (consistent.formed address)
    rw [Entrance.name]
    cases (traffic.table.entrance address).state <;> decide
  · intro address function found
    obtain ⟨segment, listed, rfl⟩ :=
      List.mem_map.mp (consistent.held (entrance_of_lookup found)).2
    obtain ⟨inside, enterable⟩ := List.mem_filter.mp listed
    obtain ⟨id, member, rfl⟩ := List.mem_map.mp inside
    exact ⟨id, member, enterable, rfl⟩
  · intro range address function found own listed byte ⟨lower, upper⟩ ⟨start, stop⟩
    have kept := ((consistent.invalidate range).held (entrance_of_lookup found)).1
    have apart : function.overlaps range = false := by
      simpa using (List.mem_filter.mp kept).2
    rw [CompiledFunction.overlaps, List.any_eq_false] at apart
    refine apart own listed ?_
    simp only [Bool.and_eq_true, decide_eq_true_eq]
    omega

/-! ## A function of one word -/

/-- A memory that holds nothing but a return. -/
def loneReturn : Memory where
  read addr := if addr = 0x1000 then .word 0x4E800020 else .refused (.plain "no word")
  slice _ _ := .error (.plain "no bytes")

theorem generate_of_track {memory limit size} (pos : 0 < limit)
    (tracked : track { memory, limit := ofInt limit } entry = .ok ⟨entry, size⟩) :
    Stream.generate memory { entry, inlines := true, limit } =
      Stream.ofRange memory { entry, inlines := true, limit } size := by
  have extent : Stream.extent memory { entry, inlines := true, limit } = .ok size := by
    rw [Stream.extent, if_neg (Int.lt_irrefl 0)]
    dsimp only
    rw [if_pos pos, tracked]
    rfl
  rw [Stream.generate, extent]
  rfl

theorem track_loneReturn :
    track { memory := loneReturn, limit := ofInt 4096 } 0x1000 = .ok ⟨0x1000, 4⟩ := by
  have walked : walk { memory := loneReturn, limit := ofInt 4096 }
      ⟨0x1000, 0x4000⟩ 16384 [0x1000] ∅ = .ok ((∅ : Std.HashSet Address).insert 0x1000) := by cbv
  have budget : (effectiveLimit
      { memory := loneReturn, limit := ofInt 4096 }).toNat * 4 = 16384 := by decide
  have window : window { memory := loneReturn, limit := ofInt 4096 } 0x1000 =
      ⟨0x1000, 0x4000⟩ := by decide
  rw [track, budget, window, walked]
  simp [bind, Except.bind, Std.HashSet.size_insert, run]

theorem exists_compile_loneReturn :
    ∃ function, contain (compile {} none loneReturn { entry := 0x1000 }).result = .ok function ∧
      function.ranges = [⟨0x1000, 4⟩] := by
  have done : (pipeline {} loneReturn { entry := 0x1000 } 0).toOption.any
      (fun function => decide (function.ranges = [⟨0x1000, 4⟩])) = true := by
    have generated := generate_of_track (by decide) track_loneReturn
    unfold pipeline
    rw [generated]
    decide +kernel
  obtain ⟨function, outcome, ranges_eq⟩ := of_any_toOption done
  refine ⟨function, ?_, of_decide_eq_true ranges_eq⟩
  simp [compile, plan, outcome, contain]

/-- The first word of a region is being compiled. -/
def compiling : Traffic :=
  ((ofRegion ⟨0x1000, 8⟩ .recompiler).visit 0x1000).take.start 0x1000

/-- Its compilation ended. -/
def ended (config : Compiler.Config) (memory : Memory) : Traffic :=
  compiling.finish ⟨0x1000, 0, 3⟩
    (contain (compile config none memory { entry := 0x1000 }).result)

theorem reachable_compiling : Reachable ⟨0x1000, 8⟩ .recompiler compiling := by
  have taken : Reachable ⟨0x1000, 8⟩ .recompiler _ :=
    .step (.step .initial (.visit _ 0x1000)) (.take _)
  exact taken.step (.start _ (by decide))

theorem compiling_waits : compiling.table.entrance 0x1000 = .visited := rfl

theorem reachable_ended (config : Compiler.Config) (memory : Memory) :
    Reachable ⟨0x1000, 8⟩ .recompiler (ended config memory) :=
  .step reachable_compiling (.finish compiling (by decide) config none memory)

theorem ended_shape (config : Compiler.Config) (memory : Memory) :
    (ended config memory).table.base = 0x1000 ∧ (ended config memory).table.enabled = true := by
  obtain ⟨entrances, functions, failures, shape⟩ := compiling.table.finish_shape 0x1000 0
    (contain (compile config none memory { entry := 0x1000 }).result)
  exact ⟨(congrArg JumpTable.base shape).trans rfl, (congrArg JumpTable.enabled shape).trans rfl⟩

theorem exists_installed :
    ∃ function : CompiledFunction, function.ranges = [⟨0x1000, 4⟩] ∧
      (ended {} loneReturn).table.entrance 0x1000 = .compiled function ∧
      (0x1000, function) ∈ (ended {} loneReturn).table.functions := by
  obtain ⟨function, compiled, ranges_eq⟩ := exists_compile_loneReturn
  have installed : (ended {} loneReturn).table.entrance 0x1000 = .compiled function := by
    rw [ended, compiled]
    exact entrance_finish_of_visited reachable_compiling.consistent.formed compiling_waits function
  have kept := ((reachable_ended {} loneReturn).consistent.held installed).1
  rw [(entered_of_compile compiled).1] at kept
  exact ⟨function, ranges_eq, installed, kept⟩

/-- The return was in flight while it was compiled, it is found and entered then, and it is not
found any more once a byte of it changed. -/
theorem return_is_found_until_changed :
    Reachable ⟨0x1000, 8⟩ .recompiler compiling ∧ compiling.InFlight 0x1000 ∧
    Reachable ⟨0x1000, 8⟩ .recompiler (ended {} loneReturn) ∧
    ∃ function, (ended {} loneReturn).table.lookup 0x1000 = some function ∧
      ((ended {} loneReturn).table.entrance 0x1000).name = "compiled" ∧
      (function.entry, function) ∈ (ended {} loneReturn).table.functions ∧
      (∃ id ∈ function.graph.order, (function.graph.segment id).enterable = true ∧
        (function.graph.segment id).enterAddress = 0x1000) ∧
      ((ended {} loneReturn).table.invalidate ⟨0x1002, 1⟩).lookup 0x1000 ≠ some function := by
  obtain ⟨-, -, -, awaited, -⟩ := table_stays_consistent reachable_compiling
  obtain ⟨named, -, kept, -, entered, dropped⟩ :=
    table_stays_consistent (reachable_ended {} loneReturn)
  obtain ⟨function, ranges_eq, installed, -⟩ := exists_installed
  have found : (ended {} loneReturn).table.lookup 0x1000 = some function := by
    rw [lookup, (ended_shape ..).2, installed]
    rfl
  refine ⟨reachable_compiling, (awaited _ compiling_waits).resolve_left not_mem_nil,
    reachable_ended .., function, found, (named _).mpr (by rw [installed]; rfl),
    kept _ _ installed, entered _ _ found, fun stays => ?_⟩
  exact dropped _ _ _ stays ⟨0x1000, 4⟩ (by simp [ranges_eq]) 0x1002 (by decide) (by decide)

end Traffic

end JumpTable
end Dynarec
