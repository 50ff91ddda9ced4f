import Dynarec.JumpTable.Queue
import Dynarec.Proofs.JumpTable.Freshness

/-!
# Compilations that end in any order

The workers that process a queue end their compilations in whichever order time
brings about.  The end of a compilation changes the entrances that its function
can be entered at, and nothing else depends on them.  So compilations whose
functions are entered at different addresses lead to one table.
-/

namespace Dynarec

open Compiler List
variable {addresses : List Address}

namespace JumpTable

/-- What the compilations of a batch come to, by address. -/
abbrev Outcomes := Address → Except Fault CompiledFunction

/-- The end of a compilation in the epoch in which it was started. -/
def conclude (outcomes : Outcomes) (table : JumpTable) (addr : Address) : JumpTable :=
  table.finish addr table.epoch (outcomes addr)

/-- The addresses whose entrances the end of a compilation may change. -/
def reached (outcomes : Outcomes) (addr : Address) : List Address :=
  addr ::
    match outcomes addr with
    | .ok function => function.enterAddresses
    | .error _ => []

section

variable {table : JumpTable}

theorem setEntrance_comm (ne : addr ≠ other) (entrance otherEntrance : Entrance) :
    (table.setEntrance addr entrance).setEntrance other otherEntrance =
      (table.setEntrance other otherEntrance).setEntrance addr entrance := by
  rw [setEntrance, index?_setEntrance]
  conv => rhs; rw [setEntrance, index?_setEntrance]
  cases found : table.index? addr with
  | none => cases otherFound : table.index? other <;> simp [setEntrance, found, otherFound]
  | some index =>
    cases otherFound : table.index? other with
    | none => simp [setEntrance, found, otherFound]
    | some otherIndex =>
      have apart : index ≠ otherIndex := by
        rintro rfl
        exact ne (index?_inj found otherFound)
      simp only [setEntrance, found, otherFound]
      rw [Array.setIfInBounds_comm _ _ apart]

theorem entrance_setEntrance_of_ne (ne : other ≠ addr) (entrance : Entrance) :
    (table.setEntrance addr entrance).entrance other = table.entrance other := by
  rw [entrance_setEntrance, if_neg fun both => ne both.1]

theorem setState_setEntrance_comm (ne : addr ≠ other) (state : Entrance.State)
    (entrance : Entrance) :
    (table.setEntrance other entrance).setState addr state =
      (table.setState addr state).setEntrance other entrance := by
  rw [setState, setState, entrance_setEntrance_of_ne ne, setEntrance_comm ne]

/-- What leaves entrances alone and does not matter to setting them can as well be done behind
adding them. -/
theorem foldl_addEntrance_comm (change : JumpTable → JumpTable)
    (entrance_eq : ∀ table, ∀ other ∈ addresses,
      (change table).entrance other = table.entrance other)
    (setEntrance_eq : ∀ table, ∀ other ∈ addresses, ∀ entrance,
      (change table).setEntrance other entrance = change (table.setEntrance other entrance))
    (function : CompiledFunction) (table : JumpTable) :
    addresses.foldl (addEntrance function) (change table) =
      change (addresses.foldl (addEntrance function) table) := by
  induction addresses generalizing table with
  | nil => rfl
  | cons first rest ih =>
    have added : (change table).addEntrance function first =
        change (table.addEntrance function first) := by
      unfold addEntrance
      rw [entrance_eq table first mem_cons_self]
      split
      · rfl
      · exact setEntrance_eq table first mem_cons_self _
    rw [foldl_cons, foldl_cons, added]
    exact ih (fun table _ listed => entrance_eq table _ (mem_cons_of_mem _ listed))
      (fun table _ listed => setEntrance_eq table _ (mem_cons_of_mem _ listed)) _

end

/-- The entrances behind the end of a compilation. -/
def mark (outcomes : Outcomes) (table : JumpTable) (addr : Address) : JumpTable :=
  if table.hasState .visited addr then
    match outcomes addr with
    | .error _ => table.setState addr .failed
    | .ok function =>
        (function.enterAddresses.filter (· ≠ addr)).foldl (addEntrance function)
          (table.setEntrance addr (.compiled function))
  else table

/-- The function that the end of a compilation adds to those that are kept. -/
def newFunction? (outcomes : Outcomes) (table : JumpTable) (addr : Address) :
    Option CompiledFunction :=
  if table.hasState .visited addr then (outcomes addr).toOption else none

/-- Whether the end of a compilation counts as a failure. -/
def newFailure (outcomes : Outcomes) (table : JumpTable) (addr : Address) : Bool :=
  table.hasState .visited addr && !(outcomes addr).isOk

/-- A table without its functions and without the number of failures. -/
def bare (table : JumpTable) : JumpTable :=
  { table with functions := [], failures := 0 }

section

theorem mem_reached_of_mem_filter (outcome : outcomes addr = .ok function)
    (listed : other ∈ function.enterAddresses.filter (· ≠ addr)) :
    other ∈ reached outcomes addr := by
  refine mem_cons_of_mem _ ?_
  rw [outcome]
  exact mem_of_mem_filter listed

theorem mark_setEntrance (apart : other ∉ reached outcomes addr) (entrance : Entrance) :
    mark outcomes (table.setEntrance other entrance) addr =
      (mark outcomes table addr).setEntrance other entrance := by
  have ne : addr ≠ other := fun same => apart (same ▸ mem_cons_self)
  have waits_eq : (table.setEntrance other entrance).hasState .visited addr =
      table.hasState .visited addr := by
    rw [hasState_visited, hasState_visited, entrance_setEntrance_of_ne ne]
  unfold mark
  rw [waits_eq]
  split
  · cases outcome : outcomes addr with
    | error fault => exact setState_setEntrance_comm ne _ _
    | ok function =>
      have outside {entered} (listed : entered ∈ _) : entered ≠ other :=
        ne_of_mem_of_not_mem (mem_reached_of_mem_filter outcome listed) apart
      dsimp only
      rw [setEntrance_comm ne.symm]
      exact foldl_addEntrance_comm (setEntrance · other entrance)
        (fun _ _ listed => entrance_setEntrance_of_ne (outside listed) _)
        (fun _ _ listed _ => setEntrance_comm (outside listed).symm _ _) _ _
  · rfl

theorem entrance_mark (apart : other ∉ reached outcomes addr) :
    (mark outcomes table addr).entrance other = table.entrance other := by
  have ne : other ≠ addr := fun same => apart (same ▸ mem_cons_self)
  unfold mark
  split
  · cases outcome : outcomes addr with
    | error fault => exact entrance_setEntrance_of_ne ne _
    | ok function =>
      rcases (added_foldl_addEntrance function _ _).cases other with same | ⟨_, listed, _⟩
      · rw [same, entrance_setEntrance_of_ne ne]
      · exact absurd (mem_reached_of_mem_filter outcome listed) apart
  · rfl

theorem hasState_mark (apart : other ∉ reached outcomes addr) :
    (mark outcomes table addr).hasState .visited other = table.hasState .visited other := by
  rw [hasState_visited, hasState_visited, entrance_mark apart]

theorem mark_comm (apart : (reached outcomes addr).Disjoint (reached outcomes other)) :
    mark outcomes (mark outcomes table addr) other =
      mark outcomes (mark outcomes table other) addr := by
  have free {entered} (inside : entered ∈ reached outcomes addr) :
      entered ∉ reached outcomes other := fun both => apart inside both
  rw [mark.eq_1 outcomes table addr, mark.eq_1 outcomes (mark outcomes table other) addr,
    hasState_mark (free mem_cons_self)]
  split
  · cases outcome : outcomes addr with
    | error fault =>
      dsimp only [setState]
      rw [entrance_mark (free mem_cons_self)]
      exact mark_setEntrance (free mem_cons_self) _
    | ok function =>
      dsimp only
      rw [← mark_setEntrance (free mem_cons_self)]
      have apart {entered} (listed : entered ∈ _) : entered ∉ reached outcomes other :=
        free (mem_reached_of_mem_filter outcome listed)
      exact (foldl_addEntrance_comm _ (fun _ _ listed => entrance_mark (apart listed))
        (fun _ _ listed _ => (mark_setEntrance (apart listed) _).symm) _ _).symm
  · rfl

end

/-- What can be told about a table.  The order in which its functions are listed cannot. -/
structure View where
  /-- The table without its functions and without the number of failures. -/
  table : JumpTable
  functions : Address → Option CompiledFunction
  failures : Nat

/-- What can be told about a table. -/
def view (table : JumpTable) : View :=
  ⟨table.bare, fun entry => table.functions.lookup entry, table.failures⟩

/-- What can be told behind the end of a compilation. -/
def View.conclude (outcomes : Outcomes) (view : View) (addr : Address) : View where
  table := mark outcomes view.table addr
  functions entry :=
    if entry = addr then (newFunction? outcomes view.table addr).or (view.functions entry)
    else view.functions entry
  failures := view.failures + (newFailure outcomes view.table addr).toNat

theorem View.conclude_comm (apart : (reached outcomes addr).Disjoint (reached outcomes other))
    (view : View) :
    (view.conclude outcomes addr).conclude outcomes other =
      (view.conclude outcomes other).conclude outcomes addr := by
  have here : addr ∉ reached outcomes other := fun both => apart mem_cons_self both
  have there : other ∉ reached outcomes addr := fun both => apart both mem_cons_self
  have ne : addr ≠ other := fun same => here (same ▸ mem_cons_self)
  rw [View.mk.injEq]
  refine ⟨mark_comm apart, ?_, ?_⟩
  · funext entry
    simp only [View.conclude, newFunction?, hasState_mark here, hasState_mark there]
    by_cases first : entry = addr
    · subst first
      rw [if_neg ne, if_neg ne]
    · rw [if_neg first, if_neg first]
  · simp only [View.conclude, newFailure, hasState_mark here, hasState_mark there]
    exact Nat.add_right_comm _ _ _

section

variable {table : JumpTable}

theorem setEntrance_bare (entrance : Entrance) :
    table.bare.setEntrance addr entrance = (table.setEntrance addr entrance).bare := by
  have index?_eq : table.bare.index? addr = table.index? addr := rfl
  unfold setEntrance
  rw [index?_eq]
  cases table.index? addr <;> rfl

theorem lookup_putFunction (functions : List (Address × CompiledFunction))
    (function : CompiledFunction) (entry : Address) :
    (putFunction functions addr function).lookup entry =
      if entry = addr then some function else functions.lookup entry := by
  rw [putFunction, lookup_cons]
  split
  next same => rw [if_pos (by simpa using same)]
  next ne =>
    have apart : entry ≠ addr := by simpa using ne
    rw [if_neg apart]
    induction functions with
    | nil => rfl
    | cons first rest ih =>
      rw [filter_cons]
      split
      · rw [lookup_cons, lookup_cons, ih]
      next replaced =>
        have elsewhere : (entry == first.1) = false := by
          simp only [ne_eq, decide_not, Bool.not_eq_true', decide_eq_false_iff_not,
            Decidable.not_not] at replaced
          rw [replaced]
          exact beq_false_of_ne apart
        rw [ih, lookup_cons, elsewhere]

theorem bare_install (function : CompiledFunction) :
    (table.install addr function).bare =
      (function.enterAddresses.filter (· ≠ addr)).foldl (addEntrance function)
        (table.bare.setEntrance addr (.compiled function)) := by
  rw [setEntrance_bare, install]
  exact (foldl_addEntrance_comm bare (fun _ _ _ => rfl) (fun _ _ _ => setEntrance_bare) _ _).symm

theorem conclude_of_not_visited (gone : table.hasState .visited addr = false) :
    table.conclude outcomes addr = table := by
  simp [conclude, finish, gone]

theorem conclude_of_error (waits : table.hasState .visited addr)
    (outcome : outcomes addr = .error fault) :
    table.conclude outcomes addr =
      { table.setState addr .failed with failures := table.failures + 1 } := by
  have same := sameBooks_setState table addr .failed
  rw [conclude, outcome, finish]
  simp [waits, congrArg failures same]

theorem view_conclude :
    (table.conclude outcomes addr).view = table.view.conclude outcomes addr := by
  have waits_eq : table.bare.hasState .visited addr = table.hasState .visited addr := rfl
  unfold view View.conclude mark newFunction? newFailure
  cases waits : table.hasState .visited addr with
  | false => simp [waits_eq, waits, conclude_of_not_visited waits]
  | true =>
    simp only [waits_eq, waits]
    cases outcome : outcomes addr with
    | error fault =>
      have bare_eq : table.bare.setState addr .failed = (table.setState addr .failed).bare :=
        setEntrance_bare _
      rw [conclude_of_error waits outcome, bare_eq]
      have same := sameBooks_setState table addr .failed
      simp [congrArg functions same, Except.toOption, Except.isOk, Except.toBool, bare]
    | ok function =>
      have installed := installed_install (hasState_iff.mp waits).1 function
      rw [conclude, outcome, finish_of_ok waits, bare_install, installed.shape_eq]
      simp [lookup_putFunction, Except.toOption, Except.isOk, Except.toBool]

end

theorem view_foldl_conclude {batch order : List Address} (apart : batch.Pairwise fun addr other =>
      (reached outcomes addr).Disjoint (reached outcomes other)) (permuted : order.Perm batch)
    (table : JumpTable) :
    (order.foldl (conclude outcomes) table).view = (batch.foldl (conclude outcomes) table).view := by
  have viewed (order : List Address) table : (order.foldl (conclude outcomes) table).view =
        order.foldl (View.conclude outcomes) table.view := by
    induction order generalizing table with
    | nil => rfl
    | cons first rest ih =>
      rw [foldl_cons, foldl_cons, ih, view_conclude]
  rw [viewed, viewed]
  refine permuted.foldl_eq' (fun addr listed other otherListed view => ?_) _
  by_cases same : addr = other
  · rw [same]
  · have symmetric : Std.Symm fun addr other =>
        (reached outcomes addr).Disjoint (reached outcomes other) :=
      ⟨fun _ _ disjoint => disjoint.symm⟩
    refine View.conclude_comm ?_ view
    exact apart.forall (permuted.mem_iff.mp listed) (permuted.mem_iff.mp otherListed) same

theorem process_eq_foldl_conclude (table : JumpTable) (config : Compiler.Config) (memory : Memory) :
    (Recompiler.process { table, config } memory none).table =
      table.queue.foldl (conclude fun addr =>
        contain (compile config none memory { entry := addr }).result)
        table.takeQueue.2 := by
  rw [Recompiler.process]
  dsimp only [takeQueue]
  generalize ({ table with queue := [] } : JumpTable) = begun
  induction table.queue generalizing begun with
  | nil => rfl
  | cons first rest ih =>
    rw [foldl_cons, foldl_cons, ← ih]
    rfl

namespace Traffic

/-- What the workers do for a queue that was taken, while nothing is invalidated or reset. -/
inductive Work (outcomes : Outcomes) : Traffic → Traffic → Prop
  | start (traffic : Traffic) {addr : Address} (listed : addr ∈ traffic.taken) :
      Work outcomes traffic (traffic.start addr)
  | finish (traffic : Traffic) {attempt : Attempt} (listed : attempt ∈ traffic.running) :
      Work outcomes traffic (traffic.finish attempt (outcomes attempt.address))

/-- A table whose queue was taken. -/
def ofQueue (table : JumpTable) : Traffic :=
  { table := table.takeQueue.2, taken := table.takeQueue.1 }

/-- Nothing is left to do. -/
def IsIdle (traffic : Traffic) : Prop :=
  traffic.taken = [] ∧ traffic.running = []

/-- Of a queue that was taken, some compilations ended. -/
structure Advanced (outcomes : Outcomes) (table : JumpTable) (ended : List Address)
    (traffic : Traffic) : Prop where
  table_eq : traffic.table = ended.foldl (conclude outcomes) table.takeQueue.2
  perm : (ended ++ traffic.running.map Attempt.address ++ traffic.taken).Perm table.queue
  epoch_eq : ∀ attempt ∈ traffic.running, attempt.epoch = traffic.table.epoch

section

variable {table : JumpTable} {after : Traffic}

theorem Advanced.step (advanced : Advanced outcomes table past traffic)
    (work : Work outcomes traffic after) : ∃ past, Advanced outcomes table past after := by
  cases work with
  | @start addr listed =>
    refine ⟨past, advanced.table_eq, .trans ?_ advanced.perm, ?_⟩
    · dsimp only [Traffic.start]
      rw [map_cons, append_assoc, append_assoc, perm_append_left_iff]
      refine perm_middle.symm.trans (.append_left _ ?_)
      exact (perm_cons_erase listed).symm
    · exact forall_mem_cons.mpr ⟨rfl, advanced.epoch_eq⟩
  | @finish attempt listed =>
    refine ⟨past ++ [attempt.address], ?_, .trans ?_ advanced.perm, ?_⟩
    · rw [foldl_append, ← advanced.table_eq, Traffic.finish, advanced.epoch_eq attempt listed]
      rfl
    · have kept := (perm_cons_erase listed).map Attempt.address
      rw [append_assoc past, singleton_append]
      exact (kept.symm.append_left past).append_right _
    · intro other member
      exact (advanced.epoch_eq other (mem_of_mem_erase member)).trans (epoch_finish ..).symm

theorem exists_advanced (run : Relation.ReflTransGen (Work outcomes) (ofQueue table) traffic) :
    ∃ ended, Advanced outcomes table ended traffic := by
  induction run with
  | refl => exact ⟨[], rfl, .refl _, nofun⟩
  | tail _ work ih =>
    obtain ⟨ended, advanced⟩ := ih
    exact advanced.step work

theorem exists_run {order : List Address} (idle : traffic.running = [])
    (permuted : order.Perm traffic.taken) :
    ∃ last, Relation.ReflTransGen (Work outcomes) traffic last ∧ last.IsIdle ∧
      last.table = order.foldl (conclude outcomes) traffic.table := by
  induction order generalizing traffic with
  | nil =>
    rw [nil_perm] at permuted
    exact ⟨traffic, .refl, ⟨permuted, idle⟩, rfl⟩
  | cons first rest ih =>
    have listed : first ∈ traffic.taken := permuted.mem_iff.mp mem_cons_self
    let started := traffic.start first
    let attempt : Attempt := ⟨first, traffic.table.epoch, traffic.time + 1⟩
    let ended := started.finish attempt (outcomes first)
    have start : Work outcomes traffic started := .start traffic listed
    have finish : Work outcomes started ended := .finish started (mem_cons_self (a := attempt))
    have none_running : ended.running = [] := (erase_cons_head attempt traffic.running).trans idle
    have rest_taken : rest.Perm ended.taken := cons_perm_iff_perm_erase.mp permuted |>.2
    obtain ⟨last, run, done, table_eq⟩ := ih none_running rest_taken
    exact ⟨last, .head start (.head finish run), done, table_eq⟩

/-- It does not matter when the compilations of a queue end.  The workers can end them in every
order, and a recompiler on its own ends them in the order of the queue.  If the functions are
entered at different addresses, then whatever the workers do until nothing is left, the entrances,
the functions that are kept and the number of failures are the same. -/
theorem processing_ignores_timing
    (table : JumpTable)
    (outcomes : Outcomes) :
    (∀ order : List Address, order.Perm table.queue →
      ∃ last, Relation.ReflTransGen (Work outcomes) (ofQueue table) last ∧ last.IsIdle ∧
        last.table = order.foldl (conclude outcomes) table.takeQueue.2) ∧
    (∀ config memory, (∀ address, outcomes address =
        Compiler.contain (Compiler.compile config none memory { entry := address }).result) →
      (Recompiler.process { table, config } memory none).table =
        table.queue.foldl (conclude outcomes) table.takeQueue.2) ∧
    (table.queue.Pairwise
        (fun address other => (reached outcomes address).Disjoint (reached outcomes other)) →
      ∀ first second,
        Relation.ReflTransGen (Work outcomes) (ofQueue table) first → first.IsIdle →
        Relation.ReflTransGen (Work outcomes) (ofQueue table) second → second.IsIdle →
        first.table.entrances = second.table.entrances ∧
        (∀ entry, first.table.functions.lookup entry = second.table.functions.lookup entry) ∧
        first.table.failures = second.table.failures) := by
  refine ⟨fun order permuted => exists_run rfl permuted, fun config memory compiled => ?_, ?_⟩
  · rw [funext compiled]
    exact process_eq_foldl_conclude table config memory
  intro apart
  have settled {traffic : Traffic}
      (run : Relation.ReflTransGen (Work outcomes) (ofQueue table) traffic)
      (idle : traffic.IsIdle) :
      traffic.table.view = (table.queue.foldl (conclude outcomes) table.takeQueue.2).view := by
    obtain ⟨ended, advanced⟩ := exists_advanced run
    have permuted := advanced.perm
    rw [idle.1, idle.2, List.map_nil, List.append_nil, List.append_nil] at permuted
    rw [advanced.table_eq]
    exact view_foldl_conclude apart permuted _
  intro first second firstRun firstIdle secondRun secondIdle
  have same := (settled firstRun firstIdle).trans (settled secondRun secondIdle).symm
  rw [view, view, View.mk.injEq] at same
  exact ⟨congrArg (·.entrances) same.1, congrFun same.2.1, same.2.2⟩

end

def twoEntrances : CompiledFunction :=
  { entry := 0x1000
    graph :=
      { entry := 0x1000
        size := 8
        order := [0, 1]
        segments := #[
          { id := 0, enterable := true, enterAddress := 0x1000 },
          { id := 1, position := 1, enterable := true, enterAddress := 0x1004 }] }
    stats := {} }

/-- The function at the first address can be compiled, others cannot. -/
def onlyFirst : Outcomes := fun addr =>
  if addr = 0x1000 then .ok twoEntrances else .error (.invariant "refused")

/-- Two addresses that wait for their compilation. -/
def twoQueued : JumpTable :=
  ((JumpTable.ofRegion ⟨0x1000, 16⟩ .recompiler).visit 0x1000).visit 0x1008

theorem twoQueued_ignores_timing :
    ∃ first second,
      Relation.ReflTransGen (Work onlyFirst) (ofQueue twoQueued) first ∧
      Relation.ReflTransGen (Work onlyFirst) (ofQueue twoQueued) second ∧
      first.table = conclude onlyFirst (conclude onlyFirst twoQueued.takeQueue.2 0x1000) 0x1008 ∧
      second.table = conclude onlyFirst (conclude onlyFirst twoQueued.takeQueue.2 0x1008) 0x1000 ∧
      first.table.entrances = second.table.entrances ∧ first.table.failures = 1 := by
  have timing := processing_ignores_timing twoQueued onlyFirst
  have queue_eq : twoQueued.queue = [0x1000, 0x1008] := by decide
  obtain ⟨first, firstRun, firstIdle, firstTable⟩ := timing.1 [0x1000, 0x1008] (queue_eq ▸ .refl _)
  obtain ⟨second, secondRun, secondIdle, secondTable⟩ :=
    timing.1 [0x1008, 0x1000] (queue_eq ▸ .swap ..)
  have apart : twoQueued.queue.Pairwise fun address other =>
      (reached onlyFirst address).Disjoint (reached onlyFirst other) := by
    have disjoint : (reached onlyFirst 0x1000).all (· ∉ reached onlyFirst 0x1008) = true := by
      decide
    rw [queue_eq]
    exact List.pairwise_pair.mpr fun entered first second =>
      of_decide_eq_true (List.all_eq_true.mp disjoint entered first) second
  have same := timing.2.2 apart first second firstRun firstIdle secondRun secondIdle
  refine ⟨first, second, firstRun, secondRun, firstTable, secondTable, same.1, ?_⟩
  rw [firstTable]
  decide

end Traffic

end JumpTable
end Dynarec
