import Dynarec.Proofs.Allocation.View
import Dynarec.Proofs.Except
import Mathlib.Data.List.TakeWhile
import Mathlib.Logic.Relation

/-!
# What an assignment does to an allocation

However an assignment of registers goes, it consists of five kinds of changes:
a segment is put in order, a range gets a register, a subrange is split, a range
is replaced, and work is counted.  Splits and replacements in turn consist of
elementary edits.  What every edit keeps, every assignment keeps, whatever
graph it started from.
-/

namespace Dynarec.Allocation

open List Liveness

variable {alloc after : Allocation} {g : Graph} {id : SubrangeId} {motive : Allocation → Prop}

theorem loopDepth_le_maxLoopDepth {id} (mem : id ∈ g.order) :
    (g.segment id).loopDepth ≤ g.maxLoopDepth := by
  have bound : ∀ (depths : List Nat) (deepest : Nat), deepest ≤ depths.foldl max deepest ∧
      ∀ depth ∈ depths, depth ≤ depths.foldl max deepest := by
    intro depths
    induction depths with
    | nil => simp
    | cons first rest ih =>
      intro deepest
      obtain ⟨lower, others⟩ := ih (max deepest first)
      refine ⟨Nat.le_trans (Nat.le_max_left _ _) lower, ?_⟩
      exact forall_mem_cons.mpr ⟨Nat.le_trans (Nat.le_max_right _ _) lower, others⟩
  apply (bound _ 0).2
  exact mem_map.mpr ⟨g.segment id, mem_map.mpr ⟨id, mem, rfl⟩, rfl⟩

theorem mem_hottestFirst_iff {id} : id ∈ hottestFirst g ↔ id ∈ g.order := by
  simp only [hottestFirst, mem_flatMap, mem_reverse, mem_range, mem_filter, decide_eq_true_eq]
  constructor
  · rintro ⟨_, _, mem, _⟩
    exact mem
  · intro mem
    exact ⟨_, Nat.lt_succ_of_le (loopDepth_le_maxLoopDepth mem), mem, rfl⟩

theorem mem_allowed_of_free? {range} (found : alloc.free? range unused = some host) :
    host ∈ alloc.allowed range := by
  unfold free? at found
  split at found
  · cases found
  · simpa using find?_some found

/-- One change that an assignment makes. -/
inductive Change : Allocation → Allocation → Prop
  /-- The subranges of a segment are put in the order of their starts. -/
  | reorder {alloc : Allocation} {seg : SegmentId} (member : seg ∈ alloc.graph.order) :
      Change alloc (alloc.reorder seg (alloc.sortedIds seg))
  | assign {alloc : Allocation} {id : RangeId} {range : LiveRange} {host : HostRegister}
      (live : alloc.range? id = some range) (free : host ∈ alloc.allowed range) :
      Change alloc (alloc.modifyRange range.id ({ · with host }))
  | split {alloc result : Allocation} {id : SubrangeId} {place : Position}
      {tail : Option SubrangeId} (done : alloc.split id place true = .ok (result, tail)) :
      Change alloc result
  | explode {alloc : Allocation} {id : RangeId} {range : LiveRange}
      (live : alloc.range? id = some range) : Change alloc (alloc.explode id)
  /-- Work other than loads and stores is counted. -/
  | count {alloc : Allocation} {change : AllocationStats → AllocationStats}
      (loads_eq : ∀ stats, (change stats).loads = stats.loads)
      (stores_eq : ∀ stats, (change stats).stores = stats.stores) :
      Change alloc (alloc.tally change)

def Changes : Allocation → Allocation → Prop :=
  Relation.ReflTransGen Change

theorem getElem?_of_range? {id} (dead : alloc.range? id = none) :
    alloc.ranges[id]? = none ∨ alloc.ranges[id]? = some none := by
  rw [range?, Array.getD_eq_getD_getElem?] at dead
  cases entry : alloc.ranges[id]? with
  | none => exact .inl rfl
  | some value =>
    rw [entry, Option.getD_some] at dead
    exact .inr (congrArg some dead)

theorem modifyRange_eq_self {id} (dead : alloc.range? id = none)
    (change : LiveRange → LiveRange) : alloc.modifyRange id change = alloc := by
  have same : alloc.ranges.modify id (·.map change) = alloc.ranges := by
    refine Array.ext_getElem? fun other => ?_
    rw [Array.getElem?_modify]
    split
    next here =>
      subst here
      rcases getElem?_of_range? dead with entry | entry <;> rw [entry] <;> rfl
    · rfl
  rw [modifyRange, same]

theorem explode_eq_tally {id} (dead : alloc.range? id = none) :
    alloc.explode id = alloc.tally fun stats => { stats with explodes := stats.explodes + 1 } := by
  have same : alloc.ranges.setIfInBounds id none = alloc.ranges := by
    refine Array.ext_getElem? fun other => ?_
    rw [Array.getElem?_setIfInBounds]
    split
    next here =>
      subst here
      rcases getElem?_of_range? dead with entry | entry
      · rw [entry, if_neg (Nat.not_lt.mpr (Array.getElem?_eq_none_iff.mp entry))]
      · rw [entry, if_pos (Array.getElem?_eq_some_iff.mp entry).1]
    · rfl
  have empty : (alloc.range id).subranges = [] := by rw [range, dead]; rfl
  rw [explode, dropRange]
  simp only [empty, foldl_nil, same]

theorem changes_explode (id : RangeId) : Changes alloc (alloc.explode id) := by
  cases live : alloc.range? id with
  | some range => exact .single (.explode live)
  | none =>
    rw [explode_eq_tally live]
    exact .single (.count (by intro; rfl) (by intro; rfl))

/-- Whether an error says that two live ranges hold one register. -/
def Error.isClash : Error → Bool
  | .bothHold _ _ _ _ => true
  | _ => false

/-- An outcome that changes lead to, or an error that is no clash. -/
def Changing (before : Allocation) : Except Error Allocation → Prop
  | .ok after => Changes before after
  | .error error => error.isClash = false

theorem Changing.of_changes (changes : Changes before after) (changing : Changing after outcome) :
    Changing before outcome := by
  cases outcome with
  | ok last => exact changes.trans changing
  | error error => exact changing

theorem changing_split {next : Allocation → Except Error Allocation}
    (changing : ∀ middle, Changing middle (next middle)) :
    Changing alloc (do next (← alloc.split id place true).1) := by
  cases done : alloc.split id place true with
  | ok result => exact .of_changes (.single (.split done)) (changing result.1)
  | error error =>
    unfold split at done
    dsimp only at done
    split at done
    · cases done
      rfl
    · cases done

theorem changing_splitAhead (distance : Int) : Changing alloc (alloc.splitAhead sub distance) := by
  unfold splitAhead
  split
  · exact changing_split fun _ => .refl
  · exact .refl

theorem changing_explodeFor (strategy : Strategy RangeId) :
    Changing alloc (alloc.explodeFor sub strategy) :=
  .of_changes (changes_explode _) (changing_splitAhead _)

theorem changing_cutHole (strategy : Strategy SubrangeId) :
    Changing alloc (alloc.cutHole sub strategy) :=
  .of_changes (.single (.count (by intro; rfl) (by intro; rfl)))
    (changing_split fun _ => changing_splitAhead _)

theorem changing_useAvailable (strategy : Strategy HostRegister) :
    Changing alloc (alloc.useAvailable sub strategy) :=
  changing_split fun _ => .refl

theorem changing_explodeCheapest : Changing alloc (alloc.explodeCheapest sub live) := by
  unfold explodeCheapest
  dsimp only
  split
  · exact changes_explode _
  · rfl

theorem changing_resolveTight : Changing alloc (alloc.resolveTight seg sub live unused) := by
  unfold resolveTight
  split
  · exact changing_cutHole _
  · split
    · exact changing_useAvailable _
    · split
      · exact changing_explodeFor _
      · rfl

theorem changing_resolveConflict : Changing alloc (alloc.resolveConflict seg sub live unused) := by
  unfold resolveConflict
  split
  · exact changing_explodeCheapest
  · dsimp only
    split
    · exact changing_explodeFor _
    · exact changing_useAvailable _
    · exact changing_cutHole _
    · split
      · exact changes_explode _
      · exact changing_resolveTight

def Pass.last : Pass → Allocation
  | .complete last => last
  | .changed last => last

theorem changes_assignFrom {pass}
    (done : assignFrom seg ids live alloc = .ok pass) : Changes alloc pass.last := by
  induction ids generalizing live alloc with
  | nil =>
    cases done
    exact .refl
  | cons id rest ih =>
    unfold assignFrom at done
    dsimp only at done
    split at done
    · split at done
      · cases done
      · exact ih done
    · split at done
      next host free =>
        have further := ih done
        cases found : alloc.range? (alloc.subrange id).range with
        | some range =>
          rw [range_eq_of_some found] at free further
          exact .head (.assign found (mem_allowed_of_free? free)) further
        | none =>
          have numbered : (alloc.range (alloc.subrange id).range).id =
              (alloc.subrange id).range := by rw [range, found]; rfl
          rwa [numbered, modifyRange_eq_self found] at further
      · obtain ⟨resolved, conflict, done⟩ := of_bind_eq_ok done
        cases done
        exact (conflict ▸ changing_resolveConflict :)

inductive Edit : Allocation → Allocation → Prop
  | reorder {alloc : Allocation} (seg : SegmentId) (ids : List SubrangeId) :
      Edit alloc (alloc.reorder seg ids)
  | assign {alloc : Allocation} (id : RangeId) {host : HostRegister}
      (listed : host ∈ alloc.hostRegisters) : Edit alloc (alloc.modifyRange id ({ · with host }))
  /-- Work other than loads and stores is counted. -/
  | count {alloc : Allocation} {change : AllocationStats → AllocationStats}
      (loads_eq : ∀ stats, (change stats).loads = stats.loads)
      (stores_eq : ∀ stats, (change stats).stores = stats.stores) : Edit alloc (alloc.tally change)
  /-- A range of its own is made for some accesses of a subrange; it stays in the segment. -/
  | isolate {alloc : Allocation} (id : SubrangeId) (reg : Register) (slot : Slot)
      (start : Position) {stop : Position} {locations : List Location} (accesses : locations ≠ [])
      (inside : locations ⊆ (alloc.subrange id).locations)
      (stays : stop = (alloc.subrange id).stop ∧ stop ≠ .atExit ∨
        ∃ last ∈ locations, last.index + 1 = stop) :
      Edit alloc ((alloc.addRange reg slot).addSubrange alloc.nextRange
        (alloc.subrange id).segment start stop locations)
  | shorten {alloc : Allocation} {id : SubrangeId} {sub : Subrange} {stop : Position}
      {locations : List Location} (found : alloc.subrange? id = some sub)
      (stays : sub.stop ≠ .atExit) (lower : stop ≤ sub.stop) (inside : locations ⊆ sub.locations) :
      Edit alloc (alloc.modifySubrange id ({ · with stop, locations }))
  | drop {alloc : Allocation} (id : RangeId) : Edit alloc (alloc.dropRange id)

def Edits : Allocation → Allocation → Prop :=
  Relation.ReflTransGen Edit

theorem exists_subrange_of_start_lt (ordered : (alloc.subrange id).start < (alloc.subrange id).stop)
    : ∃ sub, alloc.subrange? id = some sub := by
  cases found : alloc.subrange? id with
  | some sub => exact ⟨sub, rfl⟩
  | none =>
    rw [subrange, found] at ordered
    exact absurd ordered (Int.lt_irrefl 0)

theorem edits_addTail (start : Position) (stays : (alloc.subrange id).stop ≠ .atExit)
    (inside : locations ⊆ (alloc.subrange id).locations) :
    Edits alloc (alloc.addTail (alloc.subrange id) start locations).1 := by
  unfold addTail
  split
  · exact .refl
  next accesses => exact .single (.isolate id _ _ start accesses inside (.inl ⟨rfl, stays⟩))

theorem subrange?_addTail (found : alloc.subrange? id = some sub) (start : Position)
    (locs : List Location) :
    (alloc.addTail sub start locs).1.subrange? id = some sub := by
  unfold addTail
  split
  · exact found
  · have old : id ≠ alloc.nextSubrange := Nat.ne_of_lt (lt_nextSubrange_of_subrange? found)
    rw [subrange?_addSubrange, nextSubrange_addRange, if_neg old, subrange?_addRange, found]

theorem edits_split {tail}
    (done : alloc.split id place trim = .ok (result, tail)) : Edits alloc result := by
  unfold split at done
  dsimp only at done
  split at done
  · cases done
  next splittable =>
    simp only [isSplittable, Bool.not_eq_true', Bool.not_eq_false, Bool.and_eq_true,
      decide_eq_true_eq] at splittable
    obtain ⟨⟨stays, above⟩, below⟩ := splittable
    obtain ⟨sub, found⟩ := exists_subrange_of_start_lt (Int.lt_trans above below)
    cases done
    have same := subrange_eq_of_some found
    refine .tail ?_ (.count (by intro; rfl) (by intro; rfl))
    have isolated := fun start => edits_addTail start stays (dropWhile_subset (·.index < place))
    rw [same] at stays above below isolated ⊢
    refine .tail (isolated _) (.shorten (subrange?_addTail found _ _) stays ?_ ?_)
    case refine_2 => exact takeWhile_subset _
    have lower : ∀ last ∈ (sub.locations.takeWhile (·.index < place)).getLast?,
        last.index < place := by
      intro last final
      simpa using mem_takeWhile_imp (mem_of_getLast? final)
    split
    · exact Int.le_of_lt below
    · split
      next last final => have := lower last final; lia
      · lia

theorem edits_addLocal (range : LiveRange) (id : SubrangeId) :
    Edits alloc (addLocal range alloc id) := by
  unfold addLocal
  dsimp only
  split
  next first last head final =>
    have accesses : (alloc.subrange id).locations ≠ [] := by
      intro empty
      rw [empty] at head
      cases head
    exact .single (.isolate id _ _ _ accesses (List.Subset.refl _)
      (.inr ⟨last, mem_of_getLast? final, rfl⟩))
  · exact .refl

theorem edits_explode (id : RangeId) : Edits alloc (alloc.explode id) := by
  have isolated : Edits alloc
      ((alloc.range id).subranges.foldl (addLocal (alloc.range id)) alloc) := by
    refine List.foldlRecOn (motive := fun after => Edits alloc after) _ _ .refl ?_
    exact fun after edits mem _ => edits.trans (edits_addLocal _ mem)
  unfold explode
  exact .tail (.tail isolated (.drop id)) (.count (by intro; rfl) (by intro; rfl))

theorem Change.edits (change : Change before after) : Edits before after := by
  cases change with
  | reorder mem => exact .single (.reorder _ _)
  | assign live free => exact .single (.assign _ (mem_of_mem_filter free))
  | split done => exact edits_split done
  | explode live => exact edits_explode _
  | count loads_eq stores_eq => exact .single (.count loads_eq stores_eq)

theorem Changes.edits (changes : Changes before after) : Edits before after := by
  induction changes with
  | refl => exact .refl
  | tail _ change ih => exact ih.trans change.edits

theorem Edits.induction (edits : Edits before after) (start : motive before)
    (step : ∀ {before after}, Edit before after → motive before → motive after) : motive after := by
  induction edits with
  | refl => exact start
  | tail _ edit ih => exact step edit ih

theorem foldl_eq_of_step {α β : Type} (view : Allocation → β) (step : Allocation → α → Allocation)
    (view_step : ∀ alloc item, view (step alloc item) = view alloc) (items : List α)
    (alloc : Allocation) : view (items.foldl step alloc) = view alloc := by
  refine List.foldlRecOn (motive := fun after => view after = view alloc) _ _ rfl ?_
  exact fun after same item _ => (view_step after item).trans same

/-- What an assignment of registers works with and never changes: the graph, the number of host
registers and the loads and stores counted so far. -/
def setting (alloc : Allocation) : Graph × Int × Nat × Nat :=
  (alloc.graph, alloc.registers, alloc.stats.loads, alloc.stats.stores)

theorem Edit.setting_eq (edit : Edit before after) : after.setting = before.setting := by
  cases edit with
  | reorder seg ids => rfl
  | assign id listed => rfl
  | count loads_eq stores_eq => simp [setting, tally, loads_eq, stores_eq]
  | isolate id reg slot start accesses inside stays => rfl
  | shorten found stays lower inside => rfl
  | drop id =>
    exact (foldl_eq_of_step setting dropSubrange (fun _ _ => rfl) (before.range id).subranges
      before :)

theorem Edits.setting_eq (edits : Edits before after) : after.setting = before.setting :=
  edits.induction (motive := fun other => other.setting = before.setting) rfl
    fun edit same => edit.setting_eq.trans same

theorem Edits.graph_eq (edits : Edits before after) : after.graph = before.graph :=
  congrArg Prod.fst edits.setting_eq

theorem changes_assignSegments {pass} (members : ∀ seg ∈ segments, seg ∈ alloc.graph.order)
    (done : assignSegments segments alloc = .ok pass) : Changes alloc pass.last := by
  induction segments generalizing alloc with
  | nil =>
    cases done
    exact .refl
  | cons seg rest ih =>
    obtain ⟨mem, members⟩ := forall_mem_cons.mp members
    obtain ⟨first, assigned, done⟩ := of_bind_eq_ok done
    have changes : Changes alloc first.last := .head (.reorder mem) (changes_assignFrom assigned)
    cases first with
    | complete middle =>
      refine changes.trans (ih ?_ done)
      rwa [← changes.edits.graph_eq] at members
    | changed middle =>
      cases done
      exact changes

theorem exists_last_pass (done : settle limit passes alloc = .ok result) :
    ∃ last, Changes alloc last ∧
      assignSegments (hottestFirst last.graph) last = .ok (.complete result) := by
  induction passes generalizing alloc with
  | zero => cases done
  | succ passes ih =>
    obtain ⟨pass, assigned, done⟩ := of_bind_eq_ok done
    cases pass with
    | complete after =>
      cases done
      exact ⟨alloc, .refl, assigned⟩
    | changed middle =>
      obtain ⟨last, more, completes⟩ := ih done
      have changes := changes_assignSegments (fun _ => mem_hottestFirst_iff.mp) assigned
      exact ⟨last, (changes.tail (.count (by intro; rfl) (by intro; rfl))).trans more, completes⟩

theorem changes_settle (done : settle limit passes alloc = .ok result) : Changes alloc result := by
  obtain ⟨last, changes, completes⟩ := exists_last_pass done
  exact changes.trans (changes_assignSegments (fun _ => mem_hottestFirst_iff.mp) completes)

/-- What new ranges, new subranges and their links keep, the formation of ranges keeps. -/
theorem buildRanges_induction (liveness : Liveness) (start : motive alloc)
    (addRange : ∀ {alloc} (reg slot), motive alloc → motive (alloc.addRange reg slot))
    (addSubrange : ∀ {alloc} (range seg start stop locs),
      motive alloc → motive (alloc.addSubrange range seg start stop locs))
    (link : ∀ {alloc} (id taken notTaken), motive alloc →
      motive (alloc.modifySubrange id ({ · with taken, notTaken }))) :
    motive (liveness.buildRanges alloc) := by
  have grow reg bound work forming (holds : motive forming.allocation) :
      motive (liveness.grow reg bound work forming).allocation := by
    fun_induction grow with
    | case1 => exact holds
    | case2 => exact holds
    | case3 _ _ _ _ _ ih =>
      exact ih (addSubrange _ _ _ _ _ holds)
    | case4 _ _ _ _ _ ih => exact ih holds
  have form bound forming id reg (holds : motive forming.allocation) :
      motive (liveness.formRange bound forming id reg).allocation := by
    unfold formRange
    split
    · refine List.foldlRecOn (motive := fun after : Liveness.Forming => motive after.allocation) _ _
        (grow _ _ _ _ (addRange _ _ holds)) ?_
      intro after holds mem _
      unfold linkSubrange
      dsimp only
      split
      · exact holds
      · exact link _ _ _ holds
    · exact holds
  refine List.foldlRecOn (motive := fun after : Liveness.Forming => motive after.allocation) _ _
    start ?_
  intro forming holds id _
  refine List.foldlRecOn (motive := fun after : Liveness.Forming => motive after.allocation) _ _
    holds ?_
  exact fun forming holds reg _ => form _ forming id reg holds

theorem setting_buildRanges (liveness : Liveness) (alloc : Allocation) :
    (liveness.buildRanges alloc).setting = alloc.setting :=
  buildRanges_induction (motive := fun after => after.setting = alloc.setting) liveness rfl
    (fun _ _ same => same) (fun _ _ _ _ _ same => same) fun _ _ _ same => same

theorem graph_ofGraph (g : Graph) (regs : Int) : (ofGraph g regs).graph = g :=
  congrArg Prod.fst (setting_buildRanges _ _)

theorem registers_ofGraph (g : Graph) (regs : Int) :
    (ofGraph g regs).registers = regs :=
  congrArg (·.2.1) (setting_buildRanges _ _)

theorem restarts_ofGraph (g : Graph) (regs : Int) : (ofGraph g regs).stats.restarts = 0 :=
  buildRanges_induction (motive := fun after => after.stats.restarts = 0) _ rfl
    (fun _ _ same => same) (fun _ _ _ _ _ same => same) fun _ _ _ same => same

theorem host_buildRanges (liveness : Liveness) (g : Graph) (regs : Int) :
    ∀ id range, (liveness.buildRanges (.empty g regs)).range? id = some range →
      range.host = -1 := by
  refine buildRanges_induction (motive := fun alloc : Allocation => ∀ id range,
    alloc.range? id = some range → range.host = -1) liveness ?_ ?_ ?_ ?_
  · intro id range live
    cases live
  · intro alloc reg slot unassigned id range live
    rw [range?_addRange] at live
    split at live
    · cases live
      rfl
    · exact unassigned id range live
  · intro alloc target seg start stop locs unassigned id range live
    rw [range?_addSubrange] at live
    split at live
    · obtain ⟨old, known, rfl⟩ := Option.map_eq_some_iff.mp live
      exact unassigned id old known
    · exact unassigned id range live
  · exact fun _ _ _ unassigned => unassigned

theorem analyzeSync_induction (start : motive alloc)
    (step : ∀ {alloc} (id change), motive alloc → motive (alloc.modifySubrange id change))
    (count : ∀ {alloc}, motive alloc → motive (alloc.tally fun stats =>
      { stats with delayedStores := stats.delayedStores + 1 })) :
    motive alloc.analyzeSync := by
  have each (change : Subrange → Subrange) (ids : List SubrangeId) {alloc} (holds : motive alloc) :
      motive (ids.foldl (·.modifySubrange · change) alloc) :=
    List.foldlRecOn _ _ holds fun _ holds id _ => step id change holds
  refine List.foldlRecOn _ _ (each Subrange.sync _ start) fun alloc holds id _ => ?_
  unfold delayStore
  dsimp only
  split
  · exact holds
  · split
    · exact holds
    next endings _ =>
      split
      · exact count (step _ _ (each ({ · with hasStore := true }) endings holds))
      · exact holds

theorem setting_analyzeSync : alloc.analyzeSync.setting = alloc.setting :=
  analyzeSync_induction (motive := fun after => after.setting = alloc.setting) rfl
    (fun _ _ same => same) fun same => same

theorem setting_analyzeSync_assigned {registers}
    (done : (ofGraph g registers).assignRegisters limit = .ok result) :
    result.analyzeSync.setting = (g, registers, 0, 0) := by
  rw [setting_analyzeSync, (changes_settle done).edits.setting_eq, ofGraph, setting_buildRanges]
  rfl

theorem graph_analyzeSync_assigned {registers}
    (done : (ofGraph g registers).assignRegisters limit = .ok result) :
    result.analyzeSync.graph = g :=
  congrArg Prod.fst (setting_analyzeSync_assigned done)

end Dynarec.Allocation
