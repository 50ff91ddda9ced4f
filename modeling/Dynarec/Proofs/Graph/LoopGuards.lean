import Dynarec.Proofs.Graph.Generated
import Mathlib.Data.List.Cycle

/-!
# Guarded loops

Compiled code cannot spin: a cycle of links passes through a cycle check, or it
is a single segment that is known to end.  Until loops are guarded, every link
leads to a later segment or belongs to a segment that is going to get a guard;
afterwards a segment that leads back can only be reached through its guard.
-/

namespace Dynarec

open Bool List Segment

/-- Whether a segment ends with a test for remaining cycles. -/
def Segment.checksCycles (seg : Segment) : Bool :=
  seg.last?.any (·.kind = .cycleCheck)

namespace Graph

variable {g : Graph} {start : SegmentId → Address} {id : SegmentId}

/-- A segment that is reached through cycle checks only.  If it can be entered, nothing leads to
it. -/
def IsGuarded (g : Graph) (id : SegmentId) : Prop :=
  ∀ source ∈ g.order, ∀ side, (g.segment source).link side = some id →
    (g.segment source).checksCycles ∧ (g.segment id).enterable = false

/-- Why a link cannot close a loop that spins: it leads to a later segment, it is that of a tight
loop, a cycle check stands at one end, or its source is guarded or still to be guarded. -/
inductive Harmless (g : Graph) (pending : List SegmentId) (id : SegmentId) (side : Bool)
    (next : SegmentId) : Prop
  | forward (later : id < next)
  | tight (taken : side) (same : next = id) (finite : (g.segment id).isTightFiniteLoop)
  | leavesCheck (checks : (g.segment id).checksCycles)
  | entersCheck (checks : (g.segment next).checksCycles)
  | guarded (guarded : g.IsGuarded id)
  | waits (listed : id ∈ pending)

def LinksHarmless (g : Graph) (pending : List SegmentId) : Prop :=
  ∀ id side next, id ∈ g.order → (g.segment id).link side = some next →
    g.Harmless pending id side next

theorem Laid.linksHarmless (laid : g.Laid start) : g.LinksHarmless g.loops := by
  intro id side next mem linked
  cases side with
  | false => exact .forward (laid.falls mem linked)
  | true =>
    obtain ⟨-, target⟩ := laid.taken mem linked
    obtain ⟨lowest, nonzero⟩ := laid.lowest mem target
    have nextMem := laid.numbered.link_mem mem linked
    cases tight : (g.segment id).isTightFiniteLoop with
    | true =>
      have taken : (g.segment id).taken = some next := linked
      have toSelf : (g.segment id).taken = some (g.segment id).id := by
        simp only [isTightFiniteLoop, and_eq_true, decide_eq_true_eq] at tight
        exact tight.1
      rw [taken, laid.numbered.segment_id mem, Option.some.injEq] at toSelf
      exact .tight rfl toSelf tight
    | false =>
      by_cases back : start next ≤ start id
      · refine .waits (mem_filter.mpr ⟨mem, ?_⟩)
        obtain ⟨jump, last_eq, kind_eq, named, target_eq⟩ := exists_of_jumpTarget? target
        simp [needsCycleCheck, last_eq, kind_eq, named, tight, hasAddresses,
          lowest, nonzero, target_eq, back]
      · refine .forward (Nat.lt_of_not_le fun earlier => back ?_)
        rcases Nat.lt_or_eq_of_le earlier with before | same
        · exact laid.ascends nextMem mem before
        · exact UInt32.le_of_eq (congrArg start same)

theorem checksCycles_congr {seg other : Segment} (same : seg.instructions = other.instructions) :
    seg.checksCycles = other.checksCycles := by
  rw [checksCycles, checksCycles, last?, last?, same]

theorem isTightFiniteLoop_congr {seg other : Segment} (id_eq : seg.id = other.id)
    (taken_eq : seg.link true = other.link true) (same : seg.instructions = other.instructions) :
    seg.isTightFiniteLoop = other.isTightFiniteLoop := by
  have taken_eq : seg.taken = other.taken := taken_eq
  rw [isTightFiniteLoop, isTightFiniteLoop, steppedOnly, steppedOnly, id_eq, taken_eq, same]

/-- A link that stays where it was is harmless for the same reason, apart from guards. -/
theorem Harmless.of_kept {after : Graph} {next}
    (harmless : g.Harmless pending id side next) (id_eq : (after.segment id).id = (g.segment id).id)
    (link_eq : (after.segment id).link side = (g.segment id).link side)
    (code_eq : ∀ {other}, other ∈ [id, next] →
      (after.segment other).instructions = (g.segment other).instructions)
    (guarded : g.IsGuarded id → after.IsGuarded id)
    (waits : id ∈ pending → after.Harmless rest id side next) :
    after.Harmless rest id side next := by
  have checks {other : SegmentId} (listed : other ∈ [id, next]) :=
    checksCycles_congr (code_eq listed)
  cases harmless with
  | forward later => exact .forward later
  | tight taken self finite =>
    subst taken
    refine .tight rfl self ?_
    rwa [isTightFiniteLoop_congr id_eq link_eq (code_eq (by simp))]
  | leavesCheck checked => exact .leavesCheck ((checks (by simp)).trans checked)
  | entersCheck checked => exact .entersCheck ((checks (by simp)).trans checked)
  | guarded isGuarded => exact .guarded (guarded isGuarded)
  | waits listed => exact waits listed

section

variable {body : SegmentId} {name : Address} {after : Graph} (numbered : g.Numbered)
  (guarded : g.LoopGuarded body name after)

include guarded

theorem LoopGuarded.checksCycles_eq (mem : id ∈ g.order) :
    (after.segment id).checksCycles = (g.segment id).checksCycles :=
  checksCycles_congr (guarded.code_eq mem)

theorem LoopGuarded.checksCycles_guard : (after.segment g.nextId).checksCycles := by
  rw [checksCycles, guarded.guard_eq.last?_eq]
  rfl

include numbered

theorem LoopGuarded.isGuarded_body (mem : body ∈ g.order) : after.IsGuarded body := by
  have old : body < g.nextId := numbered.inside mem
  intro source listed side linked
  refine ⟨?_, guarded.body_eq.enterable_eq⟩
  generalize next_eq : body = next at linked
  cases guarded.link_cases listed linked with
  | continues => exact guarded.checksCycles_guard
  | leaves => lia
  | enters => lia
  | moved => lia
  | kept _ _ ne => exact absurd next_eq.symm ne

theorem LoopGuarded.isGuarded (mem : id ∈ g.order) (ne : id ≠ body)
    (isGuarded : g.IsGuarded id) : after.IsGuarded id := by
  have old : id < g.nextId := numbered.inside mem
  intro source listed side linked
  rw [(guarded.others_eq id mem ne).enterable_eq]
  generalize next_eq : id = next at linked
  cases guarded.link_cases listed linked with
  | continues => exact absurd next_eq ne
  | leaves => lia
  | enters => lia
  | moved => lia
  | kept sourceMem linked =>
    subst next_eq
    rw [guarded.checksCycles_eq sourceMem]
    exact isGuarded source sourceMem side linked

theorem LoopGuarded.linksHarmless (mem : body ∈ g.order)
    (harmless : g.LinksHarmless (body :: rest)) : after.LinksHarmless rest := by
  intro id side next listed linked
  cases guarded.link_cases listed linked with
  | continues => exact .leavesCheck guarded.checksCycles_guard
  | leaves => exact .leavesCheck guarded.checksCycles_guard
  | enters => exact .entersCheck guarded.checksCycles_guard
  | moved => exact .entersCheck guarded.checksCycles_guard
  | kept old before ne =>
    by_cases same : id = body
    · exact .guarded (same ▸ guarded.isGuarded_body numbered mem)
    · refine (harmless id side next old before).of_kept ?_ (linked.trans before.symm) ?_
        (guarded.isGuarded numbered old same)
        fun pending => .waits ((mem_cons.mp pending).resolve_left same)
      · rw [guarded.numbered.segment_id listed, numbered.segment_id old]
      · simp [guarded.code_eq, old, numbered.link_mem old before]

end

section

variable {entry : SegmentId} {after : Graph} (tied : g.Tied)
  (isolated : g.EntryIsolated entry after)

include isolated

theorem EntryIsolated.checksCycles_eq (mem : id ∈ g.order) :
    (after.segment id).checksCycles = (g.segment id).checksCycles :=
  checksCycles_congr (isolated.code_eq mem)

include tied

theorem EntryIsolated.isGuarded_trampoline (mem : entry ∈ g.order) : after.IsGuarded g.nextId := by
  intro source listed side linked
  rcases isolated.link_cases listed linked with ⟨old, before⟩ | ⟨-, -, same⟩
  · exact absurd (tied.numbered.inside (tied.numbered.link_mem old before)) (Nat.lt_irrefl _)
  · exact absurd (tied.numbered.inside mem) (same ▸ Nat.lt_irrefl _)

theorem EntryIsolated.isGuarded (mem : entry ∈ g.order)
    (enterable : (g.segment entry).enterable) (reached : (g.segment entry).prev ≠ [])
    (idMem : id ∈ g.order) (isGuarded : g.IsGuarded id) : after.IsGuarded id := by
  have ne : id ≠ entry := by
    rintro rfl
    obtain ⟨source, listed⟩ := exists_mem_of_ne_nil _ reached
    have sourceMem := tied.numbered.prev_mem mem listed
    obtain ⟨side, linked⟩ := mem_successors_iff.mp
      ((tied.backlinked.mem_prev_iff mem sourceMem).mp listed)
    exact eq_false_iff.mp (isGuarded source sourceMem side linked).2 enterable
  intro source listed side linked
  rw [(isolated.others_eq id idMem ne).enterable_eq]
  rcases isolated.link_cases listed linked with ⟨old, before⟩ | ⟨-, -, toEntry⟩
  · rw [isolated.checksCycles_eq old]
    exact isGuarded source old side before
  · exact absurd toEntry ne

theorem EntryIsolated.linksHarmless (mem : entry ∈ g.order)
    (enterable : (g.segment entry).enterable) (reached : (g.segment entry).prev ≠ [])
    (harmless : g.LinksHarmless []) : after.LinksHarmless [] := by
  intro id side next listed linked
  rcases isolated.link_cases listed linked with ⟨old, before⟩ | ⟨new, -, -⟩
  · refine (harmless id side next old before).of_kept ?_ (linked.trans before.symm) ?_
      (isolated.isGuarded tied mem enterable reached old) .waits
    · rw [isolated.numbered.segment_id listed, tied.numbered.segment_id old]
    · simp [isolated.code_eq, old, tied.numbered.link_mem old before]
  · exact .guarded (new ▸ isolated.isGuarded_trampoline tied mem)

end

theorem Alike.linksHarmless (alike : g.Alike other) (harmless : g.LinksHarmless pending) :
    other.LinksHarmless pending := by
  have same id := alike.content_eq id
  intro id side next mem linked
  rw [alike.order_eq] at mem
  rw [alike.link_eq] at linked
  refine (harmless id side next mem linked).of_kept (same id).id_eq (alike.link_eq id side)
    (fun {other} _ => (same other).code_eq)
    (fun isGuarded source listed outcome leads => ?_) .waits
  rw [alike.order_eq] at listed
  rw [alike.link_eq] at leads
  rw [checksCycles_congr (same source).code_eq, (same id).enterable_eq]
  exact isGuarded source listed outcome leads

theorem Laid.linksHarmless_passes (laid : g.Laid start) (options : BuildOptions) :
    (g.passes options).LinksHarmless [] ∧ (g.passes options).Numbered := by
  have prepared := laid.prepared options
  have initial : (g.prepared options).LinksHarmless
      ((g.prepared options).loops.zipIdx.map Prod.fst) := by
    rw [zipIdx_map_fst]
    exact prepared.linksHarmless
  obtain ⟨tied, harmless⟩ := expansion_induction
    (fun g pending => g.LinksHarmless (pending.map Prod.fst)) prepared.toTied initial
    (fun numbered mem guarded harmless => guarded.linksHarmless numbered mem harmless) id
    (fun tied mem enterable reached isolated harmless =>
      isolated.linksHarmless tied mem enterable reached harmless)
    fun _ alike harmless => alike.linksHarmless harmless
  exact ⟨harmless, tied.numbered⟩

theorem exists_before (chain : (first :: rest).IsChain relation) :
    ∀ id ∈ rest, ∃ before ∈ first :: rest, relation before id := by
  induction rest generalizing first with
  | nil => simp
  | cons second rest ih =>
    obtain ⟨related, behind⟩ := isChain_cons_cons.mp chain
    refine forall_mem_cons.mpr ⟨⟨first, mem_cons_self, related⟩, ?_⟩
    intro id listed
    obtain ⟨before, beforeListed, related⟩ := ih behind id listed
    exact ⟨before, mem_cons_of_mem _ beforeListed, related⟩

/-- A link between segments of a cycle without checks leads forward, or it is that of a tight
loop. -/
theorem LinksHarmless.lt_or_tight (harmless : g.LinksHarmless []) {ids : List SegmentId}
    (members : ∀ id ∈ ids, id ∈ g.order)
    (unchecked : ∀ id ∈ ids, (g.segment id).checksCycles = false)
    (reached : ∀ id ∈ ids, ∃ before ∈ ids, id ∈ (g.segment before).successors) {next}
    (listed : id ∈ ids) (nextListed : next ∈ ids) (linked : (g.segment id).link side = some next) :
    id < next ∨ side ∧ next = id ∧ (g.segment id).isTightFiniteLoop = true := by
  cases harmless id side next (members id listed) linked with
  | forward later => exact .inl later
  | tight taken same finite => exact .inr ⟨taken, same, finite⟩
  | leavesCheck checks => simp [unchecked id listed] at checks
  | entersCheck checks => simp [unchecked next nextListed] at checks
  | guarded isGuarded =>
    obtain ⟨before, beforeListed, leads⟩ := reached id listed
    obtain ⟨outcome, leads⟩ := mem_successors_iff.mp leads
    have checks := isGuarded before (members before beforeListed) outcome leads
    simp [unchecked before beforeListed] at checks
  | waits pending => cases pending

theorem LinksHarmless.cycle_cases (harmless : g.LinksHarmless [])
    (nonempty : cycle ≠ Cycle.nil) (simple : cycle.Nodup) (members : ∀ id ∈ cycle, id ∈ g.order)
    (linked : cycle.Chain fun id next => next ∈ (g.segment id).successors) :
    (∃ id ∈ cycle, (g.segment id).checksCycles) ∨
      ∃ id, cycle = [id] ∧ (g.segment id).isTightFiniteLoop ∧
        (g.segment id).notTaken ≠ some id := by
  induction cycle with
  | nil => exact absurd rfl nonempty
  | cons first rest _ =>
    rw [Cycle.chain_coe_cons] at linked
    by_cases checked : ∃ id ∈ first :: rest, (g.segment id).checksCycles = true
    · exact .inl checked
    · right
      have unchecked : ∀ id ∈ first :: rest, (g.segment id).checksCycles = false := by
        simpa using checked
      have reached : ∀ id ∈ first :: rest, ∃ before ∈ first :: rest,
          id ∈ (g.segment before).successors := by
        intro id listed
        obtain ⟨before, beforeListed, leads⟩ := exists_before linked id (by grind)
        exact ⟨before, by grind, leads⟩
      cases rest with
      | nil =>
        have self := (isChain_cons_cons.mp linked).1
        obtain ⟨side, toSelf⟩ := mem_successors_iff.mp self
        have here : first ∈ [first] := mem_singleton_self first
        refine ⟨first, rfl, ?_, ?_⟩
        · rcases harmless.lt_or_tight members unchecked reached here here toSelf with
            later | ⟨-, -, finite⟩
          · exact absurd later (Nat.lt_irrefl _)
          · exact finite
        · intro falls
          have falls : (g.segment first).link false = some first := falls
          rcases harmless.lt_or_tight members unchecked reached here here falls with
            later | ⟨taken, -⟩
          · exact absurd later (Nat.lt_irrefl _)
          · cases taken
      | cons second rest =>
        have apart : (first :: (second :: rest ++ [first])).IsChain (· ≠ ·) := by
          rw [← cons_append, isChain_append]
          refine ⟨List.Pairwise.isChain simple, .singleton _, ?_⟩
          rintro last ends other ⟨⟩ rfl
          exact (nodup_cons.mp simple).1 (mem_of_mem_getLast? ends)
        have ascends : (first :: (second :: rest ++ [first])).IsChain (· < ·) := by
          rw [isChain_iff_getElem] at linked apart ⊢
          intro index inside
          obtain ⟨side, leads⟩ := mem_successors_iff.mp (linked index inside)
          have listed {pos : Nat} (bound : pos < (first :: (second :: rest ++ [first])).length) :
              (first :: (second :: rest ++ [first]))[pos] ∈ first :: second :: rest := by
            grind
          rcases harmless.lt_or_tight members unchecked reached (listed _) (listed _) leads with
            later | ⟨-, same, -⟩
          · exact later
          · exact absurd same.symm (apart index inside)
        rw [isChain_iff_pairwise, pairwise_cons] at ascends
        exact absurd (ascends.1 first (by simp)) (Nat.lt_irrefl _)

/-- Every cycle of links in the graph of a function passes through a cycle check, unless it is the
taken link of a single segment that is known to end. -/
theorem cycles_pass_checks
    {memory : Memory}
    {streamOptions : Stream.Options}
    {stream : Stream}
    (generated : Stream.generate memory streamOptions = .ok stream)
    (nonzero : AddressRange.contains ⟨stream.entry, stream.size⟩ 0 = false)
    {options : BuildOptions}
    (built : build stream options = .ok graph)
    {cycle : Cycle SegmentId}
    (nonempty : cycle ≠ Cycle.nil)
    (simple : cycle.Nodup)
    (members : ∀ id ∈ cycle, id ∈ graph.order)
    (linked : cycle.Chain fun id next => next ∈ (graph.segment id).successors) :
    (∃ id ∈ cycle, (graph.segment id).checksCycles = true) ∨
      ∃ id, cycle = [id] ∧ (graph.segment id).isTightFiniteLoop = true ∧
        (graph.segment id).notTaken ≠ some id := by
  obtain ⟨base, made, rfl, -⟩ := of_build_eq_ok built
  obtain ⟨list, tiled, isBase, -⟩ := isBase_of_generate generated made
  have laid := isBase.laid tiled.arranged (tiled.address_ne_zero nonzero)
  exact (laid.linksHarmless_passes options).1.cycle_cases nonempty simple members linked

theorem spinning_passes_check :
    ∃ stream graph, Stream.generate spinning { entry := 0x1000, count := 1 } = .ok stream ∧
      AddressRange.contains ⟨stream.entry, stream.size⟩ 0 = false ∧
      build stream {} = .ok graph ∧ 1 ∈ (graph.segment 0).successors ∧
      0 ∈ (graph.segment 1).successors ∧
      ((∃ id ∈ ([0, 1] : Cycle SegmentId), (graph.segment id).checksCycles = true) ∨
        ∃ id, ([0, 1] : Cycle SegmentId) = [id] ∧
          (graph.segment id).isTightFiniteLoop = true ∧ (graph.segment id).notTaken ≠ some id) := by
  have evaluated : ((Stream.generate spinning { entry := 0x1000, count := 1 }).toOption.any
      fun stream => (build stream {}).toOption.any fun graph =>
        !AddressRange.contains ⟨stream.entry, stream.size⟩ 0 &&
          graph.order.contains 0 && graph.order.contains 1 &&
          (graph.segment 0).successors.contains 1 &&
          (graph.segment 1).successors.contains 0) = true := by
    decide +kernel
  obtain ⟨stream, generated, evaluated⟩ := of_any_toOption evaluated
  obtain ⟨graph, built, evaluated⟩ := of_any_toOption evaluated
  simp only [Bool.and_eq_true, Bool.not_eq_true', List.contains_iff_mem] at evaluated
  obtain ⟨⟨⟨⟨nonzero, zero⟩, one⟩, forth⟩, back⟩ := evaluated
  refine ⟨stream, graph, generated, nonzero, built, forth, back, ?_⟩
  refine cycles_pass_checks generated nonzero built (by simp) (by simp) ?_ ?_
  · simp [zero, one]
  · rw [Cycle.chain_coe_cons]
    simp [forth, back]

end Graph
end Dynarec
