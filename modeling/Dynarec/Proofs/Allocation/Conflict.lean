import Dynarec.Proofs.Allocation.Scan

/-!
# Resolution of conflicts

A conflict is resolved in one of six ways.  The strategies that are weighed
against each other come from live subranges and from registers that none of
these holds.
-/

namespace Dynarec

open List Subrange
namespace Allocation

namespace Strategy

variable {α : Type}

theorem mem_of_cheapest (found : cheapest strategies = some strategy) : strategy ∈ strategies := by
  have all : ∀ chosen ∈ cheapest strategies, chosen ∈ strategies := by
    refine List.foldlRecOn (motive := fun best => ∀ chosen ∈ best, chosen ∈ strategies) _ _
      (by simp) ?_
    intro best known first mem chosen same
    split at same
    · cases same
      exact mem
    · exact known chosen same
  exact all strategy found

theorem costOf_foldl_le (strategies : List (Strategy α)) (initial : Option (Strategy α)) :
    let chosen := strategies.foldl (fun best strategy =>
      if strategy.cost < costOf best then some strategy else best) initial
    costOf chosen ≤ costOf initial ∧ ∀ strategy ∈ strategies, costOf chosen ≤ strategy.cost := by
  induction strategies generalizing initial with
  | nil => exact ⟨Int.le_refl _, forall_mem_nil _⟩
  | cons first rest ih =>
    have better : costOf (if first.cost < costOf initial then some first else initial) ≤
        costOf initial ∧
        costOf (if first.cost < costOf initial then some first else initial) ≤ first.cost := by
      split
      next cheaper => exact ⟨Int.le_of_lt cheaper, Int.le_refl _⟩
      next expensive => exact ⟨Int.le_refl _, Int.not_lt.mp expensive⟩
    obtain ⟨least, others⟩ := ih (if first.cost < costOf initial then some first else initial)
    exact ⟨least.trans better.1, forall_mem_cons.mpr ⟨least.trans better.2, others⟩⟩

theorem maxDistance_le_of_cheapest (nothing : cheapest strategies = none)
    (mem : strategy ∈ strategies) : maxDistance ≤ strategy.cost := by
  have least := (costOf_foldl_le strategies none).2 strategy mem
  rw [cheapest] at nothing
  rwa [nothing] at least

end Strategy

variable {alloc : Allocation}

/-- The ranges that can be replaced for a subrange that leaves the segment: those that do too. -/
theorem explodeCheapest_eq (coherent : alloc.Coherent) (found : alloc.subrange? sub.id = some sub)
    (exit : sub.stop = .atExit) (present : ∀ other ∈ live, alloc.subrange? other.id = some other) :
    (∃ other id, alloc.subrange? id = some other ∧ other.stop = .atExit ∧
        alloc.explodeCheapest sub live = .ok (alloc.explode other.range)) ∨
      (maxDistance ≤ alloc.explodeCost (alloc.range sub.range) ∧ alloc.explodeCheapest sub live =
          .error (.noRange (alloc.range sub.range).register)) := by
  unfold explodeCheapest
  extract_lets own leaving strategies
  cases chosen : Strategy.cheapest strategies with
  | none =>
    have listed : { cost := alloc.explodeCost own, distance := 0, victim := own.id } ∈
        strategies := mem_map.mpr ⟨own, by simp, rfl⟩
    exact .inr ⟨Strategy.maxDistance_le_of_cheapest chosen listed, rfl⟩
  | some strategy =>
    have mem := Strategy.mem_of_cheapest chosen
    obtain ⟨range, listed, rfl⟩ := mem_map.mp mem
    have live' : ∃ other id, alloc.subrange? id = some other ∧ other.stop = .atExit ∧
        range = alloc.range other.range := by
      rcases mem_append.mp listed with inside | inside
      · obtain ⟨other, otherListed, rfl⟩ := mem_map.mp inside
        obtain ⟨otherListed, leaves⟩ := mem_filter.mp otherListed
        exact ⟨other, other.id, present other otherListed, by simpa using leaves, rfl⟩
      · exact ⟨sub, sub.id, found, exit, mem_singleton.mp inside⟩
    obtain ⟨other, id, otherFound, leaves, rfl⟩ := live'
    obtain ⟨range, rangeLive⟩ := coherent.range_live otherFound
    refine .inl ⟨other, id, otherFound, leaves, ?_⟩
    rw [range_eq_of_some rangeLive, coherent.range_id rangeLive]

theorem victim_of_explodeStrategy (chosen : alloc.explodeStrategy sub live least = some strategy) :
    ∃ other ∈ live, strategy.victim = other.range ∧ other.stop = .atExit ∧
      least ≤ strategy.distance := by
  obtain ⟨other, listed, equal⟩ := mem_filterMap.mp (Strategy.mem_of_cheapest chosen)
  dsimp only at equal
  split at equal
  · cases equal
  next usable =>
    simp only [Bool.or_eq_true, decide_eq_true_eq, not_or, not_not, Int.not_lt] at usable
    cases equal
    exact ⟨other, listed, rfl, usable⟩

theorem victim_of_holeStrategy (chosen : alloc.holeStrategy sub live least = some strategy) :
    ∃ other ∈ live, strategy.victim = other.id ∧ other.stop ≠ .atExit ∧
      strategy.distance = other.untilNextUse sub.start ∧ least ≤ strategy.distance ∧
      strategy.distance ≠ maxDistance := by
  rw [holeStrategy] at chosen
  split at chosen
  · cases chosen
  · obtain ⟨other, listed, equal⟩ := mem_filterMap.mp (Strategy.mem_of_cheapest chosen)
    dsimp only at equal
    split at equal
    · cases equal
    next usable =>
      simp only [Bool.or_eq_true, decide_eq_true_eq, not_or, Int.not_lt] at usable
      cases equal
      exact ⟨other, listed, rfl, usable.1.1, rfl, usable.1.2, usable.2⟩

theorem distance_of_availableStrategy
    (chosen : alloc.availableStrategy sub unused least = some strategy) :
    least ≤ strategy.distance ∧ strategy.distance < sub.stop - sub.start := by
  rw [availableStrategy] at chosen
  split at chosen
  · cases chosen
  · obtain ⟨host, -, equal⟩ := mem_filterMap.mp (Strategy.mem_of_cheapest chosen)
    dsimp only at equal
    split at equal
    · cases equal
    next usable =>
      simp only [Bool.or_eq_true, decide_eq_true_eq, not_or, Int.not_lt, Int.not_le] at usable
      cases equal
      exact ⟨usable.1.2, usable.2⟩

inductive Resolution (alloc : Allocation) (seg : SegmentId) (sub : Subrange)
    (live : List Subrange) (unused : List HostRegister) : Except Error Allocation → Prop
  /-- A range that leaves the segment is replaced for a subrange that does too. -/
  | replace (exit : sub.stop = .atExit) :
      Resolution alloc seg sub live unused (alloc.explodeCheapest sub live)
  | explode {least : Int} {strategy : Strategy RangeId}
      (stays : sub.stop ≠ .atExit) (pos : 1 ≤ least)
      (chosen : alloc.explodeStrategy sub live least = some strategy) :
      Resolution alloc seg sub live unused (alloc.explodeFor sub strategy)
  /-- A register is used up to its next holder. -/
  | use {least : Int} {strategy : Strategy HostRegister}
      (stays : sub.stop ≠ .atExit) (pos : 1 ≤ least)
      (chosen : alloc.availableStrategy sub unused least = some strategy) :
      Resolution alloc seg sub live unused (alloc.useAvailable sub strategy)
  | cut {least : Int} {strategy : Strategy SubrangeId}
      (stays : sub.stop ≠ .atExit) (pos : 1 ≤ least)
      (chosen : alloc.holeStrategy sub live least = some strategy) :
      Resolution alloc seg sub live unused (alloc.cutHole sub strategy)
  | yield (stays : sub.stop ≠ .atExit) (entry : sub.start = .atEntry) :
      Resolution alloc seg sub live unused (.ok (alloc.explode sub.range))
  /-- Nothing frees a register even for a single instruction. -/
  | fail (stays : sub.stop ≠ .atExit) (inside : sub.start ≠ .atEntry)
      (noHole : alloc.holeStrategy sub live 1 = none)
      (noneAvailable : alloc.availableStrategy sub unused 1 = none)
      (noExplosion : alloc.explodeStrategy sub live 1 = none) : Resolution alloc seg sub live unused
        (.error (.noStrategy seg (alloc.range sub.range).register sub.start))

theorem resolution_resolveConflict (alloc : Allocation) (seg : SegmentId)
    (sub : Subrange) (live : List Subrange) (unused : List HostRegister) :
    Resolution alloc seg sub live unused (alloc.resolveConflict seg sub live unused) := by
  unfold resolveConflict
  extract_lets hole available explosion
  by_cases exit : sub.stop = .atExit
  · rw [if_pos exit]
    exact .replace exit
  · rw [if_neg exit]
    cases exploded : explosion with
    | some strategy =>
      have chosen := (Option.filter_eq_some_iff.mp exploded).1
      exact .explode exit (by decide) chosen
    | none =>
      cases usable : available.filter (·.cost ≤ Strategy.costOf hole) with
      | some strategy =>
        have chosen := (Option.filter_eq_some_iff.mp usable).1
        exact .use exit (by decide) chosen
      | none =>
        cases cut : hole with
        | some strategy => exact .cut exit (by decide) cut
        | none =>
          by_cases entry : sub.start = .atEntry
          · rw [if_pos entry]
            exact .yield exit entry
          · rw [if_neg entry, resolveTight]
            cases tightHole : alloc.holeStrategy sub live 1 with
            | some strategy => exact .cut exit (by decide) tightHole
            | none =>
              cases tightUse : alloc.availableStrategy sub unused 1 with
              | some strategy => exact .use exit (by decide) tightUse
              | none =>
                cases tightExplosion : alloc.explodeStrategy sub live 1 with
                | some strategy => exact .explode exit (by decide) tightExplosion
                | none => exact .fail exit entry tightHole tightUse tightExplosion

theorem Stuck.present {id} (stuck : Stuck seg id sub rest live alloc) :
    alloc.subrange? sub.id = some sub ∧
      ∀ other ∈ live.reverse.map (·.subrange), alloc.subrange? other.id = some other := by
  constructor
  · rw [stuck.scanning.sound.coherent.subrange_id stuck.found]
    exact stuck.found
  · intro other mem
    obtain ⟨holder, listed, rfl⟩ := mem_map.mp mem
    exact (stuck.scanning.holds holder (mem_reverse.mp listed)).found

end Allocation
end Dynarec
