import Dynarec.Proofs.Allocation.Pressure

/-!
# Affordable strategies

The costs that are weighed against each other grow with the depth of the loops
and with the number of segments.  Unless a graph is very deep or very large, they
all stay below "never".
-/

namespace Dynarec.Allocation

open List

variable {alloc : Allocation}

/-- The weight of a load or store in the deepest loop of a graph. -/
def deepestCost (g : Graph) : Int :=
  ((g.maxLoopDepth + 1) * 5) * ((g.maxLoopDepth + 1) * 5)

section

variable (coherent : alloc.Coherent) {id : SubrangeId}

include coherent

theorem Coherent.costAt_bounds (found : alloc.subrange? id = some sub) :
    0 ≤ alloc.costAt sub ∧ alloc.costAt sub ≤ deepestCost alloc.graph := by
  have depth := loopDepth_le_maxLoopDepth (coherent.segment_mem found)
  have scaled : ((alloc.graph.segment sub.segment).loopDepth + 1) * 5 ≤
      (alloc.graph.maxLoopDepth + 1) * 5 := by lia
  constructor
  · exact Int.mul_nonneg (by lia) (by lia)
  · have product := Nat.mul_le_mul scaled scaled
    rw [costAt, accessCost, deepestCost, segmentOf]
    exact_mod_cast product

theorem Coherent.splitCost_bounds (found : alloc.subrange? id = some sub) (place : Position) :
    0 ≤ alloc.splitCost sub place ∧ alloc.splitCost sub place ≤ 2 * deepestCost alloc.graph := by
  have bounds := coherent.costAt_bounds found
  rw [splitCost]
  split
  · split
    · lia
    · lia
  · lia

theorem Coherent.shortfall_le (found : alloc.subrange? id = some sub) (nonneg : 0 ≤ distance) :
    alloc.shortfall sub distance ≤ 2 * deepestCost alloc.graph + 3276 := by
  have split := coherent.splitCost_bounds found (sub.start + distance)
  have start := coherent.start_bounds found
  have stop := coherent.stop_le_exit found
  simp only [Position.atEntry, Position.atExit] at start stop
  rw [shortfall]
  split
  · lia
  · lia

end

theorem Coherent.length_subranges_le (coherent : alloc.Coherent) {id range}
    (live : alloc.range? id = some range) : range.subranges.length ≤ alloc.graph.order.length := by
  have nodup : (range.subranges.map fun mem => (alloc.subrange mem).segment).Nodup := by
    refine (coherent.nodup_subranges live).map_on ?_
    intro mem listed other otherListed same
    obtain ⟨sub, found, inside⟩ := (coherent.mem_subranges live).mp listed
    obtain ⟨otherSub, otherFound, otherInside⟩ := (coherent.mem_subranges live).mp otherListed
    rw [subrange_eq_of_some found, subrange_eq_of_some otherFound] at same
    exact coherent.alone found otherFound (inside.trans otherInside.symm) same
  have subset : (range.subranges.map fun mem => (alloc.subrange mem).segment) ⊆
      alloc.graph.order := by
    intro segment listed
    obtain ⟨mem, inside, rfl⟩ := mem_map.mp listed
    obtain ⟨sub, found, -⟩ := (coherent.mem_subranges live).mp inside
    rw [subrange_eq_of_some found]
    exact coherent.segment_mem found
  have length := (subperm_of_subset nodup subset).length_le
  rwa [length_map] at length

theorem estimateCost_nonneg (alloc : Allocation) (range : LiveRange) :
    0 ≤ alloc.estimateCost range := by
  have most (costs : List Int) cost (nonneg : 0 ≤ cost) : 0 ≤ costs.foldl max cost := by
    induction costs generalizing cost with
    | nil => exact nonneg
    | cons first rest ih =>
      exact ih _ (Int.le_trans nonneg (Int.le_max_left _ _))
  exact Int.add_nonneg (Int.add_nonneg (most _ _ (Int.le_refl 0)) (most _ _ (Int.le_refl 0)))
    (Int.natCast_nonneg _)

theorem Coherent.explodeCost_le (coherent : alloc.Coherent) {id range}
    (live : alloc.range? id = some range) :
    alloc.explodeCost range ≤ 2 * alloc.graph.order.length * deepestCost alloc.graph := by
  have total (subs : List Subrange) initial
      (bounded : ∀ sub ∈ subs, 0 ≤ alloc.costAt sub ∧ alloc.costAt sub ≤ deepestCost alloc.graph) :
      ((subs.filter (·.locations ≠ [])).map (2 * alloc.costAt ·)).foldl (· + ·) initial ≤
        initial + subs.length * (2 * deepestCost alloc.graph) := by
    induction subs generalizing initial with
    | nil => simp
    | cons first rest ih =>
      obtain ⟨here, bounded⟩ := forall_mem_cons.mp bounded
      have step : ((rest.length + 1 : Nat) : Int) * (2 * deepestCost alloc.graph) =
          rest.length * (2 * deepestCost alloc.graph) + 2 * deepestCost alloc.graph := by
        rw [Int.natCast_succ, Int.add_mul, Int.one_mul]
      rw [length_cons, step, filter_cons]
      split
      · have others := ih (initial + 2 * alloc.costAt first) bounded
        rw [map_cons, foldl_cons]
        lia
      · have others := ih initial bounded
        lia
  have bounded : ∀ sub ∈ alloc.subrangesOf range, 0 ≤ alloc.costAt sub ∧
      alloc.costAt sub ≤ deepestCost alloc.graph := by
    intro sub listed
    obtain ⟨mem, inside, rfl⟩ := mem_map.mp listed
    obtain ⟨sub, found, -⟩ := (coherent.mem_subranges live).mp inside
    rw [subrange_eq_of_some found]
    exact coherent.costAt_bounds found
  have length : ((alloc.subrangesOf range).length : Int) ≤ alloc.graph.order.length := by
    rw [subrangesOf, length_map]
    exact Int.ofNat_le.mpr (coherent.length_subranges_le live)
  have deepest : 0 ≤ deepestCost alloc.graph := Int.mul_nonneg (by lia) (by lia)
  have estimate := alloc.estimateCost_nonneg range
  calc alloc.explodeCost range
      ≤ -alloc.estimateCost range +
          (alloc.subrangesOf range).length * (2 * deepestCost alloc.graph) :=
        total _ _ bounded
    _ ≤ (alloc.subrangesOf range).length * (2 * deepestCost alloc.graph) := by lia
    _ ≤ alloc.graph.order.length * (2 * deepestCost alloc.graph) :=
        Int.mul_le_mul_of_nonneg_right length (by lia)
    _ = 2 * alloc.graph.order.length * deepestCost alloc.graph := by
        rw [← Int.mul_assoc, Int.mul_comm (alloc.graph.order.length : Int) 2]

theorem Coherent.affordable (coherent : alloc.Coherent)
    (small : 2 * (alloc.graph.order.length + 2) * deepestCost alloc.graph + 3276 <
      Subrange.maxDistance) : alloc.Affordable := by
  have deepest : 0 ≤ deepestCost alloc.graph := Int.mul_nonneg (by lia) (by lia)
  have room : 0 ≤ 2 * (alloc.graph.order.length : Int) * deepestCost alloc.graph :=
    Int.mul_nonneg (by lia) deepest
  have ahead {id other} {sub victim : Subrange} (found : alloc.subrange? id = some sub)
      (otherFound : alloc.subrange? other = some victim) :
      0 ≤ victim.untilNextUse sub.start := by
    have bounds := coherent.start_bounds found
    rcases coherent.untilNextUse_cases otherFound bounds.1 bounds.2 with
      ⟨loc, -, behind, equal⟩ | ⟨never, -⟩
    · lia
    · rw [never]
      decide
  constructor
  · intro id sub other victim found otherFound _
    have split := coherent.splitCost_bounds otherFound (sub.start + victim.untilNextUse sub.start)
    have short := coherent.shortfall_le found (ahead found otherFound)
    lia
  · intro id sub found host
    have bounds := coherent.start_bounds found
    have short := coherent.shortfall_le found
      (coherent.untilNextHost_nonneg sub.segment bounds.1 bounds.2 host)
    lia
  · intro id sub other victim found otherFound _
    obtain ⟨range, live⟩ := coherent.range_live otherFound
    have explode := coherent.explodeCost_le live
    have short := coherent.shortfall_le found (ahead found otherFound)
    rw [range_eq_of_some live]
    lia
  · intro id range live
    have explode := coherent.explodeCost_le live
    lia

end Dynarec.Allocation
