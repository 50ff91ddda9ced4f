import Dynarec.Proofs.Allocation.Conflict
import Mathlib.Algebra.BigOperators.Fin

/-!
# The weight of an allocation

A subrange weighs more the more boundaries it touches and the more accesses it
holds together.  Splitting a subrange and replacing a range that touches a
boundary both make an allocation lighter, and nothing else changes its weight.
-/

namespace Dynarec

open List Option Subrange

variable {sub : Subrange}

namespace Subrange

/-- The boundaries that a subrange touches, that of the entry twice if an access follows, and the
gaps between its accesses. -/
def weight (sub : Subrange) : Nat :=
  (if sub.start = .atEntry then 1 else 0) + (if sub.stop = .atExit then 1 else 0) +
    (if sub.start = .atEntry ∧ sub.locations ≠ [] then 1 else 0) +
    (sub.locations.length - 1)

theorem weight_le (sub : Subrange) : sub.weight ≤ 3 + sub.locations.length := by
  rw [weight]
  split <;> split <;> split <;> lia

theorem weight_of_inside (inside : sub.start ≠ .atEntry) (stays : sub.stop ≠ .atExit) :
    sub.weight = sub.locations.length - 1 := by
  simp [weight, inside, stays]

theorem lt_weight_of_boundary (boundary : sub.start = .atEntry ∨ sub.stop = .atExit) :
    sub.locations.length - 1 < sub.weight := by
  rw [weight]
  split <;> split <;> split <;> lia

theorem Splits.weight_lt (splits : sub.Splits place) (ordered : sub.Ordered) (id : SubrangeId)
    (range : RangeId) :
    (sub.headAt place).weight + (sub.tailAt place id range).weight < sub.weight := by
  have something := splits.tail_ne_nil ordered
  have whole := congrArg List.length
    (takeWhile_append_dropWhile (p := fun loc : Location => loc.index < place) (l := sub.locations))
  rw [length_append] at whole
  have tailLength := length_pos_iff.mpr something
  have nonempty : sub.locations ≠ [] := by
    intro nothing
    simp [nothing] at something
  have headStart : (sub.headAt place).start = sub.start := rfl
  rw [weight_of_inside (splits.tailAt_inside ordered id range) splits.stays, weight, weight,
    headStart, if_neg (splits.headAt_stays ordered), if_neg splits.stays]
  simp only [headAt, tailAt, nonempty, ne_eq, not_false_eq_true, and_true]
  by_cases before : sub.locations.takeWhile (·.index < place) = []
  · rw [before, length_nil] at whole
    simp only [before, splits.entry_of_head_nil ordered before, if_true, not_true_eq_false,
      and_false, if_false, length_nil]
    lia
  · have headLength := length_pos_iff.mpr before
    lia

end Subrange

namespace Allocation

def weight (alloc : Allocation) : Nat :=
  (alloc.liveSubranges.map Subrange.weight).sum

def weightAt (alloc : Allocation) (id : SubrangeId) : Nat :=
  (alloc.subrange? id).elim 0 Subrange.weight

variable {alloc : Allocation}

private theorem sum_range_getElem? {α : Type} (items : List α) (value : α → Nat) :
    ∑ place ∈ Finset.range items.length, items[place]?.elim 0 value = (items.map value).sum := by
  rw [Finset.sum_range, ← sum_ofFn]
  congr 1
  refine ext_getElem (by simp) fun place _ _ => ?_
  simp

theorem weight_eq_sum (alloc : Allocation) :
    alloc.weight = ∑ id ∈ Finset.range alloc.nextSubrange, alloc.weightAt id := by
  have present (slots : List (Option Subrange)) : ((slots.filterMap id).map Subrange.weight).sum =
        (slots.map fun slot => slot.elim 0 Subrange.weight).sum := by
    induction slots with
    | nil => rfl
    | cons slot rest ih => cases slot <;> simpa using ih
  rw [weight, liveSubranges, present, ← sum_range_getElem?, Array.length_toList]
  refine Finset.sum_congr rfl fun id mem => ?_
  have known : id < alloc.subranges.size := Finset.mem_range.mp mem
  simp [weightAt, subrange?, known]

theorem weight_le (alloc : Allocation) :
    alloc.weight ≤ 3 * alloc.liveSubranges.length +
      (alloc.liveSubranges.map (·.locations.length)).sum := by
  rw [weight]
  induction alloc.liveSubranges with
  | nil => exact Nat.le_refl 0
  | cons sub rest ih =>
    have here := sub.weight_le
    simp only [map_cons, sum_cons, length_cons]
    lia

theorem weight_congr {before after : Allocation}
    (subrange?_eq : ∀ id, after.subrange? id = before.subrange? id)
    (nextSubrange_eq : after.nextSubrange = before.nextSubrange) :
    after.weight = before.weight := by
  rw [weight_eq_sum, weight_eq_sum, nextSubrange_eq]
  exact Finset.sum_congr rfl fun id _ => by rw [weightAt, subrange?_eq, weightAt]

theorem weight_tally (alloc : Allocation) (change : AllocationStats → AllocationStats) :
    (alloc.tally change).weight = alloc.weight :=
  weight_congr (fun _ => rfl) rfl

theorem SplitAt.weight_lt {before after id}
    (view : SplitAt before after id sub place) (coherent : before.Coherent) :
    after.weight < before.weight := by
  have old := lt_nextSubrange_of_subrange? view.found
  have inside := Finset.mem_range.mpr old
  have others : ∑ other ∈ (Finset.range before.nextSubrange).erase id, after.weightAt other =
      ∑ other ∈ (Finset.range before.nextSubrange).erase id, before.weightAt other := by
    refine Finset.sum_congr rfl fun other mem => ?_
    obtain ⟨ne, known⟩ := Finset.mem_erase.mp mem
    rw [weightAt, view.subrange?_eq, if_neg ne,
      if_neg (Nat.ne_of_lt (Finset.mem_range.mp known)), weightAt]
  have lighter := view.splits.weight_lt (coherent.ordered view.found) before.nextSubrange
    before.nextRange
  have head : after.weightAt id = (sub.headAt place).weight := by
    rw [weightAt, view.subrange?_eq, if_pos rfl, elim_some]
  have tail : after.weightAt before.nextSubrange =
      (sub.tailAt place before.nextSubrange before.nextRange).weight := by
    rw [weightAt, view.subrange?_eq, if_neg (Nat.ne_of_gt old), if_pos rfl, elim_some]
  have whole : before.weightAt id = sub.weight := by
    rw [weightAt, view.found, elim_some]
  rw [weight_eq_sum, weight_eq_sum, view.nextSubrange_eq, Finset.sum_range_succ,
    ← Finset.add_sum_erase _ after.weightAt inside, ← Finset.add_sum_erase _ before.weightAt inside,
    others, head, tail, whole]
  lia

variable {id : RangeId} {range : LiveRange} (coherent : alloc.Coherent)
  (live : alloc.range? id = some range) (listed : mem ∈ range.subranges)
  (boundary : (alloc.subrange mem).start = .atEntry ∨ (alloc.subrange mem).stop = .atExit)

include coherent live listed boundary

/-- A range that touches a boundary weighs more than the local ranges that replace it. -/
theorem sum_localAt_lt :
    ((range.subranges.filter fun id => (alloc.subrange id).locations ≠ []).map fun id =>
        (alloc.subrange id).locations.length - 1).sum <
      (range.subranges.map alloc.weightAt).sum := by
  have kept (ids : List SubrangeId) :
      ((ids.filter fun id => (alloc.subrange id).locations ≠ []).map fun id =>
        (alloc.subrange id).locations.length - 1).sum =
      (ids.map fun id => (alloc.subrange id).locations.length - 1).sum := by
    induction ids with
    | nil => rfl
    | cons first rest ih =>
      by_cases empty : (alloc.subrange first).locations = [] <;> simpa [empty] using ih
  have weightAt {other} (listed : other ∈ range.subranges) :
      alloc.weightAt other = (alloc.subrange other).weight := by
    obtain ⟨sub, found, -⟩ := (coherent.mem_subranges live).mp listed
    rw [Allocation.weightAt, found, subrange_eq_of_some found, elim_some]
  rw [kept]
  refine sum_lt_sum _ _ ?_ ⟨mem, listed, ?_⟩
  · intro other listed
    rw [weightAt listed, Subrange.weight]
    exact Nat.le_add_left _ _
  · rw [weightAt listed]
    exact lt_weight_of_boundary boundary

theorem weight_explode_lt : (alloc.explode id).weight < alloc.weight := by
  have view := explodeAt_of_found coherent live
  have lighter := sum_localAt_lt coherent live listed boundary
  have known : range.subranges.toFinset ⊆ Finset.range alloc.nextSubrange := by
    intro mem listed
    obtain ⟨sub, found, -⟩ := (coherent.mem_subranges live).mp (mem_toFinset.mp listed)
    exact Finset.mem_range.mpr (lt_nextSubrange_of_subrange? found)
  have new place : (alloc.explode id).weightAt (alloc.nextSubrange + place) =
      (range.subranges.filter fun id => (alloc.subrange id).locations ≠ [])[place]?.elim 0
        fun origin => (alloc.subrange origin).locations.length - 1 := by
    rw [weightAt, view.subrange?_new]
    cases origin : (range.subranges.filter fun id =>
        (alloc.subrange id).locations ≠ [])[place]? with
    | none => rfl
    | some origin =>
      have mem := mem_filter.mp (mem_of_getElem? ‹_›)
      obtain ⟨sub, found, -⟩ := (coherent.mem_subranges live).mp mem.1
      have accesses : sub.locations ≠ [] := by
        simpa [subrange_eq_of_some found] using mem.2
      have inside := localAt_inside (alloc.nextSubrange + place)
        (alloc.nextRange + place) (coherent.ordered found) accesses
      rw [map_some, elim_some, elim_some, subrange_eq_of_some found,
        weight_of_inside inside.1 inside.2]
      rfl
  have old : ∑ other ∈ Finset.range alloc.nextSubrange, alloc.weightAt other =
      ∑ other ∈ Finset.range alloc.nextSubrange, (alloc.explode id).weightAt other +
        (range.subranges.map alloc.weightAt).sum := by
    rw [← sum_toFinset _ (coherent.nodup_subranges live), ← Finset.sum_sdiff known]
    congr 1
    have remaining : ∀ other ∈ Finset.range alloc.nextSubrange \ range.subranges.toFinset,
        alloc.weightAt other = (alloc.explode id).weightAt other := by
      intro other mem
      obtain ⟨inside, unlisted⟩ := Finset.mem_sdiff.mp mem
      rw [weightAt, weightAt, view.subrange?_old (Finset.mem_range.mp inside),
        if_neg (mem_toFinset.not.mp unlisted)]
    rw [Finset.sum_congr rfl remaining]
    refine Finset.sum_subset Finset.sdiff_subset fun other inside dropped => ?_
    have listed : other ∈ range.subranges := by
      by_contra unlisted
      exact dropped (Finset.mem_sdiff.mpr ⟨inside, mem_toFinset.not.mpr unlisted⟩)
    rw [weightAt, view.subrange?_old (Finset.mem_range.mp inside), if_pos listed, elim_none]
  rw [weight_eq_sum, weight_eq_sum, view.nextSubrange_eq, Finset.sum_range_add, old,
    Finset.sum_congr rfl fun place _ => new place, sum_range_getElem?]
  exact Nat.add_lt_add_left lighter _

end Allocation
end Dynarec
