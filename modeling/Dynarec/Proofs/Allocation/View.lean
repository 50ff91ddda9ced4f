import Dynarec.Allocation.Allocate
import Mathlib.Data.List.Nodup

/-!
# What an allocation shows after a change

An allocation is seen through the range and the subrange with a number and
through the subranges that a segment lists.  Each change of an allocation is
described once by what it does to these three views; nothing later opens the
arrays behind them.
-/

namespace Dynarec

open List
variable {id : SubrangeId}

namespace Allocation

variable {alloc : Allocation}

section

variable {α : Type} (items : Array (Option α)) (id other : Nat)

private theorem lt_size_of_getD (found : items.getD id none = some item) : id < items.size := by
  by_contra outside
  simp [Array.getD_eq_getD_getElem?, Array.getElem?_eq_none (Nat.not_lt.mp outside)] at found

private theorem getD_modify (change : α → α) :
    (items.modify id (·.map change)).getD other none =
      if id = other then (items.getD other none).map change else items.getD other none := by
  simp only [Array.getD_eq_getD_getElem?, Array.getElem?_modify]
  split
  · cases items[other]? <;> rfl
  · rfl

private theorem getD_setIfInBounds_none : (items.setIfInBounds id none).getD other none =
    if id = other then none else items.getD other none := by
  simp only [Array.getD_eq_getD_getElem?, Array.getElem?_setIfInBounds]
  split
  · split <;> rfl
  · rfl

private theorem getD_push (item : α) : (items.push (some item)).getD id none =
    if id = items.size then some item else items.getD id none := by
  simp only [Array.getD_eq_getD_getElem?, Array.getElem?_push]
  split <;> rfl

end

theorem subrange_eq_of_some (found : alloc.subrange? id = some sub) : alloc.subrange id = sub := by
  rw [Allocation.subrange, found, Option.getD_some]

theorem range_eq_of_some {id range}
    (found : alloc.range? id = some range) : alloc.range id = range := by
  rw [Allocation.range, found, Option.getD_some]

theorem lt_nextSubrange_of_subrange? (found : alloc.subrange? id = some sub) :
    id < alloc.nextSubrange :=
  lt_size_of_getD _ _ found

theorem lt_nextRange_of_range? {id range}
    (found : alloc.range? id = some range) : id < alloc.nextRange :=
  lt_size_of_getD _ _ found

theorem subrange?_eq_none_of_nextSubrange_le (fresh : alloc.nextSubrange ≤ id) :
    alloc.subrange? id = none :=
  Option.eq_none_iff_forall_ne_some.mpr fun _ found =>
    absurd (lt_nextSubrange_of_subrange? found) (Nat.not_lt.mpr fresh)

theorem range?_eq_none_of_nextRange_le {id} (fresh : alloc.nextRange ≤ id) :
    alloc.range? id = none :=
  Option.eq_none_iff_forall_ne_some.mpr fun _ found =>
    absurd (lt_nextRange_of_range? found) (Nat.not_lt.mpr fresh)

theorem mem_liveRanges_iff {range} :
    range ∈ alloc.liveRanges ↔ ∃ id, alloc.range? id = some range := by
  simp only [liveRanges, mem_filterMap, id_eq, exists_eq_right, Array.mem_toList_iff,
    range?, Array.getD_eq_getD_getElem?, Array.mem_iff_getElem?]
  constructor
  · rintro ⟨id, found⟩
    exact ⟨id, by rw [found, Option.getD_some]⟩
  · rintro ⟨id, found⟩
    refine ⟨id, ?_⟩
    cases entry : alloc.ranges[id]? with
    | none => rw [entry] at found; simp at found
    | some value => rw [entry, Option.getD_some] at found; rw [found]

@[simp] theorem range?_modifyRange (id other : RangeId) (change : LiveRange → LiveRange) :
    (alloc.modifyRange id change).range? other = if id = other then (alloc.range? other).map change
      else alloc.range? other :=
  getD_modify _ _ _ change

@[simp] theorem subrange?_modifyRange (id : RangeId) (change : LiveRange → LiveRange)
    (other : SubrangeId) :
    (alloc.modifyRange id change).subrange? other = alloc.subrange? other := rfl

@[simp] theorem range?_modifySubrange (id : SubrangeId) (change : Subrange → Subrange)
    (other : RangeId) :
    (alloc.modifySubrange id change).range? other = alloc.range? other := rfl

@[simp] theorem subrange?_modifySubrange (id other : SubrangeId) (change : Subrange → Subrange) :
    (alloc.modifySubrange id change).subrange? other =
      if id = other then (alloc.subrange? other).map change else alloc.subrange? other :=
  getD_modify _ _ _ change

@[simp] theorem idsIn_modifySubrange (id : SubrangeId) (change : Subrange → Subrange)
    (seg : SegmentId) :
    (alloc.modifySubrange id change).idsIn seg = alloc.idsIn seg := rfl

@[simp] theorem nextSubrange_modifySubrange (id : SubrangeId) (change : Subrange → Subrange) :
    (alloc.modifySubrange id change).nextSubrange = alloc.nextSubrange := by
  simp [nextSubrange, modifySubrange]

@[simp] theorem range?_tally (change : AllocationStats → AllocationStats) (id : RangeId) :
    (alloc.tally change).range? id = alloc.range? id := rfl

@[simp] theorem subrange?_tally (change : AllocationStats → AllocationStats) (id : SubrangeId) :
    (alloc.tally change).subrange? id = alloc.subrange? id := rfl

@[simp] theorem graph_tally (change : AllocationStats → AllocationStats) :
    (alloc.tally change).graph = alloc.graph := rfl

@[simp] theorem subrange?_reorder (seg : SegmentId) (ids : List SubrangeId) (id : SubrangeId) :
    (alloc.reorder seg ids).subrange? id = alloc.subrange? id := rfl

theorem idsIn_reorder (seg other : SegmentId) (ids : List SubrangeId)
    (inside : seg < alloc.bySegment.size) :
    (alloc.reorder seg ids).idsIn other =
      if seg = other then ids.toArray else alloc.idsIn other := by
  simp only [idsIn, reorder, Array.getD_eq_getD_getElem?, Array.getElem?_setIfInBounds, inside,
    if_true]
  split <;> rfl

section

variable (reg : Register) (slot : Slot)

@[simp] theorem range?_addRange (id : RangeId) :
    (alloc.addRange reg slot).range? id =
      if id = alloc.nextRange then some { id := alloc.nextRange, register := reg, slot }
      else alloc.range? id :=
  getD_push _ _ _

@[simp] theorem subrange?_addRange (id : SubrangeId) :
    (alloc.addRange reg slot).subrange? id = alloc.subrange? id := rfl

@[simp] theorem nextRange_addRange : (alloc.addRange reg slot).nextRange = alloc.nextRange + 1 := by
  simp [nextRange, addRange]

@[simp] theorem nextSubrange_addRange :
    (alloc.addRange reg slot).nextSubrange = alloc.nextSubrange := rfl

end

section

variable (range : RangeId) (seg : SegmentId) (start stop : Position) (locations : List Location)

@[simp] theorem range?_addSubrange (id : RangeId) :
    (alloc.addSubrange range seg start stop locations).range? id = if range = id then
        (alloc.range? id).map fun range =>
          { range with subranges := range.subranges ++ [alloc.nextSubrange] }
      else alloc.range? id :=
  range?_modifyRange range id _

@[simp] theorem subrange?_addSubrange (id : SubrangeId) :
    (alloc.addSubrange range seg start stop locations).subrange? id =
      if id = alloc.nextSubrange then
        some { id := alloc.nextSubrange, range, segment := seg, start, stop, locations }
      else alloc.subrange? id :=
  getD_push _ _ _

theorem idsIn_addSubrange (other : SegmentId) (inside : seg < alloc.bySegment.size) :
    (alloc.addSubrange range seg start stop locations).idsIn other =
      if seg = other then (alloc.idsIn other).push alloc.nextSubrange else alloc.idsIn other := by
  simp only [idsIn, addSubrange, modifyRange, Array.getD_eq_getD_getElem?, Array.getElem?_modify]
  split
  · subst other
    simp [inside]
  · rfl

@[simp] theorem nextRange_addSubrange :
    (alloc.addSubrange range seg start stop locations).nextRange = alloc.nextRange := by
  simp [nextRange, addSubrange, modifyRange]

@[simp] theorem nextSubrange_addSubrange :
    (alloc.addSubrange range seg start stop locations).nextSubrange = alloc.nextSubrange + 1 := by
  simp [nextSubrange, addSubrange, modifyRange]

end

@[simp] theorem subrange?_dropSubrange (id other : SubrangeId) :
    (alloc.dropSubrange id).subrange? other = if id = other then none else alloc.subrange? other :=
  getD_setIfInBounds_none _ _ _

@[simp] theorem idsIn_dropSubrange (id : SubrangeId) (seg : SegmentId) :
    (alloc.dropSubrange id).idsIn seg =
      if (alloc.subrange id).segment = seg then (alloc.idsIn seg).erase id
      else alloc.idsIn seg := by
  simp only [idsIn, dropSubrange, Array.getD_eq_getD_getElem?, Array.getElem?_modify]
  split
  · cases alloc.bySegment[seg]? <;> simp
  · rfl

theorem subrange?_foldl_dropSubrange (ids : List SubrangeId) (alloc : Allocation)
    (other : SubrangeId) :
    (ids.foldl dropSubrange alloc).subrange? other =
      if other ∈ ids then none else alloc.subrange? other := by
  induction ids generalizing alloc with
  | nil => simp
  | cons id ids ih =>
    rw [foldl_cons, ih, subrange?_dropSubrange]
    by_cases same : id = other
    · simp [same]
    · simp [same, Ne.symm same]

@[simp] theorem subrange?_dropRange (id : RangeId) (other : SubrangeId) :
    (alloc.dropRange id).subrange? other =
      if other ∈ (alloc.range id).subranges then none else alloc.subrange? other :=
  subrange?_foldl_dropSubrange _ alloc other

theorem exists_dropRange_eq (alloc : Allocation) (id : RangeId) : ∃ subranges bySegment,
    alloc.dropRange id =
      { alloc with ranges := alloc.ranges.setIfInBounds id none, subranges, bySegment } ∧
      subranges.size = alloc.subranges.size ∧ bySegment.size = alloc.bySegment.size := by
  have dropped (ids : List SubrangeId) alloc : ∃ subranges bySegment,
      ids.foldl dropSubrange alloc = { alloc with subranges, bySegment } ∧
        subranges.size = alloc.subranges.size ∧ bySegment.size = alloc.bySegment.size := by
    induction ids generalizing alloc with
    | nil => exact ⟨_, _, rfl, rfl, rfl⟩
    | cons id ids ih =>
      obtain ⟨subranges, bySegment, equal, size, count⟩ := ih (alloc.dropSubrange id)
      exact ⟨subranges, bySegment, equal, by simp [size, dropSubrange],
        by simp [count, dropSubrange]⟩
  obtain ⟨subranges, bySegment, equal, sizes⟩ := dropped (alloc.range id).subranges alloc
  exact ⟨subranges, bySegment, by rw [dropRange, equal], sizes⟩

@[simp] theorem range?_dropRange (id other : RangeId) :
    (alloc.dropRange id).range? other = if id = other then none else alloc.range? other := by
  obtain ⟨_, _, equal, _⟩ := alloc.exists_dropRange_eq id
  rw [equal]
  exact getD_setIfInBounds_none _ _ _

/-- Every segment lists exactly its subranges, each of them once. -/
structure Lists (alloc : Allocation) : Prop where
  mem_idsIn : ∀ {seg id}, id ∈ alloc.idsIn seg ↔
    ∃ sub, alloc.subrange? id = some sub ∧ sub.segment = seg
  nodup_idsIn : ∀ seg, (alloc.idsIn seg).toList.Nodup

namespace Lists

variable (lists : alloc.Lists)

include lists

theorem nextSubrange_not_mem (seg : SegmentId) : alloc.nextSubrange ∉ alloc.idsIn seg := by
  rw [lists.mem_idsIn]
  rintro ⟨sub, found, _⟩
  exact Nat.lt_irrefl _ (lt_nextSubrange_of_subrange? found)

theorem modifySubrange (id : SubrangeId) (change : Subrange → Subrange)
    (stays : ∀ sub, (change sub).segment = sub.segment) :
    (alloc.modifySubrange id change).Lists where
  mem_idsIn {seg other} := by
    rw [idsIn_modifySubrange, lists.mem_idsIn, subrange?_modifySubrange]
    split
    · cases alloc.subrange? other <;> simp [stays]
    · rfl
  nodup_idsIn := lists.nodup_idsIn

theorem tally (change : AllocationStats → AllocationStats) : (alloc.tally change).Lists :=
  ⟨lists.mem_idsIn, lists.nodup_idsIn⟩

theorem addRange (reg : Register) (slot : Slot) : (alloc.addRange reg slot).Lists :=
  ⟨lists.mem_idsIn, lists.nodup_idsIn⟩

theorem modifyRange (id : RangeId) (change : LiveRange → LiveRange) :
    (alloc.modifyRange id change).Lists :=
  ⟨lists.mem_idsIn, lists.nodup_idsIn⟩

theorem addSubrange (range : RangeId) (seg : SegmentId) (start stop : Position)
    (locations : List Location) (inside : seg < alloc.bySegment.size) :
    (alloc.addSubrange range seg start stop locations).Lists where
  mem_idsIn {other id} := by
    have unlisted := lists.nextSubrange_not_mem other
    rw [idsIn_addSubrange _ _ _ _ _ _ inside, subrange?_addSubrange]
    by_cases new : id = alloc.nextSubrange
    · subst new
      by_cases here : seg = other <;> simp [here, unlisted]
    · rw [if_neg new, ← lists.mem_idsIn]
      by_cases here : seg = other <;> simp [here, new]
  nodup_idsIn other := by
    have nodup := lists.nodup_idsIn other
    have unlisted := lists.nextSubrange_not_mem other
    rw [idsIn_addSubrange _ _ _ _ _ _ inside]
    split
    · rw [Array.toList_push, nodup_append]
      refine ⟨nodup, nodup_singleton _, ?_⟩
      intro member listed added isAdded equal
      rw [mem_singleton.mp isAdded] at equal
      exact unlisted (Array.mem_toList_iff.mp (equal ▸ listed))
    · exact nodup

omit lists in
private theorem toList_erase (ids : Array SubrangeId) (id : SubrangeId) :
    (ids.erase id).toList = ids.toList.erase id := by
  cases ids with
  | mk list => simp

theorem dropSubrange (found : alloc.subrange? id = some sub) : (alloc.dropSubrange id).Lists where
  mem_idsIn {seg other} := by
    rw [idsIn_dropSubrange, subrange?_dropSubrange, subrange_eq_of_some found]
    by_cases same : id = other
    · subst same
      by_cases here : sub.segment = seg
      · rw [if_pos here, ← Array.mem_toList_iff, toList_erase]
        simp [(lists.nodup_idsIn seg).mem_erase_iff]
      · rw [if_neg here, lists.mem_idsIn, found]
        simp [here]
    · rw [if_neg same, ← lists.mem_idsIn]
      split
      · rw [← Array.mem_toList_iff, toList_erase, mem_erase_of_ne (Ne.symm same),
          Array.mem_toList_iff]
      · rfl
  nodup_idsIn seg := by
    rw [idsIn_dropSubrange]
    split
    · rw [toList_erase]
      exact (lists.nodup_idsIn seg).erase id
    · exact lists.nodup_idsIn seg

theorem reorder (inside : seg < alloc.bySegment.size)
    (permuted : ids.Perm (alloc.idsIn seg).toList) : (alloc.reorder seg ids).Lists where
  mem_idsIn {other id} := by
    rw [idsIn_reorder _ _ _ inside, subrange?_reorder, ← lists.mem_idsIn]
    split
    next same =>
      subst same
      rw [← Array.mem_toList_iff, toList_toArray, permuted.mem_iff, Array.mem_toList_iff]
    · rfl
  nodup_idsIn other := by
    rw [idsIn_reorder _ _ _ inside]
    split
    · exact permuted.nodup_iff.mpr (lists.nodup_idsIn seg)
    · exact lists.nodup_idsIn other

end Lists
end Allocation
end Dynarec
