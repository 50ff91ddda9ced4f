import Dynarec.Proofs.Allocation.Split

/-!
# Replacing a range keeps an allocation coherent

A range is replaced by one local range for each of its subranges that has an
access.  The local ranges get the next new numbers in the order of those
subranges, and then the subranges of the range are dropped.
-/

namespace Dynarec

open List Option Subrange

theorem exists_ends {locs : List Location} (accesses : locs ≠ []) :
    ∃ first last, locs.head? = some first ∧ locs.getLast? = some last := by
  obtain ⟨first, head⟩ := isSome_iff_exists.mp (isSome_head?.mpr accesses)
  obtain ⟨last, final⟩ := isSome_iff_exists.mp (getLast?_isSome.mpr accesses)
  exact ⟨first, last, head, final⟩

namespace Subrange

/-- The part of a subrange from its first access up to its last one. -/
def localAt (sub : Subrange) (id : SubrangeId) (range : RangeId) : Subrange where
  id := id
  range := range
  segment := sub.segment
  start := match sub.locations.head? with
    | some first => first.index
    | none => sub.start
  stop := match sub.locations.getLast? with
    | some last => last.index + 1
    | none => sub.stop
  locations := sub.locations

section

variable {sub : Subrange} (id : SubrangeId) (range : RangeId)
  (ordered : sub.Ordered) (accesses : sub.locations ≠ [])

include accesses

theorem fits_localAt :
    Fits (sub.localAt id range).start (sub.localAt id range).stop
      (sub.localAt id range).locations := by
  obtain ⟨first, last, head, final⟩ := exists_ends accesses
  exact ⟨.inr (.inr ⟨first, head, by simp only [localAt, head]⟩),
    .inr (.inr ⟨last, final, by simp only [localAt, final]⟩)⟩

include ordered

theorem localAt_inside :
    (sub.localAt id range).start ≠ .atEntry ∧ (sub.localAt id range).stop ≠ .atExit := by
  obtain ⟨first, last, head, final⟩ := exists_ends accesses
  have firstBounds := ordered.bounds first (mem_of_mem_head? head)
  have lastBounds := ordered.bounds last (mem_of_getLast? final)
  simp only [localAt, head, final, Position.atEntry]
  lia

theorem narrows_localAt : (sub.localAt id range).Narrows sub := by
  obtain ⟨first, last, head, final⟩ := exists_ends accesses
  have firstCovered := ordered.covered (mem_of_mem_head? head)
  have lastCovered := ordered.covered (mem_of_getLast? final)
  obtain ⟨inside, stays⟩ := localAt_inside id range ordered accesses
  refine ⟨rfl, ?_, ?_, (absurd · inside), (absurd · stays)⟩ <;>
    simp only [localAt, head, final] <;> lia

theorem locations_localAt : (sub.localAt id range).locations =
    sub.locations.filter (sub.localAt id range).covers :=
  have inner : (sub.localAt id range).Ordered :=
    ⟨fits_localAt id range accesses, ordered.sorted, ordered.bounds⟩
  inner.filter_covers.symm

end
end Subrange

namespace Allocation

/-- Local ranges of one register added for the accesses of some subranges. -/
structure HasLocals (before after : Allocation) (range : LiveRange)
    (origins : List SubrangeId) : Prop extends Relists before after where
  subrange?_new : ∀ place, after.subrange? (before.nextSubrange + place) =
    origins[place]?.map fun origin =>
      (before.subrange origin).localAt (before.nextSubrange + place) (before.nextRange + place)
  range?_new : ∀ place, after.range? (before.nextRange + place) = origins[place]?.map fun _ => {
      id := before.nextRange + place
      register := range.register
      slot := range.slot
      subranges := [before.nextSubrange + place] }
  nextSubrange_eq : after.nextSubrange = before.nextSubrange + origins.length

/-- Nothing else changed but that local ranges were added. -/
structure LocalsAdded (before after : Allocation) (range : LiveRange)
    (origins : List SubrangeId) : Prop extends HasLocals before after range origins where
  subrange?_old : ∀ {id}, id < before.nextSubrange → after.subrange? id = before.subrange? id
  range?_old : ∀ {id}, id < before.nextRange → after.range? id = before.range? id
  nextRange_eq : after.nextRange = before.nextRange + origins.length

theorem LocalsAdded.refl (lists : alloc.Lists) (range : LiveRange) :
    LocalsAdded alloc alloc range [] where
  toRelists := ⟨rfl, rfl, rfl, lists⟩
  subrange?_old _ := rfl
  subrange?_new place := subrange?_eq_none_of_nextSubrange_le (Nat.le_add_right _ place)
  range?_old _ := rfl
  range?_new place := range?_eq_none_of_nextRange_le (Nat.le_add_right _ place)
  nextSubrange_eq := rfl
  nextRange_eq := rfl

theorem addLocal_eq (range : LiveRange) {id : SubrangeId}
    (accesses : (alloc.subrange id).locations ≠ []) :
    addLocal range alloc id =
      let part := (alloc.subrange id).localAt alloc.nextSubrange alloc.nextRange
      (alloc.addRange range.register range.slot).addSubrange alloc.nextRange
        part.segment part.start part.stop part.locations := by
  obtain ⟨first, last, head, final⟩ := exists_ends accesses
  simp only [addLocal, localAt, head, final]

namespace LocalsAdded

variable {after : Allocation} {range : LiveRange} (added : LocalsAdded before after range origins)

include added

theorem subrange_old {id} (old : id < before.nextSubrange) :
    after.subrange id = before.subrange id := by
  rw [Allocation.subrange, added.subrange?_old old]
  rfl

theorem addLocal {id} (old : id < before.nextSubrange)
    (inside : (before.subrange id).segment < before.bySegment.size)
    (accesses : (before.subrange id).locations ≠ []) :
    LocalsAdded before (Allocation.addLocal range after id) range (origins ++ [id]) := by
  have same := added.subrange_old old
  have next := added.nextSubrange_eq
  have nextRange := added.nextRange_eq
  have earlier {place} (ne : place ≠ origins.length) :
      (origins ++ [id])[place]? = origins[place]? := by
    rw [getElem?_append]
    split
    · rfl
    · rw [getElem?_eq_none (l := origins) (by lia), getElem?_eq_none (by simp; lia)]
  rw [addLocal_eq range (same ▸ accesses), same]
  refine ⟨⟨⟨added.graph_eq, added.registers_eq, ?_, ?_⟩, ?_, ?_, ?_⟩, ?_, ?_, ?_⟩
  · simp [addSubrange, modifyRange, addRange, added.size_eq]
  · exact (added.lists.addRange _ _).addSubrange _ _ _ _ _ (added.size_eq ▸ inside)
  · intro place
    simp only [subrange?_addSubrange, nextSubrange_addRange, subrange?_addRange, next, nextRange,
      Nat.add_left_cancel_iff]
    by_cases last : place = origins.length
    · subst last
      rw [if_pos rfl, getElem?_concat_length]
      rfl
    · rw [if_neg last, added.subrange?_new, earlier last]
  · intro place
    simp only [range?_addSubrange, range?_addRange, nextRange, Nat.add_left_cancel_iff,
      nextSubrange_addRange, next]
    by_cases last : place = origins.length
    · subst last
      rw [if_pos rfl, if_pos rfl, getElem?_concat_length]
      rfl
    · rw [if_neg last, if_neg (Ne.symm last), added.range?_new, earlier last]
  · simp [next, Nat.add_assoc]
  · intro other small
    rw [subrange?_addSubrange, nextSubrange_addRange, if_neg (by lia), subrange?_addRange]
    exact added.subrange?_old small
  · intro other small
    rw [range?_addSubrange, if_neg (by lia), range?_addRange, if_neg (by lia)]
    exact added.range?_old small
  · simp [nextRange, Nat.add_assoc]

theorem foldl {ids : List SubrangeId} (old : ∀ id ∈ ids, id < before.nextSubrange)
    (inside : ∀ id ∈ ids, (before.subrange id).segment < before.bySegment.size) :
    LocalsAdded before (ids.foldl (Allocation.addLocal range) after) range
      (origins ++ ids.filter fun id => (before.subrange id).locations ≠ []) := by
  induction ids generalizing after origins with
  | nil => simpa using added
  | cons id ids ih =>
    obtain ⟨old, oldRest⟩ := forall_mem_cons.mp old
    obtain ⟨inside, insideRest⟩ := forall_mem_cons.mp inside
    rw [foldl_cons]
    by_cases accesses : (before.subrange id).locations = []
    · have unchanged : Allocation.addLocal range after id = after := by
        rw [Allocation.addLocal, added.subrange_old old, accesses]
        rfl
      rw [unchanged, filter_cons_of_neg (by simpa using accesses)]
      exact ih added oldRest insideRest
    · rw [filter_cons_of_pos (by simpa using accesses), append_cons]
      exact ih (added.addLocal old inside accesses) oldRest insideRest

end LocalsAdded

theorem lists_foldl_dropSubrange (lists : alloc.Lists) {ids : List SubrangeId}
    (live : ∀ id ∈ ids, ∃ sub, alloc.subrange? id = some sub) (nodup : ids.Nodup) :
    (ids.foldl dropSubrange alloc).Lists := by
  induction ids generalizing alloc with
  | nil => exact lists
  | cons id ids ih =>
    obtain ⟨fresh, nodup⟩ := nodup_cons.mp nodup
    obtain ⟨⟨sub, found⟩, live⟩ := forall_mem_cons.mp live
    refine ih (lists.dropSubrange found) (fun other mem => ?_) nodup
    rw [subrange?_dropSubrange, if_neg (ne_of_mem_of_not_mem mem fresh).symm]
    exact live other mem

/-- What the replacement of a range does to an allocation. -/
structure ExplodeAt (before after : Allocation) (id : RangeId) (range : LiveRange)
    (origins : List SubrangeId) : Prop extends HasLocals before after range origins where
  found : before.range? id = some range
  origins_eq : origins = range.subranges.filter fun id => (before.subrange id).locations ≠ []
  subrange?_old : ∀ {other}, other < before.nextSubrange →
    after.subrange? other = if other ∈ range.subranges then none else before.subrange? other
  range?_old : ∀ {other}, other < before.nextRange →
    after.range? other = if id = other then none else before.range? other

theorem explodeAt_of_found (coherent : alloc.Coherent) {id} {range : LiveRange}
    (found : alloc.range? id = some range) :
    ExplodeAt alloc (alloc.explode id) id range
      (range.subranges.filter fun id => (alloc.subrange id).locations ≠ []) := by
  have members : ∀ mem ∈ range.subranges, ∃ sub, alloc.subrange? mem = some sub :=
    fun mem listed => ((coherent.mem_subranges found).mp listed).imp fun _ live => live.1
  have old : ∀ mem ∈ range.subranges, mem < alloc.nextSubrange := by
    intro mem listed
    obtain ⟨sub, live⟩ := members mem listed
    exact lt_nextSubrange_of_subrange? live
  have inside : ∀ mem ∈ range.subranges, (alloc.subrange mem).segment < alloc.bySegment.size := by
    intro mem listed
    obtain ⟨sub, live⟩ := members mem listed
    rw [subrange_eq_of_some live]
    exact coherent.listed _ (coherent.segment_mem live)
  have oldRange := lt_nextRange_of_range? found
  have added := (LocalsAdded.refl coherent.lists range).foldl old inside
  rw [nil_append] at added
  rw [explode, range_eq_of_some found]
  generalize range.subranges.foldl (addLocal range) alloc = locals at added
  have same : locals.range id = range := range_eq_of_some (by rw [added.range?_old oldRange, found])
  have lists := lists_foldl_dropSubrange added.lists
    (fun mem listed => added.subrange?_old (old mem listed) ▸ members mem listed)
    (coherent.nodup_subranges found)
  obtain ⟨_, _, shape, size, count⟩ := locals.exists_dropRange_eq id
  refine ⟨⟨⟨?_, ?_, ?_, ?_⟩, ?_, ?_, ?_⟩, found, rfl, ?_, ?_⟩
  · rw [shape]
    exact added.graph_eq
  · rw [shape]
    exact added.registers_eq
  · rw [shape]
    exact count.trans added.size_eq
  · apply Lists.tally
    rw [dropRange, same]
    exact ⟨lists.mem_idsIn, lists.nodup_idsIn⟩
  · intro place
    rw [subrange?_tally, subrange?_dropRange, same, added.subrange?_new, if_neg]
    exact fun listed => absurd (old _ listed) (Nat.not_lt.mpr (Nat.le_add_right _ place))
  · intro place
    rw [range?_tally, range?_dropRange, added.range?_new, if_neg (by lia)]
  · rw [shape]
    exact size.trans added.nextSubrange_eq
  · intro other small
    rw [subrange?_tally, subrange?_dropRange, same, added.subrange?_old small]
  · intro other small
    rw [range?_tally, range?_dropRange, added.range?_old small]

namespace ExplodeAt

variable {after : Allocation} {id : RangeId} {range : LiveRange}
  (view : ExplodeAt before after id range origins)

include view

theorem subrange?_cases (live : after.subrange? other = some part) :
    (other < before.nextSubrange ∧ other ∉ range.subranges ∧ before.subrange? other = some part) ∨
      ∃ place origin, other = before.nextSubrange + place ∧ origins[place]? = some origin ∧
        part = (before.subrange origin).localAt other (before.nextRange + place) := by
  by_cases old : other < before.nextSubrange
  · rw [view.subrange?_old old] at live
    split at live
    · cases live
    next unlisted => exact .inl ⟨old, unlisted, live⟩
  · obtain ⟨place, rfl⟩ := Nat.exists_eq_add_of_le (Nat.not_lt.mp old)
    rw [view.subrange?_new, map_eq_some_iff] at live
    obtain ⟨origin, found, equal⟩ := live
    exact .inr ⟨place, origin, rfl, found, equal.symm⟩

theorem hosts (live : after.range? other = some new) (assigned : new.isAssigned) :
    before.range? other = some new := by
  by_cases old : other < before.nextRange
  · rw [view.range?_old old] at live
    split at live
    · cases live
    · exact live
  · obtain ⟨place, rfl⟩ := Nat.exists_eq_add_of_le (Nat.not_lt.mp old)
    rw [view.range?_new, map_eq_some_iff] at live
    obtain ⟨_, _, rfl⟩ := live
    cases assigned

variable (coherent : before.Coherent)

include coherent

theorem origin_found {place : Nat} (listed : origins[place]? = some origin) :
    ∃ sub, before.subrange? origin = some sub ∧ before.subrange origin = sub ∧
      sub.range = id ∧ sub.locations ≠ [] := by
  have mem := mem_of_getElem? listed
  rw [view.origins_eq, mem_filter, decide_eq_true_eq] at mem
  obtain ⟨sub, found, inside⟩ := (coherent.mem_subranges view.found).mp mem.1
  rw [subrange_eq_of_some found] at mem
  exact ⟨sub, found, subrange_eq_of_some found, inside, mem.2⟩

/-- The numbers after a replacement lead back to the subranges of the range. -/
def origin (before : Allocation) (origins : List SubrangeId) (other : SubrangeId) : SubrangeId :=
  if other < before.nextSubrange then other
  else origins.getD (other - before.nextSubrange) 0

omit view coherent in
theorem origin_old (old : other < before.nextSubrange) : origin before origins other = other :=
  if_pos old

omit view coherent in
theorem origin_new (listed : origins[place]? = some source) :
    origin before origins (before.nextSubrange + place) = source := by
  rw [origin, if_neg (Nat.not_lt.mpr (Nat.le_add_right _ place)), Nat.add_sub_cancel_left,
    getD_eq_getElem?_getD, listed, getD_some]

theorem range?_unlisted (found : before.subrange? other = some sub)
    (unlisted : other ∉ range.subranges) : after.range? sub.range = before.range? sub.range := by
  rw [view.range?_old (coherent.range_lt_nextRange found), if_neg]
  exact fun equal => unlisted ((coherent.mem_subranges view.found).mpr ⟨sub, found, equal.symm⟩)

theorem refines : Refines before after (origin before origins) where
  toRelists := view.toRelists
  narrows {other part} live := by
    rcases view.subrange?_cases live with ⟨old, _, found⟩ | ⟨place, source, rfl, listed, rfl⟩
    · rw [origin_old old]
      exact ⟨part, found, Subrange.Narrows.refl part, coherent.fits found,
        (coherent.ordered found).filter_covers.symm⟩
    · obtain ⟨sub, found, equal, _, accesses⟩ := view.origin_found coherent listed
      have ordered := coherent.ordered found
      rw [equal, origin_new listed]
      exact ⟨sub, found, narrows_localAt _ _ ordered accesses,
        fits_localAt _ _ accesses, locations_localAt _ _ ordered accesses⟩
  kept_or_fresh {other part source} live found := by
    rcases view.subrange?_cases live with ⟨old, unlisted, kept⟩ | ⟨place, number, rfl, listed, rfl⟩
    · rw [origin_old old, kept] at found
      cases found
      refine .inl ⟨origin_old old, Subrange.Keeps.refl part, ?_⟩
      rw [view.range?_unlisted coherent kept unlisted]
      exact coherent.range_live kept
    · obtain ⟨sub, found', equal, inside, accesses⟩ := view.origin_found coherent listed
      rw [origin_new listed, found'] at found
      cases found
      have touches := localAt_inside (before.nextSubrange + place)
        (before.nextRange + place) (coherent.ordered found') accesses
      rw [equal]
      refine .inr ⟨rfl, Nat.le_add_right _ place, ?_, touches.1, fun side => by cases side <;> rfl⟩
      rw [inside, range_eq_of_some view.found]
      change after.range? (before.nextRange + place) = _
      rw [view.range?_new, listed]
      rfl
  separate live anotherLive ne same := by
    have listed {place : Nat} {source : SubrangeId} (stands : origins[place]? = some source) :
        source ∈ range.subranges := by
      have mem := mem_of_getElem? stands
      rw [view.origins_eq] at mem
      exact mem_of_mem_filter mem
    rcases view.subrange?_cases live with ⟨old, unlisted, _⟩ | ⟨place, source, rfl, stands, rfl⟩ <;>
      rcases view.subrange?_cases anotherLive with
        ⟨anotherOld, anotherUnlisted, _⟩ | ⟨anotherPlace, anotherSource, rfl, anotherStands, rfl⟩
    · rw [origin_old old, origin_old anotherOld] at same
      exact absurd same ne
    · rw [origin_old old, origin_new anotherStands] at same
      exact absurd (listed anotherStands) (same ▸ unlisted)
    · rw [origin_old anotherOld, origin_new stands] at same
      exact absurd (listed stands) (same ▸ anotherUnlisted)
    · have nodup : origins.Nodup := by
        rw [view.origins_eq]
        exact (coherent.nodup_subranges view.found).filter _
      rw [origin_new stands, origin_new anotherStands] at same
      subst same
      have inside := (List.getElem?_eq_some_iff.mp stands).1
      have equal := (getElem?_inj inside nodup).mp (stands.trans anotherStands.symm)
      exact absurd (congrArg (before.nextSubrange + ·) equal) ne
  range_old {other _} live old := by
    rw [view.range?_old old] at live
    split at live
    · cases live
    next ne =>
      refine ⟨⟨_, live⟩, fun {mem sub} found inside => ⟨sub, ?_, inside⟩⟩
      rw [view.subrange?_old (lt_nextSubrange_of_subrange? found), if_neg, found]
      intro listed
      obtain ⟨_, found', inside'⟩ := (coherent.mem_subranges view.found).mp listed
      rw [found] at found'
      cases found'
      exact ne (inside'.symm.trans inside)
  range_new {other _} live new := by
    obtain ⟨place, rfl⟩ := Nat.exists_eq_add_of_le new
    rw [view.range?_new, map_eq_some_iff] at live
    obtain ⟨source, listed, _⟩ := live
    refine ⟨before.nextSubrange + place, (before.subrange source).localAt
      (before.nextSubrange + place) (before.nextRange + place), ?_, rfl⟩
    rw [view.subrange?_new, listed, map_some]

end ExplodeAt
end Allocation
end Dynarec
