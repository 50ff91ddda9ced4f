import Dynarec.Proofs.Allocation.Change
import Dynarec.Proofs.Allocation.Explode
import Dynarec.Proofs.Allocation.Links

/-!
# Steps of the assignment

Passes of the assignment change an allocation in five ways: they put the
subranges of a segment in order, give a range a register that no overlapping
range holds, split a subrange, replace a range, and count their work.  Every
step keeps the allocation coherent, its ranges linked, and overlapping ranges in
different registers.
-/

namespace Dynarec

open List

/-- A range without its host register. -/
def LiveRange.bare (range : LiveRange) : LiveRange :=
  { range with host := -1 }

/-- A subrange without its loads and stores. -/
def Subrange.bare (sub : Subrange) : Subrange :=
  { sub with noLoad := false, hasStore := false, hasDelayedStore := false }

namespace Allocation

variable {alloc : Allocation} {id : RangeId} {range : LiveRange}

/-- Only host registers, loads and stores, and the order of the lists of segments changed. -/
structure Adjusts (before after : Allocation) : Prop extends Relists before after where
  subrange?_bare : ∀ id, (after.subrange? id).map Subrange.bare =
    (before.subrange? id).map Subrange.bare
  range?_eq : ∀ id, (after.range? id).map LiveRange.bare = (before.range? id).map LiveRange.bare

namespace Adjusts

variable {after : Allocation} (adjusts : Adjusts before after)

include adjusts

theorem origin (live : after.range? id = some range) :
    ∃ host, before.range? id = some { range with host } := by
  have equal := adjusts.range?_eq id
  rw [live, Option.map_some] at equal
  obtain ⟨old, found, same⟩ := Option.map_eq_some_iff.mp equal.symm
  refine ⟨old.host, found.trans (congrArg some ?_)⟩
  cases range
  cases old
  simpa [LiveRange.bare] using same

theorem source {id} (found : after.subrange? id = some sub) :
    ∃ old noLoad hasStore hasDelayedStore, before.subrange? id = some old ∧
      sub = { old with noLoad, hasStore, hasDelayedStore } := by
  have equal := adjusts.subrange?_bare id
  rw [found, Option.map_some] at equal
  obtain ⟨old, oldFound, same⟩ := Option.map_eq_some_iff.mp equal.symm
  refine ⟨old, sub.noLoad, sub.hasStore, sub.hasDelayedStore, oldFound, ?_⟩
  cases sub
  cases old
  simp only [Subrange.bare, Subrange.mk.injEq, and_true] at same ⊢
  simp [same]

theorem image {id} (found : before.subrange? id = some old) :
    ∃ noLoad hasStore hasDelayedStore,
      after.subrange? id = some { old with noLoad, hasStore, hasDelayedStore } := by
  have equal := adjusts.subrange?_bare id
  rw [found, Option.map_some] at equal
  obtain ⟨sub, now, -⟩ := Option.map_eq_some_iff.mp equal
  obtain ⟨other, noLoad, hasStore, hasDelayedStore, otherFound, rfl⟩ := adjusts.source now
  cases found.symm.trans otherFound
  exact ⟨noLoad, hasStore, hasDelayedStore, now⟩

theorem refines (coherent : before.Coherent) : Refines before after fun id => id where
  toRelists := adjusts.toRelists
  narrows live := by
    obtain ⟨old, _, _, _, found, rfl⟩ := adjusts.source live
    exact ⟨old, found, ⟨rfl, Int.le_refl _, Int.le_refl _, fun entry => entry, fun exit => exit⟩,
      (coherent.fits found :), (coherent.ordered found).filter_covers.symm⟩
  kept_or_fresh live origin := by
    obtain ⟨old, _, _, _, found, rfl⟩ := adjusts.source live
    obtain rfl := Option.some.inj (found.symm.trans origin)
    obtain ⟨range, rangeLive⟩ := coherent.range_live found
    have equal := adjusts.range?_eq old.range
    rw [rangeLive, Option.map_some] at equal
    obtain ⟨range, rangeLive, _⟩ := Option.map_eq_some_iff.mp equal
    refine .inl ⟨rfl, ⟨rfl, rfl, rfl, fun exit => exit, ?_⟩, range, rangeLive⟩
    exact fun side => by cases side <;> rfl
  separate _ _ different same := absurd same different
  range_old live _ := ⟨adjusts.origin live, fun found inside => by
    obtain ⟨_, _, _, now⟩ := adjusts.image found
    exact ⟨_, now, inside⟩⟩
  range_new live new := by
    obtain ⟨_, old⟩ := adjusts.origin live
    exact absurd (lt_nextRange_of_range? old) (Nat.not_lt.mpr new)

theorem coherent (coherent : before.Coherent) : after.Coherent :=
  (adjusts.refines coherent).coherent_after coherent

end Adjusts

/-- Only host registers and the order of the lists of segments changed. -/
structure Reassigns (before after : Allocation) : Prop extends Relists before after where
  subrange?_eq : ∀ id, after.subrange? id = before.subrange? id
  nextSubrange_eq : after.nextSubrange = before.nextSubrange
  range?_eq : ∀ id, (after.range? id).map LiveRange.bare = (before.range? id).map LiveRange.bare

theorem Reassigns.adjusts {before after} (reassigns : Reassigns before after) :
    Adjusts before after where
  toRelists := reassigns.toRelists
  subrange?_bare id := by rw [reassigns.subrange?_eq]
  range?_eq := reassigns.range?_eq

theorem reassigns_reorder (lists : alloc.Lists) (inside : seg < alloc.bySegment.size)
    (permuted : ids.Perm (alloc.idsIn seg).toList) :
    alloc.Reassigns (alloc.reorder seg ids) where
  toRelists := ⟨rfl, rfl, by simp [reorder], lists.reorder inside permuted⟩
  subrange?_eq _ := rfl
  nextSubrange_eq := rfl
  range?_eq _ := rfl

theorem reassigns_tally (lists : alloc.Lists) (change : AllocationStats → AllocationStats) :
    alloc.Reassigns (alloc.tally change) where
  toRelists := ⟨rfl, rfl, rfl, lists.tally change⟩
  subrange?_eq _ := rfl
  nextSubrange_eq := rfl
  range?_eq _ := rfl

theorem reassigns_assign (lists : alloc.Lists) (id : RangeId) (host : HostRegister) :
    alloc.Reassigns (alloc.modifyRange id ({ · with host })) where
  toRelists := ⟨rfl, rfl, rfl, lists.modifyRange id _⟩
  subrange?_eq _ := rfl
  nextSubrange_eq := rfl
  range?_eq other := by
    rw [range?_modifyRange]
    split
    · cases alloc.range? other <;> rfl
    · rfl

/-- Ranges hold registers of the host, and those that overlap hold different ones. -/
structure Exclusive (alloc : Allocation) : Prop where
  host_lt : ∀ {id range}, alloc.range? id = some range → range.isAssigned →
    range.host < alloc.registers
  disjoint : ∀ {id sub range other otherSub otherRange},
    alloc.subrange? id = some sub → alloc.range? sub.range = some range →
    alloc.subrange? other = some otherSub →
    alloc.range? otherSub.range = some otherRange →
    sub.range ≠ otherSub.range → sub.segment = otherSub.segment →
    sub.overlaps otherSub → range.isAssigned →
    otherRange.isAssigned → range.host ≠ otherRange.host

theorem Refines.exclusive {before after} (refines : Refines before after origin)
    (hosts : ∀ {id range}, after.range? id = some range → range.isAssigned →
      before.range? id = some range) (exclusive : before.Exclusive) : after.Exclusive := by
  have kept : ∀ {id part range}, after.subrange? id = some part →
      before.range? part.range = some range →
      ∃ sub, before.subrange? id = some sub ∧ part.Narrows sub ∧ sub.range = part.range := by
    intro id part range live rangeLive
    rcases refines.cases live with ⟨sub, found, narrows, keeps⟩ | ⟨_, _, _, fresh⟩
    · exact ⟨sub, found, narrows, keeps.range_eq.symm⟩
    · exact absurd (lt_nextRange_of_range? rangeLive) (Nat.not_lt.mpr fresh.new_range)
  constructor
  · intro id range live assigned
    rw [refines.registers_eq]
    exact exclusive.host_lt (hosts live assigned) assigned
  · intro id part range other otherPart otherRange live rangeLive otherLive otherRangeLive
      different sameSeg overlap assigned otherAssigned
    have rangeFound := hosts rangeLive assigned
    have otherRangeFound := hosts otherRangeLive otherAssigned
    obtain ⟨sub, found, narrows, same⟩ := kept live rangeFound
    obtain ⟨otherSub, otherFound, otherNarrows, otherSame⟩ := kept otherLive otherRangeFound
    rw [← same] at rangeFound different
    rw [← otherSame] at otherRangeFound different
    rw [narrows.segment_eq, otherNarrows.segment_eq] at sameSeg
    exact exclusive.disjoint found rangeFound otherFound otherRangeFound different sameSeg
      (narrows.overlaps otherNarrows overlap) assigned otherAssigned

theorem mem_hostRegisters_iff (nonneg : 0 ≤ alloc.registers) :
    host ∈ alloc.hostRegisters ↔ 0 ≤ host ∧ host < alloc.registers ∧ host < 32 := by
  rw [hostRegisters, if_neg (Int.not_lt.mpr nonneg)]
  simp only [mem_map, mem_range]
  constructor
  · rintro ⟨number, small, rfl⟩
    lia
  · rintro ⟨lower, upper, few⟩
    refine ⟨host.toNat, ?_, Int.toNat_of_nonneg lower⟩
    lia

/-- When a range may hold a register. -/
theorem mem_allowed_iff (coherent : alloc.Coherent) (live : alloc.range? id = some range) :
    host ∈ alloc.allowed range ↔ host ∈ alloc.hostRegisters ∧
      ∀ {mem sub other otherSub}, alloc.subrange? mem = some sub →
        sub.range = id → alloc.subrange? other = some otherSub →
        other ≠ mem → otherSub.segment = sub.segment →
        sub.overlaps otherSub → alloc.hostOf otherSub ≠ host := by
  rw [allowed, mem_filter]
  refine and_congr_right fun _ => ?_
  simp only [decide_eq_true_eq, mem_flatMap, not_exists, not_and, subrangesOf, mem_map,
    forall_exists_index, and_imp, forall_apply_eq_imp_iff₂, Array.mem_toList_iff,
    Array.mem_filterMap]
  constructor
  · intro free mem sub other otherSub found inside otherFound ne same overlap equal
    refine free mem ((coherent.mem_subranges live).mpr ⟨sub, found, inside⟩) other ?_ ?_
    · rw [subrange_eq_of_some found]
      exact coherent.lists.mem_idsIn.mpr ⟨otherSub, otherFound, same⟩
    · rw [subrange_eq_of_some found, subrange_eq_of_some otherFound, coherent.subrange_id found]
      simp [ne, overlap, equal]
  · intro free mem listed other otherListed holds
    obtain ⟨sub, found, inside⟩ := (coherent.mem_subranges live).mp listed
    rw [subrange_eq_of_some found] at otherListed holds
    obtain ⟨otherSub, otherFound, same⟩ := coherent.lists.mem_idsIn.mp otherListed
    rw [subrange_eq_of_some otherFound, coherent.subrange_id found] at holds
    split at holds
    next conditions =>
      simp only [Bool.and_eq_true, decide_eq_true_eq] at conditions
      exact free found inside otherFound conditions.1 same conditions.2 (Option.some.inj holds)
    · cases holds

theorem Exclusive.assign (exclusive : alloc.Exclusive) (coherent : alloc.Coherent)
    (nonneg : 0 ≤ alloc.registers) (live : alloc.range? id = some range)
    (free : host ∈ alloc.allowed range) : (alloc.modifyRange id ({ · with host })).Exclusive := by
  obtain ⟨listed, free⟩ := (mem_allowed_iff coherent live).mp free
  have bounds := (mem_hostRegisters_iff nonneg).mp listed
  have hosts : ∀ {other otherRange},
      (alloc.modifyRange id ({ · with host })).range? other = some otherRange →
      (other = id ∧ otherRange.host = host) ∨
        (other ≠ id ∧ alloc.range? other = some otherRange) := by
    intro other otherRange found
    rw [range?_modifyRange] at found
    split at found
    next equal =>
      obtain ⟨old, _, rfl⟩ := Option.map_eq_some_iff.mp found
      exact .inl ⟨equal.symm, rfl⟩
    next ne => exact .inr ⟨Ne.symm ne, found⟩
  have differs : ∀ {mem sub other otherSub otherRange},
      alloc.subrange? mem = some sub → sub.range = id →
      alloc.subrange? other = some otherSub →
      alloc.range? otherSub.range = some otherRange → otherSub.range ≠ id →
      otherSub.segment = sub.segment → sub.overlaps otherSub →
      otherRange.host ≠ host := by
    intro mem sub other otherSub otherRange found inside otherFound otherLive ne same overlap
    have apart : other ≠ mem := by
      rintro rfl
      cases found.symm.trans otherFound
      exact ne inside
    have holds := free found inside otherFound apart same overlap
    rwa [hostOf, range_eq_of_some otherLive] at holds
  constructor
  · intro other otherRange found assigned
    rcases hosts found with ⟨_, equal⟩ | ⟨_, old⟩
    · exact equal ▸ bounds.2.1
    · exact exclusive.host_lt old assigned
  · intro mem sub range' other otherSub otherRange found rangeLive otherFound
      otherRangeLive ne sameSeg overlap assigned otherAssigned
    rcases hosts rangeLive with ⟨here, equal⟩ | ⟨elsewhere, old⟩ <;>
      rcases hosts otherRangeLive with ⟨otherHere, otherEqual⟩ | ⟨otherElsewhere, otherOld⟩
    · exact absurd (here.trans otherHere.symm) ne
    · rw [equal]
      exact (differs found here otherFound otherOld otherElsewhere sameSeg.symm overlap).symm
    · rw [otherEqual]
      rw [Subrange.overlaps_comm] at overlap
      exact differs otherFound otherHere found old elsewhere sameSeg overlap
    · exact exclusive.disjoint found old otherFound otherOld ne sameSeg overlap assigned
        otherAssigned

inductive Step : Allocation → Allocation → Prop
  | reorder {alloc : Allocation} {seg : SegmentId} {ids : List SubrangeId}
      (member : seg ∈ alloc.graph.order) (permuted : ids.Perm (alloc.idsIn seg).toList) :
      Step alloc (alloc.reorder seg ids)
  | assign {alloc : Allocation} {id : RangeId} {range : LiveRange} {host : HostRegister}
      (live : alloc.range? id = some range) (free : host ∈ alloc.allowed range) :
      Step alloc (alloc.modifyRange id ({ · with host }))
  | split {alloc result : Allocation} {id : SubrangeId} {place : Position}
      {tail : Option SubrangeId} (done : alloc.split id place true = .ok (result, tail)) :
      Step alloc result
  | explode {alloc : Allocation} {id : RangeId} {range : LiveRange}
      (live : alloc.range? id = some range) : Step alloc (alloc.explode id)
  | tally {alloc : Allocation} (change : AllocationStats → AllocationStats) :
      Step alloc (alloc.tally change)

/-- What every allocation has that the steps of an assignment lead to. -/
structure Sound (alloc : Allocation) : Prop where
  coherent : alloc.Coherent
  exclusive : alloc.Exclusive
  nonnegative : 0 ≤ alloc.registers

section

variable {after : Allocation} (step : Step before after)

include step

theorem Step.exists_refines (coherent : before.Coherent) :
    ∃ origin, Refines before after origin := by
  cases step with
  | reorder mem permuted =>
    have reassigns := reassigns_reorder coherent.lists (coherent.listed _ mem) permuted
    exact ⟨_, reassigns.adjusts.refines coherent⟩
  | assign live free => exact ⟨_, (reassigns_assign coherent.lists _ _).adjusts.refines coherent⟩
  | split done =>
    obtain ⟨sub, view⟩ := splitAt_of_split coherent done
    exact ⟨_, view.refines coherent⟩
  | explode live => exact ⟨_, (explodeAt_of_found coherent live).refines coherent⟩
  | tally change => exact ⟨_, (reassigns_tally coherent.lists change).adjusts.refines coherent⟩

theorem Step.target_eq (coherent : before.Coherent) :
    after.graph = before.graph ∧ after.registers = before.registers := by
  obtain ⟨_, refines⟩ := step.exists_refines coherent
  exact ⟨refines.graph_eq, refines.registers_eq⟩

theorem Step.exclusive (sound : before.Sound) : after.Exclusive := by
  cases step with
  | reorder mem permuted => exact ⟨sound.exclusive.host_lt, sound.exclusive.disjoint⟩
  | assign live free => exact sound.exclusive.assign sound.coherent sound.nonnegative live free
  | split done =>
    obtain ⟨sub, view⟩ := splitAt_of_split sound.coherent done
    exact (view.refines sound.coherent).exclusive view.hosts sound.exclusive
  | explode live =>
    have view := explodeAt_of_found sound.coherent live
    exact (view.refines sound.coherent).exclusive view.hosts sound.exclusive
  | tally change => exact ⟨sound.exclusive.host_lt, sound.exclusive.disjoint⟩

theorem Step.coherent (coherent : before.Coherent) : after.Coherent := by
  obtain ⟨_, refines⟩ := step.exists_refines coherent
  exact refines.coherent_after coherent

theorem Step.sound (sound : before.Sound) : after.Sound where
  coherent := step.coherent sound.coherent
  exclusive := step.exclusive sound
  nonnegative := by
    rw [(step.target_eq sound.coherent).2]
    exact sound.nonnegative

end

/-- Several steps of the assignment. -/
def Steps : Allocation → Allocation → Prop :=
  Relation.ReflTransGen Step

section

variable {after : Allocation} (steps : Steps before after)

include steps

theorem Steps.sound (sound : before.Sound) : after.Sound := by
  induction steps with
  | refl => exact sound
  | tail _ step ih => exact step.sound ih

variable (start : before.Coherent)

include start

/-- What every refinement of a coherent allocation keeps, the steps of an assignment keep. -/
theorem Steps.induction {motive : Allocation → Prop} (initial : motive before)
    (refined : ∀ {middle last origin}, Refines middle last origin → middle.Coherent →
      motive middle → motive last) : after.Coherent ∧ motive after := by
  induction steps with
  | refl => exact ⟨start, initial⟩
  | tail _ step ih =>
    obtain ⟨_, refines⟩ := step.exists_refines ih.1
    exact ⟨refines.coherent_after ih.1, refined refines ih.1 ih.2⟩

theorem Steps.coherent : after.Coherent :=
  (steps.induction (motive := fun _ => True) start trivial fun _ _ _ => trivial).1

theorem Steps.target_eq : after.graph = before.graph ∧ after.registers = before.registers :=
  (steps.induction (motive := fun last =>
      last.graph = before.graph ∧ last.registers = before.registers) start ⟨rfl, rfl⟩
    fun refines _ ih => ⟨refines.graph_eq.trans ih.1, refines.registers_eq.trans ih.2⟩).2

theorem Steps.linked (linked : before.Linked) : after.Linked :=
  (steps.induction start linked Refines.linked).2

theorem Steps.keepsLinks : KeepsLinks before after :=
  (steps.induction start .refl fun refines coherent ih =>
    ih.trans (refines.keepsLinks coherent)).2

end

theorem sound_ofGraph (numbered : g.Numbered) (short : g.IsShort)
    {registers} (nonnegative : 0 ≤ registers) : (ofGraph g registers).Sound where
  coherent := coherent_ofGraph numbered short registers
  exclusive := by
    have unassigned : ∀ {id range}, (ofGraph g registers).range? id = some range →
        range.isAssigned = false := by
      intro id range live
      rw [LiveRange.isAssigned, host_buildRanges _ _ _ _ _ live]
      rfl
    constructor
    · intro id range live assigned
      exact absurd assigned (by simp [unassigned live])
    · intro _ _ _ _ _ _ _ live _ _ _ _ _ assigned
      exact absurd assigned (by simp [unassigned live])
  nonnegative := by
    rw [registers_ofGraph]
    exact nonnegative

end Allocation
end Dynarec
