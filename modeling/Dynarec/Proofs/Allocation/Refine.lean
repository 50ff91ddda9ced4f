import Dynarec.Proofs.Allocation.Coherence

/-!
# Refinements of an allocation

A change refines an allocation if every subrange behind it lies inside one that
was there before, and either stayed in its range or is alone in a new one.  Both
ways of spilling are refinements, and so is a change of host registers.  A
refinement keeps an allocation coherent.
-/

namespace Dynarec

/-- The continuation of a subrange behind a taken jump or behind a fall through. -/
def Subrange.link (sub : Subrange) : Bool → Option SubrangeId
  | true => sub.taken
  | false => sub.notTaken

/-- What is left of a subrange that stayed in its range. -/
structure Subrange.Keeps (sub part : Subrange) : Prop where
  id_eq : part.id = sub.id
  range_eq : part.range = sub.range
  start_eq : part.start = sub.start
  stop_eq : sub.stop = .atExit → part.stop = .atExit
  link_eq : ∀ side, part.link side = sub.link side

theorem Subrange.Keeps.refl (sub : Subrange) : sub.Keeps sub :=
  ⟨rfl, rfl, rfl, fun exit => exit, fun _ => rfl⟩

namespace Allocation

/-- A subrange alone in a new range that holds no register and touches no boundary. -/
structure Fresh (before after : Allocation) (id : SubrangeId) (sub part : Subrange) : Prop where
  id_eq : part.id = id
  new_range : before.nextRange ≤ part.range
  range?_eq : after.range? part.range = some {
    id := part.range
    register := (before.range sub.range).register
    slot := (before.range sub.range).slot
    subranges := [id] }
  inside : part.start ≠ .atEntry
  link_eq : ∀ side, part.link side = none

/-- The graph and the host registers are the same, and segments list the subranges that they have
now. -/
structure Relists (before after : Allocation) : Prop where
  graph_eq : after.graph = before.graph
  registers_eq : after.registers = before.registers
  size_eq : after.bySegment.size = before.bySegment.size
  lists : after.Lists

/-- Every subrange behind a change lies inside the one that `origin` names before it. -/
structure Refines (before after : Allocation) (origin : SubrangeId → SubrangeId) : Prop
    extends Relists before after where
  narrows : ∀ {id part}, after.subrange? id = some part →
    ∃ sub, before.subrange? (origin id) = some sub ∧ part.Narrows sub ∧
      Fits part.start part.stop part.locations ∧
      part.locations = sub.locations.filter part.covers
  /-- Every subrange stayed in its range or is alone in a new one. -/
  kept_or_fresh : ∀ {id part sub}, after.subrange? id = some part →
    before.subrange? (origin id) = some sub →
    (origin id = id ∧ sub.Keeps part ∧
      ∃ range, after.range? sub.range = some range) ∨ Fresh before after id sub part
  separate : ∀ {id part other otherPart}, after.subrange? id = some part →
    after.subrange? other = some otherPart → id ≠ other → origin id = origin other →
    part.overlaps otherPart = false
  range_old : ∀ {id range}, after.range? id = some range → id < before.nextRange →
    (∃ host, before.range? id = some { range with host }) ∧
      ∀ {member sub}, before.subrange? member = some sub → sub.range = id →
        ∃ part, after.subrange? member = some part ∧ part.range = id
  range_new : ∀ {id range}, after.range? id = some range → before.nextRange ≤ id →
    ∃ member part, after.subrange? member = some part ∧ part.range = id

namespace Refines

variable (refines : Refines before after origin) {id : SubrangeId}

include refines

theorem cases (live : after.subrange? id = some part) :
    (∃ sub, before.subrange? id = some sub ∧ part.Narrows sub ∧ sub.Keeps part) ∨
      ∃ sub, before.subrange? (origin id) = some sub ∧ part.Narrows sub ∧
        Fresh before after id sub part := by
  obtain ⟨sub, found, narrows, _, _⟩ := refines.narrows live
  rcases refines.kept_or_fresh live found with ⟨same, keeps, _⟩ | fresh
  · exact .inl ⟨sub, same ▸ found, narrows, keeps⟩
  · exact .inr ⟨sub, found, narrows, fresh⟩

theorem range_live (live : after.subrange? id = some part) :
    ∃ range, after.range? part.range = some range := by
  obtain ⟨sub, found, _⟩ := refines.narrows live
  rcases refines.kept_or_fresh live found with ⟨_, keeps, range⟩ | fresh
  · rwa [keeps.range_eq]
  · exact ⟨_, fresh.range?_eq⟩

variable (coherent : before.Coherent)

include coherent

theorem register_eq (live : after.subrange? id = some part)
    (found : before.subrange? (origin id) = some sub) :
    (after.range part.range).register = (before.range sub.range).register := by
  rcases refines.kept_or_fresh live found with ⟨_, keeps, range, rangeLive⟩ | fresh
  · obtain ⟨⟨_, old⟩, _⟩ := refines.range_old rangeLive (coherent.range_lt_nextRange found)
    rw [keeps.range_eq, range_eq_of_some rangeLive, range_eq_of_some old]
  · rw [range_eq_of_some fresh.range?_eq]

/-- A subrange that shares the range of one that stayed has stayed too. -/
theorem kept_of_range_eq (found : before.subrange? id = some sub) (keeps : sub.Keeps part)
    (live : after.subrange? other = some otherPart) (same : otherPart.range = part.range) :
    ∃ otherSub, before.subrange? other = some otherSub ∧
      otherPart.Narrows otherSub ∧ otherSub.Keeps otherPart ∧ otherSub.range = sub.range := by
  rcases refines.cases live with ⟨origin, found', narrows, keeps'⟩ | ⟨_, _, _, fresh⟩
  · refine ⟨origin, found', narrows, keeps', ?_⟩
    rw [← keeps'.range_eq, same, keeps.range_eq]
  · have old := coherent.range_lt_nextRange found
    have new := fresh.new_range
    rw [same, keeps.range_eq] at new
    exact absurd old (Nat.not_lt.mpr new)

theorem eq_of_fresh (fresh : Fresh before after id sub part)
    (live : after.subrange? other = some otherPart) (same : otherPart.range = part.range) :
    other = id := by
  rcases refines.cases live with ⟨origin, found, _, keeps⟩ | ⟨_, _, _, fresh'⟩
  · have old := coherent.range_lt_nextRange found
    rw [← keeps.range_eq, same] at old
    exact absurd old (Nat.not_lt.mpr fresh.new_range)
  · have equal := fresh'.range?_eq
    rw [same, fresh.range?_eq] at equal
    injection equal with equal
    injection equal with _ _ _ _ equal
    exact ((List.cons.injEq ..).mp equal).1.symm

/-- The ranges behind a refinement are old ones or new ones with a single subrange. -/
theorem range?_cases {id range} (live : after.range? id = some range) :
    (∃ host, before.range? id = some { range with host }) ∨
      ∃ mem sub part, after.subrange? mem = some part ∧ part.range = id ∧
        before.subrange? (origin mem) = some sub ∧
        Fresh before after mem sub part ∧ range = {
          id
          register := (before.range sub.range).register
          slot := (before.range sub.range).slot
          subranges := [mem] } := by
  by_cases old : id < before.nextRange
  · exact .inl (refines.range_old live old).1
  · obtain ⟨mem, part, found, rfl⟩ := refines.range_new live (Nat.not_lt.mp old)
    rcases refines.cases found with ⟨sub, found', _, keeps⟩ | ⟨sub, found', _, fresh⟩
    · exact absurd (coherent.range_lt_nextRange found') (keeps.range_eq ▸ old)
    · exact .inr ⟨mem, sub, part, found, rfl, found', fresh,
        Option.some.inj (live.symm.trans fresh.range?_eq)⟩

theorem mem_subranges {id range} (live : after.range? id = some range) :
    mem ∈ range.subranges ↔ ∃ part, after.subrange? mem = some part ∧ part.range = id := by
  by_cases old : id < before.nextRange
  · obtain ⟨⟨_, found⟩, kept⟩ := refines.range_old live old
    refine (coherent.mem_subranges found).trans ?_
    constructor
    · rintro ⟨sub, found', rfl⟩
      exact kept found' rfl
    · rintro ⟨part, found', rfl⟩
      rcases refines.cases found' with ⟨sub, found'', _, keeps⟩ | ⟨_, _, _, fresh⟩
      · exact ⟨sub, found'', keeps.range_eq.symm⟩
      · exact absurd old (Nat.not_lt.mpr fresh.new_range)
  · rcases refines.range?_cases coherent live with
      ⟨_, found⟩ | ⟨first, sub, part, found, rfl, _, fresh, rfl⟩
    · exact absurd (lt_nextRange_of_range? found) old
    · rw [List.mem_singleton]
      constructor
      · rintro rfl
        exact ⟨part, found, rfl⟩
      · rintro ⟨otherPart, found', same⟩
        exact refines.eq_of_fresh coherent fresh found' same

theorem apart (live : after.subrange? id = some part)
    (otherLive : after.subrange? other = some otherPart) (ne : id ≠ other)
    (sameSeg : part.segment = otherPart.segment)
    (sameRegister : (after.range part.range).register = (after.range otherPart.range).register) :
    part.overlaps otherPart = false := by
  by_cases same : origin id = origin other
  · exact refines.separate live otherLive ne same
  · obtain ⟨sub, found, narrows, _, _⟩ := refines.narrows live
    obtain ⟨otherSub, otherFound, otherNarrows, _, _⟩ := refines.narrows otherLive
    rw [refines.register_eq coherent live found,
      refines.register_eq coherent otherLive otherFound] at sameRegister
    rw [narrows.segment_eq, otherNarrows.segment_eq] at sameSeg
    have disjoint := coherent.apart found otherFound same sameSeg sameRegister
    rw [Bool.eq_false_iff] at disjoint ⊢
    exact fun overlap => disjoint (narrows.overlaps otherNarrows overlap)

theorem coherent_after : after.Coherent where
  short := refines.graph_eq ▸ coherent.short
  listed := by
    rw [refines.graph_eq, refines.size_eq]
    exact coherent.listed
  range_id live := by
    rcases refines.range?_cases coherent live with ⟨_, found⟩ | ⟨_, _, _, _, _, _, _, rfl⟩
    · exact (coherent.range_id found :)
    · rfl
  subrange_id live := by
    rcases refines.cases live with ⟨sub, found, _, keeps⟩ | ⟨_, _, _, fresh⟩
    · rw [keeps.id_eq, coherent.subrange_id found]
    · exact fresh.id_eq
  register_slot live := by
    rw [refines.graph_eq]
    rcases refines.range?_cases coherent live with ⟨_, found⟩ | ⟨_, _, _, _, _, found, _, rfl⟩
    · exact (coherent.register_slot found :)
    · obtain ⟨source, live⟩ := coherent.range_live found
      have slot := coherent.register_slot live
      rwa [← range_eq_of_some live] at slot
  range_live := refines.range_live
  mem_subranges live := refines.mem_subranges coherent live
  nodup_subranges live := by
    rcases refines.range?_cases coherent live with ⟨_, found⟩ | ⟨_, _, _, _, _, _, _, rfl⟩
    · exact (coherent.nodup_subranges found :)
    · exact List.nodup_singleton _
  subranges_ne_nil live := by
    rcases refines.range?_cases coherent live with ⟨_, found⟩ | ⟨_, _, _, _, _, _, _, rfl⟩
    · exact (coherent.subranges_ne_nil found :)
    · exact List.cons_ne_nil _ _
  lists := refines.lists
  segment_mem live := by
    obtain ⟨sub, found, narrows, _, _⟩ := refines.narrows live
    rw [narrows.segment_eq, refines.graph_eq]
    exact coherent.segment_mem found
  alone live otherLive sameRange sameSeg := by
    rcases refines.cases live with ⟨sub, found, narrows, keeps⟩ | ⟨_, _, _, fresh⟩
    · obtain ⟨otherSub, otherFound, otherNarrows, _, same⟩ :=
        refines.kept_of_range_eq coherent found keeps otherLive sameRange.symm
      rw [narrows.segment_eq, otherNarrows.segment_eq] at sameSeg
      exact coherent.alone found otherFound same.symm sameSeg
    · exact (refines.eq_of_fresh coherent fresh otherLive sameRange.symm).symm
  solitary live inside stays otherLive sameRange := by
    rcases refines.cases live with ⟨sub, found, _, keeps⟩ | ⟨_, _, _, fresh⟩
    · obtain ⟨otherSub, otherFound, _, _, same⟩ :=
        refines.kept_of_range_eq coherent found keeps otherLive sameRange
      rw [keeps.start_eq] at inside
      exact coherent.solitary found inside (fun exit => stays (keeps.stop_eq exit)) otherFound same
    · exact refines.eq_of_fresh coherent fresh otherLive sameRange
  fits live := by
    obtain ⟨_, _, _, fits, _⟩ := refines.narrows live
    exact fits
  accessed live := by
    obtain ⟨sub, found, narrows, _, locations⟩ := refines.narrows live
    rw [accessesOf, segmentOf, refines.graph_eq, narrows.segment_eq,
      refines.register_eq coherent live found, locations, coherent.accessed found]
    exact narrows.filter_covers _
  apart := refines.apart coherent

end Refines
end Allocation
end Dynarec
