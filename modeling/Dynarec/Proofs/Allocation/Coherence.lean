import Dynarec.Proofs.Allocation.Access
import Dynarec.Proofs.Allocation.View

/-!
# Coherent allocations

In a coherent allocation ranges, subranges and segments list each other without
gaps, every subrange holds exactly the accesses between its bounds, and no two
subranges of one register are live at the same place.  Bounds are boundaries of
the segment or stand next to an access.
-/

namespace Dynarec

open List Position

/-- Every segment of a graph has fewer instructions than the place of the exit boundary. -/
def Graph.IsShort (g : Graph) : Prop :=
  ∀ id ∈ g.order, ((g.segment id).length : Int) < atExit

instance (g : Graph) : Decidable g.IsShort :=
  inferInstanceAs (Decidable (∀ id ∈ g.order,
    ((g.segment id).length : Int) < atExit))

theorem Graph.IsShort.index_bounds {g : Graph} (short : g.IsShort) {id}
    (mem : id ∈ g.order) (accessed : location ∈ (g.segment id).locations reg) :
    0 ≤ location.index ∧ location.index + 1 < atExit := by
  have lower := Segment.index_nonneg_of_mem_locations _ accessed
  have upper := Segment.index_lt_of_mem_locations _ accessed
  have body := (g.segment id).length_body_le
  have length := short id mem
  lia

/-- How the bounds of the part of a segment that keeps a register fit the accesses in it. -/
structure Fits (start stop : Position) (locs : List Location) : Prop where
  /-- The part starts at the entry, at the exit if nothing follows, or at its first access. -/
  start_fits : start = .atEntry ∨ (start = .atExit ∧ stop = .atExit ∧ locs = []) ∨
      ∃ first, locs.head? = some first ∧ first.index = start
  /-- The part stops at the exit, behind its last access, or at the entry if it has none. -/
  stop_fits : stop = .atExit ∨ (start = .atEntry ∧ locs = [] ∧ (stop = .atEntry ∨ stop = 0)) ∨
      ∃ last, locs.getLast? = some last ∧ last.index + 1 = stop

namespace Subrange

/-- Whether an access lies between the bounds of a subrange. -/
def covers (sub : Subrange) (loc : Location) : Bool :=
  sub.start ≤ loc.index && loc.index < sub.stop

theorem covers_iff {sub : Subrange} :
    sub.covers location ↔ sub.start ≤ location.index ∧ location.index < sub.stop := by
  simp [covers]

/-- The bounds of a subrange fit its accesses, which stand in order at places of instructions. -/
structure Ordered (sub : Subrange) : Prop where
  fits : Fits sub.start sub.stop sub.locations
  sorted : sub.locations.Pairwise fun first second => first.index < second.index
  bounds : ∀ loc ∈ sub.locations, 0 ≤ loc.index ∧ loc.index + 1 < atExit

namespace Ordered

variable {sub : Subrange} (ordered : sub.Ordered)

include ordered

theorem covered (mem : location ∈ sub.locations) :
    sub.start ≤ location.index ∧ location.index < sub.stop := by
  have bounds := ordered.bounds location mem
  constructor
  · rcases ordered.fits.start_fits with entry | ⟨_, _, nothing⟩ | ⟨first, head, start⟩
    · exact entry ▸ Int.le_trans (by decide) bounds.1
    · simp [nothing] at mem
    · exact start ▸ index_head_le ordered.sorted head mem
  · rcases ordered.fits.stop_fits with exit | ⟨_, nothing, _⟩ | ⟨last, final, stop⟩
    · exact exit ▸ Int.lt_trans (Int.lt_succ _) bounds.2
    · simp [nothing] at mem
    · exact stop ▸ Int.lt_add_one_of_le (index_le_getLast ordered.sorted final mem)

theorem filter_covers : sub.locations.filter sub.covers = sub.locations :=
  filter_eq_self.mpr fun _ mem => covers_iff.mpr (ordered.covered mem)

theorem start_bounds : atEntry ≤ sub.start ∧ sub.start ≤ atExit := by
  rcases ordered.fits.start_fits with entry | ⟨exit, _, _⟩ | ⟨first, head, equal⟩
  · rw [entry]; decide
  · rw [exit]; decide
  · have bounds := ordered.bounds first (mem_of_mem_head? head)
    simp only [atEntry, atExit] at bounds ⊢
    lia

theorem stop_lt_exit (stays : sub.stop ≠ .atExit) : sub.stop < atExit := by
  rcases ordered.fits.stop_fits with exit | ⟨_, _, entry | zero⟩ | ⟨last, final, equal⟩
  · exact absurd exit stays
  · rw [entry]; decide
  · rw [zero]; decide
  · exact equal ▸ (ordered.bounds last (mem_of_getLast? final)).2

end Ordered

/-- A subrange lies inside another one and touches no boundary that the other one does not. -/
structure Narrows (inner outer : Subrange) : Prop where
  segment_eq : inner.segment = outer.segment
  start_le : outer.start ≤ inner.start
  stop_le : inner.stop ≤ outer.stop
  entry_of_entry : inner.start = .atEntry → outer.start = .atEntry
  exit_of_exit : inner.stop = .atExit → outer.stop = .atExit

theorem Narrows.refl (sub : Subrange) : sub.Narrows sub :=
  ⟨rfl, Int.le_refl _, Int.le_refl _, fun entry => entry, fun exit => exit⟩

theorem Narrows.filter_covers {inner outer : Subrange} (narrows : inner.Narrows outer)
    (locs : List Location) :
    (locs.filter outer.covers).filter inner.covers = locs.filter inner.covers := by
  rw [filter_filter]
  refine filter_congr fun loc _ => ?_
  have := narrows.start_le
  have := narrows.stop_le
  rw [Bool.eq_iff_iff, Bool.and_eq_true, covers_iff, covers_iff]
  lia

theorem overlaps_iff {sub other : Subrange} :
    sub.overlaps other ↔ (sub.start < other.stop ∧ other.start < sub.stop) ∨
        (sub.start = .atEntry ∧ other.start = .atEntry) ∨
        (sub.stop = .atExit ∧ other.stop = .atExit) := by
  simp [overlaps, or_assoc]

theorem overlaps_comm (sub other : Subrange) : sub.overlaps other = other.overlaps sub := by
  rw [Bool.eq_iff_iff, overlaps_iff, overlaps_iff]
  exact or_congr And.comm (or_congr And.comm And.comm)

theorem Narrows.overlaps {inner outer other wider : Subrange} (narrows : inner.Narrows outer)
    (otherNarrows : other.Narrows wider) (overlap : inner.overlaps other) :
    outer.overlaps wider := by
  rw [overlaps_iff] at overlap ⊢
  rcases overlap with ⟨first, second⟩ | ⟨first, second⟩ | ⟨first, second⟩
  · have := narrows.start_le
    have := narrows.stop_le
    have := otherNarrows.start_le
    have := otherNarrows.stop_le
    exact .inl ⟨by lia, by lia⟩
  · exact .inr (.inl ⟨narrows.entry_of_entry first, otherNarrows.entry_of_entry second⟩)
  · exact .inr (.inr ⟨narrows.exit_of_exit first, otherNarrows.exit_of_exit second⟩)

end Subrange

namespace Allocation

/-- The accesses, in the segment of a subrange, of the register that it keeps. -/
def accessesOf (alloc : Allocation) (sub : Subrange) : List Location :=
  (alloc.segmentOf sub).locations (alloc.range sub.range).register

/-- The lists of an allocation agree with each other and with the accesses of the code. -/
structure Coherent (alloc : Allocation) : Prop where
  short : alloc.graph.IsShort
  listed : ∀ id ∈ alloc.graph.order, id < alloc.bySegment.size
  range_id : ∀ {id range}, alloc.range? id = some range → range.id = id
  subrange_id : ∀ {id sub}, alloc.subrange? id = some sub → sub.id = id
  register_slot : ∀ {id range}, alloc.range? id = some range →
    0 ≤ range.register ∧ range.register < alloc.graph.slots.length ∧
      range.slot = alloc.graph.slotOf range.register
  range_live : ∀ {id sub}, alloc.subrange? id = some sub →
    ∃ range, alloc.range? sub.range = some range
  mem_subranges : ∀ {id range}, alloc.range? id = some range → ∀ {member},
    member ∈ range.subranges ↔ ∃ sub, alloc.subrange? member = some sub ∧ sub.range = id
  nodup_subranges : ∀ {id range}, alloc.range? id = some range → range.subranges.Nodup
  subranges_ne_nil : ∀ {id range}, alloc.range? id = some range → range.subranges ≠ []
  lists : alloc.Lists
  segment_mem : ∀ {id sub}, alloc.subrange? id = some sub → sub.segment ∈ alloc.graph.order
  /-- A range has at most one subrange in a segment. -/
  alone : ∀ {id sub other otherSub},
    alloc.subrange? id = some sub → alloc.subrange? other = some otherSub →
    sub.range = otherSub.range → sub.segment = otherSub.segment → id = other
  /-- A subrange inside a segment is the only one of its range. -/
  solitary : ∀ {id sub other otherSub}, alloc.subrange? id = some sub → sub.start ≠ .atEntry →
    sub.stop ≠ .atExit → alloc.subrange? other = some otherSub →
    otherSub.range = sub.range → other = id
  fits : ∀ {id sub}, alloc.subrange? id = some sub → Fits sub.start sub.stop sub.locations
  accessed : ∀ {id sub}, alloc.subrange? id = some sub →
    sub.locations = (alloc.accessesOf sub).filter sub.covers
  /-- Two subranges of one register in a segment are never live at the same time. -/
  apart : ∀ {id sub other otherSub},
    alloc.subrange? id = some sub → alloc.subrange? other = some otherSub →
    id ≠ other → sub.segment = otherSub.segment →
    (alloc.range sub.range).register = (alloc.range otherSub.range).register →
    sub.overlaps otherSub = false

namespace Coherent

variable {alloc : Allocation} (coherent : alloc.Coherent) {id : SubrangeId}
  (found : alloc.subrange? id = some sub)

include coherent found

theorem range_lt_nextRange : sub.range < alloc.nextRange := by
  obtain ⟨range, live⟩ := coherent.range_live found
  exact lt_nextRange_of_range? live

theorem pairwise_locations :
    sub.locations.Pairwise fun first second => first.index < second.index := by
  rw [coherent.accessed found]
  exact ((alloc.segmentOf sub).pairwise_locations _).filter _

theorem index_bounds (mem : location ∈ sub.locations) :
    0 ≤ location.index ∧ location.index + 1 < atExit := by
  rw [coherent.accessed found] at mem
  exact coherent.short.index_bounds (coherent.segment_mem found) (mem_of_mem_filter mem)

theorem ordered : sub.Ordered :=
  ⟨coherent.fits found, coherent.pairwise_locations found, fun _ => coherent.index_bounds found⟩

theorem start_bounds : atEntry ≤ sub.start ∧ sub.start ≤ atExit :=
  (coherent.ordered found).start_bounds

theorem stop_le_exit : sub.stop ≤ atExit := by
  by_cases exit : sub.stop = .atExit
  · exact Int.le_of_eq exit
  · exact Int.le_of_lt ((coherent.ordered found).stop_lt_exit exit)

theorem head_of_inside (inside : sub.start ≠ .atEntry) (stays : sub.start ≠ .atExit) :
    ∃ first, sub.locations.head? = some first ∧ first.index = sub.start := by
  rcases (coherent.fits found).start_fits with entry | ⟨exit, _, _⟩ | first
  · exact absurd entry inside
  · exact absurd exit stays
  · exact first

end Coherent

theorem Coherent.mem_subrangesIn {segment} {alloc : Allocation} (coherent : alloc.Coherent) :
    sub ∈ alloc.subrangesIn segment ↔
      alloc.subrange? sub.id = some sub ∧ sub.segment = segment := by
  rw [subrangesIn, mem_map]
  constructor
  · rintro ⟨id, listed, rfl⟩
    obtain ⟨sub, found, here⟩ := coherent.lists.mem_idsIn.mp (Array.mem_toList_iff.mp listed)
    rw [subrange_eq_of_some found, coherent.subrange_id found]
    exact ⟨found, here⟩
  · rintro ⟨found, here⟩
    exact ⟨sub.id, Array.mem_toList_iff.mpr (coherent.lists.mem_idsIn.mpr ⟨_, found, here⟩),
      subrange_eq_of_some found⟩

end Allocation
end Dynarec
