import Dynarec.Proofs.Allocation.Frame
import Dynarec.Proofs.Allocation.Pass
import Dynarec.Proofs.Allocation.Weave
import Dynarec.Proofs.Run.Machine

/-!
# Loads and stores in all segments

The segments of a graph are given their loads, stores and host registers one
after the other.  What happens to a segment depends on its own subranges only, so
every segment ends up as if it had been the only one.
-/

namespace Dynarec

open Dynarec.Graph Insertion List Position Segment

namespace Allocation

/-- The code of a segment with its loads and stores: the code before the end is translated,
then come the stores and loads at the exit, then the instruction that ends the segment. -/
structure Woven (alloc : Allocation) (subs : List Subrange) (seg : Segment)
    (code : Code) (final : List Subrange) (woven : Code) (image : Register → Option Register) :
    Prop where
  translates : alloc.Translates subs 0 (subs.filter (·.start = .atEntry))
    seg.body final woven
  rehosted : ∀ instr ∈ seg.tail, alloc.Rehosted final image instr
  leaves : ∀ sub ∈ final, sub.stop = .atExit
  code_eq : code = woven ++ (alloc.storesOf final ++
      alloc.loadsOf (subs.filter (·.start = .atExit))) ++
    seg.tail.map (·.mapRegisters image)

section

variable {alloc : Allocation} {seg : Segment}

theorem length_sub_suffixCount (single : seg.tail.length ≤ 1) :
    seg.length - seg.suffixCount = seg.body.length := by
  have split := seg.body_append_tail
  have count : seg.suffixCount = seg.tail.length := by
    unfold suffixCount last?
    cases final : seg.tail with
    | nil =>
      rw [final, append_nil] at split
      cases last : seg.instructions.getLast? with
      | none => rfl
      | some instr =>
        have mem := mem_of_getLast? last
        rw [← split] at mem
        simp [isSuffix_of_mem_body mem]
    | cons instr rest =>
      obtain rfl : rest = [] := by
        rw [final, length_cons] at single
        exact length_eq_zero_iff.mp (by lia)
      rw [final] at split
      rw [← split, getLast?_append]
      simp [isSuffix_of_tail final]
  rw [count, Segment.length, ← split, length_append, Nat.add_sub_cancel]

theorem woven_of_walk (listed : alloc.subrangesIn seg.id = subs)
    (seats : alloc.Seats seg.body.length subs) (single : seg.tail.length ≤ 1)
    (enter : alloc.enter seg = .ok entered)
    (walk : alloc.walkCode seg.id (List.range entered.subranges.size)
      (seg.length - seg.suffixCount) 0 seg.instructions entered = .ok (code, walked))
    (leave : alloc.leave seg.id (seg.length - seg.suffixCount) walked = .ok left)
    (room : (weave 0 left.insertions.reverse code).length < atExit) :
    ∃ final woven image, alloc.Woven subs seg
      (weave 0 left.insertions.reverse code) final woven image := by
  subst listed
  obtain ⟨entering, none, zero, holders⟩ := walking_enter seats enter
  rw [entering.subranges_eq, size_toArray, length_sub_suffixCount single,
    ← seg.body_append_tail] at walk
  rw [length_sub_suffixCount single] at leave
  obtain ⟨moves, renamed⟩ := moves_walkCode walk
  obtain ⟨-, added, insertions_eq, count_eq⟩ := moves.grows
  obtain ⟨-, more, insertions_eq', -⟩ := (moves_leave leave).grows
  have small : seg.body.length + seg.tail.length + walked.count < atExit := by
    have length := congrArg List.length insertions_eq'
    rw [insertions_eq, none] at length
    rw [length_weave, length_reverse, length, ← renamed.length_eq] at room
    simp only [length_append, length_nil] at room
    lia
  obtain ⟨woven, image, inserted, done⟩ :=
    entering.walkCode seats (Nat.zero_add _) single walk small
  obtain ⟨extended, leaving⟩ :=
    done.walking.leave seats (Nat.le_add_right _ _) (by push_cast; lia) leave
  refine ⟨walked.holders, woven, image, holders ▸ done.translates, done.rehosted, leaving, ?_⟩
  rw [extended.insertions_eq, done.insertions_eq, none, append_nil, reverse_append,
    reverse_reverse, reverse_reverse, done.weave_eq]
  · simp [Function.comp_def]
  · intro insertion mem
    obtain ⟨_, _, rfl⟩ := mem_map.mp mem
    rfl

end

section

variable {alloc other : Allocation}

theorem storesOf_of_ranges_eq (ranges_eq : other.ranges = alloc.ranges) :
    other.storesOf = alloc.storesOf := by
  unfold storesOf storeOf slotOf hostOf range range?
  rw [ranges_eq]

theorem loadsOf_of_ranges_eq (ranges_eq : other.ranges = alloc.ranges) :
    other.loadsOf = alloc.loadsOf := by
  unfold loadsOf loadOf slotOf hostOf range range?
  rw [ranges_eq]

section

variable (ranges_eq : other.ranges = alloc.ranges)

include ranges_eq

theorem Rehosted.of_ranges_eq (rehosted : other.Rehosted holders image instr) :
    alloc.Rehosted holders image instr := by
  unfold Rehosted registerOf hostOf range range? at rehosted ⊢
  rwa [ranges_eq] at rehosted

theorem Translates.of_ranges_eq (translates : other.Translates subs index holders code final woven)
    : alloc.Translates subs index holders code final woven := by
  have boundary : other.boundaryCode = alloc.boundaryCode := by
    unfold boundaryCode
    rw [storesOf_of_ranges_eq ranges_eq, loadsOf_of_ranges_eq ranges_eq]
  induction translates with
  | nil index holders =>
    rw [boundary]
    exact .nil index holders
  | cons rehosted _ ih =>
    rw [boundary]
    exact .cons (rehosted.of_ranges_eq ranges_eq) ih

theorem Woven.of_ranges_eq (done : other.Woven subs seg code final woven image) :
    alloc.Woven subs seg code final woven image where
  translates := done.translates.of_ranges_eq ranges_eq
  rehosted := fun instr mem =>
    (done.rehosted instr mem).of_ranges_eq ranges_eq
  leaves := done.leaves
  code_eq := by
    rw [← storesOf_of_ranges_eq ranges_eq, ← loadsOf_of_ranges_eq ranges_eq]
    exact done.code_eq

theorem Seats.of_ranges_eq (slots_eq : other.graph.slots = alloc.graph.slots) {length}
    (seats : alloc.Seats length subs) : other.Seats length subs := by
  obtain ⟨bounds, operand, start, stop⟩ := seats
  refine ⟨?_, ?_, start, stop⟩
  · unfold registerOf range range?
    rwa [ranges_eq, slots_eq]
  · unfold hostOf range range?
    rwa [ranges_eq]

end

theorem Seats.perm {length} (seats : alloc.Seats length subs)
    (perm : permuted.Perm subs) : alloc.Seats length permuted where
  register_bounds := fun sub mem =>
    seats.register_bounds sub (perm.mem_iff.mp mem)
  operand_eq := fun sub mem => seats.operand_eq sub (perm.mem_iff.mp mem)
  start_lt := fun sub mem => seats.start_lt sub (perm.mem_iff.mp mem)
  stop_le := fun sub mem => seats.stop_le sub (perm.mem_iff.mp mem)

end

section

variable {alloc : Allocation} (coherent : alloc.Coherent)

include coherent

theorem Coherent.index_lt (mem : sub ∈ alloc.subrangesIn seg) (listed : location ∈ sub.locations) :
    location.index < (alloc.graph.segment seg).body.length := by
  obtain ⟨found, here⟩ := coherent.mem_subrangesIn.mp mem
  rw [coherent.accessed found, accessesOf, segmentOf, here] at listed
  exact index_lt_of_mem_locations _ (mem_of_mem_filter listed)

theorem seats_of_hosts
    (hosts : ∀ {id range}, alloc.range? id = some range → 0 ≤ range.host ∧ range.host < 32)
    (seg : SegmentId) :
    alloc.Seats (alloc.graph.segment seg).body.length (alloc.subrangesIn seg) := by
  constructor
  · intro sub mem
    obtain ⟨found, -⟩ := coherent.mem_subrangesIn.mp mem
    obtain ⟨range, live⟩ := coherent.range_live found
    have bounds := coherent.register_slot live
    rw [registerOf, range_eq_of_some live]
    exact ⟨bounds.1, bounds.2.1⟩
  · intro sub mem
    obtain ⟨found, -⟩ := coherent.mem_subrangesIn.mp mem
    obtain ⟨range, live⟩ := coherent.range_live found
    have bounds := hosts live
    rw [hostOf, range_eq_of_some live, hostOperand, Int.bmod_eq_of_le (by lia) (by lia)]
    exact if_neg (by lia)
  · intro sub mem inside
    obtain ⟨found, -⟩ := coherent.mem_subrangesIn.mp mem
    rcases (coherent.fits found).start_fits with entry | ⟨exit, -⟩ | ⟨first, head, start⟩
    · rw [entry]
      unfold atEntry
      lia
    · exact absurd exit inside
    · exact start ▸ coherent.index_lt mem (mem_of_mem_head? head)
  · intro sub mem stays
    obtain ⟨found, -⟩ := coherent.mem_subrangesIn.mp mem
    rcases (coherent.fits found).stop_fits with exit | ⟨-, -, entry | zero⟩ | ⟨last, final, stop⟩
    · exact absurd exit stays
    · rw [entry]
      unfold atEntry
      lia
    · rw [zero]
      lia
    · exact stop ▸ coherent.index_lt mem (mem_of_getLast? final)

theorem seats_of_settled (exclusive : alloc.Exclusive) (all : alloc.AllAssigned)
    (few : alloc.registers ≤ 32) (seg : SegmentId) :
    alloc.Seats (alloc.graph.segment seg).body.length (alloc.subrangesIn seg) := by
  refine seats_of_hosts coherent (fun {id range} live => ?_) seg
  have assigned := all live
  have bound := exclusive.host_lt live assigned
  rw [LiveRange.isAssigned, decide_eq_true_eq] at assigned
  lia

end

/-- What giving one segment its loads, stores and host registers does. -/
structure SegmentWoven (before : Allocation) (id : SegmentId) (after : Allocation)
    (entered walked left : Walk) (code : Code) : Prop where
  enter : (before.reorder id (before.sortedIds id)).enter (before.graph.segment id) = .ok entered
  walk : (before.reorder id (before.sortedIds id)).walkCode id (List.range entered.subranges.size)
    ((before.graph.segment id).length - (before.graph.segment id).suffixCount) 0
    (before.graph.segment id).instructions entered = .ok (code, walked)
  leave : (before.reorder id (before.sortedIds id)).leave id
    ((before.graph.segment id).length - (before.graph.segment id).suffixCount) walked = .ok left
  ranges_eq : after.ranges = before.ranges
  bySegment_eq : after.bySegment = (before.reorder id (before.sortedIds id)).bySegment
  graph_eq : after.graph = before.graph.modify id fun seg =>
    { seg with
      instructions := weave 0 left.insertions.reverse code
      points := left.points }
  subrange?_eq : ∀ other, (∀ sub ∈ left.placed.toList, sub.id ≠ other) →
    after.subrange? other = before.subrange? other
  loads_eq : after.stats.loads = before.stats.loads + left.loads
  stores_eq : after.stats.stores = before.stats.stores + left.stores

theorem foldl_replaced (subs : List Subrange) (alloc : Allocation) :
    let after := subs.foldl (fun alloc sub =>
      alloc.modifySubrange sub.id fun _ => sub) alloc
    after.ranges = alloc.ranges ∧ after.bySegment = alloc.bySegment ∧
      after.graph = alloc.graph ∧ after.stats = alloc.stats ∧
      ∀ other, (∀ sub ∈ subs, sub.id ≠ other) → after.subrange? other = alloc.subrange? other := by
  induction subs generalizing alloc with
  | nil => exact ⟨rfl, rfl, rfl, rfl, fun _ _ => rfl⟩
  | cons first rest ih =>
    obtain ⟨ranges, bySegment, g, stats, others⟩ :=
      ih (alloc.modifySubrange first.id fun _ => first)
    refine ⟨ranges, bySegment, g, stats, fun other apart => ?_⟩
    obtain ⟨ne, apart⟩ := forall_mem_cons.mp apart
    rw [foldl_cons, others other apart, subrange?_modifySubrange, if_neg ne]

variable {before after : Allocation} {id : SegmentId}

theorem exists_segmentWoven (done : before.materializeSegment id = .ok after) :
    ∃ entered walked left code, before.SegmentWoven id after entered walked left code := by
  obtain ⟨entered, enter, done⟩ := of_bind_eq_ok done
  obtain ⟨⟨code, walked⟩, walk, done⟩ := of_bind_eq_ok done
  obtain ⟨left, leave, done⟩ := of_bind_eq_ok done
  cases done
  rw [← Array.foldl_toList]
  obtain ⟨ranges, bySegment, graph, stats, others⟩ := foldl_replaced left.placed.toList
    { before.reorder id (before.sortedIds id) with
      graph := before.graph.modify id fun seg =>
        { seg with
          instructions := weave 0 left.insertions.reverse code
          points := left.points } }
  refine ⟨entered, walked, left, code, enter, walk, leave, ranges, bySegment, graph, others, ?_, ?_⟩
  · exact congrArg (·.loads + left.loads) stats
  · exact congrArg (·.stores + left.stores) stats

theorem SegmentWoven.length_le (woven : before.SegmentWoven id after entered walked left code)
    (other : SegmentId) :
    (before.graph.segment other).length ≤ (after.graph.segment other).length := by
  rw [woven.graph_eq]
  by_cases inside : id < before.graph.segments.size
  · rw [segment_modify inside]
    split
    next same =>
      rw [Segment.length, Segment.length, length_weave, ← (moves_walkCode woven.walk).2.length_eq,
        same]
      exact Nat.le_add_left _ _
    · exact Nat.le_refl _
  · rw [modify_of_le (Nat.not_lt.mp inside)]

theorem length_le_of_materialize (done : before.materialize = .ok after)
    (id : SegmentId) : (before.graph.segment id).length ≤ (after.graph.segment id).length := by
  unfold materialize at done
  generalize before.graph.order = order at done
  induction order generalizing before with
  | nil =>
    cases done
    exact Nat.le_refl _
  | cons first rest ih =>
    obtain ⟨middle, one, done⟩ := of_bind_eq_ok done
    obtain ⟨_, _, _, _, woven⟩ := exists_segmentWoven one
    exact Nat.le_trans (woven.length_le id) (ih done)

/-- An allocation some of whose segments still wait for their loads and stores. -/
structure Materializing (alloc : Allocation) (pending : List SegmentId)
    (current : Allocation) : Prop where
  ranges_eq : current.ranges = alloc.ranges
  slots_eq : current.graph.slots = alloc.graph.slots
  size_eq : current.graph.segments.size = alloc.graph.segments.size
  lists_eq : current.bySegment.size = alloc.bySegment.size
  segment_eq : ∀ id ∈ pending, current.graph.segment id = alloc.graph.segment id
  idsIn_eq : ∀ id ∈ pending, current.idsIn id = alloc.idsIn id
  subrange?_eq : ∀ id ∈ pending, ∀ member ∈ alloc.idsIn id,
    current.subrange? member = alloc.subrange? member

section

variable {alloc : Allocation} (materializing : alloc.Materializing (id :: pending) current)

include materializing

theorem Materializing.perm_sortedIds :
    ((current.sortedIds id).map current.subrange).Perm (alloc.subrangesIn id) := by
  have perm := (current.perm_sortedIds id).map current.subrange
  rw [materializing.idsIn_eq id mem_cons_self] at perm
  refine perm.trans (List.Perm.of_eq (map_congr_left fun mem listed => ?_))
  rw [subrange, subrange, materializing.subrange?_eq id mem_cons_self mem
    (Array.mem_toList_iff.mp listed)]

variable (coherent : alloc.Coherent) (numbered : alloc.graph.Numbered)
  (seats : alloc.Seats (alloc.graph.segment id).body.length (alloc.subrangesIn id))
  (mem : id ∈ alloc.graph.order) (woven : current.SegmentWoven id after entered walked left code)

include seats

theorem Materializing.seats_reorder :
    (current.reorder id (current.sortedIds id)).Seats
      (current.graph.segment id).body.length ((current.sortedIds id).map current.subrange) := by
  have ranges_eq : (current.reorder id (current.sortedIds id)).ranges = alloc.ranges :=
    materializing.ranges_eq
  rw [materializing.segment_eq id mem_cons_self]
  exact (seats.perm materializing.perm_sortedIds).of_ranges_eq ranges_eq materializing.slots_eq

omit seats

include coherent mem

theorem Materializing.subrangesIn_reorder :
    (current.reorder id (current.sortedIds id)).subrangesIn id =
      (current.sortedIds id).map current.subrange := by
  have inside : id < current.bySegment.size := materializing.lists_eq ▸ coherent.listed id mem
  rw [subrangesIn, idsIn_reorder _ _ _ inside, if_pos rfl, toList_toArray]
  rfl

include numbered

theorem Materializing.subrangesIn_segment_id :
    (current.reorder id (current.sortedIds id)).subrangesIn (current.graph.segment id).id =
      (current.sortedIds id).map current.subrange := by
  rw [materializing.segment_eq id mem_cons_self, numbered.segment_id mem,
    materializing.subrangesIn_reorder coherent mem]

include seats woven

theorem Materializing.mem_idsIn_of_placed (listed : sub ∈ left.placed.toList) :
    sub.id ∈ alloc.idsIn id := by
  have listedIn := materializing.subrangesIn_segment_id coherent numbered mem
  have entering := (walking_enter (listedIn ▸ materializing.seats_reorder seats)
    woven.enter).1.subranges_eq
  have kept : left.subranges = entered.subranges :=
    (moves_leave woven.leave).grows.1.trans (moves_walkCode woven.walk).1.grows.1
  obtain ⟨slot, found⟩ := mem_iff_getElem?.mp listed
  rw [Array.getElem?_toList, getElem?_placed, kept, entering, listedIn, getElem?_toArray] at found
  obtain ⟨original, originally, rfl⟩ := Option.map_eq_some_iff.mp found
  have inside := materializing.perm_sortedIds.mem_iff.mp (mem_of_getElem? originally)
  obtain ⟨live, here⟩ := coherent.mem_subrangesIn.mp inside
  exact coherent.lists.mem_idsIn.mpr ⟨original, live, here⟩

theorem Materializing.step (fresh : id ∉ pending) : alloc.Materializing pending after := by
  have inside : id < current.graph.segments.size := materializing.size_eq ▸ numbered.inside mem
  have listInside : id < current.bySegment.size := materializing.lists_eq ▸ coherent.listed id mem
  have others {other} (ne : other ≠ id) :
      after.graph.segment other = current.graph.segment other := by
    rw [woven.graph_eq, segment_modify inside, if_neg (Ne.symm ne)]
  have ne {other} (listed : other ∈ pending) : other ≠ id := by
    rintro rfl
    exact fresh listed
  refine ⟨woven.ranges_eq.trans materializing.ranges_eq, ?_, ?_, ?_, ?_, ?_, ?_⟩
  · rw [woven.graph_eq, slots_modify, materializing.slots_eq]
  · rw [woven.graph_eq, size_segments_modify, materializing.size_eq]
  · rw [woven.bySegment_eq, reorder, Array.size_setIfInBounds, materializing.lists_eq]
  · intro other listed
    rw [others (ne listed), materializing.segment_eq other (mem_cons_of_mem _ listed)]
  · intro other listed
    have same : after.idsIn other = (current.reorder id (current.sortedIds id)).idsIn other := by
      rw [idsIn, woven.bySegment_eq, idsIn]
    rw [same, idsIn_reorder _ _ _ listInside, if_neg (Ne.symm (ne listed)),
      materializing.idsIn_eq other (mem_cons_of_mem _ listed)]
  · intro other listed number inOther
    rw [woven.subrange?_eq, materializing.subrange?_eq other (mem_cons_of_mem _ listed) _ inOther]
    rintro sub inPlaced rfl
    have inside := materializing.mem_idsIn_of_placed coherent numbered seats mem woven inPlaced
    obtain ⟨_, live, here⟩ := coherent.lists.mem_idsIn.mp inside
    obtain ⟨_, otherLive, there⟩ := coherent.lists.mem_idsIn.mp inOther
    cases live.symm.trans otherLive
    exact ne listed (there.symm.trans here)

/-- The code that a segment is given. -/
theorem Materializing.exists_woven (single : (alloc.graph.segment id).tail.length ≤ 1)
    (short : (after.graph.segment id).length < atExit) :
    ∃ subs final woven image, subs.Perm (alloc.subrangesIn id) ∧
      alloc.Woven subs (alloc.graph.segment id)
        (after.graph.segment id).instructions final woven image := by
  have segment_eq := materializing.segment_eq id mem_cons_self
  have number : (current.graph.segment id).id = id := by
    rw [segment_eq, numbered.segment_id mem]
  have inside : id < current.graph.segments.size := materializing.size_eq ▸ numbered.inside mem
  have code_eq : (after.graph.segment id).instructions = weave 0 left.insertions.reverse code := by
    rw [woven.graph_eq, segment_modify inside, if_pos rfl]
  have listedIn := materializing.subrangesIn_segment_id coherent numbered mem
  have ranges_eq : (current.reorder id (current.sortedIds id)).ranges = alloc.ranges :=
    materializing.ranges_eq
  obtain ⟨enter, walk, leave, -⟩ := woven
  obtain ⟨final, woven, image, done⟩ := woven_of_walk listedIn
    (materializing.seats_reorder seats) (segment_eq ▸ single) enter
    (by rwa [number]) (by rwa [number]) (by rwa [Segment.length, code_eq] at short)
  rw [segment_eq, ← code_eq] at done
  exact ⟨_, final, woven, image, materializing.perm_sortedIds, done.of_ranges_eq ranges_eq⟩

end

/-- Segments that do not wait stay as they are. -/
theorem segment_of_foldlM {pending : List SegmentId}
    (done : pending.foldlM materializeSegment current = .ok result) (unlisted : id ∉ pending) :
    result.graph.segment id = current.graph.segment id := by
  induction pending generalizing current with
  | nil =>
    cases done
    rfl
  | cons first rest ih =>
    obtain ⟨middle, one, done⟩ := of_bind_eq_ok done
    obtain ⟨_, _, _, _, woven⟩ := exists_segmentWoven one
    obtain ⟨ne, unlisted⟩ := not_or.mp (mt mem_cons.mpr unlisted)
    rw [ih done unlisted, woven.graph_eq]
    by_cases inside : first < current.graph.segments.size
    · rw [segment_modify inside, if_neg (Ne.symm ne)]
    · rw [modify_of_le (Nat.not_lt.mp inside)]

/-- Every segment that waits is given its code. -/
theorem Materializing.foldlM {alloc current result : Allocation}
    (materializing : alloc.Materializing pending current) (coherent : alloc.Coherent)
    (numbered : alloc.graph.Numbered)
    (seats : ∀ id, alloc.Seats (alloc.graph.segment id).body.length (alloc.subrangesIn id))
    (members : ∀ id ∈ pending, id ∈ alloc.graph.order) (nodup : pending.Nodup)
    (single : ∀ id ∈ pending, (alloc.graph.segment id).tail.length ≤ 1)
    (done : pending.foldlM materializeSegment current = .ok result)
    (short : ∀ id ∈ pending, ((result.graph.segment id).length : Int) < atExit) :
    ∀ id ∈ pending, ∃ subs final woven image, subs.Perm (alloc.subrangesIn id) ∧
      alloc.Woven subs (alloc.graph.segment id)
        (result.graph.segment id).instructions final woven image := by
  induction pending generalizing current with
  | nil => exact forall_mem_nil _
  | cons first rest ih =>
    obtain ⟨middle, one, done⟩ := of_bind_eq_ok done
    obtain ⟨entered, walked, left, code, woven⟩ := exists_segmentWoven one
    obtain ⟨mem, others⟩ := forall_mem_cons.mp members
    obtain ⟨fresh, nodup⟩ := nodup_cons.mp nodup
    obtain ⟨firstSingle, single⟩ := forall_mem_cons.mp single
    obtain ⟨firstShort, short⟩ := forall_mem_cons.mp short
    have further := materializing.step coherent numbered (seats first) mem woven fresh
    refine forall_mem_cons.mpr ⟨?_, ih further others nodup single done short⟩
    rw [segment_of_foldlM done fresh] at firstShort ⊢
    exact materializing.exists_woven coherent numbered (seats first) mem woven firstSingle
      firstShort

/-- What giving a graph its loads, stores and host registers makes of its segments. -/
theorem exists_woven_of_materialize {alloc result : Allocation} (sound : alloc.Sound)
    (all : alloc.AllAssigned) (few : alloc.registers ≤ 32) (numbered : alloc.graph.Numbered)
    (single : ∀ id ∈ alloc.graph.order, (alloc.graph.segment id).tail.length ≤ 1)
    (done : alloc.materialize = .ok result) (short : result.graph.IsShort)
    (mem : id ∈ alloc.graph.order) :
    ∃ subs final woven image, subs.Perm (alloc.subrangesIn id) ∧
      alloc.Woven subs (alloc.graph.segment id)
        (result.graph.segment id).instructions final woven image := by
  have start : alloc.Materializing alloc.graph.order alloc :=
    ⟨rfl, rfl, rfl, rfl, fun _ _ => rfl, fun _ _ => rfl, fun _ _ _ _ => rfl⟩
  have order_eq := (recoded_materialize done).order_eq
  exact start.foldlM sound.coherent numbered
    (seats_of_settled sound.coherent sound.exclusive all few) (fun _ listed => listed)
    numbered.nodup_order single done (fun id listed => short id (order_eq ▸ listed)) id mem

end Allocation
end Dynarec
