import Dynarec.Proofs.Allocation.Refine
import Dynarec.Proofs.Allocation.Window

/-!
# Formation of live ranges

Every window becomes a subrange of one range.  What was formed so far is seen
through the subranges, which are windows of the register of their range, and
through the entries that say which subrange a window became; beginning a range,
taking up a window and telling a subrange its continuations keep the two in
step.
-/

namespace Dynarec

open Allocation List Option
namespace Liveness

variable {liveness : Liveness}

/-- Every window of a graph has an entry that says which subrange it became. -/
structure Forming.Shaped (g : Graph) (forming : Forming) : Prop where
  size_eq : forming.members.size = g.segments.size
  row_size : ∀ {id : Nat} {row}, forming.members[id]? = some row → row.size = g.slots.length

theorem Forming.Shaped.addWindow (shaped : forming.Shaped g) (reg : Nat)
    (id : SegmentId) : (liveness.addWindow reg forming id).Shaped g where
  size_eq := by
    simp [Liveness.addWindow, shaped.size_eq]
  row_size {other row} found := by
    rw [Liveness.addWindow, Array.getElem?_modify] at found
    split at found
    · rw [map_eq_some_iff] at found
      obtain ⟨old, found, rfl⟩ := found
      simpa using shaped.row_size found
    · exact shaped.row_size found

/-- The subranges of the windows after one more was taken up. -/
theorem member?_addWindow (shaped : forming.Shaped g) {id}
    (inside : id < g.segments.size) (listed : reg < g.slots.length) (other : SegmentId)
    (otherReg : Nat) :
    (liveness.addWindow reg forming id).member? other otherReg =
      if id = other ∧ reg = otherReg then some forming.allocation.nextSubrange
      else forming.member? other otherReg := by
  simp only [Forming.member?, addWindow, Array.getD_eq_getD_getElem?, Array.getElem?_modify]
  by_cases same : id = other
  · subst same
    have bound : id < forming.members.size := shaped.size_eq ▸ inside
    have found := Array.getElem?_eq_getElem bound
    have size := shaped.row_size found
    rw [if_pos rfl, found]
    simp only [map_some, getD_some, Array.getElem?_setIfInBounds, true_and]
    split
    · rw [if_pos (size ▸ listed)]
      rfl
    · rfl
  · simp [same]

theorem subrange?_addWindow (liveness : Liveness) (forming : Forming) (reg : Nat)
    (id : SegmentId) (other : SubrangeId) :
    (liveness.addWindow reg forming id).allocation.subrange? other =
      if other = forming.allocation.nextSubrange then some {
          id := forming.allocation.nextSubrange
          range := forming.allocation.nextRange - 1
          segment := id
          start := (liveness.window id reg).start
          stop := (liveness.window id reg).stop
          locations := (liveness.graph.segment id).locations (Int.ofNat reg) }
      else forming.allocation.subrange? other :=
  subrange?_addSubrange _ _ _ _ _ other

def beginRange (liveness : Liveness) (reg : Nat) (forming : Forming) : Forming :=
  { forming with
    allocation := forming.allocation.addRange (Int.ofNat reg)
      (liveness.graph.slotOf (Int.ofNat reg)) }

theorem range?_beginRange (liveness : Liveness) (reg : Nat) (forming : Forming) (id : RangeId) :
    (liveness.beginRange reg forming).allocation.range? id =
      if id = forming.allocation.nextRange then some {
          id := forming.allocation.nextRange
          register := Int.ofNat reg
          slot := liveness.graph.slotOf (Int.ofNat reg) }
      else forming.allocation.range? id :=
  range?_addRange _ _ id

@[simp] theorem nextRange_beginRange (liveness : Liveness) (reg : Nat) (forming : Forming) :
    (liveness.beginRange reg forming).allocation.nextRange = forming.allocation.nextRange + 1 :=
  nextRange_addRange _ _

/-- A subrange is the window of the register of its range in its segment. -/
def IsWindow (liveness : Liveness) (alloc : Allocation) (sub : Subrange) : Prop :=
  ∃ range reg, alloc.range? sub.range = some range ∧
    range.register = Int.ofNat reg ∧ reg < liveness.graph.slots.length ∧
    sub.segment ∈ liveness.graph.order ∧
    (liveness.window sub.segment reg).isDefined ∧
    sub.start = (liveness.window sub.segment reg).start ∧
    sub.stop = (liveness.window sub.segment reg).stop ∧
    sub.locations = (liveness.graph.segment sub.segment).locations range.register

/-- A subrange in a segment is part of a range of a register. -/
def HoldsRegister (alloc : Allocation) (seg : SegmentId) (reg : Nat) (id : SubrangeId) : Prop :=
  ∃ sub range, alloc.subrange? id = some sub ∧ sub.segment = seg ∧
    alloc.range? sub.range = some range ∧ range.register = Int.ofNat reg

/-- The ranges formed so far are made of windows, each of which was taken up once. -/
structure Formed (liveness : Liveness) (forming : Forming) : Prop where
  graph_eq : forming.allocation.graph = liveness.graph
  size_eq : forming.allocation.bySegment.size = liveness.graph.segments.size
  shaped : forming.Shaped liveness.graph
  lists : forming.allocation.Lists
  range_id : ∀ {id range}, forming.allocation.range? id = some range → range.id = id
  subrange_id : ∀ {id sub}, forming.allocation.subrange? id = some sub → sub.id = id
  register_slot : ∀ {id range}, forming.allocation.range? id = some range →
    ∃ reg < liveness.graph.slots.length, range.register = Int.ofNat reg ∧
      range.slot = liveness.graph.slotOf range.register
  mem_subranges : ∀ {id range}, forming.allocation.range? id = some range → ∀ {member},
    member ∈ range.subranges ↔
      ∃ sub, forming.allocation.subrange? member = some sub ∧ sub.range = id
  nodup_subranges : ∀ {id range}, forming.allocation.range? id = some range → range.subranges.Nodup
  window : ∀ {id sub}, forming.allocation.subrange? id = some sub →
    liveness.IsWindow forming.allocation sub
  /-- The entry of a window names the subrange that it became. -/
  member?_iff : ∀ {seg reg id}, seg ∈ liveness.graph.order → reg < liveness.graph.slots.length →
    (forming.member? seg reg = some id ↔ HoldsRegister forming.allocation seg reg id)

namespace Formed

variable (formed : Formed liveness forming)

include formed

theorem range_lt_nextRange {id} (found : forming.allocation.subrange? id = some sub) :
    sub.range < forming.allocation.nextRange := by
  obtain ⟨range, _, live, _⟩ := formed.window found
  exact lt_nextRange_of_range? live

/-- The window that a subrange of a range of a register became. -/
theorem window_of_register {id range} (found : forming.allocation.subrange? id = some sub)
    (live : forming.allocation.range? sub.range = some range)
    (same : range.register = Int.ofNat reg) :
    reg < liveness.graph.slots.length ∧ sub.segment ∈ liveness.graph.order ∧
      sub.start = (liveness.window sub.segment reg).start ∧
      sub.stop = (liveness.window sub.segment reg).stop := by
  obtain ⟨_, number, live', same', listed, here, _, start, stop, _⟩ := formed.window found
  cases live.symm.trans live'
  cases Int.ofNat.inj (same.symm.trans same')
  exact ⟨listed, here, start, stop⟩

theorem beginRange (listed : reg < liveness.graph.slots.length) :
    Formed liveness (liveness.beginRange reg forming) := by
  have kept {id sub} (found : forming.allocation.subrange? id = some sub) :
      (liveness.beginRange reg forming).allocation.range? sub.range =
        forming.allocation.range? sub.range :=
    (range?_beginRange ..).trans (if_neg (Nat.ne_of_lt (formed.range_lt_nextRange found)))
  refine ⟨formed.graph_eq, formed.size_eq, ⟨formed.shaped.size_eq, formed.shaped.row_size⟩,
    formed.lists.addRange _ _, fun live => ?_, formed.subrange_id, fun live => ?_, fun live => ?_,
    fun live => ?_, fun found => ?_, fun inside otherListed => ?_⟩
  · rw [range?_beginRange] at live
    split at live
    next equal =>
      cases live
      exact equal.symm
    · exact formed.range_id live
  · rw [range?_beginRange] at live
    split at live
    · cases live
      exact ⟨reg, listed, rfl, rfl⟩
    · exact formed.register_slot live
  · rw [range?_beginRange] at live
    split at live
    next equal =>
      cases live
      refine fun {mem} => ⟨fun inside => absurd inside not_mem_nil, ?_⟩
      rintro ⟨sub, found, inside⟩
      have old := formed.range_lt_nextRange found
      lia
    · exact formed.mem_subranges live
  · rw [range?_beginRange] at live
    split at live
    · cases live
      exact nodup_nil
    · exact formed.nodup_subranges live
  · rw [IsWindow, kept found]
    exact formed.window found
  · refine (formed.member?_iff inside otherListed).trans (exists_congr fun sub =>
      exists_congr fun range => and_congr_right fun found => ?_)
    rw [← kept found]

/-- A subrange told its continuations. -/
theorem modifySubrange {id} (keeps : ∀ sub, (change sub).id = sub.id ∧
      (change sub).range = sub.range ∧ (change sub).segment = sub.segment ∧
      (change sub).start = sub.start ∧ (change sub).stop = sub.stop ∧
      (change sub).locations = sub.locations) :
    Formed liveness { forming with
      allocation := forming.allocation.modifySubrange id change } := by
  have origin : ∀ {other sub},
      (forming.allocation.modifySubrange id change).subrange? other = some sub →
      ∃ old, forming.allocation.subrange? other = some old ∧ sub.id = old.id ∧
        sub.range = old.range ∧ sub.segment = old.segment ∧
        sub.start = old.start ∧ sub.stop = old.stop ∧
        sub.locations = old.locations := by
    intro other sub found
    rw [subrange?_modifySubrange] at found
    split at found
    · obtain ⟨old, oldFound, rfl⟩ := map_eq_some_iff.mp found
      exact ⟨old, oldFound, keeps old⟩
    · exact ⟨sub, found, rfl, rfl, rfl, rfl, rfl, rfl⟩
  have image : ∀ {other old}, forming.allocation.subrange? other = some old →
      ∃ sub, (forming.allocation.modifySubrange id change).subrange? other = some sub ∧
        sub.range = old.range ∧ sub.segment = old.segment := by
    intro other old found
    rw [subrange?_modifySubrange, found]
    split
    · exact ⟨change old, rfl, (keeps old).2.1, (keeps old).2.2.1⟩
    · exact ⟨old, rfl, rfl, rfl⟩
  refine ⟨formed.graph_eq, formed.size_eq, ⟨formed.shaped.size_eq, formed.shaped.row_size⟩,
    formed.lists.modifySubrange id change fun sub => (keeps sub).2.2.1, formed.range_id,
    fun found => ?_, formed.register_slot, fun live => ?_, formed.nodup_subranges,
    fun found => ?_, fun inside listed => ?_⟩
  · obtain ⟨old, found, same, _⟩ := origin found
    rw [same, formed.subrange_id found]
  · refine (formed.mem_subranges live).trans ⟨?_, ?_⟩
    · rintro ⟨old, found, inside⟩
      obtain ⟨sub, found, same, _⟩ := image found
      exact ⟨sub, found, same.trans inside⟩
    · rintro ⟨sub, found, inside⟩
      obtain ⟨old, found, _, same, _⟩ := origin found
      exact ⟨old, found, same.symm.trans inside⟩
  · obtain ⟨old, found, _, range, seg, start, stop, locs⟩ := origin found
    rw [IsWindow, range, seg, start, stop, locs]
    exact formed.window found
  · refine (formed.member?_iff inside listed).trans ⟨?_, ?_⟩
    · rintro ⟨old, range, found, here, live, equal⟩
      obtain ⟨sub, found, sameRange, sameSeg⟩ := image found
      exact ⟨sub, range, found, sameSeg.trans here, sameRange.symm ▸ live, equal⟩
    · rintro ⟨sub, range, found, here, live, equal⟩
      obtain ⟨old, found, _, sameRange, sameSeg, _⟩ := origin found
      exact ⟨old, range, found, sameSeg.symm.trans here, sameRange ▸ live, equal⟩

omit formed in
theorem range?_addWindow (reg : Nat) (id : SegmentId) {range}
    (found : (liveness.addWindow reg forming id).allocation.range? other = some range) :
    ∃ old, forming.allocation.range? other = some old ∧ range = { old with
        subranges := if forming.allocation.nextRange - 1 = other then
            old.subranges ++ [forming.allocation.nextSubrange]
          else old.subranges } := by
  rw [addWindow, range?_addSubrange] at found
  split at found
  next here =>
    obtain ⟨old, oldFound, rfl⟩ := map_eq_some_iff.mp found
    exact ⟨old, oldFound, by rw [if_pos here]⟩
  next elsewhere => exact ⟨range, found, by rw [if_neg elsewhere]⟩

omit formed in
variable (liveness) in
theorem exists_range?_addWindow (reg : Nat) (id : SegmentId)
    (found : forming.allocation.range? other = some old) :
    ∃ range, (liveness.addWindow reg forming id).allocation.range? other = some range ∧
      range.register = old.register := by
  rw [addWindow, range?_addSubrange, found]
  split
  · exact ⟨_, rfl, rfl⟩
  · exact ⟨old, rfl, rfl⟩

/-- The newest subrange is listed by the newest range, and nothing else changes. -/
theorem mem_subranges_addWindow {id range}
    (found : (liveness.addWindow reg forming id).allocation.range? other = some range) :
    candidate ∈ range.subranges ↔
      ∃ subrange, (liveness.addWindow reg forming id).allocation.subrange? candidate =
        some subrange ∧ subrange.range = other := by
  obtain ⟨old, before, rfl⟩ := range?_addWindow reg id found
  rw [subrange?_addWindow]
  by_cases equal : candidate = forming.allocation.nextSubrange
  · subst equal
    have unlisted : forming.allocation.nextSubrange ∉ old.subranges := by
      rw [formed.mem_subranges before, subrange?_eq_none_of_nextSubrange_le (Nat.le_refl _)]
      simp
    rw [if_pos rfl]
    split
    next here => simp [here]
    next elsewhere => simp [elsewhere, unlisted]
  · rw [if_neg equal, ← formed.mem_subranges before]
    split
    · simp [equal]
    · rfl

theorem nodup_subranges_addWindow {id range}
    (found : (liveness.addWindow reg forming id).allocation.range? other = some range) :
    range.subranges.Nodup := by
  obtain ⟨old, before, rfl⟩ := range?_addWindow reg id found
  have nodup := formed.nodup_subranges before
  split
  · refine nodup_append.mpr ⟨nodup, nodup_singleton _, ?_⟩
    intro first firstMem second secondMem equal
    rw [mem_singleton.mp secondMem] at equal
    obtain ⟨sub, present, _⟩ := (formed.mem_subranges before).mp firstMem
    have missing := subrange?_eq_none_of_nextSubrange_le (Nat.le_of_eq equal.symm)
    cases missing.symm.trans present
  · exact nodup

section

variable {id : SegmentId} (listed : reg < liveness.graph.slots.length)
  (mem : id ∈ liveness.graph.order)
  (live : forming.allocation.range? (forming.allocation.nextRange - 1) = some newest)
  (same : newest.register = Int.ofNat reg)

include listed mem live same

theorem isWindow_addWindow (defined : (liveness.window id reg).isDefined)
    (found : (liveness.addWindow reg forming id).allocation.subrange? candidate = some sub) :
    liveness.IsWindow (liveness.addWindow reg forming id).allocation sub := by
  rw [subrange?_addWindow] at found
  split at found
  · obtain ⟨range, live', register_eq⟩ := exists_range?_addWindow liveness reg id live
    cases found
    refine ⟨range, reg, live', register_eq.trans same, listed, mem, defined, rfl, rfl, ?_⟩
    rw [register_eq, same]
  · obtain ⟨old, number, live', register_eq, rest⟩ := formed.window found
    obtain ⟨range, live'', kept⟩ := exists_range?_addWindow liveness reg id live'
    rw [← kept] at register_eq rest
    exact ⟨range, number, live'', register_eq, rest⟩

/-- The window that is taken up gets the newest subrange as its entry. -/
theorem member?_addWindow_iff (numbered : liveness.graph.Numbered)
    (unformed : forming.member? id reg = none) (here : seg ∈ liveness.graph.order)
    (numberListed : number < liveness.graph.slots.length) :
    (liveness.addWindow reg forming id).member? seg number = some candidate ↔
      HoldsRegister (liveness.addWindow reg forming id).allocation seg number candidate := by
  rw [member?_addWindow formed.shaped (numbered.inside mem) listed]
  constructor
  · intro entry
    split at entry
    next equal =>
      obtain ⟨range, live', register_eq⟩ := exists_range?_addWindow liveness reg id live
      have new := liveness.subrange?_addWindow forming reg id candidate
      rw [if_pos (some.inj entry).symm] at new
      exact ⟨_, range, new, equal.1, live', by rw [register_eq, same, equal.2]⟩
    · obtain ⟨sub, old, found, here', live', register_eq⟩ :=
        (formed.member?_iff here numberListed).mp entry
      obtain ⟨range, live'', kept⟩ := exists_range?_addWindow liveness reg id live'
      have old := Nat.ne_of_lt (lt_nextSubrange_of_subrange? found)
      refine ⟨sub, range, ?_, here', live'', kept.trans register_eq⟩
      rw [subrange?_addWindow, if_neg old, found]
  · rintro ⟨sub, range, found, here', live', register_eq⟩
    obtain ⟨old, before, rfl⟩ := range?_addWindow reg id live'
    rw [subrange?_addWindow] at found
    split at found
    next new =>
      cases found
      cases live.symm.trans before
      rw [if_pos ⟨here', Int.ofNat.inj (same.symm.trans register_eq)⟩, new]
    · have entry := (formed.member?_iff here numberListed).mpr
        ⟨sub, old, found, here', before, register_eq⟩
      rw [if_neg, entry]
      rintro ⟨rfl, rfl⟩
      cases unformed.symm.trans entry

/-- One more window taken up by the newest range, which is one of its register. -/
theorem addWindow (numbered : liveness.graph.Numbered) (unformed : liveness.isOpen reg forming id) :
    Formed liveness (liveness.addWindow reg forming id) := by
  rw [isOpen, Bool.and_eq_true, isNone_iff_eq_none] at unformed
  obtain ⟨defined, unformed⟩ := unformed
  exact {
    graph_eq := formed.graph_eq
    size_eq := by simpa [Liveness.addWindow, addSubrange, modifyRange] using formed.size_eq
    shaped := formed.shaped.addWindow reg id
    lists := formed.lists.addSubrange _ _ _ _ _ (formed.size_eq ▸ numbered.inside mem)
    range_id := fun found => by
      obtain ⟨old, before, rfl⟩ := range?_addWindow reg id found
      exact (formed.range_id before :)
    subrange_id := fun found => by
      rw [subrange?_addWindow] at found
      split at found
      next equal =>
        cases found
        exact equal.symm
      · exact formed.subrange_id found
    register_slot := fun found => by
      obtain ⟨old, before, rfl⟩ := range?_addWindow reg id found
      exact (formed.register_slot before :)
    mem_subranges := fun {_ _} found {_} => formed.mem_subranges_addWindow found
    nodup_subranges := formed.nodup_subranges_addWindow
    window := formed.isWindow_addWindow listed mem live same defined
    member?_iff := formed.member?_addWindow_iff listed mem live same numbered unformed }

end

end Formed
end Liveness
end Dynarec
