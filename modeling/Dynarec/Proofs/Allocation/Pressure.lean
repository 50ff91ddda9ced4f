import Dynarec.Proofs.Allocation.Conflict

/-!
# Register pressure

A scan that finds no way to free a register stands at an instruction that
touches more registers than the host has: every register of the host is then
held by a subrange that is accessed there.
-/

namespace Dynarec

open List Position Subrange

namespace Position

theorem distance_eq_sub {pos origin : Position} (lower : -(2 ^ 63) ≤ pos - origin)
    (upper : pos - origin < 2 ^ 63) : pos.distance origin = pos - origin :=
  Int64.toInt_ofInt_of_le lower upper

end Position

namespace Allocation

variable {alloc : Allocation} {id : SubrangeId}

/-- Whatever frees a register costs less than "never". -/
structure Affordable (alloc : Allocation) : Prop where
  hole : ∀ {id sub other victim}, alloc.subrange? id = some sub →
    alloc.subrange? other = some victim → victim.segment = sub.segment →
    alloc.splitCost victim (sub.start + victim.untilNextUse sub.start) +
      alloc.shortfall sub (victim.untilNextUse sub.start) < maxDistance
  /-- A register up to its next holder. -/
  available : ∀ {id sub}, alloc.subrange? id = some sub → ∀ host, alloc.shortfall sub
      (alloc.untilNextHost sub.segment sub.start host) < maxDistance
  /-- Another range of the segment replaced. -/
  explosion : ∀ {id sub other victim}, alloc.subrange? id = some sub →
    alloc.subrange? other = some victim → victim.segment = sub.segment →
    alloc.explodeCost (alloc.range victim.range) +
      alloc.shortfall sub (victim.untilNextUse sub.start) < maxDistance
  replacement : ∀ {id range}, alloc.range? id = some range → alloc.explodeCost range < maxDistance

/-- The next use of a subrange is its first access at or behind a place, if there is one. -/
theorem Coherent.untilNextUse_cases (coherent : alloc.Coherent)
    (found : alloc.subrange? id = some sub) (lower : atEntry ≤ place) (upper : place ≤ atExit) :
    (∃ loc ∈ sub.locations, place ≤ loc.index ∧ sub.untilNextUse place = loc.index - place) ∨
      (sub.untilNextUse place = maxDistance ∧ ∀ loc ∈ sub.locations, loc.index < place) := by
  rw [untilNextUse]
  cases next : sub.locations.find? (place ≤ ·.index) with
  | none =>
    refine .inr ⟨rfl, fun loc mem => ?_⟩
    have none := find?_eq_none.mp next loc mem
    simpa using none
  | some loc =>
    have mem := mem_of_find?_eq_some next
    have behind : place ≤ loc.index := by simpa using find?_some next
    have bounds := coherent.index_bounds found mem
    refine .inl ⟨loc, mem, behind, ?_⟩
    simp only [atEntry, atExit] at lower upper bounds
    exact distance_eq_sub (by lia) (by lia)

theorem nodup_hostRegisters (alloc : Allocation) : alloc.hostRegisters.Nodup :=
  nodup_range.map fun _ _ => Int.ofNat.inj

private theorem foldl_min_spec (numbers : List Int) (bound : Int) :
    numbers.foldl min bound ≤ bound ∧ (∀ number ∈ numbers, numbers.foldl min bound ≤ number) ∧
      (numbers.foldl min bound = bound ∨ numbers.foldl min bound ∈ numbers) := by
  induction numbers generalizing bound with
  | nil => simp
  | cons first rest ih =>
    obtain ⟨below, least, chosen⟩ := ih (min bound first)
    rw [foldl_cons]
    refine ⟨by lia, ?_, ?_⟩
    · intro number mem
      rcases mem_cons.mp mem with rfl | mem
      · lia
      · exact least number mem
    · rcases chosen with equal | mem
      · rw [equal, mem_cons]
        lia
      · exact .inr (mem_cons_of_mem _ mem)

def HoldsIn (alloc : Allocation) (seg : SegmentId) (host : HostRegister) (sub : Subrange) : Prop :=
  ∃ id, alloc.subrange? id = some sub ∧ sub.segment = seg ∧
    alloc.hostOf sub = host

section

variable (coherent : alloc.Coherent)

include coherent

theorem Coherent.untilNextHost_le (holds : alloc.HoldsIn seg host sub) (lower : 0 ≤ place)
    (behind : place ≤ sub.start) : alloc.untilNextHost seg place host ≤ sub.start - place := by
  obtain ⟨id, found, here, equal⟩ := holds
  have listed := coherent.mem_subrangesIn.mpr ⟨(coherent.subrange_id found).symm ▸ found, here⟩
  have bounds := coherent.start_bounds found
  simp only [atEntry, atExit] at bounds
  rw [untilNextHost]
  split
  · lia
  · have far : sub.start.distance place = sub.start - place := distance_eq_sub (by lia) (by lia)
    refine (foldl_min_spec _ _).2.1 _ (mem_map.mpr ⟨sub, ?_, far⟩)
    simp [listed, equal, behind]

theorem Coherent.untilNextHost_nonneg (seg : SegmentId) (lower : atEntry ≤ place)
    (upper : place ≤ atExit) (host : HostRegister) : 0 ≤ alloc.untilNextHost seg place host := by
  unfold untilNextHost
  extract_lets holders
  split
  · exact Int.le_refl 0
  · rcases (foldl_min_spec ((holders.filter (place ≤ ·.start)).map (·.start.distance place))
      maxDistance).2.2 with never | nearest
    · rw [never]
      decide
    · obtain ⟨sub, mem, equal⟩ := mem_map.mp nearest
      obtain ⟨mem, behind⟩ := mem_filter.mp mem
      obtain ⟨found, -⟩ := coherent.mem_subrangesIn.mp (mem_of_mem_filter mem)
      have bounds := coherent.start_bounds found
      simp only [decide_eq_true_eq, atEntry, atExit] at behind bounds lower upper
      have far : sub.start.distance place = sub.start - place := distance_eq_sub (by lia) (by lia)
      lia

theorem Coherent.exists_holder_of_untilNextHost (lower : 0 ≤ place)
    (upper : place < atExit) (near : alloc.untilNextHost seg place host < 1) :
    ∃ sub, alloc.HoldsIn seg host sub ∧ sub.start ≤ place ∧ place < sub.stop := by
  unfold untilNextHost at near
  extract_lets holders at near
  have holds {sub : Subrange} (mem : sub ∈ holders) : alloc.HoldsIn seg host sub := by
    obtain ⟨listed, equal⟩ := mem_filter.mp mem
    obtain ⟨found, here⟩ := coherent.mem_subrangesIn.mp listed
    exact ⟨_, found, here, by simpa using equal⟩
  split at near
  next held =>
    obtain ⟨sub, mem, covers⟩ := any_eq_true.mp held
    simp only [Bool.and_eq_true, decide_eq_true_eq] at covers
    exact ⟨sub, holds mem, covers⟩
  · rcases (foldl_min_spec ((holders.filter (place ≤ ·.start)).map (·.start.distance place))
      maxDistance).2.2 with never | nearest
    · rw [never] at near
      exact absurd near (by decide)
    · obtain ⟨sub, mem, equal⟩ := mem_map.mp nearest
      obtain ⟨mem, behind⟩ := mem_filter.mp mem
      obtain ⟨id, found, here, host⟩ := holds mem
      have bounds := coherent.start_bounds found
      simp only [decide_eq_true_eq, atEntry, atExit] at behind bounds upper
      have far : sub.start.distance place = sub.start - place := distance_eq_sub (by lia) (by lia)
      -- The nearest holder starts at the place, with an access.
      have starts : sub.start = place := by lia
      obtain ⟨first, head, index⟩ := coherent.head_of_inside found
        (by simp only [atEntry]; lia) (by simp only [atExit]; lia)
      have covered := (coherent.ordered found).covered (mem_of_mem_head? head)
      exact ⟨sub, ⟨id, found, here, host⟩, Int.le_of_eq starts, by lia⟩

end

theorem Coherent.touched (coherent : alloc.Coherent) (found : alloc.subrange? id = some sub)
    (mem : location ∈ sub.locations) :
    ∃ (index : Nat) (instr : Instruction Register), location.index = index ∧
      (alloc.graph.segment sub.segment).body[index]? = some instr ∧
      (alloc.range sub.range).register ∈ instr.registers := by
  rw [coherent.accessed found] at mem
  obtain ⟨index, instr, body, touched, rfl⟩ :=
    (Segment.mem_locations_iff _).mp (mem_of_mem_filter mem)
  exact ⟨index, instr, rfl, body, touched⟩

theorem Coherent.eq_of_accessed (coherent : alloc.Coherent) (found : alloc.subrange? id = some sub)
    (otherFound : alloc.subrange? other = some otherSub) (same : sub.segment = otherSub.segment)
    (mem : location ∈ sub.locations) (otherMem : otherLocation ∈ otherSub.locations)
    (place : location.index = otherLocation.index)
    (reg : (alloc.range sub.range).register = (alloc.range otherSub.range).register) :
    id = other := by
  by_contra different
  have apart := coherent.apart found otherFound different same reg
  have covered := (coherent.ordered found).covered mem
  have otherCovered := (coherent.ordered otherFound).covered otherMem
  rw [overlaps_iff.mpr (.inl (by lia))] at apart
  cases apart

/-- A scan is stuck, and nothing frees a register even for a single instruction. -/
structure Cornered (seg : SegmentId) (id : SubrangeId) (sub : Subrange)
    (rest : List SubrangeId) (live : List Holder) (alloc : Allocation) : Prop where
  stuck : Stuck seg id sub rest live alloc
  affordable : alloc.Affordable
  stays : sub.stop ≠ .atExit
  inside : sub.start ≠ .atEntry
  noHole : alloc.holeStrategy sub (live.reverse.map (·.subrange)) 1 = none
  noneAvailable : alloc.availableStrategy sub (alloc.unusedBeside live) 1 = none
  noExplosion : alloc.explodeStrategy sub (live.reverse.map (·.subrange)) 1 = none

namespace Cornered

variable (cornered : Cornered seg id sub rest live alloc)

include cornered

theorem here : sub.segment = seg := by
  rw [← subrange_eq_of_some cornered.stuck.found]
  exact cornered.stuck.scanning.found.2

theorem exists_first : ∃ first ∈ sub.locations, first.index = sub.start := by
  have coherent := cornered.stuck.scanning.sound.coherent
  have found := cornered.stuck.found
  rcases (coherent.fits found).start_fits with entry | ⟨-, exit, -⟩ | ⟨first, head, equal⟩
  · exact absurd entry cornered.inside
  · exact absurd exit cornered.stays
  · exact ⟨first, mem_of_mem_head? head, equal⟩

theorem start_bounds : 0 ≤ sub.start ∧ sub.start < atExit := by
  obtain ⟨first, mem, equal⟩ := cornered.exists_first
  have bounds := cornered.stuck.scanning.sound.coherent.index_bounds cornered.stuck.found mem
  lia

theorem untilNextUse_of_live (mem : holder ∈ live) :
    holder.subrange.untilNextUse sub.start < 1 ∨ holder.subrange.stop ≠ .atExit ∧
      holder.subrange.untilNextUse sub.start = maxDistance := by
  have found := cornered.stuck.found
  have holds := cornered.stuck.scanning.holds holder mem
  have same := holds.here.trans cornered.here.symm
  have start := Int.not_lt.mpr cornered.start_bounds.1
  have listed : holder.subrange ∈ live.reverse.map (·.subrange) :=
    mem_map.mpr ⟨holder, mem_reverse.mpr mem, rfl⟩
  by_contra far
  rw [not_or, not_and] at far
  by_cases exit : holder.subrange.stop = .atExit
  · have costs := Strategy.maxDistance_le_of_cheapest cornered.noExplosion
      (mem_filterMap.mpr ⟨holder.subrange, listed, by simp [exit, far.1]; rfl⟩)
    exact absurd (cornered.affordable.explosion found holds.found same) (Int.not_lt.mpr costs)
  · have noHole := cornered.noHole
    rw [holeStrategy, if_neg start] at noHole
    have costs := Strategy.maxDistance_le_of_cheapest noHole
      (mem_filterMap.mpr ⟨holder.subrange, listed, by simp [exit, far.1, far.2 exit]; rfl⟩)
    exact absurd (cornered.affordable.hole found holds.found same) (Int.not_lt.mpr costs)

theorem accessed_of_live (mem : holder ∈ live) :
    ∃ loc ∈ holder.subrange.locations, loc.index = sub.start := by
  have coherent := cornered.stuck.scanning.sound.coherent
  have holds := cornered.stuck.scanning.holds holder mem
  have bounds := cornered.start_bounds
  have lower : atEntry ≤ sub.start := Int.le_trans (by decide) bounds.1
  rcases coherent.untilNextUse_cases holds.found lower (Int.le_of_lt bounds.2) with
    ⟨loc, accessed, behind, distance⟩ | ⟨never, ended⟩
  · refine ⟨loc, accessed, ?_⟩
    have index := coherent.index_bounds holds.found accessed
    simp only [atExit] at index
    have small : holder.subrange.untilNextUse sub.start ≠ maxDistance := by
      rw [distance, maxDistance]
      lia
    rcases cornered.untilNextUse_of_live mem with near | ⟨-, never⟩
    · lia
    · exact absurd never small
  · -- A subrange that is never used again and stays in the segment has expired.
    rcases cornered.untilNextUse_of_live mem with near | ⟨stays, -⟩
    · rw [never] at near
      exact absurd near (by decide)
    · have unexpired := (cornered.stuck.unexpired holder mem).resolve_right stays
      rcases (coherent.fits holds.found).stop_fits with exit | ⟨-, -, entry | zero⟩ |
        ⟨last, final, equal⟩
      · exact absurd exit stays
      · rw [entry, atEntry] at unexpired
        lia
      · rw [zero] at unexpired
        lia
      · have before := ended last (mem_of_getLast? final)
        lia

theorem exists_overlapping (unused : host ∈ alloc.unusedBeside live) :
    ∃ other, alloc.HoldsIn seg host other ∧ sub.start < other.stop ∧ other.start < sub.stop := by
  have coherent := cornered.stuck.scanning.sound.coherent
  have found := cornered.stuck.found
  obtain ⟨range, rangeLive⟩ := coherent.range_live found
  have refused : host ∉ alloc.allowed range := by
    have stuck := cornered.stuck.stuck
    rw [range_eq_of_some rangeLive, free?, if_neg (by
      rw [List.isEmpty_iff]
      exact ne_nil_of_mem unused)] at stuck
    simpa using find?_eq_none.mp stuck host unused
  rw [mem_allowed_iff coherent rangeLive] at refused
  have isHost : host ∈ alloc.hostRegisters := mem_of_mem_filter unused
  simp only [isHost, true_and, not_forall, exists_prop, ne_eq, not_not] at refused
  obtain ⟨mem, part, other, otherSub, partFound, inside, otherFound, different, same,
    overlap, holds⟩ := refused
  -- The visited subrange is the only one of its range.
  have only := coherent.solitary found cornered.inside cornered.stays partFound inside
  subst only
  rw [found, Option.some.injEq] at partFound
  subst partFound
  refine ⟨otherSub, ⟨other, otherFound, same.trans cornered.here, holds⟩, ?_⟩
  rcases overlaps_iff.mp overlap with both | ⟨entry, -⟩ | ⟨exit, -⟩
  · exact both
  · exact absurd entry cornered.inside
  · exact absurd exit cornered.stays

theorem exists_covering (unused : host ∈ alloc.unusedBeside live) :
    ∃ other, alloc.HoldsIn seg host other ∧ other.start ≤ sub.start ∧ sub.start < other.stop := by
  have coherent := cornered.stuck.scanning.sound.coherent
  have bounds := cornered.start_bounds
  obtain ⟨other, holds, before, behind⟩ := cornered.exists_overlapping unused
  by_cases later : sub.start ≤ other.start
  · have reach := coherent.untilNextHost_le holds bounds.1 later
    refine coherent.exists_holder_of_untilNextHost bounds.1 bounds.2 (Int.not_le.mp fun far => ?_)
    -- The register could be used until then.
    have isHost := (mem_hostRegisters_iff cornered.stuck.scanning.sound.nonnegative).mp
      (mem_of_mem_filter unused)
    have noneAvailable := cornered.noneAvailable
    rw [availableStrategy, if_neg (Int.not_lt.mpr bounds.1), cornered.here] at noneAvailable
    have costs := Strategy.maxDistance_le_of_cheapest noneAvailable
      (mem_filterMap.mpr ⟨host, unused, by
        rw [if_neg]
        lia⟩)
    have affordable := cornered.affordable.available cornered.stuck.found host
    rw [cornered.here] at affordable
    exact absurd affordable (Int.not_lt.mpr costs)
  · exact ⟨other, holds, by lia, before⟩

theorem accessed_of_unused (unused : host ∈ alloc.unusedBeside live) :
    ∃ other, alloc.HoldsIn seg host other ∧ ∃ loc ∈ other.locations, loc.index = sub.start := by
  have scanning := cornered.stuck.scanning
  have coherent := scanning.sound.coherent
  have bounds := cornered.start_bounds
  have visited := subrange_eq_of_some cornered.stuck.found
  obtain ⟨other, ⟨number, found, here, holds⟩, before, behind⟩ := cornered.exists_covering unused
  have ahead : number ∈ id :: rest := by
    by_contra passed
    rcases scanning.complete found here passed with ⟨holder, mem, rfl⟩ | ⟨-, expired⟩
    · obtain ⟨-, -, range, rangeLive, host, -⟩ := scanning.holds holder mem
      rw [hostOf, range_eq_of_some rangeLive, host] at holds
      have unheld := (mem_filter.mp unused).2
      simp only [mem_map, decide_eq_true_eq, not_exists, not_and] at unheld
      exact unheld holder mem holds
    · have ended := expired id mem_cons_self
      lia
  have later : sub.start ≤ other.start := by
    rcases mem_cons.mp ahead with rfl | ahead
    · rw [cornered.stuck.found, Option.some.injEq] at found
      exact Int.le_of_eq (congrArg start found)
    · have sorted := (pairwise_cons.mp scanning.sorted).1 number ahead
      rwa [visited, subrange_eq_of_some found] at sorted
  have starts : other.start = sub.start := Int.le_antisymm before later
  obtain ⟨first, head, index⟩ := coherent.head_of_inside found
    (by rw [starts]; exact cornered.inside) (by rw [starts]; exact Int.ne_of_lt bounds.2)
  exact ⟨other, ⟨number, found, here, holds⟩, first, mem_of_mem_head? head, index.trans starts⟩

theorem accessed_of_host (mem : host ∈ alloc.hostRegisters) :
    ∃ other, alloc.HoldsIn seg host other ∧ ∃ loc ∈ other.locations, loc.index = sub.start := by
  by_cases held : host ∈ live.map (·.host)
  · obtain ⟨holder, listed, rfl⟩ := mem_map.mp held
    obtain ⟨found, here, range, rangeLive, equal, -⟩ := cornered.stuck.scanning.holds holder listed
    refine ⟨holder.subrange, ⟨_, found, here, ?_⟩, cornered.accessed_of_live listed⟩
    rw [hostOf, range_eq_of_some rangeLive, equal]
  · exact cornered.accessed_of_unused (mem_filter.mpr ⟨mem, by simpa using held⟩)

theorem exists_overloaded :
    ∃ instr ∈ (alloc.graph.segment seg).body,
      alloc.hostRegisters.length < instr.registers.length := by
  have coherent := cornered.stuck.scanning.sound.coherent
  have found := cornered.stuck.found
  obtain ⟨first, firstMem, starts⟩ := cornered.exists_first
  obtain ⟨index, instr, place, body, touched⟩ := coherent.touched found firstMem
  rw [cornered.here] at body
  refine ⟨instr, mem_of_getElem? body, ?_⟩
  have unassigned := cornered.stuck.unassigned
  -- Each register of the host leads to another register that the instruction touches.
  choose! other holds location accessed located using
    fun host (mem : host ∈ alloc.hostRegisters) => cornered.accessed_of_host mem
  have distinct : (alloc.range sub.range).register ∉ alloc.hostRegisters.map
      fun host => (alloc.range (other host).range).register := by
    intro listed
    obtain ⟨host, mem, reg⟩ := mem_map.mp listed
    obtain ⟨number, otherFound, here, holdsHost⟩ := holds host mem
    have equal := coherent.eq_of_accessed otherFound found (here.trans cornered.here.symm)
      (accessed host mem) firstMem ((located host mem).trans starts.symm) reg
    rw [equal, found, Option.some.injEq] at otherFound
    rw [← otherFound, hostOf] at holdsHost
    have lower := ((mem_hostRegisters_iff cornered.stuck.scanning.sound.nonnegative).mp mem).1
    rw [LiveRange.isAssigned, holdsHost, decide_eq_true lower] at unassigned
    cases unassigned
  have nodup : (alloc.hostRegisters.map fun host =>
      (alloc.range (other host).range).register).Nodup := by
    refine alloc.nodup_hostRegisters.map_on ?_
    intro host mem host' member' reg
    obtain ⟨number, otherFound, here, holdsHost⟩ := holds host mem
    obtain ⟨number', otherFound', here', holdsHost'⟩ := holds host' member'
    have equal := coherent.eq_of_accessed otherFound otherFound' (here.trans here'.symm)
      (accessed host mem) (accessed host' member')
      ((located host mem).trans (located host' member').symm) reg
    rw [equal, otherFound', Option.some.injEq] at otherFound
    rw [← holdsHost, ← otherFound, holdsHost']
  have subset : ((alloc.range sub.range).register :: alloc.hostRegisters.map fun host =>
        (alloc.range (other host).range).register) ⊆ instr.registers := by
    refine cons_subset.mpr ⟨touched, fun reg listed => ?_⟩
    obtain ⟨host, mem, rfl⟩ := mem_map.mp listed
    obtain ⟨number, otherFound, here, -⟩ := holds host mem
    obtain ⟨index', instr', place', body', touched'⟩ :=
      coherent.touched otherFound (accessed host mem)
    have index_eq : index' = index := by
      have located := located host mem
      lia
    rw [here, index_eq, body, Option.some.injEq] at body'
    rw [body']
    exact touched'
  have length := (subperm_of_subset (nodup_cons.mpr ⟨distinct, nodup⟩) subset).length_le
  rw [length_cons, length_map] at length
  exact length

end Cornered

theorem length_registers_le {id regs}
    (accepted : operandError? g regs = none) (listed : id ∈ g.order)
    (mem : instr ∈ (g.segment id).body) : (instr.registers.length : Int) ≤ regs := by
  rw [operandError?, findSome?_eq_none_iff] at accepted
  have accepted := accepted _ (mem_map_of_mem listed)
  rw [overloaded?, findSome?_eq_none_iff] at accepted
  refine Int.not_lt.mp fun overloaded => ?_
  have accepted := accepted instr mem
  simp [overloaded] at accepted

theorem not_cornered (few : alloc.registers ≤ 32)
    (accepted : operandError? alloc.graph alloc.registers = none) :
    ¬Cornered seg id sub rest live alloc := by
  intro cornered
  have sound := cornered.stuck.scanning.sound
  obtain ⟨instr, mem, overloaded⟩ := cornered.exists_overloaded
  have listed : seg ∈ alloc.graph.order := by
    rw [← cornered.here]
    exact sound.coherent.segment_mem cornered.stuck.found
  have enough := length_registers_le accepted listed mem
  have nonneg := sound.nonnegative
  rw [hostRegisters, if_neg (Int.not_lt.mpr nonneg), length_map, length_range] at overloaded
  lia

end Allocation
end Dynarec
