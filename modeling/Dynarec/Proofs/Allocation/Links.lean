import Dynarec.Proofs.Allocation.Growth

/-!
# Continuations of subranges

A subrange that leaves its segment continues, in the same range, in every
linked segment that the range enters, and a subrange that starts at the entry of
its segment is the continuation of one in every source.  New ranges have this
property, and refinements keep it.
-/

namespace Dynarec
variable {id : SubrangeId}

namespace Allocation

/-- Ranges pass the boundaries between segments along the links of the graph. -/
structure Linked (alloc : Allocation) : Prop where
  /-- A continuation is the subrange of the same range that starts behind the link. -/
  continues : ∀ {id sub side next}, alloc.subrange? id = some sub →
    sub.link side = some next → sub.stop = .atExit ∧
      ∃ target, alloc.subrange? next = some target ∧ target.range = sub.range ∧
        target.start = .atEntry ∧
        (alloc.segmentOf sub).link side = some target.segment
  entered : ∀ {id sub source side}, alloc.subrange? id = some sub →
    sub.start = .atEntry → source ∈ alloc.graph.order →
    (alloc.graph.segment source).link side = some sub.segment →
    ∃ other origin, alloc.subrange? other = some origin ∧ origin.segment = source ∧
      origin.range = sub.range ∧ origin.stop = .atExit ∧ origin.link side = some id
  /-- A link leads to the segment of a subrange that starts at the entry. -/
  enters : ∀ {id sub}, alloc.subrange? id = some sub →
    sub.start = .atEntry → ∃ source ∈ alloc.graph.order,
      sub.segment ∈ (alloc.graph.segment source).successors
  leaves : ∀ {id sub}, alloc.subrange? id = some sub →
    sub.stop = .atExit → (alloc.segmentOf sub).successors ≠ []

/-- What follows a subrange has followed it before, and stayed in its range if it was there. -/
def KeepsLinks (before after : Allocation) : Prop :=
  ∀ ⦃id part side next⦄, after.subrange? id = some part → part.link side = some next →
    ∃ sub, before.subrange? id = some sub ∧ sub.link side = some next ∧
      ∀ ⦃target⦄, before.subrange? next = some target → target.range = sub.range →
        ∃ nextPart, after.subrange? next = some nextPart ∧ nextPart.range = part.range

theorem KeepsLinks.refl : KeepsLinks before before :=
  fun _ _ _ _ found link => ⟨_, found, link, fun _ targetFound same => ⟨_, targetFound, same⟩⟩

theorem KeepsLinks.trans (first : KeepsLinks before middle)
    (second : KeepsLinks middle after) : KeepsLinks before after := by
  intro id part side next live link
  obtain ⟨middlePart, middleLive, middleLink, stays⟩ := second live link
  obtain ⟨sub, found, link, stayed⟩ := first middleLive middleLink
  refine ⟨sub, found, link, fun _ targetFound same => ?_⟩
  obtain ⟨nextPart, nextLive, nextSame⟩ := stayed targetFound same
  exact stays nextLive nextSame

namespace Refines

variable (refines : Refines before after origin) (coherent : before.Coherent)

include refines coherent

/-- The subranges of a range stay as long as one of them does. -/
theorem survives (live : after.subrange? id = some part) (found : before.subrange? id = some sub)
    (keeps : sub.Keeps part) (otherFound : before.subrange? other = some otherSub)
    (same : otherSub.range = sub.range) :
    ∃ otherPart, after.subrange? other = some otherPart ∧ otherPart.Narrows otherSub ∧
      otherSub.Keeps otherPart := by
  obtain ⟨range, rangeLive⟩ := (refines.coherent_after coherent).range_live live
  have old := coherent.range_lt_nextRange found
  rw [keeps.range_eq] at rangeLive
  obtain ⟨otherPart, otherLive, inside⟩ := (refines.range_old rangeLive old).2 otherFound same
  rcases refines.cases otherLive with ⟨source, sourceFound, narrows, kept⟩ | ⟨_, _, _, fresh⟩
  · cases otherFound.symm.trans sourceFound
    exact ⟨otherPart, otherLive, narrows, kept⟩
  · have new := fresh.new_range
    rw [inside] at new
    exact absurd old (Nat.not_lt.mpr new)

theorem keepsLinks : KeepsLinks before after := by
  intro id part side next live link
  rcases refines.cases live with ⟨sub, found, -, keeps⟩ | ⟨_, _, _, fresh⟩
  · refine ⟨sub, found, (keeps.link_eq side).symm.trans link, fun _ targetFound same => ?_⟩
    obtain ⟨nextPart, nextLive, -, nextKeeps⟩ :=
      refines.survives coherent live found keeps targetFound same
    exact ⟨nextPart, nextLive, by rw [nextKeeps.range_eq, same, keeps.range_eq]⟩
  · rw [fresh.link_eq] at link
    cases link

theorem linked (linked : before.Linked) : after.Linked where
  continues {id part side next} live link := by
    rcases refines.cases live with ⟨sub, found, narrows, keeps⟩ | ⟨_, _, _, fresh⟩
    · rw [keeps.link_eq] at link
      obtain ⟨exit, target, targetFound, same, entry, seg⟩ := linked.continues found link
      obtain ⟨targetPart, targetLive, targetNarrows, targetKeeps⟩ :=
        refines.survives coherent live found keeps targetFound same
      refine ⟨keeps.stop_eq exit, targetPart, targetLive, ?_, ?_, ?_⟩
      · rw [targetKeeps.range_eq, same, keeps.range_eq]
      · rw [targetKeeps.start_eq, entry]
      · rw [segmentOf, refines.graph_eq, narrows.segment_eq, targetNarrows.segment_eq]
        exact seg
    · rw [fresh.link_eq] at link
      cases link
  entered {id part source side} live entry mem seg := by
    rw [refines.graph_eq] at mem seg
    rcases refines.cases live with ⟨sub, found, narrows, keeps⟩ | ⟨_, _, _, fresh⟩
    · rw [keeps.start_eq] at entry
      rw [narrows.segment_eq] at seg
      obtain ⟨other, origin, originFound, here, same, exit, link⟩ :=
        linked.entered found entry mem seg
      obtain ⟨otherPart, otherLive, otherNarrows, otherKeeps⟩ :=
        refines.survives coherent live found keeps originFound same
      refine ⟨other, otherPart, otherLive, ?_, ?_, otherKeeps.stop_eq exit, ?_⟩
      · rw [otherNarrows.segment_eq, here]
      · rw [otherKeeps.range_eq, same, keeps.range_eq]
      · rw [otherKeeps.link_eq, link]
    · exact absurd entry fresh.inside
  enters live entry := by
    obtain ⟨sub, found, narrows, _, _⟩ := refines.narrows live
    rw [narrows.segment_eq, refines.graph_eq]
    exact linked.enters found (narrows.entry_of_entry entry)
  leaves live exit := by
    obtain ⟨sub, found, narrows, _, _⟩ := refines.narrows live
    rw [segmentOf, narrows.segment_eq, refines.graph_eq]
    exact linked.leaves found (narrows.exit_of_exit exit)

end Refines
end Allocation

namespace Liveness.Finished

variable (numbered : liveness.graph.Numbered) (framed : Framed liveness.graph liveness)
  (finished : Finished liveness forming)

include finished

/-- A window becomes only one subrange. -/
theorem eq_of_register (found : forming.allocation.subrange? id = some sub)
    (otherFound : forming.allocation.subrange? other = some otherSub)
    (sameSeg : sub.segment = otherSub.segment)
    (sameRegister : (forming.allocation.range sub.range).register =
      (forming.allocation.range otherSub.range).register) : id = other := by
  obtain ⟨range, reg, live, same, listed, here, _⟩ := finished.formed.window found
  obtain ⟨otherRange, _, otherLive, _⟩ := finished.formed.window otherFound
  rw [Allocation.range_eq_of_some live, Allocation.range_eq_of_some otherLive] at sameRegister
  have first := (finished.formed.member?_iff here listed).mpr ⟨sub, range, found, rfl, live, same⟩
  have second := (finished.formed.member?_iff here listed).mpr
    ⟨otherSub, otherRange, otherFound, sameSeg.symm, otherLive, sameRegister ▸ same⟩
  exact Option.some.inj (first.symm.trans second)

theorem subrange?_of_member? (mem : seg ∈ liveness.graph.order)
    (listed : reg < liveness.graph.slots.length) (taken : forming.member? seg reg = some id) :
    ∃ sub range, forming.allocation.subrange? id = some sub ∧ sub.segment = seg ∧
      forming.allocation.range? sub.range = some range ∧ range.register = Int.ofNat reg ∧
      sub.start = (liveness.window seg reg).start ∧ sub.stop = (liveness.window seg reg).stop := by
  obtain ⟨sub, range, found, here, live, same⟩ := (finished.formed.member?_iff mem listed).mp taken
  obtain ⟨_, _, start, stop⟩ := finished.formed.window_of_register found live same
  rw [here] at start stop
  exact ⟨sub, range, found, here, live, same, start, stop⟩

/-- A subrange that leaves its segment continues in the windows that start behind its links. -/
theorem link_iff (found : forming.allocation.subrange? id = some sub)
    (live : forming.allocation.range? sub.range = some range)
    (same : range.register = Int.ofNat reg) :
    sub.link side = some next ↔ sub.stop = .atExit ∧
      ∃ target, (liveness.graph.segment sub.segment).link side = some target ∧
        (liveness.window target reg).start = .atEntry ∧ forming.member? target reg = some next := by
  rw [finished.continues found live same]
  split
  next exit =>
    simp only [continuation, Option.bind_eq_some_iff, Option.ite_none_right_eq_some, exit, true_and]
  next stays => simp [stays]

theorem solitary (found : forming.allocation.subrange? id = some sub)
    (inside : sub.start ≠ .atEntry) (stays : sub.stop ≠ .atExit)
    (otherFound : forming.allocation.subrange? other = some otherSub)
    (same : otherSub.range = sub.range) : other = id := by
  obtain ⟨range, reg, live, register_eq, _, _, _, start, stop, _⟩ := finished.formed.window found
  have connected := finished.connected found live register_eq otherFound same
  rcases connected.eq_or_touches with equal | ⟨entry | exit, _⟩
  · exact finished.eq_of_register otherFound found equal.symm (by rw [same])
  · exact absurd (start.trans entry) inside
  · exact absurd (stop.trans exit) stays

include framed

theorem fits (found : forming.allocation.subrange? id = some sub) :
    Fits sub.start sub.stop sub.locations ∧ sub.locations = forming.allocation.accessesOf sub := by
  obtain ⟨range, reg, live, same, listed, here, defined, start, stop, locations⟩ :=
    finished.formed.window found
  constructor
  · rw [start, stop, locations, same]
    cases framed.frames here listed with
    | absent undefined _ =>
      rw [undefined] at defined
      cases defined
    | present _ fits => exact fits
  · rw [locations, Allocation.accessesOf, Allocation.segmentOf, finished.formed.graph_eq,
      Allocation.range_eq_of_some live]

include numbered

theorem coherent (short : liveness.graph.IsShort) : forming.allocation.Coherent where
  short := finished.formed.graph_eq ▸ short
  listed id mem := by
    rw [finished.formed.graph_eq] at mem
    exact finished.formed.size_eq ▸ numbered.inside mem
  range_id := finished.formed.range_id
  subrange_id := finished.formed.subrange_id
  register_slot live := by
    obtain ⟨reg, listed, equal, slot⟩ := finished.formed.register_slot live
    rw [finished.formed.graph_eq]
    exact ⟨equal ▸ Int.natCast_nonneg reg, equal ▸ Int.ofNat_lt.mpr listed, slot⟩
  range_live found := by
    obtain ⟨range, _, live, _⟩ := finished.formed.window found
    exact ⟨range, live⟩
  mem_subranges := finished.formed.mem_subranges
  nodup_subranges := finished.formed.nodup_subranges
  subranges_ne_nil := finished.subranges_ne_nil
  lists := finished.formed.lists
  segment_mem found := by
    obtain ⟨_, _, _, _, _, here, _⟩ := finished.formed.window found
    exact finished.formed.graph_eq ▸ here
  alone found otherFound sameRange sameSeg :=
    finished.eq_of_register found otherFound sameSeg (by rw [sameRange])
  solitary := finished.solitary
  fits found := (finished.fits framed found).1
  accessed {id sub} found := by
    obtain ⟨fits, locs⟩ := finished.fits framed found
    obtain ⟨_, _, _, _, _, here, _⟩ := finished.formed.window found
    rw [← locs]
    refine (Subrange.Ordered.filter_covers ⟨fits, ?_, fun loc mem => ?_⟩).symm <;>
      rw [Allocation.accessesOf, Allocation.segmentOf, finished.formed.graph_eq] at locs
    · exact locs ▸ Segment.pairwise_locations _ _
    · exact short.index_bounds here (locs ▸ mem)
  apart found otherFound different sameSeg sameRegister :=
    absurd (finished.eq_of_register found otherFound sameSeg sameRegister) different

theorem linked (backlinked : liveness.graph.Backlinked) : forming.allocation.Linked := by
  have formed := finished.formed
  constructor
  · intro id sub side next found link
    obtain ⟨range, reg, live, same, listed, here, _, _, stop, _⟩ := formed.window found
    obtain ⟨exit, target, linked, entry, taken⟩ := (finished.link_iff found live same).mp link
    have meets : target ∈ liveness.neighbours reg sub.segment :=
      mem_neighbours_iff.mpr (.inl ⟨stop.symm.trans exit,
        Segment.mem_successors_of_link linked, entry⟩)
    obtain ⟨mem, otherSub, taken', otherFound, joined⟩ := finished.met found live same meets
    cases taken.symm.trans taken'
    obtain ⟨_, _, found', here', _, _, start, _⟩ :=
      finished.subrange?_of_member? (numbered.link_mem here linked) listed taken
    cases otherFound.symm.trans found'
    refine ⟨exit, otherSub, otherFound, joined backlinked, start.trans entry, ?_⟩
    rw [Allocation.segmentOf, formed.graph_eq, here', linked]
  · intro id sub source side found entry mem link
    rw [formed.graph_eq] at mem link
    obtain ⟨range, reg, live, same, listed, here, _, start, _⟩ := formed.window found
    have windowEntry := start.symm.trans entry
    have precedes : source ∈ (liveness.graph.segment sub.segment).prev :=
      (backlinked.mem_prev_iff here mem).mpr (Segment.mem_successors_of_link link)
    have windowExit := framed.source_exit here listed windowEntry precedes
    have meets : source ∈ liveness.neighbours reg sub.segment :=
      mem_neighbours_iff.mpr (.inr ⟨windowEntry, precedes, windowExit⟩)
    obtain ⟨other, origin, taken, originFound, joined⟩ := finished.met found live same meets
    obtain ⟨_, originRange, found', originHere, originLive, originSame, _, stop⟩ :=
      finished.subrange?_of_member? mem listed taken
    cases originFound.symm.trans found'
    have exit := stop.trans windowExit
    have taken := (formed.member?_iff here listed).mpr ⟨sub, range, found, rfl, live, same⟩
    refine ⟨other, origin, originFound, originHere, joined backlinked, exit, ?_⟩
    exact (finished.link_iff originFound originLive originSame).mpr
      ⟨exit, sub.segment, originHere ▸ link, windowEntry, taken⟩
  · intro id sub found entry
    obtain ⟨_, reg, _, _, listed, here, _, start, _⟩ := formed.window found
    rw [formed.graph_eq]
    exact framed.entry_linked here listed (start.symm.trans entry)
  · intro id sub found exit
    obtain ⟨_, reg, _, _, listed, here, _, _, stop, _⟩ := formed.window found
    rw [Allocation.segmentOf, formed.graph_eq]
    obtain ⟨next, follows, -⟩ :=
      (framed.exit_met backlinked here listed (stop.symm.trans exit)).resolve_left not_false
    exact List.ne_nil_of_mem follows

end Liveness.Finished

namespace Allocation

variable {g : Graph} (numbered : g.Numbered) (short : g.IsShort) (registers : Int)

include numbered short

/-- The ranges of a graph come from windows that fit the accesses. -/
theorem exists_finished_ofGraph :
    ∃ (liveness : Liveness) (forming : Liveness.Forming), liveness.graph = g ∧
      ofGraph g registers = forming.allocation ∧ liveness.Framed g ∧ liveness.Finished forming ∧
      ∀ {id reg}, id ∈ g.order → reg < g.slots.length → (liveness.window id reg).isDefined →
        ∃ mem, forming.member? id reg = some mem := by
  have framed := ((Liveness.framed_ofGraph numbered short).mergeClose numbered).extendOutOfLoops
    numbered
  unfold ofGraph
  generalize (Liveness.ofGraph g).mergeClose.extendOutOfLoops = liveness at framed
  obtain rfl := framed.graph_eq
  obtain ⟨forming, equal, finished, taken⟩ :=
    Liveness.finished_buildRanges numbered framed.proper registers
  exact ⟨liveness, forming, rfl, equal, framed, finished, taken⟩

theorem coherent_ofGraph : (ofGraph g registers).Coherent := by
  obtain ⟨liveness, forming, rfl, equal, framed, finished, _⟩ :=
    exists_finished_ofGraph numbered short registers
  rw [equal]
  exact finished.coherent numbered framed short

theorem linked_ofGraph (backlinked : g.Backlinked) : (ofGraph g registers).Linked := by
  obtain ⟨liveness, forming, rfl, equal, framed, finished, _⟩ :=
    exists_finished_ofGraph numbered short registers
  rw [equal]
  exact finished.linked numbered framed backlinked

end Allocation
end Dynarec
