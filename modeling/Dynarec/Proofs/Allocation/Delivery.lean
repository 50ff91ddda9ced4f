import Dynarec.Proofs.Allocation.Sync

/-!
# Delayed stores

However ranges are split and replaced after they were formed, the loads and
stores that the analysis decides on lose no written value: a subrange that
writes its register stores it, or leaves the store to others, and then every
path along the range reaches a subrange that ends inside its segment with a
store before the range is left.

This rests on segments that are short enough.  A write just before the place
that stands for the exit boundary looks as if it left its segment.
-/

namespace Dynarec

open List Option Position Subrange

/-! ## Windows -/

/-- The windows that the search for close accesses and the loops of a graph lead to. -/
inductive Liveness.Derived (g : Graph) : Liveness → Prop
  /-- At first windows just cover the accesses. -/
  | accesses : Derived g (.ofGraph g)
  | extend {liveness : Liveness} {id : SegmentId} {reg : Nat}
      (derived : Derived g liveness) (member : id ∈ g.order)
      (listed : reg < g.slots.length) : Derived g (liveness.tryExtend id reg)
  /-- All windows are extended to those close behind them. -/
  | merge {liveness : Liveness} (derived : Derived g liveness) : Derived g liveness.mergeClose
  /-- What is live at the exits of loops is kept into the segments outside. -/
  | leave {liveness : Liveness} (derived : Derived g liveness) : Derived g liveness.extendOutOfLoops

theorem Liveness.Derived.framed (derived : Derived g liveness)
    (numbered : g.Numbered) (short : g.IsShort) : liveness.Framed g := by
  induction derived with
  | accesses => exact framed_ofGraph numbered short
  | extend _ mem listed ih =>
    exact ih.tryExtend numbered listed mem
  | merge _ ih => exact ih.mergeClose numbered
  | leave _ ih => exact ih.extendOutOfLoops numbered

/-- A subrange inside a segment that nothing continues and that delays no store. -/
structure Subrange.Secluded (sub : Subrange) : Prop where
  stops : sub.stop < atExit
  unlinked : ∀ side, sub.link side = none
  before_exit : ∀ loc ∈ sub.locations, loc.index + 1 < atExit
  undelayed : sub.hasDelayedStore = false

namespace Allocation

variable {alloc before after : Allocation} {locations : List Location}

/-! ## Threads -/

/-- What ranges keep however they are split and replaced: they list their subranges, and pass
boundaries along the links of the graph only. -/
structure Threaded (alloc : Allocation) : Prop extends alloc.Owned where
  /-- A continuation is the subrange of the same range that starts behind the link. -/
  continues : ∀ {id sub side next}, alloc.subrange? id = some sub →
    sub.link side = some next → sub.stop = .atExit ∧
      ∃ target, alloc.subrange? next = some target ∧ target.range = sub.range ∧
        target.start = .atEntry ∧
        (alloc.segmentOf sub).link side = some target.segment
  /-- The segment of a subrange that stops at the exit has a link. -/
  leaves : ∀ {id sub}, alloc.subrange? id = some sub →
    sub.stop = .atExit → (alloc.segmentOf sub).successors ≠ []
  stop_le : ∀ {id sub}, alloc.subrange? id = some sub → sub.stop ≤ atExit
  /-- Accesses stand before the place of the exit boundary. -/
  before_exit : ∀ {id sub}, alloc.subrange? id = some sub →
    ∀ loc ∈ sub.locations, loc.index + 1 < atExit
  /-- No store is delayed yet. -/
  undelayed : alloc.Undelayed

theorem threaded_buildRanges {liveness : Liveness} (tied : g.Tied)
    (short : g.IsShort) (framed : liveness.Framed g)
    (regs : Int) : (liveness.buildRanges (.empty g regs)).Threaded := by
  have undelayed := undelayed_buildRanges liveness g regs
  obtain rfl := framed.graph_eq
  have numbered := tied.numbered
  obtain ⟨forming, equal, finished, -⟩ := Liveness.finished_buildRanges numbered framed.proper regs
  rw [equal] at undelayed ⊢
  have coherent := finished.coherent numbered framed short
  have linked := finished.linked numbered framed tied.backlinked
  exact {
    toOwned := coherent.owned
    continues := linked.continues
    leaves := linked.leaves
    stop_le := coherent.stop_le_exit
    before_exit := fun found loc mem => (coherent.index_bounds found mem).2
    undelayed }

namespace Threaded

variable (threaded : alloc.Threaded)

include threaded

/-- Ranges stay threaded if every subrange stayed or is secluded, and what continues another one is
found where it was. -/
theorem of_sources (graph_eq : after.graph = alloc.graph) (owned : after.Owned)
    (source : ∀ {id part}, after.subrange? id = some part →
      part.Secluded ∨ alloc.subrange? id = some part)
    (image : ∀ {id part next target}, after.subrange? id = some part →
      alloc.subrange? next = some target → target.range = part.range →
      ∃ now, after.subrange? next = some now ∧ now.range = target.range ∧
        now.start = target.start ∧ now.segment = target.segment) : after.Threaded := by
  constructor
  case toOwned => exact owned
  case continues =>
    intro id part side next live link
    rcases source live with secluded | old
    · cases (secluded.unlinked side).symm.trans link
    · obtain ⟨exit, target, targetLive, same, entry, seg⟩ := threaded.continues old link
      obtain ⟨now, nowLive, range_eq, start_eq, segment_eq⟩ := image live targetLive same
      refine ⟨exit, now, nowLive, range_eq.trans same, start_eq.trans entry, ?_⟩
      rw [segmentOf, graph_eq, segment_eq]
      exact seg
  all_goals intro id part live
  all_goals rcases source live with secluded | old
  case leaves.inl => exact fun exit => absurd exit (Int.ne_of_lt secluded.stops)
  case leaves.inr =>
    rw [segmentOf, graph_eq]
    exact threaded.leaves old
  case stop_le.inl => exact Int.le_of_lt secluded.stops
  case stop_le.inr => exact threaded.stop_le old
  case before_exit.inl => exact secluded.before_exit
  case before_exit.inr => exact threaded.before_exit old
  case undelayed.inl => exact secluded.undelayed
  case undelayed.inr => exact threaded.undelayed _ _ old

theorem of_views (graph_eq : after.graph = alloc.graph)
    (subrange?_eq : ∀ id, after.subrange? id = alloc.subrange? id)
    (range?_eq : ∀ id, (after.range? id).map (·.subranges) =
      (alloc.range? id).map (·.subranges)) : after.Threaded := by
  refine threaded.of_sources graph_eq ⟨?_, ?_⟩ (fun live => .inr (subrange?_eq _ ▸ live))
    fun _ live _ => ⟨_, (subrange?_eq _).trans live, rfl, rfl, rfl⟩
  · intro id sub found
    rw [subrange?_eq] at found
    obtain ⟨range, live⟩ := threaded.range_live found
    have same := range?_eq sub.range
    rw [live, map_some] at same
    obtain ⟨now, nowLive, -⟩ := map_eq_some_iff.mp same
    exact ⟨now, nowLive⟩
  · intro id range live mem
    have same := range?_eq id
    rw [live, map_some] at same
    obtain ⟨old, oldLive, equal⟩ := map_eq_some_iff.mp same.symm
    rw [← equal, threaded.mem_subranges oldLive, subrange?_eq]

theorem continued : alloc.Continued := by
  intro id sub side next found link
  obtain ⟨-, target, targetFound, -⟩ := threaded.continues found link
  exact ⟨target, targetFound⟩

theorem bounds_of_mem {id} (mem : location ∈ (alloc.subrange id).locations) :
    (∃ sub, alloc.subrange? id = some sub) ∧ location.index + 1 < atExit := by
  cases found : alloc.subrange? id with
  | none =>
    rw [Allocation.subrange, found] at mem
    cases mem
  | some sub =>
    rw [subrange_eq_of_some found] at mem
    exact ⟨⟨sub, rfl⟩, threaded.before_exit found location mem⟩

theorem addSubrange (reg : Register) (slot : Slot) (seg : SegmentId) (start : Position)
    {stop} (stays : stop < atExit) (before_exit : ∀ loc ∈ locations, loc.index + 1 < atExit) :
    ((alloc.addRange reg slot).addSubrange alloc.nextRange seg start stop locations).Threaded := by
  have old {id sub} (found : alloc.subrange? id = some sub) :
      id ≠ alloc.nextSubrange ∧ sub.range ≠ alloc.nextRange := by
    obtain ⟨range, live⟩ := threaded.range_live found
    exact ⟨Nat.ne_of_lt (lt_nextSubrange_of_subrange? found),
      Nat.ne_of_lt (lt_nextRange_of_range? live)⟩
  generalize added : (alloc.addRange reg slot).addSubrange alloc.nextRange seg
    start stop locations = after
  have source {id part} (live : after.subrange? id = some part) : id = alloc.nextSubrange ∧
          part = { id, range := alloc.nextRange, segment := seg, start, stop, locations } ∨
        alloc.subrange? id = some part := by
    rw [← added, subrange?_addSubrange, nextSubrange_addRange, subrange?_addRange] at live
    split at live
    next new =>
      cases live
      exact .inl ⟨new, by rw [new]⟩
    · exact .inr live
  have kept {id part} (live : alloc.subrange? id = some part) : after.subrange? id = some part := by
    rw [← added, subrange?_addSubrange, nextSubrange_addRange, if_neg (old live).1,
      subrange?_addRange, live]
  have newRange : ∃ range, after.range? alloc.nextRange = some range ∧
      range.subranges = [alloc.nextSubrange] := by
    rw [← added, range?_addSubrange, if_pos rfl, range?_addRange, if_pos rfl]
    exact ⟨_, rfl, rfl⟩
  have oldRange {id} (ne : id ≠ alloc.nextRange) : after.range? id = alloc.range? id := by
    rw [← added, range?_addSubrange, if_neg (Ne.symm ne), range?_addRange, if_neg ne]
  refine threaded.of_sources (by rw [← added]; rfl) ⟨?_, ?_⟩ (fun live => ?_)
    fun _ live _ => ⟨_, kept live, rfl, rfl, rfl⟩
  · intro id part live
    rcases source live with ⟨-, rfl⟩ | live
    · obtain ⟨range, rangeLive, -⟩ := newRange
      exact ⟨range, rangeLive⟩
    · rw [oldRange (old live).2]
      exact threaded.range_live live
  · intro id range rangeLive mem
    by_cases new : id = alloc.nextRange
    · subst new
      obtain ⟨known, knownLive, subranges_eq⟩ := newRange
      cases rangeLive.symm.trans knownLive
      rw [subranges_eq, mem_singleton]
      constructor
      · rintro rfl
        rw [← added, subrange?_addSubrange, nextSubrange_addRange, if_pos rfl]
        exact ⟨_, rfl, rfl⟩
      · rintro ⟨part, live, inside⟩
        rcases source live with ⟨here, -⟩ | live
        · exact here
        · exact absurd inside (old live).2
    · rw [oldRange new] at rangeLive
      rw [threaded.mem_subranges rangeLive]
      constructor
      · rintro ⟨part, live, inside⟩
        exact ⟨part, kept live, inside⟩
      · rintro ⟨part, live, inside⟩
        rcases source live with ⟨-, rfl⟩ | live
        · exact absurd inside.symm new
        · exact ⟨part, live, inside⟩
  · refine (source live).imp_left ?_
    rintro ⟨-, rfl⟩
    exact ⟨stays, fun side => by cases side <;> rfl, before_exit, rfl⟩

theorem shorten {id stop} (found : alloc.subrange? id = some sub)
    (stays : sub.stop ≠ .atExit) (lower : stop ≤ sub.stop) (inside : locations ⊆ sub.locations) :
    (alloc.modifySubrange id ({ · with stop, locations })).Threaded := by
  have source {other part}
      (live : (alloc.modifySubrange id ({ · with stop, locations })).subrange? other = some part) :
      other = id ∧ part = { sub with stop, locations } ∨ alloc.subrange? other = some part := by
    rw [subrange?_modifySubrange] at live
    split at live
    next same =>
      subst same
      rw [found] at live
      cases live
      exact .inl ⟨rfl, rfl⟩
    · exact .inr live
  have image {other part} (live : alloc.subrange? other = some part) :
      ∃ now, (alloc.modifySubrange id ({ · with stop, locations })).subrange? other =
        some now ∧ now.range = part.range ∧ now.start = part.start ∧
        now.segment = part.segment := by
    rw [subrange?_modifySubrange, live]
    split
    · exact ⟨_, rfl, rfl, rfl, rfl⟩
    · exact ⟨_, rfl, rfl, rfl, rfl⟩
  refine threaded.of_sources rfl ⟨?_, ?_⟩ (fun live => ?_) fun _ live _ => image live
  · intro other part live
    rcases source live with ⟨rfl, rfl⟩ | live
    · have rangeLive := threaded.range_live found
      exact rangeLive
    · exact threaded.range_live live
  · intro range liveRange rangeLive mem
    rw [threaded.mem_subranges rangeLive]
    constructor
    · rintro ⟨part, live, inside⟩
      obtain ⟨now, nowLive, same, -⟩ := image live
      exact ⟨now, nowLive, same.trans inside⟩
    · rintro ⟨part, live, inside⟩
      rcases source live with ⟨rfl, rfl⟩ | live
      · exact ⟨sub, found, inside⟩
      · exact ⟨part, live, inside⟩
  · refine (source live).imp_left ?_
    rintro ⟨-, rfl⟩
    refine ⟨Int.lt_of_le_of_lt lower (lt_of_le_of_ne (threaded.stop_le found) stays),
      fun side => ?_, fun loc mem => threaded.before_exit found loc (inside mem),
      (threaded.undelayed _ _ found :)⟩
    have unlinked : sub.link side = none := eq_none_iff_forall_ne_some.mpr fun next link =>
      stays (threaded.continues found link).1
    cases side <;> exact unlinked

theorem dropRange (id : RangeId) : (alloc.dropRange id).Threaded := by
  -- The subranges of the range are exactly those that it lists.
  have live_iff {other part} : (alloc.dropRange id).subrange? other = some part ↔
        alloc.subrange? other = some part ∧ part.range ≠ id := by
    rw [subrange?_dropRange]
    constructor
    · intro live
      split at live
      · cases live
      next unlisted =>
        refine ⟨live, ?_⟩
        rintro rfl
        obtain ⟨range, rangeLive⟩ := threaded.range_live live
        rw [range_eq_of_some rangeLive] at unlisted
        exact unlisted ((threaded.mem_subranges rangeLive).mpr ⟨part, live, rfl⟩)
    · rintro ⟨live, other_range⟩
      rw [if_neg, live]
      intro listed
      cases rangeLive : alloc.range? id with
      | none =>
        rw [Allocation.range, rangeLive] at listed
        cases listed
      | some range =>
        rw [range_eq_of_some rangeLive, threaded.mem_subranges rangeLive] at listed
        obtain ⟨same, sameLive, inside⟩ := listed
        cases live.symm.trans sameLive
        exact other_range inside
  refine threaded.of_sources (congrArg Prod.fst (Edit.drop id).setting_eq) ⟨?_, ?_⟩
    (fun live => .inr (live_iff.mp live).1) fun live targetLive same =>
      ⟨_, live_iff.mpr ⟨targetLive, same ▸ (live_iff.mp live).2⟩, rfl, rfl, rfl⟩
  · intro other part live
    obtain ⟨live, ne⟩ := live_iff.mp live
    rw [range?_dropRange, if_neg (Ne.symm ne)]
    exact threaded.range_live live
  · intro other range live mem
    rw [range?_dropRange] at live
    split at live
    · cases live
    next ne =>
      rw [threaded.mem_subranges live]
      constructor
      · rintro ⟨part, found, rfl⟩
        exact ⟨part, live_iff.mpr ⟨found, Ne.symm ne⟩, rfl⟩
      · rintro ⟨part, found, inside⟩
        exact ⟨part, (live_iff.mp found).1, inside⟩

end Threaded

theorem Edit.threaded (edit : Edit before after) (threaded : before.Threaded) : after.Threaded := by
  cases edit with
  | reorder seg ids => exact threaded.of_views rfl (fun _ => rfl) fun _ => rfl
  | assign id listed =>
    refine threaded.of_views rfl (fun _ => rfl) fun other => ?_
    rw [range?_modifyRange]
    split
    · cases before.range? other <;> rfl
    · rfl
  | count loads_eq stores_eq => exact threaded.of_views rfl (fun _ => rfl) fun _ => rfl
  | isolate id reg slot start accesses inside stays =>
    obtain ⟨first, mem⟩ := exists_mem_of_ne_nil _ accesses
    obtain ⟨⟨sub, found⟩, -⟩ := threaded.bounds_of_mem (inside mem)
    refine threaded.addSubrange _ _ _ _ ?_ fun loc mem =>
      (threaded.bounds_of_mem (inside mem)).2
    rcases stays with ⟨rfl, stays⟩ | ⟨last, mem, rfl⟩
    · rw [subrange_eq_of_some found] at stays ⊢
      exact lt_of_le_of_ne (threaded.stop_le found) stays
    · exact (threaded.bounds_of_mem (inside mem)).2
  | shorten found stays lower inside => exact threaded.shorten found stays lower inside
  | drop id => exact threaded.dropRange id

/-- A range is split or replaced in any way, or changed by an assignment. -/
inductive Reshape : Allocation → Allocation → Prop
  | split {before after : Allocation} {id : SubrangeId} {place : Position} {trim : Bool}
      {tail : Option SubrangeId} (done : before.split id place trim = .ok (after, tail)) :
      Reshape before after
  | explode {alloc : Allocation} (id : RangeId) : Reshape alloc (alloc.explode id)
  | change {before after : Allocation} (change : Change before after) : Reshape before after

theorem Reshape.edits (reshape : Reshape before after) : Edits before after := by
  cases reshape with
  | split done => exact edits_split done
  | explode id => exact edits_explode id
  | change change => exact change.edits

theorem Threaded.reshape (threaded : before.Threaded)
    (reshaped : Relation.ReflTransGen Reshape before after) : after.Threaded := by
  induction reshaped with
  | refl => exact threaded
  | tail _ reshape ih =>
    exact reshape.edits.induction ih Edit.threaded

/-! ## Paths of a value -/

/-- One subrange continues in another one behind a link of its segment. -/
def Passes (alloc : Allocation) (first second : SubrangeId) : Prop :=
  ∃ sub side, alloc.subrange? first = some sub ∧ sub.link side = some second

/-- A subrange of a range keeps its value from getting lost: it ends inside its segment with a
store, or it leaves its segment and the range goes on behind every link, of which there is one. -/
def KeepsValue (alloc : Allocation) (range : RangeId) (id : SubrangeId) : Prop :=
  ∃ part, alloc.subrange? id = some part ∧ part.range = range ∧
    (part.stop ≠ .atExit ∧ part.hasStore ∨
      part.stop = .atExit ∧ (alloc.segmentOf part).successors ≠ [] ∧
        ∀ side next, (alloc.segmentOf part).link side = some next →
          ∃ follower target, part.link side = some follower ∧
            alloc.subrange? follower = some target ∧ target.segment = next ∧
            target.range = range ∧ target.start = .atEntry)

section

variable (threaded : before.Threaded) (resyncs : before.Resyncs after) {id : SubrangeId}

include threaded resyncs

theorem Threaded.continues_after {next} (found : after.subrange? id = some sub)
    (link : sub.link side = some next) :
    sub.stop = .atExit ∧ ∃ target, after.subrange? next = some target ∧ target.range = sub.range ∧
        target.start = .atEntry ∧ (after.segmentOf sub).link side = some target.segment := by
  obtain ⟨old, oldFound, same⟩ := resyncs.origin found
  have link_eq : old.link side = some next := by
    rw [← link_bare, same, link_bare, link]
  obtain ⟨exit, target, targetFound, range_eq, entry, seg⟩ := threaded.continues oldFound link_eq
  obtain ⟨now, nowFound, nowSame⟩ := resyncs.image targetFound
  have sameRange := congrArg Subrange.range same
  have sameSeg := congrArg segment same
  have nowRange := congrArg Subrange.range nowSame
  have nowSegment := congrArg segment nowSame
  dsimp only [bare] at sameRange sameSeg nowRange nowSegment
  refine ⟨(congrArg stop same).symm.trans exit, now, nowFound, ?_,
    (congrArg start nowSame).trans entry, ?_⟩
  · rw [nowRange, range_eq, sameRange]
  · rw [segmentOf, resyncs.graph_eq, ← sameSeg, nowSegment]
    exact seg

theorem Threaded.leaves_after (found : after.subrange? id = some sub)
    (exit : sub.stop = .atExit) : (after.segmentOf sub).successors ≠ [] := by
  obtain ⟨old, oldFound, same⟩ := resyncs.origin found
  have sameSeg := congrArg segment same
  dsimp only [bare] at sameSeg
  rw [segmentOf, resyncs.graph_eq, ← sameSeg]
  exact threaded.leaves oldFound ((congrArg stop same).trans exit)

theorem Delivered.keepsValue (delivered : after.Delivered id)
    (found : after.subrange? id = some sub) : after.KeepsValue sub.range id := by
  rcases delivered.cases found with ends | handsOn
  · exact ⟨sub, found, rfl, .inl ends⟩
  · refine ⟨sub, found, rfl, .inr ⟨handsOn.1, ?_, fun side next link => ?_⟩⟩
    · exact threaded.leaves_after resyncs found handsOn.1
    · obtain ⟨follower, continuation, -⟩ := handsOn.2 side next link
      obtain ⟨-, target, targetFound, range_eq, entry, seg⟩ :=
        threaded.continues_after resyncs found continuation
      cases link.symm.trans seg
      exact ⟨follower, target, continuation, targetFound, rfl, range_eq, entry⟩

theorem Delivered.passes (delivered : after.Delivered first)
    (found : after.subrange? first = some sub) (passes : after.Passes first second) :
    after.Delivered second ∧
      ∃ target, after.subrange? second = some target ∧ target.range = sub.range := by
  obtain ⟨same, side, sameFound, link⟩ := passes
  cases found.symm.trans sameFound
  obtain ⟨exit, target, targetFound, range_eq, -, seg⟩ :=
    threaded.continues_after resyncs found link
  refine ⟨?_, target, targetFound, range_eq⟩
  rcases delivered.cases found with ⟨stays, -⟩ | handsOn
  · exact absurd exit stays
  · obtain ⟨follower, continuation, covered⟩ := handsOn.2 side target.segment seg
    cases link.symm.trans continuation
    exact covered

theorem Delivered.keepsValue_of_reaches (delivered : after.Delivered id)
    (found : after.subrange? id = some sub) (path : Relation.ReflTransGen after.Passes id last) :
    after.KeepsValue sub.range last := by
  have reached : after.Delivered last ∧
      ∃ part, after.subrange? last = some part ∧ part.range = sub.range := by
    induction path with
    | refl => exact ⟨delivered, sub, found, rfl⟩
    | tail _ passes ih =>
      obtain ⟨delivered, part, partFound, same⟩ := ih
      obtain ⟨delivered, target, targetFound, range_eq⟩ :=
        delivered.passes threaded resyncs partFound passes
      exact ⟨delivered, target, targetFound, range_eq.trans same⟩
  obtain ⟨delivered, part, partFound, same⟩ := reached
  exact same ▸ delivered.keepsValue threaded resyncs partFound

end

/-- However ranges are split and replaced, a subrange that writes its register stores it in the
end, or leaves its segment and the store to others.  Then every path along the range meets only
subranges of the range that continue behind every link of their segments, until it ends inside a
segment with a store. -/
theorem written_values_reach_storage
    {graph : Graph}
    (numbered : graph.Numbered)
    (backlinked : graph.Backlinked)
    (short : graph.IsShort)
    {liveness : Liveness}
    (derived : liveness.Derived graph)
    {registers : Int}
    (reshaped : Relation.ReflTransGen Reshape
      (liveness.buildRanges (.empty graph registers)) allocation)
    {id : SubrangeId}
    {subrange : Subrange}
    (found : allocation.analyzeSync.subrange? id = some subrange)
    (written : subrange.locations.any (·.write) = true) :
    subrange.hasStore = true ∨
      subrange.stop = .atExit ∧ subrange.hasDelayedStore = true ∧
        ∀ last, Relation.ReflTransGen allocation.analyzeSync.Passes id last →
          allocation.analyzeSync.KeepsValue subrange.range last := by
  have framed := derived.framed numbered short
  have threaded := (threaded_buildRanges ⟨numbered, backlinked⟩ short framed registers).reshape
    reshaped
  obtain ⟨resyncs, synced⟩ :=
    synced_analyzeSync threaded.toOwned threaded.continued threaded.undelayed
  refine (synced.written found written).imp_right fun delayed => ?_
  obtain ⟨exit, delivered⟩ := synced.delayed found delayed
  exact ⟨exit, delayed, fun last path =>
    delivered.keepsValue_of_reaches threaded resyncs found path⟩

theorem summingLoop_delivers :
    summingLoop.Numbered ∧ summingLoop.Backlinked ∧ summingLoop.IsShort ∧
      ∃ subrange, ((ofGraph summingLoop 3).explode 1).analyzeSync.subrange? 0 = some subrange ∧
        subrange.locations.any (·.write) = true ∧ subrange.hasStore = false ∧
        ∀ last, Relation.ReflTransGen
          ((ofGraph summingLoop 3).explode 1).analyzeSync.Passes 0 last →
          ((ofGraph summingLoop 3).explode 1).analyzeSync.KeepsValue subrange.range last := by
  have numbered : summingLoop.Numbered := by decide
  have backlinked : summingLoop.Backlinked := by decide
  have short : summingLoop.IsShort := by decide
  have evaluated : (((ofGraph summingLoop 3).explode 1).analyzeSync.subrange? 0).any
      (fun subrange => subrange.locations.any (·.write) && !subrange.hasStore) = true := by
    decide +kernel
  obtain ⟨subrange, found, writes⟩ := (Option.any_eq_true _ _).mp evaluated
  rw [Bool.and_eq_true, Bool.not_eq_true'] at writes
  refine ⟨numbered, backlinked, short, subrange, found, writes.1, writes.2, ?_⟩
  have reached := written_values_reach_storage numbered backlinked short
    (.leave (.merge .accesses)) (.single (.explode 1)) found writes.1
  rw [writes.2] at reached
  exact (reached.resolve_left Bool.false_ne_true).2.2

/-! ## A write that looks as if it left its segment -/

/-- A segment that nothing leads to or follows. -/
def loneSegment (code : Code) : Segment :=
  { id := 0, instructions := code, enterable := true, enterAddress := 0x02000000 }

/-- A function of one segment that uses one register. -/
def loneFunction (code : Code) : Graph :=
  { entry := 0x02000000
    size := 0x20000
    slots := [.gpr 3]
    order := [0]
    segments := #[loneSegment code] }

theorem ofGraph_loneFunction (accessed : (loneSegment code).locations 0 = [⟨0x7FFE, false, true⟩])
    (registers : Int) :
    ofGraph (loneFunction code) registers = {
        graph := loneFunction code
        registers
        ranges := #[some { id := 0, register := 0, slot := .gpr 3, subranges := [0] }]
        subranges := #[some {
          id := 0
          range := 0
          segment := 0
          start := 0x7FFE
          stop := .atExit
          locations := [⟨0x7FFE, false, true⟩] }]
        bySegment := #[#[0]]
        stats := { ranges := 1 } } := by
  have windows : Liveness.ofGraph (loneFunction code) =
      ⟨loneFunction code, #[#[.ofLocations ((loneSegment code).locations 0)]]⟩ := by
    have registers : Array.range 1 = #[0] := by decide
    simp [Liveness.ofGraph, loneFunction, registers]
  have extended : (Liveness.ofGraph (loneFunction code)).mergeClose.extendOutOfLoops =
      ⟨loneFunction code, #[#[⟨0x7FFE, .atExit⟩]]⟩ := by
    rw [windows, accessed]
    rfl
  rw [ofGraph, extended, ← accessed]
  rfl

/-- Instructions without registers up to the last place before the exit boundary, where a register
is assigned, and a return. -/
def lateWrite : Code :=
  List.replicate 0x7FFE (.conditionLogic .conditionXor 6 6 6) ++
    [.immediate .assign (some 0) 5 {}, .ofRoutine .toLink 0x0201FFFC 0]

theorem locations_lateWrite : (loneSegment lateWrite).locations 0 = [⟨0x7FFE, false, true⟩] := by
  have body : (loneSegment lateWrite).body =
      List.replicate 0x7FFE (.conditionLogic .conditionXor 6 6 6) ++
        [.immediate .assign (some 0) 5 {}] := by
    rw [Segment.body, loneSegment, lateWrite, takeWhile_append_of_pos]
    · rfl
    · intro instruction mem
      rw [eq_of_mem_replicate mem]
      rfl
  rw [Segment.locations, body, zipIdx_append, filterMap_append,
    filterMap_eq_nil_iff.mpr, length_replicate]
  · rfl
  · rintro ⟨instruction, index⟩ mem
    have plain := eq_of_mem_replicate (fst_mem_of_mem_zipIdx mem)
    dsimp only at plain
    rw [plain]
    rfl

/-- In a segment that is not short a written value can get lost: its store is left to others
although nothing follows. -/
theorem lateWrite_gets_lost :
    (loneFunction lateWrite).Numbered ∧ (loneFunction lateWrite).Backlinked ∧
      ∃ subrange, (ofGraph (loneFunction lateWrite) 4).analyzeSync.subrange? 0 = some subrange ∧
        subrange.locations.any (·.write) = true ∧ subrange.hasStore = false ∧
        ¬(ofGraph (loneFunction lateWrite) 4).analyzeSync.KeepsValue subrange.range 0 := by
  have formed := ofGraph_loneFunction locations_lateWrite 4
  have analyzed : (ofGraph (loneFunction lateWrite) 4).analyzeSync.subrange? 0 = some {
      id := 0
      range := 0
      segment := 0
      start := 0x7FFE
      stop := .atExit
      locations := [⟨0x7FFE, false, true⟩]
      noLoad := true
      hasDelayedStore := true } := by
    rw [formed]
    rfl
  refine ⟨by decide, by decide, _, analyzed, rfl, rfl, ?_⟩
  rintro ⟨part, found, -, ⟨stays, -⟩ | ⟨-, follows, -⟩⟩
  all_goals
    rw [analyzed, Option.some.injEq] at found
    subst found
  · exact stays rfl
  · refine follows ?_
    rw [segmentOf, formed]
    rfl

end Allocation
end Dynarec
