import Dynarec.Proofs.Allocation.Step
import Mathlib.Data.List.Sort

/-!
# Scans over a segment

A scan visits the subranges of a segment in the order of their starts and keeps
those that are still live.  Live subranges overlap the one that is visited, so
they never hold its register; a scan ends when every subrange has a register or
at a conflict.
-/

namespace Dynarec.Allocation

open List

variable {alloc : Allocation}

theorem sortedIds_eq_insertionSort (alloc : Allocation) (seg : SegmentId) :
    alloc.sortedIds seg = (alloc.idsIn seg).toList.insertionSort fun id other =>
        (alloc.subrange id).start ≤ (alloc.subrange other).start := by
  have insert : ∀ id ids, alloc.insertByStart id ids = ids.orderedInsert (fun id other =>
        (alloc.subrange id).start ≤ (alloc.subrange other).start) id := by
    intro id ids
    induction ids with
    | nil => rfl
    | cons other rest ih =>
      rw [insertByStart, orderedInsert_cons, ih]
  rw [sortedIds, ← Array.foldr_toList]
  induction (alloc.idsIn seg).toList with
  | nil => rfl
  | cons id rest ih =>
    rw [foldr_cons, ih, insert, insertionSort_cons]

theorem perm_sortedIds (alloc : Allocation) (seg : SegmentId) :
    (alloc.sortedIds seg).Perm (alloc.idsIn seg).toList := by
  rw [sortedIds_eq_insertionSort]
  exact perm_insertionSort _ _

theorem pairwise_sortedIds (alloc : Allocation) (seg : SegmentId) :
    (alloc.sortedIds seg).Pairwise fun id other =>
      (alloc.subrange id).start ≤ (alloc.subrange other).start := by
  rw [sortedIds_eq_insertionSort]
  exact pairwise_insertionSort _ _

/-- A subrange that starts no later than another one and is still live there overlaps it. -/
theorem Coherent.overlaps_of_live (coherent : alloc.Coherent) {id other}
    (found : alloc.subrange? id = some sub) (otherFound : alloc.subrange? other = some otherSub)
    (earlier : otherSub.start ≤ sub.start)
    (live : sub.start < otherSub.stop ∨ otherSub.stop = .atExit) : sub.overlaps otherSub := by
  rw [Subrange.overlaps_iff]
  have bound := coherent.stop_le_exit found
  have otherBound := coherent.stop_le_exit otherFound
  by_cases nonempty : sub.start < sub.stop
  · refine .inl ⟨?_, Int.lt_of_le_of_lt earlier nonempty⟩
    rcases live with inside | exit
    · exact inside
    · rw [exit]
      exact Int.lt_of_lt_of_le nonempty bound
  · right
    rcases (coherent.fits found).start_fits with entry | ⟨start, exit, _⟩ | ⟨first, head, equal⟩
    · refine .inl ⟨entry, ?_⟩
      exact Int.le_antisymm (entry ▸ earlier) (coherent.start_bounds otherFound).1
    · refine .inr ⟨exit, ?_⟩
      rcases live with inside | otherExit
      · rw [start] at inside
        exact absurd inside (Int.not_lt.mpr otherBound)
      · exact otherExit
    · have covered := (coherent.ordered found).covered (mem_of_mem_head? head)
      rw [equal] at covered
      exact absurd covered.2 nonempty

theorem unexpired_eq_filter (place : Position) (holders : List Holder) :
    unexpired place holders = holders.filter fun holder =>
      place < holder.subrange.stop || holder.subrange.stop = .atExit := by
  induction holders with
  | nil => rfl
  | cons holder rest ih =>
    rw [unexpired, filter_cons, ih]

theorem mem_unexpired_iff :
    holder ∈ unexpired place holders ↔
      holder ∈ holders ∧ (place < holder.subrange.stop ∨ holder.subrange.stop = .atExit) := by
  rw [unexpired_eq_filter, mem_filter, Bool.or_eq_true, decide_eq_true_eq, decide_eq_true_eq]

/-- Registers were assigned to some ranges, and nothing else happened but reordering. -/
structure Progress (before after : Allocation) : Prop where
  steps : Steps before after
  reassigns : before.Reassigns after
  keeps : ∀ {id range}, before.range? id = some range → range.isAssigned →
    after.range? id = some range
  restarts_eq : after.stats.restarts = before.stats.restarts

theorem Progress.refl (lists : alloc.Lists) : Progress alloc alloc :=
  ⟨.refl, ⟨⟨rfl, rfl, rfl, lists⟩, fun _ => rfl, rfl, fun _ => rfl⟩, fun live _ => live, rfl⟩

theorem Progress.trans {before middle after} (first : Progress before middle)
    (second : Progress middle after) : Progress before after where
  steps := Relation.ReflTransGen.trans first.steps second.steps
  reassigns :=
    { graph_eq := second.reassigns.graph_eq.trans first.reassigns.graph_eq
      registers_eq := second.reassigns.registers_eq.trans first.reassigns.registers_eq
      size_eq := second.reassigns.size_eq.trans first.reassigns.size_eq
      subrange?_eq := fun id =>
        (second.reassigns.subrange?_eq id).trans (first.reassigns.subrange?_eq id)
      nextSubrange_eq := second.reassigns.nextSubrange_eq.trans first.reassigns.nextSubrange_eq
      lists := second.reassigns.lists
      range?_eq := fun id => (second.reassigns.range?_eq id).trans (first.reassigns.range?_eq id) }
  keeps := fun live assigned => second.keeps (first.keeps live assigned) assigned
  restarts_eq := second.restarts_eq.trans first.restarts_eq

/-- The range with a number has a register. -/
def Assigned (alloc : Allocation) (id : RangeId) : Prop :=
  ∃ range, alloc.range? id = some range ∧ range.isAssigned

theorem Progress.assigned {before after} (progress : Progress before after)
    {id} (assigned : before.Assigned id) : after.Assigned id := by
  obtain ⟨range, live, has⟩ := assigned
  exact ⟨range, progress.keeps live has, has⟩

theorem progress_assign (lists : alloc.Lists) {id range}
    (live : alloc.range? id = some range) (unassigned : range.isAssigned = false)
    (free : host ∈ alloc.allowed range) :
    Progress alloc (alloc.modifyRange id ({ · with host })) where
  steps := .single (.assign live free)
  reassigns := reassigns_assign lists id host
  keeps := by
    intro other otherRange otherLive assigned
    rw [range?_modifyRange, if_neg, otherLive]
    rintro rfl
    cases live.symm.trans otherLive
    exact absurd assigned (Bool.eq_false_iff.mp unassigned)
  restarts_eq := rfl

theorem nonneg_of_mem_hostRegisters (listed : host ∈ alloc.hostRegisters) : 0 ≤ host := by
  obtain ⟨number, -, rfl⟩ := mem_map.mp listed
  exact Int.natCast_nonneg number

section

variable {id : RangeId} {range : LiveRange}

theorem range?_assign (live : alloc.range? id = some range) :
    (alloc.modifyRange id ({ · with host })).range? id = some { range with host } := by
  rw [range?_modifyRange, if_pos rfl, live, Option.map_some]

theorem isAssigned_of_mem_allowed (allowed : host ∈ alloc.allowed range) :
    ({ range with host } : LiveRange).isAssigned :=
  decide_eq_true (nonneg_of_mem_hostRegisters (mem_of_mem_filter allowed))

end

theorem completed_assignFrom (coherent : alloc.Coherent) {after}
    (present : ∀ id ∈ ids, ∃ sub, alloc.subrange? id = some sub)
    (done : assignFrom seg ids live alloc = .ok (.complete after)) :
    Progress alloc after ∧ ∀ id ∈ ids, after.Assigned (after.subrange id).range := by
  induction ids generalizing live alloc with
  | nil =>
    cases done
    exact ⟨.refl coherent.lists, forall_mem_nil _⟩
  | cons id rest ih =>
    obtain ⟨⟨sub, found⟩, present⟩ := forall_mem_cons.mp present
    obtain ⟨range, rangeLive⟩ := coherent.range_live found
    -- what happens to the first subrange is progress, after which its range has a register
    have further {middle live} (progress : Progress alloc middle)
        (assigned : middle.Assigned sub.range)
        (rest_eq : assignFrom seg rest live middle = .ok (.complete after)) :
        Progress alloc after ∧
          ∀ other ∈ id :: rest, after.Assigned (after.subrange other).range := by
      obtain ⟨progress', all⟩ := ih (progress.reassigns.adjusts.coherent coherent)
        (by simpa only [progress.reassigns.subrange?_eq] using present) rest_eq
      refine ⟨progress.trans progress', forall_mem_cons.mpr ⟨?_, all⟩⟩
      rw [Allocation.subrange, (progress.trans progress').reassigns.subrange?_eq, found]
      exact progress'.assigned assigned
    unfold assignFrom at done
    simp only [subrange_eq_of_some found, range_eq_of_some rangeLive] at done
    cases assigned : range.isAssigned with
    | true =>
      rw [assigned, if_pos rfl] at done
      split at done
      · cases done
      · exact further (.refl coherent.lists) ⟨range, rangeLive, assigned⟩ done
    | false =>
      rw [assigned, if_neg Bool.false_ne_true] at done
      split at done
      next host free =>
        have allowed := mem_allowed_of_free? free
        rw [coherent.range_id rangeLive] at done
        exact further (progress_assign coherent.lists rangeLive assigned allowed)
          ⟨_, range?_assign rangeLive, isAssigned_of_mem_allowed allowed⟩ done
      · obtain ⟨_, -, done⟩ := of_bind_eq_ok done
        cases done

/-- A holder of a scan is a subrange of the segment together with the register of its range. -/
structure Holds (alloc : Allocation) (seg : SegmentId) (holder : Holder) : Prop where
  found : alloc.subrange? holder.subrange.id = some holder.subrange
  here : holder.subrange.segment = seg
  assigned : ∃ range, alloc.range? holder.subrange.range = some range ∧
    range.host = holder.host ∧ range.isAssigned

/-- What holds while a scan over a segment still has some subranges to visit. -/
structure Scanning (seg : SegmentId) (rest : List SubrangeId) (live : List Holder)
    (alloc : Allocation) : Prop where
  sound : alloc.Sound
  nodup_rest : rest.Nodup
  sorted : rest.Pairwise fun id other =>
    (alloc.subrange id).start ≤ (alloc.subrange other).start
  visits : ∀ id ∈ rest, id ∈ alloc.idsIn seg
  nodup_live : (live.map (·.subrange.id)).Nodup
  holds : ∀ holder ∈ live, alloc.Holds seg holder
  visited : ∀ holder ∈ live, holder.subrange.id ∉ rest
  earlier : ∀ holder ∈ live, ∀ id ∈ rest, holder.subrange.start ≤ (alloc.subrange id).start
  /-- A subrange that was visited is live or was expired before the others start. -/
  complete : ∀ {id sub}, alloc.subrange? id = some sub → sub.segment = seg → id ∉ rest →
    (∃ holder ∈ live, holder.subrange = sub) ∨
      (sub.stop ≠ .atExit ∧ ∀ other ∈ rest, sub.stop ≤ (alloc.subrange other).start)

namespace Scanning

variable {id : SubrangeId}

theorem start (sound : alloc.Sound) (mem : seg ∈ alloc.graph.order) :
    Scanning seg (alloc.sortedIds seg) [] (alloc.reorder seg (alloc.sortedIds seg)) := by
  have permuted := alloc.perm_sortedIds seg
  have step := Step.reorder mem permuted
  have inside := sound.coherent.listed _ mem
  have listed : ∀ id, id ∈ alloc.sortedIds seg ↔ id ∈ alloc.idsIn seg := by
    intro id
    rw [permuted.mem_iff, Array.mem_toList_iff]
  constructor
  · exact step.sound sound
  · exact permuted.nodup_iff.mpr (sound.coherent.lists.nodup_idsIn seg)
  · exact alloc.pairwise_sortedIds seg
  · intro id visit
    rw [idsIn_reorder _ _ _ inside, if_pos rfl]
    exact mem_toArray.mpr visit
  · exact nodup_nil
  · exact forall_mem_nil _
  · exact forall_mem_nil _
  · exact forall_mem_nil _
  · intro id sub found here unlisted
    exact absurd ((listed id).mpr (sound.coherent.lists.mem_idsIn.mpr ⟨sub, found, here⟩)) unlisted

theorem found (scanning : Scanning seg (id :: rest) live alloc) :
    alloc.subrange? id = some (alloc.subrange id) ∧ (alloc.subrange id).segment = seg := by
  have listed := scanning.visits id mem_cons_self
  obtain ⟨sub, found, here⟩ := scanning.sound.coherent.lists.mem_idsIn.mp listed
  rw [subrange_eq_of_some found]
  exact ⟨found, here⟩

theorem expire (scanning : Scanning seg (id :: rest) live alloc) :
    Scanning seg (id :: rest) (unexpired (alloc.subrange id).start live) alloc := by
  have subset : ∀ {holder}, holder ∈ unexpired (alloc.subrange id).start live →
      holder ∈ live := fun mem => (mem_unexpired_iff.mp mem).1
  refine { scanning with
    nodup_live := ?_
    holds := fun holder mem => scanning.holds holder (subset mem)
    visited := fun holder mem => scanning.visited holder (subset mem)
    earlier := fun holder mem => scanning.earlier holder (subset mem)
    complete := ?_ }
  · rw [unexpired_eq_filter]
    exact scanning.nodup_live.sublist (filter_sublist.map _)
  · intro other sub found here unlisted
    rcases scanning.complete found here unlisted with ⟨holder, mem, rfl⟩ | expired
    · by_cases lasting : (alloc.subrange id).start < holder.subrange.stop ∨
          holder.subrange.stop = .atExit
      · exact .inl ⟨holder, mem_unexpired_iff.mpr ⟨mem, lasting⟩, rfl⟩
      · obtain ⟨ended, stays⟩ := not_or.mp lasting
        refine .inr ⟨stays, ?_⟩
        intro another visit
        have stop := Int.not_lt.mp ended
        rcases mem_cons.mp visit with rfl | visit
        · exact stop
        · exact Int.le_trans stop ((pairwise_cons.mp scanning.sorted).1 another visit)
    · exact .inr expired

section

variable (scanning : Scanning seg (id :: rest) live alloc) {range : LiveRange}
  (rangeLive : alloc.range? (alloc.subrange id).range = some range)

include scanning rangeLive

theorem advance (assigned : range.isAssigned) :
    Scanning seg rest (⟨alloc.subrange id, range.host⟩ :: live) alloc := by
  obtain ⟨found, here⟩ := scanning.found
  have number := scanning.sound.coherent.subrange_id found
  obtain ⟨fresh, nodup⟩ := nodup_cons.mp scanning.nodup_rest
  obtain ⟨first, sorted⟩ := pairwise_cons.mp scanning.sorted
  constructor
  · exact scanning.sound
  · exact nodup
  · exact sorted
  · exact fun other visit => scanning.visits other (mem_cons_of_mem id visit)
  · rw [map_cons, nodup_cons]
    refine ⟨?_, scanning.nodup_live⟩
    intro listed
    obtain ⟨holder, mem, equal⟩ := mem_map.mp listed
    rw [number] at equal
    exact scanning.visited holder mem (equal ▸ mem_cons_self)
  · refine forall_mem_cons.mpr ⟨⟨?_, here, range, rangeLive, rfl, assigned⟩, scanning.holds⟩
    rw [number]
    exact found
  · refine forall_mem_cons.mpr ⟨number.symm ▸ fresh, ?_⟩
    intro holder mem visit
    exact scanning.visited holder mem (mem_cons_of_mem id visit)
  · refine forall_mem_cons.mpr ⟨first, ?_⟩
    intro holder mem other visit
    exact scanning.earlier holder mem other (mem_cons_of_mem id visit)
  · intro other sub otherFound otherHere unlisted
    by_cases same : other = id
    · subst same
      exact .inl ⟨_, mem_cons_self, Option.some.inj (found.symm.trans otherFound)⟩
    · have unlisted' : other ∉ id :: rest := by simp [same, unlisted]
      rcases scanning.complete otherFound otherHere unlisted' with ⟨holder, mem, equal⟩ | expired
      · exact .inl ⟨holder, mem_cons_of_mem _ mem, equal⟩
      · exact .inr ⟨expired.1, fun another visit =>
          expired.2 another (mem_cons_of_mem id visit)⟩

theorem assign (unassigned : range.isAssigned = false) (free : host ∈ alloc.allowed range) :
    Scanning seg (id :: rest) live
      (alloc.modifyRange (alloc.subrange id).range ({ · with host })) := by
  have step := Step.assign rangeLive free
  refine { scanning with
    sound := step.sound scanning.sound
    holds := ?_ }
  intro holder mem
  obtain ⟨found, here, other, otherLive, equal, assigned⟩ := scanning.holds holder mem
  have progress := progress_assign scanning.sound.coherent.lists rangeLive unassigned free
  exact ⟨found, here, other, progress.keeps otherLive assigned, equal, assigned⟩

theorem host_ne (assigned : range.isAssigned)
    (mem : holder ∈ unexpired (alloc.subrange id).start live) : holder.host ≠ range.host := by
  obtain ⟨mem, lasting⟩ := mem_unexpired_iff.mp mem
  obtain ⟨found, here⟩ := scanning.found
  obtain ⟨holderFound, holderHere, other, otherLive, equal, otherAssigned⟩ :=
    scanning.holds holder mem
  have coherent := scanning.sound.coherent
  have earlier := scanning.earlier holder mem id mem_cons_self
  have overlap := coherent.overlaps_of_live found holderFound earlier lasting
  have ne : (alloc.subrange id).range ≠ holder.subrange.range := by
    intro same
    have equal := coherent.alone found holderFound same (here.trans holderHere.symm)
    exact scanning.visited holder mem (equal ▸ mem_cons_self)
  have distinct := scanning.sound.exclusive.disjoint found rangeLive holderFound otherLive ne
    (here.trans holderHere.symm) overlap assigned otherAssigned
  rw [← equal]
  exact distinct.symm

end

end Scanning

/-- The registers that no live subrange holds. -/
def unusedBeside (alloc : Allocation) (live : List Holder) : List HostRegister :=
  alloc.hostRegisters.filter (· ∉ live.map (·.host))

/-- A scan met a subrange for which no register is left. -/
structure Stuck (seg : SegmentId) (id : SubrangeId) (sub : Subrange)
    (rest : List SubrangeId) (live : List Holder) (alloc : Allocation) : Prop where
  scanning : Scanning seg (id :: rest) live alloc
  found : alloc.subrange? id = some sub
  unexpired : ∀ holder ∈ live, sub.start < holder.subrange.stop ∨ holder.subrange.stop = .atExit
  unassigned : (alloc.range sub.range).isAssigned = false
  stuck : alloc.free? (alloc.range sub.range) (alloc.unusedBeside live) = none

/-- The resolution of a conflict by a scan that is stuck. -/
def resolveStuck (alloc : Allocation) (seg : SegmentId) (sub : Subrange)
    (live : List Holder) : Except Error Allocation :=
  alloc.resolveConflict seg sub (live.reverse.map (·.subrange))
    (alloc.unusedBeside live)

/-- How a scan or a pass ends: it completes, or a scan got stuck and the conflict was resolved. -/
inductive Outcome (before : Allocation) : Except Error Pass → Prop
  | complete {after : Allocation} : Outcome before (.ok (.complete after))
  | stuck {after : Allocation} {seg : SegmentId} {id : SubrangeId} {sub : Subrange}
      {rest : List SubrangeId} {live : List Holder} (progress : Progress before after)
      (stuck : Stuck seg id sub rest live after) :
      Outcome before ((after.resolveStuck seg sub live).map .changed)

theorem Outcome.of_progress (progress : Progress before middle) (outcome : Outcome middle result) :
    Outcome before result := by
  cases outcome with
  | complete => exact .complete
  | stuck progress' stuck => exact .stuck (progress.trans progress') stuck

theorem outcome_assignFrom (scanning : Scanning seg ids live alloc) :
    Outcome alloc (assignFrom seg ids live alloc) := by
  induction ids generalizing live alloc with
  | nil => exact .complete
  | cons id rest ih =>
    have lists := scanning.sound.coherent.lists
    obtain ⟨found, _⟩ := scanning.found
    obtain ⟨range, rangeLive⟩ := scanning.sound.coherent.range_live found
    have number := scanning.sound.coherent.range_id rangeLive
    rw [assignFrom]
    simp only [range_eq_of_some rangeLive]
    cases assigned : range.isAssigned with
    | true =>
      have distinct : (unexpired (alloc.subrange id).start live).find?
          (·.host = range.host) = none := by
        rw [find?_eq_none]
        intro holder mem
        simpa using scanning.host_ne rangeLive assigned mem
      rw [if_pos rfl, distinct]
      exact ih (scanning.expire.advance rangeLive assigned)
    | false =>
      rw [if_neg Bool.false_ne_true, ← unusedBeside]
      cases free : alloc.free? range
          (alloc.unusedBeside (unexpired (alloc.subrange id).start live)) with
      | some host =>
        have allowed := mem_allowed_of_free? free
        have scanning' := scanning.expire.assign rangeLive assigned allowed
        rw [number]
        exact .of_progress (progress_assign lists rangeLive assigned allowed)
          (ih (scanning'.advance (range?_assign rangeLive) (isAssigned_of_mem_allowed allowed)))
      | none =>
        have stuck : Stuck seg id (alloc.subrange id) rest
            (unexpired (alloc.subrange id).start live) alloc := by
          refine ⟨scanning.expire, found, ?_, ?_, ?_⟩
          · exact fun holder mem => (mem_unexpired_iff.mp mem).2
          · rw [range_eq_of_some rangeLive, assigned]
          · rw [range_eq_of_some rangeLive, free]
        exact .stuck (.refl lists) stuck

end Dynarec.Allocation
