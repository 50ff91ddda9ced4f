import Dynarec.Proofs.Allocation.Refine
import Mathlib.Data.List.TakeWhile

/-!
# Splitting keeps an allocation coherent

A split leaves the accesses before a place in the head of a subrange and moves
those behind it to a range of its own.  In a coherent allocation both parts of
a place strictly between the bounds fit their accesses, and the tail is never
empty.
-/

namespace Dynarec

open Allocation List Option Subrange

/-- At a place, accesses in order fall apart into those at smaller places and the others. -/
theorem span_index_lt {locs : List Location}
    (sorted : locs.Pairwise fun first second => first.index < second.index)
    (place : Position) :
    locs.takeWhile (·.index < place) = locs.filter (·.index < place) ∧
      locs.dropWhile (·.index < place) = locs.filter (place ≤ ·.index) := by
  induction sorted with
  | nil => exact ⟨rfl, rfl⟩
  | @cons head rest smaller _ ih =>
    by_cases before : head.index < place
    · simp [before, ih]
    · have behind : ∀ loc ∈ rest, place ≤ loc.index := by
        intro loc mem
        have := smaller loc mem
        lia
      have nothing : rest.filter (·.index < place) = [] := by simpa using behind
      have everything : rest.filter (place ≤ ·.index) = rest := by simpa using behind
      simp [before, nothing, everything, Int.not_lt.mp before]

namespace Subrange

/-- The part of a subrange before a place, up to its last access. -/
def headAt (sub : Subrange) (place : Position) : Subrange :=
  let before := sub.locations.takeWhile (·.index < place)
  { sub with
    stop := match before.getLast? with
      | some last => last.index + 1
      | none => sub.start + 1
    locations := before }

/-- The part of a subrange behind a place, from its first access on. -/
def tailAt (sub : Subrange) (place : Position) (id : SubrangeId) (range : RangeId) :
    Subrange :=
  let behind := sub.locations.dropWhile (·.index < place)
  { id, range
    segment := sub.segment
    start := match behind.head? with
      | some first => first.index
      | none => place
    stop := sub.stop
    locations := behind }

/-- A subrange can be split at a place strictly between its bounds. -/
structure Splits (sub : Subrange) (place : Position) : Prop where
  stays : sub.stop ≠ .atExit
  start_lt : sub.start < place
  lt_stop : place < sub.stop

theorem isSplittable_iff : isSplittable sub place ↔ sub.Splits place := by
  simp only [isSplittable, ne_eq, Bool.and_eq_true, decide_eq_true_eq]
  exact ⟨fun ⟨⟨stays, lower⟩, upper⟩ => ⟨stays, lower, upper⟩,
    fun ⟨stays, lower, upper⟩ => ⟨⟨stays, lower⟩, upper⟩⟩

namespace Splits

variable {sub : Subrange} (splits : sub.Splits place) (ordered : sub.Ordered)

include splits ordered

theorem tail_ne_nil : sub.locations.dropWhile (·.index < place) ≠ [] := by
  have between := splits.start_lt
  have before := splits.lt_stop
  rcases ordered.fits.stop_fits with exit | ⟨start, _, stop⟩ | ⟨last, final, equal⟩
  · exact absurd exit splits.stays
  · simp only [Position.atEntry] at start stop
    lia
  · intro nothing
    have small := dropWhile_eq_nil_iff.mp nothing last (mem_of_getLast? final)
    lia

theorem start_fits : sub.start = .atEntry ∨
    ∃ first, (sub.locations.takeWhile (·.index < place)).head? = some first ∧
      first.index = sub.start := by
  rcases ordered.fits.start_fits with entry | ⟨_, exit, _⟩ | ⟨first, head, equal⟩
  · exact .inl entry
  · exact absurd exit splits.stays
  · obtain ⟨rest, split⟩ := head?_eq_some_iff.mp head
    have before := splits.start_lt
    rw [← equal] at before
    exact .inr ⟨first, by simp [split, before], equal⟩

theorem entry_of_head_nil (nothing : sub.locations.takeWhile (·.index < place) = []) :
    sub.start = .atEntry := by
  rcases splits.start_fits ordered with entry | ⟨first, head, _⟩
  · exact entry
  · simp [nothing] at head

theorem fits_headAt :
    Fits (sub.headAt place).start (sub.headAt place).stop (sub.headAt place).locations := by
  refine ⟨(splits.start_fits ordered).imp_right .inr, .inr ?_⟩
  cases final : (sub.locations.takeWhile (·.index < place)).getLast? with
  | none =>
    have nothing := getLast?_eq_none_iff.mp final
    have entry := splits.entry_of_head_nil ordered nothing
    refine .inl ⟨entry, nothing, .inr ?_⟩
    simp only [headAt, final, entry]
    rfl
  | some last => exact .inr ⟨last, final, by simp only [headAt, final]⟩

theorem stop_headAt_le : (sub.headAt place).stop ≤ place := by
  have between := splits.start_lt
  cases final : (sub.locations.takeWhile (·.index < place)).getLast? with
  | none =>
    simp only [headAt, final]
    lia
  | some last =>
    have mem := mem_of_getLast? final
    rw [(span_index_lt ordered.sorted place).1, mem_filter, decide_eq_true_eq] at mem
    simp only [headAt, final]
    lia

theorem headAt_stays : (sub.headAt place).stop ≠ .atExit := by
  have stop := splits.stop_headAt_le ordered
  have upper := ordered.stop_lt_exit splits.stays
  have before := splits.lt_stop
  lia

theorem narrows_headAt : (sub.headAt place).Narrows sub := by
  have stop := splits.stop_headAt_le ordered
  have before := splits.lt_stop
  exact ⟨rfl, Int.le_refl _, by lia, fun entry => entry,
    fun exit => absurd exit (splits.headAt_stays ordered)⟩

theorem locations_headAt :
    (sub.headAt place).locations = sub.locations.filter (sub.headAt place).covers := by
  have stop := splits.stop_headAt_le ordered
  have before : (sub.headAt place).locations = _ := (span_index_lt ordered.sorted place).1
  -- the head is ordered, so that its accesses lie between its bounds
  have head : (sub.headAt place).Ordered :=
    ⟨splits.fits_headAt ordered, ordered.sorted.sublist (takeWhile_sublist _),
      fun loc mem => ordered.bounds loc ((takeWhile_sublist _).mem mem)⟩
  refine before.trans (filter_congr fun loc mem => ?_)
  rw [Bool.eq_iff_iff, covers_iff, decide_eq_true_eq]
  refine ⟨fun small => head.covered (before ▸ mem_filter.mpr ⟨mem, decide_eq_true small⟩), ?_⟩
  lia

variable (id : SubrangeId) (range : RangeId)

theorem exists_head_tailAt : ∃ first,
    (sub.locations.dropWhile (·.index < place)).head? = some first ∧
      (sub.tailAt place id range).start = first.index := by
  obtain ⟨first, head⟩ := isSome_iff_exists.mp (isSome_head?.mpr (splits.tail_ne_nil ordered))
  exact ⟨first, head, by simp only [tailAt, head]⟩

theorem fits_tailAt :
    Fits (sub.tailAt place id range).start (sub.tailAt place id range).stop
      (sub.tailAt place id range).locations := by
  have something := splits.tail_ne_nil ordered
  obtain ⟨first, head, start⟩ := splits.exists_head_tailAt ordered id range
  refine ⟨.inr (.inr ⟨first, head, start.symm⟩), .inr (.inr ?_)⟩
  rcases ordered.fits.stop_fits with exit | ⟨_, nothing, _⟩ | ⟨last, final, equal⟩
  · exact absurd exit splits.stays
  · simp [nothing] at something
  · refine ⟨last, ?_, equal⟩
    have whole := takeWhile_append_dropWhile (p := fun loc : Location =>
      decide (loc.index < place)) (l := sub.locations)
    rwa [← whole, getLast?_append_of_ne_nil _ something] at final

theorem le_start_tailAt : place ≤ (sub.tailAt place id range).start := by
  obtain ⟨first, head, start⟩ := splits.exists_head_tailAt ordered id range
  have mem := mem_of_mem_head? head
  rw [(span_index_lt ordered.sorted place).2, mem_filter, decide_eq_true_eq] at mem
  exact start ▸ mem.2

theorem tailAt_inside : (sub.tailAt place id range).start ≠ .atEntry := by
  have start := splits.le_start_tailAt ordered id range
  have lower := ordered.start_bounds.1
  have between := splits.start_lt
  lia

theorem narrows_tailAt : (sub.tailAt place id range).Narrows sub := by
  have start := splits.le_start_tailAt ordered id range
  have between := splits.start_lt
  exact ⟨rfl, by lia, Int.le_refl _,
    fun entry => absurd entry (splits.tailAt_inside ordered id range), fun exit => exit⟩

theorem locations_tailAt : (sub.tailAt place id range).locations =
    sub.locations.filter (sub.tailAt place id range).covers := by
  have start := splits.le_start_tailAt ordered id range
  have behind : (sub.tailAt place id range).locations = _ := (span_index_lt ordered.sorted place).2
  have tail : (sub.tailAt place id range).Ordered :=
    ⟨splits.fits_tailAt ordered id range, ordered.sorted.sublist (dropWhile_sublist _),
      fun loc mem => ordered.bounds loc ((dropWhile_sublist _).mem mem)⟩
  refine behind.trans (filter_congr fun loc mem => ?_)
  rw [Bool.eq_iff_iff, covers_iff, decide_eq_true_eq]
  refine ⟨fun large => tail.covered (behind ▸ mem_filter.mpr ⟨mem, decide_eq_true large⟩), ?_⟩
  lia

theorem headAt_apart_tailAt : (sub.headAt place).overlaps (sub.tailAt place id range) = false := by
  have start := splits.le_start_tailAt ordered id range
  have stop := splits.stop_headAt_le ordered
  rw [Bool.eq_false_iff, ne_eq, overlaps_iff]
  rintro (⟨_, second⟩ | ⟨_, entry⟩ | ⟨_, exit⟩)
  · lia
  · exact splits.tailAt_inside ordered id range entry
  · exact splits.stays exit

end Splits
end Subrange

namespace Allocation

structure SplitAt (before after : Allocation) (id : SubrangeId) (sub : Subrange)
    (place : Position) : Prop extends Relists before after where
  found : before.subrange? id = some sub
  splits : sub.Splits place
  subrange?_eq : ∀ other, after.subrange? other = if other = id then some (sub.headAt place)
    else if other = before.nextSubrange then
      some (sub.tailAt place before.nextSubrange before.nextRange)
    else before.subrange? other
  range?_eq : ∀ other, after.range? other = if other = before.nextRange then some {
        id := before.nextRange
        register := (before.range sub.range).register
        slot := (before.range sub.range).slot
        subranges := [before.nextSubrange] }
    else before.range? other
  nextSubrange_eq : after.nextSubrange = before.nextSubrange + 1

variable {alloc : Allocation}

theorem isSplittable_eq_false_of_none {id} (missing : alloc.subrange? id = none)
    (place : Position) : isSplittable (alloc.subrange id) place = false := by
  rw [Bool.eq_false_iff, ne_eq, isSplittable_iff, subrange, missing, getD_none]
  rintro ⟨_, lower, upper⟩
  exact absurd (Int.lt_trans lower upper) (Int.lt_irrefl 0)

theorem split_eq_ok (coherent : alloc.Coherent) {id}
    (found : alloc.subrange? id = some sub) (splits : sub.Splits place) :
    ∃ result, alloc.split id place true = .ok (result, some alloc.nextSubrange) ∧
      alloc.SplitAt result id sub place := by
  have something := splits.tail_ne_nil (coherent.ordered found)
  have splittable := isSplittable_iff.mpr splits
  have inside := coherent.listed _ (coherent.segment_mem found)
  have old := lt_nextSubrange_of_subrange? found
  rw [split, subrange_eq_of_some found]
  simp only [splittable, addTail, something, if_false, Bool.not_true, if_true, Bool.false_eq_true]
  refine ⟨_, rfl, ⟨rfl, rfl, ?_, ?_⟩, found, splits, ?_, ?_, ?_⟩
  · simp [tally, modifySubrange, addSubrange, modifyRange, addRange]
  · apply Lists.tally
    apply Lists.modifySubrange
    · exact (coherent.lists.addRange _ _).addSubrange _ _ _ _ _ inside
    · exact fun _ => rfl
  · intro other
    simp only [subrange?_tally, subrange?_modifySubrange, subrange?_addSubrange,
      subrange?_addRange, nextSubrange_addRange]
    by_cases same : other = id
    · subst other
      simp only [if_true, Nat.ne_of_lt old, if_false, found, map_some]
      rfl
    · simp only [same, Ne.symm same, if_false]
      rfl
  · intro other
    simp only [range?_tally, range?_modifySubrange, range?_addSubrange, range?_addRange]
    by_cases fresh : other = alloc.nextRange
    · simp [fresh]
    · simp only [fresh, Ne.symm fresh, if_false]
  · simp [tally, modifySubrange, addSubrange, modifyRange, addRange, nextSubrange]

theorem splitAt_of_split (coherent : alloc.Coherent) {id tail}
    (done : alloc.split id place true = .ok (result, tail)) :
    ∃ sub, alloc.SplitAt result id sub place := by
  cases found : alloc.subrange? id with
  | none =>
    rw [split, isSplittable_eq_false_of_none found] at done
    simp at done
  | some sub =>
    by_cases splits : sub.Splits place
    · obtain ⟨other, equal, view⟩ := split_eq_ok coherent found splits
      rw [equal] at done
      cases done
      exact ⟨sub, view⟩
    · rw [split, subrange_eq_of_some found] at done
      simp [mt isSplittable_iff.mp splits] at done

namespace SplitAt

variable {after : Allocation} {id : SubrangeId} (view : SplitAt before after id sub place)

include view

theorem subrange?_cases (live : after.subrange? other = some part) :
    (other = id ∧ part = sub.headAt place) ∨ (other = before.nextSubrange ∧
        part = sub.tailAt place before.nextSubrange before.nextRange) ∨
      (other ≠ id ∧ other ≠ before.nextSubrange ∧ before.subrange? other = some part) := by
  rw [view.subrange?_eq] at live
  split at live
  next head => exact .inl ⟨head, (some.inj live).symm⟩
  next head =>
    split at live
    next tail => exact .inr (.inl ⟨tail, (some.inj live).symm⟩)
    next tail => exact .inr (.inr ⟨head, tail, live⟩)

theorem hosts {range} (live : after.range? other = some range)
    (assigned : range.isAssigned) : before.range? other = some range := by
  rw [view.range?_eq] at live
  split at live
  · cases live
    cases assigned
  · exact live

variable (coherent : before.Coherent)

include coherent

/-- The numbers after a split lead back to the subrange that was split. -/
def origin (before : Allocation) (id other : SubrangeId) : SubrangeId :=
  if other = before.nextSubrange then id else other

theorem refines : Refines before after (origin before id) where
  toRelists := view.toRelists
  narrows {other part} live := by
    have ordered := coherent.ordered view.found
    rcases view.subrange?_cases live with ⟨rfl, rfl⟩ | ⟨rfl, rfl⟩ | ⟨_, notTail, unchanged⟩
    · rw [origin, if_neg (Nat.ne_of_lt (lt_nextSubrange_of_subrange? view.found))]
      exact ⟨sub, view.found, view.splits.narrows_headAt ordered, view.splits.fits_headAt ordered,
        view.splits.locations_headAt ordered⟩
    · rw [origin, if_pos rfl]
      exact ⟨sub, view.found, view.splits.narrows_tailAt ordered _ _,
        view.splits.fits_tailAt ordered _ _, view.splits.locations_tailAt ordered _ _⟩
    · rw [origin, if_neg notTail]
      exact ⟨part, unchanged, Subrange.Narrows.refl part, coherent.fits unchanged,
        (coherent.ordered unchanged).filter_covers.symm⟩
  kept_or_fresh {other part source} live found := by
    have old := Nat.ne_of_lt (lt_nextSubrange_of_subrange? view.found)
    have unchanged : ∀ {id sub}, before.subrange? id = some sub →
        ∃ range, after.range? sub.range = some range := by
      intro id sub found
      rw [view.range?_eq, if_neg (Nat.ne_of_lt (coherent.range_lt_nextRange found))]
      exact coherent.range_live found
    rcases view.subrange?_cases live with ⟨rfl, rfl⟩ | ⟨rfl, rfl⟩ | ⟨_, notTail, kept⟩
    · rw [origin, if_neg old, view.found] at found
      cases found
      exact .inl ⟨if_neg old, ⟨rfl, rfl, rfl, fun exit => absurd exit view.splits.stays,
        fun side => by cases side <;> rfl⟩, unchanged view.found⟩
    · rw [origin, if_pos rfl, view.found] at found
      cases found
      exact .inr ⟨rfl, Nat.le_refl _, (view.range?_eq _).trans (if_pos rfl),
        view.splits.tailAt_inside (coherent.ordered view.found) _ _,
        fun side => by cases side <;> rfl⟩
    · rw [origin, if_neg notTail, kept] at found
      cases found
      exact .inl ⟨if_neg notTail, Subrange.Keeps.refl part, unchanged kept⟩
  separate live anotherLive different same := by
    have disjoint := view.splits.headAt_apart_tailAt (coherent.ordered view.found)
      before.nextSubrange before.nextRange
    have old := Nat.ne_of_lt (lt_nextSubrange_of_subrange? view.found)
    -- two numbers with one origin are those of the head and the tail
    rcases view.subrange?_cases live with ⟨rfl, rfl⟩ | ⟨rfl, rfl⟩ | ⟨notHead, notTail, _⟩ <;>
      rcases view.subrange?_cases anotherLive with
        ⟨rfl, rfl⟩ | ⟨rfl, rfl⟩ | ⟨anotherNotHead, anotherNotTail, _⟩ <;>
      simp_all [origin, overlaps_comm]
  range_old {other range} live old := by
    rw [view.range?_eq, if_neg (Nat.ne_of_lt old)] at live
    refine ⟨⟨_, live⟩, fun {mem source} found inside => ?_⟩
    rw [view.subrange?_eq]
    split
    next head =>
      rw [head, view.found] at found
      cases found
      exact ⟨_, rfl, inside⟩
    · rw [if_neg (Nat.ne_of_lt (lt_nextSubrange_of_subrange? found))]
      exact ⟨source, found, inside⟩
  range_new {other range} live new := by
    rw [view.range?_eq] at live
    split at live
    next same =>
      refine ⟨before.nextSubrange, sub.tailAt place before.nextSubrange before.nextRange, ?_,
        same.symm⟩
      rw [view.subrange?_eq, if_neg (Nat.ne_of_gt (lt_nextSubrange_of_subrange? view.found)),
        if_pos rfl]
    · exact absurd (lt_nextRange_of_range? live) (Nat.not_lt.mpr new)

end SplitAt
end Allocation
end Dynarec
