import Dynarec.Proofs.Allocation.Formation
import Mathlib.Algebra.Order.BigOperators.Group.Finset

/-!
# Growth of live ranges

A range takes up a window and then all windows that meet one of its own, until
none is left.  The bound on the steps is large enough, so a range that is formed
is closed under meeting windows, and its subranges know where they continue.
-/

namespace Dynarec.Liveness

open Allocation List Option Segment

variable {liveness : Liveness} {id other : SegmentId}

/-! ## Windows that meet -/

theorem mem_neighbours_iff :
    other ∈ liveness.neighbours reg id ↔ ((liveness.window id reg).stop = .atExit ∧
        other ∈ (liveness.graph.segment id).successors ∧
        (liveness.window other reg).start = .atEntry) ∨
      ((liveness.window id reg).start = .atEntry ∧ other ∈ (liveness.graph.segment id).prev ∧
        (liveness.window other reg).stop = .atExit) := by
  simp only [neighbours, mem_append]
  by_cases exit : (liveness.window id reg).stop = .atExit <;>
    by_cases entry : (liveness.window id reg).start = .atEntry <;>
    simp [exit, entry, mem_filter]

theorem mem_neighbours_comm (backlinked : liveness.graph.Backlinked)
    (mem : id ∈ liveness.graph.order) (otherMem : other ∈ liveness.graph.order)
    (meets : other ∈ liveness.neighbours reg id) : id ∈ liveness.neighbours reg other := by
  rw [mem_neighbours_iff] at meets ⊢
  rcases meets with ⟨exit, follows, entry⟩ | ⟨entry, precedes, exit⟩
  · exact .inr ⟨entry, (backlinked.mem_prev_iff otherMem mem).mpr follows, exit⟩
  · exact .inl ⟨exit, (backlinked.mem_prev_iff mem otherMem).mp precedes, entry⟩

/-- A window touches a boundary of its segment. -/
def Touches (liveness : Liveness) (reg : Nat) (id : SegmentId) : Prop :=
  (liveness.window id reg).start = .atEntry ∨ (liveness.window id reg).stop = .atExit

theorem touches_of_mem_neighbours (numbered : liveness.graph.Numbered)
    (mem : id ∈ liveness.graph.order) (meets : other ∈ liveness.neighbours reg id) :
    other ∈ liveness.graph.order ∧ liveness.Touches reg other := by
  rw [mem_neighbours_iff] at meets
  rcases meets with ⟨exit, follows, entry⟩ | ⟨entry, precedes, exit⟩
  · obtain ⟨side, linked⟩ := mem_successors_iff.mp follows
    exact ⟨numbered.link_mem mem linked, .inl entry⟩
  · exact ⟨numbered.prev_mem mem precedes, .inr exit⟩

/-- Windows of a register that a chain of windows joins, each of which meets the next one. -/
def Connected (liveness : Liveness) (reg : Nat) : SegmentId → SegmentId → Prop :=
  Relation.EqvGen fun id other =>
    id ∈ liveness.graph.order ∧ other ∈ liveness.neighbours reg id

theorem Connected.eq_or_touches (connected : liveness.Connected reg id other) :
    id = other ∨ liveness.Touches reg id ∧ liveness.Touches reg other := by
  induction connected with
  | rel id other meets =>
    rcases mem_neighbours_iff.mp meets.2 with ⟨exit, _, entry⟩ | ⟨entry, _, exit⟩
    · exact .inr ⟨.inr exit, .inl entry⟩
    · exact .inr ⟨.inl entry, .inr exit⟩
  | refl => exact .inl rfl
  | symm _ _ _ ih => exact ih.imp Eq.symm And.symm
  | trans _ _ _ _ _ first second =>
    rcases first with rfl | ⟨touches, there⟩
    · exact second
    · rcases second with rfl | ⟨_, touches'⟩
      · exact .inr ⟨touches, there⟩
      · exact .inr ⟨touches, touches'⟩

/-- A window of the table that reaches the exit is defined. -/
def Proper (liveness : Liveness) : Prop :=
  ∀ id ∈ liveness.graph.order, ∀ register < liveness.graph.slots.length,
    (liveness.window id register).stop = .atExit → (liveness.window id register).isDefined

theorem Framed.proper (framed : Framed liveness.graph liveness) : liveness.Proper :=
  fun _ mem _ listed exit => (framed.frames mem listed).isDefined_of_exit exit

theorem length_neighbours_le (reg : Nat) (id : SegmentId) :
    (liveness.neighbours reg id).length ≤ 2 + (liveness.graph.segment id).prev.length := by
  have successors : (liveness.graph.segment id).successors.length ≤ 2 := by
    unfold successors
    cases (liveness.graph.segment id).taken <;> cases (liveness.graph.segment id).notTaken <;> simp
  simp only [neighbours, length_append]
  split <;> split <;> grind

/-! ## One range grown -/

/-- The steps that the open windows of a register may still cause. -/
def openWeight (liveness : Liveness) (reg : Nat) (forming : Forming) : Nat :=
  ∑ id ∈ Finset.range liveness.graph.segments.size,
    if liveness.isOpen reg forming id then 2 + (liveness.graph.segment id).prev.length else 0

/-- A window taken up can cause no further steps. -/
theorem openWeight_addWindow (shaped : forming.Shaped liveness.graph)
    (inside : id < liveness.graph.segments.size) (listed : reg < liveness.graph.slots.length)
    (unformed : liveness.isOpen reg forming id) :
    liveness.openWeight reg (liveness.addWindow reg forming id) +
        (2 + (liveness.graph.segment id).prev.length) =
      liveness.openWeight reg forming := by
  have mem : id ∈ Finset.range liveness.graph.segments.size := Finset.mem_range.mpr inside
  have closed : liveness.isOpen reg (liveness.addWindow reg forming id) id = false := by
    rw [isOpen, member?_addWindow shaped inside listed, if_pos ⟨rfl, rfl⟩]
    simp
  rw [openWeight, openWeight, ← Finset.add_sum_erase _ _ mem, ← Finset.add_sum_erase _ _ mem,
    closed, unformed]
  have others : ∀ other ∈ (Finset.range liveness.graph.segments.size).erase id,
      liveness.isOpen reg (liveness.addWindow reg forming id) other =
        liveness.isOpen reg forming other := by
    intro other otherMem
    rw [isOpen, member?_addWindow shaped inside listed, if_neg]
    · rfl
    · exact fun equal => Finset.ne_of_mem_erase otherMem equal.1.symm
  rw [Finset.sum_congr rfl fun other otherMem => by rw [others other otherMem]]
  simp only [Bool.false_eq_true, if_false, if_true]
  omega

theorem linkBound_eq (g : Graph) :
    linkBound g = 1 + ∑ id ∈ Finset.range g.segments.size, (2 + (g.segment id).prev.length) := by
  have sum : ∀ (segments : List Segment) (bound : Nat),
      segments.foldl (fun bound seg => bound + 2 + seg.prev.length) bound =
        bound + ∑ id ∈ Finset.range segments.length,
          (2 + (segments[id]?.elim 0 (·.prev.length))) := by
    intro segments
    induction segments with
    | nil => simp
    | cons seg segments ih =>
      intro bound
      rw [foldl_cons, ih, length_cons, Finset.sum_range_succ']
      simp only [getElem?_cons_zero, getElem?_cons_succ, elim_some]
      omega
  rw [linkBound, ← Array.foldl_toList, sum, Array.length_toList]
  congr 1
  apply Finset.sum_congr rfl
  intro id _
  rw [Array.getElem?_toList, Graph.segment, Array.getD_eq_getD_getElem?]
  cases g.segments[id]? <;> rfl

theorem openWeight_lt_linkBound (reg : Nat) (forming : Forming) :
    liveness.openWeight reg forming < linkBound liveness.graph := by
  rw [linkBound_eq, openWeight, Nat.add_comm, Nat.lt_succ_iff]
  apply Finset.sum_le_sum
  intro id _
  split
  · exact Nat.le_refl _
  · exact Nat.zero_le _

/-- What holds while the newest range of a register grows from the window in `first`; `before`
is what was formed when the range was begun. -/
structure Growing (liveness : Liveness) (reg : Nat) (first : SegmentId) (before : Forming)
    (work : List SegmentId) (forming : Forming) : Prop where
  formed : Formed liveness forming
  nextRange_eq : forming.allocation.nextRange = before.allocation.nextRange + 1
  newest : ∃ range, forming.allocation.range? before.allocation.nextRange = some range ∧
    range.register = Int.ofNat reg
  old_range : ∀ {id}, id < before.allocation.nextRange →
    forming.allocation.range? id = before.allocation.range? id
  old_subrange : ∀ {id}, id < before.allocation.nextSubrange →
    forming.allocation.subrange? id = before.allocation.subrange? id
  nextSubrange_le : before.allocation.nextSubrange ≤ forming.allocation.nextSubrange
  /-- The subranges of the newest range are told no continuations yet. -/
  new_subrange : ∀ {id sub}, before.allocation.nextSubrange ≤ id →
    forming.allocation.subrange? id = some sub →
    sub.range = before.allocation.nextRange ∧ (∀ side, sub.link side = none) ∧
      liveness.Connected reg first sub.segment
  /-- The windows still to be looked at. -/
  waiting : ∀ id ∈ work, id ∈ liveness.graph.order ∧
    (liveness.window id reg).isDefined ∧ liveness.Connected reg first id
  /-- The first window is still to be taken up, or it was. -/
  begun : (work = [first] ∧ liveness.isOpen reg forming first) ∨
    ∃ id sub, before.allocation.nextSubrange ≤ id ∧
      forming.allocation.subrange? id = some sub ∧ sub.segment = first
  /-- What meets a subrange of the newest range was taken up or is still to be looked at. -/
  met : ∀ {id sub other}, before.allocation.nextSubrange ≤ id →
    forming.allocation.subrange? id = some sub →
    other ∈ liveness.neighbours reg sub.segment →
    other ∈ work ∨ ∃ member, forming.member? other reg = some member

namespace Growing

variable {work : List SegmentId}

theorem start (listed : reg < liveness.graph.slots.length) (formed : Formed liveness before)
    (mem : first ∈ liveness.graph.order) (unformed : liveness.isOpen reg before first) :
    Growing liveness reg first before [first] (liveness.beginRange reg before) := by
  have nothing {id sub} (new : before.allocation.nextSubrange ≤ id)
      (found : before.allocation.subrange? id = some sub) : False :=
    Nat.not_lt.mpr new (lt_nextSubrange_of_subrange? found)
  have defined := (Bool.and_eq_true_iff.mp unformed).1
  exact {
    formed := formed.beginRange listed
    nextRange_eq := nextRange_beginRange ..
    newest := ⟨_, (range?_beginRange ..).trans (if_pos rfl), rfl⟩
    old_range := fun small => (range?_beginRange ..).trans (if_neg (Nat.ne_of_lt small))
    old_subrange := fun _ => rfl
    nextSubrange_le := Nat.le_refl _
    new_subrange := fun new found => (nothing new found).elim
    waiting := forall_mem_singleton.mpr ⟨mem, defined, .refl _⟩
    begun := .inl ⟨rfl, unformed⟩
    met := fun new found => (nothing new found).elim }

theorem skip (growing : Growing liveness reg first before (id :: work) forming)
    (formed : liveness.isOpen reg forming id = false) :
    Growing liveness reg first before work forming := by
  have taken : ∃ mem, forming.member? id reg = some mem := by
    rw [isOpen, (growing.waiting id mem_cons_self).2.1, Bool.true_and, isNone_eq_false_iff] at formed
    exact isSome_iff_exists.mp formed
  refine { growing with
    waiting := fun other mem => growing.waiting other (mem_cons_of_mem id mem)
    begun := ?_
    met := ?_ }
  · rcases growing.begun with ⟨single, opened⟩ | begun
    · cases single
      cases formed.symm.trans opened
    · exact .inr begun
  · intro mem sub other new found meets
    rcases growing.met new found meets with waiting | done
    · rcases mem_cons.mp waiting with rfl | waiting
      · exact .inr taken
      · exact .inl waiting
    · exact .inr done

variable (numbered : liveness.graph.Numbered) (listed : reg < liveness.graph.slots.length)
  (proper : liveness.Proper)

include numbered listed proper

theorem take (growing : Growing liveness reg first before (id :: work) forming)
    (unformed : liveness.isOpen reg forming id) :
    Growing liveness reg first before ((liveness.neighbours reg id).reverse ++ work)
      (liveness.addWindow reg forming id) := by
  obtain ⟨mem, _, reached⟩ := growing.waiting id mem_cons_self
  obtain ⟨range, live, same⟩ := growing.newest
  have next : forming.allocation.nextRange - 1 = before.allocation.nextRange := by
    rw [growing.nextRange_eq, Nat.add_sub_cancel]
  have bound := growing.nextSubrange_le
  constructor
  · exact growing.formed.addWindow listed mem (next.symm ▸ live) same numbered unformed
  · rw [addWindow, nextRange_addSubrange, growing.nextRange_eq]
  · obtain ⟨range', live', same'⟩ := Formed.exists_range?_addWindow liveness reg id live
    exact ⟨range', live', same'.trans same⟩
  · intro other old
    rw [addWindow, range?_addSubrange, next, if_neg (Nat.ne_of_lt old).symm]
    exact growing.old_range old
  · intro other old
    rw [subrange?_addWindow, if_neg (by lia)]
    exact growing.old_subrange old
  · rw [addWindow, nextSubrange_addSubrange]
    exact Nat.le_succ_of_le bound
  · intro other sub new found
    rw [subrange?_addWindow, next] at found
    split at found
    · cases found
      exact ⟨rfl, fun side => by cases side <;> rfl, reached⟩
    · exact growing.new_subrange new found
  · intro other waiting
    rcases mem_append.mp waiting with waiting | waiting
    · have meets := mem_reverse.mp waiting
      -- the chain from the first window goes on by one
      have connected := reached.trans _ _ _ (.rel _ _ ⟨mem, meets⟩)
      obtain ⟨here, entry | exit⟩ := touches_of_mem_neighbours numbered mem meets
      · exact ⟨here, Window.isDefined_of_entry entry, connected⟩
      · exact ⟨here, proper _ here _ listed exit, connected⟩
    · exact growing.waiting other (mem_cons_of_mem id waiting)
  · right
    rcases growing.begun with ⟨single, _⟩ | ⟨other, sub, new, found, here⟩
    · cases single
      exact ⟨_, _, bound, (subrange?_addWindow ..).trans (if_pos rfl), rfl⟩
    · have old := Nat.ne_of_lt (lt_nextSubrange_of_subrange? found)
      exact ⟨other, sub, new, by rw [subrange?_addWindow, if_neg old, found], here⟩
  · intro other sub candidate new found meets
    rw [member?_addWindow growing.formed.shaped (numbered.inside mem) listed]
    rw [subrange?_addWindow] at found
    split at found
    · cases found
      exact .inl (mem_append_left _ (mem_reverse.mpr meets))
    · split
      · exact .inr ⟨_, rfl⟩
      next ne =>
        rcases growing.met new found meets with waiting | done
        · rcases mem_cons.mp waiting with rfl | waiting
          · exact absurd ⟨rfl, rfl⟩ ne
          · exact .inl (mem_append_right _ waiting)
        · exact .inr done

theorem grow (bound : Nat) (growing : Growing liveness reg first before work forming)
    (enough : work.length + liveness.openWeight reg forming ≤ bound) :
    Growing liveness reg first before [] (liveness.grow reg bound work forming) := by
  induction bound generalizing work forming with
  | zero =>
    have empty : work = [] := length_eq_zero_iff.mp (by omega)
    subst empty
    exact growing
  | succ bound ih =>
    cases work with
    | nil => exact growing
    | cons id work =>
      rw [grow]
      rw [length_cons] at enough
      cases unformed : liveness.isOpen reg forming id with
      | true =>
        have inside := numbered.inside (growing.waiting id mem_cons_self).1
        have weight := openWeight_addWindow growing.formed.shaped inside listed unformed
        have fewer := liveness.length_neighbours_le reg id
        refine ih (growing.take numbered listed proper unformed) ?_
        rw [length_append, length_reverse]
        omega
      | false => exact ih (growing.skip unformed) (by omega)

theorem of_open (formed : Formed liveness before) (mem : first ∈ liveness.graph.order)
    (unformed : liveness.isOpen reg before first) :
    Growing liveness reg first before []
      (liveness.grow reg (linkBound liveness.graph) [first] (liveness.beginRange reg before)) := by
  refine (start listed formed mem unformed).grow numbered listed proper _ ?_
  rw [length_singleton, Nat.add_comm]
  exact liveness.openWeight_lt_linkBound reg _

end Growing

/-! ## Continuations -/

/-- A subrange with the continuations that the formed ranges give it. -/
def continued (liveness : Liveness) (reg : Nat) (forming : Forming) (sub : Subrange) :
    Subrange :=
  if sub.stop = .atExit then
    { sub with
      taken := liveness.continuation reg forming
        (liveness.graph.segment sub.segment).taken
      notTaken := liveness.continuation reg forming
        (liveness.graph.segment sub.segment).notTaken }
  else sub

theorem continued_keeps (liveness : Liveness) (reg : Nat) (forming : Forming) (sub : Subrange) :
    let continued := liveness.continued reg forming sub
    continued.range = sub.range ∧ continued.segment = sub.segment ∧
      continued.start = sub.start ∧ continued.stop = sub.stop := by
  unfold continued
  split <;> exact ⟨rfl, rfl, rfl, rfl⟩

theorem link_continued (liveness : Liveness) (reg : Nat) (forming : Forming)
    (sub : Subrange) (side : Bool) (untold : sub.link side = none) :
    (liveness.continued reg forming sub).link side = if sub.stop = .atExit then
        liveness.continuation reg forming ((liveness.graph.segment sub.segment).link side)
      else none := by
  unfold continued
  split
  · cases side <;> rfl
  · exact untold

theorem linkSubrange_view (liveness : Liveness) (reg : Nat) (forming : Forming) (id : SubrangeId) :
    let result := liveness.linkSubrange reg forming id
    result.members = forming.members ∧
      (∀ other, result.allocation.range? other = forming.allocation.range? other) ∧
      ∀ other, result.allocation.subrange? other = if id = other then
          (forming.allocation.subrange? other).map (liveness.continued reg forming)
        else forming.allocation.subrange? other := by
  by_cases exit : (forming.allocation.subrange id).stop = .atExit
  · simp only [linkSubrange, exit, ne_eq, not_true_eq_false, if_false]
    refine ⟨trivial, fun _ => rfl, fun other => ?_⟩
    rw [subrange?_modifySubrange]
    split
    next equal =>
      subst equal
      refine map_congr fun sub found => ?_
      rw [subrange_eq_of_some found] at exit ⊢
      simp only [continued, exit, if_true]
    · rfl
  · rw [linkSubrange, if_pos exit]
    refine ⟨rfl, fun _ => rfl, fun other => ?_⟩
    split
    next equal =>
      subst equal
      refine map_id'.symm.trans (map_congr fun sub found => ?_)
      rw [subrange_eq_of_some found] at exit
      simp only [continued, exit, if_false]
    · rfl

theorem continued_congr (liveness : Liveness) (reg : Nat) {other}
    (members : other.members = forming.members) :
    liveness.continued reg other = liveness.continued reg forming := by
  funext subrange
  simp only [continued, continuation, Forming.member?, members]

theorem foldl_linkSubrange (liveness : Liveness) (forming : Forming) (reg : Nat)
    {ids : List SubrangeId} (nodup : ids.Nodup) :
    let result := ids.foldl (liveness.linkSubrange reg) forming
    result.members = forming.members ∧
      (∀ id, result.allocation.range? id = forming.allocation.range? id) ∧
      ∀ id, result.allocation.subrange? id = if id ∈ ids then
          (forming.allocation.subrange? id).map (liveness.continued reg forming)
        else forming.allocation.subrange? id := by
  induction ids generalizing forming with
  | nil => simp
  | cons head ids ih =>
    obtain ⟨fresh, nodup⟩ := nodup_cons.mp nodup
    obtain ⟨members, ranges, subs⟩ := liveness.linkSubrange_view reg forming head
    obtain ⟨members', ranges', subranges'⟩ := @ih (liveness.linkSubrange reg forming head) nodup
    rw [foldl_cons]
    refine ⟨members'.trans members, fun id => (ranges' id).trans (ranges id), ?_⟩
    intro id
    rw [subranges', subs, continued_congr liveness reg members]
    by_cases first : head = id
    · subst first
      rw [if_neg fresh, if_pos rfl, if_pos mem_cons_self]
    · simp [first, Ne.symm first]

theorem Formed.foldl_linkSubrange (formed : Formed liveness forming) (reg : Nat)
    (ids : List SubrangeId) : Formed liveness (ids.foldl (liveness.linkSubrange reg) forming) := by
  refine List.foldlRecOn _ _ formed ?_
  intro forming formed id _
  unfold linkSubrange
  extract_lets subrange segment taken notTaken
  split
  · exact formed
  · exact formed.modifySubrange fun _ => ⟨rfl, rfl, rfl, rfl, rfl, rfl⟩

/-! ## All ranges -/

/-- What was taken up before still is. -/
def Forming.Extends (g : Graph) (before after : Forming) : Prop :=
  ∀ {seg reg}, seg ∈ g.order → reg < g.slots.length →
    (before.member? seg reg).isSome →
    (after.member? seg reg).isSome

/-- Every range formed so far is finished: it took up all that meets its subranges, and these
were told their continuations. -/
structure Finished (liveness : Liveness) (forming : Forming) : Prop where
  formed : Formed liveness forming
  subranges_ne_nil : ∀ {id range}, forming.allocation.range? id = some range → range.subranges ≠ []
  /-- The windows of a range are joined by chains of windows that meet. -/
  connected : ∀ {id sub range reg other otherSub}, forming.allocation.subrange? id = some sub →
    forming.allocation.range? sub.range = some range →
    range.register = Int.ofNat reg →
    forming.allocation.subrange? other = some otherSub →
    otherSub.range = sub.range →
    liveness.Connected reg sub.segment otherSub.segment
  /-- What meets a subrange was taken up, by the same range if source lists are complete. -/
  met : ∀ {id sub range reg other}, forming.allocation.subrange? id = some sub →
    forming.allocation.range? sub.range = some range →
    range.register = Int.ofNat reg →
    other ∈ liveness.neighbours reg sub.segment →
    ∃ member otherSub, forming.member? other reg = some member ∧
      forming.allocation.subrange? member = some otherSub ∧
      (liveness.graph.Backlinked → otherSub.range = sub.range)
  /-- A subrange that stops at the exit continues behind each link where a window starts. -/
  continues : ∀ {id sub range reg}, forming.allocation.subrange? id = some sub →
    forming.allocation.range? sub.range = some range →
    range.register = Int.ofNat reg → ∀ side,
    sub.link side = if sub.stop = .atExit then liveness.continuation reg forming
          ((liveness.graph.segment sub.segment).link side)
      else none

/-- A range that was begun, took up all that meets its subranges, and told them their
continuations. -/
structure Added (liveness : Liveness) (reg : Nat) (first : SegmentId)
    (before forming result : Forming) : Prop where
  growing : Growing liveness reg first before [] forming
  old : Formed liveness before
  formed : Formed liveness result
  member?_eq : ∀ seg other, result.member? seg other = forming.member? seg other
  range?_eq : ∀ id, result.allocation.range? id = forming.allocation.range? id
  subrange?_old : ∀ {id}, id < before.allocation.nextSubrange →
    result.allocation.subrange? id = before.allocation.subrange? id
  subrange?_new : ∀ {id}, before.allocation.nextSubrange ≤ id → result.allocation.subrange? id =
      (forming.allocation.subrange? id).map (liveness.continued reg forming)

theorem Growing.added (growing : Growing liveness reg first before [] forming)
    (formed : Formed liveness before) :
    Added liveness reg first before forming
      ((forming.allocation.range before.allocation.nextRange).subranges.foldl
        (liveness.linkSubrange reg) forming) := by
  obtain ⟨newest, live, _⟩ := growing.newest
  rw [range_eq_of_some live]
  have nodup := growing.formed.nodup_subranges live
  obtain ⟨members, ranges, subs⟩ := liveness.foldl_linkSubrange forming reg nodup
  refine ⟨growing, formed, growing.formed.foldl_linkSubrange reg newest.subranges, ?_, ranges, ?_,
    ?_⟩
  · intro seg other
    simp only [Forming.member?, members]
  · intro id old
    rw [subs, if_neg, growing.old_subrange old]
    intro listed
    obtain ⟨sub, found, inside⟩ := (growing.formed.mem_subranges live).mp listed
    rw [growing.old_subrange old] at found
    exact absurd inside (Nat.ne_of_lt (formed.range_lt_nextRange found))
  · intro id new
    rw [subs]
    split
    · rfl
    next unlisted =>
      refine map_id'.symm.trans (map_congr fun sub found => ?_)
      have inside := (growing.new_subrange new found).1
      exact absurd ((growing.formed.mem_subranges live).mpr ⟨sub, found, inside⟩) unlisted

namespace Added

variable (added : Added liveness reg first before forming result)

include added

/-- A subrange of the result is an old one or a member of the new range. -/
theorem subrange?_cases {id} (found : result.allocation.subrange? id = some sub) :
    (id < before.allocation.nextSubrange ∧ before.allocation.subrange? id = some sub ∧
      sub.range < before.allocation.nextRange) ∨
      (before.allocation.nextSubrange ≤ id ∧ sub.range = before.allocation.nextRange ∧
        ∃ grown, forming.allocation.subrange? id = some grown ∧
          sub = liveness.continued reg forming grown) := by
  by_cases old : id < before.allocation.nextSubrange
  · rw [added.subrange?_old old] at found
    exact .inl ⟨old, found, added.old.range_lt_nextRange found⟩
  · have new := Nat.not_lt.mp old
    rw [added.subrange?_new new, map_eq_some_iff] at found
    obtain ⟨grown, found, rfl⟩ := found
    refine .inr ⟨new, ?_, grown, found, rfl⟩
    rw [(liveness.continued_keeps reg forming grown).1]
    exact (added.growing.new_subrange new found).1

theorem range?_old {id} (old : id < before.allocation.nextRange) :
    result.allocation.range? id = before.allocation.range? id := by
  rw [added.range?_eq, added.growing.old_range old]

theorem member?_of_before {id} (mem : seg ∈ liveness.graph.order)
    (listed : other < liveness.graph.slots.length) (taken : before.member? seg other = some id) :
    result.member? seg other = some id := by
  obtain ⟨sub, range, found, here, live, same⟩ := (added.old.member?_iff mem listed).mp taken
  refine (added.formed.member?_iff mem listed).mpr ⟨sub, range, ?_, here, ?_, same⟩
  · rw [added.subrange?_old (lt_nextSubrange_of_subrange? found), found]
  · rw [added.range?_old (lt_nextRange_of_range? live), live]

theorem begun : ∃ id sub, before.allocation.nextSubrange ≤ id ∧
    forming.allocation.subrange? id = some sub ∧ sub.segment = first := by
  rcases added.growing.begun with ⟨empty, _⟩ | begun
  · cases empty
  · exact begun

theorem register_eq {range}
    (live : result.allocation.range? before.allocation.nextRange = some range) :
    range.register = Int.ofNat reg := by
  obtain ⟨newest, newestLive, same⟩ := added.growing.newest
  cases (added.range?_eq _ ▸ newestLive).symm.trans live
  exact same

theorem isSome_member?_first (mem : first ∈ liveness.graph.order)
    (listed : reg < liveness.graph.slots.length) : (result.member? first reg).isSome := by
  obtain ⟨id, sub, new, found, here⟩ := added.begun
  obtain ⟨range, live, same⟩ := added.growing.newest
  rw [← (added.growing.new_subrange new found).1] at live
  rw [added.member?_eq, (added.growing.formed.member?_iff mem listed).mpr
    ⟨sub, range, found, here, live, same⟩]
  rfl

end Added

namespace Finished

variable (numbered : liveness.graph.Numbered) (finished : Finished liveness before)
  (added : Added liveness reg first before forming result) {range : LiveRange}

include finished added

theorem subranges_ne_nil_of_added {id} (live : result.allocation.range? id = some range) :
    range.subranges ≠ [] := by
  by_cases old : id < before.allocation.nextRange
  · rw [added.range?_old old] at live
    exact finished.subranges_ne_nil live
  · rw [added.range?_eq] at live
    have bound := lt_nextRange_of_range? live
    rw [added.growing.nextRange_eq] at bound
    obtain ⟨_, grown, new, found, _⟩ := added.begun
    have inside := (added.growing.new_subrange new found).1
    exact ne_nil_of_mem ((added.growing.formed.mem_subranges live).mpr ⟨grown, found, by lia⟩)

section

variable (found : result.allocation.subrange? id = some sub)
  (live : result.allocation.range? sub.range = some range)
  (same : range.register = Int.ofNat number)

include numbered found live same

omit numbered in
theorem connected_of_added (otherFound : result.allocation.subrange? other = some otherSub)
    (inside : otherSub.range = sub.range) :
    liveness.Connected number sub.segment otherSub.segment := by
  rcases added.subrange?_cases found with
      ⟨_, before', old⟩ | ⟨new, newest, grown, grownFound, rfl⟩ <;>
    rcases added.subrange?_cases otherFound with
      ⟨_, otherBefore, otherOld⟩ | ⟨otherNew, otherNewest, otherGrown, otherGrownFound, rfl⟩
  · rw [added.range?_old old] at live
    exact finished.connected before' live same otherBefore inside
  · lia
  · lia
  · cases Int.ofNat.inj ((added.register_eq (newest ▸ live)).symm.trans same)
    obtain ⟨_, _, reached⟩ := added.growing.new_subrange new grownFound
    obtain ⟨_, _, otherReached⟩ := added.growing.new_subrange otherNew otherGrownFound
    rw [(liveness.continued_keeps reg forming grown).2.1,
      (liveness.continued_keeps reg forming otherGrown).2.1]
    exact .trans _ _ _ (.symm _ _ reached) otherReached

theorem met_of_added (meets : other ∈ liveness.neighbours number sub.segment) :
    ∃ mem otherSub, result.member? other number = some mem ∧
      result.allocation.subrange? mem = some otherSub ∧
      (liveness.graph.Backlinked → otherSub.range = sub.range) := by
  obtain ⟨listed, here, _⟩ := added.formed.window_of_register found live same
  have otherHere := (touches_of_mem_neighbours numbered here meets).1
  rcases added.subrange?_cases found with
    ⟨_, before', old⟩ | ⟨new, newest, grown, grownFound, rfl⟩
  · rw [added.range?_old old] at live
    obtain ⟨mem, otherSub, taken, otherFound, joined⟩ := finished.met before' live same meets
    refine ⟨mem, otherSub, ?_, ?_, joined⟩
    · exact added.member?_of_before otherHere listed taken
    · rw [added.subrange?_old (lt_nextSubrange_of_subrange? otherFound), otherFound]
  · have newestSame := added.register_eq (newest ▸ live)
    cases Int.ofNat.inj (newestSame.symm.trans same)
    have seg := (liveness.continued_keeps reg forming grown).2.1
    rw [seg] at meets
    obtain ⟨mem, taken⟩ := (added.growing.met new grownFound meets).resolve_left not_mem_nil
    rw [← added.member?_eq] at taken
    obtain ⟨otherSub, otherRange, otherFound, otherSegment, otherLive, otherSame⟩ :=
      (added.formed.member?_iff otherHere listed).mp taken
    refine ⟨mem, otherSub, taken, otherFound, ?_⟩
    intro backlinked
    rcases added.subrange?_cases otherFound with
      ⟨_, otherBefore, otherOld⟩ | ⟨_, otherNewest, _⟩
    · -- An old range that meets the new one would have taken up its window.
      rw [seg] at here
      have meetsBack := mem_neighbours_comm backlinked here otherHere meets
      rw [← otherSegment] at meetsBack
      rw [added.range?_old otherOld] at otherLive
      obtain ⟨old, oldSubrange, oldTaken, oldFound, _⟩ :=
        finished.met otherBefore otherLive otherSame meetsBack
      have stays := added.member?_of_before here listed oldTaken
      have now := (added.formed.member?_iff here listed).mpr ⟨_, range, found, seg, live, same⟩
      cases stays.symm.trans now
      exact absurd (lt_nextSubrange_of_subrange? oldFound) (Nat.not_lt.mpr new)
    · rw [otherNewest, newest]

theorem continues_of_added (side : Bool) :
    sub.link side = if sub.stop = .atExit then liveness.continuation number result
          ((liveness.graph.segment sub.segment).link side)
      else none := by
  obtain ⟨listed, here, _, stop⟩ := added.formed.window_of_register found live same
  rcases added.subrange?_cases found with
    ⟨_, before', old⟩ | ⟨new, newest, grown, grownFound, rfl⟩
  · rw [added.range?_old old] at live
    rw [finished.continues before' live same side]
    split
    next exit =>
      cases linked : (liveness.graph.segment sub.segment).link side with
      | none => rfl
      | some target =>
        simp only [continuation, bind_some]
        split
        next entry =>
          have meets : target ∈ liveness.neighbours number sub.segment :=
            mem_neighbours_iff.mpr (.inl ⟨stop.symm.trans exit,
              mem_successors_of_link linked, entry⟩)
          obtain ⟨mem, _, taken, _⟩ := finished.met before' live same meets
          rw [taken, added.member?_of_before (numbered.link_mem here linked) listed taken]
        · rfl
    · rfl
  · cases Int.ofNat.inj ((added.register_eq (newest ▸ live)).symm.trans same)
    obtain ⟨_, seg, _, stop⟩ := liveness.continued_keeps reg forming grown
    rw [link_continued _ _ _ _ _ ((added.growing.new_subrange new grownFound).2.1 side), seg, stop]
    simp only [continuation, added.member?_eq]

end

include numbered

theorem of_added : Finished liveness result where
  formed := added.formed
  subranges_ne_nil := finished.subranges_ne_nil_of_added added
  connected found live same := finished.connected_of_added added found live same
  met := finished.met_of_added numbered added
  continues := finished.continues_of_added numbered added

omit added

theorem formRange (proper : liveness.Proper) (mem : first ∈ liveness.graph.order)
    (listed : number < liveness.graph.slots.length) :
    let result := liveness.formRange (linkBound liveness.graph) before first number
    Finished liveness result ∧ before.Extends liveness.graph result ∧
      ((liveness.window first number).isDefined → (result.member? first number).isSome) := by
  unfold Liveness.formRange
  split
  next unformed =>
    have growing := Growing.of_open numbered listed proper finished.formed mem unformed
    have added := growing.added finished.formed
    refine ⟨finished.of_added numbered added, fun here inside taken => ?_, fun _ =>
      added.isSome_member?_first mem listed⟩
    obtain ⟨id, taken⟩ := isSome_iff_exists.mp taken
    exact isSome_iff_exists.mpr ⟨id, added.member?_of_before here inside taken⟩
  next formed =>
    refine ⟨finished, fun _ _ taken => taken, fun defined => ?_⟩
    simpa [isOpen, defined, isSome_iff_ne_none] using formed

end Finished

theorem finished_empty (liveness : Liveness) (regs : Int) :
    Finished liveness {
      allocation := .empty liveness.graph regs
      members := Array.replicate liveness.graph.segments.size
        (Array.replicate liveness.graph.slots.length none) } := by
  have noRange : ∀ {id range}, (empty liveness.graph regs).range? id ≠ some range := by
    intro id range
    simp [range?, empty]
  have noSubrange : ∀ {id sub}, (empty liveness.graph regs).subrange? id ≠ some sub := by
    intro id sub
    simp [subrange?, empty]
  have ids : ∀ seg, (empty liveness.graph regs).idsIn seg = #[] := by
    intro seg
    simp only [idsIn, empty, Array.getD_eq_getD_getElem?, Array.getElem?_replicate]
    split <;> rfl
  have members : ∀ seg reg, Forming.member? {
      allocation := .empty liveness.graph regs
      members := Array.replicate liveness.graph.segments.size
        (Array.replicate liveness.graph.slots.length none) } seg reg = none := by
    intro seg reg
    simp only [Forming.member?, Array.getD_eq_getD_getElem?, Array.getElem?_replicate]
    split
    · simp only [getD_some, Array.getElem?_replicate]
      split <;> rfl
    · rfl
  constructor
  · constructor
    · rfl
    · simp [empty]
    · refine ⟨by simp, fun {id row} found => ?_⟩
      rw [Array.getElem?_replicate] at found
      split at found
      · cases found
        exact Array.size_replicate
      · cases found
    · exact ⟨by simp [ids, noSubrange], fun seg => by rw [ids]; exact nodup_nil⟩
    · exact fun live => absurd live noRange
    · exact fun found => absurd found noSubrange
    · exact fun live => absurd live noRange
    · exact fun live => absurd live noRange
    · exact fun live => absurd live noRange
    · exact fun found => absurd found noSubrange
    · intro seg reg id _ _
      rw [members]
      simp [HoldsRegister, noSubrange]
  · exact fun live => absurd live noRange
  · exact fun found => absurd found noSubrange
  · exact fun found => absurd found noSubrange
  · exact fun found => absurd found noSubrange

/-- What one step of a fold brings about and no step undoes holds in the end. -/
theorem foldl_reaches {α β : Type} {motive keeps : β → Prop} {step} {items : List α}
    {start} (begins : keeps start)
    (kept : ∀ state, ∀ item ∈ items, keeps state → keeps (step state item))
    (stays : ∀ state, ∀ item ∈ items, keeps state → motive state → motive (step state item))
    {item} (mem : item ∈ items) (reaches : ∀ state, keeps state → motive (step state item)) :
    motive (items.foldl step start) := by
  induction items generalizing start with
  | nil => cases mem
  | cons first rest ih =>
    have keptRest state item inside := kept state item (mem_cons_of_mem first inside)
    have staysRest state item inside := stays state item (mem_cons_of_mem first inside)
    have begun := kept start first mem_cons_self begins
    rcases mem_cons.mp mem with rfl | listed
    · refine (List.foldlRecOn (motive := fun state => keeps state ∧ motive state) rest step
        ⟨begun, reaches start begins⟩ fun state holds item inside => ?_).2
      exact ⟨keptRest state item inside holds.1, staysRest state item inside holds.1 holds.2⟩
    · exact ih begun keptRest staysRest listed

section

variable (numbered : liveness.graph.Numbered) (proper : liveness.Proper)

include numbered proper

theorem Finished.formRanges (finished : Finished liveness forming)
    (mem : id ∈ liveness.graph.order) :
    let result := liveness.registers.foldl (liveness.formRange (linkBound liveness.graph) · id ·)
      forming
    Finished liveness result ∧ forming.Extends liveness.graph result := by
  refine List.foldlRecOn
    (motive := fun result => Finished liveness result ∧ forming.Extends liveness.graph result) _ _
    ⟨finished, fun _ _ taken => taken⟩ fun result ⟨finished, taken⟩ number listed => ?_
  obtain ⟨finished, stays, _⟩ := finished.formRange numbered proper mem (mem_range.mp listed)
  exact ⟨finished, fun here inside before => stays here inside (taken here inside before)⟩

theorem finished_buildRanges (regs : Int) :
    ∃ forming, liveness.buildRanges (.empty liveness.graph regs) = forming.allocation ∧
      Finished liveness forming ∧
      ∀ {id reg}, id ∈ liveness.graph.order → reg < liveness.graph.slots.length →
        (liveness.window id reg).isDefined → ∃ mem, forming.member? id reg = some mem := by
  refine ⟨_, rfl, ?_, ?_⟩
  · exact List.foldlRecOn (motive := Finished liveness) _ _ (finished_empty liveness regs)
      fun _ finished _ mem => (finished.formRanges numbered proper mem).1
  · intro id reg mem listed defined
    rw [← isSome_iff_exists]
    refine foldl_reaches (motive := fun forming : Forming => (forming.member? id reg).isSome)
      (finished_empty liveness regs)
      (fun _ _ inside finished => (finished.formRanges numbered proper inside).1)
      (fun _ _ inside finished => (finished.formRanges numbered proper inside).2 mem listed) mem
      fun forming finished => ?_
    exact foldl_reaches
      (motive := fun forming : Forming => (forming.member? id reg).isSome) finished
      (fun _ _ inside finished =>
        (finished.formRange numbered proper mem (mem_range.mp inside)).1)
      (fun _ _ inside finished =>
        (finished.formRange numbered proper mem (mem_range.mp inside)).2.1 mem listed)
      (mem_range.mpr listed) fun _ finished =>
        (finished.formRange numbered proper mem listed).2.2 defined

end

end Dynarec.Liveness
