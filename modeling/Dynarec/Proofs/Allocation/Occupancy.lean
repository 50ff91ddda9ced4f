import Dynarec.Proofs.Allocation.Coherence
import Dynarec.Proofs.Allocation.Weave

/-!
# Walks that succeed

A walk over a segment fails only if a register is bound twice, if an instruction
names a register that no subrange keeps, or if a subrange that does not leave the
segment is live behind its last instruction.  When no two subranges of one
register overlap and every operand lies in a subrange, none of this happens: in
front of each instruction exactly the subranges that are live there hold a
register.  The insertions are known beforehand, so places stay below the place of
the exit boundary if there is room for all of them.
-/

namespace Dynarec

open List Position Subrange

def Subrange.isLiveAt (index : Nat) (sub : Subrange) : Bool :=
  sub.start ≤ (index : Position) && (index : Position) < sub.stop

namespace Allocation

/-! ## Subranges that keep apart -/

/-- The subranges of a segment, of which no two that keep one register overlap.  Those that start
between the boundaries last for at least one instruction. -/
structure Orderly (alloc : Allocation) (subs : List Subrange) : Prop where
  nodup : subs.Nodup
  apart : ∀ sub ∈ subs, ∀ other ∈ subs, sub ≠ other →
    alloc.registerOf sub = alloc.registerOf other → sub.overlaps other = false
  starts : ∀ sub ∈ subs, sub.start = .atEntry ∨ 0 ≤ sub.start
  lasts : ∀ sub ∈ subs, sub.start ≠ .atEntry → sub.start ≠ .atExit → sub.start < sub.stop

/-- The holders in front of an index: they began before it, and all do that began before it and
go on behind it. -/
structure Occupies (subs : List Subrange) (index : Nat) (holders : List Subrange) : Prop where
  began : ∀ sub ∈ holders, sub ∈ subs ∧ sub.start < (index : Position)
  holds : ∀ sub ∈ subs, sub.start < (index : Position) → sub.passes index → sub ∈ holders

variable {alloc : Allocation} {length total index : Nat}

theorem Orderly.occupies_entry (orderly : alloc.Orderly subs) :
    Occupies subs 0 (subs.filter (·.start = .atEntry)) := by
  constructor
  · intro sub mem
    rw [mem_filter, decide_eq_true_eq] at mem
    rw [mem.2]
    exact ⟨mem.1, by decide⟩
  · intro sub mem early _
    rw [mem_filter, decide_eq_true_eq]
    refine ⟨mem, (orderly.starts sub mem).resolve_right ?_⟩
    lia

theorem Occupies.mem_across_iff (occupies : Occupies subs index holders)
    (orderly : alloc.Orderly subs) (small : index < atExit) :
    sub ∈ across subs index holders ↔ sub ∈ subs ∧ sub.isLiveAt index = true := by
  simp only [across, mem_append, mem_filter, isLiveAt, startsAt,
    passes, Bool.and_eq_true, decide_eq_true_eq]
  constructor
  · rintro (⟨held, passes⟩ | ⟨mem, starts⟩)
    · obtain ⟨mem, early⟩ := occupies.began sub held
      exact ⟨mem, Int.le_of_lt early, passes⟩
    · refine ⟨mem, Int.le_of_eq starts, ?_⟩
      have lasts := orderly.lasts sub mem
      unfold atEntry at lasts
      lia
  · rintro ⟨mem, started, passes⟩
    by_cases starts : sub.start = (index : Position)
    · exact .inr ⟨mem, starts⟩
    · refine .inl ⟨?_, passes⟩
      exact occupies.holds sub mem (by lia) (decide_eq_true passes)

theorem Orderly.ne_of_isLiveAt (orderly : alloc.Orderly subs) (mem : sub ∈ subs)
    (otherMem : other ∈ subs) (live : sub.isLiveAt index) (otherLive : other.isLiveAt index)
    (ne : sub ≠ other) : alloc.registerOf sub ≠ alloc.registerOf other := by
  intro same
  have apart := orderly.apart sub mem other otherMem ne same
  have overlap : sub.overlaps other := by
    simp only [isLiveAt, Bool.and_eq_true, decide_eq_true_eq] at live otherLive
    exact overlaps_iff.mpr (.inl ⟨by lia, by lia⟩)
  rw [overlap] at apart
  cases apart

theorem Occupies.distinct_across (occupies : Occupies subs index holders)
    (orderly : alloc.Orderly subs) (small : index < atExit) (nodup : holders.Nodup) :
    (across subs index holders).Pairwise fun sub other =>
      alloc.registerOf sub ≠ alloc.registerOf other := by
  refine List.Nodup.pairwise_of_forall_ne ?_ fun sub held other otherHeld ne => ?_
  · refine nodup_append.mpr ⟨nodup.filter _, orderly.nodup.filter _, ?_⟩
    rintro sub held other starts rfl
    have early := (occupies.began sub (mem_of_mem_filter held)).2
    have late := (mem_filter.mp starts).2
    rw [startsAt, decide_eq_true_eq] at late
    lia
  · obtain ⟨mem, live⟩ := (occupies.mem_across_iff orderly small).mp held
    obtain ⟨otherMem, otherLive⟩ := (occupies.mem_across_iff orderly small).mp otherHeld
    exact orderly.ne_of_isLiveAt mem otherMem live otherLive ne

/-! ## Insertions that are due -/

/-- The subranges that start at an index or behind it. -/
def ahead (subs : List Subrange) (index : Nat) : List Subrange :=
  subs.filter fun sub => (index : Position) ≤ sub.start

/-- How many stores and loads come from an index on: holders are stored, and subranges that start
there are loaded and stored, those that start at the exit only loaded. -/
def due (subs : List Subrange) (index : Nat) (holders : List Subrange) : Nat :=
  holders.countP (·.hasStore) +
    (ahead subs index).countP (fun sub => sub.start ≠ .atExit && sub.hasStore) +
    (ahead subs index).countP (!·.noLoad)

/-- How many stores and loads some subranges of a segment call for.  No load is needed at the
entry, and no store by what starts at the exit. -/
def insertions (subs : List Subrange) : Nat :=
  subs.countP (fun sub => sub.start ≠ .atExit && sub.hasStore) +
    subs.countP (fun sub => sub.start ≠ .atEntry && !sub.noLoad)

theorem length_storesOf (alloc : Allocation) (subs : List Subrange) :
    (alloc.storesOf subs).length = subs.countP (·.hasStore) := by
  rw [storesOf, length_map, countP_eq_length_filter]

theorem length_loadsOf (alloc : Allocation) (subs : List Subrange) :
    (alloc.loadsOf subs).length = subs.countP (!·.noLoad) := by
  rw [loadsOf, length_map, countP_eq_length_filter]

theorem countP_ahead (holds : Subrange → Bool) (subs : List Subrange) (index : Nat) :
    (ahead subs index).countP holds = (subs.filter (·.startsAt index)).countP holds +
        (ahead subs (index + 1)).countP holds := by
  rw [countP_eq_countP_filter_add _ _ (·.startsAt index), ahead, filter_filter,
    filter_filter, ahead]
  congr 3 <;> grind [startsAt]

theorem due_eq (alloc : Allocation) (small : index < atExit) :
    due subs index holders = (alloc.boundaryCode subs index holders).length +
      due subs (index + 1) (across subs index holders) := by
  have stays : (subs.filter (·.startsAt index)).countP (fun sub =>
      sub.start ≠ .atExit && sub.hasStore) =
      (subs.filter (·.startsAt index)).countP (·.hasStore) := by
    refine countP_congr fun sub mem => ?_
    have starts := (mem_filter.mp mem).2
    rw [startsAt, decide_eq_true_eq] at starts
    have inside : sub.start ≠ .atExit := by lia
    simp [inside]
  have held := countP_eq_countP_filter_add holders (·.hasStore) (·.passes index)
  rw [due, due, across, boundaryCode, length_append, length_storesOf, length_loadsOf,
    countP_append, countP_ahead _ subs index, countP_ahead _ subs index, stays, held]
  lia

theorem Orderly.due_entry (orderly : alloc.Orderly subs) :
    due subs 0 (subs.filter (·.start = .atEntry)) = insertions subs := by
  have behind : ahead subs 0 = subs.filter (fun sub => !decide (sub.start = .atEntry)) := by
    refine filter_congr fun sub mem => ?_
    have starts := orderly.starts sub mem
    unfold atEntry at starts ⊢
    lia
  have stays : (subs.filter (·.start = .atEntry)).countP (fun sub =>
      sub.start ≠ .atExit && sub.hasStore) =
      (subs.filter (·.start = .atEntry)).countP (·.hasStore) := by
    refine countP_congr fun sub mem => ?_
    have starts := (mem_filter.mp mem).2
    rw [decide_eq_true_eq] at starts
    simp [starts, atEntry, atExit]
  have loads : subs.countP (fun sub => sub.start ≠ .atEntry && !sub.noLoad) =
      (ahead subs 0).countP (!·.noLoad) := by
    rw [behind, countP_filter]
    exact countP_congr fun sub _ => by simp [and_comm]
  rw [due, insertions, loads, ← stays, behind, ← countP_eq_countP_filter_add]

theorem Seats.due_exit (seats : alloc.Seats length subs) (small : length < atExit) :
    due subs (length + 1) holders = (alloc.storesOf holders ++
        alloc.loadsOf (subs.filter (·.start = .atExit))).length := by
  have behind : ahead subs (length + 1) = subs.filter (·.start = .atExit) := by
    refine filter_congr fun sub mem => ?_
    have starts := seats.start_lt sub mem
    lia
  have stored : (subs.filter (·.start = .atExit)).countP (fun sub =>
      sub.start ≠ .atExit && sub.hasStore) = 0 := by
    rw [countP_eq_zero]
    intro sub mem
    have starts := (mem_filter.mp mem).2
    simp [starts]
  rw [due, behind, stored, length_append, length_storesOf, length_loadsOf, Nat.add_zero]

/-! ## Steps that succeed -/

theorem exists_bind (seg : SegmentId) (free : walk.operandOf (alloc.registerOf sub) = none) :
    ∃ after, alloc.bind seg walk sub = .ok after := by
  refine ⟨_, if_neg ?_⟩
  rw [registerOf] at free
  simp [free]

theorem exists_begin (seg : SegmentId) (boundary slot : Nat)
    (free : walk.operandOf (alloc.registerOf sub) = none) :
    ∃ after, alloc.begin seg boundary slot sub walk = .ok after := by
  refine exists_bind seg ?_
  cases sub.noLoad with
  | true => exact free
  | false => exact free

/-- The subranges that start at the index can begin if their registers are free and there is
room for their loads. -/
theorem Walking.exists_beginAt (walking : alloc.Walking subs index slots walk.holders walk)
    (seats : alloc.Seats length subs) (inside : index ≤ length) (before : boundary ≤ index)
    (nodup : slots.Nodup) (distinct : (walk.holders ++
      (slots.filterMap (subs[·]?)).filter (·.startsAt index)).Pairwise fun sub other =>
        alloc.registerOf sub ≠ alloc.registerOf other)
    (room : length + (walk.count +
      ((slots.filterMap (subs[·]?)).filter (·.startsAt index)).countP (!·.noLoad) : Nat) < atExit) :
    ∃ after, alloc.beginAt seg boundary index slots walk = .ok after ∧
      length + after.count < atExit := by
  induction slots generalizing walk with
  | nil => exact ⟨walk, rfl, by simpa using room⟩
  | cons slot slots ih =>
    obtain ⟨fresh, nodup⟩ := nodup_cons.mp nodup
    unfold Allocation.beginAt
    rw [walking.subranges_eq, getElem?_toArray]
    cases found : subs[slot]? with
    | none =>
      rw [filterMap_cons_none found] at distinct room
      exact ih walking.looked nodup distinct room
    | some sub =>
      obtain ⟨start, present, -, tracks⟩ := walking.starts found
      have here := (tracks mem_cons_self).eq_place_iff (by lia)
      rw [filterMap_cons_some found] at distinct room
      simp only [present, Walk.placeOf_eq, here]
      by_cases starts : sub.start = (index : Position)
      · have startsAt : sub.startsAt index = true := decide_eq_true starts
        rw [filter_cons_of_pos startsAt] at distinct room
        rw [if_pos starts]
        have free := walking.free (alloc.registerOf sub) fun holder held =>
          (pairwise_append.mp distinct).2.2 holder held sub mem_cons_self
        obtain ⟨next, begun⟩ := exists_begin seg boundary slot free
        obtain ⟨bound, extended, holders⟩ :=
          walking.begin seats inside (by lia) before fresh found starts begun
        rw [← holders] at bound
        rw [begun]
        refine ih bound nodup ?_ ?_
        · rwa [holders, append_assoc, singleton_append]
        · rw [← singleton_append, countP_append] at room
          rw [extended.count_eq, length_loadsOf]
          lia
      · rw [if_neg starts]
        rw [filter_cons_of_neg (by simpa [startsAt] using starts)] at distinct room
        exact ih walking.looked nodup distinct room

theorem count_foldl_expire_le (alloc : Allocation) (boundary index : Nat) (slots : List Nat)
    (walk : Walk) :
    (slots.foldl (alloc.expire boundary index) walk).count ≤
      walk.count + (slots.filterMap (walk.subranges[·]?)).countP (·.hasStore) := by
  induction slots generalizing walk with
  | nil => exact Nat.le_refl _
  | cons slot slots ih =>
    have further := ih (alloc.expire boundary index walk slot)
    rw [(moves_expire (Nat.le_refl boundary) alloc index walk slot).grows.1] at further
    have here : (alloc.expire boundary index walk slot).count ≤
        walk.count + (walk.subranges[slot]?.toList).countP (·.hasStore) := by
      unfold expire
      split
      next sub stop found _ =>
        split
        · exact Nat.le_add_right _ _
        · rw [(extends_finish alloc boundary walk sub).1.count_eq, length_storesOf, found]
          exact Nat.le_refl _
      · exact Nat.le_add_right _ _
    have together : (slot :: slots).filterMap (walk.subranges[·]?) =
        walk.subranges[slot]?.toList ++ slots.filterMap (walk.subranges[·]?) := by
      cases found : walk.subranges[slot]? <;> simp [found]
    rw [foldl_cons, together, countP_append]
    lia

/-- A boundary can be crossed if no register is held twice behind it and there is room for all
that may be inserted. -/
theorem Walking.exists_crossBoundary
    (walking : alloc.Walking subs index (List.range subs.length) walk.holders walk)
    (seg : SegmentId) (seats : alloc.Seats length subs) (inside : index ≤ length)
    (before : boundary ≤ index)
    (distinct : (across subs index walk.holders).Pairwise fun sub other =>
      alloc.registerOf sub ≠ alloc.registerOf other)
    (room : length + (walk.count + walk.holders.countP (·.hasStore) +
      (subs.filter (·.startsAt index)).countP (!·.noLoad) : Nat) < atExit) :
    ∃ after, alloc.crossBoundary seg (List.range subs.length) boundary index walk = .ok after ∧
      length + after.count < atExit := by
  have most : (walk.live.foldl (alloc.expire boundary index) { walk with live := [] }).count ≤
      walk.count + walk.holders.countP (·.hasStore) :=
    count_foldl_expire_le alloc boundary index walk.live { walk with live := [] }
  obtain ⟨expired, -, kept⟩ := walking.foldl_live seats inside before rfl (by lia)
  refine expired.exists_beginAt seats inside before nodup_range ?_ ?_
  · rwa [filterMap_range_getElem?, kept]
  · rw [filterMap_range_getElem?]
    lia

theorem Walking.rehost_eq_ok (walking : alloc.Walking subs index [] holders walk)
    (held : ∀ reg ∈ instr.operands, ∃ sub ∈ holders, alloc.registerOf sub = reg) :
    Allocation.rehost seg index walk instr = .ok (instr.mapRegisters walk.operandOf) := by
  have none : instr.operands.reverse.find? (fun reg =>
      (walk.operandOf reg).isNone) = none := by
    rw [find?_eq_none]
    intro reg listed
    obtain ⟨sub, mem, rfl⟩ := held reg (mem_reverse.mp listed)
    simp [walking.held sub mem]
  rw [Allocation.rehost, none]

/-- The subranges that start at the entry can be bound if no register is held twice. -/
theorem Walking.exists_foldlM_enter {waiting slots : List Nat}
    (walking : alloc.Walking subs index waiting walk.holders walk)
    (seats : alloc.Seats length subs) (distinct : (walk.holders ++
      (slots.filterMap (subs[·]?)).filter (·.start = .atEntry)).Pairwise fun sub other =>
        alloc.registerOf sub ≠ alloc.registerOf other) :
    ∃ after, slots.foldlM (fun (walk : Walk) (slot : Nat) =>
      match subs.toArray[slot]? with
      | none => Except.ok walk
      | some sub =>
        if sub.start = atEntry then alloc.bind seg { walk with live := walk.live ++ [slot] } sub
        else .ok walk) walk = .ok after := by
  induction slots generalizing walk with
  | nil => exact ⟨walk, rfl⟩
  | cons slot slots ih =>
    rw [foldlM_cons, getElem?_toArray]
    cases found : subs[slot]? with
    | none =>
      rw [filterMap_cons_none found] at distinct
      exact ih walking distinct
    | some sub =>
      rw [filterMap_cons_some found] at distinct
      by_cases starts : sub.start = .atEntry
      · rw [filter_cons_of_pos (by simpa using starts)] at distinct
        have joining : alloc.Walking subs index waiting walk.holders
            { walk with live := walk.live ++ [slot] } := { walking with }
        have free := joining.free (alloc.registerOf sub) fun holder held =>
          (pairwise_append.mp distinct).2.2 holder held sub mem_cons_self
        obtain ⟨after, bound⟩ := exists_bind seg free
        simp only [if_pos starts, bound]
        obtain ⟨next, table, rfl⟩ := joining.bind seats (mem_of_getElem? found) bound
        have holders : ({ walk with live := walk.live ++ [slot], bound := table } : Walk).holders =
            walk.holders ++ [sub] := by
          simp [Walk.holders, walking.subranges_eq, found]
        rw [← holders] at next
        refine ih next ?_
        rwa [holders, append_assoc, singleton_append]
      · rw [filter_cons_of_neg (by simpa using starts)] at distinct
        simp only [if_neg starts]
        exact ih walking distinct

theorem Orderly.exists_enter {seg : Segment} (orderly : alloc.Orderly (alloc.subrangesIn seg.id))
    (seats : alloc.Seats length (alloc.subrangesIn seg.id)) :
    ∃ walk, alloc.enter seg = .ok walk := by
  unfold Allocation.enter
  dsimp only
  rw [size_toArray]
  generalize alloc.subrangesIn seg.id = subs at orderly seats ⊢
  refine (walking_start alloc subs seg.points).exists_foldlM_enter seats ?_
  rw [filterMap_range_getElem?]
  refine (orderly.nodup.filter _).pairwise_of_forall_ne ?_
  intro sub mem other otherMem ne same
  rw [mem_filter, decide_eq_true_eq] at mem otherMem
  have apart := orderly.apart sub mem.1 other otherMem.1 ne same
  rw [overlaps_iff.mpr (.inr (.inl ⟨mem.2, otherMem.2⟩))] at apart
  cases apart

theorem Walking.exists_leave (walking : alloc.Walking subs index [] walk.holders walk)
    (seg : SegmentId) (seats : alloc.Seats length subs) (inside : length ≤ index)
    (room : index + walk.count < atExit) (leaves : ∀ sub ∈ walk.holders, sub.stop = .atExit)
    (last : Nat) : ∃ after, alloc.leave seg last walk = .ok after := by
  have all : (walk.live.filterMap (walk.placed[·]?)).find? (·.stop ≠ .atExit) = none := by
    rw [find?_eq_none]
    intro sub mem
    obtain ⟨slot, live, placed⟩ := mem_filterMap.mp mem
    cases found : subs[slot]? with
    | none =>
      rw [getElem?_placed, walking.subranges_eq, getElem?_toArray, found] at placed
      cases placed
    | some original =>
      obtain ⟨start, stop, present, -, stops⟩ := walking.atExit_iff seats inside room found
      cases placed.symm.trans present
      have held : original ∈ walk.holders := by
        refine mem_filterMap.mpr ⟨slot, live, ?_⟩
        rw [walking.subranges_eq, getElem?_toArray, found]
      simpa using stops.mpr (leaves original held)
  unfold Allocation.leave
  dsimp only
  rw [all]
  exact ⟨_, rfl⟩

/-! ## Whole walks -/

/-- A walk that has reached an index and makes the given number of insertions in all. -/
structure Underway (alloc : Allocation) (subs : List Subrange) (total index : Nat)
    (walk : Walk) : Prop where
  walking : alloc.Walking subs index (List.range subs.length) walk.holders walk
  occupies : Occupies subs index walk.holders
  count_eq : walk.count + due subs index walk.holders = total

/-- A walk that is behind the boundary in front of an index, where exactly the subranges that are
live at the index hold their registers. -/
structure Crossed (alloc : Allocation) (subs : List Subrange) (total index : Nat)
    (walk : Walk) : Prop where
  walking : alloc.Walking subs index [] walk.holders walk
  mem_holders : ∀ {sub}, sub ∈ walk.holders ↔ sub ∈ subs ∧ sub.isLiveAt index = true
  count_eq : walk.count + due subs (index + 1) walk.holders = total

/-- Every operand of the instruction with an index lies in a subrange that is live there. -/
def Provides (alloc : Allocation) (subs : List Subrange) (index : Nat)
    (instr : Instruction Register) : Prop :=
  ∀ reg ∈ instr.operands, ∃ sub ∈ subs,
    alloc.registerOf sub = reg ∧ sub.isLiveAt index

/-- Every operand of the instruction with an index becomes the host register of a subrange that
is live there. -/
def Replaces (alloc : Allocation) (subs : List Subrange) (index : Nat)
    (instr instruction' : Instruction Register) : Prop :=
  ∃ image, instruction' = instr.mapRegisters image ∧
    ∀ reg ∈ instr.operands, ∃ sub ∈ subs,
      alloc.registerOf sub = reg ∧ sub.isLiveAt index ∧
        image reg = some (alloc.hostOf sub)

theorem Crossed.underway (crossed : alloc.Crossed subs total index walk) :
    alloc.Underway subs total (index + 1) walk := by
  refine ⟨crossed.walking.advance _, ⟨?_, ?_⟩, crossed.count_eq⟩
  · intro sub held
    obtain ⟨mem, live⟩ := crossed.mem_holders.mp held
    simp only [isLiveAt, Bool.and_eq_true, decide_eq_true_eq] at live
    exact ⟨mem, by lia⟩
  · intro sub mem early passes
    refine crossed.mem_holders.mpr ⟨mem, ?_⟩
    simp only [Subrange.passes, decide_eq_true_eq] at passes
    simp only [Subrange.isLiveAt, Bool.and_eq_true, decide_eq_true_eq]
    lia

theorem Crossed.exists_rehost (crossed : alloc.Crossed subs total index walk)
    (seg : SegmentId) (provided : alloc.Provides subs index instr) :
    ∃ instr', rehost seg index walk instr = .ok instr' ∧
      alloc.Replaces subs index instr instr' := by
  refine ⟨_, crossed.walking.rehost_eq_ok fun reg listed => ?_, walk.operandOf, rfl,
    fun reg listed => ?_⟩
  · obtain ⟨sub, mem, same, live⟩ := provided reg listed
    exact ⟨sub, crossed.mem_holders.mpr ⟨mem, live⟩, same⟩
  · obtain ⟨sub, mem, rfl, live⟩ := provided reg listed
    exact ⟨sub, mem, rfl, live, crossed.walking.held sub (crossed.mem_holders.mpr ⟨mem, live⟩)⟩

variable (seats : alloc.Seats length subs) (orderly : alloc.Orderly subs)
  (room : length + total < atExit)

include seats orderly room

theorem Underway.exists_crossBoundary (underway : alloc.Underway subs total index walk)
    (seg : SegmentId) (inside : index ≤ length) (before : boundary ≤ index) :
    ∃ after, alloc.crossBoundary seg (List.range subs.length) boundary index walk = .ok after ∧
      alloc.Crossed subs total index after := by
  obtain ⟨walking, occupies, count_eq⟩ := underway
  have small : index < atExit := by lia
  have nodup : walk.holders.Nodup :=
    walking.distinct.imp fun ne same => ne (congrArg alloc.registerOf same)
  have loads := countP_ahead (!·.noLoad) subs index
  have enough : walk.count + walk.holders.countP (·.hasStore) +
      (subs.filter (·.startsAt index)).countP (!·.noLoad) ≤ total := by
    rw [due] at count_eq
    lia
  obtain ⟨after, crossed, fits⟩ := walking.exists_crossBoundary seg seats inside before
    (occupies.distinct_across orderly small nodup) (by lia)
  obtain ⟨begun, extended, holders⟩ := walking.crossBoundary seats inside before crossed fits
  refine ⟨after, crossed, begun, ?_, ?_⟩
  · rw [holders]
    exact occupies.mem_across_iff orderly small
  · rw [holders, extended.count_eq, ← count_eq, due_eq alloc small]
    lia

/-- A walk over code whose operands lie in live subranges reaches the end of the code. -/
theorem Underway.exists_walkCode (underway : alloc.Underway subs total index walk)
    (seg : SegmentId) (last : Nat) (behind : index + code.length = length)
    (provides : ∀ place instr, code[place]? = some instr →
      alloc.Provides subs (index + place) instr) :
    ∃ code' after, alloc.walkCode seg (List.range subs.length) last index code walk =
        .ok (code', after) ∧
      alloc.Crossed subs total length after ∧
      ∀ place instr, code[place]? = some instr → ∃ instr', code'[place]? = some instr' ∧
          alloc.Replaces subs (index + place) instr instr' := by
  induction code generalizing index walk with
  | nil =>
    obtain ⟨after, done, crossed⟩ := underway.exists_crossBoundary seats orderly room seg
      (by lia) (Nat.min_le_left index last)
    subst behind
    refine ⟨[], after, ?_, crossed, fun _ _ found => nomatch found⟩
    rw [walkCode, bind_eq_of_eq_ok done]
    rfl
  | cons instr code ih =>
    rw [length_cons] at behind
    obtain ⟨middle, done, crossed⟩ := underway.exists_crossBoundary seats orderly room seg
      (by lia) (Nat.min_le_left index last)
    obtain ⟨instr', rehosted, replaces⟩ := crossed.exists_rehost seg (provides 0 instr rfl)
    obtain ⟨code', after, walked, final, replaced⟩ := ih crossed.underway
      (by lia) fun place other found => by
        rw [Nat.add_right_comm]
        exact provides (place + 1) other found
    refine ⟨instr' :: code', after, ?_, final, fun place other found => ?_⟩
    · rw [walkCode, bind_eq_of_eq_ok done, bind_eq_of_eq_ok rehosted, bind_eq_of_eq_ok walked]
      rfl
    · cases place with
      | zero =>
        cases found
        exact ⟨instr', rfl, replaces⟩
      | succ place =>
        have next := replaced place other found
        rwa [Nat.add_right_comm] at next

omit orderly in
theorem Crossed.exists_leave (crossed : alloc.Crossed subs total length walk) (seg : SegmentId)
    (last : Nat) : ∃ after, alloc.leave seg last walk = .ok after ∧ after.count = total := by
  have walking := crossed.walking
  have count_eq := crossed.count_eq
  have leaves : ∀ sub ∈ walk.holders, sub.stop = .atExit := by
    intro sub held
    obtain ⟨mem, live⟩ := crossed.mem_holders.mp held
    have stop := seats.stop_le sub mem
    simp only [isLiveAt, Bool.and_eq_true, decide_eq_true_eq] at live
    lia
  obtain ⟨after, done⟩ := walking.exists_leave seg seats (Nat.le_refl length) (by lia) leaves last
  obtain ⟨extended, -⟩ := walking.leave seats (Nat.le_refl length) (by lia) done
  refine ⟨after, done, ?_⟩
  rw [extended.count_eq, ← seats.due_exit (by lia), count_eq]

/-- The walk over a segment succeeds if there is room for all insertions, no two subranges of one
register overlap and every operand lies in a live subrange. -/
theorem exists_walk (last : Nat) (listed : alloc.subrangesIn seg.id = subs)
    (length_eq : seg.length = length) (total_eq : insertions subs = total)
    (provides : ∀ place instr, seg.instructions[place]? = some instr →
      alloc.Provides subs place instr) :
    ∃ entered code walked left, alloc.enter seg = .ok entered ∧
      alloc.walkCode seg.id (List.range entered.subranges.size) last 0
        seg.instructions entered = .ok (code, walked) ∧
      alloc.leave seg.id last walked = .ok left ∧ left.insertions.length = total ∧
      ∀ place instr, seg.instructions[place]? = some instr → ∃ instr', code[place]? = some instr' ∧
          alloc.Replaces subs place instr instr' := by
  subst listed
  obtain ⟨entered, enter⟩ := orderly.exists_enter seats
  obtain ⟨walking, none, zero, holders⟩ := walking_enter seats enter
  have underway : alloc.Underway (alloc.subrangesIn seg.id) total 0 entered := by
    refine ⟨walking, holders ▸ orderly.occupies_entry, ?_⟩
    rw [zero, holders, orderly.due_entry, Nat.zero_add, total_eq]
  obtain ⟨code, walked, walk, crossed, replaced⟩ := underway.exists_walkCode seats orderly room
    seg.id last ((Nat.zero_add _).trans length_eq) fun place instr found => by
      rw [Nat.zero_add]
      exact provides place instr found
  obtain ⟨left, leave, count_eq⟩ := crossed.exists_leave seats room seg.id last
  refine ⟨entered, code, walked, left, enter, ?_, leave, ?_, fun place instr found => ?_⟩
  · rwa [walking.subranges_eq, size_toArray]
  · obtain ⟨-, added, added_eq, more⟩ :=
      (moves_walkCode walk).1.grows.trans (moves_leave leave).grows
    rw [added_eq, none, append_nil]
    lia
  · have known := replaced place instr found
    rwa [Nat.zero_add] at known

end Allocation
end Dynarec
