import Dynarec.Proofs.Allocation.Moves

/-!
# The walk over a segment

The walk that puts loads and stores into a segment keeps the present places of
all subranges.  Seen from the original places, it does something simple: in
front of each instruction it ends the subranges that stop there, with stores,
and begins those that start there, with loads.  This holds as long as the
places of instructions stay below the place of the exit boundary.
-/

namespace Dynarec

open List Option Position

namespace Position

theorem wrap_eq (lower : atEntry ≤ number) (upper : number ≤ atExit) : wrap number = number := by
  unfold atEntry at lower
  unfold atExit at upper
  rw [wrap, Int64.toInt_ofInt, Int.bmod_eq_of_le] <;> simp <;> lia

theorem wrap_succ (lower : 0 ≤ pos) (upper : pos < atExit) : wrap (pos + (1 : Nat)) = pos + 1 :=
  wrap_eq (by unfold atEntry; lia) (by push_cast; lia)

/-- Where a place is found when a walk with `count` insertions has reached an index: the exit
stays, places from the index on have moved, and others lie before it. -/
inductive Tracks (index count : Nat) (orig present : Position) : Prop
  | exit (exit : orig = .atExit) (kept : present = .atExit)
  | ahead (inside : orig ≠ .atExit) (ahead : index ≤ orig) (moved : present = orig + count)
  | behind (inside : orig ≠ .atExit) (behind : orig < index) (passed : present < index + count)

namespace Tracks

variable {index count : Nat} (tracks : Tracks index count orig present)

include tracks

theorem eq_place_iff (small : index + count < atExit) : present = index + count ↔ orig = index := by
  cases tracks <;> lia

theorem place_lt_iff (small : index + count < atExit) : index + count < present ↔ index < orig := by
  cases tracks <;> lia

theorem eq_exit_iff (small : index + count ≤ atExit)
    (passed : orig ≠ atExit → orig < index) : present = atExit ↔ orig = atExit := by
  cases tracks <;> lia

theorem succ : Tracks (index + 1) count orig present := by
  cases tracks with
  | exit exit kept => exact .exit exit kept
  | ahead inside ahead moved =>
    by_cases here : orig = index
    · exact .behind inside (by lia) (by lia)
    · exact .ahead inside (by lia) moved
  | behind inside behind passed => exact .behind inside (by lia) (by lia)

theorem pred (inside : orig ≠ atExit) (passed : orig < index) :
    Tracks index count orig (present - 1) := by
  cases tracks with
  | exit exit _ => exact absurd exit inside
  | ahead _ ahead _ => exact absurd passed (by lia)
  | behind _ _ before => exact .behind inside passed (by lia)

theorem insert (small : index + count ≤ atExit) (room : orig ≠ atExit → orig + count < atExit)
    (before : boundary ≤ index) :
    Tracks index (count + 1) orig (present.afterInsert (boundary + count) 1) := by
  cases tracks with
  | exit exit kept =>
    refine .exit exit ?_
    rw [kept]
    rfl
  | ahead inside ahead moved =>
    refine .ahead inside ahead ?_
    have ordinary : present.isSentinel = false := by
      simp only [isSentinel, Bool.or_eq_false_iff, decide_eq_false_iff_not, atEntry]
      lia
    rw [afterInsert, ordinary, if_pos, wrap_succ (by lia) (by lia)]
    · push_cast
      lia
    · simp only [Bool.not_false, Bool.true_and, decide_eq_true_eq]
      lia
  | behind inside behind passed =>
    refine .behind inside behind ?_
    rw [afterInsert]
    split
    next shifted =>
      rw [wrap_succ (by lia) (by lia)]
      lia
    · push_cast
      lia

end Tracks
end Position

namespace Subrange

/-- Whether a subrange goes on behind an index. -/
def passes (index : Nat) (sub : Subrange) : Bool :=
  (index : Position) < sub.stop

def startsAt (index : Nat) (sub : Subrange) : Bool :=
  sub.start = (index : Position)

end Subrange

namespace Allocation

/-- Subranges of a segment with `length` instructions: their registers are in the table, they
hold registers of the host, they start in front of an instruction, and they do not reach behind
the last one. -/
structure Seats (alloc : Allocation) (length : Nat) (subs : List Subrange) : Prop where
  register_bounds : ∀ sub ∈ subs, 0 ≤ alloc.registerOf sub ∧
    alloc.registerOf sub < alloc.graph.slots.length
  operand_eq : ∀ sub ∈ subs, hostOperand (alloc.hostOf sub) = some (alloc.hostOf sub)
  start_lt : ∀ sub ∈ subs, sub.start ≠ .atExit → sub.start < length
  stop_le : ∀ sub ∈ subs, sub.stop ≠ .atExit → sub.stop ≤ length

/-- A walk that has reached an index, with the subranges that hold a register.  The starts of
the waiting ones are still to be looked at there. -/
structure Walking (alloc : Allocation) (subs : List Subrange) (index : Nat)
    (waiting : List Nat) (holders : List Subrange) (walk : Walk) : Prop where
  subranges_eq : walk.subranges = subs.toArray
  starts : ∀ {slot sub}, subs[slot]? = some sub → ∃ start, walk.starts[slot]? = some start ∧
      Position.Tracks (index + 1) walk.count sub.start start ∧
      (slot ∈ waiting → Position.Tracks index walk.count sub.start start)
  stops : ∀ {slot : Nat} {sub}, subs[slot]? = some sub →
    ∃ stop, walk.stops[slot]? = some stop ∧ Position.Tracks index walk.count sub.stop stop
  size_eq : walk.bound.size = alloc.graph.slots.length
  members : holders ⊆ subs
  held : ∀ sub ∈ holders, walk.operandOf (alloc.registerOf sub) = some (alloc.hostOf sub)
  free : ∀ reg, (∀ sub ∈ holders, alloc.registerOf sub ≠ reg) → walk.operandOf reg = none
  distinct : holders.Pairwise fun sub other =>
    alloc.registerOf sub ≠ alloc.registerOf other

variable {alloc : Allocation} {length index : Nat} {after : Walk}

/-- An insertion at or before the index keeps track of all places. -/
theorem Walking.inserted (walking : alloc.Walking subs index waiting holders walk)
    (seats : alloc.Seats length subs) (inside : index ≤ length)
    (room : length + walk.count < atExit) (before : boundary ≤ index)
    (inserted : walk.Inserted boundary instruction after) :
    alloc.Walking subs index waiting holders after where
  subranges_eq := inserted.subranges_eq.trans walking.subranges_eq
  starts := by
    intro slot sub found
    obtain ⟨start, present, next, here⟩ := walking.starts found
    have below := seats.start_lt sub (mem_of_getElem? found)
    refine ⟨start.afterInsert (boundary + walk.count) 1, ?_, ?_, ?_⟩
    · rw [inserted.starts_eq, Array.getElem?_map, present, map_some]
    · rw [inserted.count_eq]
      exact next.insert (by push_cast; lia) (by lia) (by lia)
    · intro waits
      rw [inserted.count_eq]
      exact (here waits).insert (by lia) (by lia) before
  stops := by
    intro slot sub found
    obtain ⟨stop, present, here⟩ := walking.stops found
    have below := seats.stop_le sub (mem_of_getElem? found)
    refine ⟨stop.afterInsert (boundary + walk.count) 1, ?_, ?_⟩
    · rw [inserted.stops_eq, Array.getElem?_map, present, map_some]
    · rw [inserted.count_eq]
      exact here.insert (by lia) (by lia) before
  size_eq := by rw [inserted.bound_eq, walking.size_eq]
  members := walking.members
  held := by
    intro sub mem
    rw [Walk.operandOf, inserted.bound_eq]
    exact walking.held sub mem
  free := by
    intro reg unheld
    rw [Walk.operandOf, inserted.bound_eq]
    exact walking.free reg unheld
  distinct := walking.distinct

theorem operandOf_setIfInBounds (walk : Walk) {reg : Register} (nonneg : 0 ≤ reg)
    (operand : Option Register) (inside : reg < walk.bound.size ∨ operand = none)
    (other : Register) :
    ({ walk with bound := walk.bound.setIfInBounds reg.toNat operand } : Walk).operandOf other =
      if reg = other then operand else walk.operandOf other := by
  simp only [Walk.operandOf, Array.getD_eq_getD_getElem?, Array.getElem?_setIfInBounds]
  by_cases equal : reg = other
  · subst equal
    rw [if_neg (Int.not_lt.mpr nonneg), if_pos rfl, if_pos rfl]
    split
    · rfl
    · exact (inside.resolve_left (by lia)).symm
  · rw [if_neg equal]
    split
    · rfl
    · rw [if_neg (by lia)]

theorem extends_finish (alloc : Allocation) (boundary : Nat) (walk : Walk) (sub : Subrange) :
    walk.Extends boundary (alloc.storesOf [sub]) (alloc.finish boundary walk sub) ∧
      (alloc.finish boundary walk sub).live = walk.live := by
  unfold Allocation.finish storesOf
  cases stored : sub.hasStore with
  | false => exact ⟨by simpa [stored] using ⟨rfl, rfl, rfl⟩, rfl⟩
  | true =>
    have inserted := inserted_insertStore alloc boundary (walk.unbind (alloc.registerOf sub)) sub
    refine ⟨?_, inserted.live_eq⟩
    simp only [stored, filter_cons_of_pos, filter_nil, map_cons, map_nil]
    exact { inserted.extends with }

/-- A holder gives its register up. -/
theorem Walking.finish {kept rest : List Subrange}
    (walking : alloc.Walking subs index waiting (kept ++ sub :: rest) walk)
    (seats : alloc.Seats length subs) (inside : index ≤ length)
    (room : length + walk.count < atExit) (before : boundary ≤ index) :
    alloc.Walking subs index waiting (kept ++ rest) (alloc.finish boundary walk sub) := by
  have operand := operandOf_setIfInBounds walk
    (seats.register_bounds sub (walking.members (by simp))).1 none (.inr rfl)
  have apart := pairwise_append.mp walking.distinct
  have fewer : (kept ++ rest).Sublist (kept ++ sub :: rest) :=
    List.Sublist.append_left (sublist_cons_self sub rest) kept
  have unbound : alloc.Walking subs index waiting (kept ++ rest)
      (walk.unbind (alloc.registerOf sub)) := by
    constructor
    · exact walking.subranges_eq
    · exact walking.starts
    · exact walking.stops
    · simpa [Walk.unbind] using walking.size_eq
    · exact fun other mem => walking.members (fewer.subset mem)
    · intro other mem
      refine (operand _).trans ?_
      rw [if_neg]
      · exact walking.held other (fewer.subset mem)
      · cases mem_append.mp mem with
        | inl earlier => exact (apart.2.2 other earlier sub (by simp)).symm
        | inr later => exact (pairwise_cons.mp apart.2.1).1 other later
    · intro reg unheld
      refine (operand _).trans ?_
      split
      · rfl
      next ne =>
        refine walking.free reg fun other mem => ?_
        simp only [mem_append, mem_cons] at mem
        rcases mem with earlier | rfl | later
        · exact unheld other (by simp [earlier])
        · exact ne
        · exact unheld other (by simp [later])
    · exact walking.distinct.sublist fewer
  unfold Allocation.finish
  split
  · exact unbound.inserted seats inside room before (inserted_insertStore ..)
  · exact unbound

/-- The holders that stop in front of an index end there, in order. -/
theorem Walking.foldl_expire {slots : List Nat} (walking : alloc.Walking subs index waiting
      (walk.holders ++ slots.filterMap (subs[·]?)) walk) (seats : alloc.Seats length subs)
    (inside : index ≤ length) (before : boundary ≤ index)
    (room : length + (slots.foldl (alloc.expire boundary index) walk).count < atExit) :
    alloc.Walking subs index waiting
        (walk.holders ++ (slots.filterMap (subs[·]?)).filter (·.passes index))
        (slots.foldl (alloc.expire boundary index) walk) ∧
      walk.Extends boundary (alloc.storesOf ((slots.filterMap (subs[·]?)).filter (!·.passes index)))
        (slots.foldl (alloc.expire boundary index) walk) ∧
      (slots.foldl (alloc.expire boundary index) walk).holders =
        walk.holders ++ (slots.filterMap (subs[·]?)).filter (·.passes index) := by
  induction slots generalizing walk with
  | nil =>
    simp only [foldl_nil, filterMap_nil, filter_nil, append_nil] at walking ⊢
    exact ⟨walking, .refl boundary walk, trivial⟩
  | cons slot slots ih =>
    rw [foldl_cons] at room ⊢
    have expire := moves_expire (Nat.le_refl boundary) alloc index
    have more := (moves_foldl expire slots (alloc.expire boundary index walk slot)).grows.count_le
    have first := (expire walk slot).grows.count_le
    cases found : subs[slot]? with
    | none =>
      have same : alloc.expire boundary index walk slot = walk := by
        unfold Allocation.expire
        rw [walking.subranges_eq]
        simp [found]
      rw [same] at room ⊢
      rw [filterMap_cons_none found] at walking ⊢
      exact ih walking room
    | some sub =>
      obtain ⟨stop, present, tracks⟩ := walking.stops found
      have passes := tracks.place_lt_iff (by lia)
      have unfolded : alloc.expire boundary index walk slot =
          if sub.passes index then { walk with live := walk.live ++ [slot] }
          else alloc.finish boundary walk sub := by
        unfold Allocation.expire
        rw [walking.subranges_eq, getElem?_toArray, found, present]
        simp only [Walk.placeOf_eq, passes, Subrange.passes, decide_eq_true_eq]
      rw [filterMap_cons_some found] at walking ⊢
      rw [unfolded] at room first more ⊢
      by_cases goes : sub.passes index = true
      · have holders : ({ walk with live := walk.live ++ [slot] } : Walk).holders =
            walk.holders ++ [sub] := by
          simp [Walk.holders, walking.subranges_eq, found]
        rw [if_pos goes] at room ⊢
        obtain ⟨rest, further, equal⟩ := ih (by
          rw [holders, append_assoc]
          exact { walking with }) room
        rw [holders, append_assoc, singleton_append] at rest equal
        rw [filter_cons_of_pos goes, filter_cons_of_neg (by simp [goes])]
        exact ⟨rest, { further with }, equal⟩
      · have finished := walking.finish seats inside (by lia) before
        obtain ⟨extended, live⟩ := extends_finish alloc boundary walk sub
        have holders : (alloc.finish boundary walk sub).holders = walk.holders := by
          rw [Walk.holders, live, finished.subranges_eq, Walk.holders, walking.subranges_eq]
        rw [if_neg goes] at room ⊢
        rw [← holders] at finished
        obtain ⟨rest, further, equal⟩ := ih finished room
        rw [holders] at rest equal
        rw [filter_cons_of_neg goes, filter_cons_of_pos (by simp [goes])]
        refine ⟨rest, ?_, equal⟩
        have together := extended.trans further
        rwa [storesOf, storesOf, ← map_append, ← filter_append] at together

theorem Walking.bind (walking : alloc.Walking subs index waiting holders walk)
    (seats : alloc.Seats length subs) (mem : sub ∈ subs)
    (bound : alloc.bind seg walk sub = .ok after) :
    alloc.Walking subs index waiting (holders ++ [sub]) after ∧
      ∃ bound, after = { walk with bound } := by
  have bounds := seats.register_bounds sub mem
  rw [← walking.size_eq] at bounds
  unfold Allocation.bind at bound
  dsimp only at bound
  split at bound
  · cases bound
  next unbound =>
    have apart : ∀ other ∈ holders, alloc.registerOf other ≠ alloc.registerOf sub := by
      intro other earlier same
      have held := walking.held other earlier
      rw [same] at held
      exact unbound (isSome_iff_exists.mpr ⟨_, held⟩)
    cases bound
    have operand := operandOf_setIfInBounds walk bounds.1 (hostOperand (alloc.hostOf sub))
      (.inl bounds.2)
    refine ⟨?_, _, rfl⟩
    constructor
    · exact walking.subranges_eq
    · exact walking.starts
    · exact walking.stops
    · simpa using walking.size_eq
    · intro other listed
      cases mem_append.mp listed with
      | inl earlier => exact walking.members earlier
      | inr last => exact mem_singleton.mp last ▸ mem
    · intro other listed
      refine (operand _).trans ?_
      cases mem_append.mp listed with
      | inl earlier => rw [if_neg (apart other earlier).symm, walking.held other earlier]
      | inr last =>
        rw [mem_singleton.mp last, if_pos rfl, seats.operand_eq sub mem]
    · intro reg unheld
      refine (operand _).trans ?_
      rw [if_neg (unheld sub (by simp))]
      exact walking.free reg fun other earlier => unheld other (by simp [earlier])
    · refine pairwise_append.mpr ⟨walking.distinct, pairwise_singleton _ _, ?_⟩
      intro other earlier last listed
      rw [mem_singleton.mp listed]
      exact apart other earlier

theorem Walking.looked (walking : alloc.Walking subs index (slot :: waiting) holders walk) :
    alloc.Walking subs index waiting holders walk := by
  refine { walking with starts := ?_ }
  intro other sub found
  obtain ⟨start, present, next, here⟩ := walking.starts found
  exact ⟨start, present, next, fun waits => here (mem_cons_of_mem slot waits)⟩

theorem Walking.movedBack (walking : alloc.Walking subs index (slot :: waiting) holders walk)
    (small : index < atExit) (fresh : slot ∉ waiting) (found : subs[slot]? = some sub)
    (here : sub.start = index) :
    alloc.Walking subs index waiting holders
      { walk with starts := walk.starts.modify slot (· - 1) } := by
  refine { walking with starts := ?_ }
  intro other otherSub otherFound
  obtain ⟨start, present, next, waits⟩ := walking.starts otherFound
  rw [Array.getElem?_modify]
  by_cases equal : slot = other
  · subst equal
    cases some.inj (found.symm.trans otherFound)
    rw [if_pos rfl, present, map_some]
    exact ⟨start - 1, rfl, next.pred (by lia) (by lia), fun waits => absurd waits fresh⟩
  · rw [if_neg equal]
    exact ⟨start, present, next, fun later => waits (mem_cons_of_mem slot later)⟩

theorem Walking.begin (walking : alloc.Walking subs index (slot :: waiting) walk.holders walk)
    (seats : alloc.Seats length subs) (inside : index ≤ length)
    (room : length + walk.count < atExit) (before : boundary ≤ index)
    (fresh : slot ∉ waiting) (found : subs[slot]? = some sub) (here : sub.start = index)
    (begun : alloc.begin seg boundary slot sub walk = .ok after) :
    alloc.Walking subs index waiting (walk.holders ++ [sub]) after ∧
      walk.Extends boundary (alloc.loadsOf [sub]) after ∧
      after.holders = walk.holders ++ [sub] := by
  have mem := mem_of_getElem? found
  have joined {walk' : Walk} (same : walk'.subranges = subs.toArray)
      (live : walk'.live = walk.live ++ [slot]) : walk'.holders = walk.holders ++ [sub] := by
    simp [Walk.holders, same, live, walking.subranges_eq, found]
  unfold Allocation.begin at begun
  dsimp only at begun
  generalize alive : ({ walk with live := walk.live ++ [slot] } : Walk) = joining at begun
  have live : joining.live = walk.live ++ [slot] := by rw [← alive]
  have extended : walk.Extends boundary [] joining := by
    rw [← alive]
    exact ⟨rfl, rfl, rfl⟩
  have waited : alloc.Walking subs index (slot :: waiting) walk.holders joining := by
    rw [← alive]
    exact { walking with }
  unfold loadsOf
  cases loaded : sub.noLoad with
  | true =>
    rw [loaded, if_pos rfl] at begun
    obtain ⟨bound, table, rfl⟩ := waited.looked.bind seats mem begun
    refine ⟨bound, ?_, joined bound.subranges_eq live⟩
    simpa [loaded] using { extended with }
  | false =>
    rw [loaded, if_neg Bool.false_ne_true] at begun
    have inserted := inserted_insertLoad alloc boundary joining sub
    generalize alloc.insertLoad boundary joining sub = loading at inserted begun
    have small : length + joining.count < atExit := by
      rw [extended.count_eq]
      exact room
    have moved := waited.inserted seats inside small before inserted
    obtain ⟨bound, table, rfl⟩ := (moved.movedBack (by lia) fresh found here).bind seats mem begun
    refine ⟨bound, ?_, joined bound.subranges_eq (inserted.live_eq.trans live)⟩
    have together := extended.trans inserted.extends
    simpa [loaded] using { together with }

theorem Walking.beginAt (walking : alloc.Walking subs index slots walk.holders walk)
    (seats : alloc.Seats length subs) (inside : index ≤ length) (before : boundary ≤ index)
    (nodup : slots.Nodup) (begun : alloc.beginAt seg boundary index slots walk = .ok after)
    (room : length + after.count < atExit) :
    alloc.Walking subs index [] after.holders after ∧ walk.Extends boundary
        (alloc.loadsOf ((slots.filterMap (subs[·]?)).filter (·.startsAt index))) after ∧
      after.holders = walk.holders ++ (slots.filterMap (subs[·]?)).filter (·.startsAt index) := by
  induction slots generalizing walk with
  | nil =>
    cases begun
    exact ⟨walking, .refl boundary _, by simp⟩
  | cons slot slots ih =>
    obtain ⟨fresh, nodup⟩ := nodup_cons.mp nodup
    have more := (moves_beginAt (Nat.le_refl boundary) begun).grows.count_le
    unfold Allocation.beginAt at begun
    rw [walking.subranges_eq, getElem?_toArray] at begun
    cases found : subs[slot]? with
    | none =>
      rw [found] at begun
      rw [filterMap_cons_none found]
      exact ih walking.looked nodup begun
    | some sub =>
      obtain ⟨start, present, -, tracks⟩ := walking.starts found
      have here := (tracks mem_cons_self).eq_place_iff (by lia)
      rw [found, present] at begun
      simp only [Walk.placeOf_eq, here] at begun
      rw [filterMap_cons_some found]
      by_cases starts : sub.start = (index : Position)
      · rw [if_pos starts] at begun
        obtain ⟨next, first, rest⟩ := of_bind_eq_ok begun
        obtain ⟨bound, extended, holders⟩ :=
          walking.begin seats inside (by lia) before fresh found starts first
        rw [← holders] at bound
        obtain ⟨walked, further, equal⟩ := ih bound nodup rest
        rw [filter_cons_of_pos (by simpa [Subrange.startsAt] using starts)]
        refine ⟨walked, ?_, ?_⟩
        · have together := extended.trans further
          rwa [loadsOf, loadsOf, ← map_append, ← filter_append] at together
        · rw [equal, holders, append_assoc, singleton_append]
      · rw [if_neg starts] at begun
        rw [filter_cons_of_neg (by simpa [Subrange.startsAt] using starts)]
        exact ih walking.looked nodup begun

end Allocation
end Dynarec
