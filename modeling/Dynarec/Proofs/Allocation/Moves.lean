import Dynarec.Allocation.Materialize
import Dynarec.Proofs.Except
import Mathlib.Data.List.Forall2
import Mathlib.Logic.Relation

/-!
# The moves of a walk

Whatever the walk over a segment does, it does by moves of a few kinds: it
inserts a load or a store in front of the end, binds the register of a subrange,
gives a register up, or turns to other subranges.  What every move keeps, the
whole walk keeps.
-/

namespace Dynarec.Allocation

open List Walk

def registerOf (alloc : Allocation) (sub : Subrange) : Register :=
  (alloc.range sub.range).register

/-- The slot of the register that a subrange keeps. -/
def slotOf (alloc : Allocation) (sub : Subrange) : Slot :=
  (alloc.range sub.range).slot

def loadOf (alloc : Allocation) (sub : Subrange) : Instruction Register :=
  .loadSlot (hostOperand (alloc.hostOf sub)) (alloc.slotOf sub)

def storeOf (alloc : Allocation) (sub : Subrange) : Instruction Register :=
  .storeSlot (alloc.slotOf sub) (hostOperand (alloc.hostOf sub))

def storesOf (alloc : Allocation) (subs : List Subrange) : Code :=
  (subs.filter (·.hasStore)).map alloc.storeOf

def loadsOf (alloc : Allocation) (subs : List Subrange) : Code :=
  (subs.filter (!·.noLoad)).map alloc.loadOf

namespace Walk

/-- The insertions so far. -/
def count (walk : Walk) : Nat :=
  walk.loads + walk.stores

/-- The subranges that hold a register. -/
def holders (walk : Walk) : List Subrange :=
  walk.live.filterMap (walk.subranges[·]?)

theorem placeOf_eq (walk : Walk) (index : Nat) : walk.placeOf index = index + walk.count := by
  rw [placeOf, count]
  lia

/-- A walk with one more insertion. -/
structure Inserted (boundary : Nat) (instr : Instruction Register) (before after : Walk) :
    Prop where
  subranges_eq : after.subranges = before.subranges
  starts_eq : after.starts = before.starts.map (·.afterInsert (boundary + before.count) 1)
  stops_eq : after.stops = before.stops.map (·.afterInsert (boundary + before.count) 1)
  live_eq : after.live = before.live
  bound_eq : after.bound = before.bound
  insertions_eq : after.insertions = ⟨boundary, instr⟩ :: before.insertions
  count_eq : after.count = before.count + 1

structure Extends (boundary : Nat) (code : Code) (before after : Walk) : Prop where
  subranges_eq : after.subranges = before.subranges
  insertions_eq : after.insertions = (code.map (Insertion.mk boundary)).reverse ++ before.insertions
  count_eq : after.count = before.count + code.length

theorem Extends.refl (boundary : Nat) (walk : Walk) : Extends boundary [] walk walk :=
  ⟨rfl, rfl, rfl⟩

theorem Extends.trans (extend : Extends boundary code first second)
    (further : Extends boundary more second third) :
    Extends boundary (code ++ more) first third := by
  refine ⟨further.subranges_eq.trans extend.subranges_eq, ?_, ?_⟩
  · rw [further.insertions_eq, extend.insertions_eq]
    simp
  · rw [further.count_eq, extend.count_eq, length_append, Nat.add_assoc]

/-- A walk over the same subranges with more insertions. -/
def Grows (before after : Walk) : Prop :=
  after.subranges = before.subranges ∧ ∃ added, after.insertions = added ++ before.insertions ∧
    after.count = before.count + added.length

theorem Grows.refl (walk : Walk) : Grows walk walk := ⟨rfl, [], rfl, rfl⟩

theorem Grows.trans (grow : Grows first second) (further : Grows second third) :
    Grows first third := by
  obtain ⟨subranges_eq, added, insertions_eq, count_eq⟩ := grow
  obtain ⟨subranges_eq', more, insertions_eq', count_eq'⟩ := further
  refine ⟨subranges_eq'.trans subranges_eq, more ++ added, ?_, ?_⟩
  · rw [insertions_eq', insertions_eq, append_assoc]
  · rw [count_eq', count_eq, length_append]
    lia

theorem Grows.count_le {before after} (grows : Grows before after) :
    before.count ≤ after.count := by
  obtain ⟨-, added, -, count_eq⟩ := grows
  lia

theorem Extends.grows {before after} (extended : Extends boundary code before after) :
    Grows before after :=
  ⟨extended.subranges_eq, _, extended.insertions_eq, by simp [extended.count_eq]⟩

theorem Inserted.extends {before after} (inserted : Inserted boundary instr before after) :
    Extends boundary [instr] before after :=
  ⟨inserted.subranges_eq, inserted.insertions_eq, inserted.count_eq⟩

end Walk

theorem inserted_insert (walk : Walk) (boundary : Nat) (instr : Instruction Register)
    {loads stores} (counted : loads + stores = walk.count + 1) :
    walk.Inserted boundary instr { walk.insert boundary instr with loads, stores } := by
  refine ⟨rfl, ?_, ?_, rfl, rfl, rfl, counted⟩
  all_goals
    rw [← placeOf_eq]
    rfl

theorem inserted_insertLoad (alloc : Allocation) (boundary : Nat) (walk : Walk) (sub : Subrange) :
    walk.Inserted boundary (alloc.loadOf sub) (alloc.insertLoad boundary walk sub) :=
  inserted_insert walk boundary _ (Nat.add_right_comm ..)

theorem inserted_insertStore (alloc : Allocation) (boundary : Nat) (walk : Walk) (sub : Subrange) :
    walk.Inserted boundary (alloc.storeOf sub) (alloc.insertStore boundary walk sub) :=
  inserted_insert walk boundary _ rfl

/-- One move of a walk over a segment that ends behind `last` instructions. -/
inductive Move (alloc : Allocation) (last : Nat) : Walk → Walk → Prop
  | load {walk : Walk} {boundary : Nat} (sub : Subrange) (early : boundary ≤ last) :
      Move alloc last walk (alloc.insertLoad boundary walk sub)
  | store {walk : Walk} {boundary : Nat} (sub : Subrange) (early : boundary ≤ last) :
      Move alloc last walk (alloc.insertStore boundary walk sub)
  | bind {walk : Walk} (reg : Register) (sub : Subrange) : Move alloc last walk { walk with
          bound := walk.bound.setIfInBounds reg.toNat
            (hostOperand (alloc.hostOf sub)) }
  | unbind {walk : Walk} (reg : Register) : Move alloc last walk (walk.unbind reg)
  | turn {walk : Walk} (live : List Nat) (starts : Array Position) :
      Move alloc last walk { walk with live, starts }

/-- Moves one after another. -/
def Moves (alloc : Allocation) (last : Nat) : Walk → Walk → Prop :=
  Relation.ReflTransGen (alloc.Move last)

variable {slots : List Nat}

section

variable {alloc : Allocation} {last index : Nat} {after : Walk}

theorem Moves.grows (moves : alloc.Moves last walk after) : walk.Grows after := by
  induction moves with
  | refl => exact .refl walk
  | tail _ move ih =>
    refine ih.trans ?_
    cases move with
    | load sub => exact (inserted_insertLoad ..).extends.grows
    | store sub => exact (inserted_insertStore ..).extends.grows
    | bind | unbind | turn => exact .refl _

theorem moves_turn (walk : Walk) (live : List Nat)
    (moves : alloc.Moves last { walk with live } after) : alloc.Moves last walk after :=
  moves.head (.turn live walk.starts)

theorem moves_foldl {α : Type} {step}
    (moves : ∀ walk item, alloc.Moves last walk (step walk item)) (items : List α) (walk : Walk) :
    alloc.Moves last walk (items.foldl step walk) := by
  induction items generalizing walk with
  | nil => exact .refl
  | cons item items ih => exact (moves walk item).trans (ih _)

theorem moves_bind (bound : alloc.bind seg walk sub = .ok after) : alloc.Moves last walk after := by
  unfold bind at bound
  dsimp only at bound
  split at bound
  · cases bound
  · cases bound
    exact .single (.bind _ sub)

section

variable (early : boundary ≤ last)

include early

theorem moves_finish (walk : Walk) (sub : Subrange) :
    alloc.Moves last walk (alloc.finish boundary walk sub) := by
  unfold finish
  refine .head (.unbind (alloc.registerOf sub)) ?_
  split
  · exact .single (.store sub early)
  · exact .refl

theorem moves_expire (alloc : Allocation) (index : Nat) (walk : Walk) (slot : Nat) :
    alloc.Moves last walk (alloc.expire boundary index walk slot) := by
  unfold expire
  split
  · split
    · exact .single (.turn _ walk.starts)
    · exact moves_finish early walk _
  · exact .refl

theorem moves_begin (begun : alloc.begin seg boundary slot sub walk = .ok after) :
    alloc.Moves last walk after := by
  unfold begin at begun
  refine moves_turn walk (walk.live ++ [slot]) ?_
  split at begun
  · exact moves_bind begun
  · exact ((moves_bind begun).head (.turn _ _)).head (.load sub early)

theorem moves_beginAt (begun : alloc.beginAt seg boundary index slots walk = .ok after) :
    alloc.Moves last walk after := by
  fun_induction alloc.beginAt seg boundary index slots walk with
  | case1 walk =>
    cases begun
    exact .refl
  | case2 slot slots sub walk _ _ ih =>
    obtain ⟨next, first, rest⟩ := of_bind_eq_ok begun
    exact (moves_begin early first).trans (ih next rest)
  | case3 slot slots walk sub start _ _ elsewhere ih =>
    exact ih begun
  | case4 walk slot slots _ ih => exact ih begun

theorem moves_crossBoundary
    (crossed : alloc.crossBoundary seg slots boundary index walk = .ok after) :
    alloc.Moves last walk after :=
  moves_turn walk []
    ((moves_foldl (moves_expire early alloc index) walk.live _).trans (moves_beginAt early crossed))

end

theorem of_rehost_eq_ok (done : rehost seg index walk instr = .ok instr') :
    (∀ reg ∈ instr.operands, (walk.operandOf reg).isSome) ∧
      instr' = instr.mapRegisters walk.operandOf := by
  unfold rehost at done
  split at done
  · cases done
  next missing =>
    cases done
    refine ⟨fun reg member => ?_, rfl⟩
    have bound := find?_eq_none.mp missing reg (mem_reverse.mpr member)
    simpa [Option.isNone_iff_eq_none, Option.isSome_iff_ne_none] using bound

/-- Every instruction that a walk passes gets the registers that are bound at some time. -/
def Renamed (alloc : Allocation) (last : Nat) (start : Walk)
    (instr instruction' : Instruction Register) : Prop :=
  ∃ walk, alloc.Moves last start walk ∧
    (∀ reg ∈ instr.operands, (walk.operandOf reg).isSome) ∧
    instruction' = instr.mapRegisters walk.operandOf

theorem moves_walkCode (walked : alloc.walkCode seg slots last index code walk = .ok (code', after))
    : alloc.Moves last walk after ∧ List.Forall₂ (alloc.Renamed last walk) code code' := by
  induction code generalizing index walk code' with
  | nil =>
    obtain ⟨crossing, crossed, rest⟩ := of_bind_eq_ok walked
    cases rest
    exact ⟨moves_crossBoundary (Nat.min_le_right _ _) crossed, .nil⟩
  | cons instr code ih =>
    obtain ⟨crossing, crossed, rest⟩ := of_bind_eq_ok walked
    obtain ⟨rehosted, done, rest⟩ := of_bind_eq_ok rest
    obtain ⟨⟨code'', next⟩, further, rest⟩ := of_bind_eq_ok rest
    cases rest
    have first := moves_crossBoundary (Nat.min_le_right index last) crossed
    obtain ⟨moves, renamed⟩ := ih further
    refine ⟨first.trans moves, .cons ⟨crossing, first, of_rehost_eq_ok done⟩ ?_⟩
    exact renamed.imp fun _ _ ⟨between, moved, same⟩ => ⟨between, first.trans moved, same⟩

theorem moves_foldlM {step : Walk → Nat → Except Error Walk}
    (moves : ∀ {walk slot after}, step walk slot = .ok after → alloc.Moves last walk after)
    (done : slots.foldlM step walk = .ok after) : alloc.Moves last walk after := by
  induction slots generalizing walk with
  | nil =>
    cases done
    exact .refl
  | cons slot slots ih =>
    obtain ⟨next, first, rest⟩ := of_bind_eq_ok done
    exact (moves first).trans (ih rest)

theorem moves_enter {seg : Segment} (entered : alloc.enter seg = .ok walk) (last : Nat) :
    ∃ start : Walk, alloc.Moves last start walk ∧ start.insertions = [] ∧ start.loads = 0 ∧
      start.stores = 0 ∧ ∀ operand ∈ start.bound, operand = none := by
  refine ⟨_, moves_foldlM (fun {walk slot after} done => ?_) entered, rfl, rfl, rfl, by simp⟩
  split at done
  · cases done
    exact .refl
  · split at done
    · exact moves_turn walk _ (moves_bind done)
    · cases done
      exact .refl

theorem moves_leave (left : alloc.leave seg last walk = .ok after) :
    alloc.Moves last walk after := by
  unfold leave at left
  dsimp only at left
  split at left
  · cases left
  · cases left
    exact (moves_foldl (moves_finish (Nat.le_refl last)) _ walk).trans
      (moves_foldl (fun _ sub => .single (.load sub (Nat.le_refl last))) _ _)

end

end Dynarec.Allocation
