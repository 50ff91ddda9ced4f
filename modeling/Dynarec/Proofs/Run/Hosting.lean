import Dynarec.Proofs.Allocation.Materialize
import Dynarec.Proofs.Allocation.Sync
import Dynarec.Proofs.Graph.Slots
import Dynarec.Proofs.Run.Meaning

/-!
# Values in host registers

While a run with host registers is inside a segment, some subranges hold their
registers.  The value of a slot that none of them keeps is in storage.  The value
of a slot that one of them keeps is in its host register, unless it is written
before it is read, and if it is not in storage then it is stored later on every
path.  Stores, loads and instructions keep it so.
-/

namespace Dynarec

open Function List

/-- A cell holds what one of the items set it to, or no item sets it and it holds what it held. -/
theorem foldl_update_cases {ι α V : Type} [DecidableEq α] (cell : ι → α) (value : ι → V)
    (items : List ι) (contents : α → V) (place : α) :
    (∃ item ∈ items, cell item = place ∧
      items.foldl (fun contents item => update contents (cell item) (value item))
        contents place = value item) ∨
    ((∀ item ∈ items, cell item ≠ place) ∧
      items.foldl (fun contents item => update contents (cell item) (value item))
        contents place = contents place) := by
  induction items generalizing contents with
  | nil => exact .inr ⟨forall_mem_nil _, rfl⟩
  | cons first items ih =>
    rw [foldl_cons]
    rcases ih (update contents (cell first) (value first)) with
      ⟨item, listed, here, equal⟩ | ⟨none, equal⟩
    · exact .inl ⟨item, mem_cons_of_mem first listed, here, equal⟩
    · by_cases here : cell first = place
      · refine .inl ⟨first, mem_cons_self, here, ?_⟩
        rw [equal, ← here, update_self]
      · refine .inr ⟨forall_mem_cons.mpr ⟨here, none⟩, ?_⟩
        rw [equal, update_of_ne (Ne.symm here)]

namespace Allocation

section

variable {V E : Type} (meaning : Meaning V E) (visible : List SegmentId) {alloc : Allocation}

/-- The host registers of subranges can be written as operands. -/
def Hostable (alloc : Allocation) (subs : List Subrange) : Prop :=
  ∀ sub ∈ subs,
    hostOperand (alloc.hostOf sub) = some (alloc.hostOf sub)

/-- Storage behind the stores of subranges. -/
def stored (alloc : Allocation) (subs : List Subrange) (state : Hosted V E) : Slot → V :=
  (subs.filter (·.hasStore)).foldl (fun storage sub =>
    update storage (alloc.slotOf sub)
      (state.registers (alloc.hostOf sub))) state.storage

/-- Host registers behind the loads of subranges. -/
def loaded (alloc : Allocation) (subs : List Subrange) (state : Hosted V E) : Register → V :=
  (subs.filter (!·.noLoad)).foldl (fun regs sub =>
    update regs (alloc.hostOf sub)
      (state.storage (alloc.slotOf sub))) state.registers

theorem run_storesOf (hostable : alloc.Hostable subs) (state : Hosted V E) :
    (meaning.hosted visible).run (alloc.storesOf subs) state =
      ({ state with storage := alloc.stored subs state }, []) := by
  unfold storesOf stored
  have listed : ∀ sub ∈ subs.filter (·.hasStore),
      hostOperand (alloc.hostOf sub) = some (alloc.hostOf sub) :=
    fun sub mem => hostable sub (mem_of_mem_filter mem)
  generalize subs.filter (·.hasStore) = storing at listed
  induction storing generalizing state with
  | nil => rfl
  | cons first storing ih =>
    obtain ⟨operand, others⟩ := forall_mem_cons.mp listed
    have one : (meaning.hosted visible).perform (alloc.storeOf first) state = ({ state with
          storage := update state.storage (alloc.slotOf first)
            (state.registers (alloc.hostOf first)) }, []) := by
      rw [storeOf, operand]
      rfl
    rw [map_cons, Machine.run_cons, one, ih _ others]
    rfl

theorem run_loadsOf (hostable : alloc.Hostable subs) (state : Hosted V E) :
    (meaning.hosted visible).run (alloc.loadsOf subs) state =
      ({ state with registers := alloc.loaded subs state }, []) := by
  unfold loadsOf loaded
  have listed : ∀ sub ∈ subs.filter (!·.noLoad),
      hostOperand (alloc.hostOf sub) = some (alloc.hostOf sub) :=
    fun sub mem => hostable sub (mem_of_mem_filter mem)
  generalize subs.filter (!·.noLoad) = loading at listed
  induction loading generalizing state with
  | nil => rfl
  | cons first loading ih =>
    obtain ⟨operand, others⟩ := forall_mem_cons.mp listed
    have one : (meaning.hosted visible).perform (alloc.loadOf first) state = ({ state with
          registers := update state.registers (alloc.hostOf first)
            (state.storage (alloc.slotOf first)) }, []) := by
      rw [loadOf, operand]
      rfl
    rw [map_cons, Machine.run_cons, one, ih _ others]
    rfl

end
end Allocation

/-- From an index on, the register of a subrange is written before it is read. -/
def Subrange.Awaits (index : Nat) (sub : Subrange) : Prop :=
  writesFirst (sub.locations.filter ((index : Position) ≤ ·.index))

namespace Subrange

variable {sub : Subrange} {index : Nat}

theorem not_awaits_of_forall_lt (behind : ∀ loc ∈ sub.locations, loc.index < (index : Position)) :
    ¬sub.Awaits index := by
  have none : sub.locations.filter ((index : Position) ≤ ·.index) = [] := by
    rw [filter_eq_nil_iff]
    intro loc mem
    have before := behind loc mem
    lia
  simp [Awaits, none, writesFirst]

theorem awaits_of_forall_le (writes : writesFirst sub.locations)
    (ahead : ∀ loc ∈ sub.locations, (index : Position) ≤ loc.index) : sub.Awaits index := by
  have all : sub.locations.filter ((index : Position) ≤ ·.index) = sub.locations :=
    filter_eq_self.mpr fun loc mem => decide_eq_true (ahead loc mem)
  rwa [Awaits, all]

private theorem filter_le_of_forall_lt {locs : List Location}
    (later : ∀ loc ∈ locs, (index : Position) < loc.index)
    (next : bound ≤ index + 1) : locs.filter ((bound : Position) ≤ ·.index) = locs := by
  refine filter_eq_self.mpr fun loc mem => decide_eq_true ?_
  have behind := later loc mem
  lia

/-- A subrange that awaits a write does not read at the next index, and goes on waiting if it
does not write there. -/
theorem Awaits.step (awaits : sub.Awaits index)
    (sorted : sub.locations.Pairwise fun first second => first.index < second.index) :
    (∀ loc ∈ sub.locations, loc.index = index → loc.read = false) ∧
      ((∃ loc ∈ sub.locations, loc.index = index ∧ loc.write) ∨ sub.Awaits (index + 1)) := by
  unfold Awaits at *
  generalize sub.locations = locations at *
  induction locations with
  | nil => cases awaits
  | cons first rest ih =>
    obtain ⟨smaller, sortedRest⟩ := pairwise_cons.mp sorted
    rcases Int.lt_trichotomy first.index index with before | here | behind
    · rw [filter_cons, if_neg (by simpa using before)] at awaits
      rw [filter_cons, if_neg (by rw [decide_eq_true_eq]; push_cast; lia)]
      obtain ⟨unread, next⟩ := ih awaits sortedRest
      refine ⟨forall_mem_cons.mpr ⟨fun equal => absurd equal (by lia), unread⟩, ?_⟩
      refine next.imp_left ?_
      rintro ⟨loc, mem, here, write⟩
      exact ⟨loc, mem_cons_of_mem first mem, here, write⟩
    · have later : ∀ loc ∈ rest, (index : Position) < loc.index := here ▸ smaller
      rw [filter_cons, if_pos (by simp [here]),
        filter_le_of_forall_lt later (Nat.le_succ index)] at awaits
      rw [filter_cons, if_neg (by rw [decide_eq_true_eq]; push_cast; lia),
        filter_le_of_forall_lt later (Nat.le_refl _)]
      have unread : first.read = false := by
        cases read : first.read with
        | false => rfl
        | true => simp [writesFirst, read] at awaits
      refine ⟨forall_mem_cons.mpr ⟨fun _ => unread, fun loc mem equal =>
        absurd equal (Int.ne_of_gt (later loc mem))⟩, ?_⟩
      cases write : first.write with
      | true => exact .inl ⟨first, mem_cons_self, here, write⟩
      | false => exact .inr (by simpa [writesFirst, unread, write] using awaits)
    · have later : ∀ loc ∈ first :: rest, (index : Position) < loc.index := forall_mem_cons.mpr
          ⟨behind, fun loc mem => Int.lt_trans behind (smaller loc mem)⟩
      rw [filter_le_of_forall_lt later (Nat.le_succ index)] at awaits
      rw [filter_le_of_forall_lt later (Nat.le_refl _)]
      exact ⟨fun loc mem equal => absurd equal (Int.ne_of_gt (later loc mem)), .inr awaits⟩

end Subrange

theorem Graph.eq_of_slotOf_eq {g : Graph} (nodup : g.slots.Nodup) {reg other : Register}
    (bounds : 0 ≤ reg ∧ reg < g.slots.length) (otherBounds : 0 ≤ other ∧ other < g.slots.length)
    (same : g.slotOf reg = g.slotOf other) : reg = other := by
  have inside : reg.toNat < g.slots.length := by lia
  have otherInside : other.toNat < g.slots.length := by lia
  rw [slotOf, slotOf, if_neg (Int.not_lt.mpr bounds.1), if_neg (Int.not_lt.mpr otherBounds.1),
    getD_eq_getElem?_getD, getD_eq_getElem?_getD, getElem?_eq_getElem inside,
    getElem?_eq_getElem otherInside, Option.getD_some, Option.getD_some,
    nodup.getElem_inj_iff] at same
  lia

namespace Allocation

/-- An allocation whose ranges all have host registers and whose loads and stores are known. -/
structure Settled (alloc : Allocation) : Prop extends alloc.Sound where
  linked : alloc.Linked
  all : alloc.AllAssigned
  synced : alloc.Synced
  few : alloc.registers ≤ 32
  nodup : alloc.graph.slots.Nodup

/-- Different subranges keep different slots, in different host registers. -/
def Separate (alloc : Allocation) (subs : List Subrange) : Prop :=
  ∀ sub ∈ subs, ∀ other ∈ subs, sub ≠ other →
    alloc.slotOf sub ≠ alloc.slotOf other ∧
      alloc.hostOf sub ≠ alloc.hostOf other

namespace Settled

variable {alloc : Allocation} (settled : alloc.Settled)

include settled

theorem slotOf_eq (mem : sub ∈ alloc.subrangesIn seg) :
    alloc.slotOf sub = alloc.graph.slotOf (alloc.registerOf sub) := by
  obtain ⟨found, -⟩ := settled.coherent.mem_subrangesIn.mp mem
  obtain ⟨range, live⟩ := settled.coherent.range_live found
  rw [Allocation.slotOf, registerOf, range_eq_of_some live]
  exact (settled.coherent.register_slot live).2.2

theorem seats (seg : SegmentId) :
    alloc.Seats (alloc.graph.segment seg).body.length (alloc.subrangesIn seg) :=
  seats_of_settled settled.coherent settled.exclusive settled.all settled.few seg

theorem separate (members : ∀ sub ∈ subs, sub ∈ alloc.subrangesIn seg)
    (overlap : ∀ sub ∈ subs, ∀ other ∈ subs, sub.overlaps other) : alloc.Separate subs := by
  intro sub mem other otherMem ne
  have coherent := settled.coherent
  have seats := settled.seats seg
  have inside := members sub mem
  have otherInside := members other otherMem
  have overlapping := overlap sub mem other otherMem
  obtain ⟨found, here⟩ := coherent.mem_subrangesIn.mp inside
  obtain ⟨otherFound, otherHere⟩ := coherent.mem_subrangesIn.mp otherInside
  have ids : sub.id ≠ other.id := fun equal =>
    ne (Option.some.inj (found.symm.trans (equal ▸ otherFound)))
  have together := here.trans otherHere.symm
  constructor
  · intro same
    rw [settled.slotOf_eq inside, settled.slotOf_eq otherInside] at same
    have reg := Graph.eq_of_slotOf_eq settled.nodup (seats.register_bounds _ inside)
      (seats.register_bounds _ otherInside) same
    rw [coherent.apart found otherFound ids together reg] at overlapping
    cases overlapping
  · obtain ⟨range, live⟩ := coherent.range_live found
    obtain ⟨otherRange, otherLive⟩ := coherent.range_live otherFound
    rw [hostOf, hostOf, range_eq_of_some live, range_eq_of_some otherLive]
    exact settled.exclusive.disjoint found live otherFound otherLive
      (fun same => ids (coherent.alone found otherFound same together)) together overlapping
      (settled.all live) (settled.all otherLive)

theorem hostable (members : ∀ sub ∈ subs, sub ∈ alloc.subrangesIn seg) : alloc.Hostable subs :=
  fun sub mem => (settled.seats seg).operand_eq sub (members sub mem)

end Settled

/-- A state with host registers has the values of a state whose registers are slots, in front of
an index where some subranges hold their registers. -/
structure Carries {V E : Type} (alloc : Allocation) (index : Nat) (holders : List Subrange)
    (named : Named V E) (hosted : Hosted V E) : Prop where
  environment_eq : hosted.environment = named.environment
  free : ∀ {slot}, (∀ sub ∈ holders, alloc.slotOf sub ≠ slot) →
    hosted.storage slot = named.storage slot
  /-- A host register has the value of its slot, or that is not needed any more. -/
  held : ∀ sub ∈ holders, sub.Awaits index ∨
    hosted.registers (alloc.hostOf sub) = named.storage (alloc.slotOf sub)
  /-- A slot that is kept is in storage, or will be stored. -/
  kept : ∀ sub ∈ holders, alloc.Secured sub.id ∨
    hosted.storage (alloc.slotOf sub) = named.storage (alloc.slotOf sub)

namespace Carries

variable {V E : Type} {alloc : Allocation} {index : Nat}
  {named : Named V E} {hosted : Hosted V E} (carries : alloc.Carries index holders named hosted)

include carries

theorem store (subset : storing ⊆ holders) (present : ∀ sub ∈ storing, ¬sub.Awaits index) :
    alloc.Carries index holders named { hosted with storage := alloc.stored storing hosted } ∧
      ∀ sub ∈ storing, sub.hasStore → alloc.stored storing hosted (alloc.slotOf sub) =
          named.storage (alloc.slotOf sub) := by
  have cases := foldl_update_cases alloc.slotOf (fun sub => hosted.registers (alloc.hostOf sub))
    (storing.filter (·.hasStore)) hosted.storage
  have value {slot sub} (mem : sub ∈ storing.filter (·.hasStore)) (here : alloc.slotOf sub = slot)
      (equal : alloc.stored storing hosted slot = hosted.registers (alloc.hostOf sub)) :
      alloc.stored storing hosted slot = named.storage slot := by
    have listed := mem_of_mem_filter mem
    rw [equal, ← here]
    exact (carries.held sub (subset listed)).resolve_left (present sub listed)
  refine ⟨⟨carries.environment_eq, fun {slot} free => ?_, carries.held, fun sub mem => ?_⟩,
    fun sub mem stores => ?_⟩
  · rcases cases slot with ⟨item, listed, here, -⟩ | ⟨-, equal⟩
    · exact absurd here (free item (subset (mem_of_mem_filter listed)))
    · exact equal.trans (carries.free free)
  · rcases cases (alloc.slotOf sub) with ⟨item, listed, here, equal⟩ | ⟨-, equal⟩
    · exact .inr (value listed here equal)
    · exact (carries.kept sub mem).imp_right equal.trans
  · rcases cases (alloc.slotOf sub) with ⟨item, listed, here, equal⟩ | ⟨none, -⟩
    · exact value listed here equal
    · exact absurd rfl (none sub (mem_filter.mpr ⟨mem, stores⟩))

theorem drop (subset : staying ⊆ holders) (clean : ∀ sub ∈ holders, sub ∉ staying →
      hosted.storage (alloc.slotOf sub) = named.storage (alloc.slotOf sub)) :
    alloc.Carries index staying named hosted := by
  refine ⟨carries.environment_eq, fun {slot} free => ?_, fun sub mem =>
    carries.held sub (subset mem), fun sub mem =>
    carries.kept sub (subset mem)⟩
  by_cases keeper : ∃ sub ∈ holders, alloc.slotOf sub = slot
  · obtain ⟨sub, mem, rfl⟩ := keeper
    exact clean sub mem fun stays => free sub stays rfl
  · exact carries.free fun sub mem equal => keeper ⟨sub, mem, equal⟩

theorem load (separate : alloc.Separate (holders ++ starting))
    (new : ∀ sub ∈ starting, sub ∉ holders)
    (ready : ∀ sub ∈ starting, sub.noLoad → sub.Awaits index) :
    alloc.Carries index (holders ++ starting) named
      { hosted with registers := alloc.loaded starting hosted } := by
  have cases := foldl_update_cases alloc.hostOf (fun sub => hosted.storage (alloc.slotOf sub))
    (starting.filter (!·.noLoad)) hosted.registers
  have fresh {sub} (mem : sub ∈ starting) :
      hosted.storage (alloc.slotOf sub) = named.storage (alloc.slotOf sub) := by
    refine carries.free fun holder held => ?_
    refine (separate holder (mem_append_left _ held) sub (mem_append_right _ mem) ?_).1
    rintro rfl
    exact new holder mem held
  refine ⟨carries.environment_eq, fun {slot} free => ?_, fun sub mem => ?_, fun sub mem => ?_⟩
  · exact carries.free fun sub mem => free sub (mem_append_left _ mem)
  · -- A host register is loaded by its own subrange only.
    have own {item} (listed : item ∈ starting.filter (!·.noLoad))
        (here : alloc.hostOf item = alloc.hostOf sub) : item = sub := by
      by_contra different
      exact (separate item (mem_append_right _ (mem_of_mem_filter listed)) sub mem different).2 here
    rcases cases (alloc.hostOf sub) with ⟨item, listed, here, equal⟩ | ⟨none, equal⟩
    · obtain rfl := own listed here
      exact .inr (equal.trans (fresh (mem_of_mem_filter listed)))
    · rcases mem_append.mp mem with old | started
      · exact (carries.held sub old).imp_right equal.trans
      · cases unloaded : sub.noLoad with
        | true => exact .inl (ready sub started unloaded)
        | false =>
          exact absurd rfl (none sub (mem_filter.mpr ⟨started, by simp [unloaded]⟩))
  · rcases mem_append.mp mem with old | started
    · exact carries.kept sub old
    · exact .inr (fresh started)

end Carries
end Allocation
end Dynarec
