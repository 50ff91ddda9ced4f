import Dynarec.Proofs.Graph.Checks
import Dynarec.Proofs.Graph.Generated

/-!
# Whatever is decoded can be built

Every stream becomes a graph that passes all checks, as long as the function
keeps away from address zero and from the addresses that name guarded loops.
-/

namespace Dynarec

open List

variable {id : SegmentId}

namespace Graph

variable {g : Graph}

/-- A graph whose instructions lead where they should. -/
structure Sound (g : Graph) : Prop where
  placed : ∀ {id}, id ∈ g.order → WellPlaced (g.segment id).instructions
  follows : ∀ {id last}, id ∈ g.order → (g.segment id).last? = some last →
    last.kind = .jump → last.bySegment = true → ∃ next, (g.segment id).link true = some next
  resolves : ∀ {id last}, id ∈ g.order → (g.segment id).last? = some last →
    last.namesTarget → ∃ next, (g.segment id).link true = some next ∧
      (g.segment next).isDestination ∧ (g.segment next).jumpAddress = last.target
  names : ∀ {id other}, id ∈ g.order → other ∈ g.order →
    (g.segment id).isDestination → (g.segment other).isDestination →
    (g.segment id).jumpAddress = (g.segment other).jumpAddress → id = other
  resumes : ∀ {id last}, id ∈ g.order → (g.segment id).last? = some last →
    last.kind = .cycleCheck → ∃ leave addr, (g.segment id).link false = some leave ∧
      (g.segment leave).instructions = [.ofRoutine .leave addr 0] ∧ g.EntersAt addr

/-- A sound graph whose entries are not reached from inside. -/
structure WellFormed (g : Graph) : Prop extends g.Sound where
  entered : ∀ id ∈ g.order, (g.segment id).enterable → g.IsUnreached id

/-- The target of a jump names the taken successor and nothing else. -/
theorem Sound.exists_target (sound : g.Sound) (numbered : g.Numbered) (mem : id ∈ g.order)
    (last_eq : (g.segment id).last? = some last) (named : last.namesTarget) :
    ∃ next ∈ g.order, (g.segment id).link true = some next ∧
      ∀ other ∈ g.order, (g.segment other).isDestination ∧
        (g.segment other).jumpAddress = last.target ↔ other = next := by
  obtain ⟨next, linked, isDestination, addr⟩ := sound.resolves mem last_eq named
  have nextMem := numbered.link_mem mem linked
  refine ⟨next, nextMem, linked, fun other otherMem => ⟨?_, ?_⟩⟩
  · rintro ⟨otherIsDestination, same⟩
    exact sound.names otherMem nextMem otherIsDestination isDestination (same.trans addr.symm)
  · rintro rfl
    exact ⟨isDestination, addr⟩

theorem WellFormed.error?_eq_none (tied : g.Tied) (wellFormed : g.WellFormed) :
    g.error? = none := by
  refine (error?_eq_none_iff tied).mpr
    ⟨wellFormed.placed, fun mem => wellFormed.entered _ mem, ?_, ?_⟩
  · refine fun mem last last_eq => ⟨wellFormed.follows mem last_eq, fun named => ?_⟩
    obtain ⟨next, -, target⟩ := wellFormed.exists_target tied.numbered mem last_eq named
    exact ⟨next, target⟩
  · intro id mem last last_eq kind_eq
    obtain ⟨leave, addr, linked, leave_eq, resumed⟩ := wellFormed.resumes mem last_eq kind_eq
    refine ⟨leave, .ofRoutine .leave addr 0, linked, ?_, rfl, rfl, resumed⟩
    rw [Segment.last?, leave_eq]
    rfl

/-! ## Guards -/

def loopName (number : Nat) : Address :=
  syntheticBase + UInt32.ofNat number

/-- A sound graph some of whose segments are going to be put behind guards. -/
structure Guardable (g : Graph) (pending : List (SegmentId × Nat)) : Prop where
  sound : g.Sound
  members : ∀ loop ∈ pending, loop.1 ∈ g.order
  nodup : (pending.map Prod.fst).Nodup
  apart : pending.Pairwise fun first second => loopName first.2 ≠ loopName second.2
  jumps : ∀ loop ∈ pending, (g.segment loop.1).jumpTarget?.isSome
  entered : ∀ loop ∈ pending, (g.segment loop.1).enterable →
    (g.segment loop.1).enterAddress = (g.segment loop.1).lowest
  fresh : ∀ loop ∈ pending, ∀ id ∈ g.order, (g.segment id).isDestination →
    (g.segment id).jumpAddress ≠ loopName loop.2

theorem ne_of_nodup_fst
    (nodup : (((body, number) :: rest).map Prod.fst).Nodup) (listed : loop ∈ rest) :
    loop.1 ≠ body := by
  have known : loop.1 ∈ rest.map Prod.fst := mem_map_of_mem listed
  rintro rfl
  exact (nodup_cons.mp nodup).1 known

namespace LoopGuarded

variable {after : Graph} (guarded : g.LoopGuarded body (loopName number) after)

include guarded

theorem last?_eq (mem : id ∈ g.order) : (after.segment id).last? = (g.segment id).last? := by
  rw [Segment.last?, guarded.code_eq mem, Segment.last?]

/-- What segments end with after a loop body was put behind a guard. -/
theorem last?_cases (mem : id ∈ after.order) (last_eq : (after.segment id).last? = some last) :
    id ∈ g.order ∧ (g.segment id).last? = some last ∨
      id = g.nextId ∧ last = .cycleCheck (loopName number) ∨
      id = g.nextId + 1 ∧ last = .ofRoutine .leave (g.segment body).lowest 0 ∨
      id = g.nextId + 2 ∧ last = .segmentJump := by
  rcases guarded.mem_cases mem with old | rfl | rfl | rfl
  · exact .inl ⟨old, guarded.last?_eq old ▸ last_eq⟩
  · cases guarded.guard_eq.last?_eq.symm.trans last_eq
    exact .inr (.inl ⟨rfl, rfl⟩)
  · cases guarded.leave_eq.last?_eq.symm.trans last_eq
    exact .inr (.inr (.inl ⟨rfl, rfl⟩))
  · cases guarded.entry_eq.last?_eq.symm.trans last_eq
    exact .inr (.inr (.inr ⟨rfl, rfl⟩))

theorem wellPlaced (placed : ∀ {id}, id ∈ g.order → WellPlaced (g.segment id).instructions)
    (mem : id ∈ after.order) : WellPlaced (after.segment id).instructions := by
  have single {code instruction} (equal : code = [instruction])
      (inside : instruction.isPlaceholder = false) : WellPlaced code := by
    subst equal
    exact ⟨by simp [inside], by simp⟩
  rcases guarded.mem_cases mem with old | rfl | rfl | rfl
  · rw [guarded.code_eq old]
    exact placed old
  · exact single guarded.guard_eq.code_eq rfl
  · exact single guarded.leave_eq.code_eq rfl
  · exact single guarded.entry_eq.code_eq rfl

/-- A segment that jumps can lead to is the loop body under its new name, or it has the name of a
segment that it stands for. -/
theorem destination_cases (bodyMem : body ∈ g.order) (mem : id ∈ after.order)
    (isDestination : (after.segment id).isDestination) :
    id = body ∧ (after.segment id).jumpAddress = loopName number ∨
      ∃ known ∈ g.order, (g.segment known).isDestination ∧
        (after.segment id).jumpAddress = (g.segment known).jumpAddress ∧
        id = if known = body then g.nextId else known := by
  rcases guarded.mem_cases mem with old | rfl | rfl | rfl
  · by_cases same : id = body
    · subst same
      exact .inl ⟨rfl, guarded.body_eq.jumpAddress_eq⟩
    · have fields := guarded.others_eq id old same
      exact .inr ⟨id, old, fields.isDestination_eq ▸ isDestination, fields.jumpAddress_eq,
        (if_neg same).symm⟩
  · have fields := guarded.guard_eq
    exact .inr ⟨body, bodyMem, fields.isDestination_eq ▸ isDestination, fields.jumpAddress_eq,
      (if_pos rfl).symm⟩
  · rw [guarded.leave_eq.isDestination_eq] at isDestination
    cases isDestination
  · rw [guarded.entry_eq.isDestination_eq] at isDestination
    cases isDestination

/-- Where a jump led by name it still leads, perhaps through the guard. -/
theorem exists_destination {next} (numbered : g.Numbered) (mem : id ∈ g.order)
    (linked : (g.segment id).link true = some next) (isDestination : (g.segment next).isDestination)
    (addr : (g.segment next).jumpAddress = target) :
    ∃ next, (after.segment id).link true = some next ∧
      (after.segment next).isDestination ∧ (after.segment next).jumpAddress = target := by
  rw [guarded.link_eq id mem, linked]
  by_cases same : next = body
  · subst same
    rw [if_pos rfl]
    have fields := guarded.guard_eq
    exact ⟨_, rfl, fields.isDestination_eq.trans isDestination, fields.jumpAddress_eq.trans addr⟩
  · rw [if_neg (by simpa using same)]
    have fields := guarded.others_eq next (numbered.link_mem mem linked) same
    exact ⟨_, rfl, fields.isDestination_eq.trans isDestination, fields.jumpAddress_eq.trans addr⟩

theorem entersAt (enters : g.EntersAt addr) : after.EntersAt addr := by
  obtain ⟨id, mem, enterable, rfl⟩ := enters
  by_cases same : id = body
  · subst same
    have fields := guarded.entry_eq
    refine ⟨_, guarded.entry_mem, fields.enterable_eq, fields.enterAddress_eq.trans ?_⟩
    simp [asLoopEntry, enterable]
  · have fields := guarded.others_eq id mem same
    exact ⟨id, guarded.mem_order_iff.mpr (.inl mem), fields.enterable_eq.trans enterable,
      fields.enterAddress_eq⟩

variable (numbered : g.Numbered)

include numbered

theorem sound (mem : body ∈ g.order) (guardable : g.Guardable ((body, number) :: rest)) :
    after.Sound := by
  have sound := guardable.sound
  have fresh := guardable.fresh (body, number) mem_cons_self
  refine ⟨guarded.wellPlaced sound.placed, ?_, ?_, ?_, ?_⟩
  · intro id last listed last_eq kind_eq bySegment
    rcases guarded.last?_cases listed last_eq with
      ⟨old, last_eq⟩ | ⟨rfl, -⟩ | ⟨-, rfl⟩ | ⟨rfl, -⟩
    · obtain ⟨next, linked⟩ := sound.follows old last_eq kind_eq bySegment
      rw [guarded.link_eq id old, linked]
      split <;> exact ⟨_, rfl⟩
    · exact ⟨body, guarded.guard_link true⟩
    · cases kind_eq
    · exact ⟨g.nextId, guarded.entry_link true⟩
  · intro id last listed last_eq named
    rcases guarded.last?_cases listed last_eq with
      ⟨old, last_eq⟩ | ⟨rfl, rfl⟩ | ⟨-, rfl⟩ | ⟨-, rfl⟩
    · obtain ⟨next, linked, isDestination, addr⟩ := sound.resolves old last_eq named
      exact guarded.exists_destination numbered old linked isDestination addr
    · have fields := guarded.body_eq
      exact ⟨body, guarded.guard_link true, fields.isDestination_eq, fields.jumpAddress_eq⟩
    · cases named
    · cases named
  · intro id other listed otherListed isDestination otherIsDestination same
    rcases guarded.destination_cases mem listed isDestination with
      ⟨isBody, addr⟩ | ⟨known, knownMem, named, addr, id_eq⟩
    · rcases guarded.destination_cases mem otherListed otherIsDestination with
        ⟨otherIsBody, -⟩ | ⟨known, knownMem, named, otherAddress, -⟩
      · exact isBody.trans otherIsBody.symm
      · exact absurd (otherAddress.symm.trans (same.symm.trans addr)) (fresh known knownMem named)
    · rcases guarded.destination_cases mem otherListed otherIsDestination with
        ⟨-, otherAddress⟩ | ⟨otherKnown, otherKnownMember, otherNamed, otherAddress, other_eq⟩
      · exact absurd (addr.symm.trans (same.trans otherAddress)) (fresh known knownMem named)
      · have equal := sound.names knownMem otherKnownMember named otherNamed
          (addr.symm.trans (same.trans otherAddress))
        rw [id_eq, other_eq, equal]
  · intro id last listed last_eq kind_eq
    rcases guarded.last?_cases listed last_eq with
      ⟨known, last_eq⟩ | ⟨rfl, -⟩ | ⟨-, rfl⟩ | ⟨-, rfl⟩
    · obtain ⟨leave, addr, linked, leave_eq, enters⟩ := sound.resumes known last_eq kind_eq
      have leaveMem := numbered.link_mem known linked
      -- The exit is not the loop body, which ends with a jump.
      have notBody : leave ≠ body := by
        rintro rfl
        obtain ⟨target, target_eq⟩ := Option.isSome_iff_exists.mp
          (guardable.jumps (leave, number) mem_cons_self)
        obtain ⟨jump, jump_eq, jumpKind, -⟩ := Segment.exists_of_jumpTarget? target_eq
        rw [Segment.last?, leave_eq] at jump_eq
        cases jump_eq
        cases jumpKind
      refine ⟨leave, addr, ?_, ?_, guarded.entersAt enters⟩
      · rw [guarded.link_eq id known, linked, if_neg (by simpa using notBody)]
      · rw [guarded.code_eq leaveMem, leave_eq]
    · have fields := guarded.entry_eq
      refine ⟨_, _, guarded.guard_link false, guarded.leave_eq.code_eq, _,
        guarded.entry_mem, fields.enterable_eq, fields.enterAddress_eq.trans ?_⟩
      cases enterable : (g.segment body).enterable with
      | false => simp [asLoopEntry, enterable]
      | true =>
        have lowest := guardable.entered (body, number) mem_cons_self enterable
        simp [asLoopEntry, enterable, lowest]
    · cases kind_eq
    · cases kind_eq

theorem guardable (mem : body ∈ g.order)
    (guardable : g.Guardable ((body, number) :: rest)) : after.Guardable rest := by
  obtain ⟨-, nodup⟩ := nodup_cons.mp guardable.nodup
  obtain ⟨apart, restApart⟩ := pairwise_cons.mp guardable.apart
  have kept {loop} (listed : loop ∈ rest) :=
    guarded.others_eq loop.1 (guardable.members loop (mem_cons_of_mem _ listed))
      (ne_of_nodup_fst guardable.nodup listed)
  refine ⟨guarded.sound numbered mem guardable, ?_, nodup, restApart, ?_, ?_, ?_⟩
  · exact fun loop listed => guarded.mem_order_iff.mpr
      (.inl (guardable.members loop (mem_cons_of_mem _ listed)))
  · intro loop listed
    rw [Segment.jumpTarget?_congr (kept listed).code_eq]
    exact guardable.jumps loop (mem_cons_of_mem _ listed)
  · intro loop listed enterable
    have fields := kept listed
    rw [fields.enterAddress_eq, fields.lowest_eq]
    exact guardable.entered loop (mem_cons_of_mem _ listed)
      (fields.enterable_eq.symm.trans enterable)
  · intro loop listed id idListed isDestination
    rcases guarded.destination_cases mem idListed isDestination with
      ⟨-, addr⟩ | ⟨known, knownMem, named, addr, -⟩
    · rw [addr]
      exact apart loop listed
    · rw [addr]
      exact guardable.fresh loop (mem_cons_of_mem _ listed) known knownMem named

end LoopGuarded

/-! ## Trampolines -/

/-- The entry of a segment was moved to a new one, at an address, and the others stayed. -/
def EntryMoved (before after : Graph) (old new : SegmentId) (addr : Address) : Prop :=
  ∀ ⦃id⦄, id ∈ after.order → (after.segment id).enterable →
    id ∈ before.order ∧ id ≠ old ∧ (before.segment id).enterable ∧
        (after.segment id).enterAddress = (before.segment id).enterAddress ∨
      id = new ∧ (after.segment id).enterAddress = addr

namespace EntryIsolated

variable {entry : SegmentId} {after : Graph} (isolated : g.EntryIsolated entry after)

include isolated

theorem last?_eq (mem : id ∈ g.order) : (after.segment id).last? = (g.segment id).last? := by
  rw [Segment.last?, isolated.code_eq mem, Segment.last?]

theorem instructions_trampoline : (after.segment g.nextId).instructions = [.segmentJump] :=
  isolated.trampoline_eq.code_eq

theorem last?_cases (mem : id ∈ after.order) (last_eq : (after.segment id).last? = some last) :
    id ∈ g.order ∧ (g.segment id).last? = some last ∨ id = g.nextId ∧ last = .segmentJump := by
  rcases isolated.mem_order_iff.mp mem with old | rfl
  · exact .inl ⟨old, isolated.last?_eq old ▸ last_eq⟩
  · cases isolated.trampoline_eq.last?_eq.symm.trans last_eq
    exact .inr ⟨rfl, rfl⟩

theorem name_eq (mem : id ∈ g.order) :
    (after.segment id).isDestination = (g.segment id).isDestination ∧
      (after.segment id).jumpAddress = (g.segment id).jumpAddress := by
  by_cases same : id = entry
  · subst same
    have fields := isolated.inner_eq
    exact ⟨fields.isDestination_eq, fields.jumpAddress_eq⟩
  · have fields := isolated.others_eq id mem same
    exact ⟨fields.isDestination_eq, fields.jumpAddress_eq⟩

theorem entersAt (enters : g.EntersAt addr) : after.EntersAt addr := by
  obtain ⟨id, mem, enterable, rfl⟩ := enters
  by_cases same : id = entry
  · subst same
    have fields := isolated.trampoline_eq
    exact ⟨_, isolated.trampoline_mem, fields.enterable_eq, fields.enterAddress_eq⟩
  · have fields := isolated.others_eq id mem same
    exact ⟨id, isolated.mem_order_iff.mpr (.inl mem), fields.enterable_eq.trans enterable,
      fields.enterAddress_eq⟩

/-- The entries after one of them was moved to a trampoline. -/
theorem entryMoved : g.EntryMoved after entry g.nextId (g.segment entry).enterAddress := by
  intro id mem enterable
  rcases isolated.mem_order_iff.mp mem with old | rfl
  · by_cases same : id = entry
    · subst same
      rw [isolated.inner_eq.enterable_eq] at enterable
      cases enterable
    · have fields := isolated.others_eq id old same
      exact .inl ⟨old, same, fields.enterable_eq ▸ enterable, fields.enterAddress_eq⟩
  · exact .inr ⟨rfl, isolated.trampoline_eq.enterAddress_eq⟩

theorem sound (numbered : g.Numbered) (sound : g.Sound) : after.Sound := by
  have dest {id} (listed : id ∈ after.order) (isDestination : (after.segment id).isDestination) :
      id ∈ g.order ∧ (g.segment id).isDestination ∧
        (after.segment id).jumpAddress = (g.segment id).jumpAddress := by
    rcases isolated.mem_order_iff.mp listed with old | rfl
    · obtain ⟨named, addr⟩ := isolated.name_eq old
      exact ⟨old, named ▸ isDestination, addr⟩
    · rw [isolated.trampoline_eq.isDestination_eq] at isDestination
      cases isDestination
  refine ⟨?_, ?_, ?_, ?_, ?_⟩
  · intro id listed
    rcases isolated.mem_order_iff.mp listed with old | rfl
    · rw [isolated.code_eq old]
      exact sound.placed old
    · rw [isolated.instructions_trampoline]
      exact ⟨by simp [Instruction.segmentJump, Instruction.isPlaceholder], by simp⟩
  · intro id last listed last_eq kind_eq bySegment
    rcases isolated.last?_cases listed last_eq with ⟨old, last_eq⟩ | ⟨rfl, -⟩
    · rw [isolated.link_eq id old]
      exact sound.follows old last_eq kind_eq bySegment
    · exact ⟨entry, isolated.trampoline_link true⟩
  · intro id last listed last_eq named
    rcases isolated.last?_cases listed last_eq with ⟨old, last_eq⟩ | ⟨-, rfl⟩
    · obtain ⟨next, linked, isDestination, addr⟩ := sound.resolves old last_eq named
      obtain ⟨sameNamed, sameAddress⟩ := isolated.name_eq (numbered.link_mem old linked)
      exact ⟨next, (isolated.link_eq id old true).trans linked, sameNamed.trans isDestination,
        sameAddress.trans addr⟩
    · cases named
  · intro id other listed otherListed isDestination otherIsDestination same
    obtain ⟨old, named, addr⟩ := dest listed isDestination
    obtain ⟨otherOld, otherNamed, otherAddress⟩ := dest otherListed otherIsDestination
    rw [addr, otherAddress] at same
    exact sound.names old otherOld named otherNamed same
  · intro id last listed last_eq kind_eq
    rcases isolated.last?_cases listed last_eq with ⟨old, last_eq⟩ | ⟨-, rfl⟩
    · obtain ⟨leave, addr, linked, leave_eq, enters⟩ := sound.resumes old last_eq kind_eq
      exact ⟨leave, addr, (isolated.link_eq id old false).trans linked,
        (isolated.code_eq (numbered.link_mem old linked)).trans leave_eq,
        isolated.entersAt enters⟩
    · cases kind_eq

theorem entered (numbered : g.Numbered) (mem : entry ∈ g.order)
    (entered : ∀ id ∈ g.order, (g.segment id).enterable → id ∉ entry :: rest → g.IsUnreached id) :
    ∀ id ∈ after.order, (after.segment id).enterable → id ∉ rest → after.IsUnreached id := by
  intro id listed enterable unlisted source sourceListed side linked
  rcases isolated.mem_order_iff.mp listed with old | rfl
  · have ne : id ≠ entry := by
      rintro rfl
      rw [isolated.inner_eq.enterable_eq] at enterable
      cases enterable
    have fields := isolated.others_eq id old ne
    rcases isolated.link_cases sourceListed linked with ⟨sourceOld, before⟩ | ⟨-, -, toEntry⟩
    · exact entered id old (fields.enterable_eq ▸ enterable) (by simp [ne, unlisted]) source
        sourceOld side before
    · exact ne toEntry
  · rcases isolated.link_cases sourceListed linked with ⟨sourceOld, before⟩ | ⟨-, -, toEntry⟩
    · exact absurd (numbered.inside (numbered.link_mem sourceOld before)) (Nat.lt_irrefl _)
    · exact absurd (numbered.inside mem) (toEntry ▸ Nat.lt_irrefl _)

end EntryIsolated

/-! ## The whole build -/

theorem loopName_inj (firstSmall : first < 2 ^ 32) (secondSmall : second < 2 ^ 32)
    (same : loopName first = loopName second) : first = second := by
  have equal := congrArg UInt32.toNat ((UInt32.add_right_inj syntheticBase).mp same)
  rw [UInt32.toNat_ofNat', UInt32.toNat_ofNat'] at equal
  omega

theorem syntheticBase_le_loopName (small : number < 2 ^ 24) : syntheticBase ≤ loopName number := by
  have bound : syntheticBase.toNat = 0xFF000000 := rfl
  rw [UInt32.le_iff_toNat_le, loopName, UInt32.toNat_add, UInt32.toNat_ofNat']
  omega

theorem isSome_jumpTarget?_of_mem_loops (listed : id ∈ g.loops) :
    (g.segment id).jumpTarget?.isSome := by
  have needs := of_mem_filter listed
  rw [Segment.needsCycleCheck] at needs
  rw [Segment.jumpTarget?]
  cases last_eq : (g.segment id).last? with
  | none =>
    rw [last_eq] at needs
    cases needs
  | some last =>
    rw [last_eq] at needs
    simp only [Bool.and_eq_true, decide_eq_true_eq, Bool.not_eq_true'] at needs
    simp [needs]

section

variable {start : SegmentId → Address}
  (ascends : ∀ {id other}, id ∈ g.order → other ∈ g.order → id < other →
    (g.segment other).opens → start id < start other)

include ascends

theorem eq_of_opens (mem : id ∈ g.order) (otherMem : other ∈ g.order)
    (opens : (g.segment id).opens) (otherOpens : (g.segment other).opens)
    (same : start id = start other) : id = other := by
  rcases Nat.lt_trichotomy id other with less | equal | greater
  · exact absurd (ascends mem otherMem less otherOpens) (same ▸ UInt32.lt_irrefl _)
  · exact equal
  · exact absurd (ascends otherMem mem greater opens) (same ▸ UInt32.lt_irrefl _)

theorem nodup_loops (numbered : g.Numbered) : (g.loops.map start).Nodup := by
  refine List.Nodup.map_on ?_ (numbered.nodup_order.filter _)
  intro id listed other otherListed same
  have opens {id} (listed : id ∈ g.loops) : (g.segment id).opens := by
    rw [Segment.opens, isSome_jumpTarget?_of_mem_loops listed, Bool.or_true]
  exact eq_of_opens ascends (mem_of_mem_filter listed) (mem_of_mem_filter otherListed)
    (opens listed) (opens otherListed) same

end

namespace Laid

variable (laid : g.Laid start)

include laid

theorem sound : g.Sound where
  placed := laid.placed
  follows mem last_eq kind_eq bySegment := by
    rw [(laid.ending mem last_eq).2 kind_eq] at bySegment
    cases bySegment
  resolves {id last} mem last_eq named := by
    obtain ⟨unchecked, byAddress⟩ := laid.ending mem last_eq
    have kind_eq : last.kind = .jump := by
      simp only [Instruction.namesTarget, Bool.or_eq_true, Bool.and_eq_true, decide_eq_true_eq]
        at named
      exact (named.resolve_right unchecked).1
    have jumps : (g.segment id).jumpTarget? = some last.target := by
      simp [Segment.jumpTarget?, last_eq, kind_eq, byAddress kind_eq]
    obtain ⟨next, linked⟩ := laid.jumps mem jumps
    obtain ⟨isDestination, target⟩ := laid.taken mem linked
    refine ⟨next, linked, isDestination, ?_⟩
    rw [laid.named (laid.numbered.link_mem mem linked) isDestination]
    exact Option.some.inj (target.symm.trans jumps)
  names {id other} mem otherMem isDestination otherIsDestination same := by
    rw [laid.named mem isDestination, laid.named otherMem otherIsDestination] at same
    exact eq_of_opens laid.opens mem otherMem (by simp [Segment.opens, isDestination])
      (by simp [Segment.opens, otherIsDestination]) same
  resumes mem last_eq kind_eq := absurd kind_eq (laid.ending mem last_eq).1

theorem guardable (entered : ∀ id ∈ g.order, (g.segment id).enterable →
      (g.segment id).enterAddress = start id)
    (bounded : ∀ id ∈ g.order, start id < syntheticBase) (few : g.loops.length ≤ 2 ^ 24) :
    g.Guardable g.loops.zipIdx := by
  have listed {loop} (pending : loop ∈ g.loops.zipIdx) : loop.1 ∈ g.loops ∧ loop.2 < 2 ^ 24 := by
    have found := mem_zipIdx_iff_getElem?.mp pending
    have inside := (List.getElem?_eq_some_iff.mp found).1
    exact ⟨mem_of_getElem? found, by omega⟩
  have mem {loop} (pending : loop ∈ g.loops.zipIdx) :
      loop.1 ∈ g.order := mem_of_mem_filter (listed pending).1
  refine ⟨laid.sound, fun _ => mem, ?_, ?_, ?_, ?_, ?_⟩
  · rw [zipIdx_map_fst]
    exact laid.numbered.nodup_order.filter _
  · refine pairwise_iff_getElem.mpr fun first second inside secondInside earlier => ?_
    rw [length_zipIdx] at inside secondInside
    rw [getElem_zipIdx, getElem_zipIdx]
    intro same
    have equal := loopName_inj (by omega) (by omega) same
    omega
  · exact fun _ pending => isSome_jumpTarget?_of_mem_loops (listed pending).1
  · intro loop pending enterable
    obtain ⟨target, jumps⟩ := Option.isSome_iff_exists.mp
      (isSome_jumpTarget?_of_mem_loops (listed pending).1)
    rw [entered _ (mem pending) enterable, (laid.lowest (mem pending) jumps).1]
  · intro loop pending id idMem isDestination same
    rw [laid.named idMem isDestination] at same
    have below := bounded id idMem
    rw [same] at below
    exact absurd (UInt32.lt_of_lt_of_le below (syntheticBase_le_loopName (listed pending).2))
      (UInt32.lt_irrefl _)

end Laid

namespace Alike

variable (alike : g.Alike other)

include alike

theorem entersAt (enters : g.EntersAt addr) : other.EntersAt addr := by
  obtain ⟨id, mem, enterable, entered⟩ := enters
  exact ⟨id, alike.order_eq ▸ mem, (alike.content_eq id).enterable_eq.trans enterable,
    (alike.content_eq id).enterAddress_eq.trans entered⟩

theorem sound (sound : g.Sound) : other.Sound := by
  have same id := alike.content_eq id
  refine ⟨?_, ?_, ?_, ?_, ?_⟩
  · intro id mem
    rw [(same id).code_eq]
    exact sound.placed (alike.order_eq ▸ mem)
  · intro id last mem last_eq kind_eq bySegment
    rw [(same id).last?_eq] at last_eq
    rw [alike.link_eq]
    exact sound.follows (alike.order_eq ▸ mem) last_eq kind_eq bySegment
  · intro id last mem last_eq named
    rw [(same id).last?_eq] at last_eq
    obtain ⟨next, linked, isDestination, addr⟩ :=
      sound.resolves (alike.order_eq ▸ mem) last_eq named
    exact ⟨next, (alike.link_eq id true).trans linked,
      (same next).isDestination_eq.trans isDestination, (same next).jumpAddress_eq.trans addr⟩
  · intro id second mem secondMem isDestination secondIsDestination equal
    rw [(same id).jumpAddress_eq, (same second).jumpAddress_eq] at equal
    exact sound.names (alike.order_eq ▸ mem) (alike.order_eq ▸ secondMem)
      ((same id).isDestination_eq.symm.trans isDestination)
      ((same second).isDestination_eq.symm.trans secondIsDestination) equal
  · intro id last mem last_eq kind_eq
    rw [(same id).last?_eq] at last_eq
    obtain ⟨leave, addr, linked, leave_eq, enters⟩ :=
      sound.resumes (alike.order_eq ▸ mem) last_eq kind_eq
    exact ⟨leave, addr, (alike.link_eq id false).trans linked,
      (same leave).code_eq.trans leave_eq, alike.entersAt enters⟩

theorem wellFormed (wellFormed : g.WellFormed) : other.WellFormed where
  toSound := alike.sound wellFormed.toSound
  entered id member enterable source sourceMem side := by
    rw [alike.link_eq]
    rw [(alike.content_eq id).enterable_eq] at enterable
    exact wellFormed.entered id (alike.order_eq ▸ member) enterable source
      (alike.order_eq ▸ sourceMem) side

end Alike

theorem Guardable.wellFormed (guardable : g.Guardable g.loops.zipIdx) (tied : g.Tied) :
    g.guardLoops.isolateEntries.detectLoops.Tied ∧
      g.guardLoops.isolateEntries.detectLoops.WellFormed := by
  obtain ⟨guarded, -, done, alike⟩ := guardLoops_induction (motive := Guardable) tied guardable
    fun numbered mem guarded guardable => guarded.guardable numbered mem guardable
  let Isolated (g : Graph) (pending : List SegmentId) : Prop :=
    g.Sound ∧ ∀ id ∈ g.order, (g.segment id).enterable → id ∉ pending → g.IsUnreached id
  obtain ⟨tied, sound, entered⟩ := isolateEntries_induction (motive := Isolated) alike.toTied
      ⟨alike.sound done.sound, fun _ mem _ unlisted => absurd mem unlisted⟩
      (by
        intro before id rest tied mem alone ⟨sound, entered⟩
        refine ⟨sound, fun other otherMem enterable unlisted => ?_⟩
        by_cases same : other = id
        · subst same
          exact IsUnreached.of_prev_eq_nil tied.backlinked otherMem (alone enterable)
        · exact entered other otherMem enterable (by simp [same, unlisted]))
      (by
        intro before id rest after tied mem _ _ isolated ⟨sound, entered⟩
        exact ⟨isolated.sound tied.numbered sound, isolated.entered tied.numbered mem entered⟩)
  have detected := alike_detectLoops tied
  exact ⟨detected.toTied, detected.wellFormed
    ⟨sound, fun id mem enterable => entered id mem enterable not_mem_nil⟩⟩

theorem exists_ofStream_of_tiled (tiled : stream.Tiled list)
    (aligned : stream.entry.toNat % 4 = 0) : ∃ base, ofStream stream = .ok base := by
  have arranged := tiled.arranged
  rw [← tiled.dropUnusedJumpmarks_eq] at arranged
  refine exists_ofStream arranged fun jump listed kind_eq => ?_
  rw [tiled.dropUnusedJumpmarks_eq] at listed ⊢
  exact tiled.marked aligned listed kind_eq

structure Prepared (stream : Stream) (list : List Stream.Piece) (base g : Graph) : Prop where
  isBase : IsBase (stream.trimmed list) base
  kept : base.LayoutKept g
  laid : g.Laid (startAt (stream.trimmed list))
  entered : ∀ id ∈ g.order, (g.segment id).enterable →
    (g.segment id).enterAddress = startAt (stream.trimmed list) id

theorem prepared_of_bounded (tiled : stream.Tiled list) (bounded : stream.Bounded)
    (made : ofStream stream = .ok base) (options : BuildOptions) :
    Prepared stream list base (base.prepared options) := by
  obtain ⟨isBase, entry_eq, -⟩ := isBase_of_tiled tiled made
  have laid := isBase.laid tiled.arranged (tiled.address_ne_zero bounded.contains_zero)
  have kept : base.LayoutKept (base.prepared options) :=
    .prepared laid.toTied (fun _ => laid.placed) options
  refine ⟨isBase, kept, laid.of_layoutKept kept, fun id mem enterable => ?_⟩
  rw [kept.order_eq] at mem
  have each := kept.each id mem
  rw [each.enterAddress_eq]
  exact isBase.enterAddress_eq_start tiled bounded entry_eq mem (each.enterable_eq ▸ enterable)

theorem Prepared.guardable (prepared : Prepared stream list base g) (tiled : stream.Tiled list)
    (fits : stream.Fits) : g.Guardable g.loops.zipIdx := by
  obtain ⟨isBase, kept, laid, entered⟩ := prepared
  refine laid.guardable entered (fun id mem => ?_) ?_
  · exact isBase.start_lt_syntheticBase tiled fits (kept.order_eq ▸ mem)
  · refine isBase.length_le tiled fits (fun id listed => ?_) (nodup_loops laid.opens laid.numbered)
    exact kept.order_eq ▸ mem_of_mem_filter listed

theorem build_of_fits (tiled : stream.Tiled list) (fits : stream.Fits) (options : BuildOptions) :
    ∃ base, ofStream stream = .ok base ∧ build stream options = .ok (base.passes options) ∧
      (base.passes options).Tied ∧ (base.passes options).WellFormed := by
  obtain ⟨base, made⟩ := exists_ofStream_of_tiled tiled fits.aligned
  have prepared := prepared_of_bounded tiled fits.bounded made options
  obtain ⟨tied, wellFormed⟩ := (prepared.guardable tiled fits).wellFormed prepared.laid.toTied
  rw [← passes_eq] at tied wellFormed
  refine ⟨base, made, ?_, tied, wellFormed⟩
  rw [build, made]
  simp only [bind, Except.bind]
  rw [wellFormed.error?_eq_none tied]

/-- Every function that fits can be built, whichever passes are asked for.  In its graph only the
last instruction ends a segment, no placeholder is left, the targets of jumps and cycle checks name
their taken successors and nothing else, nothing leads to an entry, and cycle checks leave for an
address at which a segment is entered. -/
theorem exists_build
    {memory : Memory}
    {options : Stream.Options}
    {stream : Stream}
    (generated : Stream.generate memory options = .ok stream)
    (fits : stream.Fits)
    (buildOptions : BuildOptions) :
    ∃ graph, build stream buildOptions = .ok graph ∧ ∀ id ∈ graph.order,
      WellPlaced (graph.segment id).instructions ∧
      ((graph.segment id).enterable = true →
        (graph.segment id).prev = [] ∧ graph.IsUnreached id) ∧
      ∀ last, (graph.segment id).last? = some last →
        (last.kind = .jump → last.bySegment = true →
          ∃ next ∈ graph.order, (graph.segment id).taken = some next) ∧
        (last.namesTarget = true → ∃ next ∈ graph.order, (graph.segment id).taken = some next ∧
          ∀ other ∈ graph.order, (graph.segment other).isDestination = true ∧
            (graph.segment other).jumpAddress = last.target ↔ other = next) ∧
        (last.kind = .cycleCheck → ∃ leave ∈ graph.order, ∃ address,
          (graph.segment id).notTaken = some leave ∧
          (graph.segment leave).instructions = [.ofRoutine .leave address 0] ∧
          ∃ entry ∈ graph.order, (graph.segment entry).enterable = true ∧
            (graph.segment entry).enterAddress = address) := by
  obtain ⟨list, tiled, -⟩ := Stream.exists_tiled generated
  obtain ⟨base, -, built, tied, wellFormed⟩ := build_of_fits tiled fits buildOptions
  refine ⟨base.passes buildOptions, built,
    fun id member => ⟨wellFormed.placed member, ?_, ?_⟩⟩
  · intro enterable
    have unreached := wellFormed.entered id member enterable
    exact ⟨unreached.prev_eq_nil tied member, unreached⟩
  · intro last last_eq
    refine ⟨fun kind_eq bySegment => ?_, fun named => ?_, fun kind_eq => ?_⟩
    · obtain ⟨next, linked⟩ := wellFormed.follows member last_eq kind_eq bySegment
      exact ⟨next, tied.numbered.link_mem member linked, linked⟩
    · exact wellFormed.exists_target tied.numbered member last_eq named
    · obtain ⟨leave, address, linked, leave_eq, entered⟩ := wellFormed.resumes member last_eq kind_eq
      exact ⟨leave, tied.numbered.link_mem member linked, address, linked, leave_eq, entered⟩

theorem saving_builds :
    ∃ stream graph, Stream.generate saving { entry := 0x1000, count := 6 } = .ok stream ∧
      stream.Fits ∧ build stream {} = .ok graph ∧
      (∀ id ∈ graph.order, WellPlaced (graph.segment id).instructions) ∧
      (graph.segment 6).enterable = true ∧ (graph.segment 6).prev = [] ∧ graph.IsUnreached 6 ∧
      (∃ last, (graph.segment 0).last? = some last ∧ last.namesTarget = true ∧
        ∃ next ∈ graph.order, (graph.segment 0).taken = some next ∧
          ∀ other ∈ graph.order, (graph.segment other).isDestination = true ∧
            (graph.segment other).jumpAddress = last.target ↔ other = next) ∧
      ∃ last, (graph.segment 3).last? = some last ∧ last.kind = .cycleCheck ∧
        ∃ leave ∈ graph.order, ∃ address, (graph.segment 3).notTaken = some leave ∧
          (graph.segment leave).instructions = [.ofRoutine .leave address 0] ∧
          ∃ entry ∈ graph.order, (graph.segment entry).enterable = true ∧
            (graph.segment entry).enterAddress = address := by
  obtain ⟨stream, built, generated, fits, done, order_eq, ⟨jump, jump_eq, kind_eq, byName⟩,
    ⟨check, check_eq, checks⟩, enterable, -⟩ := exists_saving
  obtain ⟨graph, same, each⟩ := exists_build generated fits {}
  obtain rfl : built = graph := Except.ok.inj (done.symm.trans same)
  have member {id : SegmentId} (listed : id ∈ [0, 3, 4, 1, 2, 5, 6]) : id ∈ built.order :=
    order_eq ▸ listed
  have named : jump.namesTarget = true := by simp [Instruction.namesTarget, kind_eq, byName]
  obtain ⟨-, entered, -⟩ := each 6 (member (by decide))
  obtain ⟨-, -, jumps⟩ := each 0 (member (by decide))
  obtain ⟨-, -, leaves⟩ := each 3 (member (by decide))
  exact ⟨stream, built, generated, fits, done, fun id listed => (each id listed).1, enterable,
    (entered enterable).1, (entered enterable).2,
    ⟨jump, jump_eq, named, (jumps jump jump_eq).2.1 named⟩,
    check, check_eq, checks, (leaves check check_eq).2.2 checks⟩

end Graph
end Dynarec
