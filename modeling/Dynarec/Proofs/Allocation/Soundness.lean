import Dynarec.Proofs.Allocation.Frame
import Dynarec.Proofs.Allocation.Pass
import Dynarec.Proofs.Graph.Edge

/-!
# Soundness of the assignment

Every allocation that an assignment can reach keeps overlapping ranges in
different registers.  So the scan never meets two holders of one register, and a
settled assignment passes the check that may follow it.
-/

namespace Dynarec.Allocation

open List Option

variable {alloc : Allocation}

theorem unsoundMember?_eq_none (coherent : alloc.Coherent) (linked : alloc.Linked) {id}
    {range} (live : alloc.range? id = some range) (listed : mem ∈ range.subranges) :
    alloc.unsoundMember? range mem = none := by
  obtain ⟨sub, found, inside⟩ := (coherent.mem_subranges live).mp listed
  have number := coherent.range_id live
  have links : ∀ next ∈ sub.taken.toList ++ sub.notTaken.toList,
      (alloc.subrange? next).any (·.range = range.id) = true := by
    intro next listed
    obtain ⟨side, continuation⟩ : ∃ side, sub.link side = some next := by
      cases mem_append.mp listed with
      | inl taken => exact ⟨true, mem_toList.mp taken⟩
      | inr notTaken => exact ⟨false, mem_toList.mp notTaken⟩
    obtain ⟨-, target, targetFound, sameRange, -, -⟩ := linked.continues found continuation
    rw [targetFound]
    simp [sameRange, inside, number]
  rw [unsoundMember?, found]
  simp only [inside, number, ne_eq, not_true_eq_false, if_false]
  rw [number] at links
  rw [if_pos (all_eq_true.mpr links)]

theorem unsoundRange?_eq_none (sound : alloc.Sound) (linked : alloc.Linked)
    (all : alloc.AllAssigned) {id range}
    (live : alloc.range? id = some range) : alloc.unsoundRange? range = none := by
  have assigned := all live
  have bound := sound.exclusive.host_lt live assigned
  rw [unsoundRange?, assigned, decide_eq_true bound, Bool.and_self, if_pos rfl,
    findSome?_eq_none_iff]
  exact fun mem listed => unsoundMember?_eq_none sound.coherent linked live listed

theorem unsoundIn?_eq_none (sound : alloc.Sound) (all : alloc.AllAssigned)
    (members : ∀ sub ∈ subs, ∃ id, alloc.subrange? id = some sub ∧ sub.segment = seg) :
    alloc.unsoundIn? seg subs = none := by
  induction subs with
  | nil => rfl
  | cons first rest ih =>
    obtain ⟨⟨id, found, here⟩, members⟩ := forall_mem_cons.mp members
    rw [unsoundIn?, if_neg (not_not_intro here), ih members, or_none, findSome?_eq_none_iff]
    intro second listed
    obtain ⟨other, otherFound, otherHere⟩ := members second listed
    obtain ⟨range, live⟩ := sound.coherent.range_live found
    obtain ⟨otherRange, otherLive⟩ := sound.coherent.range_live otherFound
    rw [unsoundPair?, if_neg]
    simp only [Bool.and_eq_true, decide_eq_true_eq, hostOf, range_eq_of_some live,
      range_eq_of_some otherLive]
    rintro ⟨⟨ne, overlap⟩, shared⟩
    exact sound.exclusive.disjoint found live otherFound otherLive ne
      (here.trans otherHere.symm) overlap (all live) (all otherLive) shared

theorem unsound?_eq_none (sound : alloc.Sound) (linked : alloc.Linked)
    (all : alloc.AllAssigned) : alloc.unsound? = none := by
  have ranges : alloc.liveRanges.findSome? alloc.unsoundRange? = none := by
    rw [findSome?_eq_none_iff]
    intro range listed
    obtain ⟨id, live⟩ := mem_liveRanges_iff.mp listed
    exact unsoundRange?_eq_none sound linked all live
  rw [unsound?, ranges, none_or, findSome?_eq_none_iff]
  intro seg mem
  refine unsoundIn?_eq_none sound all ?_
  intro sub listed
  obtain ⟨id, inside, rfl⟩ := mem_map.mp listed
  obtain ⟨sub, found, here⟩ := sound.coherent.lists.mem_idsIn.mp (Array.mem_toList_iff.mp inside)
  rw [subrange_eq_of_some found]
  exact ⟨id, found, here⟩

section

variable {g : Graph} (numbered : g.Numbered) (short : g.IsShort) {registers : Int}

include numbered short

theorem stepwise_assignRegisters (nonneg : 0 ≤ registers) (limit : Int) :
    match (ofGraph g registers).assignRegisters limit with
    | .ok after => Steps (ofGraph g registers) after ∧ after.AllAssigned
    | .error error => error.isClash = false := by
  have sound := sound_ofGraph numbered short nonneg
  cases settled : (ofGraph g registers).assignRegisters limit with
  | error error => exact isClash_of_settle sound settled
  | ok after =>
    exact ⟨(changes_settle settled).steps sound.coherent, allAssigned_settle sound.coherent settled⟩

theorem unsound?_of_assignRegisters (backlinked : g.Backlinked) (nonneg : 0 ≤ registers)
    {after} (settled : (ofGraph g registers).assignRegisters limit = .ok after) :
    after.unsound? = none := by
  have start := sound_ofGraph numbered short nonneg
  have stepwise := stepwise_assignRegisters numbered short nonneg limit
  rw [settled] at stepwise
  exact unsound?_eq_none (stepwise.1.sound start)
    (stepwise.1.linked start.coherent (linked_ofGraph numbered short registers backlinked))
    stepwise.2

end

theorem ofConfig_verify {g} (tied : g.Tied) (short : g.IsShort) (config : Config) :
    ofConfig g { config with verify := true } = ofConfig g { config with verify := false } := by
  have subdivides := Graph.subdivides_splitJoinEdges tied
  have same : precheck g { config with verify := true } =
      precheck g { config with verify := false } := rfl
  rw [ofConfig, ofConfig, same]
  cases accepted : precheck g { config with verify := false } with
  | error fault => rfl
  | ok _ =>
    have bounds := registers_of_precheck accepted
    simp only
    generalize (if config.maxPasses ≤ 0 then defaultMaxPasses else config.maxPasses) = limit
    cases settled : (ofGraph g.splitJoinEdges config.registers).assignRegisters limit with
    | error error => rfl
    | ok after =>
      have checked := unsound?_of_assignRegisters subdivides.numbered (subdivides.short short)
        subdivides.backlinked (by lia) settled
      change (refuse after.unsound?).bind _ = _
      rw [checked]
      rfl

/-- Whatever an assignment has done so far, overlapping ranges hold different registers of the
host.  So no scan meets two holders of one register, and if all sources are listed, a settled
assignment passes the check, and checking it makes no difference. -/
theorem assignment_keeps_registers_apart
    {graph : Graph}
    (numbered : graph.Numbered)
    (short : graph.IsShort)
    {registers : Int}
    (positive : 1 ≤ registers) :
    (∀ allocation, Steps (ofGraph graph registers) allocation →
      allocation.registers = registers ∧ allocation.Exclusive ∧
        ∀ segment ∈ graph.order,
          match allocation.assignSegment segment with
          | .ok (.complete after) => Steps allocation after
          | .ok (.changed after) => Steps allocation after
          | .error error => error.isClash = false) ∧
    (∀ limit,
      match (ofGraph graph registers).assignRegisters limit with
      | .ok after => Steps (ofGraph graph registers) after ∧ after.AllAssigned ∧
          (graph.Backlinked → after.unsound? = none)
      | .error error => error.isClash = false) ∧
    (graph.Backlinked → ∀ config : Config, config.registers = registers →
      graph.allocate { config with verify := true } =
        graph.allocate { config with verify := false }) := by
  have nonnegative : 0 ≤ registers := by lia
  have start := sound_ofGraph numbered short nonnegative
  refine ⟨?_, ?_, ?_⟩
  · intro allocation steps
    have sound := steps.sound start
    have target := steps.target_eq start.coherent
    rw [registers_ofGraph, graph_ofGraph] at target
    refine ⟨target.2, sound.exclusive, ?_⟩
    intro segment member
    have mem := target.1.symm ▸ member
    cases done : allocation.assignSegment segment with
    | error error => exact (outcome_assignSegment sound mem).isClash_eq done
    | ok pass =>
      have changes : Changes allocation pass.last := .head (.reorder mem) (changes_assignFrom done)
      cases pass <;> exact changes.steps sound.coherent
  · intro limit
    have stepwise := stepwise_assignRegisters numbered short nonnegative limit
    cases settled : (ofGraph graph registers).assignRegisters limit with
    | error error =>
        rw [settled] at stepwise
        exact stepwise
    | ok after =>
        rw [settled] at stepwise
        exact ⟨stepwise.1, stepwise.2, fun backlinked =>
          unsound?_of_assignRegisters numbered short backlinked nonnegative settled⟩
  · intro backlinked config _
    rw [Graph.allocate, ofConfig_verify ⟨numbered, backlinked⟩ short config]
    rfl

/-- Sums that start at a value, a loop that adds up registers until a condition holds, and what
follows the loop. -/
def summingLoop : Graph :=
  { entry := 0x02000000
    size := 64
    slots := [.gpr 3, .gpr 4, .gpr 5, .gpr 6]
    order := [0, 1, 2]
    segments := #[
      { id := 0
        instructions := [.pair .assign (some 0) (some 3) {}]
        notTaken := some 1 },
      { id := 1
        position := 1
        instructions := [
          .triple .add (some 0) (some 0) (some 1) {},
          .triple .add (some 2) (some 1) (some 0) {},
          .triple .add (some 3) (some 3) (some 2) {},
          .jumpIf 0x02000004 { field := 0, bit := 2, isSet := true }]
        taken := some 1
        notTaken := some 2
        prev := [0, 1]
        loopDepth := 1 },
      { id := 2
        position := 2
        instructions := [.triple .add (some 2) (some 3) (some 0) {}]
        prev := [1] }] }

theorem summingLoop_registers_apart :
    summingLoop.Numbered ∧ summingLoop.Backlinked ∧ summingLoop.IsShort ∧
      (∃ result, summingLoop.allocate { registers := 3, verify := true } = .ok result) ∧
      summingLoop.allocate { registers := 3, verify := true } =
        summingLoop.allocate { registers := 3, verify := false } := by
  have numbered : summingLoop.Numbered := by decide
  have backlinked : summingLoop.Backlinked := by decide
  have short : summingLoop.IsShort := by decide
  have succeeds : (summingLoop.allocate { registers := 3, verify := true }).isOk = true := by
    decide +kernel
  have apart := assignment_keeps_registers_apart numbered short (show (1 : Int) ≤ 3 by decide)
  refine ⟨numbered, backlinked, short, ?_, apart.2.2 backlinked { registers := 3 } rfl⟩
  generalize summingLoop.allocate { registers := 3, verify := true } = result at succeeds
  cases result with
  | error fault => cases succeeds
  | ok result => exact ⟨result, rfl⟩

/-- Two assignments of a register, the second with a link to the first that is not listed
there. -/
def unlistedLink : Graph :=
  { entry := 0x02000000
    size := 64
    slots := [.gpr 3]
    order := [0, 1]
    segments := #[
      { id := 0, instructions := [.immediate .assign (some 0) 5 {}] },
      { id := 1
        position := 1
        instructions := [.immediate .assign (some 0) 7 {}]
        notTaken := some 0 }] }

/-- Without complete source lists the check can fail where the allocation would not. -/
theorem unlistedLink_fails_check :
    unlistedLink.Numbered ∧ unlistedLink.IsShort ∧ unlistedLink.OperandsInTable ∧
      (unlistedLink.allocate { registers := 4, verify := false }).isOk = true ∧
      (unlistedLink.allocate { registers := 4, verify := true }).isOk = false := by
  refine ⟨by decide, by decide, ?_, by decide +kernel, by decide +kernel⟩
  decide

end Dynarec.Allocation
