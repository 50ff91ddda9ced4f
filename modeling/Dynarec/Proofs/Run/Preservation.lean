import Dynarec.Proofs.Allocation.Delivery
import Dynarec.Proofs.Compiler.Entry
import Dynarec.Proofs.Graph.Exits
import Dynarec.Proofs.Run.Rehosting
import Dynarec.Proofs.Run.Subdivision

/-!
# Host registers preserve the meaning of a function

A function in host registers is compared with the function that it was made
from, run with every register in its slot of named storage.  Whatever the
instructions mean and wherever the function is entered, both pass the same
segments and have the same environment behind each instruction.  When control
leaves for good, storage is the same, too.
-/

namespace Dynarec

open Allocation List Segment

namespace Allocation

variable {alloc : Allocation}

/-- A graph whose segments are those of a settled allocation with loads, stores and host
registers. -/
structure Rehosts (alloc : Allocation) (after : Graph) : Prop where
  settled : alloc.Settled
  numbered : alloc.graph.Numbered
  unmoved : ∀ {id}, id ∈ alloc.graph.order →
    ∀ instr ∈ (alloc.graph.segment id).instructions, instr.movesSlot = false
  woven : ∀ {id}, id ∈ alloc.graph.order → ∃ subs final woven image,
    subs.Perm (alloc.subrangesIn id) ∧ alloc.Woven subs (alloc.graph.segment id)
        (after.segment id).instructions final woven image
  link_eq : ∀ id side, (after.segment id).link side = (alloc.graph.segment id).link side

theorem isSuffix_of_mem_moves :
    ∀ instr ∈ alloc.storesOf storing ++ alloc.loadsOf loading, instr.isSuffix = false := by
  intro instr mem
  rcases mem_append.mp mem with store | load
  · obtain ⟨_, -, rfl⟩ := mem_map.mp store
    rfl
  · obtain ⟨_, -, rfl⟩ := mem_map.mp load
    rfl

theorem Translates.isSuffix_eq_false
    (translates : alloc.Translates subs index holders code final woven)
    (inside : ∀ instr ∈ code, instr.isSuffix = false) :
    ∀ instr ∈ woven, instr.isSuffix = false := by
  induction translates with
  | nil => exact isSuffix_of_mem_moves
  | cons rehosted more ih =>
    obtain ⟨first, others⟩ := forall_mem_cons.mp inside
    exact forall_mem_append.mpr ⟨isSuffix_of_mem_moves, forall_mem_cons.mpr ⟨first, ih others⟩⟩

/-- The code of a segment in host registers, divided in front of the instruction that ends it. -/
theorem Woven.body_eq_and_tail_eq {seg after : Segment}
    (weaving : alloc.Woven subs seg after.instructions final woven image) :
    after.body = woven ++ (alloc.storesOf final ++
        alloc.loadsOf (subs.filter (·.start = .atExit))) ∧
      after.tail = seg.tail.map (·.mapRegisters image) := by
  refine Segment.body_eq_and_tail_eq weaving.code_eq ?_ ?_
  · exact forall_mem_append.mpr ⟨weaving.translates.isSuffix_eq_false fun _ =>
      isSuffix_of_mem_body, isSuffix_of_mem_moves⟩
  · intro instr first
    cases tail : seg.tail with
    | nil =>
      rw [tail] at first
      cases first
    | cons final rest =>
      rw [tail, map_cons, head?_cons, Option.mem_some_iff] at first
      rw [← first, Instruction.isSuffix_mapRegisters]
      exact isSuffix_of_tail tail

section

variable {V E : Type} (meaning : Meaning V E) (visible : List SegmentId) {after : Graph}
  (rehosts : alloc.Rehosts after) {id : SegmentId} {named : Named V E} {hosted : Hosted V E}

/-- The states in which a segment may be entered with host registers and without. -/
def Enters (alloc : Allocation) (id : SegmentId) (named : Named V E) (hosted : Hosted V E) :
    Prop :=
  id ∈ alloc.graph.order ∧
    ∃ holders, alloc.Holding id 0 holders ∧ alloc.Carries 0 holders named hosted

include rehosts in
/-- A segment in host registers shows what the segment shows, delivers what it computes, and ends
with the same instruction in host registers. -/
theorem Rehosts.run_body (enters : alloc.Enters id named hosted) :
    ((meaning.hosted visible).run (after.segment id).body hosted).2 =
        ((meaning.named alloc.graph.slotOf visible).run (alloc.graph.segment id).body named).2 ∧
      alloc.Delivers id
        ((meaning.named alloc.graph.slotOf visible).run (alloc.graph.segment id).body named).1
        ((meaning.hosted visible).run (after.segment id).body hosted).1 ∧
      ∃ image, (after.segment id).tail = (alloc.graph.segment id).tail.map (·.mapRegisters image) ∧
        ∀ instr ∈ (alloc.graph.segment id).tail,
          (instr.mapRegisters image).shape = instr.shape := by
  obtain ⟨mem, holders, holding, carries⟩ := enters
  obtain ⟨subs, final, woven, image, permuted, weaving⟩ := rehosts.woven mem
  obtain ⟨body_eq, tail_eq⟩ := weaving.body_eq_and_tail_eq
  have listed sub : sub ∈ subs ↔ sub ∈ alloc.subrangesIn id := permuted.mem_iff
  have entry := holding_entry listed
  have start : alloc.Carries 0 (subs.filter (·.start = .atEntry)) named hosted :=
    carries.drop (fun sub held => (holding sub).mpr ((entry sub).mp held))
      fun sub held gone => absurd ((entry sub).mpr ((holding sub).mp held)) gone
  have small : (((alloc.graph.segment id).body.length : Nat) : Position) < Position.atExit :=
    Int.lt_of_le_of_lt (Int.ofNat_le.mpr (length_body_le _))
      (rehosts.settled.coherent.short id mem)
  have unmoved : ∀ instr ∈ (alloc.graph.segment id).body,
      instr.movesSlot = false := fun instr inside =>
    rehosts.unmoved mem instr ((List.takeWhile_prefix _).subset inside)
  obtain ⟨shown, holdingFinal, carriesFinal⟩ := weaving.translates.carries meaning visible
    rehosts.settled listed drop_zero unmoved (by rwa [Nat.zero_add]) entry start
  rw [Nat.zero_add] at holdingFinal carriesFinal
  obtain ⟨last, silent, delivers⟩ := carriesFinal.exit meaning visible rehosts.settled listed rfl
    small holdingFinal weaving.leaves
  refine ⟨?_, ?_, image, tail_eq, fun instr ends => ?_⟩
  · rw [body_eq, Machine.run_append, silent, append_nil, shown]
  · rw [body_eq, Machine.run_append, silent]
    exact delivers
  · have total : ∀ reg ∈ instr.operands, image reg = some ((image reg).getD 0) := by
      intro reg operand
      obtain ⟨sub, -, -, equal⟩ := weaving.rehosted instr ends reg operand
      rw [equal]
      rfl
    exact Instruction.shape_mapRegisters total

section

variable {slotOf : Register → Slot} {tail : Code} {image : Register → Option Register}
  (delivers : alloc.Delivers id named hosted)
  (same : ∀ instr ∈ tail, (instr.mapRegisters image).shape = instr.shape)

include delivers same

theorem Delivers.ends_hosted {next}
    (ends : (meaning.named slotOf visible).Ends tail named side shown next) :
    ∃ after, (meaning.hosted visible).Ends (tail.map (·.mapRegisters image)) hosted side shown
      after ∧ alloc.Delivers id next after := by
  cases ends with
  | fall => exact ⟨hosted, .fall hosted, delivers⟩
  | decide rest final decides =>
    obtain ⟨silent, kept, outcome⟩ := decides
    refine ⟨{ hosted with environment := next.environment }, .decide _ final ⟨silent, rfl, rfl, ?_⟩,
      rfl, kept ▸ delivers.storage_eq, kept ▸ delivers.registers_eq⟩
    rw [Meaning.decides] at outcome ⊢
    rw [delivers.environment_eq, same _ mem_cons_self]
    exact outcome

theorem Delivers.ends_named {next}
    (ends : (meaning.hosted visible).Ends (tail.map (·.mapRegisters image)) hosted side shown next)
    :
    ∃ after, (meaning.named slotOf visible).Ends tail named side shown after ∧
      alloc.Delivers id after next := by
  cases tail with
  | nil =>
    cases ends with
    | fall => exact ⟨named, .fall named, delivers⟩
  | cons instr rest =>
    cases ends with
    | decide _ final decides =>
      obtain ⟨silent, registers_eq, storage_eq, outcome⟩ := decides
      refine ⟨{ named with environment := next.environment }, .decide rest final ⟨silent, rfl, ?_⟩,
        rfl, storage_eq ▸ delivers.storage_eq, registers_eq ▸ delivers.registers_eq⟩
      rw [Meaning.decides] at outcome ⊢
      rw [← delivers.environment_eq, ← same _ mem_cons_self]
      exact outcome

end

include rehosts

theorem Rehosts.enters_of_delivers {next} (mem : id ∈ alloc.graph.order)
    (delivers : alloc.Delivers id named hosted)
    (link : (alloc.graph.segment id).link side = some next) : alloc.Enters next named hosted := by
  have holding := holding_entry fun sub : Subrange =>
    (Iff.rfl : sub ∈ alloc.subrangesIn next ↔ _)
  exact ⟨rehosts.numbered.link_mem mem link, _, holding,
    delivers.enter rehosts.settled mem link holding⟩

theorem Rehosts.exit_eq (delivers : alloc.Delivers id named hosted) (rest rest' : Code) :
    (meaning.hosted visible).exit (after.segment id) rest' hosted =
      (meaning.named alloc.graph.slotOf visible).exit (alloc.graph.segment id) rest
        named := by
  have taken := rehosts.link_eq id true
  have notTaken := rehosts.link_eq id false
  simp only [link] at taken notTaken
  have same : (after.segment id).successors = (alloc.graph.segment id).successors := by
    rw [successors, successors, taken, notTaken]
  show Meaning.exit _ _ = Meaning.exit _ _
  rw [Meaning.exit, Meaning.exit, same]
  split
  next last => rw [delivers.storage_eq_of_last rehosts.settled last]
  · rfl

theorem Rehosts.mirrors_named :
    Mirrors alloc.graph (meaning.named alloc.graph.slotOf visible) after (meaning.hosted visible)
      fun id named id' hosted => id' = id ∧ alloc.Enters id named hosted := by
  have reach {id named hosted} (enters : alloc.Enters id named hosted) :
      Runs (after.Step (meaning.hosted visible)) (.entering id hosted)
        ((meaning.named alloc.graph.slotOf visible).arrive id ++
          ((meaning.named alloc.graph.slotOf visible).run (alloc.graph.segment id).body named).2)
        (.running id (after.segment id).tail
          ((meaning.hosted visible).run (after.segment id).body hosted).1) := by
    have run : Runs (after.Step (meaning.hosted visible)) _ _ _ := runs_segment id hosted
    rwa [(rehosts.run_body meaning visible enters).1] at run
  constructor
  · rintro id named _ hosted ⟨rfl, enters⟩
    exact .of_runs (reach enters) (prefix_refl _)
  · rintro id named _ hosted side shown next ⟨rfl, enters⟩ ends link
    obtain ⟨-, delivers, image, tail_eq, same⟩ := rehosts.run_body meaning visible enters
    obtain ⟨after, hostedEnds, delivers⟩ := delivers.ends_hosted meaning visible same ends
    rw [← tail_eq] at hostedEnds
    rw [← rehosts.exit_eq meaning visible delivers]
    exact .of_leave (reach enters) hostedEnds ((rehosts.link_eq _ side).trans link)
  · rintro id named _ hosted side shown next _ ⟨rfl, enters⟩ ends link
    obtain ⟨-, delivers, image, tail_eq, same⟩ := rehosts.run_body meaning visible enters
    obtain ⟨after, hostedEnds, delivers⟩ := delivers.ends_hosted meaning visible same ends
    rw [← tail_eq] at hostedEnds
    exact ⟨next, _, ⟨rfl, rehosts.enters_of_delivers enters.1 delivers link⟩,
      (reach enters).trans (.single (.follow hostedEnds ((rehosts.link_eq _ side).trans link)))⟩

theorem Rehosts.mirrors_hosted :
    Mirrors after (meaning.hosted visible) alloc.graph (meaning.named alloc.graph.slotOf visible)
      fun id hosted id' named => id' = id ∧ alloc.Enters id named hosted := by
  have reach {id named hosted} (enters : alloc.Enters id named hosted) :
      Runs (alloc.graph.Step (meaning.named alloc.graph.slotOf visible))
        (.entering id named)
        ((meaning.hosted visible).arrive id ++
          ((meaning.hosted visible).run (after.segment id).body hosted).2)
        (.running id (alloc.graph.segment id).tail ((meaning.named alloc.graph.slotOf visible).run
            (alloc.graph.segment id).body named).1) := by
    have run : Runs (alloc.graph.Step (meaning.named alloc.graph.slotOf visible)) _ _ _ :=
      runs_segment id named
    rwa [← (rehosts.run_body meaning visible enters).1] at run
  constructor
  · rintro id hosted _ named ⟨rfl, enters⟩
    exact .of_runs (reach enters) (prefix_refl _)
  · rintro id hosted _ named side shown next ⟨rfl, enters⟩ ends link
    obtain ⟨-, delivers, image, tail_eq, same⟩ := rehosts.run_body meaning visible enters
    rw [tail_eq] at ends
    obtain ⟨after, namedEnds, delivers⟩ := delivers.ends_named meaning visible same ends
    rw [rehosts.exit_eq meaning visible delivers]
    exact .of_leave (reach enters) namedEnds ((rehosts.link_eq _ side).symm.trans link)
  · rintro id hosted _ named side shown next _ ⟨rfl, enters⟩ ends link
    obtain ⟨-, delivers, image, tail_eq, same⟩ := rehosts.run_body meaning visible enters
    rw [tail_eq] at ends
    obtain ⟨after, namedEnds, delivers⟩ := delivers.ends_named meaning visible same ends
    rw [rehosts.link_eq] at link
    exact ⟨next, _, ⟨rfl, rehosts.enters_of_delivers enters.1 delivers link⟩,
      (reach enters).trans (.single (.follow namedEnds link))⟩

theorem Rehosts.observes_iff (enters : alloc.Enters id named hosted) (shown : List (Sight V E)) :
    Observes (alloc.graph.Step (meaning.named alloc.graph.slotOf visible))
        (.entering id named) shown ↔
      Observes (after.Step (meaning.hosted visible)) (.entering id hosted) shown :=
  ⟨(rehosts.mirrors_named meaning visible).observes ⟨rfl, enters⟩,
    (rehosts.mirrors_hosted meaning visible).observes ⟨rfl, enters⟩⟩

end

/-- An allocation that enters a segment with no holders enters it in every state. -/
theorem enters_of_isUnreached {V E : Type} (settled : alloc.Settled)
    {id} (mem : id ∈ alloc.graph.order) (unreached : alloc.graph.IsUnreached id)
    (storage : Slot → V) (environment : E) (regs : Register → V) :
    alloc.Enters id ⟨storage, environment⟩ ⟨regs, storage, environment⟩ := by
  refine ⟨mem, [], fun sub => ?_, rfl, fun _ => rfl, forall_mem_nil _, forall_mem_nil _⟩
  refine iff_of_false not_mem_nil ?_
  rintro ⟨listed, entry⟩
  obtain ⟨found, rfl⟩ := settled.coherent.mem_subrangesIn.mp listed
  obtain ⟨source, sourceMem, leads⟩ := settled.linked.enters found entry
  obtain ⟨side, link⟩ := mem_successors_iff.mp leads
  exact unreached source sourceMem side link

theorem settled_analyzeSync (tied : g.Tied) (short : g.IsShort)
    (nodup : g.slots.Nodup) {registers} (nonneg : 0 ≤ registers)
    (few : registers ≤ 32) (done : (ofGraph g registers).assignRegisters limit = .ok assigned) :
    assigned.analyzeSync.Settled := by
  have start := sound_ofGraph tied.numbered short nonneg
  have stepwise := stepwise_assignRegisters tied.numbered short nonneg limit
  rw [done] at stepwise
  obtain ⟨steps, all⟩ := stepwise
  have sound := steps.sound start
  have linked := steps.linked start.coherent
    (linked_ofGraph tied.numbered short registers tied.backlinked)
  have registers_eq : assigned.analyzeSync.registers = registers :=
    congrArg (·.2.1) (setting_analyzeSync_assigned done)
  have framed := (Liveness.Derived.leave (.merge .accesses)).framed tied.numbered short
  have threaded := (changes_settle done).edits.induction
    (threaded_buildRanges tied short framed registers) Edit.threaded
  obtain ⟨resyncs, synced⟩ :=
    synced_analyzeSync threaded.toOwned threaded.continued threaded.undelayed
  have refines := (resyncs.adjusts sound.coherent).refines sound.coherent
  refine ⟨resyncs.sound sound, refines.linked sound.coherent linked, ?_, synced,
    registers_eq ▸ few, graph_analyzeSync_assigned done ▸ nodup⟩
  intro id range live
  rw [resyncs.range?_eq] at live
  exact all live

end Allocation

theorem Segment.length_tail_le_one {seg : Segment} (placed : WellPlaced seg.instructions) :
    seg.tail.length ≤ 1 := by
  cases tail : seg.tail with
  | nil => exact Nat.zero_le 1
  | cons instr rest =>
    cases rest with
    | nil => exact Nat.le_refl 1
    | cons other rest =>
      have early : instr ∈ seg.instructions.dropLast := by
        rw [← seg.body_append_tail, tail, dropLast_append_cons, dropLast_cons_cons]
        exact mem_append_right _ mem_cons_self
      have inside := placed.suffix_last instr early
      rw [isSuffix_of_tail tail] at inside
      cases inside

namespace Graph

/-- The function in host registers is made from the function with edges split, whose allocation
is settled. -/
theorem exists_rehosts {g : Graph} {slots} (tied : g.Tied) (slotted : g.Slotted slots)
    (nodup : slots.Nodup) (placed : ∀ id ∈ g.order, WellPlaced (g.segment id).instructions)
    {after} {stats : AllocationStats} (allocated : g.allocate config = .ok (after, stats))
    (short : after.IsShort) :
    ∃ alloc : Allocation, alloc.graph = g.splitJoinEdges ∧ alloc.Rehosts after := by
  have subdivides := subdivides_splitJoinEdges tied
  obtain ⟨⟨pos, few⟩, limit, assigned, result, assigning, materialized, -, released, code_eq⟩ :=
    exists_of_allocate allocated
  have recoded := recoded_materialize materialized
  have shortResult : result.graph.IsShort := by
    intro id mem
    rw [Segment.length, ← code_eq]
    exact short id (released.order_eq ▸ mem)
  have orig := graph_analyzeSync_assigned assigning
  have shortSplit : g.splitJoinEdges.IsShort := by
    intro id mem
    rw [← orig] at mem ⊢
    exact Int.lt_of_le_of_lt (Int.ofNat_le.mpr (length_le_of_materialize materialized id))
      (shortResult id (recoded.order_eq ▸ mem))
  have slots_eq : g.splitJoinEdges.slots = slots := by
    rw [subdivides.shape_eq]
    exact slotted.slots_eq
  have settled := settled_analyzeSync subdivides.toTied
    shortSplit (slots_eq ▸ nodup) (Int.le_of_lt pos) few assigning
  refine ⟨assigned.analyzeSync, orig, settled, orig ▸ subdivides.numbered, ?_, ?_, ?_⟩
  · rw [orig]
    exact fun {id} => subdivides.forall_code
      (motive := fun code => ∀ instr ∈ code, instr.movesSlot = false)
      (forall_mem_nil _) (fun _ => slotted.all) id
  · intro id mem
    rw [code_eq]
    refine exists_woven_of_materialize settled.toSound settled.all settled.few
      (orig ▸ subdivides.numbered) ?_ materialized shortResult mem
    rw [orig]
    exact fun id mem => length_tail_le_one (subdivides.forall_code
      ⟨forall_mem_nil _, forall_mem_nil _⟩ placed id mem)
  · exact (recoded.trans released).link_eq

/-- A function that was built and the function in host registers that is made from it show the
same, whatever its instructions mean, wherever it is entered, and whatever storage, environment and
host registers hold then: the segments of the function that are passed, the environment behind each
of its instructions, and storage where control leaves a segment that nothing follows. -/
theorem allocate_preserves_meaning
    {memory : Memory}
    {options : Stream.Options}
    {stream : Stream}
    (generated : Stream.generate memory options = .ok stream)
    {buildOptions : BuildOptions}
    {graph : Graph}
    (built : build stream buildOptions = .ok graph)
    {config : Allocation.Config}
    {after : Graph}
    {stats : AllocationStats}
    (allocated : graph.allocate config = .ok (after, stats))
    (short : after.IsShort)
    {V E : Type}
    (meaning : Meaning V E)
    {id : SegmentId}
    (member : id ∈ graph.order)
    (enterable : (graph.segment id).enterable = true)
    (storage : Slot → V)
    (environment : E)
    (registers : Register → V)
    (shown : List (Sight V E)) :
    Observes (graph.Step (meaning.named graph.slotOf graph.order))
        (.entering id ⟨storage, environment⟩) shown ↔
      Observes (after.Step (meaning.hosted graph.order))
        (.entering id ⟨registers, storage, environment⟩) shown := by
  obtain ⟨tied, -⟩ := isEntered_of_build generated built
  obtain ⟨slotted, nodup⟩ := slotted_of_build generated built
  obtain ⟨-, -, -, valid⟩ := of_build_eq_ok built
  obtain ⟨allocation, original, rehosts⟩ := exists_rehosts tied slotted nodup
    (fun id listed => (of_error?_eq_none valid listed).1) allocated short
  have subdivides := subdivides_splitJoinEdges tied
  rw [← original] at subdivides
  have unreached : graph.IsUnreached id :=
    .of_prev_eq_nil tied.backlinked member ((of_error?_eq_none valid member).2 enterable)
  have enters := Allocation.enters_of_isUnreached rehosts.settled (subdivides.mem_order member)
    (subdivides.isUnreached member unreached) storage environment registers
  have slotOf_eq : allocation.graph.slotOf = graph.slotOf := by
    rw [subdivides.shape_eq]
    rfl
  have hosts := rehosts.observes_iff meaning graph.order enters shown
  rw [slotOf_eq] at hosts
  refine Iff.trans (subdivides.observes_iff tied.numbered ?_ ?_ member _ shown) hosts
  · intro other unlisted
    exact if_neg unlisted
  · intro other listed
    funext rest state
    simp only [Meaning.named, Meaning.exit, subdivides.successors_eq_nil_iff listed]

/-- Memory with a loop that adds up a counter and returns. -/
def counting : Memory where
  read address :=
    if address = 0x1000 then .word 0x38630001
    else if address = 0x1004 then .word 0x7C841A14
    else if address = 0x1008 then .word 0x4200FFF8
    else .word 0x4E800020
  slice _ _ := .ok []

/-- Instructions that write the sum of what they read, with an environment that counts them, and
jumps that are taken until the count is large. -/
def tallying : Meaning Nat Nat where
  effect _ values count := (fun index => values.foldl (· + ·) index, count + 1)
  branches _ count side after := side = decide (count < 40) ∧ after = count

theorem counting_keeps_meaning :
    ∃ stream graph after stats, Stream.generate counting { entry := 0x1000, count := 4 } =
        .ok stream ∧
      build stream {} = .ok graph ∧ graph.slots.length = 3 ∧
      graph.allocate { registers := 2 } = .ok (after, stats) ∧ stats.stores = 3 ∧
      after.IsShort ∧ 2 ∈ graph.order ∧ (graph.segment 2).enterable = true ∧
      ∀ shown, Observes (graph.Step (tallying.named graph.slotOf graph.order))
          (.entering 2 ⟨fun _ => 7, 0⟩) shown ↔
        Observes (after.Step (tallying.hosted graph.order))
          (.entering 2 ⟨fun _ => 99, fun _ => 7, 0⟩) shown := by
  have evaluated : ((Stream.generate counting { entry := 0x1000, count := 4 }).toOption.any
      fun stream => (build stream {}).toOption.any fun graph =>
        (graph.allocate { registers := 2 }).toOption.any fun result =>
          graph.slots.length = 3 ∧ result.2.stores = 3 ∧ result.1.IsShort ∧ 2 ∈ graph.order ∧
            (graph.segment 2).enterable = true) = true := by
    decide +kernel
  obtain ⟨stream, generated, evaluated⟩ := of_any_toOption evaluated
  obtain ⟨graph, built, evaluated⟩ := of_any_toOption evaluated
  obtain ⟨⟨after, stats⟩, allocated, evaluated⟩ := of_any_toOption evaluated
  obtain ⟨three, stores, short, member, enterable⟩ := of_decide_eq_true evaluated
  exact ⟨stream, graph, after, stats, generated, built, three, allocated, stores, short, member,
    enterable, allocate_preserves_meaning generated built allocated short tallying member enterable
      (fun _ => 7) 0 fun _ => 99⟩

end Graph
end Dynarec
