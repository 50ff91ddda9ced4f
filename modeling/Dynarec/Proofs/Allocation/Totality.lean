import Dynarec.Proofs.Allocation.Coverage
import Dynarec.Proofs.Allocation.Occupancy
import Dynarec.Proofs.Allocation.Refit
import Dynarec.Proofs.Allocation.Sync
import Dynarec.Proofs.Graph.Usage

/-!
# Host registers for every operand

Once an assignment has succeeded, nothing can go wrong when host registers are
put into the code, as long as segments stay short.  In every segment the
subranges of one register are live one after the other, one of them is live
wherever an instruction names the register, and what is live behind the last
instruction leaves the segment.
-/

namespace Dynarec

open List Position Segment
namespace Allocation

section

variable {alloc : Allocation} (coherent : alloc.Coherent)

include coherent

theorem Coherent.orderly (seg : SegmentId) : alloc.Orderly (alloc.subrangesIn seg) := by
  constructor
  · have ids : (alloc.subrangesIn seg).map (·.id) = (alloc.idsIn seg).toList := by
      rw [subrangesIn, map_map]
      refine (map_congr_left fun id listed => ?_).trans (map_id _)
      obtain ⟨sub, found, -⟩ := coherent.lists.mem_idsIn.mp (Array.mem_toList_iff.mp listed)
      rw [Function.comp_apply, subrange_eq_of_some found, coherent.subrange_id found, id_eq]
    exact .of_map (·.id) (ids ▸ coherent.lists.nodup_idsIn seg)
  · intro sub mem other otherMem ne same
    obtain ⟨found, here⟩ := coherent.mem_subrangesIn.mp mem
    obtain ⟨otherFound, there⟩ := coherent.mem_subrangesIn.mp otherMem
    exact coherent.apart found otherFound (fun equal =>
      ne (Option.some.inj (found.symm.trans (equal ▸ otherFound))))
      (here.trans there.symm) same
  · intro sub mem
    obtain ⟨found, -⟩ := coherent.mem_subrangesIn.mp mem
    rcases (coherent.fits found).start_fits with entry | ⟨exit, -⟩ | ⟨first, head, start⟩
    · exact .inl entry
    · exact .inr (exit ▸ by decide)
    · exact .inr (start ▸ (coherent.index_bounds found (mem_of_mem_head? head)).1)
  · intro sub mem inside stays
    obtain ⟨found, -⟩ := coherent.mem_subrangesIn.mp mem
    obtain ⟨first, head, start⟩ := coherent.head_of_inside found inside stays
    exact start ▸ ((coherent.ordered found).covered (mem_of_mem_head? head)).2

theorem Coherent.provides (covered : alloc.Covered) (uses : alloc.graph.UsesTable)
    (mem : seg ∈ alloc.graph.order) (placed : WellPlaced (alloc.graph.segment seg).instructions)
    (found : (alloc.graph.segment seg).instructions[index]? = some instr) :
    alloc.Provides (alloc.subrangesIn seg) index instr := by
  intro reg listed
  have used := uses seg mem instr (mem_of_getElem? found)
  have inside : instr.isSuffix = false := by
    by_contra isSuffix
    rw [used.operands_eq_nil (by simpa using isSuffix)] at listed
    cases listed
  have accessed := (mem_locations_iff _).mpr ⟨index, instr, getElem?_body placed found inside,
    (instr.mem_registers_iff reg).mpr (Instruction.mem_reads_or_writes used.used listed), rfl⟩
  have bounds := used.bounds reg listed
  obtain ⟨id, sub, live, here, same, within⟩ := covered seg mem reg bounds.1 bounds.2 _ accessed
  have between := (coherent.ordered live).covered within
  refine ⟨sub, coherent.mem_subrangesIn.mpr ⟨?_, here⟩, same, ?_⟩
  · rw [coherent.subrange_id live, live]
  · simpa [Subrange.isLiveAt] using between

end

section

variable {alloc other : Allocation} (ranges_eq : other.ranges = alloc.ranges)

include ranges_eq

theorem registerOf_of_ranges_eq : other.registerOf = alloc.registerOf := by
  unfold registerOf range range?
  rw [ranges_eq]

theorem hostOf_of_ranges_eq : other.hostOf = alloc.hostOf := by
  unfold hostOf range range?
  rw [ranges_eq]

variable {permuted : List Subrange} (perm : permuted.Perm subs)

include perm

theorem Orderly.of_perm (orderly : alloc.Orderly subs) : other.Orderly permuted where
  nodup := perm.nodup_iff.mpr orderly.nodup
  apart := by
    rw [registerOf_of_ranges_eq ranges_eq]
    exact fun sub mem other otherMem =>
      orderly.apart sub (perm.mem_iff.mp mem) other (perm.mem_iff.mp otherMem)
  starts := fun sub mem => orderly.starts sub (perm.mem_iff.mp mem)
  lasts := fun sub mem => orderly.lasts sub (perm.mem_iff.mp mem)

theorem Provides.of_perm (provides : alloc.Provides subs index instr) :
    other.Provides permuted index instr := by
  intro reg listed
  obtain ⟨sub, mem, known⟩ := provides reg listed
  rw [registerOf_of_ranges_eq ranges_eq]
  exact ⟨sub, perm.mem_iff.mpr mem, known⟩

theorem Replaces.of_perm (replaces : other.Replaces permuted index instr instr') :
    alloc.Replaces subs index instr instr' := by
  obtain ⟨image, image_eq, replaced⟩ := replaces
  refine ⟨image, image_eq, fun reg listed => ?_⟩
  obtain ⟨sub, mem, known⟩ := replaced reg listed
  rw [registerOf_of_ranges_eq ranges_eq, hostOf_of_ranges_eq ranges_eq] at known
  exact ⟨sub, perm.mem_iff.mp mem, known⟩

end

/-- An allocation that can be put into code: every range holds a register of the host, operands lie
in live subranges, and there is room for all insertions. -/
structure Ready (alloc : Allocation) : Prop where
  coherent : alloc.Coherent
  numbered : alloc.graph.Numbered
  hosted : alloc.HostsListed
  all : alloc.AllAssigned
  unmoved : ∀ id ∈ alloc.graph.order, ∀ instr ∈
    (alloc.graph.segment id).instructions, instr.movesSlot = false
  provides : ∀ id ∈ alloc.graph.order, ∀ index instr,
    (alloc.graph.segment id).instructions[index]? = some instr →
      alloc.Provides (alloc.subrangesIn id) index instr
  room : ∀ id ∈ alloc.graph.order, (alloc.graph.segment id).length +
    insertions (alloc.subrangesIn id) < atExit

/-- The code of a segment after its loads, stores and host registers were put in. -/
structure Furnished (alloc : Allocation) (id : SegmentId) (code : Code) : Prop where
  /-- Nothing is added but the loads and stores that the subranges call for. -/
  length_eq : code.length = (alloc.graph.segment id).length + insertions (alloc.subrangesIn id)
  /-- No two subranges of one register are live at the same time. -/
  apart : ∀ sub ∈ alloc.subrangesIn id, ∀ other ∈ alloc.subrangesIn id,
    sub ≠ other → alloc.registerOf sub = alloc.registerOf other → sub.overlaps other = false
  /-- Between the loads and stores stand the old instructions.  Where one names a register, exactly
  one subrange of the register is live, and its host register takes the place of the register. -/
  replaced : ∀ {index instr}, (alloc.graph.segment id).instructions[index]? = some instr →
      ∃ image, (code.filter (!·.movesSlot))[index]? = some (instr.mapRegisters image) ∧
        ∀ reg ∈ instr.operands, ∃ sub, image reg = some (alloc.hostOf sub) ∧
            ∀ other, other ∈ alloc.subrangesIn id ∧ alloc.registerOf other = reg ∧
              other.isLiveAt index = true ↔ other = sub
  /-- What is live behind the last instruction leaves the segment. -/
  leaves : ∀ sub ∈ alloc.subrangesIn id,
    (alloc.graph.segment id).length < sub.stop → sub.stop = .atExit

section

variable {alloc current : Allocation} (ready : alloc.Ready) {id : SegmentId}

include ready

theorem Ready.seats (id : SegmentId) :
    alloc.Seats (alloc.graph.segment id).body.length (alloc.subrangesIn id) := by
  refine seats_of_hosts ready.coherent (fun {id range} live => ?_) id
  have assigned := ready.all live
  rw [LiveRange.isAssigned, decide_eq_true_eq] at assigned
  rcases ready.hosted id range live with unassigned | listed
  · rw [unassigned] at assigned
    cases assigned
  · exact alloc.hostRegisters_bounds _ listed

theorem Ready.hostsWithin : alloc.HostsWithin 32 :=
  ready.hosted.hostsWithin (Int.le_refl 32) alloc.hostRegisters_bounds

/-- One more segment can be given its loads, stores and host registers. -/
theorem Ready.exists_materializeSegment
    (materializing : alloc.Materializing (id :: pending) current) (mem : id ∈ alloc.graph.order) :
    ∃ after entered walked left code, current.materializeSegment id = .ok after ∧
      current.SegmentWoven id after entered walked left code ∧
      left.insertions.length = insertions (alloc.subrangesIn id) ∧
      ∀ index instr, (alloc.graph.segment id).instructions[index]? = some instr →
        ∃ instr', code[index]? = some instr' ∧
          alloc.Replaces (alloc.subrangesIn id) index instr instr' := by
  have coherent := ready.coherent
  have perm := materializing.perm_sortedIds
  have segment_eq := materializing.segment_eq id mem_cons_self
  have number : (current.graph.segment id).id = id := by
    rw [segment_eq, ready.numbered.segment_id mem]
  have total_eq : insertions ((current.sortedIds id).map current.subrange) =
      insertions (alloc.subrangesIn id) := by
    rw [insertions, insertions, perm.countP_eq, perm.countP_eq]
  have ranges_eq : (current.reorder id (current.sortedIds id)).ranges = alloc.ranges :=
    materializing.ranges_eq
  obtain ⟨entered, code, walked, left, enter, walk, leave, count_eq, replaced⟩ := exists_walk
    ((materializing.seats_reorder (ready.seats id)).mono (length_body_le _))
    ((coherent.orderly id).of_perm ranges_eq perm) (segment_eq ▸ ready.room id mem)
    ((current.graph.segment id).length - (current.graph.segment id).suffixCount)
    (materializing.subrangesIn_segment_id coherent ready.numbered mem) rfl total_eq
    fun index instr found =>
      (ready.provides id mem index instr (segment_eq ▸ found)).of_perm ranges_eq perm
  rw [number] at walk leave
  obtain ⟨after, done⟩ : ∃ after, current.materializeSegment id = .ok after :=
    ⟨_, (bind_eq_of_eq_ok enter _).trans ((bind_eq_of_eq_ok walk _).trans
      ((bind_eq_of_eq_ok leave _).trans rfl))⟩
  obtain ⟨_, _, _, _, woven⟩ := exists_segmentWoven done
  cases enter.symm.trans woven.enter
  cases walk.symm.trans woven.walk
  cases leave.symm.trans woven.leave
  refine ⟨after, entered, walked, left, code, done, woven, count_eq, fun index instr found => ?_⟩
  obtain ⟨instr', found', replaces⟩ := replaced index instr (segment_eq ▸ found)
  exact ⟨instr', found', replaces.of_perm ranges_eq perm⟩

/-- A segment that was given its loads, stores and host registers is furnished. -/
theorem Ready.furnished (mem : id ∈ alloc.graph.order) (ranges_eq : current.ranges = alloc.ranges)
    (segment_eq : current.graph.segment id = alloc.graph.segment id) {after}
    (woven : current.SegmentWoven id after entered walked left code)
    (count_eq : left.insertions.length = insertions (alloc.subrangesIn id))
    (replaced : ∀ index instr, (alloc.graph.segment id).instructions[index]? = some instr →
        ∃ instr', code[index]? = some instr' ∧
          alloc.Replaces (alloc.subrangesIn id) index instr instr') :
    alloc.Furnished id (Insertion.weave 0 left.insertions.reverse code) := by
  have orderly := ready.coherent.orderly id
  have within : current.HostsWithin 32 := by
    unfold HostsWithin
    rw [hostOf_of_ranges_eq ranges_eq]
    exact ready.hostsWithin
  have within' : (current.reorder id (current.sortedIds id)).HostsWithin 32 := within
  obtain ⟨entering, leaving⟩ := woven.tidy within
  have renamed := (moves_walkCode woven.walk).2
  rw [segment_eq] at renamed entering
  have plain := movesSlot_of_shape_eq (ready.unmoved id mem)
    (shape_eq_of_renamed within' entering renamed).1
  constructor
  · rw [length_weave, length_reverse, count_eq, ← renamed.length_eq, Segment.length, Nat.add_comm]
  · exact orderly.apart
  · intro index instr found
    obtain ⟨instr', found', image, rfl, held⟩ := replaced index instr found
    refine ⟨image, by rw [leaving.filter_weave plain, found'], fun reg listed => ?_⟩
    obtain ⟨sub, here, same, live, host⟩ := held reg listed
    refine ⟨sub, host, fun other => ⟨?_, ?_⟩⟩
    · rintro ⟨otherHere, otherSame, otherLive⟩
      by_contra different
      exact orderly.ne_of_isLiveAt otherHere here otherLive live different
        (otherSame.trans same.symm)
    · rintro rfl
      exact ⟨here, same, live⟩
  · intro sub listed behind
    by_contra stays
    have stop := (ready.seats id).stop_le sub listed stays
    have body := (alloc.graph.segment id).length_body_le
    lia

/-- All segments that wait can be given their loads, stores and host registers. -/
theorem Ready.exists_foldlM (materializing : alloc.Materializing pending current)
    (members : ∀ id ∈ pending, id ∈ alloc.graph.order) (nodup : pending.Nodup) :
    ∃ result, pending.foldlM materializeSegment current = .ok result ∧
      ∀ id ∈ pending, alloc.Furnished id (result.graph.segment id).instructions := by
  induction pending generalizing current with
  | nil => exact ⟨current, rfl, forall_mem_nil _⟩
  | cons first rest ih =>
    obtain ⟨mem, members⟩ := forall_mem_cons.mp members
    obtain ⟨fresh, nodup⟩ := nodup_cons.mp nodup
    obtain ⟨middle, entered, walked, left, code, done, woven, count_eq, replaced⟩ :=
      ready.exists_materializeSegment materializing mem
    have further := materializing.step ready.coherent ready.numbered (ready.seats first) mem woven
      fresh
    obtain ⟨result, more, furnished⟩ := ih further members nodup
    have inside : first < current.graph.segments.size :=
      materializing.size_eq ▸ ready.numbered.inside mem
    have code_eq : (result.graph.segment first).instructions =
        Insertion.weave 0 left.insertions.reverse code := by
      rw [segment_of_foldlM more fresh, woven.graph_eq, Graph.segment_modify inside, if_pos rfl]
    refine ⟨result, (bind_eq_of_eq_ok done _).trans more, forall_mem_cons.mpr ⟨?_, furnished⟩⟩
    rw [code_eq]
    exact ready.furnished mem materializing.ranges_eq
      (materializing.segment_eq first mem_cons_self) woven count_eq replaced

theorem Ready.exists_materialize :
    ∃ result, alloc.materialize = .ok result ∧ ∀ id ∈ alloc.graph.order,
      alloc.Furnished id (result.graph.segment id).instructions := by
  have start : alloc.Materializing alloc.graph.order alloc :=
    ⟨rfl, rfl, rfl, rfl, fun _ _ => rfl, fun _ _ => rfl, fun _ _ _ _ => rfl⟩
  exact ready.exists_foldlM start (fun _ listed => listed) ready.numbered.nodup_order

end

/-- An assignment that succeeds is ready to be put into code if there is room. -/
theorem ready_analyzeSync (numbered : g.Numbered)
    (placed : ∀ id ∈ g.order, WellPlaced (g.segment id).instructions) (uses : g.UsesTable)
    (unmoved : ∀ id ∈ g.order, ∀ instr ∈ (g.segment id).instructions,
      instr.movesSlot = false) {regs limit}
    (done : (ofGraph g regs).assignRegisters limit = .ok assigned)
    (room : ∀ id ∈ g.order, (g.segment id).length +
      insertions (assigned.analyzeSync.subrangesIn id) < atExit) : assigned.analyzeSync.Ready := by
  have graph_eq := graph_analyzeSync_assigned done
  have short : g.IsShort := by
    intro id mem
    have enough := room id mem
    lia
  have start := coherent_ofGraph numbered short regs
  have changes := changes_settle done
  have resyncs := resyncs_analyzeSync assigned
  have before := changes.coherent start
  have adjusts := resyncs.adjusts before
  have coherent := adjusts.coherent before
  have covered : assigned.analyzeSync.Covered :=
    (changes.covered start (covered_ofGraph numbered short regs)).of_houses resyncs.graph_eq
      fun housed => adjusts.houses before housed
  refine ⟨coherent, graph_eq ▸ numbered, hosted_analyzeSync done, ?_, graph_eq ▸ unmoved, ?_,
    graph_eq ▸ room⟩
  · intro id range live
    rw [resyncs.range?_eq] at live
    exact allAssigned_settle start done live
  · intro id mem index instr found
    exact coherent.provides covered (graph_eq ▸ uses) mem
      (graph_eq ▸ placed id (graph_eq ▸ mem)) found

end Allocation

namespace Graph

/-- Whatever the number of host registers, once an assignment for a function that was built has
succeeded, host registers can be put into its code, if every segment stays short with all its
loads and stores. -/
theorem exists_materialize_of_assignRegisters
    {memory : Memory}
    {options : Stream.Options}
    {stream : Stream}
    (generated : Stream.generate memory options = .ok stream)
    {buildOptions : BuildOptions}
    {graph : Graph}
    (built : build stream buildOptions = .ok graph)
    {registers limit : Int}
    {assigned : Allocation}
    (done : (Allocation.ofGraph graph.splitJoinEdges registers).assignRegisters limit =
      .ok assigned)
    (room : ∀ id ∈ graph.splitJoinEdges.order, (graph.splitJoinEdges.segment id).length +
      Allocation.insertions (assigned.analyzeSync.subrangesIn id) < Position.atExit) :
    ∃ result, assigned.analyzeSync.materialize = .ok result ∧
      ∀ id ∈ graph.splitJoinEdges.order,
        assigned.analyzeSync.Furnished id (result.graph.segment id).instructions := by
  obtain ⟨tied, -⟩ := isEntered_of_build generated built
  obtain ⟨slotted, -⟩ := slotted_of_build generated built
  obtain ⟨-, -, -, valid⟩ := of_build_eq_ok built
  have subdivides := subdivides_splitJoinEdges tied
  have ready := Allocation.ready_analyzeSync subdivides.numbered
    (subdivides.forall_code ⟨List.forall_mem_nil _, List.forall_mem_nil _⟩
      fun id listed => (of_error?_eq_none valid listed).1)
    (subdivides.usesTable (usesTable_of_build generated built))
    (subdivides.forall_code
      (motive := fun code => ∀ instruction ∈ code, instruction.movesSlot = false)
      (List.forall_mem_nil _) fun _ => slotted.all)
    done room
  obtain ⟨result, materialized, furnished⟩ := ready.exists_materialize
  rw [Allocation.graph_analyzeSync_assigned done] at furnished
  exact ⟨result, materialized, furnished⟩

/-- Memory with three sums, the last one of the first two, and a return. -/
def spilling : Memory where
  read address :=
    if address = 0x1000 then .word 0x7C642A14
    else if address = 0x1004 then .word 0x7CC74214
    else if address = 0x1008 then .word 0x7D233214
    else .word 0x4E800020
  slice _ _ := .ok []

/-- With three host registers the first sum is stored, and loaded again for the last one. -/
theorem spilling_materializes :
    ∃ stream graph assigned result, Stream.generate spilling { entry := 0x1000, count := 4 } =
        .ok stream ∧
      build stream {} = .ok graph ∧
      (Allocation.ofGraph graph.splitJoinEdges 3).assignRegisters 100 = .ok assigned ∧
      (∀ id ∈ graph.splitJoinEdges.order, (graph.splitJoinEdges.segment id).length +
        Allocation.insertions (assigned.analyzeSync.subrangesIn id) < Position.atExit) ∧
      (assigned.analyzeSync.subrangesIn 0).countP (assigned.analyzeSync.registerOf · = 0) = 2 ∧
      assigned.analyzeSync.materialize = .ok result ∧ (result.graph.segment 0).length = 13 ∧
      assigned.analyzeSync.Furnished 0 (result.graph.segment 0).instructions := by
  have evaluated : ((Stream.generate spilling { entry := 0x1000, count := 4 }).toOption.any
      fun stream => (build stream {}).toOption.any fun graph =>
        ((Allocation.ofGraph graph.splitJoinEdges 3).assignRegisters 100).toOption.any
          fun assigned => 0 ∈ graph.splitJoinEdges.order ∧
            (∀ id ∈ graph.splitJoinEdges.order, (graph.splitJoinEdges.segment id).length +
              Allocation.insertions (assigned.analyzeSync.subrangesIn id) < Position.atExit) ∧
            (assigned.analyzeSync.subrangesIn 0).countP
              (assigned.analyzeSync.registerOf · = 0) = 2 ∧
            (assigned.analyzeSync.graph.segment 0).length +
              Allocation.insertions (assigned.analyzeSync.subrangesIn 0) = 13) = true := by
    decide +kernel
  obtain ⟨stream, generated, evaluated⟩ := of_any_toOption evaluated
  obtain ⟨graph, built, evaluated⟩ := of_any_toOption evaluated
  obtain ⟨assigned, done, evaluated⟩ := of_any_toOption evaluated
  obtain ⟨member, room, twice, length⟩ := of_decide_eq_true evaluated
  obtain ⟨result, materialized, furnished⟩ :=
    exists_materialize_of_assignRegisters generated built done room
  exact ⟨stream, graph, assigned, result, generated, built, done, room, twice, materialized,
    (furnished 0 member).length_eq.trans length, furnished 0 member⟩

end Graph
end Dynarec
