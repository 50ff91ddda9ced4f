import Dynarec.Proofs.Allocation.Materialize
import Dynarec.Proofs.Compiler.Entry
import Dynarec.Proofs.Graph.Exits
import Dynarec.Proofs.Graph.Slots
import Mathlib.Algebra.Ring.Nat

/-!
# What an allocation changes

An allocation puts host registers in the place of registers and moves of slots
between the instructions, and it changes nothing else.  Without the moves every
segment holds its old code, up to the names of registers, and the instruction
that ends it is still last.  A new segment holds moves only and stands on a fall
through that was there before.  So a graph that passed all checks still does.
-/

namespace Dynarec

open Bool Insertion Instruction List Option

theorem Instruction.isPlaceholder_eq_false {ρ : Type} {instr : Instruction ρ}
    (moves : instr.movesSlot) : instr.isPlaceholder = false := by
  simp only [movesSlot, or_eq_true, decide_eq_true_eq] at moves
  cases moves with
  | inl kind_eq => simp [isPlaceholder, kind_eq]
  | inr kind_eq => simp [isPlaceholder, kind_eq]

theorem Instruction.movesSlot_eq_false {ρ : Type} {instr : Instruction ρ}
    (isSuffix : instr.isSuffix) : instr.movesSlot = false := by
  unfold Instruction.isSuffix at isSuffix
  unfold movesSlot
  split at isSuffix
  next kind_eq => simp [kind_eq]
  next kind_eq => simp [kind_eq]
  next kind_eq => simp [kind_eq]
  · cases isSuffix

namespace Allocation

/-! ## Registers of the host -/

section

variable {alloc : Allocation}

/-- Every range holds a register of the host or none. -/
def HostsListed (alloc : Allocation) : Prop :=
  ∀ id range, alloc.range? id = some range →
    range.host = -1 ∨ range.host ∈ alloc.hostRegisters

theorem Edit.hosted {before after} (edit : Edit before after)
    (hosted : before.HostsListed) : after.HostsListed := by
  have registers_eq : after.hostRegisters = before.hostRegisters := by
    have same : after.registers = before.registers := congrArg (·.2.1) edit.setting_eq
    rw [hostRegisters, hostRegisters, same]
  intro id range live
  rw [registers_eq]
  cases edit with
  | reorder seg ids => exact hosted id range live
  | assign target listed =>
    rw [range?_modifyRange] at live
    split at live
    · obtain ⟨old, -, rfl⟩ := map_eq_some_iff.mp live
      exact .inr listed
    · exact hosted id range live
  | count loads_eq stores_eq => exact hosted id range live
  | isolate source reg slot start accesses inside stays =>
    rw [range?_addSubrange, range?_addRange] at live
    split at live
    · rw [if_pos (Eq.symm ‹_›)] at live
      cases live
      exact .inl rfl
    · rw [if_neg (Ne.symm ‹_›)] at live
      exact hosted id range live
  | shorten found stays lower inside => exact hosted id range live
  | drop dropped =>
    rw [range?_dropRange] at live
    split at live
    · cases live
    · exact hosted id range live

/-- Every operand that stands for a range is a register of the host. -/
def HostsWithin (alloc : Allocation) (registers : Int) : Prop :=
  ∀ sub operand, hostOperand (alloc.hostOf sub) = some operand →
    0 ≤ operand ∧ operand < registers

theorem HostsListed.hostsWithin (hosted : alloc.HostsListed) {count} (few : count ≤ 32)
    (bounds : ∀ host ∈ alloc.hostRegisters, 0 ≤ host ∧ host < count) : alloc.HostsWithin count := by
  intro sub operand operand_eq
  have host : alloc.hostOf sub = -1 ∨ alloc.hostOf sub ∈ alloc.hostRegisters := by
    rw [hostOf, range]
    cases live : alloc.range? sub.range with
    | none => exact .inl rfl
    | some range => exact hosted _ range live
  cases host with
  | inl unassigned =>
    rw [unassigned] at operand_eq
    cases operand_eq
  | inr listed =>
    have within := bounds _ listed
    rw [hostOperand, Int.bmod_eq_of_le (by lia) (by lia)] at operand_eq
    split at operand_eq
    · cases operand_eq
    · cases operand_eq
      exact within

theorem hostRegisters_bounds (alloc : Allocation) :
    ∀ host ∈ alloc.hostRegisters, 0 ≤ host ∧ host < 32 := by
  intro host listed
  obtain ⟨number, inside, rfl⟩ := mem_map.mp listed
  rw [mem_range] at inside
  split at inside <;> simp only [Int.ofNat_eq_natCast] <;> lia

theorem hosted_analyzeSync {registers limit}
    (done : (ofGraph g registers).assignRegisters limit = .ok alloc) :
    alloc.analyzeSync.HostsListed := by
  have assigned : alloc.HostsListed := (changes_settle done).edits.induction (motive := HostsListed)
      (fun id range live => .inl (host_buildRanges _ _ _ id range live))
      fun edit hosted => edit.hosted hosted
  exact analyzeSync_induction (motive := HostsListed) assigned (fun _ _ hosted => hosted)
    fun hosted => hosted

theorem hostsWithin_analyzeSync {registers limit} (pos : 1 ≤ registers)
    (few : registers ≤ 32) (done : (ofGraph g registers).assignRegisters limit = .ok alloc) :
    alloc.analyzeSync.HostsWithin registers := by
  have registers_eq : alloc.analyzeSync.registers = registers :=
    congrArg (·.2.1) (setting_analyzeSync_assigned done)
  refine (hosted_analyzeSync done).hostsWithin few fun host listed => ?_
  obtain ⟨number, inside, rfl⟩ := mem_map.mp listed
  rw [mem_range, registers_eq, if_neg (by lia)] at inside
  lia

end

/-! ## Walks -/

/-- A walk over a segment that ends behind `last` instructions, with nothing but moves of slots
inserted in front of the end, each of them counted, and registers of the host bound. -/
structure Walk.Tidy (registers : Int) (last : Nat) (walk : Walk) : Prop where
  early : ∀ insertion ∈ walk.insertions, insertion.boundary ≤ last
  movesSlot : ∀ insertion ∈ walk.insertions, insertion.instruction.movesSlot
  operands : ∀ insertion ∈ walk.insertions, ∀ operand ∈ insertion.instruction.operands,
    0 ≤ operand ∧ operand < registers
  loads_eq : walk.loads = walk.insertions.countP (·.instruction.kind = .loadSlot)
  stores_eq : walk.stores = walk.insertions.countP (·.instruction.kind = .storeSlot)
  bound : ∀ operand, some operand ∈ walk.bound → 0 ≤ operand ∧ operand < registers

section

variable {alloc : Allocation} {registers : Int} {walk after : Walk}

theorem Walk.Tidy.of_operandOf (tidy : walk.Tidy registers last)
    (held : walk.operandOf reg = some operand) : 0 ≤ operand ∧ operand < registers := by
  rw [operandOf] at held
  split at held
  · cases held
  · rw [Array.getD_eq_getD_getElem?] at held
    cases entry : walk.bound[reg.toNat]? with
    | none =>
      rw [entry] at held
      cases held
    | some value =>
      rw [entry, getD_some] at held
      exact tidy.bound operand (held ▸ Array.mem_of_getElem? entry)

theorem Walk.Tidy.setIfInBounds (tidy : walk.Tidy registers last) (reg : Nat)
    (within : ∀ operand, value = some operand → 0 ≤ operand ∧ operand < registers) :
    ({ walk with bound := walk.bound.setIfInBounds reg value } : Walk).Tidy registers last := by
  refine { tidy with bound := fun operand listed => ?_ }
  cases Array.mem_or_eq_of_mem_setIfInBounds listed with
  | inl old => exact tidy.bound operand old
  | inr new => exact within operand new.symm

theorem Move.tidy (within : alloc.HostsWithin registers) (move : alloc.Move last walk after)
    (tidy : walk.Tidy registers last) : after.Tidy registers last := by
  cases move with
  | load sub early =>
    have operands : ∀ operand ∈ (alloc.loadOf sub).operands,
        0 ≤ operand ∧ operand < registers := fun operand listed =>
      within sub operand (by simpa [loadOf] using listed)
    exact ⟨forall_mem_cons.mpr ⟨early, tidy.early⟩, forall_mem_cons.mpr ⟨rfl, tidy.movesSlot⟩,
      forall_mem_cons.mpr ⟨operands, tidy.operands⟩,
      (congrArg (· + 1) tidy.loads_eq).trans (countP_cons_of_pos rfl).symm,
      tidy.stores_eq.trans (countP_cons_of_neg (by simp [loadSlot])).symm, tidy.bound⟩
  | store sub early =>
    have operands : ∀ operand ∈ (alloc.storeOf sub).operands,
        0 ≤ operand ∧ operand < registers := fun operand listed =>
      within sub operand (by simpa [storeOf] using listed)
    exact ⟨forall_mem_cons.mpr ⟨early, tidy.early⟩, forall_mem_cons.mpr ⟨rfl, tidy.movesSlot⟩,
      forall_mem_cons.mpr ⟨operands, tidy.operands⟩,
      tidy.loads_eq.trans (countP_cons_of_neg (by simp [storeSlot])).symm,
      (congrArg (· + 1) tidy.stores_eq).trans (countP_cons_of_pos rfl).symm, tidy.bound⟩
  | bind reg sub => exact tidy.setIfInBounds _ fun operand => within sub operand
  | unbind reg => exact tidy.setIfInBounds _ fun _ absent => nomatch absent
  | turn live starts => exact { tidy with }

theorem Moves.tidy (within : alloc.HostsWithin registers) (moves : alloc.Moves last walk after)
    (tidy : walk.Tidy registers last) : after.Tidy registers last := by
  induction moves with
  | refl => exact tidy
  | tail _ move ih => exact move.tidy within ih

end

/-! ## Code of one segment -/

/-- Code in host registers with moves of slots between its instructions.  Without the moves it is
the old code, up to the names of registers, and an instruction that ended it is still last. -/
structure Refitted (registers : Int) (before after : Code) : Prop where
  shape_eq : (after.filter (!·.movesSlot)).map shape = before.map shape
  last : ∀ {last}, before.getLast? = some last → last.isSuffix →
    ∃ final, after.getLast? = some final ∧ final.shape = last.shape
  operands : ∀ instr ∈ after, ∀ operand ∈ instr.operands, 0 ≤ operand ∧ operand < registers

section

variable {alloc : Allocation} {registers : Int} {code : Code} {left : Walk}
  {before after : Allocation} {id : SegmentId}

theorem Renamed.shape_eq (renamed : alloc.Renamed last start instr instr') :
    instr'.shape = instr.shape := by
  obtain ⟨walk, -, bound, rfl⟩ := renamed
  have total : ∀ reg ∈ instr.operands, walk.operandOf reg = some ((walk.operandOf reg).getD 0) := by
    intro reg mem
    obtain ⟨operand, held⟩ := isSome_iff_exists.mp (bound reg mem)
    rw [held, getD_some]
  exact shape_mapRegisters total

theorem shape_eq_of_renamed (within : alloc.HostsWithin registers)
    (tidy : start.Tidy registers last)
    (renamed : List.Forall₂ (alloc.Renamed last start) code code') :
    code'.map shape = code.map shape ∧ ∀ instr ∈ code', ∀ operand ∈ instr.operands,
        0 ≤ operand ∧ operand < registers := by
  induction renamed with
  | nil => exact ⟨rfl, forall_mem_nil _⟩
  | cons first _ ih =>
    rw [map_cons, map_cons, first.shape_eq, ih.1]
    refine ⟨rfl, forall_mem_cons.mpr ⟨fun operand listed => ?_, ih.2⟩⟩
    obtain ⟨walk, moves, -, rfl⟩ := first
    obtain ⟨reg, -, held⟩ := exists_of_mem_operands_mapRegisters listed
    exact (moves.tidy within tidy).of_operandOf held

theorem movesSlot_of_shape_eq {before : Code} (unmoved : ∀ instr ∈ before, instr.movesSlot = false)
    (shape_eq : code.map shape = before.map shape) : ∀ instr ∈ code, instr.movesSlot = false := by
  intro instr mem
  obtain ⟨orig, listed, same⟩ := exists_mem_of_map_shape_eq shape_eq mem
  have equal := congrArg movesSlot same
  exact equal.trans (unmoved orig listed)

theorem Walk.Tidy.filter_weave (tidy : left.Tidy registers last)
    (plain : ∀ instr ∈ code, instr.movesSlot = false) :
    (weave 0 left.insertions.reverse code).filter (!·.movesSlot) = code := by
  rw [Allocation.filter_weave, filter_eq_self.mpr]
  · exact fun instr mem => by simp [plain instr mem]
  · exact fun insertion listed => by simp [tidy.movesSlot insertion (mem_reverse.mp listed)]

theorem Walk.Tidy.refitted {seg : Segment}
    (tidy : left.Tidy registers (seg.length - seg.suffixCount))
    (unmoved : ∀ instr ∈ seg.instructions, instr.movesSlot = false)
    (shape_eq : code.map shape = seg.instructions.map shape)
    (operands : ∀ instr ∈ code, ∀ operand ∈ instr.operands, 0 ≤ operand ∧ operand < registers) :
    Refitted registers seg.instructions (weave 0 left.insertions.reverse code) ∧
      left.loads = (weave 0 left.insertions.reverse code).countP (·.kind = .loadSlot) ∧
      left.stores = (weave 0 left.insertions.reverse code).countP (·.kind = .storeSlot) := by
  have plain := movesSlot_of_shape_eq unmoved shape_eq
  have perm := perm_weave 0 left.insertions.reverse code
  have counts {kind : Kind} (moves : kind = .loadSlot ∨ kind = .storeSlot) :
      (weave 0 left.insertions.reverse code).countP (·.kind = kind) =
        left.insertions.countP (·.instruction.kind = kind) := by
    have none : code.countP (·.kind = kind) = 0 := by
      rw [countP_eq_zero]
      intro instr mem
      have still := plain instr mem
      simp only [Instruction.movesSlot, or_eq_false_iff, decide_eq_false_iff_not] at still
      rcases moves with rfl | rfl
      · simpa using still.1
      · simpa using still.2
    rw [perm.countP_eq, countP_append, none, countP_map, countP_reverse]
    rfl
  refine ⟨⟨?_, ?_, ?_⟩, ?_, ?_⟩
  · rw [tidy.filter_weave plain, shape_eq]
  · intro final final_eq isSuffix
    have count : seg.suffixCount = 1 := by
      rw [Segment.suffixCount, Segment.last?, final_eq]
      simp [isSuffix]
    have length_eq : code.length = seg.length := by
      have same := congrArg List.length shape_eq
      rwa [length_map, length_map] at same
    have nonempty : code ≠ [] := by
      rintro rfl
      rw [map_nil, eq_comm, map_eq_nil_iff] at shape_eq
      rw [shape_eq] at final_eq
      cases final_eq
    have pos := length_pos_of_ne_nil nonempty
    rw [getLast?_weave 0 nonempty]
    · have same := congrArg List.getLast? shape_eq
      rw [getLast?_map, getLast?_map, final_eq] at same
      exact map_eq_some_iff.mp same
    · intro insertion listed
      have early := tidy.early insertion (mem_reverse.mp listed)
      lia
  · intro instr mem
    rcases mem_append.mp (perm.mem_iff.mp mem) with inserted | kept
    · obtain ⟨insertion, listed, rfl⟩ := mem_map.mp inserted
      exact tidy.operands insertion (mem_reverse.mp listed)
    · exact operands instr kept
  · rw [counts (.inl rfl), tidy.loads_eq]
  · rw [counts (.inr rfl), tidy.stores_eq]

/-- The walk over a segment is tidy from its start to its end. -/
theorem SegmentWoven.tidy (within : before.HostsWithin registers)
    (woven : before.SegmentWoven id after entered walked left code) :
    entered.Tidy registers
        ((before.graph.segment id).length - (before.graph.segment id).suffixCount) ∧
      left.Tidy registers
        ((before.graph.segment id).length - (before.graph.segment id).suffixCount) := by
  have within : (before.reorder id (before.sortedIds id)).HostsWithin registers := within
  obtain ⟨start, moves, insertions_eq, loads_eq, stores_eq, unbound⟩ := moves_enter woven.enter
    ((before.graph.segment id).length - (before.graph.segment id).suffixCount)
  have begins : start.Tidy registers
      ((before.graph.segment id).length - (before.graph.segment id).suffixCount) := by
    refine ⟨?_, ?_, ?_, ?_, ?_, fun operand listed => nomatch unbound _ listed⟩ <;>
      simp [insertions_eq, loads_eq, stores_eq]
  have entering := moves.tidy within begins
  have walking := (moves_walkCode woven.walk).1.tidy within entering
  exact ⟨entering, (moves_leave woven.leave).tidy within walking⟩

theorem SegmentWoven.refitted (within : before.HostsWithin registers)
    (unmoved : ∀ instr ∈ (before.graph.segment id).instructions, instr.movesSlot = false)
    (woven : before.SegmentWoven id after entered walked left code) :
    Refitted registers (before.graph.segment id).instructions
        (weave 0 left.insertions.reverse code) ∧
      left.loads = (weave 0 left.insertions.reverse code).countP (·.kind = .loadSlot) ∧
      left.stores = (weave 0 left.insertions.reverse code).countP (·.kind = .storeSlot) := by
  have within' : (before.reorder id (before.sortedIds id)).HostsWithin registers := within
  obtain ⟨entering, leaving⟩ := woven.tidy within
  obtain ⟨shape_eq, operands⟩ := shape_eq_of_renamed within' entering (moves_walkCode woven.walk).2
  exact leaving.refitted unmoved shape_eq operands

end

namespace Refitted

variable {registers : Int} {after : Code} (refitted : Refitted registers before after)

include refitted

theorem exists_mem (mem : instr ∈ after) (still : instr.movesSlot = false) :
    ∃ orig ∈ before, instr.shape = orig.shape :=
  exists_mem_of_map_shape_eq refitted.shape_eq
    (mem_filter.mpr ⟨mem, by simp [still]⟩)

theorem exists_last (final_eq : after.getLast? = some final) (isSuffix : final.isSuffix) :
    ∃ last, before.getLast? = some last ∧ final.shape = last.shape := by
  obtain ⟨front, rfl⟩ := getLast?_eq_some_iff.mp final_eq
  have same := congrArg List.getLast? refitted.shape_eq
  rw [filter_append, filter_cons_of_pos (by simp [movesSlot_eq_false isSuffix]),
    filter_nil, getLast?_map, getLast?_map, getLast?_concat] at same
  obtain ⟨last, last_eq, equal⟩ := map_eq_some_iff.mp same.symm
  exact ⟨last, last_eq, equal.symm⟩

theorem exists_mem_dropLast {last : Instruction Register} (last_eq : before.getLast? = some last)
    (isSuffix : last.isSuffix) (mem : instr ∈ after.dropLast)
    (still : instr.movesSlot = false) : ∃ orig ∈ before.dropLast, instr.shape = orig.shape := by
  obtain ⟨final, final_eq, final_shape⟩ := refitted.last last_eq isSuffix
  obtain ⟨front, rfl⟩ := getLast?_eq_some_iff.mp last_eq
  obtain ⟨code, rfl⟩ := getLast?_eq_some_iff.mp final_eq
  have finalStill : final.movesSlot = false := by
    have equal := congrArg movesSlot final_shape
    exact equal.trans (movesSlot_eq_false isSuffix)
  have shape_eq := refitted.shape_eq
  rw [filter_append, filter_cons_of_pos (by simp [finalStill]), filter_nil,
    map_append, map_append] at shape_eq
  rw [dropLast_concat] at mem ⊢
  exact exists_mem_of_map_shape_eq (append_inj' shape_eq rfl).1
    (mem_filter.mpr ⟨mem, by simp [still]⟩)

theorem wellPlaced (placed : WellPlaced before) : WellPlaced after := by
  constructor
  · intro instr mem
    cases moves : instr.movesSlot with
    | true => exact isPlaceholder_eq_false moves
    | false =>
      obtain ⟨orig, originalMem, same⟩ := refitted.exists_mem mem moves
      have equal := congrArg isPlaceholder same
      exact equal.trans (placed.inside orig originalMem)
  · intro instr mem
    by_contra notPlain
    have isSuffix : instr.isSuffix = true := by simpa using notPlain
    have still := movesSlot_eq_false isSuffix
    have plain {orig : Instruction Register} (listed : orig ∈ before.dropLast)
        (same : instr.shape = orig.shape) : False := by
      have equal := congrArg Instruction.isSuffix same
      exact notPlain (equal.trans (placed.suffix_last orig listed))
    obtain ⟨orig, originalMem, same⟩ := refitted.exists_mem (dropLast_subset _ mem) still
    rcases eq_nil_or_concat' before with rfl | ⟨front, last, rfl⟩
    · cases originalMem
    · rw [dropLast_concat] at plain
      rcases mem_append.mp originalMem with early | final
      · exact plain early same
      · obtain rfl := mem_singleton.mp final
        have equal := congrArg Instruction.isSuffix same
        obtain ⟨earlier, earlierMem, earlierSame⟩ :=
          refitted.exists_mem_dropLast getLast?_concat (equal.symm.trans isSuffix) mem still
        rw [dropLast_concat] at earlierMem
        exact plain earlierMem earlierSame

theorem movesSlot_of_nil (empty : before = []) (mem : instr ∈ after) : instr.movesSlot = true := by
  by_contra still
  obtain ⟨orig, listed, -⟩ := refitted.exists_mem mem (by simpa using still)
  rw [empty] at listed
  cases listed

end Refitted

/-! ## All segments -/

/-- How many instructions of a kind the given segments of a graph hold. -/
def countIn (g : Graph) (ids : List SegmentId) (kind : Kind) : Nat :=
  (ids.map fun id => (g.segment id).instructions.countP (·.kind = kind)).sum

/-- Segments that wait are refitted one after the other, and their moves are counted. -/
theorem refitted_of_foldlM {registers current result}
    (within : current.HostsWithin registers) (nodup : pending.Nodup)
    (inside : ∀ id ∈ pending, id < current.graph.segments.size)
    (unmoved : ∀ id ∈ pending, ∀ instr ∈ (current.graph.segment id).instructions,
      instr.movesSlot = false) (done : pending.foldlM materializeSegment current = .ok result) :
    (∀ id ∈ pending, Refitted registers (current.graph.segment id).instructions
        (result.graph.segment id).instructions) ∧
      result.stats.loads = current.stats.loads + countIn result.graph pending .loadSlot ∧
      result.stats.stores = current.stats.stores + countIn result.graph pending .storeSlot := by
  induction pending generalizing current with
  | nil =>
    cases done
    exact ⟨forall_mem_nil _, rfl, rfl⟩
  | cons first rest ih =>
    obtain ⟨middle, one, done⟩ := of_bind_eq_ok done
    obtain ⟨entered, walked, left, code, woven⟩ := exists_segmentWoven one
    obtain ⟨fresh, nodup⟩ := nodup_cons.mp nodup
    obtain ⟨firstInside, inside⟩ := forall_mem_cons.mp inside
    obtain ⟨firstUnmoved, unmoved⟩ := forall_mem_cons.mp unmoved
    obtain ⟨refitted, loads_eq, stores_eq⟩ := woven.refitted within firstUnmoved
    have others {id} (listed : id ∈ rest) : middle.graph.segment id = current.graph.segment id := by
      rw [woven.graph_eq, Graph.segment_modify firstInside, if_neg]
      rintro rfl
      exact fresh listed
    have withinNext : middle.HostsWithin registers := by
      intro sub
      rw [hostOf, range, range?, woven.ranges_eq]
      exact within sub
    obtain ⟨rest_refitted, rest_loads, rest_stores⟩ := ih withinNext nodup (fun id listed => by
          rw [woven.graph_eq, Graph.size_segments_modify]
          exact inside id listed)
        (fun id listed => by
          rw [others listed]
          exact unmoved id listed)
        done
    have code_eq : (result.graph.segment first).instructions =
        weave 0 left.insertions.reverse code := by
      rw [segment_of_foldlM done fresh, woven.graph_eq, Graph.segment_modify firstInside,
        if_pos rfl]
    have count kind : countIn result.graph (first :: rest) kind =
        (weave 0 left.insertions.reverse code).countP (·.kind = kind) +
          countIn result.graph rest kind := by
      rw [countIn, map_cons, sum_cons, code_eq]
      rfl
    refine ⟨forall_mem_cons.mpr ⟨code_eq ▸ refitted, ?_⟩, ?_, ?_⟩
    · intro id listed
      have known := rest_refitted id listed
      rwa [others listed] at known
    · rw [rest_loads, woven.loads_eq, loads_eq, count, Nat.add_assoc]
    · rw [rest_stores, woven.stores_eq, stores_eq, count, Nat.add_assoc]

end Allocation

/-! ## Graphs -/

namespace Graph

variable {g after : Graph} {registers : Int}

/-- A graph before and after registers were allocated: the edges into some joins are split, and the
code of all segments is refitted. -/
structure Refits (g : Graph) (registers : Int) (after : Graph) : Prop where
  subdivides : g.Subdivides g.splitJoinEdges
  recoded : g.splitJoinEdges.Recoded after
  refitted : ∀ id ∈ g.splitJoinEdges.order, Allocation.Refitted registers
    (g.splitJoinEdges.segment id).instructions (after.segment id).instructions

theorem refits_of_allocate (tied : g.Tied) {slots} (slotted : g.Slotted slots)
    {config} (allocated : g.allocate config = .ok (after, stats)) :
    g.Refits config.registers after ∧ stats.loads = Allocation.countIn after after.order .loadSlot ∧
      stats.stores = Allocation.countIn after after.order .storeSlot := by
  have subdivides := subdivides_splitJoinEdges tied
  have recoded := recoded_allocate allocated
  obtain ⟨⟨pos, few⟩, limit, assigned, result, assigning, materialized, rfl, -, code_eq⟩ :=
    exists_of_allocate allocated
  have setting := Allocation.setting_analyzeSync_assigned assigning
  have orig : assigned.analyzeSync.graph = g.splitJoinEdges := congrArg Prod.fst setting
  have noLoads : assigned.analyzeSync.stats.loads = 0 := congrArg (·.2.2.1) setting
  have noStores : assigned.analyzeSync.stats.stores = 0 := congrArg (·.2.2.2) setting
  rw [Allocation.materialize, orig] at materialized
  obtain ⟨refitted, loads_eq, stores_eq⟩ := Allocation.refitted_of_foldlM
    (Allocation.hostsWithin_analyzeSync pos few assigning) subdivides.numbered.nodup_order
    (fun id mem => orig ▸ subdivides.numbered.inside mem)
    (by
      rw [orig]
      exact subdivides.forall_code (motive := fun code => ∀ instr ∈ code, instr.movesSlot = false)
        (forall_mem_nil _) fun _ => slotted.all)
    materialized
  have count kind : Allocation.countIn after after.order kind =
      Allocation.countIn result.graph g.splitJoinEdges.order kind := by
    simp only [Allocation.countIn, code_eq, recoded.order_eq]
  refine ⟨⟨subdivides, recoded, fun id mem => ?_⟩, ?_, ?_⟩
  · have known := refitted id mem
    rwa [orig, ← code_eq] at known
  · rw [count, loads_eq, noLoads, Nat.zero_add]
  · rw [count, stores_eq, noStores, Nat.zero_add]

namespace Refits

variable (refits : g.Refits registers after) {id : SegmentId}

include refits

theorem order_eq : after.order = g.splitJoinEdges.order := refits.recoded.order_eq

theorem mem_order (mem : id ∈ g.order) : id ∈ after.order :=
  refits.order_eq ▸ refits.subdivides.mem_order mem

theorem refitted_old (mem : id ∈ g.order) :
    Allocation.Refitted registers (g.segment id).instructions (after.segment id).instructions := by
  have known := refits.refitted id (refits.subdivides.mem_order mem)
  rwa [refits.subdivides.code_eq mem] at known

theorem movesSlot_of_new (mem : id ∈ after.order) (new : id ∉ g.order)
    (listed : instr ∈ (after.segment id).instructions) : instr.movesSlot := by
  rw [refits.order_eq] at mem
  exact (refits.refitted id mem).movesSlot_of_nil
    (refits.subdivides.instructions_edge mem new) listed

/-- A segment keeps its entry and its name. -/
theorem enterable_eq (mem : id ∈ g.order) :
    (after.segment id).enterable = (g.segment id).enterable ∧
      (after.segment id).enterAddress = (g.segment id).enterAddress ∧
      (after.segment id).isDestination = (g.segment id).isDestination ∧
      (after.segment id).jumpAddress = (g.segment id).jumpAddress := by
  have fields := refits.subdivides.content_eq mem
  have recoded := refits.recoded
  exact ⟨(recoded.enterable_eq id).trans fields.enterable_eq,
    (recoded.enterAddress_eq id).trans fields.enterAddress_eq,
    (recoded.isDestination_eq id).trans fields.isDestination_eq,
    (recoded.jumpAddress_eq id).trans fields.jumpAddress_eq⟩

theorem enterable_of_new (mem : id ∈ after.order) (new : id ∉ g.order) :
    (after.segment id).enterable = false ∧ (after.segment id).isDestination = false := by
  rw [refits.order_eq] at mem
  obtain ⟨_, _, _, -, -, isEdge⟩ := refits.subdivides.edge mem new
  have fields := isEdge.content_eq
  exact ⟨(refits.recoded.enterable_eq id).trans fields.enterable_eq,
    (refits.recoded.isDestination_eq id).trans fields.isDestination_eq⟩

theorem exists_last (mem : id ∈ after.order) (final_eq : (after.segment id).last? = some final)
    (isSuffix : final.isSuffix) :
    id ∈ g.order ∧ ∃ last, (g.segment id).last? = some last ∧ final.shape = last.shape := by
  by_cases old : id ∈ g.order
  · exact ⟨old, (refits.refitted_old old).exists_last final_eq isSuffix⟩
  · have moves := refits.movesSlot_of_new mem old (mem_of_getLast? final_eq)
    rw [movesSlot_eq_false isSuffix] at moves
    cases moves

theorem checked (tied : g.Tied) (leaves : g.GuardsLeave) (checked : g.Checked) : after.Checked := by
  have taken_eq {id} (mem : id ∈ g.order) :
      (after.segment id).link true = (g.segment id).link true := by
    rw [refits.recoded.link_eq, refits.subdivides.taken_eq mem]
  refine ⟨?_, ?_, fun {id} mem final final_eq => ⟨fun kind_eq bySegment => ?_, fun named => ?_⟩, ?_⟩
  · intro id mem
    rw [refits.order_eq] at mem
    exact (refits.refitted id mem).wellPlaced (refits.subdivides.forall_code
      ⟨forall_mem_nil _, forall_mem_nil _⟩ (fun _ => checked.placed) id mem)
  · intro id mem enterable source sourceMem side
    by_cases old : id ∈ g.order
    · rw [(refits.enterable_eq old).1] at enterable
      rw [refits.recoded.link_eq]
      exact refits.subdivides.isUnreached old (checked.entered old enterable) source
        (refits.order_eq ▸ sourceMem) side
    · rw [(refits.enterable_of_new mem old).1] at enterable
      cases enterable
  · obtain ⟨old, last, last_eq, same⟩ :=
      refits.exists_last mem final_eq (by simp [isSuffix, kind_eq])
    rw [taken_eq old]
    have kinds := congrArg kind same
    have ways := congrArg Instruction.bySegment same
    exact (checked.jumps old last last_eq).1 (kinds.symm.trans kind_eq) (ways.symm.trans bySegment)
  · have isSuffix : final.isSuffix := by
      simp only [namesTarget, or_eq_true, and_eq_true, decide_eq_true_eq] at named
      rcases named with ⟨kind_eq, -⟩ | kind_eq <;> simp [isSuffix, kind_eq]
    obtain ⟨old, last, last_eq, same⟩ := refits.exists_last mem final_eq isSuffix
    have kinds := congrArg kind same
    have ways := congrArg bySegment same
    have targets := congrArg target same
    dsimp only [shape, mapRegisters] at kinds ways targets
    rw [namesTarget, kinds, ways] at named
    obtain ⟨next, linked, only⟩ := (checked.jumps old last last_eq).2 named
    refine ⟨next, (taken_eq old).trans linked, fun other otherMem => ?_⟩
    by_cases otherOld : other ∈ g.order
    · obtain ⟨-, -, isDestination_eq, jumpAddress_eq⟩ := refits.enterable_eq otherOld
      rw [isDestination_eq, jumpAddress_eq, targets]
      exact only other otherOld
    · rw [(refits.enterable_of_new otherMem otherOld).2]
      constructor
      · rintro ⟨⟨⟩, -⟩
      · rintro rfl
        exact absurd (tied.numbered.link_mem old linked) otherOld
  · intro id mem final final_eq kind_eq
    obtain ⟨old, last, last_eq, same⟩ :=
      refits.exists_last mem final_eq (by simp [isSuffix, kind_eq])
    have kinds := congrArg kind same
    have checks : last.kind = .cycleCheck := kinds.symm.trans kind_eq
    obtain ⟨leave, exit, -⟩ := leaves.exit old last_eq checks
    obtain ⟨resumed, closing, linked, closing_eq, isRoutine, isLeave, entry, entryMem, enterable,
      entered⟩ := checked.resumes old last last_eq checks
    obtain rfl : leave = resumed := some.inj (exit.linked.symm.trans linked)
    have leaveMem := tied.numbered.link_mem old linked
    obtain ⟨closed, closed_eq, closed_shape⟩ := (refits.refitted_old leaveMem).last closing_eq
      (by simp [isSuffix, isRoutine, isLeave])
    have closedKinds := congrArg kind closed_shape
    have routines := congrArg routine closed_shape
    have params := congrArg param closed_shape
    obtain ⟨enterable_eq, enterAddress_eq, -, -⟩ := refits.enterable_eq entryMem
    refine ⟨leave, closed, ?_, closed_eq, closedKinds.trans isRoutine, routines.trans isLeave,
      entry, refits.mem_order entryMem, enterable_eq.trans enterable,
      (enterAddress_eq.trans entered).trans params.symm⟩
    rw [refits.recoded.link_eq]
    exact link_splitJoinEdges_of_soleExit tied exit

end Refits

/-- Allocating registers changes nothing but registers.  The function still passes all checks, and
all its operands are registers of the host.  Without moves between registers and slots every segment
holds its old code, up to the names of registers, and an instruction that ended it is still last.
A new segment stands where a segment fell through to another one, holds moves only, and falls
through to that one.  The loads and stores that are counted are the moves in the code. -/
theorem allocate_changes_only_registers
    {memory : Memory}
    {options : Stream.Options}
    {stream : Stream}
    (generated : Stream.generate memory options = .ok stream)
    {buildOptions : BuildOptions}
    (built : build stream buildOptions = .ok graph)
    {config : Allocation.Config}
    {stats : AllocationStats}
    (allocated : graph.allocate config = .ok (after, stats)) :
    after.error? = none ∧
      (∀ id ∈ after.order, ∀ instruction ∈ (after.segment id).instructions,
        ∀ operand ∈ instruction.operands, 0 ≤ operand ∧ operand < config.registers) ∧
      (∀ id ∈ graph.order, id ∈ after.order ∧
        ((after.segment id).instructions.filter (!·.movesSlot)).map Instruction.shape =
          (graph.segment id).instructions.map Instruction.shape ∧
        ∀ last, (graph.segment id).last? = some last → last.isSuffix = true →
          ∃ final, (after.segment id).last? = some final ∧ final.shape = last.shape) ∧
      (∀ id ∈ after.order, id ∉ graph.order → ∃ source ∈ graph.order, ∃ next,
        (graph.segment source).notTaken = some next ∧ (after.segment source).notTaken = some id ∧
        (∀ instruction ∈ (after.segment id).instructions, instruction.movesSlot = true) ∧
        (after.segment id).taken = none ∧ (after.segment id).notTaken = some next) ∧
      stats.loads = Allocation.countIn after after.order .loadSlot ∧
      stats.stores = Allocation.countIn after after.order .storeSlot := by
  obtain ⟨tied, -⟩ := isEntered_of_build generated built
  obtain ⟨slotted, -⟩ := slotted_of_build generated built
  obtain ⟨-, -, -, valid⟩ := of_build_eq_ok built
  obtain ⟨refits, counted⟩ := refits_of_allocate tied slotted allocated
  have recoded := refits.recoded
  refine ⟨?_, fun id member => ?_, fun id member => ?_, fun id member new => ?_, counted⟩
  · rw [error?_eq_none_iff (recoded.tied refits.subdivides.toTied)]
    exact refits.checked tied (guardsLeave_of_build generated built)
      ((error?_eq_none_iff tied).mp valid)
  · exact (refits.refitted id (refits.order_eq ▸ member)).operands
  · have refitted := refits.refitted_old member
    exact ⟨refits.mem_order member, refitted.shape_eq, fun _ => refitted.last⟩
  · obtain ⟨source, sourceMember, next, led, leads, isEdge⟩ :=
      refits.subdivides.edge (refits.order_eq ▸ member) new
    exact ⟨source, sourceMember, next, led, (recoded.link_eq source false).trans leads,
      fun instruction => refits.movesSlot_of_new member new,
      (recoded.link_eq id true).trans isEdge.taken_eq,
      (recoded.link_eq id false).trans isEdge.notTaken_eq⟩

/-- Memory with a loop that is skipped or run, and a return behind it. -/
def rejoining : Memory where
  read address :=
    if address = 0x1000 then .word 0x4182000C
    else if address = 0x1004 then .word 0x38630001
    else if address = 0x1008 then .word 0x4082FFFC
    else .word 0x4E800020
  slice _ _ := .ok []

theorem rejoining_changes_only_registers :
    ∃ stream graph after stats, Stream.generate rejoining { entry := 0x1000, count := 4 } =
        .ok stream ∧
      build stream {} = .ok graph ∧ graph.allocate { registers := 1 } = .ok (after, stats) ∧
      4 ∈ after.order ∧ 4 ∉ graph.order ∧ stats.loads = 1 ∧ stats.stores = 1 ∧
      after.error? = none ∧ Allocation.countIn after after.order .loadSlot = 1 ∧
      Allocation.countIn after after.order .storeSlot = 1 ∧
      ∃ source ∈ graph.order, ∃ next, (graph.segment source).notTaken = some next ∧
        (after.segment source).notTaken = some 4 ∧ (after.segment 4).notTaken = some next := by
  have evaluated : ((Stream.generate rejoining { entry := 0x1000, count := 4 }).toOption.any
      fun stream => (build stream {}).toOption.any fun graph =>
        (graph.allocate { registers := 1 }).toOption.any fun result =>
          4 ∈ result.1.order ∧ 4 ∉ graph.order ∧ result.2.loads = 1 ∧ result.2.stores = 1) =
      true := by
    decide +kernel
  obtain ⟨stream, generated, evaluated⟩ := of_any_toOption evaluated
  obtain ⟨graph, built, evaluated⟩ := of_any_toOption evaluated
  obtain ⟨⟨after, stats⟩, allocated, evaluated⟩ := of_any_toOption evaluated
  obtain ⟨member, new, loads, stores⟩ := of_decide_eq_true evaluated
  obtain ⟨valid, -, -, edges, loads_eq, stores_eq⟩ :=
    allocate_changes_only_registers generated built allocated
  obtain ⟨source, sourceMember, next, led, leads, -, -, falls⟩ := edges 4 member new
  exact ⟨stream, graph, after, stats, generated, built, allocated, member, new, loads, stores, valid,
    loads_eq.symm.trans loads, stores_eq.symm.trans stores, source, sourceMember, next, led, leads,
    falls⟩

end Graph
end Dynarec
