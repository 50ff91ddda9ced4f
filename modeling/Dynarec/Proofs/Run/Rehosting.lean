import Dynarec.Proofs.Run.Hosting

/-!
# Segments in host registers

From boundary to boundary and from instruction to instruction, the translated
code of a segment shows what its code shows, and host registers and storage
go on carrying the values of the slots.  What a segment delivers at its exit is
what the segments behind its links take over at their entries.
-/

namespace Dynarec

open Instruction List Machine Position Subrange

/-! ## Live subranges -/

/-- Whether a subrange holds its register behind so many boundaries between instructions. -/
def Subrange.IsLive : Nat → Subrange → Prop
  | 0, sub => sub.start = .atEntry
  | crossed + 1, sub =>
      sub.start ≤ (crossed : Position) ∧ (crossed : Position) < sub.stop

theorem Subrange.IsLive.overlaps {sub other : Subrange} (live : sub.IsLive crossed)
    (otherLive : other.IsLive crossed) : sub.overlaps other := by
  rw [overlaps_iff]
  cases crossed with
  | zero => exact .inr (.inl ⟨live, otherLive⟩)
  | succ crossed =>
    exact .inl ⟨Int.lt_of_le_of_lt live.1 otherLive.2, Int.lt_of_le_of_lt otherLive.1 live.2⟩

namespace Allocation

/-- The subranges of a segment that hold their registers behind so many boundaries. -/
def Holding (alloc : Allocation) (seg : SegmentId) (crossed : Nat)
    (holders : List Subrange) : Prop :=
  ∀ sub, sub ∈ holders ↔
    sub ∈ alloc.subrangesIn seg ∧ sub.IsLive crossed

theorem holding_entry {alloc : Allocation} {subs : List Subrange}
    (listed : ∀ sub, sub ∈ subs ↔ sub ∈ alloc.subrangesIn seg) :
    alloc.Holding seg 0 (subs.filter (·.start = .atEntry)) := by
  intro sub
  rw [mem_filter, listed, decide_eq_true_eq]
  rfl

namespace Holding

variable {alloc : Allocation} {index : Nat}

theorem separate (settled : alloc.Settled)
    (holding : alloc.Holding seg index holders) : alloc.Separate holders :=
  settled.separate (fun sub mem => ((holding sub).mp mem).1)
    fun sub mem other otherMem =>
      ((holding sub).mp mem).2.overlaps ((holding other).mp otherMem).2

theorem across (coherent : alloc.Coherent)
    (listed : ∀ sub, sub ∈ subs ↔ sub ∈ alloc.subrangesIn seg)
    (small : (index : Position) < atExit) (holding : alloc.Holding seg index holders) :
    alloc.Holding seg (index + 1) (across subs index holders) := by
  intro sub
  rw [Allocation.across, mem_append, mem_filter, mem_filter, holding, listed]
  simp only [passes, startsAt, decide_eq_true_eq]
  constructor
  · rintro (⟨⟨mem, live⟩, passes⟩ | ⟨mem, starts⟩)
    · refine ⟨mem, ?_, passes⟩
      cases index with
      | zero =>
        rw [show sub.start = .atEntry from live]
        decide
      | succ index => exact Int.le_trans live.1 (by push_cast; lia)
    · obtain ⟨found, -⟩ := coherent.mem_subrangesIn.mp mem
      obtain ⟨first, head, equal⟩ := coherent.head_of_inside found
        (by rw [starts]; unfold atEntry; lia) (by rw [starts]; exact Int.ne_of_lt small)
      have bounds := (coherent.ordered found).covered (mem_of_mem_head? head)
      rw [equal, starts] at bounds
      exact ⟨mem, Int.le_of_eq starts, bounds.2⟩
  · rintro ⟨mem, starts, stops⟩
    obtain ⟨found, -⟩ := coherent.mem_subrangesIn.mp mem
    by_cases here : sub.start = (index : Position)
    · exact .inr ⟨mem, here⟩
    · refine .inl ⟨⟨mem, ?_⟩, stops⟩
      have lower := (coherent.start_bounds found).1
      cases index with
      | zero =>
        unfold atEntry at lower
        show sub.start = atEntry
        unfold atEntry
        lia
      | succ index =>
        exact ⟨by lia, by lia⟩

end Holding

/-! ## Boundaries between instructions -/

section

variable {V E : Type} (meaning : Meaning V E) (visible : List SegmentId) {alloc : Allocation}
  (settled : alloc.Settled) {index : Nat} {subs : List Subrange}
  {image : Register → Option Register}

include settled

theorem Carries.expire (small : (index : Position) < atExit)
    (holding : alloc.Holding seg index holders)
    (carries : alloc.Carries index holders named hosted) :
    alloc.Carries index (holders.filter (·.passes index)) named
      { hosted with storage := alloc.stored (holders.filter (!·.passes index)) hosted } := by
  have coherent := settled.coherent
  have ending : ∀ sub ∈ holders.filter (!·.passes index),
      alloc.subrange? sub.id = some sub ∧ sub.stop ≤ (index : Position) := by
    intro sub mem
    obtain ⟨held, stops⟩ := mem_filter.mp mem
    simp only [passes, Bool.not_eq_true', decide_eq_false_iff_not] at stops
    exact ⟨(coherent.mem_subrangesIn.mp ((holding sub).mp held).1).1, Int.not_lt.mp stops⟩
  obtain ⟨stores, clean⟩ := carries.store filter_sublist.subset fun sub mem =>
    not_awaits_of_forall_lt fun location accessed => Int.lt_of_lt_of_le
      ((coherent.ordered (ending sub mem).1).covered accessed).2 (ending sub mem).2
  refine stores.drop filter_sublist.subset fun sub mem gone => ?_
  have ends : sub ∈ holders.filter (!·.passes index) := by
    rw [mem_filter] at gone ⊢
    exact ⟨mem, by simpa [mem] using gone⟩
  obtain ⟨found, stops⟩ := ending sub ends
  -- A value that is handed on leaves the segment, and this one ends before.
  rcases stores.kept sub mem with secured | equal
  · rcases secured.cases found with hasStore | ⟨exit, -⟩
    · exact clean sub ends hasStore
    · rw [exit] at stops
      exact absurd small (Int.not_lt.mpr stops)
  · exact equal

/-- The stores and loads at a boundary are silent and carry the values over it. -/
theorem Carries.cross (listed : ∀ sub, sub ∈ subs ↔ sub ∈ alloc.subrangesIn seg)
    (small : (index : Position) < atExit) (holding : alloc.Holding seg index holders)
    (carries : alloc.Carries index holders named hosted) :
    ∃ after, (meaning.hosted visible).run (alloc.boundaryCode subs index holders) hosted =
        (after, []) ∧
      alloc.Carries index (across subs index holders) named after := by
  have coherent := settled.coherent
  have ending : alloc.Hostable (holders.filter (!·.passes index)) := settled.hostable fun sub mem =>
      ((holding sub).mp (mem_of_mem_filter mem)).1
  have starting : ∀ sub ∈ subs.filter (·.startsAt index),
      sub ∈ alloc.subrangesIn seg ∧ sub.start = (index : Position) := by
    intro sub mem
    obtain ⟨mem, starts⟩ := mem_filter.mp mem
    exact ⟨(listed sub).mp mem, of_decide_eq_true starts⟩
  refine ⟨_, by rw [boundaryCode, run_append, run_storesOf _ _ ending, run_loadsOf _ _
    (settled.hostable fun sub mem => (starting sub mem).1)]; rfl, ?_⟩
  refine (carries.expire settled small holding).load
    ((holding.across coherent listed small).separate settled) (fun sub mem held => ?_)
    fun sub mem unloaded => ?_
  · obtain ⟨-, starts⟩ := starting sub mem
    have live := ((holding sub).mp (mem_of_mem_filter held)).2
    cases index with
    | zero =>
      rw [show sub.start = .atEntry from live] at starts
      exact absurd starts (by decide)
    | succ index =>
      have before := live.1
      lia
  · obtain ⟨mem, starts⟩ := starting sub mem
    obtain ⟨found, -⟩ := coherent.mem_subrangesIn.mp mem
    have needless := settled.synced.noLoad_eq found
    rw [unloaded, eq_comm, Bool.or_eq_true, decide_eq_true_eq] at needless
    refine awaits_of_forall_le (needless.resolve_right ?_) fun location accessed => ?_
    · rw [starts]
      unfold atEntry
      lia
    · exact starts ▸ ((coherent.ordered found).covered accessed).1

/-! ## Instructions -/

theorem mem_locations_iff_of_isLive (mem : sub ∈ alloc.subrangesIn seg)
    (live : sub.IsLive (index + 1)) (here : (alloc.graph.segment seg).body[index]? = some instr) :
    location ∈ sub.locations ∧ location.index = index ↔ alloc.registerOf sub ∈ instr.registers ∧
        location = {
          index := index
          read := alloc.registerOf sub ∈ instr.reads
          write := alloc.registerOf sub ∈ instr.writes } := by
  obtain ⟨found, inside⟩ := settled.coherent.mem_subrangesIn.mp mem
  rw [settled.coherent.accessed found, mem_filter, accessesOf, segmentOf, inside,
    Segment.mem_locations_iff]
  constructor
  · rintro ⟨⟨⟨place, other, there, touched, rfl⟩, -⟩, equal⟩
    obtain rfl : place = index := Int.ofNat.inj equal
    cases here.symm.trans there
    exact ⟨touched, rfl⟩
  · rintro ⟨touched, rfl⟩
    exact ⟨⟨⟨index, instr, here, touched, rfl⟩, covers_iff.mpr live⟩, rfl⟩

/-- The operands of an instruction are registers of holders, and `host` says which host register
each of them is kept in. -/
structure Seated (alloc : Allocation) (holders : List Subrange)
    (image : Register → Option Register) (instr : Instruction Register)
    (host : Register → Register) : Prop where
  separate : alloc.Separate holders
  hosts : ∀ sub ∈ holders, host (alloc.registerOf sub) = alloc.hostOf sub
  slots : ∀ sub ∈ holders, alloc.graph.slotOf (alloc.registerOf sub) = alloc.slotOf sub
  operand : ∀ reg ∈ instr.operands, image reg = some (host reg) ∧
    ∃ sub ∈ holders, alloc.registerOf sub = reg

theorem exists_seated (holding : alloc.Holding seg index holders)
    (rehosted : alloc.Rehosted holders image instr) :
    ∃ host, alloc.Seated holders image instr host := by
  have separate := holding.separate settled
  have slots : ∀ sub ∈ holders, alloc.graph.slotOf (alloc.registerOf sub) =
      alloc.slotOf sub := fun sub mem =>
    (settled.slotOf_eq ((holding sub).mp mem).1).symm
  let host (reg : Register) : Register :=
    ((holders.find? (alloc.registerOf · = reg)).map alloc.hostOf).getD 0
  have hosts : ∀ sub ∈ holders, host (alloc.registerOf sub) = alloc.hostOf sub := by
    intro sub mem
    have present : (holders.find? (alloc.registerOf · = alloc.registerOf sub)).isSome = true :=
      find?_isSome.mpr ⟨sub, mem, decide_eq_true rfl⟩
    obtain ⟨other, found⟩ := Option.isSome_iff_exists.mp present
    have same : alloc.registerOf other = alloc.registerOf sub := by
      simpa using find?_some found
    have otherMem := mem_of_find?_eq_some found
    have equal : other = sub := by
      by_contra ne
      refine (separate other otherMem sub mem ne).1 ?_
      rw [← slots other otherMem, same, slots sub mem]
    show ((holders.find? _).map alloc.hostOf).getD 0 = _
    rw [found, equal]
    rfl
  refine ⟨host, separate, hosts, slots, fun reg operand => ?_⟩
  obtain ⟨sub, mem, rfl, equal⟩ := rehosted reg operand
  exact ⟨by rw [equal, hosts sub mem], sub, mem, rfl⟩

omit settled in
theorem perform_hosted_of_unmoved (unmoved : instr.movesSlot = false) (state : Hosted V E) :
    (meaning.hosted visible).perform instr state = ({ state with
        registers := assignAll state.registers instr.writes
          (meaning.effect instr.shape (instr.reads.map state.registers) state.environment).1
        environment := (meaning.effect instr.shape (instr.reads.map state.registers)
          state.environment).2 },
        [.performed (meaning.effect instr.shape (instr.reads.map state.registers)
          state.environment).2]) := by
  simp only [movesSlot, Bool.or_eq_false_iff, decide_eq_false_iff_not] at unmoved
  simp only [Meaning.hosted]
  split
  next load => exact absurd load unmoved.1
  next store => exact absurd store unmoved.2
  · rfl

omit settled in
theorem Seated.slotOf_notMem (seated : alloc.Seated holders image instr host)
    (mem : sub ∈ holders) (unwritten : alloc.registerOf sub ∉ instr.writes) :
    alloc.slotOf sub ∉ instr.writes.map alloc.graph.slotOf := by
  intro assigned
  obtain ⟨reg, written, equal⟩ := mem_map.mp assigned
  obtain ⟨-, other, otherMem, rfl⟩ := seated.operand reg (mem_operands_of_mem_writes written)
  rw [seated.slots other otherMem] at equal
  by_cases same : other = sub
  · exact unwritten (same ▸ written)
  · exact (seated.separate other otherMem sub mem same).1 equal

omit settled in
/-- Behind an instruction the host register and the slot of a holder agree if they are written,
or if they agreed before. -/
theorem Seated.assignAll_eq (seated : alloc.Seated holders image instr host) (mem : sub ∈ holders)
    {registers} (values : Nat → V) (agree : alloc.registerOf sub ∈ instr.writes ∨
      registers (alloc.hostOf sub) = storage (alloc.slotOf sub)) :
    assignAll registers (instr.writes.map host) values (alloc.hostOf sub) =
      assignAll storage (instr.writes.map alloc.graph.slotOf) values (alloc.slotOf sub) := by
  rw [← seated.hosts sub mem, ← seated.slots sub mem] at agree ⊢
  refine assignAll_map_eq (fun reg written => ?_) values agree
  obtain ⟨-, other, otherMem, rfl⟩ := seated.operand reg (mem_operands_of_mem_writes written)
  rw [seated.hosts other otherMem, seated.hosts sub mem,
    seated.slots other otherMem, seated.slots sub mem]
  by_cases same : other = sub
  · exact same ▸ iff_of_true rfl rfl
  · have ne := seated.separate other otherMem sub mem same
    exact ⟨fun equal => absurd equal ne.2, fun equal => absurd equal ne.1⟩

section

variable {named : Named V E} {hosted : Hosted V E} (holding : alloc.Holding seg (index + 1) holders)
  (carries : alloc.Carries index holders named hosted)
  (here : (alloc.graph.segment seg).body[index]? = some instr)

include holding carries here

/-- What an instruction reads is present, since a value that is awaited is written first. -/
theorem Carries.reads_eq (seated : alloc.Seated holders image instr host) :
    (instr.reads.map host).map hosted.registers = instr.reads.map fun reg =>
        named.storage (alloc.graph.slotOf reg) := by
  rw [map_map]
  refine map_congr_left fun reg read => ?_
  obtain ⟨-, sub, mem, rfl⟩ := seated.operand reg (mem_operands_of_mem_reads read)
  obtain ⟨inside, live⟩ := (holding sub).mp mem
  obtain ⟨found, -⟩ := settled.coherent.mem_subrangesIn.mp inside
  rw [Function.comp_apply, seated.hosts sub mem, seated.slots sub mem]
  refine (carries.held sub mem).resolve_left fun awaits => ?_
  obtain ⟨accessed, placed⟩ := (mem_locations_iff_of_isLive settled inside live here).mpr
    ⟨(mem_registers_iff instr _).mpr (.inl read), rfl⟩
  have unread := (awaits.step (settled.coherent.pairwise_locations found)).1 _ accessed placed
  rw [decide_eq_false_iff_not] at unread
  exact unread read

/-- An instruction shows the same, and what it writes is carried. -/
theorem Carries.perform (rehosted : alloc.Rehosted holders image instr)
    (unmoved : instr.movesSlot = false) :
    ((meaning.hosted visible).perform (instr.mapRegisters image) hosted).2 =
        ((meaning.named alloc.graph.slotOf visible).perform instr named).2 ∧
      alloc.Carries (index + 1) holders
        ((meaning.named alloc.graph.slotOf visible).perform instr named).1
        ((meaning.hosted visible).perform (instr.mapRegisters image) hosted).1 := by
  obtain ⟨host, seated⟩ := exists_seated settled holding rehosted
  have total : ∀ reg ∈ instr.operands, image reg = some (host reg) :=
    fun reg operand => (seated.operand reg operand).1
  rw [perform_hosted_of_unmoved meaning visible
    (show (instr.mapRegisters image).movesSlot = false from unmoved),
    reads_mapRegisters total, carries.reads_eq settled holding here seated,
    shape_mapRegisters total, writes_mapRegisters total,
    carries.environment_eq]
  refine ⟨rfl, rfl, fun {slot} free => ?_, fun sub mem => ?_, fun sub mem => ?_⟩
  · refine (carries.free free).trans (assignAll_of_not_mem ?_ _ _).symm
    intro assigned
    obtain ⟨reg, written, equal⟩ := mem_map.mp assigned
    obtain ⟨-, sub, mem, rfl⟩ := seated.operand reg (mem_operands_of_mem_writes written)
    exact free sub mem ((seated.slots sub mem).symm.trans equal)
  · obtain ⟨inside, live⟩ := (holding sub).mp mem
    obtain ⟨found, -⟩ := settled.coherent.mem_subrangesIn.mp inside
    rcases carries.held sub mem with awaits | equal
    · rcases (awaits.step (settled.coherent.pairwise_locations found)).2 with
        ⟨write, accessed, placed, writes⟩ | further
      · obtain ⟨-, rfl⟩ :=
          (mem_locations_iff_of_isLive settled inside live here).mp ⟨accessed, placed⟩
        exact .inr (seated.assignAll_eq mem _ (.inl (of_decide_eq_true writes)))
      · exact .inl further
    · exact .inr (seated.assignAll_eq mem _ (.inr equal))
  · obtain ⟨inside, live⟩ := (holding sub).mp mem
    obtain ⟨found, -⟩ := settled.coherent.mem_subrangesIn.mp inside
    by_cases written : alloc.registerOf sub ∈ instr.writes
    · obtain ⟨accessed, -⟩ := (mem_locations_iff_of_isLive settled inside live here).mpr
        ⟨(mem_registers_iff instr _).mpr (.inr written), rfl⟩
      exact .inl (settled.synced.secured found
        (any_eq_true.mpr ⟨_, accessed, decide_eq_true written⟩))
    · refine (carries.kept sub mem).imp_right fun equal => equal.trans ?_
      exact (assignAll_of_not_mem (seated.slotOf_notMem mem written) _ _).symm

end

/-! ## The code before the end -/

/-- Translated code shows what the code shows and carries what it computes. -/
theorem Translates.carries (listed : ∀ sub, sub ∈ subs ↔ sub ∈ alloc.subrangesIn seg)
    (translates : alloc.Translates subs index holders code final woven)
    (rest : (alloc.graph.segment seg).body.drop index = code)
    (unmoved : ∀ instr ∈ code, instr.movesSlot = false)
    (small : ((index + code.length : Nat) : Position) < atExit)
    (holding : alloc.Holding seg index holders) (carries : alloc.Carries index holders named hosted)
    :
    ((meaning.hosted visible).run woven hosted).2 =
        ((meaning.named alloc.graph.slotOf visible).run code named).2 ∧
      alloc.Holding seg (index + code.length + 1) final ∧ alloc.Carries (index + code.length) final
        ((meaning.named alloc.graph.slotOf visible).run code named).1
        ((meaning.hosted visible).run woven hosted).1 := by
  induction translates generalizing named hosted with
  | nil index holders =>
    rw [length_nil, Nat.add_zero] at small ⊢
    obtain ⟨after, run, crossed⟩ := carries.cross meaning visible settled listed small holding
    rw [run]
    exact ⟨rfl, holding.across settled.coherent listed small, crossed⟩
  | @cons index holders final instr image code woven rehosted more ih =>
    have below : (index : Position) < atExit := by
      lia
    obtain ⟨first, others⟩ := forall_mem_cons.mp unmoved
    have here : (alloc.graph.segment seg).body[index]? = some instr := by
      rw [← head?_drop, rest, head?_cons]
    have behind : (alloc.graph.segment seg).body.drop (index + 1) = code := by
      rw [← tail_drop, rest, tail_cons]
    have next := holding.across settled.coherent listed below
    obtain ⟨middle, run, crossed⟩ := carries.cross meaning visible settled listed below holding
    obtain ⟨shown, performed⟩ := crossed.perform meaning visible settled next here rehosted first
    have length : index + 1 + code.length = index + (code.length + 1) := by lia
    obtain ⟨shownRest, holdingRest, carriesRest⟩ := ih behind others (length ▸ small) next performed
    rw [length] at holdingRest carriesRest
    rw [run_append, run, run_cons, run_cons, nil_append, shown, shownRest]
    exact ⟨rfl, holdingRest, carriesRest⟩

/-! ## The exit of a segment -/

theorem of_start_eq_exit (mem : sub ∈ alloc.subrangesIn seg)
    (starts : sub.start = .atExit) : sub.stop = .atExit ∧ sub.locations = [] := by
  obtain ⟨found, -⟩ := settled.coherent.mem_subrangesIn.mp mem
  rcases (settled.coherent.fits found).start_fits with
    entry | ⟨-, stops, none⟩ | ⟨first, head, equal⟩
  · exact absurd (entry.symm.trans starts) (by decide)
  · exact ⟨stops, none⟩
  · have bounds := settled.coherent.index_bounds found (mem_of_mem_head? head)
    lia

omit settled in
/-- What a segment leaves to those behind its links: every value is in storage or handed on, and
the subranges that leave the segment have theirs in their host registers. -/
structure Delivers (alloc : Allocation) (seg : SegmentId) (named : Named V E)
    (hosted : Hosted V E) : Prop where
  environment_eq : hosted.environment = named.environment
  storage_eq : ∀ slot, hosted.storage slot = named.storage slot ∨
    ∃ sub ∈ alloc.subrangesIn seg, alloc.slotOf sub = slot ∧ alloc.HandsOn alloc.Secured sub
  registers_eq : ∀ sub ∈ alloc.subrangesIn seg, sub.stop = .atExit →
    hosted.registers (alloc.hostOf sub) = named.storage (alloc.slotOf sub)

theorem not_awaits_length (mem : sub ∈ alloc.subrangesIn seg) :
    ¬sub.Awaits (alloc.graph.segment seg).body.length :=
  not_awaits_of_forall_lt fun _ => settled.coherent.index_lt mem

theorem Carries.exit (listed : ∀ sub, sub ∈ subs ↔ sub ∈ alloc.subrangesIn seg)
    (behind : index = (alloc.graph.segment seg).body.length) (small : (index : Position) < atExit)
    (holding : alloc.Holding seg (index + 1) final) (leaves : ∀ sub ∈ final, sub.stop = .atExit)
    (carries : alloc.Carries index final named hosted) :
    ∃ after, (meaning.hosted visible).run (alloc.storesOf final ++
        alloc.loadsOf (subs.filter (·.start = .atExit))) hosted = (after, []) ∧
      alloc.Delivers seg named after := by
  have coherent := settled.coherent
  have inside : ∀ sub ∈ final, sub ∈ alloc.subrangesIn seg :=
    fun sub mem => ((holding sub).mp mem).1
  have starting : ∀ sub ∈ subs.filter (·.start = .atExit),
      sub ∈ alloc.subrangesIn seg ∧ sub.start = .atExit := by
    intro sub mem
    obtain ⟨mem, starts⟩ := mem_filter.mp mem
    exact ⟨(listed sub).mp mem, of_decide_eq_true starts⟩
  have unawaited : ∀ sub ∈ alloc.subrangesIn seg, ¬sub.Awaits index :=
    fun sub mem => behind ▸ not_awaits_length settled mem
  have members : ∀ sub ∈ final ++ subs.filter (·.start = .atExit),
      sub ∈ alloc.subrangesIn seg ∧ sub.stop = .atExit := by
    intro sub mem
    rcases mem_append.mp mem with old | started
    · exact ⟨inside sub old, leaves sub old⟩
    · obtain ⟨mem, starts⟩ := starting sub started
      exact ⟨mem, (of_start_eq_exit settled mem starts).1⟩
  have separate : alloc.Separate (final ++ subs.filter (·.start = .atExit)) :=
    settled.separate (fun sub mem => (members sub mem).1)
      fun sub mem other otherMem => overlaps_iff.mpr
        (.inr (.inr ⟨(members sub mem).2, (members other otherMem).2⟩))
  refine ⟨_, by rw [run_append, run_storesOf _ _ (settled.hostable inside),
    run_loadsOf _ _ (settled.hostable fun sub mem => (starting sub mem).1)]; rfl, ?_⟩
  obtain ⟨stores, clean⟩ := carries.store (List.Subset.refl final) fun sub mem =>
    unawaited sub (inside sub mem)
  have loads := stores.load separate (fun sub mem held => by
      obtain ⟨-, starts⟩ := starting sub mem
      have before := ((holding sub).mp held).2.1
      rw [starts] at before
      exact absurd small (Int.not_lt.mpr before))
    fun sub mem unloaded => by
      obtain ⟨mem, starts⟩ := starting sub mem
      obtain ⟨found, -⟩ := coherent.mem_subrangesIn.mp mem
      have needless := settled.synced.noLoad_eq found
      rw [unloaded, (of_start_eq_exit settled mem starts).2, starts] at needless
      exact absurd needless (by decide)
  refine ⟨loads.environment_eq, fun slot => ?_, fun sub mem stops => ?_⟩
  · by_cases keeper : ∃ sub ∈ final, alloc.slotOf sub = slot
    · obtain ⟨sub, mem, rfl⟩ := keeper
      obtain ⟨found, -⟩ := coherent.mem_subrangesIn.mp (inside sub mem)
      rcases stores.kept sub mem with secured | equal
      · rcases secured.cases found with hasStore | handsOn
        · exact .inl (clean sub mem hasStore)
        · exact .inr ⟨sub, inside sub mem, rfl, handsOn⟩
      · exact .inl equal
    · exact .inl (stores.free fun sub mem equal => keeper ⟨sub, mem, equal⟩)
  · have held : sub ∈ final ++ subs.filter (·.start = .atExit) := by
      by_cases starts : sub.start = .atExit
      · exact mem_append_right _ (mem_filter.mpr ⟨(listed sub).mpr mem, decide_eq_true starts⟩)
      · refine mem_append_left _ ((holding sub).mpr ⟨mem, ?_, ?_⟩)
        · rw [behind]
          exact Int.le_of_lt ((settled.seats seg).start_lt sub mem starts)
        · rw [stops]
          exact small
    exact (loads.held sub held).resolve_left (unawaited sub mem)

/-! ## Between segments -/

theorem Delivers.storage_eq_of_last (delivers : alloc.Delivers seg named hosted)
    (last : (alloc.graph.segment seg).successors = []) : hosted.storage = named.storage := by
  funext slot
  refine (delivers.storage_eq slot).resolve_right ?_
  rintro ⟨sub, mem, -, exit, -⟩
  obtain ⟨found, here⟩ := settled.coherent.mem_subrangesIn.mp mem
  have follows := settled.linked.leaves found exit
  rw [segmentOf, here] at follows
  exact follows last

theorem Delivers.enter {next} (delivers : alloc.Delivers seg named hosted)
    (mem : seg ∈ alloc.graph.order) (link : (alloc.graph.segment seg).link side = some next)
    (holding : alloc.Holding next 0 holders) : alloc.Carries 0 holders named hosted := by
  have coherent := settled.coherent
  -- A value that is handed on is taken over by a secured holder of the same slot.
  have taken {slot sub} (listed : sub ∈ alloc.subrangesIn seg) (keeps : alloc.slotOf sub = slot)
      (handsOn : alloc.HandsOn alloc.Secured sub) :
      ∃ target ∈ holders, alloc.slotOf target = slot ∧ alloc.Secured target.id := by
    obtain ⟨found, here⟩ := coherent.mem_subrangesIn.mp listed
    obtain ⟨id, continuation, secured⟩ := handsOn.2 side next (by rw [segmentOf, here]; exact link)
    obtain ⟨-, target, live, same, entry, leads⟩ := settled.linked.continues found continuation
    rw [segmentOf, here, link, Option.some.injEq] at leads
    obtain rfl := coherent.subrange_id live
    exact ⟨target, (holding target).mpr ⟨coherent.mem_subrangesIn.mpr ⟨live, leads.symm⟩, entry⟩,
      by rw [slotOf, same]; exact keeps, secured⟩
  refine ⟨delivers.environment_eq, fun {slot} free => ?_, fun sub held => ?_, fun sub held => ?_⟩
  · refine (delivers.storage_eq slot).resolve_right ?_
    rintro ⟨sub, listed, keeps, handsOn⟩
    obtain ⟨target, kept, same, -⟩ := taken listed keeps handsOn
    exact free target kept same
  · obtain ⟨listed, entry⟩ := (holding sub).mp held
    obtain ⟨found, here⟩ := coherent.mem_subrangesIn.mp listed
    obtain ⟨other, origin, live, inside, same, exit, -⟩ :=
      settled.linked.entered found entry mem (here ▸ link)
    obtain rfl := coherent.subrange_id live
    have value := delivers.registers_eq origin (coherent.mem_subrangesIn.mpr ⟨live, inside⟩) exit
    rw [hostOf, slotOf, same] at value
    exact .inr value
  · rcases delivers.storage_eq (alloc.slotOf sub) with
      equal | ⟨origin, listed, keeps, handsOn⟩
    · exact .inr equal
    · obtain ⟨target, kept, same, secured⟩ := taken listed keeps handsOn
      have equal : target = sub := by
        by_contra different
        exact (holding.separate settled target kept sub held different).1 same
      exact .inl (equal ▸ secured)

end
end Allocation
end Dynarec
