import Dynarec.Proofs.Graph.Generated

/-!
# Falling through

Control that falls through the end of a segment goes on with the segment behind
it in program order.  Guards, exits and edges are put in where control falls
through, and entries stand at the end, so this stays true pass by pass.
-/

namespace Dynarec.Graph

open List

variable {g after : Graph}

/-- A graph in which control falls through to the next segment only, and not from the place on at
which the last of the decoded segments stands. -/
structure Lined (g : Graph) (decoded : List SegmentId) (place : Nat) : Prop where
  known : ∀ id ∈ decoded, id ∈ g.order
  last : ∃ id ∈ decoded, g.order[place]? = some id
  within : ∀ {index id}, g.order[index]? = some id → id ∈ decoded → index ≤ place
  falls : ∀ {id next}, id ∈ g.order → (g.segment id).link false = some next →
    ∃ index < place, g.order[index]? = some id ∧ g.order[index + 1]? = some next

theorem Numbered.index_eq (numbered : g.Numbered) {first second : Nat} {id}
    (here : g.order[first]? = some id) (there : g.order[second]? = some id) : first = second := by
  have inside := (List.getElem?_eq_some_iff.mp here).1
  exact (getElem?_inj inside numbered.nodup_order).mp (here.trans there.symm)

/-- Program order after segments were put in at a place, and perhaps others at the end. -/
structure Widened (g : Graph) (position : Nat) (inserted : List SegmentId) (after : Graph) :
    Prop where
  inside : position ≤ g.order.length
  grown : g.order.take position ++ (inserted ++ g.order.drop position) <+: after.order

namespace Widened

variable (widened : g.Widened pos inserted after) {index : Nat} {id : SegmentId}

include widened

theorem moved (found : g.order[index]? = some id) :
    after.order[if index < pos then index else index + inserted.length]? = some id := by
  obtain ⟨inside, rest, order_eq⟩ := widened
  have within := (List.getElem?_eq_some_iff.mp found).1
  have taken : (g.order.take pos).length = pos := length_take_of_le inside
  rw [← order_eq, append_assoc, append_assoc]
  split
  next before => rw [getElem?_append_left (by omega), getElem?_take_of_lt before, found]
  next behind =>
    rw [getElem?_append_right (by omega), taken, getElem?_append_right (by omega),
      getElem?_append_left (by rw [length_drop]; omega), getElem?_drop, ← found]
    congr 1
    omega

theorem new (found : inserted[index]? = some id) : after.order[pos + index]? = some id := by
  obtain ⟨inside, rest, order_eq⟩ := widened
  have within := (List.getElem?_eq_some_iff.mp found).1
  have taken : (g.order.take pos).length = pos := length_take_of_le inside
  rw [← order_eq, append_assoc, append_assoc, getElem?_append_right (by omega), taken,
    Nat.add_sub_cancel_left, getElem?_append_left within, found]

theorem neighbours {next} (found : g.order[index]? = some id)
    (behind : g.order[index + 1]? = some next) (apart : index + 1 ≠ pos) :
    ∃ moved ≤ index + inserted.length, after.order[moved]? = some id ∧
      after.order[moved + 1]? = some next := by
  have here := widened.moved found
  have there := widened.moved behind
  split at here
  · rw [if_pos (by omega)] at there
    exact ⟨index, by omega, here, there⟩
  · rw [if_neg (by omega), Nat.add_right_comm] at there
    exact ⟨index + inserted.length, by omega, here, there⟩

end Widened

namespace Lined

variable (lined : g.Lined decoded place)

include lined

/-- Segments that were put in do not follow the last decoded one. -/
theorem of_widened (numbered : after.Numbered)
    (widened : g.Widened pos inserted after) (early : pos ≤ place)
    (falls : ∀ {id next}, id ∈ after.order → (after.segment id).link false = some next →
      ∃ index < place + inserted.length, after.order[index]? = some id ∧
        after.order[index + 1]? = some next) : after.Lined decoded (place + inserted.length) where
  known id mem := by
    obtain ⟨index, found⟩ := mem_iff_getElem?.mp (lined.known id mem)
    exact mem_of_getElem? (widened.moved found)
  last := by
    obtain ⟨id, mem, found⟩ := lined.last
    have moved := widened.moved found
    rw [if_neg (by omega)] at moved
    exact ⟨id, mem, moved⟩
  within {index id} found mem := by
    obtain ⟨old, here⟩ := mem_iff_getElem?.mp (lined.known id mem)
    have within := lined.within here mem
    rw [numbered.index_eq found (widened.moved here)]
    split <;> omega
  falls := falls

theorem of_alike (alike : g.Alike after) : after.Lined decoded place := by
  obtain ⟨known, last, within, falls⟩ := lined
  refine ⟨?_, ?_, ?_, ?_⟩ <;> rw [alike.order_eq]
  · exact known
  · exact last
  · exact within
  · exact fun {id _} mem linked => falls mem (alike.link_eq id false ▸ linked)

theorem of_entryIsolated {entry} (isolated : g.EntryIsolated entry after) :
    after.Lined decoded place := by
  have inside : place ≤ g.order.length := by
    obtain ⟨id, -, found⟩ := lined.last
    exact Nat.le_of_lt (List.getElem?_eq_some_iff.mp found).1
  have widened : g.Widened place [] after :=
    ⟨inside, by rw [nil_append, take_append_drop, isolated.order_eq]; exact prefix_append _ _⟩
  refine lined.of_widened isolated.numbered widened (Nat.le_refl _) fun mem linked => ?_
  rcases isolated.link_cases mem linked with ⟨old, linked⟩ | ⟨-, side, -⟩
  · obtain ⟨index, before, here, there⟩ := lined.falls old linked
    have moved := widened.moved here
    rw [if_pos before] at moved
    refine ⟨index, before, moved, ?_⟩
    have behind := widened.moved there
    rwa [length_nil, Nat.add_zero, ite_self] at behind
  · cases side

theorem of_loopGuarded {body : SegmentId} (numbered : g.Numbered)
    (placed : g.Placed) (mem : body ∈ decoded) (guarded : g.LoopGuarded body name after) :
    after.Lined decoded (place + 2) := by
  have here := placed body (lined.known body mem)
  have early := lined.within here mem
  have widened : g.Widened (g.segment body).position [g.nextId, g.nextId + 1] after :=
    ⟨Nat.le_of_lt (List.getElem?_eq_some_iff.mp here).1, by
      rw [guarded.order_eq, append_assoc (take _ _)]
      exact prefix_append _ _⟩
  generalize (g.segment body).position = pos at *
  have guard : after.order[pos + 0]? = some g.nextId := widened.new rfl
  refine lined.of_widened guarded.numbered widened early fun listed linked => ?_
  cases guarded.link_cases listed linked with
  | leaves =>
    exact ⟨pos, Nat.lt_of_le_of_lt early (Nat.lt_add_of_pos_right Nat.two_pos), guard,
      widened.new rfl⟩
  | moved known toBody =>
    obtain ⟨index, before, found, behind⟩ := lined.falls known toBody
    have next := numbered.index_eq behind here
    have moved := widened.moved found
    rw [if_pos (by omega)] at moved
    exact ⟨index, Nat.lt_add_right 2 before, moved, next ▸ guard⟩
  | kept known toNext ne =>
    obtain ⟨index, before, found, behind⟩ := lined.falls known toNext
    have apart : index + 1 ≠ pos := by
      rintro rfl
      exact ne (Option.some.inj (behind.symm.trans here))
    obtain ⟨moved, le, found, behind⟩ := widened.neighbours found behind apart
    exact ⟨moved, by omega, found, behind⟩

theorem of_edgeAdded {id next} (numbered : g.Numbered) (placed : g.Placed)
    (mem : id ∈ g.order) (linked : (g.segment id).link false = some next)
    (added : g.EdgeAdded id next after) : after.Lined decoded (place + 1) := by
  have here := placed id mem
  obtain ⟨index, early, found, follows⟩ := lined.falls mem linked
  have position_eq := numbered.index_eq here found
  have widened : g.Widened (index + 1) [g.nextId] after :=
    ⟨(List.getElem?_eq_some_iff.mp found).1, ⟨[], by
      rw [append_nil, added.order_eq, position_eq, append_assoc]⟩⟩
  have edge : after.order[index + 1 + 0]? = some g.nextId := widened.new rfl
  refine lined.of_widened added.numbered widened early fun {other target} listed leads => ?_
  rw [added.link_eq] at leads
  by_cases new : other = g.nextId
  · rw [if_pos ⟨new, rfl⟩] at leads
    cases leads
    have behind := widened.moved follows
    rw [if_neg (Nat.lt_irrefl _)] at behind
    exact ⟨index + 1, Nat.add_lt_add_right early 1, new ▸ edge, behind⟩
  · rw [if_neg fun both => new both.1] at leads
    by_cases same : other = id
    · rw [if_pos ⟨same, rfl⟩] at leads
      cases leads
      have moved := widened.moved found
      rw [if_pos (Nat.lt_succ_self index)] at moved
      exact ⟨index, Nat.lt_add_right 1 early, same ▸ moved, edge⟩
    · rw [if_neg fun both => same both.1] at leads
      have old := (added.mem_order_iff.mp listed).resolve_right new
      obtain ⟨first, before, start, behind⟩ := lined.falls old leads
      have apart : first + 1 ≠ index + 1 := by
        intro equal
        cases Nat.succ.inj equal
        exact same (Option.some.inj (start.symm.trans found))
      obtain ⟨moved, le, start, behind⟩ := widened.neighbours start behind apart
      exact ⟨moved, Nat.lt_of_le_of_lt le (Nat.add_lt_add_right before 1), start, behind⟩

end Lined

theorem IsBase.lined (isBase : IsBase code base) (nonempty : code ≠ [])
    (kept : base.LayoutKept g) : g.Lined base.order ((runs code).length - 1) := by
  have order_eq := kept.order_eq.trans isBase.order_eq
  have first := isBase.zero_mem nonempty
  rw [isBase.order_eq, mem_range] at first
  refine ⟨fun _ mem => kept.order_eq ▸ mem, ⟨(runs code).length - 1, ?_, ?_⟩, ?_, ?_⟩
  · rw [isBase.order_eq, mem_range]
    omega
  · rw [order_eq, getElem?_range (by omega)]
  · intro index id found _
    have inside := (List.getElem?_eq_some_iff.mp found).1
    rw [order_eq, length_range] at inside
    omega
  · intro id next mem linked
    rw [kept.order_eq] at mem
    rw [(kept.each id mem).notTaken_eq, isBase.notTaken_eq mem] at linked
    split at linked
    next further =>
      cases linked
      refine ⟨id, Nat.lt_sub_of_add_lt further.2, ?_, ?_⟩
      · rw [order_eq, getElem?_range (Nat.lt_of_succ_lt further.2)]
      · rw [order_eq, getElem?_range further.2]
    · cases linked

theorem Placed.prepared (tied : g.Tied) (placed : g.Placed) (options : BuildOptions) :
    (g.prepared options).Placed := by
  refine prepared_induction tied placed (fun _ _ _ folded => folded.placed) ?_ options
  intro before _ placed
  refine foldlRecOn _ _ placed fun _ placed id _ => placed.modify id fun seg => ?_
  rw [Segment.countCycles]
  split <;> rfl

theorem Lined.passes (tied : g.Tied) (placed : g.Placed) (lined : g.Lined g.order place) :
    ∃ place, g.guardLoops.isolateEntries.detectLoops.Tied ∧
      g.guardLoops.isolateEntries.detectLoops.Placed ∧
      g.guardLoops.isolateEntries.detectLoops.Lined g.order place := by
  obtain ⟨_, _, ⟨⟨_, guarded⟩, -⟩, restarted⟩ := guardLoops_induction
    (motive := fun after pending => (∃ place, after.Lined g.order place) ∧ after.Placed ∧
      ∀ loop ∈ pending, loop.1 ∈ g.order) tied
    ⟨⟨_, lined⟩, placed, fun _ listed => mem_of_mem_filter (fst_mem_of_mem_zipIdx listed)⟩ (by
      intro before id number rest after numbered _ guarded ⟨⟨_, lined⟩, placed, members⟩
      obtain ⟨mem, members⟩ := forall_mem_cons.mp members
      exact ⟨⟨_, lined.of_loopGuarded numbered placed mem guarded⟩, guarded.placed, members⟩)
  obtain ⟨isolatedTied, _, isolated⟩ := isolateEntries_induction
    (motive := fun after _ => ∃ place, after.Lined g.order place) restarted.toTied
    ⟨_, guarded.of_alike restarted⟩ (fun _ _ _ holds => holds) (by
      rintro before id rest after - - - - isolated ⟨_, lined⟩
      exact ⟨_, lined.of_entryIsolated isolated⟩)
  have detected := alike_detectLoops isolatedTied
  exact ⟨_, detected.toTied, Mapped.placed _ isolatedTied.numbered
    (mapped_detectLoops isolatedTied.numbered), isolated.of_alike detected⟩

theorem Lined.splitJoinEdges (tied : g.Tied) (placed : g.Placed) (lined : g.Lined decoded place) :
    g.splitJoinEdges.Tied ∧ ∃ place, g.splitJoinEdges.Lined decoded place := by
  obtain ⟨subdivides, ⟨_, lined⟩, -⟩ := (Subdivides.refl tied).foldl_splitJoinEdge_induction
    (motive := fun after => (∃ place, after.Lined decoded place) ∧ after.Placed) tied.numbered
    (by
      rintro before id next after subdivides mem - linked - added ⟨⟨_, lined⟩, placed⟩
      exact ⟨⟨_, lined.of_edgeAdded subdivides.numbered placed (subdivides.mem_order mem) linked
        added⟩, added.placed⟩)
    ⟨⟨_, lined⟩, placed⟩ tied.numbered.nodup_order (fun _ mem => mem) fun _ _ => rfl
  have detected := alike_detectLoops subdivides.toTied
  exact ⟨detected.toTied, _, lined.of_alike detected⟩

/-- A graph whose segments can be laid down one after another: where control falls through, the
next one follows, and it does not fall through the last of the decoded segments. -/
structure FallsInOrder (g : Graph) (decoded : List SegmentId) : Prop where
  next : ∀ {index id}, g.order[index]? = some id → (g.segment id).notTaken = none ∨
    ∃ next, (g.segment id).notTaken = some next ∧ g.order[index + 1]? = some next
  last : ∃ front id behind, g.order = front ++ id :: behind ∧ id ∈ decoded ∧
    (∀ other ∈ behind, other ∉ decoded) ∧ (g.segment id).notTaken = none

theorem Lined.fallsInOrder (numbered : g.Numbered) (lined : g.Lined decoded place) :
    g.FallsInOrder decoded := by
  refine ⟨fun {index id} found => ?_, ?_⟩
  · cases linked : (g.segment id).notTaken with
    | none => exact .inl rfl
    | some next =>
      obtain ⟨here, -, start, behind⟩ := lined.falls (mem_of_getElem? found) linked
      exact .inr ⟨next, rfl, numbered.index_eq found start ▸ behind⟩
  · obtain ⟨id, mem, found⟩ := lined.last
    obtain ⟨inside, rfl⟩ := List.getElem?_eq_some_iff.mp found
    refine ⟨g.order.take place, _, g.order.drop (place + 1), ?_, mem, ?_, ?_⟩
    · rw [← drop_eq_getElem_cons inside, take_append_drop]
    · intro other behind known
      obtain ⟨index, there⟩ := mem_iff_getElem?.mp behind
      rw [getElem?_drop] at there
      have within := lined.within there known
      omega
    · refine Option.eq_none_iff_forall_ne_some.mpr fun next linked => ?_
      obtain ⟨index, early, start, -⟩ := lined.falls (getElem_mem inside) linked
      exact absurd (numbered.index_eq start found) (Nat.ne_of_lt early)

/-- In every function that is built, control falls through to the next segment of program order or
nowhere, and not through the last segment that the stream was cut into.  This is still so after
edges were split for the allocation of registers. -/
theorem fall_through_leads_to_next
    {memory : Memory}
    {options : Stream.Options}
    {stream : Stream}
    (generated : Stream.generate memory options = .ok stream)
    {buildOptions : BuildOptions}
    (built : build stream buildOptions = .ok graph) :
    ∃ base, ofStream stream = .ok base ∧ graph.FallsInOrder base.order ∧
      graph.splitJoinEdges.FallsInOrder base.order := by
  obtain ⟨base, made, rfl, -⟩ := of_build_eq_ok built
  obtain ⟨list, tiled, isBase, -⟩ := isBase_of_generate generated made
  have kept : base.LayoutKept (base.prepared buildOptions) :=
    .prepared isBase.toTied (fun _ => isBase.wellPlaced tiled.arranged) buildOptions
  have lined := isBase.lined tiled.trimmed_ne_nil kept
  rw [← kept.order_eq] at lined
  obtain ⟨_, tied, placed, lined⟩ := lined.passes kept.toTied
    (isBase.placed.prepared isBase.toTied buildOptions)
  rw [← passes_eq, kept.order_eq] at lined
  obtain ⟨dividedTied, _, divided⟩ := lined.splitJoinEdges tied placed
  exact ⟨base, made, lined.fallsInOrder tied.numbered, divided.fallsInOrder dividedTied.numbered⟩

theorem fall_through_leads_to_next_saving :
    ∃ stream graph base, Stream.generate saving { entry := 0x1000, count := 6 } = .ok stream ∧
      build stream {} = .ok graph ∧ ofStream stream = .ok base ∧
      graph.FallsInOrder base.order ∧ graph.splitJoinEdges.FallsInOrder base.order := by
  obtain ⟨stream, graph, generated, -, built, -⟩ := exists_saving
  obtain ⟨base, result⟩ := fall_through_leads_to_next generated built
  exact ⟨stream, graph, base, generated, built, result⟩

end Dynarec.Graph
