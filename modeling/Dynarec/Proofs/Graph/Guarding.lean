import Dynarec.Graph.CycleGuard
import Dynarec.Proofs.Graph.Linking

/-!
# Guards and trampolines

What a graph shows after a loop body was put behind a guard, and after an entry
was moved to a segment of its own.  The segments that exist keep their numbers;
the new ones have numbers of their own.
-/

namespace Dynarec
variable {id : SegmentId}

namespace Graph

variable {g : Graph}

section

variable (g)

theorem size_segments_appendSegment : g.appendSegment.segments.size = g.segments.size + 1 := by
  simp [appendSegment]

theorem mem_order_appendSegment_iff :
    id ∈ g.appendSegment.order ↔ id ∈ g.order ∨ id = g.nextId := by
  simp [appendSegment]

theorem content_appendSegment (id : SegmentId) :
    (g.appendSegment.segment id).content = (g.segment id).content := by
  rw [segment_appendSegment]
  split
  next equal => rw [equal, segment_nextId]; rfl
  · rfl

theorem link_appendSegment (id : SegmentId) (side : Bool) :
    (g.appendSegment.segment id).link side = (g.segment id).link side := by
  rw [segment_appendSegment]
  split
  next equal =>
    rw [equal, segment_nextId]
    cases side <;> rfl
  · rfl

theorem sameLinks_appendSegment (id : SegmentId) :
    ((g.spliced g.order.length 1).segment id).SameLinks (g.appendSegment.segment id) := by
  rw [segment_spliced, segment_appendSegment]
  split
  next equal =>
    rw [equal, segment_nextId]
    exact ⟨rfl, rfl, rfl, rfl⟩
  · exact ⟨rfl, rfl, rfl, rfl⟩

theorem order_appendSegment : g.appendSegment.order = (g.spliced g.order.length 1).order := by
  simp [appendSegment, spliced]

variable {g}

theorem Placed.appendSegment (placed : g.Placed) : g.appendSegment.Placed := by
  intro id mem
  rw [segment_appendSegment, Graph.appendSegment]
  split
  next new => simp [new]
  next old =>
    have here := placed id ((g.mem_order_appendSegment_iff.mp mem).resolve_right old)
    rwa [List.getElem?_append_left (List.getElem?_eq_some_iff.mp here).1]

theorem tied_appendSegment (tied : g.Tied) : g.appendSegment.Tied :=
  (tied.spliced g.order.length 1).of_sameLinks g.order_appendSegment
    (by rw [size_segments_appendSegment, size_segments_spliced])
    fun id _ => g.sameLinks_appendSegment id

end

namespace Rewired

section

variable (rewired : g.Rewired links after) (newMem : new ∈ g.order) (old : SegmentId)

include rewired newMem

theorem moveLink (mem : source ∈ g.order) (side : Bool) :
    g.Rewired
      (fun id other => if id = source ∧ other = side ∧ links id other = some old then some new
        else links id other)
      (if (after.segment source).link side = some old then after.setLink source (some new) side
        else after) := by
  rw [rewired.link_eq]
  split
  next leads =>
    refine (rewired.setLink mem (forall_mem_some newMem) side).congr ?_
    grind
  next stays =>
    refine rewired.congr ?_
    grind

theorem relinkSource (mem : source ∈ g.order) :
    g.Rewired
      (fun id side => if id = source ∧ links id side = some old then some new else links id side)
      (relinkSource old new after source) := by
  have taken := rewired.moveLink newMem old mem true
  refine (taken.moveLink newMem old mem false).congr ?_
  grind

theorem foldl_relinkSource {sources : List SegmentId}
    (members : ∀ source ∈ sources, source ∈ g.order) :
    g.Rewired
      (fun id side => if id ∈ sources ∧ links id side = some old then some new else links id side)
      (sources.foldl (Graph.relinkSource old new) after) := by
  induction sources generalizing links after with
  | nil => exact rewired.congr (by simp)
  | cons first rest ih =>
    obtain ⟨mem, members⟩ := List.forall_mem_cons.mp members
    refine (ih (rewired.relinkSource newMem old mem) members).congr ?_
    grind

end

end Rewired

theorem rewired_relinkInputs (tied : g.Tied) {old new : SegmentId} (mem : old ∈ g.order)
    (newMem : new ∈ g.order) :
    g.Rewired (fun id side => if id ∈ g.order ∧ (g.segment id).link side = some old then some new
        else (g.segment id).link side)
      (g.relinkInputs old new) := by
  refine ((Rewired.refl tied).foldl_relinkSource newMem old
    fun _ => tied.numbered.prev_mem mem).congr ?_
  intro id side
  have listed (leads : (g.segment id).link side = some old) :
      id ∈ (g.segment old).prev ↔ id ∈ g.order := by
    refine ⟨tied.numbered.prev_mem mem, fun source => ?_⟩
    rw [tied.backlinked.mem_prev_iff mem source]
    exact Segment.mem_successors_of_link leads
  grind

/-- A new segment made the guard of a loop body. -/
def asGuard (body : Segment) (name : Address) (seg : Segment) : Segment :=
  { seg.append [.cycleCheck name] with
    isDestination := body.isDestination
    jumpAddress := body.jumpAddress
    lowest := body.lowest
    highest := body.highest }

/-- A new segment made the exit behind the guard of a loop body. -/
def asLeave (body seg : Segment) : Segment :=
  { seg.append [.ofRoutine .leave body.lowest 0] with uncertain := true }

/-- A new segment made the one at which the guard of a loop body is entered. -/
def asLoopEntry (body seg : Segment) : Segment :=
  { seg.append [.segmentJump] with
    enterable := true
    enterAddress := if body.enterable then body.enterAddress else body.lowest }

/-- A loop body that only its guard leads to. -/
def behindGuard (name : Address) (body : Segment) : Segment :=
  { body with
    enterable := false
    enterAddress := if body.enterable then 0 else body.enterAddress
    isDestination := true
    jumpAddress := name }

/-- A graph before and after the links to a loop body were led through a guard. -/
structure GuardWired (before : Graph) (body : SegmentId) (after : Graph) : Prop
    extends after.Tied where
  shape_eq : after = { before with order := after.order, segments := after.segments }
  order_eq : after.order = before.order.take (before.segment body).position ++
    [before.nextId, before.nextId + 1] ++ before.order.drop (before.segment body).position ++
    [before.nextId + 2]
  mem_order_iff : ∀ {id}, id ∈ after.order ↔
    id ∈ before.order ∨ before.nextId ≤ id ∧ id < before.nextId + 3
  guard_link : ∀ side, (after.segment before.nextId).link side =
    if side then some body else some (before.nextId + 1)
  leave_link : ∀ side, (after.segment (before.nextId + 1)).link side = none
  entry_link : ∀ side, (after.segment (before.nextId + 2)).link side =
    if side then some before.nextId else none
  link_eq : ∀ id ∈ before.order, ∀ side, (after.segment id).link side =
    if (before.segment id).link side = some body then some before.nextId
    else (before.segment id).link side

/-- A graph before and after a loop body was put behind a guard. -/
structure LoopGuarded (before : Graph) (body : SegmentId) (name : Address) (after : Graph) : Prop
    extends before.GuardWired body after where
  placed : after.Placed
  guard_eq : (after.segment before.nextId).SameFields
    (asGuard (before.segment body) name { id := before.nextId })
  leave_eq : (after.segment (before.nextId + 1)).SameFields
    (asLeave (before.segment body) { id := before.nextId + 1 })
  entry_eq : (after.segment (before.nextId + 2)).SameFields
    (asLoopEntry (before.segment body) { id := before.nextId + 2 })
  body_eq : (after.segment body).SameFields (behindGuard name (before.segment body))
  others_eq : ∀ id ∈ before.order, id ≠ body → (after.segment id).SameFields (before.segment id)

/-- The segments for a guard put in, and the links led through it. -/
def wireGuard (g : Graph) (body : SegmentId) : Graph :=
  let guard := g.nextId
  let g := (g.insertSegments (g.segment body).position 2).appendSegment
  let g := g.relinkInputs body guard
  let g := g.setLink guard (some (guard + 1)) false
  let g := g.setLink guard (some body) true
  g.setLink (guard + 2) (some guard) true

theorem guardSegments_view (tied : g.Tied) (pos : Nat) :
    let after := (g.insertSegments pos 2).appendSegment
    after.Tied ∧ after.Placed ∧
      after = { g with order := after.order, segments := after.segments } ∧
      after.order = g.order.take pos ++ [g.nextId, g.nextId + 1] ++
        g.order.drop pos ++ [g.nextId + 2] ∧
      (∀ {id}, id ∈ after.order ↔ id ∈ g.order ∨ g.nextId ≤ id ∧ id < g.nextId + 3) ∧
      (∀ id, (after.segment id).content = (g.segment id).content) ∧
      ∀ id side, (after.segment id).link side = (g.segment id).link side := by
  have numbered := tied.numbered
  have size := size_segments_insertSegments numbered pos 2
  refine ⟨tied_appendSegment (alike_insertSegments tied pos 2).toTied,
    (placed_insertSegments numbered pos 2).appendSegment, ?_, ?_, ?_, ?_, ?_⟩
  · rw [appendSegment, insertSegments_shape numbered]
  · simp only [appendSegment, order_insertSegments numbered, nextId, size]
    rfl
  · intro id
    rw [mem_order_appendSegment_iff, mem_order_insertSegments_iff numbered, nextId, size, nextId]
    lia
  · intro id
    rw [content_appendSegment]
    exact sameFields_insertSegments tied pos 2 id
  · intro id side
    rw [link_appendSegment, link_insertSegments tied]

theorem guardWired_wireGuard (tied : g.Tied) (mem : body ∈ g.order) :
    g.GuardWired body (g.wireGuard body) ∧ (g.wireGuard body).Placed ∧
      ∀ id, ((g.wireGuard body).segment id).SameFields (g.segment id) := by
  obtain ⟨grownTied, placed, shape, order_eq, order, content, link⟩ :=
    guardSegments_view tied (g.segment body).position
  rw [wireGuard]
  generalize (g.insertSegments (g.segment body).position 2).appendSegment = grown at *
  have isNew {id} (lower : g.nextId ≤ id) (upper : id < g.nextId + 3) :
      id ∈ grown.order := order.mpr (.inr ⟨lower, upper⟩)
  have guardListed := isNew (Nat.le_refl _) (by lia)
  have leaveListed : g.nextId + 1 ∈ grown.order := isNew (by lia) (by lia)
  have entryListed : g.nextId + 2 ∈ grown.order := isNew (by lia) (by lia)
  have bodyListed := order.mpr (.inl mem)
  have unlinked {id} (new : g.nextId ≤ id) side : (grown.segment id).link side = none := by
    rw [link, segment_of_le new]
    cases side <;> rfl
  have wired := (((rewired_relinkInputs grownTied bodyListed guardListed).setLink guardListed
    (forall_mem_some leaveListed) false).setLink guardListed
    (forall_mem_some bodyListed) true).setLink entryListed (forall_mem_some guardListed) true
  refine ⟨⟨wired.toTied, ?_, ?_, ?_, ?_, ?_, ?_, ?_⟩, wired.placed placed,
    fun id => (wired.content_eq id).trans (content id)⟩
  · rw [wired.shape_eq, shape]
  · rw [wired.order_eq, order_eq]
  · intro id
    rw [wired.order_eq, order]
  · intro side
    rw [wired.link_eq]
    cases side <;> simp
  · intro side
    rw [wired.link_eq, unlinked (by lia)]
    simp
  · intro side
    rw [wired.link_eq, unlinked (by lia)]
    cases side <;> simp
  · intro id old side
    have inside : id < g.nextId := tied.numbered.inside old
    rw [wired.link_eq, link, if_neg (by lia), if_neg (by lia), if_neg (by lia)]
    simp only [order.mpr (.inl old), true_and]

theorem GuardWired.refilled (wired : g.GuardWired body middle)
    (filled : middle.Refilled fill after) : g.GuardWired body after where
  numbered := filled.numbered
  backlinked := filled.backlinked
  shape_eq := by rw [filled.shape_eq, wired.shape_eq]
  order_eq := by rw [filled.order_eq, wired.order_eq]
  mem_order_iff := by
    rw [filled.order_eq]
    exact wired.mem_order_iff
  guard_link side := ((filled.same _).link_eq side).trans (wired.guard_link side)
  leave_link side := ((filled.same _).link_eq side).trans (wired.leave_link side)
  entry_link side := ((filled.same _).link_eq side).trans (wired.entry_link side)
  link_eq id old side := ((filled.same _).link_eq side).trans (wired.link_eq id old side)

theorem loopGuarded_guardLoop (tied : g.Tied) (mem : body ∈ g.order) (number : Nat) :
    g.LoopGuarded body (syntheticBase + UInt32.ofNat number) (g.guardLoop body number) := by
  obtain ⟨wired, placed, content_eq⟩ := guardWired_wireGuard tied mem
  generalize name_eq : syntheticBase + UInt32.ofNat number = name
  have guardLoop_eq : g.guardLoop body number = ((((g.wireGuard body).modify g.nextId
        (asGuard ((g.wireGuard body).segment body) name)).modify (g.nextId + 1)
        (asLeave ((g.wireGuard body).segment body))).modify (g.nextId + 2)
        (asLoopEntry ((g.wireGuard body).segment body))).modify body (behindGuard name) := by
    rw [← name_eq]
    rfl
  have isNew id (lower : g.nextId ≤ id) (upper : id < g.nextId + 3) :
      id ∈ (g.wireGuard body).order := wired.mem_order_iff.mpr (.inr ⟨lower, upper⟩)
  have filled := ((((Refilled.refl wired.toTied).modify
    (isNew g.nextId (by lia) (by lia)) (asGuard ((g.wireGuard body).segment body) name)
    fun _ => ⟨rfl, rfl, rfl, rfl⟩).modify
    (isNew (g.nextId + 1) (by lia) (by lia)) (asLeave ((g.wireGuard body).segment body))
    fun _ => ⟨rfl, rfl, rfl, rfl⟩).modify
    (isNew (g.nextId + 2) (by lia) (by lia)) (asLoopEntry ((g.wireGuard body).segment body))
    fun _ => ⟨rfl, rfl, rfl, rfl⟩).modify
    (wired.mem_order_iff.mpr (.inl mem)) (behindGuard name) fun _ => ⟨rfl, rfl, rfl, rfl⟩
  rw [← guardLoop_eq] at filled
  have inside : body < g.nextId := tied.numbered.inside mem
  have body_eq := content_eq body
  have empty id (new : g.nextId ≤ id) : ((g.wireGuard body).segment id).SameFields { id } :=
    segment_of_le new ▸ content_eq id
  refine ⟨wired.refilled filled, ?_, ?_, ?_, ?_, ?_, ?_⟩
  · rw [guardLoop_eq]
    refine Placed.modify (.modify (.modify (.modify placed _ ?_) _ ?_) _ ?_) _ ?_ <;>
      exact fun _ => rfl
  · rw [filled.segment_eq, if_neg (by lia), if_neg (by lia), if_neg (by lia), if_pos rfl]
    exact body_eq.map₂ (asGuard · name) (fun _ _ => rfl) (empty _ (Nat.le_refl _))
  · rw [filled.segment_eq, if_neg (by lia), if_neg (by lia), if_pos rfl, if_neg (by lia)]
    exact body_eq.map₂ asLeave (fun _ _ => rfl) (empty _ (by lia))
  · rw [filled.segment_eq, if_neg (by lia), if_pos rfl, if_neg (by lia), if_neg (by lia)]
    exact body_eq.map₂ asLoopEntry (fun _ _ => rfl) (empty _ (by lia))
  · rw [filled.segment_eq, if_pos rfl, if_neg (by lia), if_neg (by lia), if_neg (by lia)]
    exact body_eq.map₂ (fun _ => behindGuard name) (fun _ _ => rfl) body_eq
  · intro id old ne
    have known : id < g.nextId := tied.numbered.inside old
    rw [filled.segment_eq, if_neg (Ne.symm ne), if_neg (by lia), if_neg (by lia), if_neg (by lia)]
    exact content_eq id

/-- The links of a graph in which a loop body was put behind a guard. -/
inductive GuardedLink (before : Graph) (body : SegmentId) : SegmentId → Bool → SegmentId → Prop
  | continues : GuardedLink before body before.nextId true body
  | leaves : GuardedLink before body before.nextId false (before.nextId + 1)
  | enters : GuardedLink before body (before.nextId + 2) true before.nextId
  | moved {id side} (member : id ∈ before.order)
      (linked : (before.segment id).link side = some body) :
      GuardedLink before body id side before.nextId
  | kept {id side next} (member : id ∈ before.order)
      (linked : (before.segment id).link side = some next) (ne : next ≠ body) :
      GuardedLink before body id side next

namespace LoopGuarded

variable (guarded : g.LoopGuarded body name after)

include guarded

theorem mem_cases (mem : id ∈ after.order) :
    id ∈ g.order ∨ id = g.nextId ∨ id = g.nextId + 1 ∨ id = g.nextId + 2 := by
  have cases := guarded.mem_order_iff.mp mem
  lia

theorem link_cases (mem : id ∈ after.order) (linked : (after.segment id).link side = some next) :
    GuardedLink g body id side next := by
  rcases guarded.mem_cases mem with old | rfl | rfl | rfl
  · rw [guarded.link_eq id old] at linked
    split at linked
    next toBody =>
      cases linked
      exact .moved old toBody
    next elsewhere => exact .kept old linked fun equal => elsewhere (equal ▸ linked)
  · rw [guarded.guard_link] at linked
    cases side with
    | true =>
      cases linked
      exact .continues
    | false =>
      cases linked
      exact .leaves
  · rw [guarded.leave_link] at linked
    cases linked
  · rw [guarded.entry_link] at linked
    cases side with
    | true =>
      cases linked
      exact .enters
    | false => cases linked

theorem code_eq (mem : id ∈ g.order) :
    (after.segment id).instructions = (g.segment id).instructions := by
  by_cases same : id = body
  · subst same
    exact guarded.body_eq.code_eq
  · exact (guarded.others_eq id mem same).code_eq

theorem guard_mem : g.nextId ∈ after.order :=
  guarded.mem_order_iff.mpr (.inr ⟨Nat.le_refl _, by lia⟩)

theorem leave_mem : g.nextId + 1 ∈ after.order := guarded.mem_order_iff.mpr (.inr ⟨by lia, by lia⟩)

theorem entry_mem : g.nextId + 2 ∈ after.order := guarded.mem_order_iff.mpr (.inr ⟨by lia, by lia⟩)

end LoopGuarded

/-- A new segment made the one at which an entry address is entered. -/
def asTrampoline (addr : Address) (seg : Segment) : Segment :=
  { seg.append [.segmentJump] with
    enterable := true
    enterAddress := addr }

/-- A segment whose entry was moved to a trampoline. -/
def behindTrampoline (seg : Segment) : Segment :=
  { seg with enterable := false, enterAddress := 0 }

structure EntryIsolated (before : Graph) (id : SegmentId) (after : Graph) : Prop
    extends after.Tied where
  shape_eq : after = { before with order := after.order, segments := after.segments }
  order_eq : after.order = before.order ++ [before.nextId]
  trampoline_eq : (after.segment before.nextId).SameFields
    (asTrampoline (before.segment id).enterAddress { id := before.nextId })
  inner_eq : (after.segment id).SameFields (behindTrampoline (before.segment id))
  others_eq : ∀ other ∈ before.order, other ≠ id →
    (after.segment other).SameFields (before.segment other)
  trampoline_link : ∀ side, (after.segment before.nextId).link side = if side then some id else none
  link_eq : ∀ other ∈ before.order, ∀ side, (after.segment other).link side =
    (before.segment other).link side

namespace EntryIsolated

variable (isolated : g.EntryIsolated id after)

include isolated

theorem mem_order_iff : other ∈ after.order ↔ other ∈ g.order ∨ other = g.nextId := by
  rw [isolated.order_eq, List.mem_append, List.mem_singleton]

theorem link_cases (mem : source ∈ after.order)
    (linked : (after.segment source).link side = some next) :
    source ∈ g.order ∧ (g.segment source).link side = some next ∨
      source = g.nextId ∧ side ∧ next = id := by
  cases isolated.mem_order_iff.mp mem with
  | inl old => exact .inl ⟨old, isolated.link_eq source old side ▸ linked⟩
  | inr new =>
    subst new
    rw [isolated.trampoline_link] at linked
    cases side with
    | true =>
      cases linked
      exact .inr ⟨rfl, rfl, rfl⟩
    | false => cases linked

theorem code_eq (mem : other ∈ g.order) :
    (after.segment other).instructions = (g.segment other).instructions := by
  by_cases same : other = id
  · subst same
    exact isolated.inner_eq.code_eq
  · exact (isolated.others_eq other mem same).code_eq

theorem trampoline_mem : g.nextId ∈ after.order := isolated.mem_order_iff.mpr (.inr rfl)

end EntryIsolated

theorem entryIsolated_of_member (tied : g.Tied) (mem : id ∈ g.order) :
    g.EntryIsolated id (((g.appendSegment.modify g.nextId
        (asTrampoline (g.segment id).enterAddress)).setLink g.nextId (some id) true).modify
        id behindTrampoline) := by
  have listed {other} : other ∈ g.appendSegment.order ↔
      other ∈ g.order ∨ other = g.nextId := g.mem_order_appendSegment_iff
  have old : id < g.nextId := tied.numbered.inside mem
  have idListed := listed.mpr (.inl mem)
  have newListed : g.nextId ∈ g.appendSegment.order := listed.mpr (.inr rfl)
  have filled := (Refilled.refl (tied_appendSegment tied)).modify newListed
    (asTrampoline (g.segment id).enterAddress) fun _ => ⟨rfl, rfl, rfl, rfl⟩
  have wired := (Rewired.refl filled.toTied).setLink (filled.order_eq ▸ newListed)
    (forall_mem_some (filled.order_eq ▸ idListed)) true
  have emptied := (Refilled.refl wired.toTied).modify (wired.order_eq ▸ filled.order_eq ▸ idListed)
    behindTrampoline fun _ => ⟨rfl, rfl, rfl, rfl⟩
  have kept {other} (known : other < g.nextId) :=
    (wired.content_eq other).trans ((congrArg Segment.content
      ((filled.segment_eq other).trans (if_neg (by lia)))).trans
        (g.content_appendSegment other))
  refine ⟨emptied.toTied, ?_, ?_, ?_, ?_, ?_, ?_, ?_⟩
  · rw [emptied.shape_eq, wired.shape_eq, filled.shape_eq]
    rfl
  · rw [emptied.order_eq, wired.order_eq, filled.order_eq]
    rfl
  · rw [emptied.segment_eq, if_neg (by lia)]
    refine (wired.content_eq _).trans ?_
    rw [filled.segment_eq, if_pos rfl, segment_appendSegment, if_pos rfl]
    rfl
  · rw [emptied.segment_eq, if_pos rfl]
    exact .map₂ (kept old) (fun _ => behindTrampoline) (fun _ _ => rfl) (kept old)
  · intro other otherMem ne
    rw [emptied.segment_eq, if_neg (Ne.symm ne)]
    exact kept (tied.numbered.inside otherMem)
  · intro side
    rw [(emptied.same _).link_eq, wired.link_eq, (filled.same _).link_eq, link_appendSegment,
      segment_nextId]
    cases side <;> simp [Segment.link]
  · intro other otherMem side
    have known : other < g.nextId := tied.numbered.inside otherMem
    rw [(emptied.same _).link_eq, wired.link_eq, if_neg (by lia), (filled.same _).link_eq,
      link_appendSegment]

theorem isolateEntry_cases (tied : g.Tied) (mem : id ∈ g.order) :
    g.isolateEntry id = g ∧ ((g.segment id).enterable → (g.segment id).prev = []) ∨
      (g.segment id).enterable ∧ (g.segment id).prev ≠ [] ∧
        g.EntryIsolated id (g.isolateEntry id) := by
  rw [isolateEntry]
  split
  next both =>
    rw [Bool.and_eq_true, decide_eq_true_eq] at both
    exact .inr ⟨both.1, both.2, entryIsolated_of_member tied mem⟩
  next either =>
    refine .inl ⟨rfl, fun enterable => ?_⟩
    simpa [enterable] using either

end Graph
end Dynarec
