import Dynarec.Proofs.Graph.Links
import Mathlib.Data.List.Nodup

/-!
# What a graph shows after a change

A graph is seen through the segment with a number and through program order.
Each change of a graph is described once by what it does to these two views.
-/

namespace Dynarec

open List Segment

namespace Graph

variable {g : Graph} {id : SegmentId}

theorem segment_modify (inside : id < g.segments.size)
    (change : Segment → Segment) (other : SegmentId) :
    (g.modify id change).segment other =
      if id = other then change (g.segment other) else g.segment other := by
  simp only [segment, modify, Array.getD_eq_getD_getElem?, Array.getElem?_modify]
  split
  next equal =>
    subst equal
    rw [Array.getElem?_eq_getElem inside]
    rfl
  · rfl

theorem modify_of_le (outside : g.segments.size ≤ id) (change : Segment → Segment) :
    g.modify id change = g := by
  rw [modify, Array.modify, Array.modifyM, dif_neg (Nat.not_lt.mpr outside)]
  rfl

theorem segment_of_le (outside : g.segments.size ≤ id) : g.segment id = { id } := by
  rw [segment, Array.getD_eq_getD_getElem?, Array.getElem?_eq_none outside, Option.getD_none]

@[simp] theorem segment_nextId : g.segment g.nextId = { id := g.nextId } :=
  segment_of_le (Nat.le_refl _)

@[simp] theorem order_modify (id : SegmentId) (change : Segment → Segment) :
    (g.modify id change).order = g.order := rfl

@[simp] theorem slots_modify (id : SegmentId) (change : Segment → Segment) :
    (g.modify id change).slots = g.slots := rfl

@[simp] theorem size_segments_modify (id : SegmentId) (change : Segment → Segment) :
    (g.modify id change).segments.size = g.segments.size := by
  simp [modify]

theorem segment_foldl_modify {α : Type} (g : Graph) (number : α → SegmentId)
    (change : α → Segment → Segment) {items : List α} (nodup : (items.map number).Nodup)
    (inside : ∀ item ∈ items, number item < g.segments.size) :
    let result := items.foldl (fun g item => g.modify (number item) (change item)) g
    result = { g with segments := result.segments } ∧ result.segments.size = g.segments.size ∧
      (∀ id ∉ items.map number, result.segment id = g.segment id) ∧
      ∀ item ∈ items, result.segment (number item) = change item (g.segment (number item)) := by
  induction items generalizing g with
  | nil => simp
  | cons first rest ih =>
    obtain ⟨fresh, nodup⟩ := nodup_cons.mp nodup
    obtain ⟨here, inside⟩ := forall_mem_cons.mp inside
    have insideRest : ∀ item ∈ rest,
        number item < (g.modify (number first) (change first)).segments.size := by
      intro item mem
      rw [size_segments_modify]
      exact inside item mem
    obtain ⟨shape, size, others, changed⟩ := ih _ nodup insideRest
    rw [foldl_cons]
    refine ⟨shape, size.trans (size_segments_modify _ _), ?_, ?_⟩
    · intro id unlisted
      rw [map_cons, mem_cons, not_or] at unlisted
      rw [others id unlisted.2, segment_modify here, if_neg (Ne.symm unlisted.1)]
    · refine forall_mem_cons.mpr ⟨?_, ?_⟩
      · rw [others _ fresh, segment_modify here, if_pos rfl]
      · intro item mem
        have ne : number first ≠ number item := fun equal =>
          fresh (equal ▸ mem_map_of_mem mem)
        rw [changed item mem, segment_modify here, if_neg ne]

/-- A graph in which each segment of program order was changed. -/
structure Mapped (g : Graph) (change : Segment → Segment) (result : Graph) : Prop where
  shape_eq : result = { g with segments := result.segments }
  size_eq : result.segments.size = g.segments.size
  segment_eq : ∀ id, result.segment id =
    if id ∈ g.order then change (g.segment id) else g.segment id

namespace Mapped

theorem order_eq (mapped : g.Mapped change result) : result.order = g.order := by
  rw [mapped.shape_eq]

theorem slots_eq (mapped : g.Mapped change result) : result.slots = g.slots := by
  rw [mapped.shape_eq]

theorem trans {next} (first : g.Mapped change result) (second : result.Mapped next last) :
    g.Mapped (fun seg => next (change seg)) last where
  shape_eq := by
    rw [second.shape_eq, first.shape_eq]
  size_eq := second.size_eq.trans first.size_eq
  segment_eq id := by
    rw [second.segment_eq, first.segment_eq, first.order_eq]
    split
    · rfl
    · rfl

end Mapped

theorem mapped_mapOrdered (numbered : g.Numbered) (change : Segment → Segment) :
    g.Mapped change (g.mapOrdered change) := by
  have nodup : (g.order.map fun id => id).Nodup := by
    rw [map_id']
    exact numbered.nodup_order
  obtain ⟨shape, size, others, changed⟩ :=
    segment_foldl_modify g (fun id => id) (fun _ => change) nodup fun _ => numbered.inside
  refine ⟨shape, size, fun id => ?_⟩
  split
  next mem => exact changed id mem
  next unlisted => exact others id (by rwa [map_id'])

theorem mapped_renumber (numbered : g.Numbered) :
    g.Mapped (fun seg => { seg with position := g.order.idxOf seg.id })
      g.renumber := by
  have places : g.order.zipIdx.map Prod.fst = g.order := zipIdx_map_fst 0 g.order
  obtain ⟨shape, size, others, changed⟩ := segment_foldl_modify g Prod.fst
      (fun (place : SegmentId × Nat) seg => { seg with position := place.2 })
      (places.symm ▸ numbered.nodup_order)
      fun place mem => numbered.inside (places ▸ mem_map_of_mem mem)
  refine ⟨shape, size, fun id => ?_⟩
  split
  next mem =>
    have place : g.order.idxOf (g.segment id).id = g.order.idxOf id := by
      rw [numbered.segment_id mem]
    have placed : (id, g.order.idxOf id) ∈ g.order.zipIdx := by
      rw [mk_mem_zipIdx_iff_getElem?]
      exact getElem?_idxOf mem
    rw [place]
    exact changed _ placed
  next unlisted => exact others id (places.symm ▸ unlisted)

/-- Every segment knows its place in program order. -/
def Placed (g : Graph) : Prop :=
  ∀ id ∈ g.order, g.order[(g.segment id).position]? = some id

theorem Mapped.placed (loopDepth : Segment → Nat) (numbered : g.Numbered)
    (mapped : g.Mapped (fun seg =>
      { seg with position := g.order.idxOf seg.id, loopDepth := loopDepth seg }) result) :
    result.Placed := by
  intro id mem
  rw [mapped.order_eq] at mem ⊢
  rw [mapped.segment_eq, if_pos mem]
  rw [numbered.segment_id mem]
  exact getElem?_idxOf mem

theorem Placed.modify (placed : g.Placed) (id : SegmentId)
    (same : ∀ seg, (change seg).position = seg.position) : (g.modify id change).Placed := by
  intro other mem
  by_cases inside : id < g.segments.size
  · rw [segment_modify inside, apply_ite position, same, ite_self]
    exact placed other mem
  · rw [modify_of_le (Nat.not_lt.mp inside)]
    exact placed other mem

end Graph

/-- Two states of a segment with the same number, links and sources. -/
structure Segment.SameLinks (seg changed : Segment) : Prop where
  id_eq : changed.id = seg.id
  taken_eq : changed.taken = seg.taken
  notTaken_eq : changed.notTaken = seg.notTaken
  prev_eq : changed.prev = seg.prev

namespace Segment.SameLinks

variable {seg : Segment}

theorem trans (first : seg.SameLinks changed) (second : changed.SameLinks last) :
    seg.SameLinks last :=
  ⟨second.id_eq.trans first.id_eq, second.taken_eq.trans first.taken_eq,
    second.notTaken_eq.trans first.notTaken_eq, second.prev_eq.trans first.prev_eq⟩

theorem link_eq (same : seg.SameLinks changed) (side : Bool) :
    changed.link side = seg.link side := by
  cases side with
  | true => exact same.taken_eq
  | false => exact same.notTaken_eq

theorem successors_eq (same : seg.SameLinks changed) : changed.successors = seg.successors := by
  rw [successors, same.taken_eq, same.notTaken_eq, successors]

end Segment.SameLinks

namespace Graph

variable {g : Graph}

theorem Numbered.of_sameLinks {result : Graph} (numbered : g.Numbered)
    (order_eq : result.order = g.order) (size_eq : result.segments.size = g.segments.size)
    (same : ∀ id ∈ g.order, (g.segment id).SameLinks (result.segment id)) :
    result.Numbered where
  nodup_order := order_eq ▸ numbered.nodup_order
  inside member := size_eq ▸ numbered.inside (order_eq ▸ member)
  segment_id member := by
    rw [order_eq] at member
    rw [(same _ member).id_eq, numbered.segment_id member]
  link_mem member linked := by
    rw [order_eq] at member ⊢
    exact numbered.link_mem member ((same _ member).link_eq _ ▸ linked)
  prev_mem member listed := by
    rw [order_eq] at member ⊢
    exact numbered.prev_mem member ((same _ member).prev_eq ▸ listed)

theorem Tied.of_sameLinks {result : Graph} (tied : g.Tied) (order_eq : result.order = g.order)
    (size_eq : result.segments.size = g.segments.size)
    (same : ∀ id ∈ g.order, (g.segment id).SameLinks (result.segment id)) : result.Tied := by
  refine ⟨tied.numbered.of_sameLinks order_eq size_eq same, fun id mem source sourceMem => ?_⟩
  rw [order_eq] at mem sourceMem
  rw [(same id mem).prev_eq, (same source sourceMem).successors_eq]
  exact tied.backlinked id mem source sourceMem

section

variable (mapped : g.Mapped change result) (same : ∀ seg : Segment, seg.SameLinks (change seg))

include mapped same

theorem Mapped.sameLinks : ∀ id ∈ g.order, (g.segment id).SameLinks (result.segment id) := by
  intro id mem
  rw [mapped.segment_eq, if_pos mem]
  exact same _

theorem Mapped.numbered (numbered : g.Numbered) : result.Numbered :=
  numbered.of_sameLinks mapped.order_eq mapped.size_eq (mapped.sameLinks same)

theorem Mapped.tied (tied : g.Tied) : result.Tied :=
  tied.of_sameLinks mapped.order_eq mapped.size_eq (mapped.sameLinks same)

end

/-- New segments in program order, before the places are told. -/
def spliced (g : Graph) (position count : Nat) : Graph :=
  let ids := (range count).map (g.nextId + ·)
  { g with
    order := g.order.take position ++ ids ++ g.order.drop position
    segments := ids.foldl (fun segments id => segments.push { id }) g.segments }

theorem insertSegments_eq_renumber (pos count : Nat) :
    g.insertSegments pos count = (g.spliced pos count).renumber := rfl

theorem segments_spliced (g : Graph) (pos count : Nat) :
    (g.spliced pos count).segments = g.segments ++ ((range count).map fun index =>
        ({ id := g.nextId + index } : Segment)).toArray := by
  have pushes (ids : List SegmentId) segments :
      ids.foldl (fun segments id => segments.push { id }) segments =
        segments ++ (ids.map fun id => ({ id } : Segment)).toArray := by
    induction ids generalizing segments with
    | nil => simp
    | cons first rest ih => simp [ih]
  rw [spliced, pushes, map_map]
  rfl

theorem segment_spliced (pos count : Nat) (id : SegmentId) :
    (g.spliced pos count).segment id = g.segment id := by
  rw [segment, segments_spliced, segment, Array.getD_eq_getD_getElem?, Array.getD_eq_getD_getElem?,
    Array.getElem?_append]
  split
  · rfl
  next outside =>
    have known : g.segments.size ≤ id := Nat.le_of_not_lt outside
    rw [Array.getElem?_eq_none known, Option.getD_none, getElem?_toArray, getElem?_map]
    by_cases new : id - g.segments.size < count
    · rw [getElem?_range new, Option.map_some, Option.getD_some, nextId, Nat.add_sub_cancel' known]
    · rw [getElem?_eq_none (by rwa [length_range, ← Nat.not_lt]), Option.map_none, Option.getD_none]

@[simp] theorem size_segments_spliced (pos count : Nat) :
    (g.spliced pos count).segments.size = g.segments.size + count := by
  simp [segments_spliced]

theorem mem_order_spliced_iff {pos count id} :
    id ∈ (g.spliced pos count).order ↔
      id ∈ g.order ∨ g.segments.size ≤ id ∧ id < g.segments.size + count := by
  have old : id ∈ g.order ↔ id ∈ g.order.take pos ∨ id ∈ g.order.drop pos := by
    rw [← mem_append, take_append_drop]
  have new : id ∈ (range count).map (g.nextId + ·) ↔
      g.segments.size ≤ id ∧ id < g.segments.size + count := by
    simp only [mem_map, mem_range, nextId]
    constructor
    · rintro ⟨index, bound, rfl⟩
      lia
    · rintro ⟨lower, upper⟩
      exact ⟨id - g.segments.size, by lia, by lia⟩
  rw [spliced, mem_append, mem_append, new, old]
  tauto

theorem Numbered.spliced (numbered : g.Numbered) (pos count : Nat) :
    (g.spliced pos count).Numbered where
  nodup_order := by
    have fresh : ∀ id ∈ (range count).map (g.nextId + ·), id ∉ g.order := by
      intro id new old
      obtain ⟨index, -, rfl⟩ := mem_map.mp new
      exact absurd (numbered.inside old) (by simp [nextId])
    have distinct : ((range count).map (g.nextId + ·)).Nodup :=
      nodup_range.map fun _ _ => Nat.add_left_cancel
    have halves : (g.order.take pos ++ g.order.drop pos).Nodup := by
      rw [take_append_drop]
      exact numbered.nodup_order
    rw [Graph.spliced, append_assoc]
    refine (perm_append_comm_assoc _ _ _).nodup_iff.mpr ?_
    refine nodup_append.mpr ⟨distinct, halves, ?_⟩
    intro id new other old
    rw [take_append_drop] at old
    rintro rfl
    exact fresh id new old
  inside mem := by
    rw [size_segments_spliced]
    cases mem_order_spliced_iff.mp mem with
    | inl old => exact Nat.lt_add_right count (numbered.inside old)
    | inr new => exact new.2
  segment_id mem := by
    rw [segment_spliced]
    cases mem_order_spliced_iff.mp mem with
    | inl old => exact numbered.segment_id old
    | inr new => rw [segment_of_le new.1]
  link_mem {id side next} mem linked := by
    rw [segment_spliced] at linked
    cases mem_order_spliced_iff.mp mem with
    | inl old => exact mem_order_spliced_iff.mpr (.inl (numbered.link_mem old linked))
    | inr new =>
      rw [segment_of_le new.1] at linked
      cases side <;> cases linked
  prev_mem mem listed := by
    rw [segment_spliced] at listed
    cases mem_order_spliced_iff.mp mem with
    | inl old => exact mem_order_spliced_iff.mpr (.inl (numbered.prev_mem old listed))
    | inr new =>
      rw [segment_of_le new.1] at listed
      cases listed

theorem Tied.spliced (tied : g.Tied) (pos count : Nat) : (g.spliced pos count).Tied := by
  obtain ⟨numbered, backlinked⟩ := tied
  -- A number that is new is listed nowhere and linked from nowhere.
  have unlisted {id source} (mem : id ∈ g.order)
      (new : g.segments.size ≤ source) : (g.segment id).prev.count source = 0 :=
    count_eq_zero.mpr fun listed =>
      absurd (numbered.inside (numbered.prev_mem mem listed)) (Nat.not_lt.mpr new)
  have unlinked {id source} (mem : source ∈ g.order)
      (new : g.segments.size ≤ id) : (g.segment source).successors.count id = 0 := by
    refine count_eq_zero.mpr fun linked => ?_
    obtain ⟨side, linked⟩ := mem_successors_iff.mp linked
    exact absurd (numbered.inside (numbered.link_mem mem linked)) (Nat.not_lt.mpr new)
  refine ⟨numbered.spliced pos count, fun id mem source sourceMem => ?_⟩
  rw [segment_spliced, segment_spliced]
  cases mem_order_spliced_iff.mp mem with
  | inl old =>
    cases mem_order_spliced_iff.mp sourceMem with
    | inl sourceOld => exact backlinked id old source sourceOld
    | inr sourceNew =>
      rw [unlisted old sourceNew.1, segment_of_le sourceNew.1]
      rfl
  | inr new =>
    rw [segment_of_le new.1]
    cases mem_order_spliced_iff.mp sourceMem with
    | inl sourceOld =>
      rw [unlinked sourceOld new.1]
      rfl
    | inr sourceNew =>
      rw [segment_of_le sourceNew.1]
      rfl

section

variable (numbered : g.Numbered) (pos count : Nat)

include numbered

theorem size_segments_insertSegments :
    (g.insertSegments pos count).segments.size = g.segments.size + count := by
  rw [insertSegments_eq_renumber, (mapped_renumber (numbered.spliced pos count)).size_eq,
    size_segments_spliced]

theorem placed_insertSegments : (g.insertSegments pos count).Placed :=
  Mapped.placed loopDepth (numbered.spliced pos count)
    (mapped_renumber (numbered.spliced pos count))

theorem order_insertSegments :
    (g.insertSegments pos count).order = g.order.take pos ++ (range count).map (g.nextId + ·) ++
        g.order.drop pos := by
  rw [insertSegments_eq_renumber, (mapped_renumber (numbered.spliced pos count)).order_eq]
  rfl

theorem mem_order_insertSegments_iff {id} :
    id ∈ (g.insertSegments pos count).order ↔
      id ∈ g.order ∨ g.segments.size ≤ id ∧ id < g.segments.size + count := by
  rw [insertSegments_eq_renumber, (mapped_renumber (numbered.spliced pos count)).order_eq,
    mem_order_spliced_iff]

theorem insertSegments_shape :
    g.insertSegments pos count = { g with
        order := (g.insertSegments pos count).order
        segments := (g.insertSegments pos count).segments } := by
  rw [insertSegments_eq_renumber, (mapped_renumber (numbered.spliced pos count)).shape_eq]
  rfl

end

end Graph
end Dynarec
