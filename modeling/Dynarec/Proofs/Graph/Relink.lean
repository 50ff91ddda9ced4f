import Dynarec.Proofs.Graph.Store

/-!
# Moving a link

A link that moves is struck from the source list of its old destination and
entered in that of the new one.  So complete source lists stay complete.
-/

namespace Dynarec

open List Segment

theorem forall_mem_some {ids : List SegmentId} {id} (mem : id ∈ ids) :
    ∀ new ∈ some id, new ∈ ids := by
  rintro new ⟨⟩
  exact mem

namespace Segment

/-- The segment with the link of one outcome replaced. -/
def withLink (seg : Segment) (destination : Option SegmentId) : Bool → Segment
  | true => { seg with taken := destination }
  | false => { seg with notTaken := destination }

section

variable (seg : Segment) (destination : Option SegmentId)

theorem link_withLink (side other : Bool) :
    (seg.withLink destination side).link other =
      if side = other then destination else seg.link other := by
  cases side <;> cases other <;> rfl

@[simp] theorem prev_withLink (side : Bool) : (seg.withLink destination side).prev = seg.prev := by
  cases side with
  | true => rfl
  | false => rfl

@[simp] theorem id_withLink (side : Bool) : (seg.withLink destination side).id = seg.id := by
  cases side with
  | true => rfl
  | false => rfl

@[simp] theorem position_withLink (side : Bool) :
    (seg.withLink destination side).position = seg.position := by
  cases side with
  | true => rfl
  | false => rfl

end

/-- What a segment holds, apart from its place, its loops and its links. -/
def content (seg : Segment) : Segment :=
  { seg with position := 0, loopDepth := 0, taken := none, notTaken := none, prev := [] }

@[simp] theorem content_withLink (seg : Segment) (destination : Option SegmentId)
    (side : Bool) : (seg.withLink destination side).content = seg.content := by
  cases side with
  | true => rfl
  | false => rfl

/-- Two states of a segment that hold the same. -/
def SameFields (seg other : Segment) : Prop :=
  seg.content = other.content

namespace SameFields

variable {seg : Segment} (same : seg.SameFields other)

include same

theorem id_eq : seg.id = other.id := (congrArg id same :)

theorem code_eq : seg.instructions = other.instructions := (congrArg instructions same :)

theorem last?_eq : seg.last? = other.last? := by rw [last?, same.code_eq, last?]

theorem lowest_eq : seg.lowest = other.lowest := (congrArg lowest same :)

theorem enterable_eq : seg.enterable = other.enterable := (congrArg enterable same :)

theorem enterAddress_eq : seg.enterAddress = other.enterAddress := (congrArg enterAddress same :)

theorem isDestination_eq : seg.isDestination = other.isDestination :=
  (congrArg isDestination same :)

theorem jumpAddress_eq : seg.jumpAddress = other.jumpAddress := (congrArg jumpAddress same :)

theorem map₂ (change : Segment → Segment → Segment)
    (byContent : ∀ seg second, (change seg second).SameFields (change seg.content second.content))
    (sameSecond : second.SameFields last) : (change seg second).SameFields (change other last) :=
  (byContent seg second).trans ((congrArg₂ (fun seg second => (change seg second).content) same
    sameSecond).trans (byContent other last).symm)

end SameFields

theorem count_successors (seg : Segment) (id : SegmentId) :
    seg.successors.count id = (if seg.link true = some id then 1 else 0) +
        (if seg.link false = some id then 1 else 0) := by
  have once next : next.toList.count id = if next = some id then 1 else 0 := by
    cases next with
    | none => rfl
    | some next => simp [count_singleton]
  rw [successors, count_append, once, once]
  rfl

end Segment

namespace Graph

variable {g : Graph}

/-- The link of one outcome of a segment set or cleared. -/
def setLink (g : Graph) (source : SegmentId) (destination : Option SegmentId) : Bool → Graph
  | true => g.setTaken source destination
  | false => g.setNotTaken source destination

theorem setLink_eq (g : Graph) (source : SegmentId) (destination : Option SegmentId) (side : Bool) :
    g.setLink source destination side =
      (moveChanges source ((g.segment source).link side) destination).foldl applyChange
        (g.modify source (·.withLink destination side)) := by
  cases side with
  | true => rfl
  | false => rfl

/-- The sources at a segment after a link of `source` moved from `old` to `new`. -/
def movedSources (source : SegmentId) (old new : Option SegmentId) (id : SegmentId)
    (sources : List SegmentId) : List SegmentId :=
  let struck := if old = some id then sources.erase source else sources
  if new = some id then struck ++ [source] else struck

theorem mem_of_mem_movedSources {source id other}
    (listed : other ∈ movedSources source old new id sources) :
    other ∈ sources ∨ other = source := by
  have struck : other ∈ (if old = some id then sources.erase source else sources) →
      other ∈ sources := by
    split
    · exact mem_of_mem_erase
    · exact fun kept => kept
  rw [movedSources] at listed
  split at listed
  · cases mem_append.mp listed with
    | inl kept => exact .inl (struck kept)
    | inr entered => exact .inr (mem_singleton.mp entered)
  · exact .inl (struck listed)

theorem count_movedSources_self (source id : SegmentId) (old new : Option SegmentId)
    (sources : List SegmentId) :
    (movedSources source old new id sources).count source =
      sources.count source - (if old = some id then 1 else 0) +
        (if new = some id then 1 else 0) := by
  rw [movedSources]
  split <;> split <;> simp

theorem count_movedSources_of_ne (ne : other ≠ source) (id : SegmentId)
    (old new : Option SegmentId) (sources : List SegmentId) :
    (movedSources source old new id sources).count other = sources.count other := by
  rw [movedSources]
  split <;> split <;> simp [count_erase_of_ne ne, ne.symm]

@[simp] theorem size_segments_applyChange (g : Graph) (change : SourceChange) :
    (g.applyChange change).segments.size = g.segments.size := by
  cases change with
  | strike destination source => exact size_segments_modify _ _
  | enter destination source => exact size_segments_modify _ _

theorem segment_applyChange (change : List SegmentId → List SegmentId)
    (applies : ∀ next, g.applyChange (kind next) =
      g.modify next fun seg => { seg with prev := change seg.prev })
    (inside : ∀ next ∈ destination, next < g.segments.size) (id : SegmentId) :
    ((destination.map kind).toList.foldl applyChange g).segment id = { g.segment id with
        prev := if destination = some id then change (g.segment id).prev
          else (g.segment id).prev } := by
  cases destination with
  | none => rfl
  | some next =>
    rw [Option.map_some, Option.toList_some, foldl_cons, foldl_nil, applies,
      segment_modify (inside next rfl)]
    simp only [Option.some.injEq]
    split
    · rfl
    · rfl

theorem foldl_applyChange (changes : List SourceChange) (g : Graph) :
    changes.foldl applyChange g = { g with segments := (changes.foldl applyChange g).segments } ∧
      (changes.foldl applyChange g).segments.size = g.segments.size := by
  induction changes generalizing g with
  | nil => exact ⟨rfl, rfl⟩
  | cons first rest ih =>
    obtain ⟨shape, size⟩ := ih (g.applyChange first)
    rw [foldl_cons]
    refine ⟨?_, size.trans (size_segments_applyChange g first)⟩
    rw [shape]
    cases first with
    | strike destination source => rfl
    | enter destination source => rfl

theorem setLink_shape (g : Graph) (source : SegmentId) (destination : Option SegmentId)
    (side : Bool) :
    g.setLink source destination side =
        { g with segments := (g.setLink source destination side).segments } ∧
      (g.setLink source destination side).segments.size = g.segments.size := by
  rw [setLink_eq]
  obtain ⟨shape, size⟩ := foldl_applyChange
    (moveChanges source ((g.segment source).link side) destination)
    (g.modify source (·.withLink destination side))
  exact ⟨shape, size.trans (size_segments_modify _ _)⟩

@[simp] theorem order_setLink (source : SegmentId) (destination : Option SegmentId) (side : Bool) :
    (g.setLink source destination side).order = g.order := by
  rw [(g.setLink_shape source destination side).1]

@[simp] theorem size_segments_setLink (source : SegmentId) (destination : Option SegmentId)
    (side : Bool) : (g.setLink source destination side).segments.size = g.segments.size :=
  (g.setLink_shape source destination side).2

section

variable (numbered : g.Numbered) {source : SegmentId} {destination : Option SegmentId}

  (mem : source ∈ g.order)
  (newMem : ∀ new ∈ destination, new ∈ g.order)

include numbered mem newMem

theorem segment_setLink (id : SegmentId) :
    (g.setLink source destination side).segment id =
      { (if source = id then (g.segment id).withLink destination side else g.segment id) with
        prev := movedSources source ((g.segment source).link side) destination id
          (g.segment id).prev } := by
  have inside := numbered.inside mem
  have oldInside : ∀ old ∈ (g.segment source).link side, old < g.segments.size :=
    fun _ linked => numbered.inside (numbered.link_mem mem linked)
  have newInside : ∀ new ∈ destination, new < g.segments.size :=
    fun new linked => numbered.inside (newMem new linked)
  have struckSize (changes : List SourceChange) :
      (changes.foldl applyChange (g.modify source (·.withLink destination side))).segments.size =
        g.segments.size :=
    (foldl_applyChange changes _).2.trans (size_segments_modify _ _)
  have kept : ((g.modify source (·.withLink destination side)).segment id).prev =
      (g.segment id).prev := by
    rw [segment_modify inside]
    split
    · exact prev_withLink _ _ _
    · rfl
  rw [setLink_eq, moveChanges, foldl_append,
    segment_applyChange (· ++ [source]) (fun _ => rfl) (by rwa [struckSize]),
    segment_applyChange (·.erase source) (fun _ => rfl) (by rwa [size_segments_modify]),
    kept, segment_modify inside]
  rfl

theorem link_setLink (id : SegmentId) (other : Bool) :
    ((g.setLink source destination side).segment id).link other =
      if source = id ∧ side = other then destination else (g.segment id).link other := by
  have kept (seg : Segment) sources :
      ({ seg with prev := sources } : Segment).link other = seg.link other := by
    cases other with
    | true => rfl
    | false => rfl
  rw [segment_setLink numbered mem newMem, kept]
  by_cases same : source = id
  · rw [if_pos same, link_withLink]
    simp only [same, true_and]
  · rw [if_neg same, if_neg fun both => same both.1]

theorem numbered_setLink (side : Bool) : (g.setLink source destination side).Numbered := by
  refine ⟨?_, ?_, ?_, ?_, ?_⟩
  · rw [order_setLink]
    exact numbered.nodup_order
  · rw [order_setLink, size_segments_setLink]
    exact numbered.inside
  · intro id listed
    rw [order_setLink] at listed
    rw [segment_setLink numbered mem newMem]
    simp only [apply_ite Segment.id, Segment.id_withLink, ite_self]
    exact numbered.segment_id listed
  · intro id other next listed linked
    rw [order_setLink] at listed ⊢
    rw [link_setLink numbered mem newMem] at linked
    split at linked
    · exact newMem next linked
    · exact numbered.link_mem listed linked
  · intro id other listed entered
    rw [order_setLink] at listed ⊢
    rw [segment_setLink numbered mem newMem] at entered
    cases mem_of_mem_movedSources entered with
    | inl kept => exact numbered.prev_mem listed kept
    | inr moved => exact moved ▸ mem

theorem tied_setLink (backlinked : g.Backlinked) (side : Bool) :
    (g.setLink source destination side).Tied := by
  refine ⟨numbered_setLink numbered mem newMem side, fun id listed other otherListed => ?_⟩
  rw [order_setLink] at listed otherListed
  have complete := backlinked id listed other otherListed
  rw [count_successors] at complete ⊢
  rw [segment_setLink numbered mem newMem id, link_setLink numbered mem newMem,
    link_setLink numbered mem newMem]
  by_cases same : source = other
  · subst same
    rw [count_movedSources_self, complete]
    cases side with
    | true => grind
    | false => grind
  · rw [count_movedSources_of_ne (Ne.symm same), complete]
    simp [same]

theorem position_setLink (id : SegmentId) :
    ((g.setLink source destination side).segment id).position = (g.segment id).position := by
  rw [segment_setLink numbered mem newMem]
  simp only [apply_ite position, position_withLink, ite_self]

theorem content_setLink (id : SegmentId) :
    ((g.setLink source destination side).segment id).content = (g.segment id).content := by
  have kept (seg : Segment) sources :
      ({ seg with prev := sources } : Segment).content = seg.content := rfl
  rw [segment_setLink numbered mem newMem, kept]
  split
  · exact content_withLink _ _ _
  · rfl

end

structure Rewired (before : Graph) (links : SegmentId → Bool → Option SegmentId)
    (after : Graph) : Prop extends after.Tied where
  shape_eq : after = { before with segments := after.segments }
  size_eq : after.segments.size = before.segments.size
  position_eq : ∀ id, (after.segment id).position = (before.segment id).position
  content_eq : ∀ id, (after.segment id).content = (before.segment id).content
  link_eq : ∀ id side, (after.segment id).link side = links id side

namespace Rewired

variable {after : Graph}

theorem order_eq (rewired : g.Rewired links after) : after.order = g.order := by
  rw [rewired.shape_eq]

theorem placed (rewired : g.Rewired links after) (placed : g.Placed) : after.Placed := by
  intro id mem
  rw [rewired.order_eq] at mem ⊢
  rw [rewired.position_eq]
  exact placed id mem

theorem refl (tied : g.Tied) : g.Rewired (fun id side => (g.segment id).link side) g :=
  ⟨tied, rfl, rfl, fun _ => rfl, fun _ => rfl, fun _ _ => rfl⟩

theorem congr (rewired : g.Rewired links after)
    (same : ∀ id side, links id side = others id side) : g.Rewired others after :=
  { rewired with link_eq := fun id side => (rewired.link_eq id side).trans (same id side) }

theorem setLink (rewired : g.Rewired links after) (mem : source ∈ g.order)
    (newMem : ∀ new ∈ destination, new ∈ g.order) (side : Bool) :
    g.Rewired (fun id other => if source = id ∧ side = other then destination else links id other)
      (after.setLink source destination side) := by
  have here : source ∈ after.order := rewired.order_eq ▸ mem
  have there : ∀ new ∈ destination, new ∈ after.order := rewired.order_eq ▸ newMem
  refine ⟨tied_setLink rewired.numbered here there rewired.backlinked side, ?_, ?_, ?_, ?_, ?_⟩
  · rw [(setLink_shape after source destination side).1, rewired.shape_eq]
  · rw [size_segments_setLink, rewired.size_eq]
  · intro id
    rw [position_setLink rewired.numbered here there, rewired.position_eq]
  · intro id
    rw [content_setLink rewired.numbered here there, rewired.content_eq]
  · intro id other
    rw [link_setLink rewired.numbered here there, rewired.link_eq]

end Rewired

/-- A graph before and after segments were changed that keep their links. -/
structure Refilled (before : Graph) (fill : SegmentId → Segment → Segment) (after : Graph) :
    Prop extends after.Tied where
  shape_eq : after = { before with segments := after.segments }
  segment_eq : ∀ id, after.segment id = fill id (before.segment id)
  same : ∀ id, (before.segment id).SameLinks (after.segment id)

namespace Refilled

variable {after : Graph}

theorem order_eq (refilled : g.Refilled fill after) : after.order = g.order := by
  rw [refilled.shape_eq]

theorem refl (tied : g.Tied) : g.Refilled (fun _ seg => seg) g :=
  ⟨tied, rfl, fun _ => rfl, fun _ => ⟨rfl, rfl, rfl, rfl⟩⟩

theorem modify (refilled : g.Refilled fill after) {id} (mem : id ∈ g.order)
    (change : Segment → Segment) (same : ∀ seg : Segment, seg.SameLinks (change seg)) :
    g.Refilled (fun other seg => if id = other then change (fill other seg) else fill other seg)
      (after.modify id change) := by
  have inside := refilled.numbered.inside (refilled.order_eq ▸ mem)
  have seg other := segment_modify inside change other
  have keeps other : (after.segment other).SameLinks ((after.modify id change).segment other) := by
    rw [seg]
    split
    · exact same _
    · exact ⟨rfl, rfl, rfl, rfl⟩
  refine ⟨refilled.toTied.of_sameLinks rfl (size_segments_modify _ _) fun other _ => keeps other,
    ?_, ?_, ?_⟩
  · rw [Graph.modify, refilled.shape_eq]
  · intro other
    rw [seg, refilled.segment_eq]
  · intro other
    exact (refilled.same other).trans (keeps other)

end Refilled

/-- A graph that differs in places and loop depths only. -/
structure Alike (g other : Graph) : Prop extends other.Tied where
  shape_eq : other = { g with segments := other.segments }
  content_eq : ∀ id, (other.segment id).SameFields (g.segment id)
  link_eq : ∀ id side, (other.segment id).link side = (g.segment id).link side

theorem Alike.order_eq (alike : g.Alike other) : other.order = g.order := by
  rw [alike.shape_eq]

theorem Mapped.alike (pos loopDepth : Segment → Nat) (tied : g.Tied)
    (mapped : g.Mapped (fun seg => { seg with position := pos seg, loopDepth := loopDepth seg })
      other) : g.Alike other := by
  have same : ∀ seg : Segment, seg.SameLinks
      { seg with position := pos seg, loopDepth := loopDepth seg } :=
    fun _ => ⟨rfl, rfl, rfl, rfl⟩
  refine ⟨mapped.tied same tied, mapped.shape_eq, ?_, ?_⟩
  · intro id
    rw [mapped.segment_eq]
    split <;> rfl
  · intro id side
    rw [mapped.segment_eq]
    split
    · exact (same _).link_eq side
    · rfl

theorem alike_renumber (tied : g.Tied) : g.Alike g.renumber :=
  Mapped.alike (fun seg => g.order.idxOf seg.id) loopDepth tied
    (mapped_renumber tied.numbered)

section

variable (tied : g.Tied) (pos count : Nat)

include tied

theorem alike_insertSegments : (g.spliced pos count).Alike (g.insertSegments pos count) :=
  alike_renumber (tied.spliced pos count)

theorem sameFields_insertSegments (id : SegmentId) :
    ((g.insertSegments pos count).segment id).SameFields (g.segment id) := by
  rw [← g.segment_spliced pos count]
  exact (alike_insertSegments tied pos count).content_eq id

theorem link_insertSegments (id : SegmentId) (side : Bool) :
    ((g.insertSegments pos count).segment id).link side = (g.segment id).link side := by
  rw [(alike_insertSegments tied pos count).link_eq, segment_spliced]

end

end Graph
end Dynarec
