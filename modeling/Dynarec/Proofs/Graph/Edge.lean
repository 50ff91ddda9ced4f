import Dynarec.Proofs.Allocation.Coherence
import Dynarec.Proofs.Graph.Relink

/-!
# Edge segments

Splitting the edges into joins keeps the segments of a graph and what they
hold.  A fall through of the new graph leads where it led before, or to an empty
segment that leads there.
-/

namespace Dynarec

open List

variable {id : SegmentId}

namespace Graph

variable {orig g : Graph}

/-- An empty segment that does nothing but lead on. -/
structure IsEdge (g : Graph) (id next : SegmentId) : Prop where
  content_eq : (g.segment id).SameFields { id }
  taken_eq : (g.segment id).link true = none
  notTaken_eq : (g.segment id).link false = some next

/-- A graph with some fall throughs of another one led through edges of their own. -/
structure Subdivides (orig g : Graph) : Prop extends g.Tied where
  shape_eq : g = { orig with order := g.order, segments := g.segments }
  mem_order : ∀ {id}, id ∈ orig.order → id ∈ g.order
  content_eq : ∀ {id}, id ∈ orig.order → (g.segment id).SameFields (orig.segment id)
  taken_eq : ∀ {id}, id ∈ orig.order → (g.segment id).link true = (orig.segment id).link true
  notTaken_eq : ∀ {id}, id ∈ orig.order → (g.segment id).link false = (orig.segment id).link false ∨
      ∃ edge next, (orig.segment id).link false = some next ∧
        (g.segment id).link false = some edge ∧ edge ∉ orig.order ∧ g.IsEdge edge next
  edge : ∀ {id}, id ∈ g.order → id ∉ orig.order → ∃ source ∈ orig.order, ∃ next,
    (orig.segment source).link false = some next ∧
      (g.segment source).link false = some id ∧ g.IsEdge id next

/-- A graph before and after one fall through was led through a new edge. -/
structure EdgeAdded (before : Graph) (id next : SegmentId) (after : Graph) : Prop
    extends after.Tied where
  shape_eq : after = { before with order := after.order, segments := after.segments }
  placed : after.Placed
  order_eq : after.order = before.order.take ((before.segment id).position + 1) ++
    [before.nextId] ++ before.order.drop ((before.segment id).position + 1)
  mem_order_iff : ∀ {other}, other ∈ after.order ↔ other ∈ before.order ∨ other = before.nextId
  content_eq : ∀ other, (after.segment other).SameFields (before.segment other)
  link_eq : ∀ other side, (after.segment other).link side =
    if other = before.nextId ∧ side = false then some next
    else if other = id ∧ side = false then some before.nextId
    else (before.segment other).link side

theorem edgeAdded_insertSegments {next} (tied : g.Tied) (mem : id ∈ g.order)
    (linked : (g.segment id).link false = some next) :
    let place := (g.segment id).position + 1
    g.EdgeAdded id next
      (((g.insertSegments place 1).setLink id (some g.nextId) false).setLink g.nextId
        (some next) false) := by
  intro place
  have newest {other} : other ∈ (g.insertSegments place 1).order ↔
      other ∈ g.order ∨ other = g.nextId := by
    rw [mem_order_insertSegments_iff tied.numbered, nextId]
    lia
  have edgeListed : g.nextId ∈ (g.insertSegments place 1).order := newest.mpr (.inr rfl)
  have wired := ((Rewired.refl (alike_insertSegments tied place 1).toTied).setLink
    (newest.mpr (.inl mem)) (forall_mem_some edgeListed) false).setLink edgeListed
    (forall_mem_some (newest.mpr (.inl (tied.numbered.link_mem mem linked)))) false
  refine ⟨wired.toTied, ?_, wired.placed (placed_insertSegments tied.numbered place 1), ?_, ?_, ?_,
    ?_⟩
  · rw [wired.shape_eq, insertSegments_shape tied.numbered]
  · rw [wired.order_eq, order_insertSegments tied.numbered]
    rfl
  · intro other
    rw [wired.order_eq, newest]
  · intro other
    exact (wired.content_eq other).trans (sameFields_insertSegments tied place 1 other)
  · intro other side
    rw [wired.link_eq, link_insertSegments tied]
    simp only [eq_comm]

theorem splitJoinEdge_cases (tied : g.Tied) (mem : id ∈ g.order) :
    g.splitJoinEdge id = g ∨ ∃ next, (g.segment id).link false = some next ∧
      1 < (g.segment next).prev.length ∧ g.EdgeAdded id next (g.splitJoinEdge id) := by
  cases falls : g.fallsIntoJoin (g.segment id) with
  | false =>
    rw [splitJoinEdge, falls]
    exact .inl rfl
  | true =>
    obtain ⟨next, linked, joins⟩ : ∃ next, (g.segment id).notTaken = some next ∧
        1 < (g.segment next).prev.length := by
      rw [fallsIntoJoin] at falls
      split at falls
      next notTaken =>
        simp only [Bool.and_eq_true, decide_eq_true_eq] at falls
        exact ⟨_, notTaken, falls.1.2⟩
      · cases falls
    refine .inr ⟨next, linked, joins, ?_⟩
    rw [splitJoinEdge, falls, linked]
    exact edgeAdded_insertSegments tied mem linked

theorem EdgeAdded.subdivides {next after} (originalNumbered : orig.Numbered)
    (subdivides : orig.Subdivides g) (mem : id ∈ orig.order)
    (unsplit : (g.segment id).link false = (orig.segment id).link false)
    (linked : (g.segment id).link false = some next) (added : g.EdgeAdded id next after) :
    orig.Subdivides after := by
  have fresh {other} (listed : other ∈ g.order) : other ≠ g.nextId := by
    rintro rfl
    exact absurd (subdivides.numbered.inside listed) (Nat.lt_irrefl _)
  have keeps {edge next} (unlisted : edge ∉ orig.order)
      (listed : edge ∈ g.order) (isEdge : g.IsEdge edge next) :
      after.IsEdge edge next := by
    have ne : edge ≠ id := fun equal => unlisted (equal ▸ mem)
    refine ⟨(added.content_eq edge).trans isEdge.content_eq, ?_, ?_⟩
    · rw [added.link_eq, if_neg (by simp), if_neg (by simp)]
      exact isEdge.taken_eq
    · rw [added.link_eq, if_neg (by simp [fresh listed]), if_neg (by simp [ne])]
      exact isEdge.notTaken_eq
  have newest : after.IsEdge g.nextId next := by
    refine ⟨?_, ?_, ?_⟩
    · have same := added.content_eq g.nextId
      rwa [segment_nextId] at same
    · rw [added.link_eq, if_neg (by simp), if_neg (by simp), segment_nextId]
      rfl
    · rw [added.link_eq, if_pos ⟨rfl, rfl⟩]
  refine ⟨added.toTied, ?_, ?_, ?_, ?_, ?_, ?_⟩
  · rw [added.shape_eq, subdivides.shape_eq]
  · intro other listed
    exact added.mem_order_iff.mpr (.inl (subdivides.mem_order listed))
  · intro other listed
    exact (added.content_eq other).trans (subdivides.content_eq listed)
  · intro other listed
    rw [added.link_eq, if_neg (by simp), if_neg (by simp), subdivides.taken_eq listed]
  · intro other listed
    have old := fresh (subdivides.mem_order listed)
    by_cases same : other = id
    · subst same
      refine .inr ⟨g.nextId, next, unsplit ▸ linked, ?_, ?_, newest⟩
      · rw [added.link_eq, if_neg (by simp [old]), if_pos ⟨rfl, rfl⟩]
      · exact fun listed => fresh (subdivides.mem_order listed) rfl
    · rw [added.link_eq, if_neg (by simp [old]), if_neg (by simp [same])]
      cases subdivides.notTaken_eq listed with
      | inl kept => exact .inl kept
      | inr split =>
        obtain ⟨edge, target, originally, now, unlisted, isEdge⟩ := split
        have edgeListed := subdivides.numbered.link_mem (subdivides.mem_order listed) now
        exact .inr ⟨edge, target, originally, now, unlisted, keeps unlisted edgeListed isEdge⟩
  · intro other listed unlisted
    cases added.mem_order_iff.mp listed with
    | inl old =>
      obtain ⟨source, sourceListed, target, led, leads, isEdge⟩ := subdivides.edge old unlisted
      have ne : source ≠ id := by
        rintro rfl
        rw [unsplit] at leads
        exact unlisted (originalNumbered.link_mem mem leads)
      refine ⟨source, sourceListed, target, led, ?_, keeps unlisted old isEdge⟩
      rw [added.link_eq, if_neg (by simp [fresh (subdivides.mem_order sourceListed)]),
        if_neg (by simp [ne])]
      exact leads
    | inr new =>
      subst new
      refine ⟨id, mem, next, unsplit ▸ linked, ?_, newest⟩
      rw [added.link_eq, if_neg (by simp [fresh (subdivides.mem_order mem)]), if_pos ⟨rfl, rfl⟩]

theorem Subdivides.refl (tied : g.Tied) : g.Subdivides g where
  toTied := tied
  shape_eq := rfl
  mem_order member := member
  content_eq _ := rfl
  taken_eq _ := rfl
  notTaken_eq _ := .inl rfl
  edge member unlisted := absurd member unlisted

/-- What every new edge keeps holds after the edges were split one after the other. -/
theorem Subdivides.foldl_splitJoinEdge_induction {motive : Graph → Prop}
    (originalNumbered : orig.Numbered)
    (step : ∀ {before id next after}, orig.Subdivides before → id ∈ orig.order →
      (before.segment id).link false = (orig.segment id).link false →
      (before.segment id).link false = some next → 1 < (before.segment next).prev.length →
      before.EdgeAdded id next after → motive before → motive after)
    (subdivides : orig.Subdivides g) (initial : motive g) {ids : List SegmentId}
    (nodup : ids.Nodup) (members : ∀ id ∈ ids, id ∈ orig.order)
    (unsplit : ∀ id ∈ ids, (g.segment id).link false = (orig.segment id).link false) :
    orig.Subdivides (ids.foldl splitJoinEdge g) ∧ motive (ids.foldl splitJoinEdge g) := by
  induction ids generalizing g with
  | nil => exact ⟨subdivides, initial⟩
  | cons first rest ih =>
    obtain ⟨fresh, nodup⟩ := nodup_cons.mp nodup
    obtain ⟨mem, members⟩ := forall_mem_cons.mp members
    obtain ⟨firstUnsplit, unsplit⟩ := forall_mem_cons.mp unsplit
    have firstListed := subdivides.mem_order mem
    rw [foldl_cons]
    cases splitJoinEdge_cases subdivides.toTied firstListed with
    | inl unchanged =>
      rw [unchanged]
      exact ih subdivides initial nodup members unsplit
    | inr split =>
      obtain ⟨next, linked, joins, added⟩ := split
      refine ih (added.subdivides originalNumbered subdivides mem firstUnsplit linked)
        (step subdivides mem firstUnsplit linked joins added initial) nodup members ?_
      intro other listed
      have old : other ≠ g.nextId := fun equal =>
        absurd (subdivides.numbered.inside (subdivides.mem_order (members other listed)))
          (by simp [equal, nextId])
      have ne : other ≠ first := fun equal => fresh (equal ▸ listed)
      rw [added.link_eq, if_neg (by simp [old]), if_neg (by simp [ne])]
      exact unsplit other listed

/-- The graph in which loops are looked for: all segments are told their places. -/
def placed (g : Graph) : Graph :=
  g.renumber.mapOrdered ({ · with loopDepth := 0 })

theorem mapped_placed (numbered : g.Numbered) :
    g.Mapped (fun seg => { seg with position := g.order.idxOf seg.id, loopDepth := 0 })
      g.placed := by
  have renumbered := mapped_renumber numbered
  exact renumbered.trans (mapped_mapOrdered
    (renumbered.numbered (fun _ => ⟨rfl, rfl, rfl, rfl⟩) numbered) ({ · with loopDepth := 0 }))

theorem placed_numbered (numbered : g.Numbered) : g.placed.Numbered :=
  (mapped_placed numbered).numbered (fun _ => ⟨rfl, rfl, rfl, rfl⟩) numbered

theorem mapped_detectLoops (numbered : g.Numbered) :
    g.Mapped (fun seg => { seg with
        position := g.order.idxOf seg.id
        loopDepth := (g.placed.order.flatMap g.placed.closedLoop).count seg.id })
      g.detectLoops :=
  (mapped_placed numbered).trans (mapped_mapOrdered (placed_numbered numbered) fun seg =>
    { seg with loopDepth := (g.placed.order.flatMap g.placed.closedLoop).count seg.id })

theorem alike_detectLoops (tied : g.Tied) : g.Alike g.detectLoops :=
  Mapped.alike _ _ tied (mapped_detectLoops tied.numbered)

theorem Alike.subdivides {after} (alike : g.Alike after)
    (subdivides : orig.Subdivides g) : orig.Subdivides after := by
  have isEdge {id next} (isEdge : g.IsEdge id next) : after.IsEdge id next :=
    ⟨(alike.content_eq id).trans isEdge.content_eq, (alike.link_eq id true).trans isEdge.taken_eq,
      (alike.link_eq id false).trans isEdge.notTaken_eq⟩
  refine ⟨alike.toTied, ?_, fun mem => alike.order_eq ▸ subdivides.mem_order mem,
    fun {id} mem => (alike.content_eq id).trans (subdivides.content_eq mem),
    fun {id} mem => (alike.link_eq id true).trans (subdivides.taken_eq mem), ?_, ?_⟩
  · rw [alike.shape_eq, subdivides.shape_eq]
  · intro id mem
    rw [alike.link_eq]
    refine (subdivides.notTaken_eq mem).imp_right ?_
    rintro ⟨edge, next, originally, now, unlisted, edgeIs⟩
    exact ⟨edge, next, originally, now, unlisted, isEdge edgeIs⟩
  · intro id mem unlisted
    rw [alike.order_eq] at mem
    obtain ⟨source, sourceMem, next, led, leads, edgeIs⟩ := subdivides.edge mem unlisted
    exact ⟨source, sourceMem, next, led, (alike.link_eq source false).trans leads, isEdge edgeIs⟩

theorem subdivides_splitJoinEdges (tied : g.Tied) : g.Subdivides g.splitJoinEdges := by
  obtain ⟨subdivides, -⟩ := (Subdivides.refl tied).foldl_splitJoinEdge_induction
    (motive := fun _ => True) tied.numbered (fun _ _ _ _ _ _ _ => trivial) trivial
    tied.numbered.nodup_order (fun _ mem => mem) fun _ _ => rfl
  exact (alike_detectLoops subdivides.toTied).subdivides subdivides

namespace Subdivides

section

variable (subdivides : orig.Subdivides g)

include subdivides

/-- Every link leads where it led before, to an edge, or from an edge to where its source led. -/
theorem link_cases {next} (mem : source ∈ g.order)
    (linked : (g.segment source).link side = some next) :
    source ∈ orig.order ∧ (orig.segment source).link side = some next ∨ next ∉ orig.order ∨
      source ∉ orig.order ∧ ∃ origin ∈ orig.order, (orig.segment origin).link false = some next ∧
          (g.segment origin).link false = some source := by
  by_cases listed : source ∈ orig.order
  · cases side with
    | true => exact .inl ⟨listed, (subdivides.taken_eq listed).symm.trans linked⟩
    | false =>
      rcases subdivides.notTaken_eq listed with same | ⟨edge, target, -, now, unlisted, -⟩
      · exact .inl ⟨listed, same.symm.trans linked⟩
      · rw [now, Option.some.injEq] at linked
        exact .inr (.inl (linked ▸ unlisted))
  · obtain ⟨origin, originMem, target, led, leads, isEdge⟩ := subdivides.edge mem listed
    cases side with
    | true => exact absurd (isEdge.taken_eq.symm.trans linked) (by simp)
    | false =>
      rw [isEdge.notTaken_eq, Option.some.injEq] at linked
      exact .inr (.inr ⟨listed, origin, originMem, linked ▸ led, leads⟩)

theorem code_eq (mem : id ∈ orig.order) :
    (g.segment id).instructions = (orig.segment id).instructions := by
  exact (subdivides.content_eq mem).code_eq

theorem instructions_edge (mem : id ∈ g.order) (unlisted : id ∉ orig.order) :
    (g.segment id).instructions = [] := by
  obtain ⟨_, _, _, -, -, isEdge⟩ := subdivides.edge mem unlisted
  exact isEdge.content_eq.code_eq

theorem instructions_cases (mem : id ∈ g.order) :
    id ∈ orig.order ∧ (g.segment id).instructions = (orig.segment id).instructions ∨
      (g.segment id).instructions = [] := by
  by_cases listed : id ∈ orig.order
  · exact .inl ⟨listed, subdivides.code_eq listed⟩
  · exact .inr (subdivides.instructions_edge mem listed)

theorem forall_code {motive : Code → Prop} (none : motive [])
    (all : ∀ id ∈ orig.order, motive (orig.segment id).instructions) :
    ∀ id ∈ g.order, motive (g.segment id).instructions := by
  intro id mem
  rcases subdivides.instructions_cases mem with ⟨old, same⟩ | empty
  · exact same ▸ all id old
  · exact empty ▸ none

theorem short (short : orig.IsShort) : g.IsShort :=
  subdivides.forall_code (motive := fun code => (code.length : Int) < Position.atExit) (by decide)
    short

end

end Subdivides

end Graph
end Dynarec
