import Dynarec.Proofs.Graph.Checks

/-!
# What the checks see of listed sources

A graph without errors lists for each segment as many sources as links lead to
it.  Which segments are listed is not looked at, so a list that is as long as it
should be may be wrong.
-/

namespace Dynarec.Graph

open List

variable {graph : Graph} {id : SegmentId}

/-- The segments that links lead from to a segment, once for each link. -/
def linkSources (g : Graph) (id : SegmentId) : List SegmentId :=
  g.inOrder.flatMap fun source => replicate (source.successors.count id) source.id

theorem length_linkSources (graph : Graph) (id : SegmentId) :
    (graph.linkSources id).length = graph.incoming id := by
  rw [linkSources, incoming, length_flatMap, count_flatMap]
  refine congrArg List.sum (map_congr_left fun source _ => ?_)
  rw [length_replicate, Function.comp_apply]

theorem perm_linkSources_iff {listed : List SegmentId}
    (counted : listed.length = (graph.linkSources id).length) :
    listed.Perm (graph.linkSources id) ↔
      ∀ source, listed.count source ≤ (graph.linkSources id).count source := by
  constructor
  · exact fun perm source => Nat.le_of_eq (perm.count_eq source)
  · intro made
    have subperm : listed.Subperm (graph.linkSources id) := subperm_iff_count.mpr made
    exact subperm.perm_of_length_le (Nat.le_of_eq counted.symm)

/-- A graph that differs from another in the sources that it lists, but lists as many. -/
structure Relisted (g other : Graph) : Prop where
  order_eq : other.order = g.order
  segment_eq : ∀ id, other.segment id = { g.segment id with prev := (other.segment id).prev }
  length_eq : ∀ id, (other.segment id).prev.length = (g.segment id).prev.length

namespace Relisted

variable (relisted : graph.Relisted other)

include relisted

theorem view_eq {α : Type} (view : Segment → α)
    (blind : ∀ seg prev, view { seg with prev } = view seg) (id : SegmentId) :
    view (other.segment id) = view (graph.segment id) := by
  rw [relisted.segment_eq, blind]

theorem comp_eq {α : Type} {view : Segment → α}
    (blind : ∀ seg prev, view { seg with prev } = view seg) :
    view ∘ other.segment = view ∘ graph.segment :=
  funext (relisted.view_eq view blind)

theorem incoming_eq (id : SegmentId) : other.incoming id = graph.incoming id := by
  rw [incoming, incoming, inOrder, inOrder, flatMap_map, flatMap_map, relisted.order_eq,
    funext (relisted.view_eq Segment.successors fun _ _ => rfl)]

theorem named_eq (name : Address) :
    (other.inOrder.filter fun seg => seg.isDestination && seg.jumpAddress = name).map (·.id) =
    (graph.inOrder.filter fun seg => seg.isDestination && seg.jumpAddress = name).map (·.id) := by
  rw [inOrder, inOrder, filter_map, filter_map, map_map, map_map, relisted.order_eq,
    relisted.comp_eq fun _ _ => rfl, relisted.comp_eq fun _ _ => rfl]

theorem malformed?_eq (id : SegmentId) :
    other.malformed? (other.segment id) = graph.malformed? (graph.segment id) := by
  have placed index code :
      misplaced? (other.segment id) index code = misplaced? (graph.segment id) index code := by
    refine relisted.view_eq (misplaced? · index code) (fun seg prev => ?_) id
    induction code generalizing index with
    | nil => rfl
    | cons first rest ih => rw [misplaced?, misplaced?, ih]; rfl
  have alone : (other.segment id).prev = [] ↔ (graph.segment id).prev = [] := by
    rw [← length_eq_zero_iff, relisted.length_eq, length_eq_zero_iff]
  have misled : other.misled? (other.segment id) = graph.misled? (graph.segment id) := by
    rw [← relisted.view_eq graph.misled? fun _ _ => rfl]
    simp only [misled?, relisted.named_eq]
  simp only [malformed?, placed, misled, relisted.view_eq (·.instructions) fun _ _ => rfl,
    relisted.view_eq (·.enterable) fun _ _ => rfl, relisted.view_eq (·.id) fun _ _ => rfl, ne_eq,
    alone, relisted.length_eq]

theorem misresumed?_eq (id : SegmentId) :
    other.misresumed? (other.segment id) = graph.misresumed? (graph.segment id) := by
  have entered addr : (other.inOrder.any fun seg => seg.enterable && seg.enterAddress = addr) =
      graph.inOrder.any fun seg => seg.enterable && seg.enterAddress = addr := by
    rw [inOrder, inOrder, any_map, any_map, relisted.order_eq, relisted.comp_eq fun _ _ => rfl]
  rw [← relisted.view_eq graph.misresumed? fun _ _ => rfl]
  simp only [misresumed?, entered, relisted.view_eq Segment.last? fun _ _ => rfl]

theorem error?_eq : other.error? = graph.error? := by
  have miscounted id :
      other.miscounted? (other.segment id) = graph.miscounted? (graph.segment id) := by
    simp only [miscounted?, relisted.view_eq (·.id) fun _ _ => rfl, relisted.incoming_eq,
      relisted.length_eq]
  simp only [error?, inOrder, findSome?_map, relisted.order_eq, Function.comp_def,
    relisted.malformed?_eq, miscounted, relisted.misresumed?_eq]

end Relisted

/-- A graph without errors lists as many sources of each segment as there are.  The list is that
of the sources if no segment is listed more often than it links, and no check tells whether it is:
graphs that list others, but as many, have no errors either. -/
theorem checked_sources_are_counted
    (valid : graph.error? = none) :
    (∀ seg ∈ graph.inOrder, seg.prev.length = (graph.linkSources seg.id).length ∧
      (seg.prev.Perm (graph.linkSources seg.id) ↔
        ∀ source, seg.prev.count source ≤ (graph.linkSources seg.id).count source)) ∧
    ∀ other, graph.Relisted other → other.error? = none := by
  refine ⟨fun seg mem => ?_, fun other relisted => relisted.error?_eq.trans valid⟩
  rw [error?, Option.or_eq_none_iff, Option.or_eq_none_iff] at valid
  have counted := findSome?_eq_none_iff.mp valid.2.1 seg mem
  rw [miscounted?] at counted
  split at counted
  next same =>
    rw [← length_linkSources] at same
    exact ⟨same.symm, perm_linkSources_iff same.symm⟩
  · cases counted

/-- Two segments, the first of which is followed by the second. -/
def twoInOrder (listed : List SegmentId) : Graph where
  entry := 0
  size := 0
  order := [0, 1]
  segments := #[{ id := 0, notTaken := some 1 }, { id := 1, prev := listed }]

theorem checked_sources_are_counted_twoInOrder :
    (twoInOrder [0]).error? = none ∧ ((twoInOrder [0]).segment 1).prev.length = 1 ∧
      (twoInOrder [1]).error? = none := by
  have valid : (twoInOrder [0]).error? = none := by decide
  obtain ⟨counted, blind⟩ := checked_sources_are_counted valid
  refine ⟨valid, (counted _ (mem_cons_of_mem _ (mem_cons_self ..))).1, blind _ ⟨rfl, ?_, ?_⟩⟩
  · rintro (_ | _ | _) <;> rfl
  · rintro (_ | _ | _) <;> rfl

/-- A segment that lists itself, and not the one in front of it, is no error. -/
theorem wrong_source_has_no_error :
    (twoInOrder [1]).error? = none ∧
      ¬ ((twoInOrder [1]).segment 1).prev.Perm ((twoInOrder [1]).linkSources 1) := by
  decide

end Dynarec.Graph
