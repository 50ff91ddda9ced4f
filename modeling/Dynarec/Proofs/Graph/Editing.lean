import Dynarec.Proofs.Graph.Guarding
import Mathlib.Data.Multiset.Range

/-!
# Edits of a graph

A graph is made by adding segments and by setting, clearing and moving links.
Whatever the order of these edits, the sources listed at a segment are those of
the links that lead there, program order lists every segment once, and every
segment knows its place.
-/

namespace Dynarec.Graph

open List

variable {g : Graph}

/-- A change of the segments or links of a graph. -/
inductive Edit where
  /-- A new segment at the end of program order. -/
  | appendSegment
  /-- New segments at a place in program order. -/
  | insertSegments (position count : Nat)
  | setTaken (source : SegmentId) (dest : Option SegmentId)
  /-- The fall-through link of a segment set or cleared. -/
  | setNotTaken (source : SegmentId) (dest : Option SegmentId)
  | relinkInputs (old new : SegmentId)
deriving DecidableEq, Repr

def edit (g : Graph) : Edit → Graph
  | .appendSegment => g.appendSegment
  | .insertSegments position count => g.insertSegments position count
  | .setTaken source dest => g.setTaken source dest
  | .setNotTaken source dest => g.setNotTaken source dest
  | .relinkInputs old new => g.relinkInputs old new

/-- Whether an edit names only segments that exist and places of program order. -/
def Accepts (g : Graph) : Edit → Prop
  | .appendSegment => True
  | .insertSegments position _ => position ≤ g.order.length
  | .setTaken source dest | .setNotTaken source dest =>
      source < g.segments.size ∧ ∀ new ∈ dest, new < g.segments.size
  | .relinkInputs old new => old < g.segments.size ∧ new < g.segments.size

instance (g : Graph) : (edit : Edit) → Decidable (g.Accepts edit)
  | .appendSegment => inferInstanceAs (Decidable True)
  | .insertSegments position _ => inferInstanceAs (Decidable (position ≤ g.order.length))
  | .setTaken source destination | .setNotTaken source destination =>
      inferInstanceAs (Decidable
        (source < g.segments.size ∧ ∀ new ∈ destination, new < g.segments.size))
  | .relinkInputs old new =>
      inferInstanceAs (Decidable (old < g.segments.size ∧ new < g.segments.size))

/-- The graphs that edits make, beginning with one that has no segments. -/
inductive Drafted : Graph → Prop
  | empty (entry : Address) (size : UInt32) : Drafted { entry, size }
  | step {g : Graph} (drafted : Drafted g) (edit : Edit) (accepts : g.Accepts edit) :
      Drafted (g.edit edit)

/-- The segments whose link of one outcome leads to a segment. -/
def sources (g : Graph) (side : Bool) (id : SegmentId) : Multiset SegmentId :=
  (Multiset.range g.segments.size).filter fun source =>
    (g.segment source).link side = some id

/-- A graph whose links, sources, program order and places agree. -/
structure Booked (g : Graph) : Prop extends g.Tied where
  listed : ∀ {id}, id < g.segments.size → id ∈ g.order
  placed : ∀ {id}, id ∈ g.order → g.order[(g.segment id).position]? = some id

namespace Booked

theorem empty (entry : Address) (size : UInt32) : Booked { entry, size } := by
  have none {id} : id ∉ ({ entry, size } : Graph).order := not_mem_nil
  exact ⟨⟨⟨nodup_nil, fun mem => absurd mem none, fun mem => absurd mem none,
    fun mem => absurd mem none, fun mem => absurd mem none⟩, fun id mem => absurd mem none⟩,
    fun inside => absurd inside (Nat.not_lt_zero _), fun mem => absurd mem none⟩

variable (booked : g.Booked)

include booked

theorem appendSegment : g.appendSegment.Booked := by
  have placed := Placed.appendSegment fun _ => booked.placed
  refine ⟨tied_appendSegment booked.toTied, fun {id} inside => ?_, placed _⟩
  rw [size_segments_appendSegment] at inside
  rw [mem_order_appendSegment_iff]
  rcases Nat.lt_succ_iff_lt_or_eq.mp inside with old | new
  · exact .inl (booked.listed old)
  · exact .inr new

theorem insertSegments (pos count : Nat) : (g.insertSegments pos count).Booked := by
  refine ⟨(alike_insertSegments booked.toTied pos count).toTied, fun {id} inside => ?_,
    placed_insertSegments booked.numbered pos count _⟩
  rw [size_segments_insertSegments booked.numbered] at inside
  rw [mem_order_insertSegments_iff booked.numbered]
  by_cases old : id < g.segments.size
  · exact .inl (booked.listed old)
  · exact .inr ⟨Nat.not_lt.mp old, inside⟩

theorem of_rewired {after} (rewired : g.Rewired links after) : after.Booked := by
  refine ⟨rewired.toTied, fun inside => ?_, rewired.placed (fun _ => booked.placed) _⟩
  rw [rewired.order_eq]
  exact booked.listed (rewired.size_eq ▸ inside)

theorem setLink (inside : source < g.segments.size)
    (there : ∀ new ∈ destination, new < g.segments.size) (side : Bool) :
    (g.setLink source destination side).Booked :=
  booked.of_rewired ((Rewired.refl booked.toTied).setLink (booked.listed inside)
    (fun new linked => booked.listed (there new linked)) side)

theorem edit (edit : Edit) (accepts : g.Accepts edit) : (g.edit edit).Booked := by
  cases edit with
  | appendSegment => exact booked.appendSegment
  | insertSegments pos count => exact booked.insertSegments pos count
  | setTaken source dest => exact booked.setLink accepts.1 accepts.2 true
  | setNotTaken source dest => exact booked.setLink accepts.1 accepts.2 false
  | relinkInputs old new =>
    exact booked.of_rewired (rewired_relinkInputs booked.toTied
      (booked.listed accepts.1) (booked.listed accepts.2))

end Booked

theorem Drafted.booked (drafted : Drafted g) : g.Booked := by
  induction drafted with
  | empty entry size => exact .empty entry size
  | step _ edit accepts ih => exact ih.edit edit accepts

namespace Booked

variable (booked : g.Booked)

include booked

theorem mem_order_iff {id} : id ∈ g.order ↔ id < g.segments.size :=
  ⟨booked.numbered.inside, booked.listed⟩

theorem perm_order : g.order.Perm (List.range g.segments.size) := by
  refine (perm_ext_iff_of_nodup booked.numbered.nodup_order nodup_range).mpr fun id => ?_
  rw [booked.mem_order_iff, mem_range]

theorem prev_eq {id} (inside : id < g.segments.size) :
    ((g.segment id).prev : Multiset SegmentId) = g.sources true id + g.sources false id := by
  have mem := booked.listed inside
  ext source
  rw [Multiset.coe_count, Multiset.count_add, sources, sources, Multiset.count_filter,
    Multiset.count_filter]
  by_cases sourceInside : source < g.segments.size
  · have once : (Multiset.range g.segments.size).count source = 1 :=
      Multiset.count_eq_one_of_mem (Multiset.nodup_range _) (Multiset.mem_range.mpr sourceInside)
    rw [booked.backlinked id mem source (booked.listed sourceInside),
      Segment.count_successors, once]
  · have nowhere : (Multiset.range g.segments.size).count source = 0 :=
      Multiset.count_eq_zero.mpr fun listed => sourceInside (Multiset.mem_range.mp listed)
    have unlisted : (g.segment id).prev.count source = 0 := count_eq_zero.mpr fun listed =>
        sourceInside (booked.numbered.inside (booked.numbered.prev_mem mem listed))
    rw [unlisted, nowhere, ite_self, ite_self]

theorem link_relinkInputs (inside : old < g.segments.size)
    (newInside : new < g.segments.size) (id : SegmentId) (side : Bool) :
    ((g.relinkInputs old new).segment id).link side =
      if (g.segment id).link side = some old then some new else (g.segment id).link side := by
  have rewired := rewired_relinkInputs booked.toTied (booked.listed inside)
    (booked.listed newInside)
  rw [rewired.link_eq]
  by_cases known : id < g.segments.size
  · simp only [booked.listed known, true_and]
  · rw [segment_of_le (Nat.not_lt.mp known)]
    cases side <;> simp [Segment.link]

end Booked

/-- In a graph made by any sequence of edits the sources at a segment are exactly those of the
links that lead there, program order lists every segment once at the place that it knows, and
moving the links of one segment to another moves all of them and no other. -/
theorem edits_keep_books
    {graph : Graph}
    (drafted : Drafted graph) :
    (∀ id < graph.segments.size, ((graph.segment id).prev : Multiset SegmentId) =
      graph.sources true id + graph.sources false id) ∧
    graph.order.Perm (List.range graph.segments.size) ∧
    (∀ id < graph.segments.size, graph.order[(graph.segment id).position]? = some id) ∧
    ∀ old < graph.segments.size, ∀ new < graph.segments.size, old ≠ new →
      ((graph.relinkInputs old new).segment old).prev = [] ∧
      (∀ id side, ((graph.relinkInputs old new).segment id).link side ≠ some old) ∧
      ∀ id side, ((graph.relinkInputs old new).segment id).link side =
        if (graph.segment id).link side = some old then some new
        else (graph.segment id).link side := by
  have booked := drafted.booked
  refine ⟨fun id => booked.prev_eq, booked.perm_order,
    fun id inside => booked.placed (booked.listed inside), ?_⟩
  intro old inside new newInside different
  have links := booked.link_relinkInputs inside newInside
  have apart (id : SegmentId) (side : Bool) :
      ((graph.relinkInputs old new).segment id).link side ≠ some old := by
    rw [links]
    split
    · simpa using Ne.symm different
    · assumption
  refine ⟨?_, apart, links⟩
  have rewired := rewired_relinkInputs booked.toTied (booked.listed inside)
    (booked.listed newInside)
  have none (side : Bool) : (graph.relinkInputs old new).sources side old = 0 :=
    Multiset.filter_eq_nil.mpr fun source _ => apart source side
  have prev := (booked.of_rewired rewired).prev_eq (rewired.size_eq.symm ▸ inside)
  rw [none, none, Multiset.add_zero] at prev
  exact (Multiset.coe_eq_zero _).mp prev

/-- A segment that leads to itself on both sides, and another one that leads to it. -/
def selfLooped : Graph :=
  [.appendSegment, .insertSegments 0 1, .setTaken 0 (some 0), .setNotTaken 0 (some 0),
    .setTaken 1 (some 0)].foldl edit { entry := 0, size := 8 }

theorem drafted_selfLooped : Drafted selfLooped :=
  (Drafted.empty 0 8).step .appendSegment (by decide)
    |>.step (.insertSegments 0 1) (by decide)
    |>.step (.setTaken 0 (some 0)) (by decide)
    |>.step (.setNotTaken 0 (some 0)) (by decide)
    |>.step (.setTaken 1 (some 0)) (by decide)

/-- Both links of a segment to itself move with the link of the other one. -/
theorem selfLooped_keeps_books :
    Drafted selfLooped ∧
      ((selfLooped.segment 0).prev : Multiset SegmentId) = {0, 0, 1} ∧
      ((selfLooped.relinkInputs 0 1).segment 0).prev = [] ∧
      ((selfLooped.relinkInputs 0 1).segment 0).link true = some 1 ∧
      ((selfLooped.relinkInputs 0 1).segment 0).link false = some 1 ∧
      ((selfLooped.relinkInputs 0 1).segment 1).link true = some 1 := by
  obtain ⟨sources, -, -, relink⟩ := edits_keep_books drafted_selfLooped
  obtain ⟨none, -, links⟩ := relink 0 (by decide) 1 (by decide) (by decide)
  refine ⟨drafted_selfLooped, ?_, none, ?_, ?_, ?_⟩
  · rw [sources 0 (by decide)]
    decide
  · rw [links]
    decide
  · rw [links]
    decide
  · rw [links]
    decide

end Dynarec.Graph
