import Dynarec.Graph.Basic
import Dynarec.Instruction.Usage

/-!
# Links of a graph

A segment has a link for each outcome of its end.  In a well-numbered graph
program order and the links name segments that exist; in a graph with complete
source lists every link is also listed at its destination, and nothing else is.
-/

namespace Dynarec

variable {id : SegmentId}

namespace Segment

/-- The segment behind a taken jump or behind a fall through. -/
def link (seg : Segment) : Bool → Option SegmentId
  | true => seg.taken
  | false => seg.notTaken

theorem mem_successors_iff {seg : Segment} :
    id ∈ seg.successors ↔ ∃ side, seg.link side = some id := by
  simp [successors, link, or_comm]

theorem mem_successors_of_link {seg : Segment} (linked : seg.link side = some id) :
    id ∈ seg.successors :=
  mem_successors_iff.mpr ⟨side, linked⟩

end Segment

namespace Graph

/-- Program order, links and source lists name segments that stand in program order. -/
structure Numbered (g : Graph) : Prop where
  nodup_order : g.order.Nodup
  inside : ∀ {id}, id ∈ g.order → id < g.segments.size
  segment_id : ∀ {id}, id ∈ g.order → (g.segment id).id = id
  link_mem : ∀ {id side next}, id ∈ g.order → (g.segment id).link side = some next → next ∈ g.order
  prev_mem : ∀ {id source}, id ∈ g.order → source ∈ (g.segment id).prev → source ∈ g.order

/-- The sources listed at a segment are exactly those of the links that lead there, each as
often as it does. -/
def Backlinked (g : Graph) : Prop :=
  ∀ id ∈ g.order, ∀ source ∈ g.order,
    (g.segment id).prev.count source = (g.segment source).successors.count id

/-- A numbered graph whose source lists are complete. -/
structure Tied (g : Graph) : Prop where
  numbered : g.Numbered
  backlinked : g.Backlinked

instance (g : Graph) : Decidable g.Numbered :=
  decidable_of_iff
    (g.order.Nodup ∧ ∀ id ∈ g.order, id < g.segments.size ∧
      (g.segment id).id = id ∧
      (∀ side, ∀ next ∈ (g.segment id).link side, next ∈ g.order) ∧
      ∀ source ∈ (g.segment id).prev, source ∈ g.order) <| by
    constructor
    · rintro ⟨nodup, each⟩
      exact ⟨nodup, fun member => (each _ member).1, fun member => (each _ member).2.1,
        fun member linked => (each _ member).2.2.1 _ _ linked,
        fun member listed => (each _ member).2.2.2 _ listed⟩
    · intro numbered
      exact ⟨numbered.nodup_order, fun id member => ⟨numbered.inside member,
        numbered.segment_id member, fun _ _ linked => numbered.link_mem member linked,
        fun _ listed => numbered.prev_mem member listed⟩⟩

instance (g : Graph) : Decidable g.Backlinked :=
  inferInstanceAs (Decidable (∀ id ∈ g.order, ∀ source ∈ g.order,
    (g.segment id).prev.count source = (g.segment source).successors.count id))

theorem Backlinked.mem_prev_iff {g : Graph} (backlinked : g.Backlinked)
    (member : id ∈ g.order) (sourceMem : source ∈ g.order) :
    source ∈ (g.segment id).prev ↔ id ∈ (g.segment source).successors := by
  rw [← List.count_pos_iff, ← List.count_pos_iff, backlinked id member source sourceMem]

/-- Every register operand of the graph lies in its table of slots. -/
def OperandsInTable (g : Graph) : Prop :=
  ∀ id ∈ g.order, ∀ instr ∈ (g.segment id).instructions,
    ∀ reg ∈ instr.operands, 0 ≤ reg ∧ reg < g.slots.length

instance (g : Graph) : Decidable g.OperandsInTable :=
  inferInstanceAs (Decidable (∀ id ∈ g.order,
    ∀ instr ∈ (g.segment id).instructions,
      ∀ reg ∈ instr.operands, 0 ≤ reg ∧ reg < g.slots.length))

end Graph
end Dynarec
