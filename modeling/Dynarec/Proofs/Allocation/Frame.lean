import Dynarec.Proofs.Allocation.Change
import Dynarec.Proofs.Graph.Store

/-!
# What an allocation leaves as it is

Ranges are formed, split and replaced beside the graph.  Only the last phase
touches the graph, and there it changes the code of segments and nothing else.
-/

namespace Dynarec

open Allocation Segment

/-- A segment without its code and its points. -/
def Segment.frame (seg : Segment) : Segment :=
  { seg with instructions := [], points := [] }

namespace Graph

/-- Two graphs that differ in the code and the points of their segments only. -/
structure Recoded (before after : Graph) : Prop where
  shape_eq : after = { before with segments := after.segments }
  size_eq : after.segments.size = before.segments.size
  frame_eq : ∀ id, (after.segment id).frame = (before.segment id).frame

namespace Recoded

theorem refl (g : Graph) : g.Recoded g := ⟨rfl, rfl, fun _ => rfl⟩

theorem trans {first second third : Graph} (recoded : first.Recoded second)
    (further : second.Recoded third) : first.Recoded third :=
  ⟨by rw [further.shape_eq, recoded.shape_eq], further.size_eq.trans recoded.size_eq,
    fun id => (further.frame_eq id).trans (recoded.frame_eq id)⟩

theorem modify (g : Graph) (id : SegmentId) (frame_eq : ∀ seg, (change seg).frame = seg.frame) :
    g.Recoded (g.modify id change) := by
  refine ⟨rfl, size_segments_modify id change, fun other => ?_⟩
  by_cases inside : id < g.segments.size
  · rw [segment_modify inside]
    split
    · exact frame_eq _
    · rfl
  · have unchanged : g.segments.modify id change = g.segments := by
      rw [Array.modify, Array.modifyM, dif_neg inside]
      rfl
    rw [Graph.modify, unchanged]

theorem mapOrdered (g : Graph) (frame_eq : ∀ seg, (change seg).frame = seg.frame) :
    g.Recoded (g.mapOrdered change) := by
  refine List.foldlRecOn (motive := fun after => g.Recoded after) _ _ (refl g) ?_
  exact fun after recoded id _ => recoded.trans (modify after id frame_eq)

variable {before : Graph} (recoded : before.Recoded after) (id : SegmentId)

include recoded

theorem order_eq : after.order = before.order := by
  rw [recoded.shape_eq]

theorem view_eq {α : Type} (view : Segment → α) (view_frame : ∀ seg, view seg.frame = view seg) :
    view (after.segment id) = view (before.segment id) := by
  rw [← view_frame, recoded.frame_eq, view_frame]

theorem link_eq (side : Bool) : (after.segment id).link side = (before.segment id).link side :=
  recoded.view_eq id (·.link side) fun _ => rfl

theorem sameLinks : (before.segment id).SameLinks (after.segment id) :=
  ⟨recoded.view_eq id Segment.id (fun _ => rfl), recoded.view_eq id Segment.taken (fun _ => rfl),
    recoded.view_eq id notTaken (fun _ => rfl),
    recoded.view_eq id prev (fun _ => rfl)⟩

theorem tied (tied : before.Tied) : after.Tied :=
  tied.of_sameLinks recoded.order_eq recoded.size_eq fun id _ => recoded.sameLinks id

theorem isDestination_eq : (after.segment id).isDestination = (before.segment id).isDestination :=
  recoded.view_eq id isDestination fun _ => rfl

theorem jumpAddress_eq : (after.segment id).jumpAddress = (before.segment id).jumpAddress :=
  recoded.view_eq id jumpAddress fun _ => rfl

theorem enterable_eq : (after.segment id).enterable = (before.segment id).enterable :=
  recoded.view_eq id enterable fun _ => rfl

theorem enterAddress_eq : (after.segment id).enterAddress = (before.segment id).enterAddress :=
  recoded.view_eq id enterAddress fun _ => rfl

end Recoded

theorem instructions_mapOrdered (g : Graph) (change : Segment → Segment)
    (keeps : ∀ seg, (change seg).instructions = seg.instructions) (id : SegmentId) :
    ((g.mapOrdered change).segment id).instructions = (g.segment id).instructions := by
  refine List.foldlRecOn (motive := fun (after : Graph) =>
    (after.segment id).instructions = (g.segment id).instructions) _ _ rfl ?_
  intro after same other _
  by_cases inside : other < after.segments.size
  · rw [segment_modify inside]
    split
    · exact (keeps _).trans same
    · exact same
  · rw [modify_of_le (Nat.not_lt.mp inside)]
    exact same

end Graph

namespace Allocation

variable {alloc : Allocation}

theorem recoded_materializeSegment {id}
    (done : alloc.materializeSegment id = .ok result) : alloc.graph.Recoded result.graph := by
  obtain ⟨entered, enter, done⟩ := of_bind_eq_ok done
  obtain ⟨⟨code, walked⟩, walk, done⟩ := of_bind_eq_ok done
  obtain ⟨left, leave, done⟩ := of_bind_eq_ok done
  cases done
  rw [graph_tally, ← Array.foldl_toList, foldl_eq_of_step graph (fun alloc (subrange : Subrange) =>
    alloc.modifySubrange subrange.id fun _ => subrange) (fun _ _ => rfl)]
  exact .modify _ id fun _ => rfl

theorem recoded_materialize (done : alloc.materialize = .ok result) :
    alloc.graph.Recoded result.graph := by
  unfold materialize at done
  generalize alloc.graph.order = order at done
  induction order generalizing alloc with
  | nil =>
    cases done
    exact .refl _
  | cons id rest ih =>
    obtain ⟨middle, first, done⟩ := of_bind_eq_ok done
    exact (recoded_materializeSegment first).trans (ih done)

theorem of_within_eq_ok {α : Type} {outcome : Except Error α} {value}
    (done : within context outcome = .ok value) : outcome = .ok value := by
  cases outcome with
  | error _ => cases done
  | ok _ =>
    cases done
    rfl

theorem registers_of_precheck (accepted : precheck g config = .ok ()) :
    1 ≤ config.registers ∧ config.registers ≤ 32 := by
  rw [precheck] at accepted
  split at accepted
  · cases accepted
  next inside =>
    lia

theorem of_ofConfig_eq_ok {g} (done : ofConfig g config = .ok result) :
    (1 ≤ config.registers ∧ config.registers ≤ 32) ∧ ∃ limit assigned,
      (ofGraph g.splitJoinEdges config.registers).assignRegisters limit = .ok assigned ∧
        assigned.analyzeSync.materialize = .ok result := by
  obtain ⟨_, accepted, done⟩ := of_bind_eq_ok done
  obtain ⟨assigned, assigning, done⟩ := of_bind_eq_ok done
  refine ⟨registers_of_precheck accepted, _, assigned, of_within_eq_ok assigning, ?_⟩
  split at done
  · obtain ⟨_, -, done⟩ := of_bind_eq_ok done
    exact of_within_eq_ok done
  · exact of_within_eq_ok done

end Allocation

namespace Graph

variable {g : Graph} {stats : AllocationStats} (allocated : g.allocate config = .ok (after, stats))

include allocated

/-- The graph in host registers that is made has the code of the last phase, with points let go. -/
theorem exists_of_allocate :
    (1 ≤ config.registers ∧ config.registers ≤ 32) ∧ ∃ limit assigned result,
      (ofGraph g.splitJoinEdges config.registers).assignRegisters limit = .ok assigned ∧
      assigned.analyzeSync.materialize = .ok result ∧ result.stats = stats ∧
      result.graph.Recoded after ∧
      ∀ id, (after.segment id).instructions = (result.graph.segment id).instructions := by
  obtain ⟨result, configured, done⟩ := of_bind_eq_ok allocated
  cases done
  obtain ⟨bounds, limit, assigned, assigning, materialized⟩ := of_ofConfig_eq_ok configured
  exact ⟨bounds, limit, assigned, result, assigning, materialized, rfl, .mapOrdered _ fun _ => rfl,
    instructions_mapOrdered _ detachPoints fun _ => rfl⟩

theorem recoded_allocate : g.splitJoinEdges.Recoded after := by
  obtain ⟨-, _, _, _, assigning, materialized, -, released, -⟩ := exists_of_allocate allocated
  have recoded := recoded_materialize materialized
  rw [graph_analyzeSync_assigned assigning] at recoded
  exact recoded.trans released

end Graph
end Dynarec
