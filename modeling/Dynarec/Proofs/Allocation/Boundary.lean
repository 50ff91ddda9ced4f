import Dynarec.Proofs.Allocation.Window
import Dynarec.Proofs.Graph.Exits

/-!
# Windows at the boundaries of segments

A register that is kept from the entry of a segment on comes from all sources
of the segment, and one that is kept up to the exit is kept on behind it.  So
nothing is kept into a segment that control enters from outside, nor out of one
that has no links.
-/

namespace Dynarec

variable {id : SegmentId}

/-- A window covers the accesses that it fits. -/
theorem Liveness.Framed.covers (framed : Framed g liveness) (short : g.IsShort) (mem : id ∈ g.order)
    (listed : reg < g.slots.length) {index : Nat} (found : (g.segment id).body[index]? = some instr)
    (touched : Int.ofNat reg ∈ instr.reads ∨ Int.ofNat reg ∈ instr.writes) :
    (liveness.window id reg).start ≤ index ∧ index < (liveness.window id reg).stop := by
  have accessed := (g.segment id).mem_locations_iff.mpr
    ⟨index, instr, found, (instr.mem_registers_iff _).mpr touched, rfl⟩
  cases framed.frames mem listed with
  | absent _ unused => exact absurd (unused ▸ accessed) List.not_mem_nil
  | present _ fits =>
    generalize liveness.window id reg = window at fits ⊢
    have ordered : Subrange.Ordered {
        id := 0, range := 0, segment := id, start := window.start, stop := window.stop
        locations := (g.segment id).locations (Int.ofNat reg) } :=
      ⟨fits, Segment.pairwise_locations _ _, fun _ => short.index_bounds mem⟩
    exact ordered.covered accessed

namespace Graph

open Liveness

theorem Subdivides.isUnreached_of_enterable {orig : Graph} (subdivides : orig.Subdivides g)
    (checked : orig.Checked) (mem : id ∈ g.order)
    (enterable : (g.segment id).enterable) : g.IsUnreached id := by
  by_cases old : id ∈ orig.order
  · rw [(subdivides.content_eq old).enterable_eq] at enterable
    exact subdivides.isUnreached old (checked.entered old enterable)
  · obtain ⟨_, _, _, -, -, edge⟩ := subdivides.edge mem old
    rw [edge.content_eq.enterable_eq] at enterable
    cases enterable

/-- Windows of a function agree with its links.  After close windows were joined and values were
kept into the segments outside of loops, a window covers all accesses before the end of its
segment, it starts at the entry only if all sources keep the register, of which there are some, and
it stops at the exit only if a linked segment keeps the register. -/
theorem windows_follow_links
    {graph : Graph}
    {stream : Stream}
    {options : BuildOptions}
    (built : build stream options = .ok graph)
    (short : graph.splitJoinEdges.IsShort) :
    let prepared := graph.splitJoinEdges
    let liveness := (ofGraph prepared).mergeClose.extendOutOfLoops
    ∀ id ∈ prepared.order, ∀ register < prepared.slots.length,
      let segment := prepared.segment id
      let window := liveness.window id register
      (∀ (index : Nat) instruction, segment.body[index]? = some instruction →
        Int.ofNat register ∈ instruction.reads ∨ Int.ofNat register ∈ instruction.writes →
        window.start ≤ index ∧ index < window.stop) ∧
      (window.start = .atEntry → segment.prev ≠ [] ∧
        ∀ source ∈ segment.prev, (liveness.window source register).stop = .atExit) ∧
      (window.stop = .atExit →
        ∃ next ∈ segment.successors, (liveness.window next register).start = .atEntry) ∧
      (segment.enterable = true → window.start ≠ .atEntry) ∧
      (segment.successors = [] → window.stop ≠ .atExit) := by
  intro prepared liveness id mem register listed segment window
  have subdivides := subdivides_splitJoinEdges (tied_of_build built)
  have numbered := subdivides.numbered
  have backlinked := subdivides.backlinked
  have framed : Framed prepared liveness :=
    ((framed_ofGraph numbered short).mergeClose numbered).extendOutOfLoops numbered
  have met (exit : window.stop = .atExit) :=
    (framed.exit_met backlinked mem listed exit).resolve_left not_false
  have sources (entry : window.start = .atEntry) : segment.prev ≠ [] := by
    obtain ⟨source, sourceMember, follows⟩ := framed.entry_linked mem listed entry
    exact List.ne_nil_of_mem ((backlinked.mem_prev_iff mem sourceMember).mpr follows)
  refine ⟨fun index instr found touched => ?_, fun entry => ⟨sources entry, fun source =>
    framed.source_exit mem listed entry⟩, met, fun enterable entry => ?_, fun none exit => ?_⟩
  · exact framed.covers short mem listed found touched
  · obtain ⟨-, -, -, valid⟩ := of_build_eq_ok built
    have checked := (error?_eq_none_iff (tied_of_build built)).mp valid
    exact sources entry ((subdivides.isUnreached_of_enterable checked mem enterable).prev_eq_nil
      subdivides.toTied mem)
  · obtain ⟨next, follows, -⟩ := met exit
    rw [none] at follows
    cases follows

/-- A loop that counts a register up, and a copy of the register behind the loop. -/
def climbing : Stream :=
  { entry := 0x02000000
    size := 12
    instructions := [
      .jumpmark 0x02000000,
      .pairImmediate .add (some 0) (some 0) 1 {},
      .jumpIf 0x02000000 { field := 0, bit := 2, isSet := true },
      .pair .assign (some 1) (some 0) {}]
    ranges := []
    slots := [.gpr 3, .gpr 4]
    entries := [0x02000000] }

/-- The counter comes into the loop from the loop itself and from the entry of the function. -/
theorem climbing_windows_follow_links :
    ∃ graph, build climbing {} = .ok graph ∧ graph.splitJoinEdges.IsShort ∧
      let liveness := (ofGraph graph.splitJoinEdges).mergeClose.extendOutOfLoops
      (liveness.window 0 0).start = .atEntry ∧ (graph.splitJoinEdges.segment 0).prev = [0, 2] ∧
      (liveness.window 0 0).stop = .atExit ∧ (liveness.window 2 0).stop = .atExit := by
  have evaluated : ((build climbing {}).toOption.any fun graph =>
      decide (graph.splitJoinEdges.IsShort ∧ 0 ∈ graph.splitJoinEdges.order ∧
        0 < graph.splitJoinEdges.slots.length ∧
        ((ofGraph graph.splitJoinEdges).mergeClose.extendOutOfLoops.window 0 0).start =
          .atEntry ∧
        (graph.splitJoinEdges.segment 0).prev = [0, 2])) = true := by
    decide +kernel
  obtain ⟨graph, built, evaluated⟩ := of_any_toOption evaluated
  obtain ⟨short, mem, listed, entry, sources⟩ := of_decide_eq_true evaluated
  obtain ⟨-, linked, -⟩ := windows_follow_links built short 0 mem 0 listed
  have exits := (linked entry).2
  rw [sources] at exits
  exact ⟨graph, built, short, entry, sources, exits 0 (.head _), exits 2 (.tail _ (.head _))⟩

end Graph
end Dynarec
