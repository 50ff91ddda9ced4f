import Dynarec.Proofs.Allocation.Moves
import Dynarec.Proofs.Allocation.Soundness

/-!
# Ranges as connected components

Two windows of a register are joined on an edge of the graph if one reaches the
exit of its segment and the other one starts at the entry of the next.  New
ranges are the connected components of the windows under these edges: every
window becomes one subrange, and subranges share a range if and only if a chain
of edges joins their windows.
-/

namespace Dynarec

open Allocation
open Relation (EqvGen)

variable {liveness : Liveness} {id : SubrangeId}

/-- A subrange keeps a register in a segment. -/
def Allocation.KeptBy (alloc : Allocation) (seg : SegmentId) (reg : Nat)
    (id : SubrangeId) (sub : Subrange) : Prop :=
  alloc.subrange? id = some sub ∧ sub.segment = seg ∧
    alloc.registerOf sub = Int.ofNat reg

namespace Liveness

/-- The windows of a register that an edge of the graph joins. -/
def Joins (liveness : Liveness) (reg : Nat) (id next : SegmentId) : Prop :=
  id ∈ liveness.graph.order ∧ next ∈ (liveness.graph.segment id).successors ∧
    (liveness.window id reg).stop = .atExit ∧
    (liveness.window next reg).start = .atEntry

/-- The windows of all registers that a segment accesses are defined. -/
def Covers (liveness : Liveness) : Prop :=
  ∀ id ∈ liveness.graph.order, ∀ register < liveness.graph.slots.length,
    (liveness.graph.segment id).locations (Int.ofNat register) ≠ [] →
    (liveness.window id register).isDefined

/-- The ranges of an allocation are the connected components of the windows. -/
structure Components (liveness : Liveness) (alloc : Allocation) : Prop where
  existsUnique : ∀ {seg reg}, seg ∈ liveness.graph.order → reg < liveness.graph.slots.length →
    (liveness.window seg reg).isDefined →
    ∃! id, ∃ sub, alloc.KeptBy seg reg id sub
  /-- A subrange has the bounds of the window of its register. -/
  window : ∀ {id sub}, alloc.subrange? id = some sub → ∃ reg < liveness.graph.slots.length,
      alloc.KeptBy sub.segment reg id sub ∧
      sub.segment ∈ liveness.graph.order ∧
      (liveness.window sub.segment reg).isDefined ∧
      liveness.window sub.segment reg = ⟨sub.start, sub.stop⟩
  range_eq_iff : ∀ {seg reg id sub target other otherId otherSub}, alloc.KeptBy seg reg id sub →
    alloc.KeptBy target other otherId otherSub →
    (otherSub.range = sub.range ↔ other = reg ∧ EqvGen (liveness.Joins reg) seg target)
  /-- A subrange continues behind a link exactly if the link joins two windows. -/
  link_iff : ∀ {seg reg id sub}, alloc.KeptBy seg reg id sub →
    ∀ side next, sub.link side = some next ↔
      ∃ target nextSubrange, (liveness.graph.segment seg).link side = some target ∧
        liveness.Joins reg seg target ∧
        alloc.KeptBy target reg next nextSubrange
  /-- The accesses of a subrange are those of its register in its segment, in order. -/
  locations : ∀ {seg reg id sub}, alloc.KeptBy seg reg id sub →
    sub.locations.Pairwise (·.index < ·.index) ∧ ∀ loc, loc ∈ sub.locations ↔
        ∃ (index : Nat) (instr : Instruction Register),
          (liveness.graph.segment seg).body[index]? = some instr ∧
          (Int.ofNat reg ∈ instr.reads ∨ Int.ofNat reg ∈ instr.writes) ∧
          loc = {
            index := index
            read := Int.ofNat reg ∈ instr.reads
            write := Int.ofNat reg ∈ instr.writes }
  /-- Every access lies in a subrange. -/
  accessed : ∀ {seg reg loc}, seg ∈ liveness.graph.order → reg < liveness.graph.slots.length →
    loc ∈ (liveness.graph.segment seg).locations (Int.ofNat reg) →
    ∃ id sub, alloc.KeptBy seg reg id sub ∧ loc ∈ sub.locations

theorem Connected.eqvGen_joins (tied : liveness.graph.Tied)
    (connected : liveness.Connected reg seg target) : EqvGen (liveness.Joins reg) seg target := by
  induction connected with
  | rel id other meets =>
    obtain ⟨mem, meets⟩ := meets
    rcases mem_neighbours_iff.mp meets with ⟨exit, follows, entry⟩ | ⟨entry, precedes, exit⟩
    · exact .rel _ _ ⟨mem, follows, exit, entry⟩
    · -- a window met backwards is joined from its source
      have source := tied.numbered.prev_mem mem precedes
      have follows := (tied.backlinked.mem_prev_iff mem source).mp precedes
      exact .symm _ _ (.rel _ _ ⟨source, follows, exit, entry⟩)
  | refl => exact .refl _
  | symm _ _ _ ih => exact .symm _ _ ih
  | trans _ _ _ _ _ first second => exact .trans _ _ _ first second

namespace Finished

variable (finished : Finished liveness forming)

include finished

/-- A subrange that keeps a register is the window of the register. -/
theorem window_of_keptBy (kept : forming.allocation.KeptBy seg reg id sub) :
    ∃ range, forming.allocation.range? sub.range = some range ∧
      range.register = Int.ofNat reg ∧ reg < liveness.graph.slots.length ∧
      seg ∈ liveness.graph.order ∧ (liveness.window seg reg).isDefined ∧
      liveness.window seg reg = ⟨sub.start, sub.stop⟩ ∧
      sub.locations = (liveness.graph.segment seg).locations (Int.ofNat reg) := by
  obtain ⟨found, rfl, register_eq⟩ := kept
  obtain ⟨range, number, live, same, listed, here, defined, start, stop, locs⟩ :=
    finished.formed.window found
  rw [registerOf, range_eq_of_some live] at register_eq
  cases Int.ofNat.inj (same.symm.trans register_eq)
  exact ⟨range, live, same, listed, here, defined, by rw [start, stop], same ▸ locs⟩

theorem member?_of_keptBy (kept : forming.allocation.KeptBy seg reg id sub) :
    forming.member? seg reg = some id := by
  obtain ⟨range, live, same, listed, here, -⟩ := finished.window_of_keptBy kept
  exact (finished.formed.member?_iff here listed).mpr ⟨sub, range, kept.1, kept.2.1, live, same⟩

theorem exists_keptBy (mem : seg ∈ liveness.graph.order)
    (listed : reg < liveness.graph.slots.length) (taken : forming.member? seg reg = some id) :
    ∃ sub, forming.allocation.KeptBy seg reg id sub := by
  obtain ⟨sub, range, found, here, live, same, -⟩ := finished.subrange?_of_member? mem listed taken
  refine ⟨sub, found, here, ?_⟩
  rw [registerOf, range_eq_of_some live, same]

variable (tied : liveness.graph.Tied)

include tied

variable (proper : liveness.Proper)
  (taken : ∀ {seg reg}, seg ∈ liveness.graph.order → reg < liveness.graph.slots.length →
    (liveness.window seg reg).isDefined → ∃ id, forming.member? seg reg = some id)

include taken

omit tied in
theorem existsUnique_keptBy (mem : seg ∈ liveness.graph.order)
    (listed : reg < liveness.graph.slots.length) (defined : (liveness.window seg reg).isDefined) :
    ∃! id, ∃ sub, forming.allocation.KeptBy seg reg id sub := by
  obtain ⟨id, became⟩ := taken mem listed defined
  refine ⟨id, finished.exists_keptBy mem listed became, ?_⟩
  rintro other ⟨otherSub, kept⟩
  exact Option.some.inj ((finished.member?_of_keptBy kept).symm.trans became)

include proper

theorem range_eq_of_eqvGen (listed : reg < liveness.graph.slots.length)
    (joined : EqvGen (liveness.Joins reg) seg target) :
    (forming.member? seg reg).map (fun id => (forming.allocation.subrange id).range) =
      (forming.member? target reg).map fun id => (forming.allocation.subrange id).range := by
  let rangeAt seg := (forming.member? seg reg).map fun id => (forming.allocation.subrange id).range
  -- equal ranges are an equivalence, so it is enough that one edge keeps the range
  refine (eq_equivalence.comap rangeAt).eqvGen_iff.mp (joined.mono ?_)
  intro seg next ⟨mem, follows, exit, entry⟩
  obtain ⟨id, became⟩ := taken mem listed (proper _ mem _ listed exit)
  obtain ⟨sub, range, found, rfl, live, same, -⟩ := finished.subrange?_of_member? mem listed became
  obtain ⟨other, otherSub, otherBecame, otherFound, shared⟩ :=
    finished.met found live same (mem_neighbours_iff.mpr (.inl ⟨exit, follows, entry⟩))
  change Option.map _ _ = Option.map _ _
  rw [became, otherBecame, Option.map_some, Option.map_some,
    subrange_eq_of_some found, subrange_eq_of_some otherFound,
    shared tied.backlinked]

theorem range_eq_iff (kept : forming.allocation.KeptBy seg reg id sub)
    (otherKept : forming.allocation.KeptBy target other otherId otherSub) :
    otherSub.range = sub.range ↔ other = reg ∧ EqvGen (liveness.Joins reg) seg target := by
  obtain ⟨range, live, same, listed, -⟩ := finished.window_of_keptBy kept
  constructor
  · intro shared
    have regs : Int.ofNat other = Int.ofNat reg := by
      rw [← otherKept.2.2, ← kept.2.2, registerOf, shared]
      rfl
    have connected := finished.connected kept.1 live same otherKept.1 shared
    rw [kept.2.1, otherKept.2.1] at connected
    exact ⟨Int.ofNat.inj regs, connected.eqvGen_joins tied⟩
  · rintro ⟨rfl, joined⟩
    have shared := finished.range_eq_of_eqvGen tied proper taken listed joined
    rw [finished.member?_of_keptBy kept, finished.member?_of_keptBy otherKept, Option.map_some,
      Option.map_some, subrange_eq_of_some kept.1,
      subrange_eq_of_some otherKept.1] at shared
    exact (Option.some.inj shared).symm

omit proper taken in
theorem link_iff_joins (kept : forming.allocation.KeptBy seg reg id sub) (side : Bool)
    (next : SubrangeId) :
    sub.link side = some next ↔
      ∃ target nextSub, (liveness.graph.segment seg).link side = some target ∧
        liveness.Joins reg seg target ∧ forming.allocation.KeptBy target reg next nextSub := by
  obtain ⟨range, live, same, listed, here, _, bounds, _⟩ := finished.window_of_keptBy kept
  have exit_iff : (liveness.window seg reg).stop = .atExit ↔ sub.stop = .atExit := by
    rw [bounds]
  rw [finished.link_iff kept.1 live same, kept.2.1]
  constructor
  · rintro ⟨exit, target, linked, entry, became⟩
    obtain ⟨nextSub, nextKept⟩ :=
      finished.exists_keptBy (tied.numbered.link_mem here linked) listed became
    exact ⟨target, nextSub, linked,
      ⟨here, Segment.mem_successors_of_link linked, exit_iff.mpr exit, entry⟩, nextKept⟩
  · rintro ⟨target, nextSub, linked, ⟨_, _, exit, entry⟩, nextKept⟩
    exact ⟨exit_iff.mp exit, target, linked, entry, finished.member?_of_keptBy nextKept⟩

theorem components (covers : liveness.Covers) : liveness.Components forming.allocation where
  existsUnique := finished.existsUnique_keptBy taken
  window {id sub} found := by
    obtain ⟨range, reg, live, same, listed, -⟩ := finished.formed.window found
    have kept : forming.allocation.KeptBy sub.segment reg id sub :=
      ⟨found, rfl, by rw [registerOf, range_eq_of_some live, same]⟩
    obtain ⟨_, _, _, _, here, defined, bounds, _⟩ := finished.window_of_keptBy kept
    exact ⟨reg, listed, kept, here, defined, bounds⟩
  range_eq_iff := finished.range_eq_iff tied proper taken
  link_iff := finished.link_iff_joins tied
  locations kept := by
    obtain ⟨_, _, _, _, _, _, _, locs⟩ := finished.window_of_keptBy kept
    rw [locs]
    refine ⟨Segment.pairwise_locations _ _, fun loc => ?_⟩
    simp only [Segment.mem_locations_iff, Instruction.mem_registers_iff]
  accessed {seg reg loc} mem listed accessed := by
    have defined := covers seg mem reg listed (List.ne_nil_of_mem accessed)
    obtain ⟨id, ⟨sub, kept⟩, -⟩ := finished.existsUnique_keptBy taken mem listed defined
    obtain ⟨_, _, _, _, _, _, _, locs⟩ := finished.window_of_keptBy kept
    exact ⟨id, sub, kept, locs ▸ accessed⟩

end Finished

/-- The ranges built from windows that cover all accesses are their connected components. -/
theorem ranges_are_components (tied : liveness.graph.Tied) (proper : liveness.Proper)
    (covers : liveness.Covers) (registers : Int) :
    liveness.Components (liveness.buildRanges (.empty liveness.graph registers)) := by
  obtain ⟨forming, equal, finished, taken⟩ :=
    finished_buildRanges tied.numbered proper registers
  rw [equal]
  exact finished.components tied proper taken covers

theorem summing_ranges_are_components :
    let liveness := (ofGraph summingLoop).mergeClose.extendOutOfLoops
    liveness.graph.Tied ∧ liveness.Proper ∧ liveness.Covers ∧
      liveness.Components (liveness.buildRanges (.empty liveness.graph 3)) := by
  intro liveness
  have tied : liveness.graph.Tied := ⟨by decide +kernel, by decide +kernel⟩
  have proper : liveness.Proper := by
    unfold Proper
    decide +kernel
  have covers : liveness.Covers := by
    unfold Covers
    decide +kernel
  exact ⟨tied, proper, covers, ranges_are_components tied proper covers 3⟩

end Liveness
end Dynarec
