import Dynarec.Proofs.Allocation.Moves
import Dynarec.Proofs.Allocation.Pass

/-!
# Accesses and subranges

Every access of a register lies in a subrange that keeps the register.  It does
when the ranges are formed, since every window with an access is taken up, and
no step of an assignment loses an access: a split divides the accesses between
its two parts, and local ranges take over those of the range that they replace.
-/

namespace Dynarec.Allocation

open List

variable {before after : Allocation}

/-- An access of a register in a segment lies in a subrange of the register. -/
def Houses (alloc : Allocation) (seg : SegmentId) (reg : Register) (location : Location) : Prop :=
  ∃ id sub, alloc.subrange? id = some sub ∧ sub.segment = seg ∧
    alloc.registerOf sub = reg ∧ location ∈ sub.locations

/-- Every access of a register of the table lies in a subrange of the register. -/
def Covered (alloc : Allocation) : Prop :=
  ∀ seg ∈ alloc.graph.order, ∀ reg : Register, 0 ≤ reg →
    reg < alloc.graph.slots.length →
    ∀ location ∈ (alloc.graph.segment seg).locations reg,
      alloc.Houses seg reg location

theorem Covered.of_houses (covered : before.Covered) (graph_eq : after.graph = before.graph)
    (kept : ∀ {seg reg location}, before.Houses seg reg location →
      after.Houses seg reg location) : after.Covered := by
  intro seg mem reg nonneg listed location accessed
  rw [graph_eq] at mem listed accessed
  exact kept (covered seg mem reg nonneg listed location accessed)

theorem covered_ofGraph (numbered : g.Numbered) (short : g.IsShort)
    (regs : Int) : (ofGraph g regs).Covered := by
  obtain ⟨liveness, forming, rfl, equal, framed, finished, taken⟩ :=
    exists_finished_ofGraph numbered short regs
  rw [equal]
  intro seg mem reg nonneg listed location accessed
  rw [finished.formed.graph_eq] at mem listed accessed
  obtain ⟨number, rfl⟩ := Int.eq_ofNat_of_zero_le nonneg
  have listed : number < liveness.graph.slots.length := Int.ofNat_lt.mp listed
  -- a window without accesses is undefined, so this one was taken up
  have defined : (liveness.window seg number).isDefined := by
    cases framed.frames mem listed with
    | absent _ unused =>
      rw [Int.ofNat_eq_natCast] at unused
      rw [unused] at accessed
      cases accessed
    | present defined _ => exact defined
  obtain ⟨id, became⟩ := taken mem listed defined
  obtain ⟨sub, range, found, here, live, same, -⟩ := finished.subrange?_of_member? mem listed became
  refine ⟨id, sub, found, here, ?_, ?_⟩
  · rw [registerOf, range_eq_of_some live, same, Int.ofNat_eq_natCast]
  · rw [(finished.fits framed found).2, accessesOf, segmentOf, finished.formed.graph_eq, here,
      range_eq_of_some live, same, Int.ofNat_eq_natCast]
    exact accessed

section

variable (coherent : before.Coherent)

include coherent

theorem Refines.houses (refines : Refines before after origin) {id}
    (found : before.subrange? (origin id) = some sub) (same : before.registerOf sub = reg)
    (live : after.subrange? id = some part) (here : part.segment = seg)
    (listed : location ∈ part.locations) : after.Houses seg reg location :=
  ⟨id, part, live, here, (refines.register_eq coherent live found).trans same, listed⟩

variable (housed : before.Houses seg reg location)

include housed

theorem Adjusts.houses (adjusts : Adjusts before after) : after.Houses seg reg location := by
  obtain ⟨id, sub, found, here, same, listed⟩ := housed
  obtain ⟨noLoad, hasStore, hasDelayedStore, now⟩ := adjusts.image found
  exact (adjusts.refines coherent).houses coherent found same now here listed

theorem SplitAt.houses {id} (view : SplitAt before after id sub place) :
    after.Houses seg reg location := by
  have refines := view.refines coherent
  have old := lt_nextSubrange_of_subrange? view.found
  obtain ⟨number, source, found, here, same, listed⟩ := housed
  have other := Nat.ne_of_lt (lt_nextSubrange_of_subrange? found)
  have origin : SplitAt.origin before id number = number := if_neg other
  by_cases split : number = id
  · subst split
    cases view.found.symm.trans found
    rw [← takeWhile_append_dropWhile (p := (·.index < place)) (l := sub.locations),
      mem_append] at listed
    rcases listed with head | tail
    · have live := (view.subrange?_eq number).trans (if_pos rfl)
      exact refines.houses coherent (origin.symm ▸ found) same live here head
    · have origin : SplitAt.origin before number before.nextSubrange = number := if_pos rfl
      have live := view.subrange?_eq before.nextSubrange
      rw [if_neg (Nat.ne_of_gt old), if_pos rfl] at live
      exact refines.houses coherent (origin.symm ▸ found) same live here tail
  · refine refines.houses coherent (origin.symm ▸ found) same ?_ here listed
    rw [view.subrange?_eq, if_neg split, if_neg other, found]

theorem ExplodeAt.houses {id range}
    (view : ExplodeAt before after id range origins) : after.Houses seg reg location := by
  have refines := view.refines coherent
  obtain ⟨number, source, found, here, same, listed⟩ := housed
  have old := lt_nextSubrange_of_subrange? found
  have whole := subrange_eq_of_some found
  by_cases replaced : number ∈ range.subranges
  · have origin : number ∈ origins := by
      rw [view.origins_eq, mem_filter, whole, decide_eq_true_eq]
      exact ⟨replaced, ne_nil_of_mem listed⟩
    obtain ⟨place, stands⟩ := mem_iff_getElem?.mp origin
    have live := view.subrange?_new place
    rw [stands, Option.map_some, whole] at live
    exact refines.houses coherent ((ExplodeAt.origin_new stands).symm ▸ found) same live here listed
  · refine refines.houses coherent ((ExplodeAt.origin_old old).symm ▸ found) same ?_ here listed
    rw [view.subrange?_old old, if_neg replaced, found]

theorem Step.houses (step : Step before after) : after.Houses seg reg location := by
  cases step with
  | reorder mem permuted =>
    exact (reassigns_reorder coherent.lists (coherent.listed _ mem) permuted).adjusts.houses
      coherent housed
  | assign live free => exact (reassigns_assign coherent.lists _ _).adjusts.houses coherent housed
  | split done =>
    obtain ⟨sub, view⟩ := splitAt_of_split coherent done
    exact view.houses coherent housed
  | explode live => exact (explodeAt_of_found coherent live).houses coherent housed
  | tally change => exact (reassigns_tally coherent.lists change).adjusts.houses coherent housed

end

theorem Changes.covered (changes : Changes before after) (coherent : before.Coherent)
    (covered : before.Covered) : after.Covered := by
  induction changes with
  | refl => exact covered
  | tail earlier change ih =>
    have middle := Changes.coherent earlier coherent
    have step := change.step middle
    exact ih.of_houses (step.target_eq middle).1 fun housed =>
      step.houses middle housed

end Dynarec.Allocation
