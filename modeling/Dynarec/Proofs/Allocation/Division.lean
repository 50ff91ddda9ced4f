import Dynarec.Proofs.Allocation.Totality

/-!
# Accesses divided between subranges

Splits and replacements divide the accesses of a register anew, but none is lost
and none is held twice.  Through all changes of an assignment the subranges of a
register in a segment hold its accesses there, each one once and between their
bounds, and links that lead to subranges of the same range still do so.
-/

namespace Dynarec.Allocation

open List

variable {alloc : Allocation}

/-- The subranges that keep a register in a segment. -/
def partsOf (alloc : Allocation) (seg : SegmentId) (reg : Register) : List Subrange :=
  (alloc.subrangesIn seg).filter (alloc.registerOf · = reg)

/-- Subranges divide the accesses of their registers between them. -/
structure Divided (alloc : Allocation) : Prop where
  nodup : ∀ seg reg, ((alloc.partsOf seg reg).flatMap (·.locations)).Nodup
  perm : ∀ seg ∈ alloc.graph.order, ∀ reg : Register, 0 ≤ reg → reg < alloc.graph.slots.length →
    ((alloc.partsOf seg reg).flatMap (·.locations)).Perm ((alloc.graph.segment seg).locations reg)
  covered : ∀ {id sub}, alloc.subrange? id = some sub → ∀ loc ∈ sub.locations,
      sub.start ≤ loc.index ∧ loc.index < sub.stop
  apart : ∀ {id sub other otherSub},
    alloc.subrange? id = some sub → alloc.subrange? other = some otherSub →
    id ≠ other → sub.segment = otherSub.segment →
    alloc.registerOf sub = alloc.registerOf otherSub →
    sub.overlaps otherSub = false
  /-- A subrange that stops inside its segment does so behind its last access. -/
  stop_eq : ∀ {id sub last}, alloc.subrange? id = some sub →
    sub.stop ≠ .atExit → sub.locations.getLast? = some last →
    sub.stop = last.index + 1

namespace Coherent

variable (coherent : alloc.Coherent)

include coherent

theorem nodup_flatMap_locations (seg : SegmentId) (reg : Register) :
    ((alloc.partsOf seg reg).flatMap (·.locations)).Nodup := by
  have orderly := coherent.orderly seg
  refine nodup_flatMap.mpr ⟨fun sub listed => ?_, ?_⟩
  · obtain ⟨found, -⟩ := coherent.mem_subrangesIn.mp (mem_of_mem_filter listed)
    rw [coherent.accessed found]
    exact (Segment.nodup_locations _ _).filter _
  · refine (orderly.nodup.filter _).pairwise_of_forall_ne ?_
    intro sub listed other otherListed ne loc accessed otherAccessed
    obtain ⟨mem, same⟩ := mem_filter.mp listed
    obtain ⟨otherMem, otherSame⟩ := mem_filter.mp otherListed
    have apart := orderly.apart sub mem other otherMem ne
      ((of_decide_eq_true same).trans (of_decide_eq_true otherSame).symm)
    obtain ⟨found, -⟩ := coherent.mem_subrangesIn.mp mem
    obtain ⟨otherFound, -⟩ := coherent.mem_subrangesIn.mp otherMem
    have between := (coherent.ordered found).covered accessed
    have otherBetween := (coherent.ordered otherFound).covered otherAccessed
    -- an access that two parts hold lies in both, but parts do not overlap
    have overlap : sub.overlaps other := Subrange.overlaps_iff.mpr (.inl ⟨by lia, by lia⟩)
    exact Bool.false_ne_true (apart.symm.trans overlap)

/-- The subranges of a register in a segment together hold its accesses there. -/
theorem mem_flatMap_locations {reg : Register} (covered : alloc.Covered)
    (mem : seg ∈ alloc.graph.order) (nonneg : 0 ≤ reg) (listed : reg < alloc.graph.slots.length) (loc : Location) :
    loc ∈ (alloc.partsOf seg reg).flatMap (·.locations) ↔
      loc ∈ (alloc.graph.segment seg).locations reg := by
  simp only [mem_flatMap, partsOf, mem_filter, decide_eq_true_eq]
  constructor
  · rintro ⟨sub, ⟨inside, rfl⟩, accessed⟩
    obtain ⟨found, rfl⟩ := coherent.mem_subrangesIn.mp inside
    rw [coherent.accessed found] at accessed
    exact mem_of_mem_filter accessed
  · intro accessed
    obtain ⟨id, sub, found, here, same, within⟩ := covered seg mem reg nonneg listed loc accessed
    rw [← coherent.subrange_id found] at found
    exact ⟨sub, ⟨coherent.mem_subrangesIn.mpr ⟨found, here⟩, same⟩, within⟩

theorem divided (covered : alloc.Covered) : alloc.Divided where
  nodup := coherent.nodup_flatMap_locations
  perm seg mem reg nonnegative listed :=
    (perm_ext_iff_of_nodup (coherent.nodup_flatMap_locations seg reg)
      (Segment.nodup_locations _ reg)).mpr
      (coherent.mem_flatMap_locations covered mem nonnegative listed)
  covered found _ := (coherent.ordered found).covered
  apart := coherent.apart
  stop_eq {id sub last} found stays final := by
    rcases (coherent.fits found).stop_fits with exit | ⟨-, nothing, -⟩ | ⟨other, final', stop⟩
    · exact absurd exit stays
    · rw [nothing] at final
      cases final
    · cases final.symm.trans final'
      exact stop.symm

end Coherent

/-- The changes of an assignment lose no access and hold none twice.  What follows a subrange in
its range still does so, as everything does at first if all sources are listed. -/
theorem changes_divide_accesses
    {graph : Graph}
    (numbered : graph.Numbered)
    (short : graph.IsShort)
    (registers : Int) :
    (∀ after, Changes (ofGraph graph registers) after →
      after.graph = graph ∧ after.Divided ∧ KeepsLinks (ofGraph graph registers) after ∧
        (graph.Backlinked → after.Linked)) ∧
    ∀ limit after, (ofGraph graph registers).assignRegisters limit = .ok after →
      Changes (ofGraph graph registers) after := by
  refine ⟨fun after changes => ?_, fun limit after done => changes_settle done⟩
  have coherent := coherent_ofGraph numbered short registers
  have steps := changes.steps coherent
  have covered := covered_ofGraph numbered short registers
  refine ⟨?_, (steps.coherent coherent).divided (changes.covered coherent covered),
    steps.keepsLinks coherent, fun backlinked => ?_⟩
  · rw [(steps.target_eq coherent).1, graph_ofGraph]
  · exact steps.linked coherent (linked_ofGraph numbered short registers backlinked)

theorem explode_divides_accesses :
    summingLoop.Numbered ∧ summingLoop.IsShort ∧ summingLoop.Backlinked ∧
      ((ofGraph summingLoop 3).explode 0).Divided ∧
      ((ofGraph summingLoop 3).explode 0).Linked := by
  have numbered : summingLoop.Numbered := by decide
  have short : summingLoop.IsShort := by decide
  have backlinked : summingLoop.Backlinked := by decide
  obtain ⟨-, divided, -, linked⟩ :=
    (changes_divide_accesses numbered short 3).1 _ (changes_explode 0)
  exact ⟨numbered, short, backlinked, divided, linked backlinked⟩

end Dynarec.Allocation
