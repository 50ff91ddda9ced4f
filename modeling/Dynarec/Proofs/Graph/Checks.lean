import Dynarec.Proofs.Graph.Layout
import Mathlib.Algebra.BigOperators.Group.Finset.Basic

/-!
# What the checks of a graph say

A graph without errors is one whose instructions lead where they should, said
without lists of segments that are searched through.
-/

namespace Dynarec

open Instruction List

/-- Whether an instruction names the segment that it leads to by an address. -/
def Instruction.namesTarget (instr : Instruction Register) : Bool :=
  instr.kind = .jump && !instr.bySegment || instr.kind = .cycleCheck

namespace Graph

variable {g : Graph} {id : SegmentId}

/-- No link leads to a segment. -/
def IsUnreached (g : Graph) (id : SegmentId) : Prop :=
  ∀ source ∈ g.order, ∀ side, (g.segment source).link side ≠ some id

theorem IsUnreached.prev_eq_nil (tied : g.Tied) (mem : id ∈ g.order)
    (unreached : g.IsUnreached id) : (g.segment id).prev = [] := by
  rw [eq_nil_iff_forall_not_mem]
  intro source listed
  have sourceMem := tied.numbered.prev_mem mem listed
  obtain ⟨side, linked⟩ := Segment.mem_successors_iff.mp
    ((tied.backlinked.mem_prev_iff mem sourceMem).mp listed)
  exact unreached source sourceMem side linked

theorem IsUnreached.of_prev_eq_nil (backlinked : g.Backlinked) (mem : id ∈ g.order)
    (alone : (g.segment id).prev = []) : g.IsUnreached id := by
  intro source sourceMem side linked
  have listed := (backlinked.mem_prev_iff mem sourceMem).mpr
    (Segment.mem_successors_iff.mpr ⟨side, linked⟩)
  rw [alone] at listed
  cases listed

theorem misplaced?_eq_none (seg : Segment) (placed : WellPlaced code) (index : Nat) :
    misplaced? seg index code = none := by
  induction code generalizing index with
  | nil => rfl
  | cons first rest ih =>
    obtain ⟨inside, behind⟩ := forall_mem_cons.mp placed.inside
    cases rest with
    | nil => simp [misplaced?, inside]
    | cons second rest =>
      have plain := forall_mem_cons.mp (dropLast_cons_cons ▸ placed.suffix_last)
      rw [misplaced?, plain.1, Bool.false_and, if_neg (by simp), inside, if_neg (by simp)]
      exact ih ⟨behind, plain.2⟩ (index + 1)

theorem wellPlaced_of_misplaced?_eq_none (valid : misplaced? seg index code = none) :
    WellPlaced code := by
  induction code generalizing index with
  | nil => exact ⟨by simp, by simp⟩
  | cons first rest ih =>
    rw [misplaced?] at valid
    split at valid
    · cases valid
    next last =>
      split at valid
      · cases valid
      next inside =>
        obtain ⟨others, suffix_last⟩ := ih valid
        refine ⟨forall_mem_cons.mpr ⟨Bool.eq_false_iff.mpr inside, others⟩, ?_⟩
        cases rest with
        | nil => simp
        | cons second rest =>
          exact forall_mem_cons.mpr ⟨by simpa using last, suffix_last⟩

theorem of_error?_eq_none (valid : g.error? = none) (mem : id ∈ g.order) :
    WellPlaced (g.segment id).instructions ∧
      ((g.segment id).enterable → (g.segment id).prev = []) := by
  rw [error?, Option.or_eq_none_iff, findSome?_eq_none_iff] at valid
  have formed := valid.1 _ (mem_map_of_mem mem)
  rw [malformed?, Option.or_eq_none_iff, Option.or_eq_none_iff] at formed
  refine ⟨wellPlaced_of_misplaced?_eq_none formed.1, fun enterable => ?_⟩
  by_contra reached
  simp [enterable, reached] at formed

theorem incoming_eq (tied : g.Tied) (mem : id ∈ g.order) :
    g.incoming id = (g.segment id).prev.length := by
  have listed : ∀ source ∈ ((g.segment id).prev : Multiset SegmentId), source ∈ g.order.toFinset :=
    fun source listed => mem_toFinset.mpr (tied.numbered.prev_mem mem listed)
  calc g.incoming id
      = (g.order.map fun source => (g.segment source).successors.count id).sum := by
        rw [incoming, inOrder, flatMap_map, count_flatMap]
        rfl
    _ = (g.order.map fun source => (g.segment id).prev.count source).sum := by
        refine congrArg List.sum (map_congr_left fun source sourceMem => ?_)
        exact (tied.backlinked id mem source sourceMem).symm
    _ = ∑ source ∈ g.order.toFinset, ((g.segment id).prev : Multiset SegmentId).count source := by
        simp only [Multiset.coe_count]
        exact (sum_toFinset _ tied.numbered.nodup_order).symm
    _ = (g.segment id).prev.length := Multiset.sum_count_eq_card listed

theorem filter_eq_singleton_iff (numbered : g.Numbered) (holds : Segment → Bool)
    (mem : id ∈ g.order) :
    (g.inOrder.filter holds).map (·.id) = [id] ↔
      ∀ other ∈ g.order, holds (g.segment other) ↔ other = id := by
  have ids : (g.inOrder.filter holds).map (·.id) = g.order.filter (holds ∘ g.segment) := by
    rw [inOrder, filter_map, map_map]
    refine (map_congr_left fun other listed => ?_).trans (map_id _)
    exact numbered.segment_id (mem_of_mem_filter listed)
  rw [ids, ← perm_singleton,
    perm_ext_iff_of_nodup (numbered.nodup_order.filter _) (nodup_singleton id)]
  simp only [mem_filter, mem_singleton, Function.comp_apply]
  constructor
  · intro only other listed
    rw [← only other]
    exact ⟨fun found => ⟨listed, found⟩, And.right⟩
  · intro only other
    constructor
    · exact fun found => (only other found.1).mp found.2
    · rintro rfl
      exact ⟨mem, (only _ mem).mpr rfl⟩

/-- Some segment is entered at an address. -/
def EntersAt (g : Graph) (addr : Address) : Prop :=
  ∃ id ∈ g.order, (g.segment id).enterable ∧
    (g.segment id).enterAddress = addr

/-- A jump at the end of a segment leads along the taken link, to the only segment of its target. -/
def Jumps (g : Graph) (id : SegmentId) (last : Instruction Register) : Prop :=
  (last.kind = .jump → last.bySegment →
    ∃ next, (g.segment id).link true = some next) ∧
  (last.namesTarget → ∃ next, (g.segment id).link true = some next ∧
    ∀ other ∈ g.order, (g.segment other).isDestination ∧
      (g.segment other).jumpAddress = last.target ↔ other = next)

/-- A cycle check at the end of a segment leaves for an address where the graph is entered. -/
def Resumes (g : Graph) (id : SegmentId) (last : Instruction Register) : Prop :=
  last.kind = .cycleCheck → ∃ leave final, (g.segment id).link false = some leave ∧
    (g.segment leave).last? = some final ∧ final.kind = .routine ∧ final.routine = .leave ∧
    g.EntersAt final.param

/-- A graph whose instructions lead where they should and whose entries are not reached from
inside. -/
structure Checked (g : Graph) : Prop where
  placed : ∀ {id}, id ∈ g.order → WellPlaced (g.segment id).instructions
  entered : ∀ {id}, id ∈ g.order → (g.segment id).enterable → g.IsUnreached id
  jumps : ∀ {id}, id ∈ g.order → ∀ last, (g.segment id).last? = some last → g.Jumps id last
  resumes : ∀ {id}, id ∈ g.order → ∀ last, (g.segment id).last? = some last → g.Resumes id last

theorem misled?_eq_none_iff (numbered : g.Numbered) (mem : id ∈ g.order) :
    g.misled? (g.segment id) = none ↔
      ∀ last, (g.segment id).last? = some last → g.Jumps id last := by
  have taken_eq : (g.segment id).link true = (g.segment id).taken := rfl
  simp only [misled?, Jumps, taken_eq]
  cases last_eq : (g.segment id).last? with
  | none => simp
  | some last =>
    simp only [Option.some.injEq, forall_eq']
    split
    next bySegment =>
      rw [Bool.and_eq_true, decide_eq_true_eq] at bySegment
      have unnamed : last.namesTarget = false := by simp [namesTarget, bySegment]
      simp [bySegment, unnamed, ← Option.ne_none_iff_exists']
    next elsewhere =>
      have followed : last.kind = .jump → last.bySegment ≠ true := by simpa using elsewhere
      split
      next named =>
        have byName : last.namesTarget := by
          rw [namesTarget]
          grind
        have only {next} (linked : (g.segment id).taken = some next) :=
          filter_eq_singleton_iff numbered (fun other =>
            other.isDestination && other.jumpAddress = last.target)
            (numbered.link_mem mem (taken_eq.trans linked))
        simp only [Bool.and_eq_true, decide_eq_true_eq] at only
        refine ⟨fun valid => ⟨fun jumps bySegment => absurd bySegment (followed jumps),
          fun _ => ?_⟩, fun leads => ?_⟩
        · split at valid
          next dest found =>
            split at valid
            next linked => exact ⟨dest, linked, (only linked).mp found⟩
            · cases valid
          · cases valid
        · obtain ⟨next, linked, single⟩ := leads.2 byName
          simp only [(only linked).mpr single, linked, ↓reduceIte]
      next other =>
        have unnamed : last.namesTarget = false := by
          rw [namesTarget]
          grind
        refine ⟨fun _ => ⟨fun jumps bySegment => absurd bySegment (followed jumps),
          fun named => ?_⟩, fun _ => rfl⟩
        rw [unnamed] at named
        cases named

theorem misresumed?_eq_none_iff :
    g.misresumed? (g.segment id) = none ↔
      ∀ last, (g.segment id).last? = some last → g.Resumes id last := by
  have notTaken_eq : (g.segment id).link false = (g.segment id).notTaken := rfl
  simp only [misresumed?, Resumes, EntersAt, notTaken_eq]
  cases last_eq : (g.segment id).last? with
  | none => simp
  | some last =>
    by_cases checks : last.kind = .cycleCheck
    · cases linked : (g.segment id).notTaken with
      | none => simp [checks]
      | some leave =>
        cases final_eq : (g.segment leave).last? with
        | none => simp [checks, final_eq]
        | some final =>
          by_cases kind_eq : final.kind = .routine
          · by_cases routine_eq : final.routine = .leave
            · simp [checks, final_eq, kind_eq, routine_eq, inOrder]
            · simp [checks, final_eq, routine_eq]
          · simp [checks, final_eq, kind_eq]
    · simp [checks]

theorem error?_eq_none_iff (tied : g.Tied) : g.error? = none ↔ g.Checked := by
  have each (check : Segment → Option Error) : g.inOrder.findSome? check = none ↔
        ∀ id ∈ g.order, check (g.segment id) = none := by
    rw [findSome?_eq_none_iff, inOrder, forall_mem_map]
  constructor
  · intro valid
    have placed {id} (mem : id ∈ g.order) := of_error?_eq_none valid mem
    rw [error?, Option.or_eq_none_iff, Option.or_eq_none_iff, each, each, each] at valid
    obtain ⟨formed, -, resumed⟩ := valid
    refine ⟨fun mem => (placed mem).1,
      fun mem enterable => .of_prev_eq_nil tied.backlinked mem ((placed mem).2 enterable),
      fun mem => ?_, fun mem => misresumed?_eq_none_iff.mp (resumed _ mem)⟩
    have here := formed _ mem
    rw [malformed?, Option.or_eq_none_iff, Option.or_eq_none_iff] at here
    exact (misled?_eq_none_iff tied.numbered mem).mp here.2.2
  · intro checked
    rw [error?, Option.or_eq_none_iff, Option.or_eq_none_iff, each, each, each]
    refine ⟨fun id mem => ?_, fun id mem => ?_, fun id mem => ?_⟩
    · rw [malformed?, misplaced?_eq_none _ (checked.placed mem),
        (misled?_eq_none_iff tied.numbered mem).mpr (checked.jumps mem)]
      cases enterable : (g.segment id).enterable with
      | false => rfl
      | true =>
        rw [(checked.entered mem enterable).prev_eq_nil tied mem]
        rfl
    · rw [miscounted?, tied.numbered.segment_id mem, incoming_eq tied mem]
      simp
    · exact misresumed?_eq_none_iff.mpr (checked.resumes mem)

end Graph
end Dynarec
