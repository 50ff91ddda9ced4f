import Dynarec.Proofs.Allocation.Frame
import Dynarec.Proofs.Graph.Validity
import Dynarec.Proofs.Guest.Reachability

/-!
# The entry of a compiled function

However the entry of a function is moved from segment to segment, there is one at
which it is entered in the end.  The guest code that the function was made from is
kept, and none of its ranges is empty.
-/

namespace Dynarec

open Dynarec.Stream

namespace Graph

variable {g : Graph} {ranges : List AddressRange}

/-- The graph of some guest code is entered at an address. -/
def IsEntered (g : Graph) (ranges : List AddressRange) (addr : Address) : Prop :=
  g.ranges = ranges ∧ g.EntersAt addr

section

variable (entered : g.IsEntered ranges addr)

include entered

/-- Entries stay where segments keep theirs. -/
theorem IsEntered.of_kept {after : Graph} (ranges_eq : after.ranges = g.ranges)
    (mem_order : ∀ {id}, id ∈ g.order → id ∈ after.order)
    (same : ∀ {id}, id ∈ g.order → (after.segment id).enterable = (g.segment id).enterable ∧
        (after.segment id).enterAddress = (g.segment id).enterAddress) :
    after.IsEntered ranges addr := by
  obtain ⟨known, id, mem, enterable, entered⟩ := entered
  obtain ⟨enterable_eq, enterAddress_eq⟩ := same mem
  exact ⟨ranges_eq.trans known, id, mem_order mem, enterable_eq.trans enterable,
    enterAddress_eq.trans entered⟩

theorem IsEntered.passes (tied : g.Tied)
    (placed : ∀ id ∈ g.order, WellPlaced (g.segment id).instructions) (options : BuildOptions) :
    (g.passes options).Tied ∧ (g.passes options).IsEntered ranges addr := by
  have kept := LayoutKept.prepared tied placed options
  have prepared : (g.prepared options).IsEntered ranges addr :=
    entered.of_kept (by rw [kept.shape_eq]) (fun mem => kept.order_eq ▸ mem) fun mem =>
      ⟨(kept.each _ mem).enterable_eq, (kept.each _ mem).enterAddress_eq⟩
  refine expansion_induction (fun g _ => g.IsEntered ranges addr) kept.toTied prepared ?_ id ?_ ?_
  · rintro before body number rest after - - guarded ⟨known, enters⟩
    exact ⟨by rw [guarded.shape_eq, known], guarded.entersAt enters⟩
  · rintro before moved after - - - - isolated ⟨known, enters⟩
    exact ⟨by rw [isolated.shape_eq, known], isolated.entersAt enters⟩
  · rintro before after - alike ⟨known, enters⟩
    exact ⟨by rw [alike.shape_eq, known], alike.entersAt enters⟩

end

theorem isEntered_of_build (generated : generate memory options = .ok stream)
    (built : build stream buildOptions = .ok g) :
    g.Tied ∧ g.IsEntered stream.ranges options.entry := by
  obtain ⟨list, tiled, entry_eq, -⟩ := exists_tiled generated
  obtain ⟨base, made, rfl, -⟩ := of_build_eq_ok built
  obtain ⟨isBase, sameEntry, sameRanges, -⟩ := isBase_of_tiled tiled made
  have mem := isBase.zero_mem tiled.trimmed_ne_nil
  obtain ⟨run, found, -⟩ := isBase.exists_run mem
  have entered : base.IsEntered stream.ranges options.entry := by
    refine ⟨sameRanges, 0, mem, isBase.enterable_eq found, (isBase.enterAddress_eq found).trans ?_⟩
    rw [if_pos rfl, sameEntry, entry_eq]
  exact entered.passes isBase.toTied (fun _ => isBase.wellPlaced tiled.arranged) buildOptions

theorem IsEntered.allocate (entered : g.IsEntered ranges addr) (tied : g.Tied)
    (allocated : g.allocate config = .ok (result, stats)) : result.IsEntered ranges addr := by
  have subdivides := subdivides_splitJoinEdges tied
  have recoded := recoded_allocate allocated
  have split : g.splitJoinEdges.IsEntered ranges addr :=
    entered.of_kept (by rw [subdivides.shape_eq]) subdivides.mem_order fun mem =>
      have fields := subdivides.content_eq mem
      ⟨fields.enterable_eq, fields.enterAddress_eq⟩
  exact split.of_kept (by rw [recoded.shape_eq]) (fun mem => recoded.order_eq ▸ mem) fun _ =>
    ⟨recoded.enterable_eq _, recoded.enterAddress_eq _⟩

end Graph

namespace Compiler

variable {entry : Address}

theorem entered_of_pipeline (done : pipeline config memory request count = .ok function) :
    function.entry = request.entry ∧ request.entry ∈ function.enterAddresses ∧
      ∃ stream, generate memory (request.options config count) = .ok stream ∧
        function.ranges = stream.ranges := by
  obtain ⟨stream, generated, done⟩ := of_bind_eq_ok done
  split at done
  · cases done
  next g built =>
    split at done
    · cases done
    next result stats allocated =>
      cases done
      obtain ⟨tied, entered⟩ := Graph.isEntered_of_build generated built
      obtain ⟨known, id, mem, enterable, addr⟩ := entered.allocate tied allocated
      refine ⟨rfl, List.mem_map.mpr ⟨result.segment id, List.mem_filter.mpr ⟨?_, enterable⟩,
        addr⟩, stream, generated, known⟩
      exact List.mem_map_of_mem mem

theorem count_of_plan (planned : plan config store memory request = .ok (.compile count key)) :
    count = request.count ∨ wordCount config memory request = .ok count := by
  unfold plan planFor at planned
  split at planned
  · cases planned
    exact .inl rfl
  · split at planned
    · cases planned
    · cases planned
    next counted =>
      right
      split at planned
      · cases planned
        exact counted
      · split at planned
        · split at planned
          · cases planned
          · cases planned
            exact counted
        · cases planned
          exact counted

theorem size_of_plan {size}
    (planned : plan config store memory { entry } = .ok (.compile count key))
    (extent : extent memory (Request.options { entry } config count) = .ok size) : size ≠ 0 := by
  unfold Stream.extent at extent
  split at extent
  next pos =>
    cases extent
    have counted := (count_of_plan planned).resolve_left (Int.ne_of_gt pos)
    obtain ⟨range, -, counted⟩ := of_bind_eq_ok counted
    cases counted
    intro empty
    have words : ((range.size.toNat : Int) / 4 % 2 ^ 32).toNat * 4 % 2 ^ 32 = 0 := by
      simpa [Request.options, UInt32.ofInt] using congrArg UInt32.toNat empty
    have some : 0 < (range.size / 4).toNat := Int.natCast_pos.mp pos
    have four : (4 : UInt32).toNat = 4 := rfl
    rw [UInt32.toNat_div, four] at some
    have small := range.size.toNat_lt
    omega
  · obtain ⟨range, tracked, extent⟩ := of_bind_eq_ok extent
    cases extent
    exact Guest.Tracker.size_of_track tracked

theorem entered_of_compile
    (done : contain (compile config store memory { entry }).result = .ok function) :
    function.entry = entry ∧ entry ∈ function.enterAddresses ∧
      ∀ range ∈ function.ranges, range.size ≠ 0 := by
  unfold compile at done
  split at done
  · cases done
  · cases done
  next count key planned =>
    cases outcome : pipeline config memory { entry } count with
    | ok result =>
      rw [outcome] at done
      cases done
      obtain ⟨entry_eq, entered, stream, generated, ranges_eq⟩ := entered_of_pipeline outcome
      obtain ⟨extent, callees, covers, nonempty⟩ := ranges_of_generate generated
      refine ⟨entry_eq, entered, ?_⟩
      rw [ranges_eq, covers]
      exact List.forall_mem_cons.mpr ⟨size_of_plan planned extent, nonempty⟩
    | error interruption =>
      rw [outcome] at done
      cases interruption <;> cases done

end Compiler
end Dynarec
