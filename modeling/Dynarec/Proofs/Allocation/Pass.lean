import Dynarec.Proofs.Allocation.Scan

/-!
# Passes over the segments

A pass scans the segments of a graph one after the other until a scan gets
stuck.  If none does, every range has a register.  So an assignment that
succeeds leaves every range with a register, however many the host has, and one
that fails does not do so with a clash.
-/

namespace Dynarec.Allocation

open List

variable {alloc after : Allocation}

theorem Change.step (change : Change before after) (coherent : before.Coherent) :
    Step before after := by
  cases change with
  | reorder mem => exact .reorder mem (before.perm_sortedIds _)
  | assign live free =>
    rw [coherent.range_id live]
    exact .assign live free
  | split done => exact .split done
  | explode live => exact .explode live
  | count => exact .tally _

theorem Changes.steps (changes : Changes before after) (coherent : before.Coherent) :
    Steps before after := by
  induction changes with
  | refl => exact .refl
  | tail _ change ih => exact ih.tail (change.step (ih.coherent coherent))

theorem Changes.coherent (changes : Changes before after) (coherent : before.Coherent) :
    after.Coherent :=
  (changes.steps coherent).coherent coherent

theorem progress_reorder (coherent : alloc.Coherent) (mem : seg ∈ alloc.graph.order) :
    Progress alloc (alloc.reorder seg (alloc.sortedIds seg)) where
  steps := .single (.reorder mem (alloc.perm_sortedIds seg))
  reassigns := reassigns_reorder coherent.lists (coherent.listed _ mem)
    (alloc.perm_sortedIds seg)
  keeps := fun live _ => live
  restarts_eq := rfl

/-- Every live range has a register. -/
def AllAssigned (alloc : Allocation) : Prop :=
  ∀ {id range}, alloc.range? id = some range → range.isAssigned

theorem Coherent.allAssigned (coherent : alloc.Coherent)
    (assigned : ∀ {id sub}, alloc.subrange? id = some sub →
      sub.segment ∈ alloc.graph.order → alloc.Assigned sub.range) : alloc.AllAssigned := by
  intro id range live
  obtain ⟨mem, listed⟩ := exists_mem_of_ne_nil _ (coherent.subranges_ne_nil live)
  obtain ⟨sub, found, inside⟩ := (coherent.mem_subranges live).mp listed
  obtain ⟨range', live', has⟩ := assigned found (coherent.segment_mem found)
  rw [inside] at live'
  cases live.symm.trans live'
  exact has

section

variable (coherent : alloc.Coherent)

include coherent

theorem completed_assignSegment (mem : seg ∈ alloc.graph.order)
    (done : alloc.assignSegment seg = .ok (.complete after)) :
    Progress alloc after ∧ ∀ {id sub}, after.subrange? id = some sub → sub.segment = seg →
      after.Assigned sub.range := by
  have listed id : id ∈ alloc.sortedIds seg ↔
      ∃ sub, alloc.subrange? id = some sub ∧ sub.segment = seg := by
    rw [(alloc.perm_sortedIds seg).mem_iff, Array.mem_toList_iff]
    exact coherent.lists.mem_idsIn
  have reordering := progress_reorder coherent mem
  obtain ⟨scan, all⟩ := completed_assignFrom (reordering.reassigns.adjusts.coherent coherent)
    (fun id inside => ((listed id).mp inside).imp fun _ found => found.1) done
  have progress := reordering.trans scan
  refine ⟨progress, fun {id sub} found here => ?_⟩
  rw [← subrange_eq_of_some found]
  rw [progress.reassigns.subrange?_eq] at found
  exact all id ((listed id).mpr ⟨sub, found, here⟩)

theorem completed_assignSegments (members : ∀ seg ∈ segments, seg ∈ alloc.graph.order)
    (done : assignSegments segments alloc = .ok (.complete after)) :
    Progress alloc after ∧ ∀ {id sub}, after.subrange? id = some sub →
      sub.segment ∈ segments → after.Assigned sub.range := by
  induction segments generalizing alloc with
  | nil =>
    cases done
    exact ⟨.refl coherent.lists, fun _ absent => absurd absent not_mem_nil⟩
  | cons seg rest ih =>
    obtain ⟨mem, members⟩ := forall_mem_cons.mp members
    obtain ⟨first, assigned, done⟩ := of_bind_eq_ok done
    cases first with
    | changed => cases done
    | complete middle =>
      obtain ⟨progress, all⟩ := completed_assignSegment coherent mem assigned
      obtain ⟨progress', others⟩ := ih (progress.reassigns.adjusts.coherent coherent)
        (progress.reassigns.graph_eq ▸ members) done
      refine ⟨progress.trans progress', fun {id sub} found inside => ?_⟩
      rcases mem_cons.mp inside with here | inside
      · exact progress'.assigned (all ((progress'.reassigns.subrange?_eq id).symm.trans found) here)
      · exact others found inside

theorem allAssigned_settle (done : settle limit passes alloc = .ok after) : after.AllAssigned := by
  obtain ⟨last, changes, completes⟩ := exists_last_pass done
  have coherent := changes.coherent coherent
  obtain ⟨progress, all⟩ := completed_assignSegments coherent
    (fun _ => mem_hottestFirst_iff.mp) completes
  intro id range live
  refine (progress.reassigns.adjusts.coherent coherent).allAssigned (fun found here => ?_) live
  exact all found (mem_hottestFirst_iff.mpr (progress.reassigns.graph_eq ▸ here))

end

section

variable (sound : alloc.Sound)

include sound

theorem outcome_assignSegment (mem : seg ∈ alloc.graph.order) :
    Outcome alloc (alloc.assignSegment seg) :=
  .of_progress (progress_reorder sound.coherent mem) (outcome_assignFrom (.start sound mem))

theorem outcome_assignSegments (members : ∀ seg ∈ segments, seg ∈ alloc.graph.order) :
    Outcome alloc (assignSegments segments alloc) := by
  induction segments generalizing alloc with
  | nil => exact .complete
  | cons seg rest ih =>
    obtain ⟨mem, members⟩ := forall_mem_cons.mp members
    have outcome := outcome_assignSegment sound mem
    rw [assignSegments]
    cases done : alloc.assignSegment seg with
    | error error =>
      rw [done] at outcome
      exact outcome
    | ok pass =>
      rw [done] at outcome
      cases pass with
      | changed after => exact outcome
      | complete middle =>
        obtain ⟨progress, -⟩ := completed_assignSegment sound.coherent mem done
        exact .of_progress progress
          (ih (progress.steps.sound sound) (progress.reassigns.graph_eq ▸ members))

end

theorem Outcome.isClash_eq (ends : Outcome alloc outcome) (failed : outcome = .error error) :
    error.isClash = false := by
  cases ends with
  | complete => cases failed
  | @stuck middle seg id sub rest live progress stuck =>
    have changing : Changing middle (middle.resolveStuck seg sub live) := changing_resolveConflict
    cases resolved : middle.resolveStuck seg sub live with
    | ok after =>
      rw [resolved] at failed
      cases failed
    | error fault =>
      rw [resolved] at failed changing
      cases failed
      exact changing

theorem isClash_of_settle (sound : alloc.Sound)
    (failed : settle limit passes alloc = .error error) : error.isClash = false := by
  induction passes generalizing alloc with
  | zero =>
    cases failed
    rfl
  | succ passes ih =>
    have outcome := outcome_assignSegments sound fun _ => mem_hottestFirst_iff.mp
    rw [settle] at failed
    cases done : assignSegments (hottestFirst alloc.graph) alloc with
    | error fault =>
      rw [done] at failed
      cases failed
      exact outcome.isClash_eq done
    | ok pass =>
      rw [done] at failed
      have steps := (changes_assignSegments (fun _ => mem_hottestFirst_iff.mp) done).steps
        sound.coherent
      cases pass with
      | complete after => cases failed
      | changed after => exact ih (Steps.sound (steps.tail (.tally _)) sound) failed

end Dynarec.Allocation
