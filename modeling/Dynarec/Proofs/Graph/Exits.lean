import Dynarec.Proofs.Graph.Validity

/-!
# The exit behind a guard

In a graph that was built, nothing but its guard leads to the exit of a guarded
loop.  So no path joins another one there, and the edge to the exit stays as it
is when edges into joins are split.
-/

namespace Dynarec.Graph

open List Segment

variable {orig g after : Graph}

/-- Nothing but the fall through of one segment leads to another. -/
structure SoleExit (g : Graph) (guard leave : SegmentId) : Prop where
  member : guard ∈ g.order
  linked : (g.segment guard).link false = some leave
  only : ∀ {source side}, source ∈ g.order → (g.segment source).link side = some leave →
    source = guard ∧ side = false

theorem SoleExit.length_prev_le {guard leave} (tied : g.Tied)
    (exit : g.SoleExit guard leave) : (g.segment leave).prev.length ≤ 1 := by
  have leaveMem := tied.numbered.link_mem exit.member exit.linked
  have all : ∀ source ∈ (g.segment leave).prev, guard = source := by
    intro source listed
    have sourceMem := tied.numbered.prev_mem leaveMem listed
    obtain ⟨side, linked⟩ := mem_successors_iff.mp
      ((tied.backlinked.mem_prev_iff leaveMem sourceMem).mp listed)
    exact (exit.only sourceMem linked).1.symm
  have apart : (g.segment guard).link true ≠ some leave := fun linked =>
    absurd (exit.only exit.member linked).2 (by simp)
  have linked : (g.segment guard).notTaken = some leave := exit.linked
  rw [← count_eq_length.mpr all, tied.backlinked leave leaveMem guard exit.member,
    successors, linked]
  cases taken_eq : (g.segment guard).taken with
  | none => simp
  | some other =>
    have ne : other ≠ leave := fun equal => apart (taken_eq.trans (congrArg some equal))
    simp [ne]

namespace Subdivides

theorem isUnreached (subdivides : orig.Subdivides g) {id} (mem : id ∈ orig.order)
    (unreached : orig.IsUnreached id) : g.IsUnreached id := by
  intro source sourceMem side linked
  rcases subdivides.link_cases sourceMem linked with
    ⟨listed, kept⟩ | unlisted | ⟨-, origin, originMem, led, -⟩
  · exact unreached source listed side kept
  · exact unlisted mem
  · exact unreached origin originMem false led

theorem soleExit (originalNumbered : orig.Numbered) (subdivides : orig.Subdivides g)
    {guard leave} (exit : orig.SoleExit guard leave)
    (linked : (g.segment guard).link false = some leave) : g.SoleExit guard leave := by
  have leaveMem := originalNumbered.link_mem exit.member exit.linked
  refine ⟨subdivides.mem_order exit.member, linked, fun sourceMem led => ?_⟩
  rcases subdivides.link_cases sourceMem led with
    ⟨listed, kept⟩ | unlisted | ⟨unlisted, origin, originMem, originally, leads⟩
  · exact exit.only listed kept
  · exact absurd leaveMem unlisted
  · -- An edge to the exit would have to stand behind the guard itself.
    obtain ⟨rfl, -⟩ := exit.only originMem originally
    rw [linked, Option.some.injEq] at leads
    exact absurd (leads ▸ leaveMem) unlisted

end Subdivides

theorem link_splitJoinEdges_of_soleExit (tied : g.Tied) {guard leave}
    (exit : g.SoleExit guard leave) : (g.splitJoinEdges.segment guard).link false = some leave := by
  obtain ⟨subdivides, linked⟩ := (Subdivides.refl tied).foldl_splitJoinEdge_induction
    (motive := fun g => (g.segment guard).link false = some leave) tied.numbered
    (by
      intro before id next after subdivides mem _ falls joins added linked
      have single :=
        (subdivides.soleExit tied.numbered exit linked).length_prev_le subdivides.toTied
      have ne : guard ≠ id := by
        rintro rfl
        rw [linked, Option.some.injEq] at falls
        exact absurd (falls ▸ joins) (Nat.not_lt.mpr single)
      have old : guard ≠ before.nextId := fun equal =>
        absurd (subdivides.numbered.inside (subdivides.mem_order exit.member))
          (by simp [equal, nextId])
      rw [added.link_eq, if_neg (by simp [old]), if_neg (by simp [ne])]
      exact linked)
    exit.linked tied.numbered.nodup_order (fun _ mem => mem) fun _ _ => rfl
  rw [splitJoinEdges, (alike_detectLoops subdivides.toTied).link_eq]
  exact linked

/-- Every guard has an exit that nothing else leads to and that is not entered. -/
structure GuardsLeave (g : Graph) : Prop where
  exit : ∀ {id last}, id ∈ g.order → (g.segment id).last? = some last →
    last.kind = .cycleCheck → ∃ leave, g.SoleExit id leave ∧
      (g.segment leave).enterable = false ∧ (g.segment leave).jumpTarget? = none

namespace GuardsLeave

theorem of_loopGuarded {body} (leaves : g.GuardsLeave) (numbered : g.Numbered)
    (mem : body ∈ g.order) (jumps : (g.segment body).jumpTarget?.isSome)
    (guarded : g.LoopGuarded body (loopName number) after) : after.GuardsLeave := by
  have known {id} (listed : id ∈ g.order) : id < g.nextId := numbered.inside listed
  refine ⟨fun {id last} listed last_eq kind_eq => ?_⟩
  rcases guarded.last?_cases listed last_eq with
    ⟨old, last_eq⟩ | ⟨rfl, -⟩ | ⟨-, rfl⟩ | ⟨-, rfl⟩
  · obtain ⟨leave, exit, closed, final⟩ := leaves.exit old last_eq kind_eq
    have leaveMem := numbered.link_mem old exit.linked
    have ne : leave ≠ body := by
      rintro rfl
      simp [final] at jumps
    have fields := guarded.others_eq leave leaveMem ne
    refine ⟨leave, ⟨listed, ?_, fun {source side} sourceListed led => ?_⟩,
      fields.enterable_eq.trans closed, ?_⟩
    · rw [guarded.link_eq id old, exit.linked, if_neg (by simpa using ne)]
    · have bound := known leaveMem
      cases guarded.link_cases sourceListed led with
      | continues => exact absurd rfl ne
      | leaves => exact absurd bound (by lia)
      | enters => exact absurd bound (by lia)
      | moved => exact absurd bound (by lia)
      | kept sourceMem linked _ => exact exit.only sourceMem linked
    · rw [jumpTarget?, fields.last?_eq]
      exact final
  · have fields := guarded.leave_eq
    refine ⟨g.nextId + 1, ⟨listed, guarded.guard_link false, ?_⟩, fields.enterable_eq, ?_⟩
    · intro source side sourceListed led
      generalize leave_eq : g.nextId + 1 = leave at led
      have bound := known mem
      cases guarded.link_cases sourceListed led with
      | continues => exact absurd bound (by lia)
      | leaves => exact ⟨rfl, rfl⟩
      | enters => exact absurd leave_eq (by lia)
      | moved => exact absurd leave_eq (by lia)
      | kept sourceMem linked _ =>
        exact absurd (known (numbered.link_mem sourceMem linked)) (by lia)
    · rw [jumpTarget?, fields.last?_eq]
      rfl
  · cases kind_eq
  · cases kind_eq

theorem of_entryIsolated {entry} (leaves : g.GuardsLeave)
    (numbered : g.Numbered) (enterable : (g.segment entry).enterable)
    (isolated : g.EntryIsolated entry after) : after.GuardsLeave := by
  refine ⟨fun {id last} listed last_eq kind_eq => ?_⟩
  rcases isolated.last?_cases listed last_eq with ⟨old, last_eq⟩ | ⟨-, rfl⟩
  · obtain ⟨leave, exit, closed, final⟩ := leaves.exit old last_eq kind_eq
    have leaveMem := numbered.link_mem old exit.linked
    have ne : leave ≠ entry := by
      rintro rfl
      rw [enterable] at closed
      cases closed
    have fields := isolated.others_eq leave leaveMem ne
    refine ⟨leave, ⟨listed, (isolated.link_eq id old false).trans exit.linked, ?_⟩,
      fields.enterable_eq.trans closed, ?_⟩
    · intro source side sourceListed led
      rcases isolated.link_cases sourceListed led with ⟨sourceMem, linked⟩ | ⟨-, -, toEntry⟩
      · exact exit.only sourceMem linked
      · exact absurd toEntry ne
    · rw [jumpTarget?, fields.last?_eq]
      exact final
  · cases kind_eq

theorem of_alike (leaves : g.GuardsLeave) (alike : g.Alike after) : after.GuardsLeave := by
  have same id := alike.content_eq id
  refine ⟨fun {id last} listed last_eq kind_eq => ?_⟩
  rw [(same id).last?_eq] at last_eq
  rw [alike.order_eq] at listed
  obtain ⟨leave, exit, closed, final⟩ := leaves.exit listed last_eq kind_eq
  refine ⟨leave, ⟨alike.order_eq ▸ exit.member, ?_, ?_⟩, (same leave).enterable_eq.trans closed, ?_⟩
  · rw [alike.link_eq, exit.linked]
  · intro source side sourceListed led
    rw [alike.link_eq] at led
    exact exit.only (alike.order_eq ▸ sourceListed) led
  · rw [jumpTarget?, (same leave).last?_eq]
    exact final

end GuardsLeave

theorem guardsLeave_passes (tied : g.Tied)
    (placed : ∀ id ∈ g.order, WellPlaced (g.segment id).instructions)
    (unguarded : ∀ {id last}, id ∈ g.order → (g.segment id).last? = some last →
      last.kind ≠ .cycleCheck) (options : BuildOptions) : (g.passes options).GuardsLeave := by
  have kept := LayoutKept.prepared tied placed options
  have prepared : (g.prepared options).GuardsLeave := by
    refine ⟨fun {id last} mem last_eq kind_eq => ?_⟩
    rw [kept.order_eq] at mem
    rcases (kept.each id mem).ending with ⟨same, -⟩ | ⟨plain, -⟩
    · exact absurd kind_eq (unguarded mem (same ▸ last_eq))
    · have notSuffix := plain last last_eq
      simp [Instruction.isSuffix, kind_eq] at notSuffix
  let Pending (g : Graph) (pending : List (SegmentId × Nat)) : Prop :=
    g.GuardsLeave ∧ ∀ loop ∈ pending, loop.1 ∈ g.order ∧ (g.segment loop.1).jumpTarget?.isSome
  refine (expansion_induction Pending kept.toTied ⟨prepared, ?_⟩ ?_
    And.left (fun tied _ enterable _ isolated leaves =>
      leaves.of_entryIsolated tied.numbered enterable isolated)
    fun _ alike leaves => leaves.of_alike alike).2
  · intro loop listed
    have known := mem_map_of_mem (f := Prod.fst) listed
    rw [zipIdx_map_fst] at known
    exact ⟨mem_of_mem_filter known, isSome_jumpTarget?_of_mem_loops known⟩
  · rintro before body number rest after numbered mem guarded ⟨leaves, pending⟩
    obtain ⟨⟨-, jumps⟩, pending⟩ := forall_mem_cons.mp pending
    refine ⟨leaves.of_loopGuarded numbered mem jumps guarded, fun loop listed => ?_⟩
    obtain ⟨loopMem, loopJumps⟩ := pending loop listed
    refine ⟨guarded.mem_order_iff.mpr (.inl loopMem), ?_⟩
    rw [jumpTarget?, LoopGuarded.last?_eq guarded loopMem]
    exact loopJumps

theorem guardsLeave_of_build (generated : Stream.generate memory options = .ok stream)
    (built : build stream buildOptions = .ok g) : g.GuardsLeave := by
  obtain ⟨base, made, rfl, -⟩ := of_build_eq_ok built
  obtain ⟨list, tiled, isBase, -⟩ := isBase_of_generate generated made
  refine guardsLeave_passes isBase.toTied (fun _ => isBase.wellPlaced tiled.arranged)
    (fun mem last_eq => ?_) buildOptions
  exact tiled.arranged.unguarded _ (isBase.mem_code mem (mem_of_getLast? last_eq)).1

end Dynarec.Graph
