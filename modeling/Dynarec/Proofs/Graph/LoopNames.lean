import Dynarec.Proofs.Graph.Validity

/-!
# The names of guarded loops

A loop body behind a guard is given a name of its own, and the guard takes over
the one that it had.  So the names are those that jumps led to before and one
for each loop, and they differ unless a segment begins at the name of a loop.
-/

namespace Dynarec

open Dynarec.Stream List Segment

/-- The address that jumps lead to a segment by. -/
def Segment.name? (seg : Segment) : Option Address :=
  if seg.isDestination then some seg.jumpAddress else none

theorem Segment.SameFields.name?_eq {seg other : Segment} (same : seg.SameFields other) :
    seg.name? = other.name? := by
  rw [name?, name?, same.isDestination_eq, same.jumpAddress_eq]

namespace Graph

variable {g after : Graph}

/-- The addresses that jumps can lead to, once for each segment that has them. -/
def names (g : Graph) : List Address :=
  g.inOrder.filterMap name?

theorem mem_names_iff :
    addr ∈ g.names ↔ ∃ id ∈ g.order, (g.segment id).isDestination ∧
      (g.segment id).jumpAddress = addr := by
  simp only [names, inOrder, name?, mem_filterMap, mem_map, exists_exists_and_eq_and,
    Option.ite_none_right_eq_some, Option.some.injEq]

theorem LoopGuarded.perm_names {body} {name : Address} (numbered : g.Numbered)
    (mem : body ∈ g.order) (guarded : g.LoopGuarded body name after) :
    after.names.Perm (name :: g.names) := by
  have rest := perm_cons_erase mem
  have order : after.order.Perm (body :: (g.nextId + 1) :: (g.nextId + 2) ::
      g.nextId :: g.order.erase body) := by
    refine perm_iff_count.mpr fun id => ?_
    have whole := congrArg (count id) (take_append_drop (g.segment body).position g.order)
    have split := rest.count_eq id
    rw [count_append] at whole
    simp only [guarded.order_eq, count_append, count_cons, count_nil] at split ⊢
    omega
  have kept : ((g.order.erase body).map after.segment).filterMap name? =
      ((g.order.erase body).map g.segment).filterMap name? := by
    rw [filterMap_map, filterMap_map]
    refine filterMap_congr fun id listed =>
      (guarded.others_eq id (mem_of_mem_erase listed) ?_).name?_eq
    rintro rfl
    exact numbered.nodup_order.not_mem_erase listed
  refine ((order.map after.segment).filterMap _).trans ?_
  refine .trans ?_ (((rest.map g.segment).filterMap _).symm.cons name)
  simp only [map_cons, filterMap_cons, kept, guarded.body_eq.name?_eq, guarded.guard_eq.name?_eq,
    guarded.leave_eq.name?_eq, guarded.entry_eq.name?_eq]
  exact .refl _

theorem perm_names_guardLoops (tied : g.Tied) :
    g.guardLoops.names.Perm (g.names ++ (range g.loops.length).map loopName) := by
  let all := g.names ++ g.loops.zipIdx.map (loopName ∘ Prod.snd)
  obtain ⟨guarded, -, done, alike⟩ := guardLoops_induction (motive := fun before pending =>
      (before.names ++ pending.map (loopName ∘ Prod.snd)).Perm all) tied (.refl _) (by
      intro before id number rest after numbered mem guarded perm
      refine .trans ?_ perm
      refine ((guarded.perm_names numbered mem).append_right _).trans ?_
      exact perm_middle.symm)
  have names_eq : g.guardLoops.names = guarded.names := by
    rw [names, names, inOrder, inOrder, alike.order_eq, filterMap_map, filterMap_map]
    exact filterMap_congr fun id _ => (alike.content_eq id).name?_eq
  rw [map_nil, append_nil] at done
  rw [names_eq]
  refine done.trans (.of_eq (congrArg _ ?_))
  rw [← map_map, zipIdx_map_snd, range_eq_range']

theorem nodup_names_guardLoops_iff (tied : g.Tied) (distinct : g.names.Nodup)
    (few : g.loops.length ≤ 2 ^ 32) :
    g.guardLoops.names.Nodup ↔ ∀ number < g.loops.length, loopName number ∉ g.names := by
  have apart : ((range g.loops.length).map loopName).Nodup := by
    refine Nodup.map_on (fun first firstListed second secondListed same => ?_) nodup_range
    rw [mem_range] at firstListed secondListed
    exact loopName_inj (by omega) (by omega) same
  rw [(perm_names_guardLoops tied).nodup_iff, nodup_append_comm, nodup_append']
  simp only [apart, distinct, true_and, disjoint_left, mem_map, mem_range, forall_exists_index,
    and_imp, forall_apply_eq_imp_iff₂]

section

variable {start : SegmentId → Address} (numbered : g.Numbered)
  (ascends : ∀ {id other}, id ∈ g.order → other ∈ g.order → id < other →
    (g.segment other).opens → start id < start other)

include numbered ascends

theorem nodup_names (named : ∀ {id}, id ∈ g.order →
      (g.segment id).isDestination → (g.segment id).jumpAddress = start id) :
    g.names.Nodup := by
  have of_name {id addr} (mem : id ∈ g.order) (found : (g.segment id).name? = some addr) :
      (g.segment id).opens ∧ start id = addr := by
    obtain ⟨isDestination, same⟩ := Option.ite_none_right_eq_some.mp found
    exact ⟨by simp [opens, isDestination], (named mem isDestination).symm.trans
      (Option.some.inj same)⟩
  rw [names, inOrder, filterMap_map]
  refine pairwise_filterMap.mpr (numbered.nodup_order.imp_of_mem ?_)
  rintro id other mem otherMem ne addr found _ otherFound rfl
  obtain ⟨opens, begins⟩ := of_name mem found
  obtain ⟨otherOpens, otherBegins⟩ := of_name otherMem otherFound
  exact ne (eq_of_opens ascends mem otherMem opens otherOpens (begins.trans otherBegins.symm))

theorem length_loops_le : g.loops.length ≤ 2 ^ 32 := by
  have distinct := (nodup_loops ascends numbered).map fun _ _ => UInt32.toNat_inj.mp
  have bounded : (g.loops.map start).map UInt32.toNat ⊆ range (2 ^ 32) := by
    intro number listed
    obtain ⟨addr, -, rfl⟩ := mem_map.mp listed
    exact mem_range.mpr addr.toNat_lt
  have few := (distinct.subperm bounded).length_le
  rwa [length_map, length_map, length_range] at few

end

/-- The names that jumps lead to after loops were guarded differ if and only if none of the code
is the name of a loop, as for every function that fits. -/
theorem guarded_names_differ_iff
    {memory : Memory}
    {options : Stream.Options}
    {stream : Stream}
    (generated : generate memory options = .ok stream)
    (aligned : stream.entry.toNat % 4 = 0)
    (buildOptions : BuildOptions) :
    ∃ base, ofStream stream = .ok base ∧
      ((base.prepared buildOptions).guardLoops.names.Nodup ↔
        ∀ number < (base.prepared buildOptions).loops.length,
          loopName number ∉ (base.prepared buildOptions).names) ∧
      (stream.Fits → (base.prepared buildOptions).guardLoops.names.Nodup) := by
  obtain ⟨list, tiled, -⟩ := exists_tiled generated
  obtain ⟨base, made⟩ := exists_ofStream_of_tiled tiled aligned
  obtain ⟨isBase, -⟩ := isBase_of_tiled tiled made
  have kept : base.LayoutKept (base.prepared buildOptions) :=
    .prepared isBase.toTied (fun _ => isBase.wellPlaced tiled.arranged) buildOptions
  generalize prepared_eq : base.prepared buildOptions = prepared at *
  have ascends {id other : SegmentId} (mem : id ∈ prepared.order)
      (otherMember : other ∈ prepared.order) (earlier : id < other)
      (opens : (prepared.segment other).opens = true) :
      startAt (stream.trimmed list) id < startAt (stream.trimmed list) other := by
    rw [kept.order_eq] at mem otherMember
    exact isBase.start_lt tiled.arranged mem otherMember earlier
      ((kept.each other otherMember).opens opens)
  have named {id : SegmentId} (mem : id ∈ prepared.order)
      (isDestination : (prepared.segment id).isDestination = true) :
      (prepared.segment id).jumpAddress = startAt (stream.trimmed list) id := by
    rw [kept.order_eq] at mem
    have each := kept.each id mem
    rw [each.jumpAddress_eq]
    exact isBase.jumpAddress_of_isDestination mem (each.isDestination_eq ▸ isDestination)
  have differ := nodup_names_guardLoops_iff kept.toTied (nodup_names kept.numbered ascends named)
    (length_loops_le kept.numbered ascends)
  refine ⟨base, made, prepared_eq ▸ differ, fun fits => ?_⟩
  have guardable :=
    (prepared_of_bounded tiled fits.bounded made buildOptions).guardable tiled fits
  rw [prepared_eq] at guardable ⊢
  refine differ.mpr fun number inside listed => ?_
  obtain ⟨id, mem, isDestination, same⟩ := mem_names_iff.mp listed
  exact guardable.fresh (prepared.loops[number], number)
    (mem_zipIdx_iff_getElem?.mpr (getElem?_eq_getElem inside)) id mem isDestination same

theorem guarded_names_differ_saving :
    ∃ stream base, generate saving { entry := 0x1000, count := 6 } = .ok stream ∧
      ofStream stream = .ok base ∧ (base.prepared {}).guardLoops.names.Nodup := by
  obtain ⟨stream, graph, generated, fits, -⟩ := exists_saving
  obtain ⟨base, made, -, differ⟩ := guarded_names_differ_iff generated fits.aligned {}
  exact ⟨stream, base, generated, made, differ fits⟩

/-- A loop whose own address is the first name of loops is named as its guard is. -/
theorem guarded_names_clash :
    ∃ stream base, generate spinning { entry := 0xFF000000, count := 1 } = .ok stream ∧
      stream.entry.toNat % 4 = 0 ∧ ofStream stream = .ok base ∧
      ¬ (base.prepared {}).guardLoops.names.Nodup := by
  have evaluated : ((generate spinning { entry := 0xFF000000, count := 1 }).toOption.any
      fun stream => stream.entry.toNat % 4 = 0 && (ofStream stream).toOption.any
        fun base => ¬ (base.prepared {}).guardLoops.names.Nodup) = true := by
    decide +kernel
  obtain ⟨stream, generated, evaluated⟩ := of_any_toOption evaluated
  rw [Bool.and_eq_true, decide_eq_true_eq] at evaluated
  obtain ⟨aligned, evaluated⟩ := evaluated
  obtain ⟨base, made, clash⟩ := of_any_toOption evaluated
  exact ⟨stream, base, generated, aligned, made, of_decide_eq_true clash⟩

end Graph

end Dynarec
