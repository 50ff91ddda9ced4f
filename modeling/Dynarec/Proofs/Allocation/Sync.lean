import Dynarec.Proofs.Allocation.Soundness

/-!
# Loads and stores of subranges

The value that a subrange holds is secured if the subrange stores it, or if it
leaves its segment and is secured behind every link.  Where a register is
written the value is secured: at first every subrange with a write has a store,
and a store is delayed only if all paths lead to subranges that store.
-/

namespace Dynarec

open List Option Subrange

/-- A subrange after a store was moved from `id` to `endings`. -/
def Subrange.moved (id : SubrangeId) (endings : List SubrangeId) (other : SubrangeId)
    (sub : Subrange) : Subrange :=
  { sub with
    hasStore := (sub.hasStore || other ∈ endings) && other ≠ id
    hasDelayedStore := sub.hasDelayedStore || other = id }

theorem Subrange.link_bare (sub : Subrange) (side : Bool) : sub.bare.link side = sub.link side := by
  cases side <;> rfl

namespace Allocation

variable {alloc : Allocation} {endings : List SubrangeId} {id : SubrangeId}

/-! ## No store is delayed at first -/

/-- No subrange leaves its store to others. -/
def Undelayed (alloc : Allocation) : Prop :=
  ∀ id sub, alloc.subrange? id = some sub → sub.hasDelayedStore = false

theorem undelayed_buildRanges (liveness : Liveness) (g : Graph) (regs : Int) :
    (liveness.buildRanges (.empty g regs)).Undelayed := by
  refine buildRanges_induction (motive := Undelayed) _ ?_ (fun _ _ undelayed => undelayed) ?_ ?_
  · intro id sub found
    simp [subrange?, empty] at found
  · intro alloc range seg start stop locs undelayed id sub found
    rw [subrange?_addSubrange] at found
    split at found
    · cases found
      rfl
    · exact undelayed _ _ found
  · intro alloc linked taken notTaken undelayed id sub found
    rw [subrange?_modifySubrange] at found
    split at found
    · obtain ⟨old, oldFound, rfl⟩ := map_eq_some_iff.mp found
      have kept := undelayed _ _ oldFound
      exact kept
    · exact undelayed _ _ found

/-! ## Secured values -/

/-- A value is handed on behind every link of the segment of a subrange that leaves it. -/
def HandsOn (alloc : Allocation) (covers : SubrangeId → Prop) (sub : Subrange) : Prop :=
  sub.stop = .atExit ∧ ∀ side next, (alloc.segmentOf sub).link side = some next →
    ∃ id, sub.link side = some id ∧ covers id

/-- A value ends at a subrange, or is handed on within a collection. -/
def Hands (alloc : Allocation) (ends : Subrange → Prop) (covers : SubrangeId → Prop)
    (id : SubrangeId) : Prop :=
  ∃ sub, alloc.subrange? id = some sub ∧ (ends sub ∨ alloc.HandsOn covers sub)

/-- On every path behind a subrange its value is handed on until it ends. -/
def Handed (alloc : Allocation) (ends : Subrange → Prop) (id : SubrangeId) : Prop :=
  ∃ covers, (∀ other, covers other → alloc.Hands ends covers other) ∧ covers id

/-- The value that a subrange holds is stored where its range ends, on every path. -/
abbrev Delivered (alloc : Allocation) : SubrangeId → Prop :=
  alloc.Handed fun sub => sub.stop ≠ .atExit ∧ sub.hasStore = true

/-- The value that a subrange holds is stored by it or on every path behind it. -/
abbrev Secured (alloc : Allocation) : SubrangeId → Prop :=
  alloc.Handed fun sub => sub.hasStore = true

theorem HandsOn.mono {covers wider} (handsOn : alloc.HandsOn covers sub)
    (larger : ∀ id, covers id → wider id) : alloc.HandsOn wider sub := by
  refine ⟨handsOn.1, fun side next link => ?_⟩
  obtain ⟨id, continuation, covered⟩ := handsOn.2 side next link
  exact ⟨id, continuation, larger id covered⟩

theorem Handed.cases {ends} (handed : alloc.Handed ends id)
    (found : alloc.subrange? id = some sub) : ends sub ∨ alloc.HandsOn (alloc.Handed ends) sub := by
  obtain ⟨covers, hands, covered⟩ := handed
  obtain ⟨same, sameFound, cases⟩ := hands id covered
  cases found.symm.trans sameFound
  exact cases.imp_right (·.mono fun other inside => ⟨covers, hands, inside⟩)

theorem Handed.exists_subrange (handed : alloc.Handed ends id) :
    ∃ sub, alloc.subrange? id = some sub := by
  obtain ⟨covers, hands, covered⟩ := handed
  exact (hands id covered).imp fun _ => And.left

theorem Delivered.secured (delivered : alloc.Delivered id) : alloc.Secured id := by
  obtain ⟨covers, hands, covered⟩ := delivered
  refine ⟨covers, fun other inside => ?_, covered⟩
  obtain ⟨sub, found, cases⟩ := hands other inside
  exact ⟨sub, found, cases.imp_left And.right⟩

theorem secured_of_hasStore (found : alloc.subrange? id = some sub)
    (stored : sub.hasStore) : alloc.Secured id := by
  refine ⟨fun other => other = id, ?_, rfl⟩
  rintro _ rfl
  exact ⟨sub, found, .inl stored⟩

/-! ## The search for the ends of a value -/

/-- No subrange continues in one that was replaced. -/
def Continued (alloc : Allocation) : Prop :=
  ∀ {id sub side next}, alloc.subrange? id = some sub →
    sub.link side = some next → ∃ target, alloc.subrange? next = some target

theorem mem_continuations_iff {link} :
    (link, continuation) ∈ alloc.continuations sub ↔
      ∃ side, (alloc.segmentOf sub).link side = link ∧
        sub.link side = continuation ∧ link.isSome = true := by
  simp only [continuations, mem_filter, mem_cons, not_mem_nil, or_false,
    Prod.mk.injEq, Bool.exists_bool, Segment.link, Subrange.link]
  grind

theorem length_le_nextSubrange {ids : List SubrangeId} (nodup : ids.Nodup)
    (live : ∀ id ∈ ids, ∃ sub, alloc.subrange? id = some sub) :
    ids.length ≤ alloc.nextSubrange := by
  have inside : ids ⊆ List.range alloc.nextSubrange := by
    intro id mem
    obtain ⟨sub, found⟩ := live id mem
    exact mem_range.mpr (lt_nextSubrange_of_subrange? found)
  simpa using (nodup.subperm inside).length_le

/-- What a search says about a subrange that it met. -/
def Accounted (alloc : Allocation) (endings met : List SubrangeId) (id : SubrangeId) : Prop :=
  ∃ sub, alloc.subrange? id = some sub ∧
    (sub.hasDelayedStore ∨ sub.stop ≠ .atExit ∧ id ∈ endings ∨
      alloc.HandsOn (· ∈ met) sub)

/-- A search that met all that its work leads to. -/
structure Searched (alloc : Allocation) (work : List (SubrangeId × Nat))
    (visited found endings met : List SubrangeId) : Prop where
  visited_met : visited ⊆ met
  work_met : ∀ item ∈ work, item.1 ∈ met
  found_endings : found ⊆ endings
  accounted : ∀ id ∈ met, id ∉ visited → alloc.Accounted endings met id

theorem Searched.cons (more : List (SubrangeId × Nat))
    (searched : alloc.Searched (more ++ work) (id :: visited) wider endings met)
    (grown : found ⊆ wider) (accounted : alloc.Accounted endings met id) :
    alloc.Searched ((id, depth) :: work) visited found endings met where
  visited_met := fun other mem => searched.visited_met (mem_cons_of_mem id mem)
  work_met := by
    intro item mem
    cases mem_cons.mp mem with
    | inl equal =>
      rw [equal]
      exact searched.visited_met mem_cons_self
    | inr behind => exact searched.work_met item (mem_append_right more behind)
  found_endings := fun _ mem => searched.found_endings (grown mem)
  accounted := by
    intro other mem unvisited
    by_cases equal : other = id
    · exact equal ▸ accounted
    · exact searched.accounted other mem fun inside =>
        (mem_cons.mp inside).elim equal unvisited

/-- A search whose bound is large enough for its work and all subranges not visited yet. -/
structure Searching (alloc : Allocation) (bound : Nat) (work : List (SubrangeId × Nat))
    (visited : List SubrangeId) : Prop where
  enough : work.length + 2 * (alloc.nextSubrange - visited.length) ≤ bound
  nodup : visited.Nodup
  live : ∀ id ∈ visited, ∃ sub, alloc.subrange? id = some sub
  pending : ∀ item ∈ work, ∃ sub, alloc.subrange? item.1 = some sub

theorem Searching.visit (searching : alloc.Searching (bound + 1) ((id, depth) :: work) visited)
    (fresh : id ∉ visited) (more : List (SubrangeId × Nat)) (few : more.length ≤ 2)
    (live : ∀ item ∈ more, ∃ sub, alloc.subrange? item.1 = some sub) :
    alloc.Searching bound (more ++ work) (id :: visited) := by
  obtain ⟨first, others⟩ := forall_mem_cons.mp searching.pending
  have nodup := nodup_cons.mpr ⟨fresh, searching.nodup⟩
  have visitedLive : ∀ other ∈ id :: visited, ∃ sub, alloc.subrange? other = some sub :=
    forall_mem_cons.mpr ⟨first, searching.live⟩
  have room := length_le_nextSubrange nodup visitedLive
  have enough := searching.enough
  refine ⟨?_, nodup, visitedLive, ?_⟩
  · rw [length_cons] at enough room ⊢
    rw [length_append]
    lia
  · intro item mem
    exact (mem_append.mp mem).elim (live item) (others item)

theorem searched_of_endings (continued : alloc.Continued) {bound}
    (ended : alloc.endings bound work visited found = some endings)
    (searching : alloc.Searching bound work visited) :
    ∃ met, alloc.Searched work visited found endings met := by
  have finished visited found : ∃ met, alloc.Searched [] visited found found met :=
    ⟨visited, ⟨fun _ mem => mem, fun _ mem => absurd mem not_mem_nil,
      fun _ mem => mem, fun _ mem unvisited => absurd mem unvisited⟩⟩
  fun_induction alloc.endings bound work visited found with
  | case1 work visited found =>
    have enough := searching.enough
    cases ended
    rw [eq_nil_of_length_eq_zero (by lia : work.length = 0)]
    exact finished visited endings
  | case2 bound visited found =>
    cases ended
    exact finished visited endings
  | case3 => cases ended
  | case4 bound id depth work visited found shallow inside ih =>
    have enough := searching.enough
    rw [length_cons] at enough
    obtain ⟨met, searched⟩ := ih ended { searching with
      enough := by lia
      pending := (forall_mem_cons.mp searching.pending).2 }
    refine ⟨met, { searched with work_met := ?_ }⟩
    exact forall_mem_cons.mpr ⟨searched.visited_met inside, searched.work_met⟩
  | case5 bound id depth work visited found sub shallow fresh delayed ih =>
    obtain ⟨met, searched⟩ := ih ended (searching.visit fresh [] (by simp) (by simp))
    obtain ⟨known, live⟩ := (forall_mem_cons.mp searching.pending).1
    refine ⟨met, .cons [] searched (fun _ mem => mem) ⟨known, live, .inl ?_⟩⟩
    rwa [← subrange_eq_of_some live]
  | case6 => cases ended
  | case7 bound id depth work visited found sub shallow fresh prompt stays few
      ih =>
      obtain ⟨met, searched⟩ := ih ended (searching.visit fresh [] (by simp) (by simp))
      obtain ⟨known, live⟩ := (forall_mem_cons.mp searching.pending).1
      refine ⟨met, .cons [] searched (subset_append_left found [id])
        ⟨known, live, .inr (.inl ⟨?_, ?_⟩)⟩⟩
      · rwa [← subrange_eq_of_some live]
      · exact searched.found_endings (by simp)
  | case8 => cases ended
  | case9 bound id depth work visited found sub shallow fresh prompt leaves next complete
      ih =>
      obtain ⟨known, live⟩ := (forall_mem_cons.mp searching.pending).1
      have same : sub = known := subrange_eq_of_some live
      have few : ((next.filterMap (·.2)).map (·, depth + 1)).length ≤ 2 := by
        rw [length_map]
        exact (length_filterMap_le _ _).trans (length_filter_le _ _)
      have targets : ∀ item ∈ (next.filterMap (·.2)).map (·, depth + 1),
          ∃ sub, alloc.subrange? item.1 = some sub := by
        intro item mem
        obtain ⟨target, listed, rfl⟩ := mem_map.mp mem
        obtain ⟨⟨link, _⟩, continues, rfl⟩ := mem_filterMap.mp listed
        obtain ⟨side, -, continuation, -⟩ := mem_continuations_iff.mp continues
        rw [same] at continuation
        exact continued live continuation
      obtain ⟨met, searched⟩ := ih ended (searching.visit fresh _ few targets)
      refine ⟨met, .cons _ searched (fun _ mem => mem) ⟨known, live, .inr (.inr ⟨?_, ?_⟩)⟩⟩
      · rw [← same]
        exact not_not.mp leaves
      · intro side target link
        have listed : (some target, known.link side) ∈ next := by
          rw [← same] at link ⊢
          exact mem_continuations_iff.mpr ⟨side, link, rfl, rfl⟩
        cases continuation : known.link side with
        | none =>
          rw [continuation] at listed
          exact absurd (any_eq_true.mpr ⟨_, listed, rfl⟩) complete
        | some following =>
          rw [continuation] at listed
          refine ⟨following, rfl, searched.work_met (following, depth + 1) ?_⟩
          refine mem_append_left work (mem_map_of_mem ?_)
          exact mem_filterMap.mpr ⟨_, listed, rfl⟩

/-! ## Changes of loads and stores -/

/-- Only the loads and stores of subranges and the work done changed. -/
structure Resyncs (before after : Allocation) : Prop where
  graph_eq : after.graph = before.graph
  registers_eq : after.registers = before.registers
  ranges_eq : after.ranges = before.ranges
  bySegment_eq : after.bySegment = before.bySegment
  nextSubrange_eq : after.nextSubrange = before.nextSubrange
  subrange?_bare : ∀ id, (after.subrange? id).map bare = (before.subrange? id).map bare

namespace Resyncs

theorem refl (alloc : Allocation) : alloc.Resyncs alloc := ⟨rfl, rfl, rfl, rfl, rfl, fun _ => rfl⟩

theorem trans {first second third : Allocation} (resyncs : first.Resyncs second)
    (further : second.Resyncs third) : first.Resyncs third where
  graph_eq := further.graph_eq.trans resyncs.graph_eq
  registers_eq := further.registers_eq.trans resyncs.registers_eq
  ranges_eq := further.ranges_eq.trans resyncs.ranges_eq
  bySegment_eq := further.bySegment_eq.trans resyncs.bySegment_eq
  nextSubrange_eq := further.nextSubrange_eq.trans resyncs.nextSubrange_eq
  subrange?_bare := fun id => (further.subrange?_bare id).trans (resyncs.subrange?_bare id)

theorem modifySubrange (alloc : Allocation) (id : SubrangeId) (change : Subrange → Subrange)
    (bare_eq : ∀ sub, (change sub).bare = sub.bare) :
    alloc.Resyncs (alloc.modifySubrange id change) where
  graph_eq := rfl
  registers_eq := rfl
  ranges_eq := rfl
  bySegment_eq := rfl
  nextSubrange_eq := nextSubrange_modifySubrange id change
  subrange?_bare := by
    intro other
    rw [subrange?_modifySubrange]
    split
    · cases alloc.subrange? other with
      | none => rfl
      | some sub => exact congrArg some (bare_eq sub)
    · rfl

theorem foldl_modifySubrange (alloc : Allocation) (ids : List SubrangeId)
    (change : Subrange → Subrange) (bare_eq : ∀ sub, (change sub).bare = sub.bare) :
    alloc.Resyncs (ids.foldl (·.modifySubrange · change) alloc) := by
  refine List.foldlRecOn (motive := fun after => alloc.Resyncs after) _ _ (refl _) ?_
  intro after resyncs id _
  exact resyncs.trans (modifySubrange after id change bare_eq)

theorem tally (alloc : Allocation) (change : AllocationStats → AllocationStats) :
    alloc.Resyncs (alloc.tally change) :=
  ⟨rfl, rfl, rfl, rfl, rfl, fun _ => rfl⟩

variable {before after : Allocation} (resyncs : before.Resyncs after)

include resyncs

theorem range?_eq (id : RangeId) : after.range? id = before.range? id := by
  rw [range?, resyncs.ranges_eq, range?]

theorem origin (found : after.subrange? id = some sub) :
    ∃ old, before.subrange? id = some old ∧ old.bare = sub.bare := by
  have equal := resyncs.subrange?_bare id
  rw [found, map_some] at equal
  exact map_eq_some_iff.mp equal.symm

theorem image (found : before.subrange? id = some sub) :
    ∃ now, after.subrange? id = some now ∧ now.bare = sub.bare := by
  have equal := resyncs.subrange?_bare id
  rw [found, map_some] at equal
  exact map_eq_some_iff.mp equal

theorem adjusts (coherent : before.Coherent) : before.Adjusts after where
  graph_eq := resyncs.graph_eq
  registers_eq := resyncs.registers_eq
  size_eq := by rw [resyncs.bySegment_eq]
  subrange?_bare := resyncs.subrange?_bare
  range?_eq id := by rw [resyncs.range?_eq]
  lists := by
    refine ⟨fun {seg id} => ?_, fun seg => ?_⟩ <;> rw [idsIn, resyncs.bySegment_eq]
    · refine coherent.lists.mem_idsIn.trans ⟨?_, ?_⟩
      · rintro ⟨sub, found, here⟩
        obtain ⟨now, nowFound, same⟩ := resyncs.image found
        exact ⟨now, nowFound, (congrArg segment same).trans here⟩
      · rintro ⟨sub, found, here⟩
        obtain ⟨old, oldFound, same⟩ := resyncs.origin found
        exact ⟨old, oldFound, (congrArg segment same).trans here⟩
    · exact coherent.lists.nodup_idsIn seg

theorem continued (continued : before.Continued) : after.Continued := by
  intro id sub side next found link
  obtain ⟨old, oldFound, same⟩ := resyncs.origin found
  have link_eq : old.link side = sub.link side := by
    rw [← link_bare, same, link_bare]
  obtain ⟨target, targetFound⟩ := continued oldFound (link_eq.trans link)
  obtain ⟨now, nowFound, -⟩ := resyncs.image targetFound
  exact ⟨now, nowFound⟩

theorem sound (sound : before.Sound) : after.Sound where
  coherent := (resyncs.adjusts sound.coherent).coherent sound.coherent
  exclusive := ((resyncs.adjusts sound.coherent).refines sound.coherent).exclusive
    (fun live _ => resyncs.range?_eq _ ▸ live) sound.exclusive
  nonnegative := resyncs.registers_eq.symm ▸ sound.nonnegative

end Resyncs

/-- A change that makes no difference the second time, made for several subranges. -/
theorem subrange?_foldl_modifySubrange (change : Subrange → Subrange)
    (idempotent : ∀ sub, change (change sub) = change sub) (alloc : Allocation)
    (ids : List SubrangeId) (other : SubrangeId) :
    (ids.foldl (·.modifySubrange · change) alloc).subrange? other =
      if other ∈ ids then (alloc.subrange? other).map change else alloc.subrange? other := by
  induction ids generalizing alloc with
  | nil => simp
  | cons id ids ih =>
    rw [foldl_cons, ih, subrange?_modifySubrange]
    by_cases equal : id = other
    · subst equal
      cases alloc.subrange? id with
      | none => simp
      | some sub => simp [idempotent]
    · have ne : other ≠ id := Ne.symm equal
      simp [equal, ne]

/-! ## The analysis -/

/-- Loads are left out only where nothing is lost, and written values are stored at once or
delivered. -/
structure Synced (alloc : Allocation) : Prop where
  noLoad_eq : ∀ {id sub}, alloc.subrange? id = some sub →
    sub.noLoad = (writesFirst sub.locations || sub.start = .atEntry)
  written : ∀ {id sub}, alloc.subrange? id = some sub → sub.locations.any (·.write) →
    sub.hasStore ∨ sub.hasDelayedStore
  delayed : ∀ {id sub}, alloc.subrange? id = some sub →
    sub.hasDelayedStore → sub.stop = .atExit ∧ alloc.Delivered id

theorem Synced.secured (synced : alloc.Synced) (found : alloc.subrange? id = some sub)
    (writes : sub.locations.any (·.write)) : alloc.Secured id := by
  cases synced.written found writes with
  | inl stored => exact secured_of_hasStore found stored
  | inr delayed => exact (synced.delayed found delayed).2.secured

theorem delayStore_cases (alloc : Allocation) (id : SubrangeId) :
    alloc.delayStore id = alloc ∨ ∃ endings, (alloc.subrange id).stop = .atExit ∧
        (alloc.subrange id).hasStore ∧ alloc.writeEndings id = some endings ∧
        alloc.Resyncs (alloc.delayStore id) ∧ ∀ other, (alloc.delayStore id).subrange? other =
          (alloc.subrange? other).map (moved id endings other) := by
  unfold delayStore
  extract_lets sub
  split
  · exact .inl rfl
  next leaves =>
    simp only [Bool.or_eq_true, decide_eq_true_eq, Bool.not_eq_true', not_or, not_not,
      Bool.not_eq_false] at leaves
    cases ended : alloc.writeEndings id with
    | none => exact .inl rfl
    | some endings =>
      simp only
      split
      · refine .inr ⟨endings, leaves.1, leaves.2, rfl, ?_, ?_⟩
        · have stored := Resyncs.foldl_modifySubrange alloc endings
            ({ · with hasStore := true }) fun _ => rfl
          refine (stored.trans (.modifySubrange _ id _ ?_)).trans (.tally _ _)
          exact fun _ => rfl
        · intro other
          rw [subrange?_tally, subrange?_modifySubrange,
            subrange?_foldl_modifySubrange ({ · with hasStore := true }) (fun _ => rfl)]
          cases alloc.subrange? other with
          | none => simp
          | some sub =>
            by_cases equal : id = other
            · subst equal
              by_cases listed : id ∈ endings <;> simp [moved, listed]
            · have ne : other ≠ id := Ne.symm equal
              by_cases listed : other ∈ endings <;>
                simp [moved, listed, equal, ne]
      · exact .inl rfl

theorem searched_of_writeEndings (continued : alloc.Continued)
    (found : alloc.subrange? id = some sub) (ended : alloc.writeEndings id = some endings) :
    ∃ met, id ∈ met ∧ ∀ other ∈ met, alloc.Accounted endings met other := by
  have searching : alloc.Searching (2 * alloc.subranges.size + 2) [(id, 0)] [] :=
    ⟨by simp only [nextSubrange, length_singleton, length_nil]; lia, nodup_nil,
      fun _ mem => absurd mem not_mem_nil,
      fun item mem => ⟨sub, mem_singleton.mp mem ▸ found⟩⟩
  obtain ⟨met, searched⟩ := searched_of_endings continued ended searching
  exact ⟨met, searched.work_met (id, 0) mem_cons_self,
    fun other mem => searched.accounted other mem not_mem_nil⟩

theorem HandsOn.moved {before after : Allocation} {covers}
    (handsOn : before.HandsOn covers sub) (graph_eq : after.graph = before.graph)
    (id : SubrangeId) (endings : List SubrangeId) (other : SubrangeId) :
    after.HandsOn covers (sub.moved id endings other) := by
  refine ⟨handsOn.1, fun side next link => ?_⟩
  rw [segmentOf, graph_eq] at link
  obtain ⟨following, continuation, covered⟩ := handsOn.2 side next link
  refine ⟨following, ?_, covered⟩
  cases side with
  | true => exact continuation
  | false => exact continuation

theorem Synced.delayStore (synced : alloc.Synced) (continued : alloc.Continued) (id : SubrangeId) :
    alloc.Resyncs (alloc.delayStore id) ∧ (alloc.delayStore id).Synced := by
  rcases delayStore_cases alloc id with
    equal | ⟨endings, leaves, stored, ended, resyncs, view⟩
  · rw [equal]
    exact ⟨.refl alloc, synced⟩
  refine ⟨resyncs, ?_⟩
  generalize alloc.delayStore id = after at resyncs view
  obtain ⟨known, found⟩ : ∃ known, alloc.subrange? id = some known := by
    cases live : alloc.subrange? id with
    | some known => exact ⟨known, rfl⟩
    | none =>
      rw [Allocation.subrange, live] at leaves
      cases leaves
  rw [subrange_eq_of_some found] at leaves stored
  obtain ⟨met, here, accounted⟩ := searched_of_writeEndings continued found ended
  -- What was delivered before still is, and so is all that the search met.
  let covers (other : SubrangeId) : Prop := alloc.Delivered other ∨ other ∈ met
  let ends (sub : Subrange) : Prop := sub.stop ≠ .atExit ∧ sub.hasStore
  have delivering : ∀ other, covers other → after.Hands ends covers other := by
    have handedOn {other sub} (live : alloc.subrange? other = some sub)
        (handsOn : alloc.HandsOn covers sub) : after.Hands ends covers other :=
      ⟨_, by rw [view, live, map_some], .inr (handsOn.moved resyncs.graph_eq _ _ _)⟩
    have stores {other : SubrangeId} {sub : Subrange} (live : alloc.subrange? other = some sub)
        (stays : sub.stop ≠ .atExit) (stores : sub.hasStore ∨ other ∈ endings) :
        after.Hands ends covers other := by
      have ne : other ≠ id := by
        rintro rfl
        cases found.symm.trans live
        exact stays leaves
      exact ⟨sub.moved id endings other, by rw [view, live, map_some],
        .inl ⟨stays, by simpa [moved, ne] using stores⟩⟩
    have delivered {other} (delivered : alloc.Delivered other) : after.Hands ends covers other := by
      obtain ⟨sub, live⟩ := delivered.exists_subrange
      rcases delivered.cases live with ⟨stays, stored⟩ | handsOn
      · exact stores live stays (.inl stored)
      · exact handedOn live (handsOn.mono fun _ => .inl)
    rintro other (before | mem)
    · exact delivered before
    · obtain ⟨sub, live, delayed | ⟨stays, ends⟩ | handsOn⟩ := accounted other mem
      · exact delivered (synced.delayed live delayed).2
      · exact stores live stays (.inr ends)
      · exact handedOn live (handsOn.mono fun _ => .inr)
  constructor
  · intro other sub now
    rw [view] at now
    obtain ⟨old, live, rfl⟩ := map_eq_some_iff.mp now
    have noLoad := synced.noLoad_eq live
    exact noLoad
  · intro other sub now writes
    rw [view] at now
    obtain ⟨old, live, rfl⟩ := map_eq_some_iff.mp now
    by_cases equal : other = id
    · exact .inr (by simp [moved, equal])
    · refine (synced.written live writes).imp (fun stored => ?_) fun delayed => ?_
      · simp [moved, stored, equal]
      · simp [moved, delayed]
  · intro other sub now delayed
    rw [view] at now
    obtain ⟨old, live, rfl⟩ := map_eq_some_iff.mp now
    by_cases equal : other = id
    · subst equal
      cases found.symm.trans live
      exact ⟨leaves, covers, delivering, .inr here⟩
    · have before : old.hasDelayedStore = true := by simpa [moved, equal] using delayed
      obtain ⟨exit, delivered⟩ := synced.delayed live before
      exact ⟨exit, covers, delivering, .inl delivered⟩

/-- Ranges list exactly their subranges. -/
structure Owned (alloc : Allocation) : Prop where
  range_live : ∀ {id sub}, alloc.subrange? id = some sub →
    ∃ range, alloc.range? sub.range = some range
  mem_subranges : ∀ {id range}, alloc.range? id = some range → ∀ {member},
    member ∈ range.subranges ↔ ∃ sub, alloc.subrange? member = some sub ∧ sub.range = id

theorem Coherent.owned (coherent : alloc.Coherent) : alloc.Owned :=
  ⟨coherent.range_live, coherent.mem_subranges⟩

theorem mem_memberIds (owned : alloc.Owned) (found : alloc.subrange? id = some sub) :
    id ∈ alloc.memberIds := by
  obtain ⟨range, live⟩ := owned.range_live found
  rw [memberIds, mem_flatMap]
  exact ⟨range, mem_liveRanges_iff.mpr ⟨_, live⟩, (owned.mem_subranges live).mpr ⟨sub, found, rfl⟩⟩

theorem synced_of_sync {before after : Allocation} (undelayed : before.Undelayed)
    (view : ∀ id, after.subrange? id = (before.subrange? id).map sync) : after.Synced := by
  constructor
  · intro id sub found
    rw [view] at found
    obtain ⟨old, live, rfl⟩ := map_eq_some_iff.mp found
    rfl
  · intro id sub found writes
    rw [view] at found
    obtain ⟨old, live, rfl⟩ := map_eq_some_iff.mp found
    exact .inl writes
  · intro id sub found delayed
    rw [view] at found
    obtain ⟨old, live, rfl⟩ := map_eq_some_iff.mp found
    have prompt := undelayed id old live
    rw [show old.sync.hasDelayedStore = old.hasDelayedStore from rfl, prompt] at delayed
    cases delayed

theorem resyncs_analyzeSync (alloc : Allocation) : alloc.Resyncs alloc.analyzeSync := by
  have first := Resyncs.foldl_modifySubrange alloc alloc.memberIds sync
    fun _ => rfl
  refine List.foldlRecOn (motive := fun after => alloc.Resyncs after) _ _ first ?_
  intro after resyncs id _
  rcases delayStore_cases after id with equal | ⟨_, -, -, -, further, -⟩
  · rwa [equal]
  · exact resyncs.trans further

theorem synced_analyzeSync (owned : alloc.Owned) (continued : alloc.Continued)
    (undelayed : alloc.Undelayed) : alloc.Resyncs alloc.analyzeSync ∧ alloc.analyzeSync.Synced := by
  have first := Resyncs.foldl_modifySubrange alloc alloc.memberIds sync
    fun _ => rfl
  have view := subrange?_foldl_modifySubrange sync (fun _ => rfl) alloc alloc.memberIds
  unfold analyzeSync
  extract_lets prepared
  have synced : prepared.Synced := by
    refine synced_of_sync undelayed fun id => (view id).trans ?_
    cases found : alloc.subrange? id with
    | none => simp
    | some sub => rw [if_pos (mem_memberIds owned found)]
  refine List.foldlRecOn (motive := fun (after : Allocation) => alloc.Resyncs after ∧
    after.Synced) _ _ ⟨first, synced⟩ ?_
  rintro after ⟨resyncs, synced⟩ id _
  obtain ⟨further, still⟩ := synced.delayStore (resyncs.continued continued) id
  exact ⟨resyncs.trans further, still⟩

end Allocation
end Dynarec
