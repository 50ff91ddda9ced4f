import Dynarec.Proofs.Graph.Validity

/-!
# Ways between segments

Guards and trampolines are put between segments that exist.  From each of them
a way leads to a segment that was there before: over segment jumps, and over
checks that leave at the lowest address of that segment.
-/

namespace Dynarec

open List

/-- The address by which a segment is entered: its own or, if it has none, the lowest of its
code. -/
def Segment.entrance (seg : Segment) : Address :=
  if seg.enterable then seg.enterAddress else seg.lowest

namespace Graph

variable {orig g after : Graph}

/-- What a check of a loop does when no cycles remain: it leaves at the lowest address of the
loop body. -/
structure Leaves (orig g : Graph) (leave body : SegmentId) : Prop where
  new : leave ∉ orig.order
  member : leave ∈ g.order
  code_eq : (g.segment leave).instructions =
    [.ofRoutine .leave (orig.segment body).lowest 0]
  unlinked : (g.segment leave).link false = none

inductive Way (orig g : Graph) : SegmentId → SegmentId → Prop
  | direct {id : SegmentId} (member : id ∈ orig.order) : Way orig g id id
  | jump {id next target : SegmentId} (new : id ∉ orig.order) (member : id ∈ g.order)
      (code_eq : (g.segment id).instructions = [.segmentJump])
      (linked : (g.segment id).link true = some next) (way : Way orig g next target) :
      Way orig g id target
  | check {id next leave target : SegmentId} {name : Address} (new : id ∉ orig.order)
      (member : id ∈ g.order) (code_eq : (g.segment id).instructions = [.cycleCheck name])
      (linked : (g.segment id).link true = some next)
      (declined : (g.segment id).link false = some leave) (leaves : Leaves orig g leave target)
      (closes : (orig.segment target).needsCycleCheck) (way : Way orig g next target) :
      Way orig g id target

namespace Way

variable {id : SegmentId} (way : Way orig g id target)

include way

theorem target_mem : target ∈ orig.order := by
  induction way with
  | direct mem => exact mem
  | jump _ _ _ _ _ ih => exact ih
  | check _ _ _ _ _ _ _ _ ih => exact ih

theorem target_eq (mem : id ∈ orig.order) : target = id := by
  cases way with
  | direct => rfl
  | jump new => exact absurd mem new
  | check new => exact absurd mem new

end Way

/-- A check in front of a loop body leaves by an exit. -/
structure Yields (orig g : Graph) (leave body : SegmentId) : Prop where
  guarded : ∃ guard ∈ g.order, ∃ name, (g.segment guard).instructions = [.cycleCheck name] ∧
      (g.segment guard).link false = some leave
  leaves : Leaves orig g leave body
  closes : (orig.segment body).needsCycleCheck

/-- A graph in which every link still leads where it led, perhaps over new segments. -/
structure Expands (orig g : Graph) : Prop where
  originals : ∀ {id}, id ∈ orig.order → id ∈ g.order
  code_eq : ∀ {id}, id ∈ orig.order →
    (g.segment id).instructions = (orig.segment id).instructions
  unlinked : ∀ {id side}, id ∈ orig.order → (orig.segment id).link side = none →
    (g.segment id).link side = none
  links : ∀ {id side next}, id ∈ orig.order → (orig.segment id).link side = some next →
    ∃ first, (g.segment id).link side = some first ∧ Way orig g first next

/-- From every entry of a graph, a way leads to a segment that is entered there. -/
structure Admits (orig g : Graph) : Prop where
  leads : ∀ {id}, id ∈ g.order → (g.segment id).enterable → ∃ target, Way orig g id target ∧
      (g.segment id).enterAddress = (orig.segment target).entrance ∧
      ((orig.segment target).enterable ∨ (orig.segment target).needsCycleCheck)
  covers : ∀ {address}, orig.EntersAt address → g.EntersAt address

theorem Expands.refl (numbered : g.Numbered) : g.Expands g :=
  ⟨fun mem => mem, fun _ => rfl, fun _ unlinked => unlinked,
    fun mem linked => ⟨_, linked, .direct (numbered.link_mem mem linked)⟩⟩

theorem Admits.refl : g.Admits g :=
  ⟨fun mem enterable => ⟨_, .direct mem, (if_pos enterable).symm, .inl enterable⟩, id⟩

/-- A change that leads links to segments that were there at the start over new segments at most. -/
structure Reroutes (orig g after : Graph) : Prop where
  members : ∀ {id}, id ∈ g.order → id ∈ after.order
  code_eq : ∀ {id}, id ∈ g.order →
    (after.segment id).instructions = (g.segment id).instructions
  unlinked : ∀ {id side}, id ∈ g.order → (g.segment id).link side = none →
    (after.segment id).link side = none
  links : ∀ {id side next}, id ∈ g.order → (g.segment id).link side = some next →
    (after.segment id).link side = some next ∨
      next ∈ orig.order ∧ ∃ first, (after.segment id).link side = some first ∧
        Way orig after first next

namespace Reroutes

variable (reroutes : Reroutes orig g after)

include reroutes

theorem leaves (leaves : Leaves orig g leave body) : Leaves orig after leave body :=
  ⟨leaves.new, reroutes.members leaves.member,
    (reroutes.code_eq leaves.member).trans leaves.code_eq,
    reroutes.unlinked leaves.member leaves.unlinked⟩

theorem way {id target} (way : Way orig g id target) : Way orig after id target := by
  induction way with
  | direct mem => exact .direct mem
  | jump new mem code_eq linked way ih =>
    have code_eq := (reroutes.code_eq mem).trans code_eq
    have member' := reroutes.members mem
    rcases reroutes.links mem linked with same | ⟨known, first, led, longer⟩
    · exact .jump new member' code_eq same ih
    · rw [way.target_eq known]
      exact .jump new member' code_eq led longer
  | check new mem code_eq linked declined leaves closes way ih =>
    have code_eq := (reroutes.code_eq mem).trans code_eq
    have member' := reroutes.members mem
    have declined' := (reroutes.links mem declined).resolve_right
      fun redirected => leaves.new redirected.1
    rcases reroutes.links mem linked with same | ⟨known, first, led, longer⟩
    · exact .check new member' code_eq same declined' (reroutes.leaves leaves) closes ih
    · obtain rfl := way.target_eq known
      exact .check new member' code_eq led declined' (reroutes.leaves leaves) closes longer

theorem expands (expands : orig.Expands g) : orig.Expands after := by
  refine ⟨fun mem => reroutes.members (expands.originals mem), ?_, ?_, ?_⟩
  · exact fun mem =>
      (reroutes.code_eq (expands.originals mem)).trans (expands.code_eq mem)
  · exact fun mem unlinked =>
      reroutes.unlinked (expands.originals mem) (expands.unlinked mem unlinked)
  · intro id side next mem linked
    obtain ⟨first, led, way⟩ := expands.links mem linked
    rcases reroutes.links (expands.originals mem) led with same | ⟨known, before, led, longer⟩
    · exact ⟨first, same, reroutes.way way⟩
    · rw [way.target_eq known]
      exact ⟨before, led, longer⟩

end Reroutes

theorem Alike.reroutes (alike : g.Alike after) : Reroutes orig g after :=
  ⟨fun mem => alike.order_eq ▸ mem, fun {id} _ => (alike.content_eq id).code_eq,
    fun {id side} _ unlinked => (alike.link_eq id side).trans unlinked,
    fun {id side _} _ linked => .inl ((alike.link_eq id side).trans linked)⟩

theorem Alike.admits (alike : g.Alike after) (admits : orig.Admits g) : orig.Admits after := by
  refine ⟨fun {id} mem enterable => ?_, fun enters => alike.entersAt (admits.covers enters)⟩
  have fields := alike.content_eq id
  obtain ⟨target, way, addr, known⟩ :=
    admits.leads (alike.order_eq ▸ mem) (fields.enterable_eq.symm.trans enterable)
  exact ⟨target, alike.reroutes.way way, fields.enterAddress_eq.trans addr, known⟩

namespace LoopGuarded

variable (guarded : g.LoopGuarded body (loopName number) after) (numbered : g.Numbered)
  (expands : orig.Expands g) (bodyMem : body ∈ orig.order)
  (content_eq : (g.segment body).SameFields (orig.segment body))
  (closes : (orig.segment body).needsCycleCheck)

include guarded numbered expands bodyMem content_eq closes

theorem way_guard : Way orig after g.nextId body := by
  have new {id} (behind : g.nextId ≤ id) : id ∉ orig.order := by
    intro mem
    have inside : id < g.nextId := numbered.inside (expands.originals mem)
    lia
  have leave_eq := guarded.leave_eq.code_eq
  have lowest := content_eq.lowest_eq
  have leaves : Leaves orig after (g.nextId + 1) body :=
    ⟨new (by lia), guarded.leave_mem, by rw [leave_eq, ← lowest]; rfl, guarded.leave_link false⟩
  exact .check (new (Nat.le_refl _)) guarded.guard_mem
    guarded.guard_eq.code_eq (guarded.guard_link true)
    (guarded.guard_link false) leaves closes (.direct bodyMem)

theorem reroutes : Reroutes orig g after := by
  refine ⟨fun mem => guarded.mem_order_iff.mpr (.inl mem), guarded.code_eq, ?_, ?_⟩
  · intro id side mem unlinked
    rw [guarded.link_eq id mem, unlinked, if_neg (by simp)]
  · intro id side next mem linked
    rw [guarded.link_eq id mem, linked]
    by_cases same : next = body
    · subst same
      exact .inr ⟨bodyMem, _, if_pos rfl,
        guarded.way_guard numbered expands bodyMem content_eq closes⟩
    · exact .inl (if_neg (by simpa using same))

theorem admits (admits : orig.Admits g) : orig.Admits after := by
  have reroutes := guarded.reroutes numbered expands bodyMem content_eq closes
  refine ⟨fun {id} mem enterable => ?_, fun enters => guarded.entersAt (admits.covers enters)⟩
  rcases guarded.mem_cases mem with old | rfl | rfl | rfl
  · by_cases same : id = body
    · subst same
      rw [guarded.body_eq.enterable_eq] at enterable
      cases enterable
    · have fields := guarded.others_eq id old same
      obtain ⟨target, way, addr, known⟩ :=
        admits.leads old (fields.enterable_eq.symm.trans enterable)
      exact ⟨target, reroutes.way way, fields.enterAddress_eq.trans addr, known⟩
  · rw [guarded.guard_eq.enterable_eq] at enterable
    cases enterable
  · rw [guarded.leave_eq.enterable_eq] at enterable
    cases enterable
  · have fields := guarded.entry_eq
    have same := content_eq
    have new : g.nextId + 2 ∉ orig.order := by
      intro known
      have inside : g.nextId + 2 < g.nextId := numbered.inside (expands.originals known)
      lia
    refine ⟨body, .jump new guarded.entry_mem fields.code_eq (guarded.entry_link true)
      (guarded.way_guard numbered expands bodyMem content_eq closes), ?_, .inr closes⟩
    rw [fields.enterAddress_eq, Segment.entrance, ← same.enterable_eq, ← same.enterAddress_eq,
      ← same.lowest_eq]
    rfl

end LoopGuarded

namespace EntryIsolated

variable {entry : SegmentId} (isolated : g.EntryIsolated entry after)

include isolated

theorem reroutes : Reroutes orig g after :=
  ⟨fun mem => isolated.mem_order_iff.mpr (.inl mem), isolated.code_eq,
    fun {id side} mem unlinked => (isolated.link_eq id mem side).trans unlinked,
    fun {id side _} mem linked => .inl ((isolated.link_eq id mem side).trans linked)⟩

theorem admits (numbered : g.Numbered) (expands : orig.Expands g) (mem : entry ∈ g.order)
    (enterable : (g.segment entry).enterable) (admits : orig.Admits g) : orig.Admits after := by
  refine ⟨fun {id} listed entered => ?_, fun enters => isolated.entersAt (admits.covers enters)⟩
  rcases isolated.entryMoved listed entered with
    ⟨old, -, known, same⟩ | ⟨rfl, same⟩
  · obtain ⟨target, way, addr, closes⟩ := admits.leads old known
    exact ⟨target, isolated.reroutes.way way, same.trans addr, closes⟩
  · have new : g.nextId ∉ orig.order := by
      intro known
      have inside : g.nextId < g.nextId := numbered.inside (expands.originals known)
      lia
    obtain ⟨target, way, addr, known⟩ := admits.leads mem enterable
    exact ⟨target, .jump new isolated.trampoline_mem isolated.instructions_trampoline
      (isolated.trampoline_link true) (isolated.reroutes.way way),
      same.trans addr, known⟩

end EntryIsolated

/-- Loop bodies that are still to be guarded are as they were. -/
structure Untouched (orig g : Graph) (pending : List (SegmentId × Nat)) : Prop where
  nodup : (pending.map Prod.fst).Nodup
  members : ∀ loop ∈ pending, loop.1 ∈ orig.order
  closes : ∀ loop ∈ pending, (orig.segment loop.1).needsCycleCheck
  content_eq : ∀ loop ∈ pending, (g.segment loop.1).SameFields (orig.segment loop.1)

theorem Untouched.guarded (untouched : Untouched orig g ((body, number) :: rest))
    (expands : orig.Expands g) (guarded : g.LoopGuarded body (loopName number) after) :
    Untouched orig after rest := by
  obtain ⟨apart, nodup⟩ := nodup_cons.mp untouched.nodup
  refine ⟨nodup, fun loop listed => untouched.members loop (mem_cons_of_mem _ listed),
    fun loop listed => untouched.closes loop (mem_cons_of_mem _ listed), ?_⟩
  intro loop listed
  have pending := mem_cons_of_mem (body, number) listed
  refine (guarded.others_eq loop.1 (expands.originals (untouched.members loop pending)) ?_).trans
    (untouched.content_eq loop pending)
  intro same
  exact apart (mem_map.mpr ⟨loop, listed, same⟩)

theorem expands_passes (tied : orig.Tied) :
    orig.Expands orig.guardLoops.isolateEntries.detectLoops ∧
      orig.Admits orig.guardLoops.isolateEntries.detectLoops := by
  have untouched : Untouched orig orig orig.loops.zipIdx := by
    have listed {loop} (mem : loop ∈ orig.loops.zipIdx) : loop.1 ∈ orig.loops := by
      have known := mem_map_of_mem (f := Prod.fst) mem
      rwa [zipIdx_map_fst] at known
    refine ⟨?_, fun loop mem => mem_of_mem_filter (listed mem), fun loop mem => ?_, fun _ _ => rfl⟩
    · rw [zipIdx_map_fst]
      exact tied.numbered.nodup_order.filter _
    · have closes := (mem_filter.mp (listed mem)).2
      exact closes
  refine (expansion_induction (fun g pending =>
    (orig.Expands g ∧ orig.Admits g) ∧ Untouched orig g pending)
    tied ⟨⟨.refl tied.numbered, .refl⟩, untouched⟩ ?_ And.left
    (fun tied mem enterable _ isolated ⟨expands, admits⟩ =>
      ⟨isolated.reroutes.expands expands,
        isolated.admits tied.numbered expands mem enterable admits⟩)
    fun _ alike ⟨expands, admits⟩ => ⟨alike.reroutes.expands expands, alike.admits admits⟩).2
  intro before id number rest after numbered _ guarded ⟨⟨expands, admits⟩, untouched⟩
  have mem := untouched.members _ mem_cons_self
  have closes := untouched.closes _ mem_cons_self
  have content_eq := untouched.content_eq _ mem_cons_self
  exact ⟨⟨(guarded.reroutes numbered expands mem content_eq closes).expands expands,
    guarded.admits numbered expands mem content_eq closes admits⟩,
    untouched.guarded expands guarded⟩

end Graph
end Dynarec
