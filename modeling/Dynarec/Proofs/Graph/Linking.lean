import Dynarec.Proofs.Graph.Partition

/-!
# The links of a stream

Each segment is linked by its last instruction: a jump leads to the segment that
its target names, and what does not end a segment falls through to the next one.
-/

namespace Dynarec

open List Option Segment

namespace Segment

variable {other seg : Segment}

/-- A segment without its place, its loops and its links. -/
def face (seg : Segment) : Segment :=
  { seg.content with uncertain := false }

/-- The address that the jump at the end of a segment leads to. -/
def jumpTarget? (seg : Segment) : Option Address :=
  match seg.last? with
  | none => none
  | some last => if last.kind = .jump && !last.bySegment then some last.target else none

/-- Whether control can fall through the end of a segment. -/
def fallsThrough (seg : Segment) : Bool :=
  match seg.last? with
  | none => true
  | some last =>
      !last.isSuffix || last.kind = .jump && !last.bySegment && !last.isUnconditionalJump

/-- What jumps find a segment by. -/
def name (seg : Segment) : SegmentId × Bool × Address :=
  (seg.id, seg.isDestination, seg.jumpAddress)

theorem face_of_content (same : seg.SameFields other) : seg.face = other.face := by
  exact (congrArg (fun segment => { segment with uncertain := false }) same :)

theorem instructions_of_face (same : seg.face = other.face) :
    seg.instructions = other.instructions := by
  have equal := congrArg instructions same
  exact equal

theorem jumpTarget?_congr (same : seg.instructions = other.instructions) :
    seg.jumpTarget? = other.jumpTarget? := by
  rw [jumpTarget?, jumpTarget?, last?, last?, same]

theorem exists_of_jumpTarget? (named : seg.jumpTarget? = some target) :
    ∃ jump, seg.last? = some jump ∧ jump.kind = .jump ∧ jump.bySegment = false ∧
      jump.target = target := by
  rw [jumpTarget?] at named
  split at named
  · cases named
  next last last_eq =>
    split at named
    next jump =>
      rw [Bool.and_eq_true, decide_eq_true_eq, Bool.not_eq_true'] at jump
      cases named
      exact ⟨last, last_eq, jump.1, jump.2, rfl⟩
    · cases named

theorem fallsThrough_congr (same : seg.instructions = other.instructions) :
    seg.fallsThrough = other.fallsThrough := by
  rw [fallsThrough, fallsThrough, last?, last?, same]

theorem name_of_face (same : seg.face = other.face) : seg.name = other.name := by
  have equal := congrArg name same
  exact equal

end Segment

namespace Graph

variable {g : Graph} {id : SegmentId}

theorem destination?_congr {other : Graph} (order_eq : other.order = g.order)
    (name_eq : ∀ id, (other.segment id).name = (g.segment id).name) (target : Address) :
    other.destination? target = g.destination? target := by
  have byName (g : Graph) : g.destination? target =
      (((g.order.map fun id => (g.segment id).name).find? fun name =>
        name.2.1 && name.2.2 = target).map (·.1)) := by
    rw [destination?, inOrder, find?_map, find?_map, Option.map_map, Option.map_map]
    rfl
  rw [byName, byName, order_eq]
  simp only [name_eq]

theorem of_destination?_eq_some (numbered : g.Numbered) (found : g.destination? target = some id) :
    id ∈ g.order ∧ (g.segment id).isDestination ∧ (g.segment id).jumpAddress = target := by
  obtain ⟨seg, first, rfl⟩ := map_eq_some_iff.mp found
  obtain ⟨id, mem, rfl⟩ := mem_map.mp (mem_of_find?_eq_some first)
  rw [numbered.segment_id mem]
  have named := find?_some first
  rw [Bool.and_eq_true, decide_eq_true_eq] at named
  exact ⟨mem, named⟩

structure LinksSet (before : Graph) (id : SegmentId) (taken notTaken : Option SegmentId)
    (after : Graph) : Prop extends after.Tied where
  shape_eq : after = { before with segments := after.segments }
  placed : before.Placed → after.Placed
  face_eq : ∀ other, (after.segment other).face = (before.segment other).face
  others : ∀ other ≠ id, ∀ side, (after.segment other).link side = (before.segment other).link side
  taken_eq : (after.segment id).link true = taken
  notTaken_eq : (after.segment id).link false = notTaken

namespace LinksSet

theorem refl (tied : g.Tied) (unlinked : ∀ side, (g.segment id).link side = none) :
    g.LinksSet id none none g :=
  ⟨tied, rfl, fun placed => placed, fun _ => rfl, fun _ _ _ => rfl, unlinked true, unlinked false⟩

variable {after : Graph} {taken notTaken : Option SegmentId}
  (set : g.LinksSet id taken notTaken after)

include set

theorem order_eq : after.order = g.order := by
  rw [set.shape_eq]

theorem code_eq (other : SegmentId) :
    (after.segment other).instructions = (g.segment other).instructions :=
  instructions_of_face (set.face_eq other)

theorem name_eq (other : SegmentId) : (after.segment other).name = (g.segment other).name :=
  name_of_face (set.face_eq other)

theorem setLink (mem : id ∈ g.order) (newMem : ∀ new ∈ dest, new ∈ g.order) (side : Bool) :
    g.LinksSet id (if side then dest else taken) (if side then notTaken else dest)
      (after.setLink id dest side) := by
  have rewired := (Rewired.refl set.toTied).setLink (set.order_eq ▸ mem)
    (set.order_eq ▸ newMem) side
  refine ⟨rewired.toTied, by rw [rewired.shape_eq, set.shape_eq],
    fun placed => rewired.placed (set.placed placed), ?_, ?_, ?_, ?_⟩
  · intro other
    rw [face_of_content (rewired.content_eq other), set.face_eq]
  · intro other ne otherSide
    rw [rewired.link_eq, if_neg fun both => ne both.1.symm, set.others other ne]
  · rw [rewired.link_eq, set.taken_eq]
    simp
  · rw [rewired.link_eq, set.notTaken_eq]
    cases side <;> simp

theorem uncertain (mem : id ∈ g.order) :
    g.LinksSet id taken notTaken (after.modify id ({ · with uncertain := true })) := by
  have filled := (Refilled.refl set.toTied).modify (set.order_eq ▸ mem)
    ({ · with uncertain := true }) fun _ => ⟨rfl, rfl, rfl, rfl⟩
  refine ⟨filled.toTied, by rw [filled.shape_eq, set.shape_eq],
    fun placed => (set.placed placed).modify id fun _ => rfl, ?_, ?_,
    ((filled.same id).link_eq true).trans set.taken_eq,
    ((filled.same id).link_eq false).trans set.notTaken_eq⟩
  · intro other
    rw [filled.segment_eq, ← set.face_eq]
    split <;> rfl
  · intro other ne side
    rw [(filled.same other).link_eq, set.others other ne]

end LinksSet

theorem linksSet_linkSegment {next} (tied : g.Tied) (mem : id ∈ g.order)
    (unlinked : ∀ side, (g.segment id).link side = none)
    (nextMem : ∀ other ∈ next, other ∈ g.order) (done : g.linkSegment id next = .ok result) :
    g.LinksSet id ((g.segment id).jumpTarget?.bind g.destination?)
      (if (g.segment id).fallsThrough then next else none) result := by
  have start := LinksSet.refl tied unlinked
  rw [linkSegment] at done
  split at done
  next last_eq =>
    cases done
    rw [jumpTarget?, fallsThrough, last_eq]
    exact start.setLink mem nextMem false
  next last last_eq =>
    have target : (g.segment id).jumpTarget? =
        if last.kind = .jump && !last.bySegment then some last.target else none := by
      rw [jumpTarget?, last_eq]
    have falls : (g.segment id).fallsThrough = (!last.isSuffix ||
        last.kind = .jump && !last.bySegment && !last.isUnconditionalJump) := by
      rw [fallsThrough, last_eq]
    split at done
    next plain =>
      cases done
      have kind_ne : last.kind ≠ .jump := fun kind_eq => by
        simp [Instruction.isSuffix_of_jump kind_eq] at plain
      rw [target, if_neg (by simp [kind_ne]), falls, plain, Bool.true_or]
      exact start.setLink mem nextMem false
    next suffix =>
      rw [falls, Bool.eq_false_iff.mpr suffix, Bool.false_or]
      split at done
      next jump =>
        rw [target, if_pos jump, jump, Bool.true_and, bind_some]
        split at done
        · cases done
        next dest found =>
          have toDestination : ∀ new ∈ some dest, new ∈ g.order := by
            rintro new ⟨⟩
            exact (of_destination?_eq_some tied.numbered found).1
          have jumped := start.setLink mem toDestination true
          rw [found]
          split at done
          next always =>
            cases done
            rw [always]
            exact jumped
          next conditional =>
            cases done
            rw [Bool.eq_false_iff.mpr conditional]
            exact jumped.setLink mem nextMem false
      next other =>
        rw [target, if_neg other, Bool.eq_false_iff.mpr other, Bool.false_and]
        split at done
        · cases done
          exact start.uncertain mem
        · cases done
          exact start

theorem exists_linkSegment (next : Option SegmentId)
    (leads : ∀ target ∈ (g.segment id).jumpTarget?, (g.destination? target).isSome) :
    ∃ result, g.linkSegment id next = .ok result := by
  rw [linkSegment]
  split
  · exact ⟨_, rfl⟩
  next last last_eq =>
    split
    · exact ⟨_, rfl⟩
    · split
      next jump =>
        have named : (g.segment id).jumpTarget? = some last.target := by
          rw [jumpTarget?, last_eq]
          exact if_pos jump
        obtain ⟨dest, found⟩ := isSome_iff_exists.mp (leads last.target named)
        rw [found]
        exact ⟨_, rfl⟩
      · split
        · exact ⟨_, rfl⟩
        · exact ⟨_, rfl⟩

theorem isSome_of_linkSegment {next} (done : g.linkSegment id next = .ok result) :
    ∀ target ∈ (g.segment id).jumpTarget?, (g.destination? target).isSome := by
  intro target named
  rw [linkSegment] at done
  rw [jumpTarget?] at named
  split at done
  next last_eq =>
    rw [last_eq] at named
    cases named
  next last last_eq =>
    simp only [last_eq] at named
    split at named
    next jump =>
      cases named
      have kind_eq : last.kind = .jump := by simpa using (Bool.and_eq_true_iff.mp jump).1
      rw [Instruction.isSuffix_of_jump kind_eq, if_neg (by simp), if_pos jump] at done
      split at done
      · cases done
      next found =>
        rw [found]
        rfl
    · cases named

/-- A graph before and after a list of segments that follow each other was linked. -/
structure Linked (before : Graph) (ids : List SegmentId) (after : Graph) : Prop
    extends after.Tied where
  shape_eq : after = { before with segments := after.segments }
  placed : before.Placed → after.Placed
  face_eq : ∀ id, (after.segment id).face = (before.segment id).face
  others : ∀ id ∉ ids, ∀ side, (after.segment id).link side = (before.segment id).link side
  leads : ∀ id ∈ ids, ∀ target ∈ (before.segment id).jumpTarget?,
    (before.destination? target).isSome
  taken_eq : ∀ id ∈ ids, (after.segment id).link true =
    (before.segment id).jumpTarget?.bind before.destination?
  notTaken_eq : ∀ {index id}, ids[index]? = some id → (after.segment id).link false =
    if (before.segment id).fallsThrough then ids[index + 1]? else none

theorem linked_linkAll (nodup : ids.Nodup) (tied : g.Tied) (members : ∀ id ∈ ids, id ∈ g.order)
    (unlinked : ∀ id ∈ ids, ∀ side, (g.segment id).link side = none)
    (done : g.linkAll ids = .ok result) : g.Linked ids result := by
  induction ids generalizing g with
  | nil =>
    cases done
    exact ⟨tied, rfl, fun placed => placed, fun _ => rfl, fun _ _ _ => rfl, by simp, by simp,
      by simp⟩
  | cons first rest ih =>
    obtain ⟨fresh, nodup⟩ := nodup_cons.mp nodup
    obtain ⟨mem, members⟩ := forall_mem_cons.mp members
    obtain ⟨firstUnlinked, unlinked⟩ := forall_mem_cons.mp unlinked
    obtain ⟨middle, linking, done⟩ := of_bind_eq_ok done
    have nextMem : ∀ other ∈ rest.head?, other ∈ g.order :=
      fun other head => members other (mem_of_mem_head? head)
    have set := linksSet_linkSegment tied mem firstUnlinked nextMem linking
    have ne {id : SegmentId} (listed : id ∈ rest) : id ≠ first :=
      fun equal => fresh (equal ▸ listed)
    have linked := ih nodup set.toTied (fun id listed => set.order_eq ▸ members id listed)
      (fun id listed side => (set.others id (ne listed) side).trans (unlinked id listed side)) done
    have target id := jumpTarget?_congr (set.code_eq id)
    have dest : middle.destination? = g.destination? :=
      funext (destination?_congr set.order_eq set.name_eq)
    refine ⟨linked.toTied, by rw [linked.shape_eq, set.shape_eq],
      fun placed => linked.placed (set.placed placed), ?_, ?_, ?_, ?_, ?_⟩
    · exact fun id => (linked.face_eq id).trans (set.face_eq id)
    · intro id unlisted side
      rw [mem_cons, not_or] at unlisted
      rw [linked.others id unlisted.2, set.others id unlisted.1]
    · refine forall_mem_cons.mpr ⟨isSome_of_linkSegment linking, ?_⟩
      intro id listed
      rw [← target id, ← dest]
      exact linked.leads id listed
    · refine forall_mem_cons.mpr ⟨?_, ?_⟩
      · rw [linked.others first fresh, set.taken_eq]
      · intro id listed
        rw [linked.taken_eq id listed, target, dest]
    · intro index id found
      cases index with
      | zero =>
        cases found
        rw [linked.others first fresh, set.notTaken_eq, getElem?_cons_succ, head?_eq_getElem?]
      | succ index =>
        rw [getElem?_cons_succ] at found ⊢
        rw [linked.notTaken_eq found, fallsThrough_congr (set.code_eq id)]

theorem exists_linkAll (nodup : ids.Nodup) (tied : g.Tied) (members : ∀ id ∈ ids, id ∈ g.order)
    (unlinked : ∀ id ∈ ids, ∀ side, (g.segment id).link side = none)
    (leads : ∀ id ∈ ids, ∀ target ∈ (g.segment id).jumpTarget?, (g.destination? target).isSome) :
    ∃ result, g.linkAll ids = .ok result := by
  induction ids generalizing g with
  | nil => exact ⟨g, rfl⟩
  | cons first rest ih =>
    obtain ⟨fresh, nodup⟩ := nodup_cons.mp nodup
    obtain ⟨mem, members⟩ := forall_mem_cons.mp members
    obtain ⟨firstUnlinked, unlinked⟩ := forall_mem_cons.mp unlinked
    obtain ⟨firstLeads, leads⟩ := forall_mem_cons.mp leads
    have nextMem : ∀ other ∈ rest.head?, other ∈ g.order :=
      fun other head => members other (mem_of_mem_head? head)
    obtain ⟨middle, linking⟩ := exists_linkSegment rest.head? firstLeads
    have set := linksSet_linkSegment tied mem firstUnlinked nextMem linking
    have ne {id : SegmentId} (listed : id ∈ rest) : id ≠ first :=
      fun equal => fresh (equal ▸ listed)
    rw [linkAll, linking]
    refine ih nodup set.toTied (fun id listed => set.order_eq ▸ members id listed)
      (fun id listed side => (set.others id (ne listed) side).trans (unlinked id listed side)) ?_
    intro id listed target named
    rw [jumpTarget?_congr (set.code_eq id)] at named
    rw [destination?_congr set.order_eq set.name_eq]
    exact leads id listed target named

theorem IsCut.isSome_destination? (cut : IsCut code g) (isRun : ∀ run ∈ runs code, IsRun run)
    (marked : .jumpmark target ∈ code) : (g.destination? target).isSome := by
  obtain ⟨run, mem, marked⟩ := mem_iff_exists_run.mp marked
  obtain ⟨id, found⟩ := mem_iff_getElem?.mp mem
  have listed : id ∈ g.order := by
    rw [cut.order_eq, mem_range]
    exact (List.getElem?_eq_some_iff.mp found).1
  have isMarked : isMarked .jumpmark run := any_eq_true.mpr ⟨_, marked, rfl⟩
  have start : startOf run = target := ((isRun run mem).origin_mark _ marked rfl).symm
  rw [destination?, isSome_map, find?_isSome]
  refine ⟨g.segment id, mem_map_of_mem listed, ?_⟩
  rw [cut.segment_eq found]
  simp [segmentOf, unplacedOf, refreshAddresses, isMarked, start]

/-- A graph whose segments are the runs of a code, linked by their last instructions. -/
structure IsBase (code : Code) (g : Graph) : Prop extends g.Tied where
  placed : g.Placed
  order_eq : g.order = List.range (runs code).length
  face_eq : ∀ {id run}, (runs code)[id]? = some run → (g.segment id).face =
    if id = 0 then { (segmentOf id run).face with enterable := true, enterAddress := g.entry }
    else (segmentOf id run).face
  leads : ∀ {id}, id ∈ g.order → ∀ target ∈ (g.segment id).jumpTarget?,
    (g.destination? target).isSome
  taken_eq : ∀ {id}, id ∈ g.order → (g.segment id).link true =
    (g.segment id).jumpTarget?.bind g.destination?
  notTaken_eq : ∀ {id}, id ∈ g.order → (g.segment id).link false =
    if (g.segment id).fallsThrough ∧ id + 1 < (runs code).length then some (id + 1) else none

theorem isBase_of_linked (nonempty : code ≠ []) (cut : IsCut code g)
    (links : g.Linked g.order linked) :
    IsBase code (linked.modify 0 ({ · with enterable := true, enterAddress := linked.entry })) := by
  have order : linked.order = g.order := by rw [links.shape_eq]
  have first : 0 ∈ linked.order := by
    rw [order, cut.order_eq, mem_range, length_pos_iff]
    exact splitBy_ne_nil.mpr nonempty
  have filled := (Refilled.refl links.toTied).modify first
    ({ · with enterable := true, enterAddress := linked.entry }) fun _ => ⟨rfl, rfl, rfl, rfl⟩
  have kept id : ((linked.modify 0
      ({ · with enterable := true, enterAddress := linked.entry })).segment id).instructions =
      (g.segment id).instructions := by
    rw [filled.segment_eq, ← instructions_of_face (links.face_eq id)]
    split <;> rfl
  have name id : ((linked.modify 0
      ({ · with enterable := true, enterAddress := linked.entry })).segment id).name =
      (g.segment id).name := by
    rw [filled.segment_eq, ← name_of_face (links.face_eq id)]
    split <;> rfl
  have dest := destination?_congr ((order_modify _ _).trans order) name
  refine ⟨filled.toTied, (links.placed cut.placed).modify 0 fun _ => rfl,
    order.trans cut.order_eq, ?_, ?_, ?_, ?_⟩
  · intro id run found
    rw [filled.segment_eq, ← cut.segment_eq found, ← links.face_eq id]
    by_cases first : id = 0
    · rw [if_pos first.symm, if_pos first]
      rfl
    · rw [if_neg (Ne.symm first), if_neg first]
  · intro id mem target named
    rw [order_modify, order] at mem
    rw [jumpTarget?_congr (kept id)] at named
    rw [dest]
    exact links.leads id mem target named
  · intro id mem
    rw [order_modify, order] at mem
    rw [(filled.same id).link_eq, links.taken_eq id mem, jumpTarget?_congr (kept id),
      funext dest]
  · intro id mem
    rw [order_modify, order] at mem
    have found : g.order[id]? = some id := by
      rw [cut.order_eq] at mem ⊢
      exact getElem?_range (mem_range.mp mem)
    rw [(filled.same id).link_eq, links.notTaken_eq found, fallsThrough_congr (kept id),
      cut.order_eq]
    by_cases further : id + 1 < (runs code).length
    · rw [getElem?_range further]
      simp [further]
    · rw [getElem?_eq_none (by rw [length_range]; lia)]
      simp [further]

section

variable {stream : Stream}

theorem tied_ofStream (done : ofStream stream = .ok g) : g.Tied := by
  obtain ⟨linked, linking, done⟩ := of_bind_eq_ok done
  obtain ⟨tied, -, -, unlinked, -⟩ := cut_view
    { entry := stream.entry, size := stream.size, ranges := stream.ranges, slots := stream.slots }
    rfl rfl (dropUnusedJumpmarks stream.instructions)
  have links := linked_linkAll tied.numbered.nodup_order tied (fun _ mem => mem) unlinked linking
  split at done
  · cases done
    exact links.toTied
  next first head =>
    cases done
    have filled := (Refilled.refl links.toTied).modify (mem_of_mem_head? head)
      ({ · with enterable := true, enterAddress := linked.entry }) fun _ => ⟨rfl, rfl, rfl, rfl⟩
    exact filled.toTied

variable (arranged : Arranged stop (dropUnusedJumpmarks stream.instructions))

include arranged

theorem isBase_ofStream (nonempty : dropUnusedJumpmarks stream.instructions ≠ [])
    (done : ofStream stream = .ok g) :
    IsBase (dropUnusedJumpmarks stream.instructions) g ∧ g.entry = stream.entry ∧
      g.ranges = stream.ranges ∧ g.slots = stream.slots := by
  obtain ⟨linked, linking, done⟩ := of_bind_eq_ok done
  obtain ⟨isCut, shape⟩ := isCut_cut arranged
    { entry := stream.entry, size := stream.size, ranges := stream.ranges, slots := stream.slots }
    rfl rfl
  generalize cut _ _ = middle at linking isCut shape
  have links := linked_linkAll isCut.numbered.nodup_order isCut.toTied (fun _ mem => mem)
    (fun _ => isCut.unlinked) linking
  have first : linked.order.head? = some 0 := by
    rw [links.shape_eq, isCut.order_eq, head?_range, if_neg]
    rw [length_eq_zero_iff]
    exact splitBy_ne_nil.mpr nonempty
  rw [first] at done
  cases done
  refine ⟨isBase_of_linked nonempty isCut links, ?_⟩
  rw [modify, links.shape_eq, shape]
  exact ⟨rfl, rfl, rfl⟩

theorem exists_ofStream
    (marked : ∀ jump ∈ dropUnusedJumpmarks stream.instructions, jump.kind = .jump →
      .jumpmark jump.target ∈ dropUnusedJumpmarks stream.instructions) :
    ∃ g, ofStream stream = .ok g := by
  obtain ⟨isCut, -⟩ := isCut_cut arranged
    { entry := stream.entry, size := stream.size, ranges := stream.ranges, slots := stream.slots }
    rfl rfl
  obtain ⟨linked, linking⟩ := exists_linkAll isCut.numbered.nodup_order isCut.toTied
    (fun _ mem => mem) (fun _ => isCut.unlinked) <| by
      intro id mem target named
      obtain ⟨run, found⟩ := isCut.exists_run mem
      rw [isCut.segment_eq found] at named
      obtain ⟨jump, last_eq, kind_eq, -, rfl⟩ := exists_of_jumpTarget? named
      have listed : jump ∈ bodyOf run := mem_of_mem_getLast? last_eq
      exact isCut.isSome_destination? (fun _ => isRun_of_mem arranged) (marked jump
        (mem_iff_exists_run.mpr ⟨run, mem_of_getElem? found, mem_of_mem_filter listed⟩) kind_eq)
  rw [ofStream, linking]
  simp only [bind, Except.bind]
  split
  · exact ⟨_, rfl⟩
  · exact ⟨_, rfl⟩

end

end Graph
end Dynarec
