import Dynarec.Proofs.Allocation.Walk
import Mathlib.Data.List.TakeWhile

/-!
# The code of a segment after the walk

The walk over a segment keeps its instructions, in host registers, and puts
stores and loads at the boundaries between them.  What it inserts behind the last
instruction but one that ends the segment stands in front of that instruction.
-/

namespace Dynarec.Allocation

open Function Insertion List Position Walk

/-! ## Boundaries between instructions -/

/-- The holders behind the boundary in front of an index. -/
def across (subs : List Subrange) (index : Nat) (holders : List Subrange) : List Subrange :=
  holders.filter (·.passes index) ++ subs.filter (·.startsAt index)

/-- The stores and loads at the boundary in front of an index. -/
def boundaryCode (alloc : Allocation) (subs : List Subrange) (index : Nat)
    (holders : List Subrange) : Code :=
  alloc.storesOf (holders.filter (!·.passes index)) ++
    alloc.loadsOf (subs.filter (·.startsAt index))

variable {alloc : Allocation} {length index boundary : Nat} {holders : List Subrange} {after : Walk}

theorem filterMap_range_getElem? (subs : List Subrange) :
    (List.range subs.length).filterMap (subs[·]?) = subs := by
  induction subs with
  | nil => rfl
  | cons first subs ih =>
    rw [length_cons, range_succ_eq_map, filterMap_cons, filterMap_map]
    exact congrArg (first :: ·) ih

section

variable (walking : alloc.Walking subs index (List.range subs.length) walk.holders walk)
  (seats : alloc.Seats length subs) (inside : index ≤ length) (before : boundary ≤ index)

include walking seats inside before

theorem Walking.foldl_live
    (expired_eq : walk.live.foldl (alloc.expire boundary index) { walk with live := [] } = expired)
    (room : length + expired.count < atExit) :
    alloc.Walking subs index (List.range subs.length) expired.holders expired ∧
      walk.Extends boundary (alloc.storesOf (walk.holders.filter (!·.passes index))) expired ∧
      expired.holders = walk.holders.filter (·.passes index) := by
  subst expired_eq
  have emptied : ({ walk with live := [] } : Walk).holders = [] := rfl
  have listed : walk.live.filterMap (subs[·]?) = walk.holders := by
    simp [holders, walking.subranges_eq]
  have start : alloc.Walking subs index (List.range subs.length)
      (({ walk with live := [] } : Walk).holders ++ walk.live.filterMap (subs[·]?))
      { walk with live := [] } := by
    rw [emptied, listed, nil_append]
    exact { walking with }
  obtain ⟨expired, stored, kept⟩ := start.foldl_expire seats inside before room
  rw [emptied, listed, nil_append] at expired kept
  rw [← kept] at expired
  rw [listed] at stored
  exact ⟨expired, ⟨stored.subranges_eq, stored.insertions_eq, stored.count_eq⟩, kept⟩

/-- What happens at the boundary in front of an index. -/
theorem Walking.crossBoundary
    (crossed : alloc.crossBoundary seg (List.range subs.length) boundary index walk = .ok after)
    (room : length + after.count < atExit) :
    alloc.Walking subs index [] after.holders after ∧
      walk.Extends boundary (alloc.boundaryCode subs index walk.holders) after ∧
      after.holders = across subs index walk.holders := by
  have more := (moves_beginAt (Nat.le_refl boundary) crossed).grows.count_le
  obtain ⟨expired, stored, kept⟩ := walking.foldl_live seats inside before rfl (by lia)
  obtain ⟨begun, loaded, holders⟩ := expired.beginAt seats inside before nodup_range crossed room
  rw [filterMap_range_getElem?] at loaded holders
  refine ⟨begun, stored.trans loaded, ?_⟩
  rw [holders, kept]
  rfl

end

theorem Walking.advance (walking : alloc.Walking subs index [] holders walk)
    (waiting : List Nat) : alloc.Walking subs (index + 1) waiting holders walk := by
  refine { walking with starts := ?_, stops := ?_ }
  · intro slot sub found
    obtain ⟨start, present, next, -⟩ := walking.starts found
    exact ⟨start, present, next.succ, fun _ => next⟩
  · intro slot sub found
    obtain ⟨stop, present, here⟩ := walking.stops found
    exact ⟨stop, present, here.succ⟩

/-! ## Translated code -/

/-- The operands of an instruction are held by subranges and replaced by their host registers. -/
def Rehosted (alloc : Allocation) (holders : List Subrange)
    (image : Register → Option Register) (instr : Instruction Register) : Prop :=
  ∀ reg ∈ instr.operands, ∃ sub ∈ holders,
    alloc.registerOf sub = reg ∧ image reg = some (alloc.hostOf sub)

/-- Code with host registers, and stores and loads in front of each instruction and at its end.
The lists are the holders in front of the code and behind it. -/
inductive Translates (alloc : Allocation) (subs : List Subrange) :
    Nat → List Subrange → Code → List Subrange → Code → Prop
  | nil (index : Nat) (holders : List Subrange) :
      Translates alloc subs index holders [] (across subs index holders)
        (alloc.boundaryCode subs index holders)
  | cons {index : Nat} {holders final : List Subrange} {instr : Instruction Register}
      {image : Register → Option Register} {rest woven : Code}
      (rehosted : alloc.Rehosted (across subs index holders) image instr)
      (more : Translates alloc subs (index + 1) (across subs index holders) rest
        final woven) :
      Translates alloc subs index holders (instr :: rest) final
        (alloc.boundaryCode subs index holders ++ instr.mapRegisters image :: woven)

variable {insertions : List Insertion}

theorem Walking.rehost (walking : alloc.Walking subs index [] holders walk)
    (done : rehost seg index walk instr = .ok instr') :
    alloc.Rehosted holders walk.operandOf instr ∧ instr' = instr.mapRegisters walk.operandOf := by
  obtain ⟨bound, instruction_eq⟩ := of_rehost_eq_ok done
  refine ⟨fun reg mem => ?_, instruction_eq⟩
  by_contra unheld
  push Not at unheld
  have free := walking.free reg fun sub listed same =>
    unheld sub listed same (same ▸ walking.held sub listed)
  have isBound := bound reg mem
  rw [free] at isBound
  cases isBound

theorem perm_weave (index : Nat) (insertions : List Insertion) (code : Code) :
    (weave index insertions code).Perm (insertions.map (·.instruction) ++ code) := by
  induction code generalizing index insertions with
  | nil => simp [weave]
  | cons instr code ih =>
    have together : insertions.takeWhile (·.boundary ≤ index) ++
        insertions.dropWhile (·.boundary ≤ index) = insertions :=
      takeWhile_append_dropWhile
    rw [weave]
    generalize insertions.takeWhile (·.boundary ≤ index) = here at together ⊢
    generalize insertions.dropWhile (·.boundary ≤ index) = later at together ⊢
    rw [← together, map_append, append_assoc]
    exact (((ih (index + 1) later).cons instr).trans perm_middle.symm).append_left _

theorem length_weave (index : Nat) (insertions : List Insertion) (code : Code) :
    (weave index insertions code).length = insertions.length + code.length := by
  rw [(perm_weave index insertions code).length_eq, length_append, length_map]

theorem filter_weave (holds : Instruction Register → Bool) (index : Nat)
    (unlike : ∀ insertion ∈ insertions, holds insertion.instruction = false) (code : Code) :
    (weave index insertions code).filter holds = code.filter holds := by
  have none {insertions : List Insertion}
      (unlike : ∀ insertion ∈ insertions, holds insertion.instruction = false) :
      (insertions.map (·.instruction)).filter holds = [] := by
    rw [filter_eq_nil_iff, forall_mem_map]
    exact fun insertion mem => by simp [unlike insertion mem]
  induction code generalizing index insertions with
  | nil => exact none unlike
  | cons instr code ih =>
    have here := none fun insertion mem =>
      unlike insertion (takeWhile_subset (·.boundary ≤ index) mem)
    have later := ih (index + 1) fun insertion mem =>
      unlike insertion (dropWhile_subset (·.boundary ≤ index) mem)
    rw [weave, filter_append, here, nil_append, filter_cons, later, filter_cons]

theorem getLast?_weave (index : Nat) (nonempty : code ≠ [])
    (early : ∀ insertion ∈ insertions, insertion.boundary < index + code.length) :
    (weave index insertions code).getLast? = code.getLast? := by
  induction code generalizing index insertions with
  | nil => exact absurd rfl nonempty
  | cons instr code ih =>
    rw [weave, getLast?_append_cons]
    cases code with
    | nil =>
      have all : insertions.dropWhile (·.boundary ≤ index) = [] := by
        rw [dropWhile_eq_nil_iff]
        intro insertion mem
        have bound := early insertion mem
        simp only [length_singleton, decide_eq_true_eq] at bound ⊢
        lia
      rw [all]
      rfl
    | cons second code =>
      have later := ih (index + 1) (by simp) fun insertion mem => by
        have bound := early insertion (dropWhile_subset (·.boundary ≤ index) mem)
        rw [length_cons] at bound
        lia
      have filled : weave (index + 1) (insertions.dropWhile (·.boundary ≤ index))
          (second :: code) ≠ [] := by simp [weave]
      rw [getLast?_cons_of_ne_nil filled, later, getLast?_cons_cons]

theorem weave_cons (here : ∀ insertion ∈ added, insertion.boundary = index)
    (behind : ∀ insertion ∈ later, index < insertion.boundary) (instr : Instruction Register)
    (rest : Code) :
    weave index (added ++ later) (instr :: rest) =
      added.map (·.instruction) ++ instr :: weave (index + 1) later rest := by
  have all : ∀ insertion ∈ added, decide (insertion.boundary ≤ index) = true := fun _ mem => by
    simp [here _ mem]
  have none : later.takeWhile (·.boundary ≤ index) = [] ∧
      later.dropWhile (·.boundary ≤ index) = later := by
    cases later with
    | nil => exact ⟨rfl, rfl⟩
    | cons first later =>
      have beyond := behind first mem_cons_self
      simp [beyond]
  rw [weave, takeWhile_append_of_pos all, dropWhile_append_of_pos all, none.1, none.2, append_nil]

theorem weave_last (before : ∀ insertion ∈ added, insertion.boundary ≤ index)
    (instr : Instruction Register) :
    weave index added [instr] = added.map (·.instruction) ++ [instr] := by
  have all : ∀ insertion ∈ added, decide (insertion.boundary ≤ index) = true := fun _ mem => by
    simp [before _ mem]
  rw [weave, takeWhile_eq_self_iff.mpr all, dropWhile_eq_nil_iff.mpr all]
  rfl

theorem Seats.mono (seats : alloc.Seats length subs) (longer_le : length ≤ longer) :
    alloc.Seats longer subs where
  register_bounds := seats.register_bounds
  operand_eq := seats.operand_eq
  start_lt := fun sub mem inside =>
    Int.lt_of_lt_of_le (seats.start_lt sub mem inside) (by lia)
  stop_le := fun sub mem inside =>
    Int.le_trans (seats.stop_le sub mem inside) (by lia)

theorem Seats.filter_startsAt (seats : alloc.Seats length subs) (behind : length ≤ index)
    (small : index < atExit) : subs.filter (·.startsAt index) = [] := by
  rw [filter_eq_nil_iff]
  intro sub mem starts
  have bound := seats.start_lt sub mem
  simp only [Subrange.startsAt, decide_eq_true_eq] at starts
  lia

theorem Seats.idle_boundary (seats : alloc.Seats index subs)
    (small : index + 1 < atExit) (members : holders ⊆ subs) :
    across subs (index + 1) (across subs index holders) = across subs index holders ∧
      alloc.boundaryCode subs (index + 1) (across subs index holders) = [] := by
  have passing : ∀ sub ∈ across subs index holders, sub.passes (index + 1) := by
    intro sub mem
    rw [across, seats.filter_startsAt (Nat.le_refl index) (by lia), append_nil, mem_filter] at mem
    have bound := seats.stop_le sub (members mem.1)
    have goes := mem.2
    simp only [Subrange.passes, decide_eq_true_eq] at goes ⊢
    lia
  have gone : (across subs index holders).filter (!·.passes (index + 1)) = [] := by
    rw [filter_eq_nil_iff]
    intro sub mem
    simp [passing sub mem]
  have none := seats.filter_startsAt (Nat.le_succ index) (by push_cast; lia)
  generalize across subs index holders = behind at passing gone
  rw [across, boundaryCode, none, filter_eq_self.mpr passing, gone]
  exact ⟨append_nil behind, rfl⟩

/-- What a walk over the rest of a segment does: `body` is translated into `woven` code, and
`tail`, which ends the segment, gets its host registers.  More can be inserted in front of it. -/
structure Walked (alloc : Allocation) (subs : List Subrange) (last index : Nat)
    (body tail code : Code) (before after : Walk) (woven : Code)
    (image : Register → Option Register) (added : List Insertion) : Prop where
  translates : alloc.Translates subs index before.holders body after.holders woven
  rehosted : ∀ instr ∈ tail, alloc.Rehosted after.holders image instr
  walking : alloc.Walking subs (last + tail.length) [] after.holders after
  insertions_eq : after.insertions = added.reverse ++ before.insertions
  count_eq : after.count = before.count + added.length
  index_le : ∀ insertion ∈ added, index ≤ insertion.boundary
  weave_eq : ∀ extra : List Insertion, (∀ insertion ∈ extra, insertion.boundary = last) →
    weave index (added ++ extra) code =
      woven ++ extra.map (·.instruction) ++ tail.map (·.mapRegisters image)

/-- A walk over the instruction that ends a segment, if there is one. -/
theorem Walking.walkTail {tail code}
    (walking : alloc.Walking subs index (List.range subs.length) walk.holders walk)
    (seats : alloc.Seats index subs) (short : tail.length ≤ 1)
    (walked : alloc.walkCode seg (List.range subs.length) index index tail walk =
      .ok (code, after)) (room : index + tail.length + after.count < atExit) :
    ∃ woven image added,
      alloc.Walked subs index index [] tail code walk after woven image added := by
  cases tail with
  | nil =>
    obtain ⟨crossing, crossed, rest⟩ := of_bind_eq_ok walked
    cases rest
    rw [Nat.min_self] at crossed
    obtain ⟨walking, extended, holders⟩ :=
      walking.crossBoundary seats (Nat.le_refl _) (Nat.le_refl _) crossed (by simpa using room)
    refine ⟨alloc.boundaryCode subs index walk.holders, fun _ => none, _, ?_, by simp,
      walking, extended.insertions_eq, by simpa using extended.count_eq, by simp, ?_⟩
    · rw [holders]
      exact .nil index walk.holders
    · intro extra same
      simp [weave, comp_def]
  | cons instr rest =>
    obtain rfl : rest = [] := by
      cases rest with
      | nil => rfl
      | cons => simp at short
    obtain ⟨crossing, crossed, rest⟩ := of_bind_eq_ok walked
    obtain ⟨instr', done, rest⟩ := of_bind_eq_ok rest
    obtain ⟨⟨code', next⟩, further, rest⟩ := of_bind_eq_ok rest
    cases rest
    obtain ⟨idling, idle, rest⟩ := of_bind_eq_ok further
    cases rest
    rw [Nat.min_self] at crossed
    rw [Nat.min_eq_right (Nat.le_succ index)] at idle
    have more := (moves_crossBoundary (Nat.le_refl index) idle).grows.count_le
    simp only [length_singleton] at room
    obtain ⟨crossed, extended, holders⟩ := walking.crossBoundary seats (Nat.le_refl _)
      (Nat.le_refl _) crossed (by lia)
    obtain ⟨rehosted, rfl⟩ := crossed.rehost done
    obtain ⟨none, nothing⟩ := seats.idle_boundary (by lia) walking.members
    obtain ⟨idled, unextended, same⟩ := (crossed.advance _).crossBoundary
      (seats.mono (Nat.le_succ index)) (Nat.le_refl _) (Nat.le_succ index) idle
      (by push_cast; lia)
    rw [holders, none] at same
    rw [holders, nothing] at unextended
    have together := extended.trans unextended
    refine ⟨alloc.boundaryCode subs index walk.holders, crossing.operandOf, _, ?_, ?_,
      idled, together.insertions_eq, by simpa using together.count_eq, by simp, ?_⟩
    · rw [same]
      exact .nil index walk.holders
    · rw [same, ← holders]
      simpa using rehosted
    · intro extra here
      rw [weave_last]
      · simp [comp_def]
      · intro insertion mem
        cases mem_append.mp mem with
        | inl added =>
          obtain ⟨_, _, rfl⟩ := mem_map.mp added
          exact Nat.le_refl _
        | inr added => exact Nat.le_of_eq (here insertion added)

/-- A walk over the rest of a segment. -/
theorem Walking.walkCode {body tail code}
    (walking : alloc.Walking subs index (List.range subs.length) walk.holders walk)
    (seats : alloc.Seats last subs) (behind : index + body.length = last) (short : tail.length ≤ 1)
    (walked : alloc.walkCode seg (List.range subs.length) last index (body ++ tail)
      walk = .ok (code, after)) (room : last + tail.length + after.count < atExit) :
    ∃ woven image added,
      alloc.Walked subs last index body tail code walk after woven image added := by
  induction body generalizing index walk code with
  | nil =>
    obtain rfl : index = last := behind
    exact walking.walkTail seats short walked room
  | cons instr body ih =>
    rw [length_cons] at behind
    obtain ⟨crossing, crossed, rest⟩ := of_bind_eq_ok walked
    obtain ⟨instr', done, rest⟩ := of_bind_eq_ok rest
    obtain ⟨⟨code', next⟩, further, rest⟩ := of_bind_eq_ok rest
    cases rest
    rw [Nat.min_eq_left (by lia)] at crossed
    have more := (moves_walkCode further).1.grows.count_le
    obtain ⟨crossed, extended, holders⟩ := walking.crossBoundary seats (by lia)
      (Nat.le_refl _) crossed (by lia)
    obtain ⟨rehosted, rfl⟩ := crossed.rehost done
    obtain ⟨woven, image, added, rest⟩ := ih (crossed.advance _) (by lia) further
    refine ⟨alloc.boundaryCode subs index walk.holders ++
        instr.mapRegisters crossing.operandOf :: woven, image,
      (alloc.boundaryCode subs index walk.holders).map (Insertion.mk index) ++ added,
      .cons (holders ▸ rehosted) (holders ▸ rest.translates), rest.rehosted, rest.walking,
      ?_, ?_, ?_, ?_⟩
    · rw [rest.insertions_eq, extended.insertions_eq]
      simp
    · rw [rest.count_eq, extended.count_eq]
      simp [Nat.add_assoc]
    · intro insertion mem
      cases mem_append.mp mem with
      | inl here =>
        obtain ⟨_, _, rfl⟩ := mem_map.mp here
        exact Nat.le_refl _
      | inr later => exact Nat.le_of_succ_le (rest.index_le insertion later)
    · intro extra same
      have apart : ∀ insertion ∈ added ++ extra, index < insertion.boundary := by
        intro insertion mem
        cases mem_append.mp mem with
        | inl later => exact rest.index_le insertion later
        | inr final =>
          rw [same insertion final]
          lia
      rw [append_assoc, weave_cons (by simp) apart, rest.weave_eq extra same]
      simp [comp_def]

/-! ## The ends of a segment -/

theorem Walking.foldlM_enter {slots : List Nat}
    (walking : alloc.Walking subs index waiting walk.holders walk) (seats : alloc.Seats length subs)
    (entered : slots.foldlM (fun (walk : Walk) (slot : Nat) =>
      match subs.toArray[slot]? with
      | none => Except.ok walk
      | some sub =>
        if sub.start = atEntry then alloc.bind seg { walk with live := walk.live ++ [slot] } sub
        else .ok walk) walk = .ok after) :
    alloc.Walking subs index waiting after.holders after ∧
      after.insertions = walk.insertions ∧ after.count = walk.count ∧
      after.holders = walk.holders ++ (slots.filterMap (subs[·]?)).filter (·.start = .atEntry) := by
  induction slots generalizing walk with
  | nil =>
    cases entered
    exact ⟨walking, rfl, rfl, by simp⟩
  | cons slot slots ih =>
    rw [foldlM_cons] at entered
    obtain ⟨next, first, rest⟩ := of_bind_eq_ok entered
    rw [getElem?_toArray] at first
    cases found : subs[slot]? with
    | none =>
      rw [found] at first
      cases first
      rw [filterMap_cons_none found]
      exact ih walking rest
    | some sub =>
      rw [found] at first
      rw [filterMap_cons_some found]
      by_cases starts : sub.start = .atEntry
      · simp only [if_pos starts] at first
        have joining : alloc.Walking subs index waiting walk.holders
            { walk with live := walk.live ++ [slot] } := { walking with }
        obtain ⟨bound, table, rfl⟩ := joining.bind seats (mem_of_getElem? found) first
        have holders : ({ walk with live := walk.live ++ [slot], bound := table } : Walk).holders =
            walk.holders ++ [sub] := by
          simp [holders, walking.subranges_eq, found]
        rw [← holders] at bound
        obtain ⟨walking, insertions, count, equal⟩ := ih bound rest
        rw [filter_cons_of_pos (by simpa using starts)]
        refine ⟨walking, insertions, count, ?_⟩
        rw [equal, holders, append_assoc, singleton_append]
      · simp only [if_neg starts] at first
        cases first
        rw [filter_cons_of_neg (by simpa using starts)]
        exact ih walking rest

theorem walking_start (alloc : Allocation) (subs : List Subrange) (points : List Point) :
    alloc.Walking subs 0 (List.range subs.length) []
      { subranges := subs.toArray, starts := subs.toArray.map (·.start),
        stops := subs.toArray.map (·.stop), points,
        bound := Array.replicate alloc.graph.slots.length none } := by
  have tracks place : Position.Tracks 0 0 place place := by
    by_cases exit : place = .atExit
    · exact .exit exit exit
    · by_cases ahead : 0 ≤ place
      · exact .ahead exit (by lia) (by lia)
      · exact .behind exit (by lia) (by lia)
  constructor
  · rfl
  · intro slot sub found
    refine ⟨sub.start, ?_, (tracks _).succ, fun _ => tracks _⟩
    simp [found]
  · intro slot sub found
    exact ⟨sub.stop, by simp [found], tracks _⟩
  · simp
  · simp
  · simp
  · intro reg _
    simp only [operandOf]
    split
    · rfl
    · simp [Array.getD_eq_getD_getElem?, Array.getElem?_replicate]
      split <;> rfl
  · exact .nil

theorem walking_enter {seg : Segment} (seats : alloc.Seats length (alloc.subrangesIn seg.id))
    (entered : alloc.enter seg = .ok walk) :
    alloc.Walking (alloc.subrangesIn seg.id) 0
        (List.range (alloc.subrangesIn seg.id).length) walk.holders walk ∧
      walk.insertions = [] ∧ walk.count = 0 ∧
      walk.holders = (alloc.subrangesIn seg.id).filter (·.start = .atEntry) := by
  unfold Allocation.enter at entered
  dsimp only at entered
  rw [size_toArray] at entered
  generalize alloc.subrangesIn seg.id = subs at seats entered ⊢
  obtain ⟨walking, insertions, count, holders⟩ :=
    (walking_start alloc subs seg.points).foldlM_enter seats entered
  refine ⟨walking, insertions, count, ?_⟩
  rw [holders, filterMap_range_getElem?]
  rfl

theorem getElem?_placed (walk : Walk) (slot : Nat) :
    walk.placed[slot]? = walk.subranges[slot]?.map fun sub =>
      { sub with
        start := walk.starts.getD slot sub.start
        stop := walk.stops.getD slot sub.stop } := by
  simp [placed]

theorem extends_foldl_finish (alloc : Allocation) (boundary : Nat) (subs : List Subrange)
    (walk : Walk) :
    walk.Extends boundary (alloc.storesOf subs) (subs.foldl (alloc.finish boundary) walk) := by
  induction subs generalizing walk with
  | nil => exact .refl boundary walk
  | cons sub subs ih =>
    have together := (extends_finish alloc boundary walk sub).1.trans
      (ih (alloc.finish boundary walk sub))
    rwa [storesOf, storesOf, ← map_append, ← filter_append] at together

theorem extends_foldl_insertLoad (alloc : Allocation) (boundary : Nat)
    (subs : List Subrange) (walk : Walk) :
    walk.Extends boundary (subs.map alloc.loadOf)
      (subs.foldl (alloc.insertLoad boundary) walk) := by
  induction subs generalizing walk with
  | nil => exact .refl boundary walk
  | cons sub subs ih =>
    exact (inserted_insertLoad alloc boundary walk sub).extends.trans
      (ih (alloc.insertLoad boundary walk sub))

theorem storesOf_placed (alloc : Allocation) (walk : Walk) (slots : List Nat) :
    alloc.storesOf (slots.filterMap (walk.placed[·]?)) =
      alloc.storesOf (slots.filterMap (walk.subranges[·]?)) := by
  induction slots with
  | nil => rfl
  | cons slot slots ih =>
    have placed := getElem?_placed walk slot
    cases found : walk.subranges[slot]? with
    | none =>
      rw [found] at placed
      rwa [filterMap_cons_none placed, filterMap_cons_none found]
    | some sub =>
      rw [found] at placed
      rw [filterMap_cons_some placed, filterMap_cons_some found, storesOf, storesOf,
        filter_cons, filter_cons]
      cases sub.hasStore with
      | false => exact ih
      | true => exact congrArg (alloc.storeOf sub :: ·) ih

section

variable (walking : alloc.Walking subs index [] walk.holders walk) (seats : alloc.Seats length subs)
  (inside : length ≤ index) (room : index + walk.count < atExit)

include walking seats inside room

theorem Walking.atExit_iff {slot : Nat} (found : subs[slot]? = some sub) :
    ∃ start stop, walk.placed[slot]? = some { sub with start, stop } ∧
      (start = .atExit ↔ sub.start = .atExit) ∧ (stop = .atExit ↔ sub.stop = .atExit) := by
  obtain ⟨start, started, starts, -⟩ := walking.starts found
  obtain ⟨stop, stopped, stops⟩ := walking.stops found
  have before := seats.start_lt sub (mem_of_getElem? found)
  have within := seats.stop_le sub (mem_of_getElem? found)
  refine ⟨start, stop, ?_, ?_, ?_⟩
  · rw [getElem?_placed, walking.subranges_eq, getElem?_toArray, found]
    simp [Array.getD_eq_getD_getElem?, started, stopped]
  · exact starts.eq_exit_iff (by push_cast; lia) (by push_cast; lia)
  · exact stops.succ.eq_exit_iff (by push_cast; lia) (by push_cast; lia)

theorem Walking.loadsOf_placed (slots : List Nat) :
    ((slots.filterMap (walk.placed[·]?)).filter fun sub =>
        sub.start = .atExit && !sub.noLoad).map alloc.loadOf =
      alloc.loadsOf ((slots.filterMap (subs[·]?)).filter (·.start = .atExit)) := by
  induction slots with
  | nil => rfl
  | cons slot slots ih =>
    cases found : subs[slot]? with
    | none =>
      have placed : walk.placed[slot]? = none := by
        rw [getElem?_placed, walking.subranges_eq, getElem?_toArray, found]
        rfl
      rwa [filterMap_cons_none placed, filterMap_cons_none found]
    | some sub =>
      obtain ⟨start, stop, placed, starts, -⟩ := walking.atExit_iff seats inside room found
      rw [filterMap_cons_some placed, filterMap_cons_some found, filter_cons, filter_cons]
      by_cases exit : sub.start = .atExit
      · simp only [starts, exit, decide_true, Bool.true_and, if_pos, loadsOf, filter_cons]
        cases sub.noLoad with
        | false => exact congrArg (alloc.loadOf sub :: ·) ih
        | true => exact ih
      · simp only [starts, exit, decide_false, Bool.false_and, Bool.false_eq_true, if_false]
        exact ih

theorem Walking.leave {last : Nat} (left : alloc.leave seg last walk = .ok after) :
    walk.Extends last (alloc.storesOf walk.holders ++
        alloc.loadsOf (subs.filter (·.start = .atExit))) after ∧
      ∀ sub ∈ walk.holders, sub.stop = .atExit := by
  unfold Allocation.leave at left
  dsimp only at left
  split at left
  · cases left
  next leaving =>
    cases left
    constructor
    · have stored := extends_foldl_finish alloc last (walk.live.filterMap (walk.placed[·]?)) walk
      rw [storesOf_placed] at stored
      refine stored.trans ?_
      have slots : walk.placed.toList = (List.range subs.length).filterMap (walk.placed[·]?) := by
        have size : walk.placed.toList.length = subs.length := by
          simp [placed, walking.subranges_eq]
        have listed := filterMap_range_getElem? walk.placed.toList
        simp only [Array.getElem?_toList, size] at listed
        exact listed.symm
      have loads := walking.loadsOf_placed seats inside room (List.range subs.length)
      rw [← slots, filterMap_range_getElem?] at loads
      rw [← loads]
      exact extends_foldl_insertLoad ..
    · intro sub mem
      obtain ⟨slot, live, found⟩ := mem_filterMap.mp mem
      rw [walking.subranges_eq, getElem?_toArray] at found
      obtain ⟨start, stop, placed, -, stops⟩ := walking.atExit_iff seats inside room found
      have exit := find?_eq_none.mp leaving _ (mem_filterMap.mpr ⟨slot, live, placed⟩)
      exact stops.mp (by simpa using exit)

end

end Dynarec.Allocation
