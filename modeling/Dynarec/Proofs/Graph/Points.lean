import Dynarec.Proofs.Allocation.Walk

/-!
# Points of a segment

A point stands for an instruction, or for the end of the code.  When code is
put in or taken out, points and instructions move in the same way, so a point
stands for its instruction as long as that is there.
-/

namespace Dynarec.Segment

open List Position

/-- What is done to the code and the points of a segment. -/
inductive Edit where
  | insert (index : Nat) (code : Code)
  | append (code : Code)
  | remove (index count : Nat)
  | register (id : Nat) (position : Position)
  | unregister (id : Nat)

/-- A place of a segment, its end or a boundary. -/
def Has (seg : Segment) (position : Position) : Prop :=
  position ≤ seg.length ∨ position = atExit
deriving Decidable

/-- A segment whose attached points are inside. -/
structure Pointed (seg : Segment) : Prop where
  short : seg.length < atExit
  inside : ∀ point ∈ seg.points, point.attached → seg.Has point.position

variable {segment : Segment} {edit : Edit} {index number : Nat}

/-! ## One change -/

namespace Edit

def perform (seg : Segment) : Edit → Segment
  | insert index code => seg.insert index code
  | append code => seg.append code
  | remove index count => seg.remove index count
  | register id pos => seg.addPoint id pos
  | unregister id => seg.detachPoint id

/-- A change that is made inside of a segment and leaves it short. -/
def IsAllowed (seg : Segment) (edit : Edit) : Prop :=
  (edit.perform seg).length < atExit ∧
    match edit with
    | insert index _ => index ≤ seg.length
    | remove index count => index + count ≤ seg.length
    | register _ pos => seg.Has pos
    | _ => True

/-- Where an instruction is found after a change, if it is still there. -/
def follow (edit : Edit) (index : Nat) : Option Nat :=
  match edit with
  | insert start code => some (if index < start then index else index + code.length)
  | remove start count =>
      if index < start then some index
      else if index < start + count then none
      else some (index - count)
  | _ => some index

/-- Where a place is found after a change. -/
def move (edit : Edit) (position : Position) : Position :=
  match edit with
  | insert index code => position.afterInsert index code.length
  | remove index count => position.afterRemove index count
  | _ => position

theorem isSentinel_iff : pos.isSentinel ↔ pos = atEntry ∨ pos = atExit :=
  Bool.or_eq_true_iff.trans (or_congr decide_eq_true_iff decide_eq_true_iff)

theorem move_sentinel (edit : Edit) (sentinel : pos.isSentinel) : edit.move pos = pos := by
  cases edit with
  | insert | remove => simp [move, afterInsert, afterRemove, sentinel]
  | _ => rfl

/-- A point moves if it is attached. -/
theorem getElem?_points (edit : Edit) (found : segment.points[number]? = some point) :
    ∃ later, (edit.perform segment).points[number]? = some later ∧ later.id = point.id ∧
      (later.attached → point.attached) ∧
      later.position = if point.attached then edit.move point.position else point.position := by
  cases edit with
  | insert | remove =>
    refine ⟨_, (getElem?_map ..).trans (congrArg _ found), ?_⟩
    rw [movePoint]
    split <;> simp_all [move]
  | append code => exact ⟨point, found, rfl, fun kept => kept, (ite_self _).symm⟩
  | register id pos =>
    have inside := (List.getElem?_eq_some_iff.mp found).1
    exact ⟨point, (getElem?_append_left inside).trans found, rfl, fun kept => kept,
      (ite_self _).symm⟩
  | unregister id =>
    refine ⟨_, (getElem?_map ..).trans (congrArg _ found), ?_⟩
    by_cases same : point.id = id <;> simp [same, move]

/-- A change in numbers: so many instructions from an index on give way to so many others. -/
structure Replaces (seg : Segment) (edit : Edit) (index removed added : Nat) : Prop where
  within : removed = 0 ∨ index + removed ≤ seg.length
  length_eq : (edit.perform seg).length = seg.length - removed + added
  move_eq : ∀ {pos}, seg.Has pos → edit.move pos = if pos < index ∨ pos = atExit then pos
    else if pos < index + removed then (index : Position) else pos - removed + added
  follow_eq : ∀ {place later}, place < seg.length → edit.follow place = some later →
    (edit.perform seg).instructions[later]? = seg.instructions[place]? ∧ edit.move place = later

theorem replaces_insert (inside : index ≤ segment.length)
    (room : segment.length + code.length < atExit) :
    Replaces segment (insert index code) index 0 code.length := by
  have moved {pos} (has : segment.Has pos) : (insert index code).move pos =
        if pos < index ∨ pos = atExit then pos else pos + code.length := by
    rw [move, afterInsert]
    simp only [Bool.and_eq_true, Bool.not_eq_true', Bool.eq_false_iff, ne_eq, isSentinel_iff,
      decide_eq_true_eq, atEntry]
    unfold Has at has
    split
    · rw [wrap_eq (by unfold atEntry; lia) (by lia), if_neg (by lia)]
    · rw [if_pos (by lia)]
  refine ⟨.inl rfl, ?_, fun has => ?_, fun {place later} listed found => ?_⟩
  · simp only [perform, length, Segment.insert, length_append, length_take, length_drop] at inside ⊢
    lia
  · rw [moved has]
    grind
  · rw [moved (.inl (by lia))]
    simp only [perform, Segment.insert, length] at inside listed room ⊢
    rw [follow] at found
    grind

theorem replaces_remove {count} (inside : index + count ≤ segment.length)
    (short : segment.length < atExit) : Replaces segment (remove index count) index count 0 := by
  have moved {pos} : (remove index count).move pos =
      if pos < index ∨ pos = atExit then pos
      else if pos < index + count then (index : Position) else pos - count := by
    rw [move, afterRemove]
    simp only [Bool.or_eq_true, isSentinel_iff, decide_eq_true_eq, atEntry]
    grind
  refine ⟨.inr inside, ?_, fun has => ?_, fun {place later} listed found => ?_⟩
  · simp only [perform, length, Segment.remove, length_append, length_take, length_drop] at inside ⊢
    lia
  · rw [moved]
    grind
  · rw [moved]
    simp only [perform, Segment.remove, length] at inside listed short ⊢
    rw [follow] at found
    grind

section

variable (short : segment.length < atExit) (allowed : edit.IsAllowed segment)

include short allowed

theorem exists_replaces : ∃ index removed added, Replaces segment edit index removed added := by
  cases edit with
  | insert index code =>
    obtain ⟨after, inside⟩ := allowed
    refine ⟨index, 0, code.length, replaces_insert inside ?_⟩
    simp only [perform, length, Segment.insert, length_append, length_take, length_drop] at after ⊢
    lia
  | remove index count => exact ⟨index, count, 0, replaces_remove allowed.2 short⟩
  | append code =>
    refine ⟨segment.length + 1, 0, code.length, .inl rfl, length_append, fun has => ?_, ?_⟩
    · unfold Has at has
      rw [if_pos (by lia)]
      rfl
    · rintro place _ listed ⟨⟩
      exact ⟨getElem?_append_left listed, rfl⟩
  | register | unregister =>
    refine ⟨segment.length + 1, 0, 0, .inl rfl, rfl, fun has => ?_, ?_⟩
    · unfold Has at has
      rw [if_pos (by lia)]
      rfl
    · rintro place _ listed ⟨⟩
      exact ⟨rfl, rfl⟩

theorem has_move (has : segment.Has pos) : (edit.perform segment).Has (edit.move pos) := by
  obtain ⟨index, removed, added, within, length_eq, moved, -⟩ := exists_replaces short allowed
  rw [moved has]
  unfold Has at has ⊢
  split
  · lia
  · split <;> lia

theorem move_le_move (has : segment.Has pos) (otherHas : segment.Has other)
    (le : pos ≤ other) : edit.move pos ≤ edit.move other := by
  obtain ⟨index, removed, added, within, length_eq, moved, -⟩ := exists_replaces short allowed
  have shortAfter := allowed.1
  rw [moved has, moved otherHas]
  unfold Has at has otherHas
  split <;> split <;> (try split) <;> (try split) <;> lia

end

theorem pointed_perform (pointed : segment.Pointed) (allowed : edit.IsAllowed segment) :
    (edit.perform segment).Pointed := by
  refine ⟨allowed.1, fun later listed attached => ?_⟩
  obtain ⟨number, found⟩ := mem_iff_getElem?.mp listed
  by_cases old : number < segment.points.length
  · obtain ⟨moved, known, -, before, position_eq⟩ := getElem?_points edit (getElem?_eq_getElem old)
    cases found.symm.trans known
    rw [position_eq, if_pos (before attached)]
    exact has_move pointed.short allowed (pointed.inside _ (getElem_mem old) (before attached))
  · cases edit with
    | register id pos =>
      rw [perform, addPoint, getElem?_append_right (Nat.not_lt.mp old)] at found
      cases mem_singleton.mp (mem_of_getElem? found)
      exact allowed.2
    | insert | remove | unregister =>
      exact absurd ((List.getElem?_eq_some_iff.mp found).1)
        (by simpa [perform, Segment.insert, Segment.remove, detachPoint] using old)
    | append => exact absurd (List.getElem?_eq_some_iff.mp found).1 old

end Edit

/-! ## Several changes -/

def performAll (seg : Segment) (edits : List Edit) : Segment :=
  edits.foldl (fun seg edit => edit.perform seg) seg

/-- Changes each of which is allowed when it is made. -/
def AllowsAll (seg : Segment) : List Edit → Prop
  | [] => True
  | edit :: edits => edit.IsAllowed seg ∧ (edit.perform seg).AllowsAll edits

/-- Where an instruction is found after several changes, if it is still there. -/
def followAll : List Edit → Nat → Option Nat
  | [], index => some index
  | edit :: edits, index => (edit.follow index).bind (followAll edits)

/-- Where a place is found after several changes. -/
def moveAll (edits : List Edit) (position : Position) : Position :=
  edits.foldl (fun position edit => edit.move position) position

/-- Boundaries and points that are not attached stay, and attached points move. -/
theorem getElem?_performAll (edits : List Edit) (found : segment.points[number]? = some point) :
    ∃ moved, (segment.performAll edits).points[number]? = some moved ∧ moved.id = point.id ∧
      (point.attached = false ∨ point.position.isSentinel → moved.position = point.position) ∧
      (moved.attached → point.attached ∧ moved.position = moveAll edits point.position) := by
  induction edits generalizing segment point with
  | nil => exact ⟨point, found, rfl, fun _ => rfl, fun attached => ⟨attached, rfl⟩⟩
  | cons edit edits ih =>
    obtain ⟨next, here, id_eq, before, position_eq⟩ := Edit.getElem?_points edit found
    obtain ⟨moved, there, moved_id, stays, moves⟩ := ih here
    refine ⟨moved, there, moved_id.trans id_eq, fun still => ?_, fun attached => ?_⟩
    · have same : next.position = point.position := by
        rw [position_eq, ite_eq_right_iff]
        exact fun attached => edit.move_sentinel (still.resolve_left (by simp [attached]))
      exact (stays (still.imp (fun detached => by simpa [detached] using before)
        (same ▸ ·))).trans same
    · obtain ⟨later, rest⟩ := moves attached
      exact ⟨before later, by rw [rest, position_eq, if_pos (before later)]; rfl⟩

section

variable (pointed : segment.Pointed) (allowed : segment.AllowsAll edits)

include pointed allowed

theorem pointed_performAll : (segment.performAll edits).Pointed := by
  induction edits generalizing segment with
  | nil => exact pointed
  | cons edit edits ih => exact ih (Edit.pointed_perform pointed allowed.1) allowed.2

theorem moveAll_le_moveAll (has : segment.Has pos) (otherHas : segment.Has other)
    (le : pos ≤ other) : moveAll edits pos ≤ moveAll edits other := by
  induction edits generalizing segment pos other with
  | nil => exact le
  | cons edit edits ih =>
    have short := pointed.short
    exact ih (Edit.pointed_perform pointed allowed.1) allowed.2 (Edit.has_move short allowed.1 has)
      (Edit.has_move short allowed.1 otherHas) (Edit.move_le_move short allowed.1 has otherHas le)

theorem moveAll_of_followAll (inside : index < segment.length)
    (found : followAll edits index = some place) : moveAll edits index = place ∧
      (segment.performAll edits).instructions[place]? = segment.instructions[index]? := by
  induction edits generalizing segment index with
  | nil =>
    cases found
    exact ⟨rfl, rfl⟩
  | cons edit edits ih =>
    obtain ⟨middle, here, found⟩ := Option.bind_eq_some_iff.mp found
    obtain ⟨_, _, _, replaces⟩ := Edit.exists_replaces pointed.short allowed.1
    obtain ⟨same, moved⟩ := replaces.follow_eq inside here
    have listed : middle < (edit.perform segment).length := by
      rw [getElem?_eq_getElem inside] at same
      exact (List.getElem?_eq_some_iff.mp same).1
    obtain ⟨rest, code⟩ := ih (Edit.pointed_perform pointed allowed.1) allowed.2 listed found
    exact ⟨(congrArg _ moved).trans rest, code.trans same⟩

end

theorem Pointed.remove_insert (pointed : segment.Pointed)
    (inside : index ≤ segment.length) (room : segment.length + code.length < atExit) :
    (segment.insert index code).remove index code.length = segment := by
  have put := Edit.replaces_insert inside room
  have grown : (segment.insert index code).length = segment.length - 0 + code.length :=
    put.length_eq
  have taken := Edit.replaces_remove (show index + code.length ≤ _ by rw [grown]; lia) (by lia)
  have code_eq : (segment.insert index code).instructions.take index ++
      (segment.insert index code).instructions.drop (index + code.length) =
        segment.instructions := by
    have front : (segment.instructions.take index).length = index := length_take_of_le inside
    rw [Segment.insert, append_assoc, take_left' front, ← drop_drop, drop_left' front, drop_left,
      take_append_drop]
  have points_eq : (segment.insert index code).points.map
      (movePoint (·.afterRemove index code.length)) = segment.points := by
    rw [Segment.insert, map_map]
    refine (map_congr_left fun point mem => ?_).trans (map_id' _)
    obtain ⟨id, pos, attached⟩ := point
    cases attached with
    | false => rfl
    | true =>
      have has := pointed.inside _ mem rfl
      have there := put.move_eq has
      have grows : (segment.insert index code).Has ((Edit.insert index code).move pos) := by
        unfold Has at has ⊢
        lia
      exact congrArg (Point.mk id · true) ((taken.move_eq grows).trans (by unfold Has at has; lia))
  rw [Segment.remove, code_eq, points_eq]
  rfl

/-- Points follow their instructions while code is put into a segment and taken out of it.  A point
that is attached stands for the same instruction as long as that is not taken out; boundaries and
points that are not attached stay.  Points keep their order.  When the instruction of a point is
taken out, the point stands for the next one that is left, or the end.  To take out what was put in
restores the segment. -/
theorem points_follow_instructions
    (pointed : segment.Pointed)
    (allowed : segment.AllowsAll edits) :
    let later := segment.performAll edits
    later.Pointed ∧
    (∀ (number : Nat) point, segment.points[number]? = some point →
      ∃ moved, later.points[number]? = some moved ∧ moved.id = point.id ∧
        (point.attached = false ∨ point.position.isSentinel → moved.position = point.position) ∧
        ∀ index place : Nat, moved.attached → point.position = index → index < segment.length →
          followAll edits index = some place → moved.position = place ∧
            later.instructions[place]? = segment.instructions[index]?) ∧
    (∀ (number next : Nat) point other moved otherMoved,
      segment.points[number]? = some point → later.points[number]? = some moved →
      segment.points[next]? = some other → later.points[next]? = some otherMoved →
      moved.attached → otherMoved.attached → point.position ≤ other.position →
      moved.position ≤ otherMoved.position) ∧
    (∀ index count, index + count ≤ later.length → ∀ (number : Nat) point,
      later.points[number]? = some point → point.attached → index ≤ point.position →
      point.position < index + count →
      ∃ moved, (later.remove index count).points[number]? = some moved ∧ moved.position = index ∧
        (later.remove index count).instructions[index]? = later.instructions[index + count]?) ∧
    ∀ index code, index ≤ later.length → later.length + code.length < atExit →
      (later.insert index code).remove index code.length = later := by
  intro later
  have ended : later.Pointed := pointed_performAll pointed allowed
  have has {number : Nat} {point : Point} (found : segment.points[number]? = some point) :=
    pointed.inside point (mem_of_getElem? found)
  refine ⟨ended, ?_, ?_, ?_, fun index code => ended.remove_insert⟩
  · intro number point found
    obtain ⟨moved, there, id_eq, stays, moves⟩ := getElem?_performAll edits found
    refine ⟨moved, there, id_eq, stays, fun index place attached position_eq inside followed => ?_⟩
    obtain ⟨moveAll_eq, code⟩ := moveAll_of_followAll pointed allowed inside followed
    exact ⟨(moves attached).2.trans (position_eq ▸ moveAll_eq), code⟩
  · intro number next point other moved otherMoved found there otherFound otherThere attached
      otherAttached le
    obtain ⟨_, known, -, -, moves⟩ := getElem?_performAll edits found
    obtain ⟨_, otherKnown, -, -, otherMoves⟩ := getElem?_performAll edits otherFound
    cases there.symm.trans known
    cases otherThere.symm.trans otherKnown
    obtain ⟨before, position_eq⟩ := moves attached
    obtain ⟨otherBefore, otherPosition_eq⟩ := otherMoves otherAttached
    rw [position_eq, otherPosition_eq]
    exact moveAll_le_moveAll pointed allowed (has found before) (has otherFound otherBefore) le
  · intro index count inside number point found attached above below
    obtain ⟨moved, there, -, -, position_eq⟩ := Edit.getElem?_points (.remove index count) found
    have replaces := Edit.replaces_remove inside ended.short
    refine ⟨moved, there, ?_, ?_⟩
    · have short := ended.short
      rw [position_eq, if_pos attached, replaces.move_eq (.inl (by lia)), if_neg (by lia),
        if_pos below]
    · have front : (later.instructions.take index).length = index :=
        length_take_of_le (Nat.le_of_add_right_le inside)
      rw [Segment.remove, getElem?_append_right (Nat.le_of_eq front), front, Nat.sub_self,
        getElem?_drop, Nat.add_zero]

/-- The points at the second and the third of three instructions follow when the first gives way
to two others. -/
theorem moved_points_follow_instructions :
    ∃ segment : Segment, ∃ moved, segment.points[1]? = some { id := 1, position := 2 } ∧
      (segment.performAll [.insert 0 [.noOp, .noOp], .remove 2 1]).points[1]? = some moved ∧
      moved.position = 3 := by
  let segment : Segment := {
    id := 0, instructions := [.noOp, .jump 4, .jump 8]
    points := [{ id := 0, position := 1 }, { id := 1, position := 2 }] }
  have pointed : segment.Pointed := ⟨by decide, by decide⟩
  have allowed : segment.AllowsAll [.insert 0 [.noOp, .noOp], .remove 2 1] :=
    ⟨⟨by decide, by decide⟩, ⟨by decide, by decide⟩, trivial⟩
  obtain ⟨-, follows, -⟩ := points_follow_instructions pointed allowed
  obtain ⟨moved, found, -, -, stays⟩ := follows 1 _ rfl
  cases found
  exact ⟨segment, _, rfl, rfl, (stays 2 3 rfl rfl (by decide) rfl).1⟩

end Dynarec.Segment
