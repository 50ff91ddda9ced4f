import Dynarec.Proofs.Graph.Generated
import Dynarec.Proofs.Run.Interpreter

/-!
# Streams and their segments

A place in a stream is a place in the graph of the stream: what is left of the
stream without its placeholders is what is left of a segment, and the segments
behind it.  So the graph and the stream execute each other.
-/

namespace Dynarec

open Dynarec.Graph Instruction Interpreter List Segment

namespace Graph

/-! ## What stands from a segment on -/

/-- The code from a segment on, without placeholders. -/
def codeFrom (code : Code) (id : SegmentId) : Code :=
  ((runs code).drop id).flatMap bodyOf

section

variable {id : SegmentId}

theorem codeFrom_of_run (found : (runs code)[id]? = some run) :
    codeFrom code id = bodyOf run ++ codeFrom code (id + 1) := by
  obtain ⟨inside, rfl⟩ := List.getElem?_eq_some_iff.mp found
  rw [codeFrom, drop_eq_getElem_cons inside, flatMap_cons, codeFrom]

theorem codeFrom_of_length_le (behind : (runs code).length ≤ id) : codeFrom code id = [] := by
  rw [codeFrom, drop_eq_nil_of_le behind, flatMap_nil]

theorem bodyOf_append (front back : Code) : bodyOf (front ++ back) = bodyOf front ++ bodyOf back :=
  filter_append front back

theorem bodyOf_flatten (list : List Code) : bodyOf list.flatten = list.flatMap bodyOf := by
  rw [bodyOf, filter_flatten, flatMap_def]
  rfl

theorem bodyOf_eq_append (id : SegmentId) :
    bodyOf code = ((runs code).take id).flatMap bodyOf ++ codeFrom code id := by
  rw [codeFrom, ← flatMap_append, take_append_drop, runs, ← bodyOf_flatten, flatten_splitBy]

theorem bodyOf_of_joined (joined : (front ++ back).IsChain fun previous next => joins previous next)
    (listed : mark ∈ back) (placeholder : mark.isPlaceholder) :
    bodyOf (front ++ back) = bodyOf back := by
  suffices empty : bodyOf front = [] by rw [bodyOf_append, empty, nil_append]
  rw [bodyOf, filter_eq_nil_iff]
  intro instr mem inside
  obtain ⟨before, behind, rfl⟩ := append_of_mem mem
  rw [append_assoc, isChain_append] at joined
  rw [Bool.not_eq_true'] at inside
  have plain := not_isPlaceholder_of_chain joined.2.1 inside mark
    (mem_cons_of_mem _ (mem_append_right _ listed))
  rw [placeholder] at plain
  cases plain

theorem bodyOf_dropWhile_ne (found : (runs code)[id]? = some run) (placeholder : mark.isPlaceholder)
    (listed : mark ∈ run) (first : ∀ other ∈ (runs code).take id, mark ∉ other) :
    bodyOf (code.dropWhile (· ≠ mark)) = codeFrom code id := by
  obtain ⟨inside, found_eq⟩ := List.getElem?_eq_some_iff.mp found
  have split : code = ((runs code).take id).flatten ++
      (run ++ ((runs code).drop (id + 1)).flatten) := by
    rw [← found_eq, ← flatten_cons, ← drop_eq_getElem_cons inside, ← flatten_append,
      take_append_drop, runs, flatten_splitBy]
  have front : ∀ instr ∈ ((runs code).take id).flatten,
      decide (instr ≠ mark) = true := by
    intro instr mem
    obtain ⟨other, earlier, inOther⟩ := mem_flatten.mp mem
    rw [decide_eq_true_eq]
    rintro rfl
    exact first other earlier inOther
  have reached : mark ∈ run.dropWhile (· ≠ mark) := by
    rw [← takeWhile_append_dropWhile (p := fun instr => decide (instr ≠ mark))
      (l := run), mem_append] at listed
    refine listed.resolve_left fun before => ?_
    have differs := mem_takeWhile_imp before
    rw [decide_eq_true_eq] at differs
    exact differs rfl
  have joined := isChain_of_mem_splitBy (mem_of_getElem? found)
  rw [← takeWhile_append_dropWhile (p := fun instr => decide (instr ≠ mark)) (l := run)] at joined
  have body := bodyOf_of_joined joined reached placeholder
  rw [takeWhile_append_dropWhile] at body
  rw [codeFrom_of_run found, body]
  conv_lhs => rw [split]
  rw [dropWhile_append_of_pos front, dropWhile_append, if_neg, bodyOf_append,
    bodyOf_flatten, codeFrom]
  rw [List.isEmpty_iff]
  exact ne_nil_of_mem reached

theorem dropWhile_ne_filter (kept : keep mark) (code : Code) :
    (code.filter keep).dropWhile (· ≠ mark) = (code.dropWhile (· ≠ mark)).filter keep := by
  induction code with
  | nil => rfl
  | cons instr code ih =>
    by_cases same : instr = mark
    · subst same
      simp [kept]
    · by_cases keeps : keep instr = true
      · simpa [keeps, same] using ih
      · simpa [keeps, same] using ih

theorem bodyOf_dropUnused (targets : List Address) (code : Code) :
    bodyOf (code.filter fun instr =>
      !(instr.kind = .jumpmark && instr.target ∉ targets)) = bodyOf code := by
  rw [bodyOf, filter_filter, bodyOf]
  refine filter_congr fun instr _ => ?_
  simp only [isPlaceholder]
  grind

end

end Graph

/-! ## Placeholders of a stream -/

namespace Stream.Tiled

variable {stream : Stream} (tiled : stream.Tiled list)

include tiled

theorem eq_of_isPlaceholder (listed : mark ∈ stream.trimmed list)
    (placeholder : mark.isPlaceholder) :
    mark = .jumpmark mark.origin ∨
      mark = .enter mark.origin ∧ ∃ piece ∈ list, piece.address = mark.origin := by
  rcases mem_trimmed_iff.mp listed with ⟨piece, mem, inMarks⟩ | ⟨piece, mem, guest⟩ | closing
  · rw [Piece.marks, mem_append] at inMarks
    rcases inMarks with jumpmark | enter
    · split at jumpmark
      · rw [mem_singleton.mp jumpmark]
        exact .inl rfl
      · cases jumpmark
    · split at enter
      · rw [mem_singleton.mp enter]
        exact .inr ⟨rfl, piece, mem, rfl⟩
      · cases enter
  · rw [(tiled.isGuest mem mark guest).inside] at placeholder
    cases placeholder
  · unfold Stream.closing at closing
    split at closing
    · rcases mem_cons.mp closing with rfl | behind
      · exact .inl rfl
      · rw [mem_singleton.mp behind] at placeholder
        cases placeholder
    · split at closing
      · cases closing
      · rw [mem_singleton.mp closing] at placeholder
        cases placeholder

section

variable (listedRun : run ∈ runs (stream.trimmed list))

include listedRun

theorem exists_of_isMarked {kind} (isMark : kind = .jumpmark ∨ kind = .enter)
    (marked : isMarked kind run) :
    ∃ mark ∈ run, mark ∈ stream.trimmed list ∧ mark.kind = kind ∧ mark.isPlaceholder ∧
      mark.origin = startOf run := by
  obtain ⟨mark, listed, kind_eq⟩ := any_eq_true.mp marked
  rw [decide_eq_true_eq] at kind_eq
  have placeholder : mark.isPlaceholder := by
    rw [isPlaceholder, kind_eq]
    simpa using isMark
  exact ⟨mark, listed, mem_iff_exists_run.mpr ⟨run, listedRun, listed⟩, kind_eq, placeholder,
    (isRun_of_mem tiled.arranged listedRun).origin_mark mark listed placeholder⟩

theorem jumpmark_mem (marked : isMarked .jumpmark run) : .jumpmark (startOf run) ∈ run := by
  obtain ⟨mark, listed, inCode, kind_eq, placeholder, origin⟩ :=
    tiled.exists_of_isMarked listedRun (.inl rfl) marked
  rw [← origin]
  rcases tiled.eq_of_isPlaceholder inCode placeholder with jumpmark | ⟨enter, -⟩
  · rwa [← jumpmark]
  · rw [enter] at kind_eq
    cases kind_eq

theorem enter_mem (marked : isMarked .enter run) :
    .enter (startOf run) ∈ run ∧ ∃ piece ∈ list, piece.address = startOf run := by
  obtain ⟨mark, listed, inCode, kind_eq, placeholder, origin⟩ :=
    tiled.exists_of_isMarked listedRun (.inr rfl) marked
  rw [← origin]
  rcases tiled.eq_of_isPlaceholder inCode placeholder with jumpmark | ⟨enter, ofPiece⟩
  · rw [jumpmark] at kind_eq
    cases kind_eq
  · rw [← enter]
    exact ⟨listed, ofPiece⟩

end

theorem bodyOf_trimmed : bodyOf (stream.trimmed list) = bodyOf stream.instructions := by
  rw [← tiled.dropUnusedJumpmarks_eq, dropUnusedJumpmarks, bodyOf_dropUnused]

theorem bodyOf_dropWhile_trimmed (listed : mark ∈ stream.trimmed list) :
    bodyOf ((stream.trimmed list).dropWhile (· ≠ mark)) =
      bodyOf (stream.instructions.dropWhile (· ≠ mark)) := by
  rw [← tiled.dropUnusedJumpmarks_eq, dropUnusedJumpmarks] at listed ⊢
  rw [dropWhile_ne_filter (mem_filter.mp listed).2, bodyOf_dropUnused]

end Stream.Tiled

namespace Graph.IsBase

variable {stream : Stream}
  (base : IsBase (stream.trimmed list) g) (tiled : stream.Tiled list) {id : SegmentId}

include base tiled

theorem bodyOf_fromPlaceholder (found : (runs (stream.trimmed list))[id]? = some run)
    (opens : (g.segment id).opens) (listed : mark ∈ run) (placeholder : mark.isPlaceholder) :
    bodyOf (stream.instructions.dropWhile (· ≠ mark)) = codeFrom (stream.trimmed list) id := by
  rw [← tiled.bodyOf_dropWhile_trimmed
    (mem_iff_exists_run.mpr ⟨run, mem_of_getElem? found, listed⟩)]
  refine bodyOf_dropWhile_ne found placeholder listed fun other earlier inOther => ?_
  -- Everything in an earlier run belongs to an earlier address.
  obtain ⟨index, otherFound⟩ := mem_iff_getElem?.mp earlier
  rw [getElem?_take] at otherFound
  split at otherFound
  next less =>
    exact UInt32.lt_irrefl _
      (base.origin_lt tiled.arranged otherFound found less opens mark inOther mark listed)
  · cases otherFound

theorem bodyOf_fromJumpmark {next target} (mem : id ∈ g.order)
    (jumps : (g.segment id).jumpTarget? = some target)
    (linked : (g.segment id).link true = some next) :
    bodyOf (stream.fromJumpmark target) = codeFrom (stream.trimmed list) next := by
  rw [base.taken_eq mem, jumps, Option.bind_some] at linked
  obtain ⟨nextMem, named, addr⟩ := of_destination?_eq_some base.numbered linked
  obtain ⟨run, found, -⟩ := base.exists_run nextMem
  have marked := named
  rw [base.isDestination_eq found] at marked
  rw [base.jumpAddress_eq found, if_pos marked] at addr
  rw [Stream.fromJumpmark, ← addr]
  exact base.bodyOf_fromPlaceholder tiled found (by simp [opens, named])
    (tiled.jumpmark_mem (mem_of_getElem? found) marked) rfl

theorem bodyOf_fromEntry (entry_eq : g.entry = stream.entry) (mem : id ∈ g.order)
    (enterable : (g.segment id).enterable) :
    bodyOf (stream.fromEntry (g.segment id).enterAddress) = codeFrom (stream.trimmed list) id := by
  obtain ⟨run, found, start⟩ := base.exists_run mem
  have listedRun := mem_of_getElem? found
  have marked := enterable
  rw [base.enterable_eq found] at marked
  rw [base.enterAddress_eq found, Stream.fromEntry]
  by_cases first : id = 0
  · subst first
    rw [if_pos rfl, if_pos entry_eq, ← tiled.bodyOf_trimmed, bodyOf_eq_append 0]
    rfl
  · rw [decide_eq_false first, Bool.false_or] at marked
    obtain ⟨listed, piece, pieceMem, addr⟩ := tiled.enter_mem listedRun marked
    have opens : (g.segment id).opens = true := by simp [opens, enterable]
    -- The code begins at the entry, and this segment stands behind the first one.
    have later : startOf run ≠ stream.entry := by
      have nonempty : list ≠ [] := ne_nil_of_mem pieceMem
      have zero := base.zero_mem tiled.trimmed_ne_nil
      have less := base.start_lt tiled.arranged zero mem (Nat.pos_of_ne_zero first) opens
      rw [base.start_zero_of_head (fun _ => tiled.origin_head_of_ne_nil nonempty) zero,
        start] at less
      rintro equal
      rw [equal] at less
      exact UInt32.lt_irrefl _ less
    rw [if_neg first, if_pos marked, if_neg later]
    exact base.bodyOf_fromPlaceholder tiled found opens listed rfl

end Graph.IsBase

/-! ## The stream and its graph -/

section

variable {V E : Type} (interp : Interpreter V E) {mark : Instruction Register}

theorem isSuffix_of_isPlaceholder (placeholder : mark.isPlaceholder) : mark.isSuffix = false := by
  rw [isPlaceholder, Bool.or_eq_true, decide_eq_true_eq, decide_eq_true_eq] at placeholder
  rcases placeholder with kind_eq | kind_eq <;> simp [isSuffix, kind_eq]

theorem perform_of_isPlaceholder (placeholder : mark.isPlaceholder) (state : State V E) :
    interp.perform mark state = (state, []) := by
  rw [isPlaceholder, Bool.or_eq_true, decide_eq_true_eq, decide_eq_true_eq] at placeholder
  rcases placeholder with kind_eq | kind_eq <;> simp [perform, kind_eq]

variable (stream : Stream)

theorem Stream.step_of_isPlaceholder (placeholder : mark.isPlaceholder) (rest : Code)
    (state : State V E) :
    stream.Step interp (.before (mark :: rest) state) [] (.before rest state) := by
  have one : stream.Step interp _ _ _ := .perform rest state (isSuffix_of_isPlaceholder placeholder)
  rwa [perform_of_isPlaceholder interp placeholder] at one

theorem Stream.runs_to_instruction (rest_eq : bodyOf rest = instr :: more) (state : State V E) :
    ∃ behind, instr :: behind <:+ rest ∧ bodyOf behind = more ∧
      Runs (stream.Step interp) (.before rest state) [] (.before (instr :: behind) state) := by
  induction rest with
  | nil => cases rest_eq
  | cons first rest ih =>
    cases placeholder : first.isPlaceholder with
    | true =>
      rw [bodyOf, filter_cons, if_neg (by simp [placeholder])] at rest_eq
      obtain ⟨behind, suffix, behind_eq, run⟩ := ih rest_eq
      exact ⟨behind, suffix.trans (suffix_cons first rest), behind_eq,
        .head (stream.step_of_isPlaceholder interp placeholder rest state) run⟩
    | false =>
      rw [bodyOf, filter_cons, if_pos (by simp [placeholder])] at rest_eq
      cases rest_eq
      exact ⟨rest, suffix_refl _, rfl, .refl _⟩

theorem Stream.runs_to_end (rest_eq : bodyOf rest = []) (state : State V E) :
    Runs (stream.Step interp) (.before rest state) [] (.before [] state) := by
  induction rest with
  | nil => exact .refl _
  | cons first rest ih =>
    rw [bodyOf, filter_eq_nil_iff] at rest_eq
    obtain ⟨placeholder, rest_eq⟩ := forall_mem_cons.mp rest_eq
    exact .head (stream.step_of_isPlaceholder interp (by simpa using placeholder) rest state)
      (ih (filter_eq_nil_iff.mpr rest_eq))

end

theorem WellPlaced.last_of_isSuffix {code left} (placed : WellPlaced code)
    (suffix : instr :: left <:+ code) (final : instr.isSuffix) :
    left = [] ∧ code.getLast? = some instr := by
  obtain ⟨front, rfl⟩ := suffix
  cases left with
  | nil => simp
  | cons next left =>
    have inside := placed.suffix_last instr (by simp)
    rw [final] at inside
    cases inside

namespace Graph

/-- A place in the graph of a stream and one in the stream with the same code in front of them. -/
inductive Stands {S : Type} (stream : Stream) (code : Code) (g : Graph) :
    Standing S → Stream.Place S → Prop
  | entering {id : SegmentId} {rest : Code} (state : S) (member : id ∈ g.order)
      (inside : rest <:+ stream.instructions) (rest_eq : bodyOf rest = codeFrom code id) :
      Stands stream code g (.entering id state) (.before rest state)
  | running {id : SegmentId} {left rest : Code} (state : S) (member : id ∈ g.order)
      (inside : rest <:+ stream.instructions) (suffix : left <:+ (g.segment id).instructions)
      (goesOn : left = [] → (g.segment id).fallsThrough)
      (rest_eq : bodyOf rest = left ++ codeFrom code (id + 1)) :
      Stands stream code g (.running id left state) (.before rest state)
  | outside : Stands stream code g .outside .outside

namespace IsBase

variable {stream : Stream} (base : IsBase (stream.trimmed list) g) (tiled : stream.Tiled list)
  {V E : Type} (interp : Interpreter V E) {id : SegmentId} {left : Code} {state : State V E}

include base

theorem link_false_cases (mem : id ∈ g.order) (falls : (g.segment id).fallsThrough) :
    (g.segment id).link false = some (id + 1) ∧ id + 1 ∈ g.order ∨
      (g.segment id).link false = none ∧ codeFrom (stream.trimmed list) (id + 1) = [] := by
  rw [base.notTaken_eq mem, base.order_eq, mem_range]
  by_cases inside : id + 1 < (runs (stream.trimmed list)).length
  · exact .inl ⟨if_pos ⟨falls, inside⟩, inside⟩
  · exact .inr ⟨if_neg fun both => inside both.2, codeFrom_of_length_le (Nat.le_of_not_lt inside)⟩

/-- How an execution gets to the end of a segment of a stream. -/
inductive EndsBy (g : Graph) (interpreter : Interpreter V E) (id : SegmentId)
    (state : State V E) : Code → Bool → Prop
  | falls (falls : (g.segment id).fallsThrough) : EndsBy g interpreter id state [] false
  | jumps {jump : Instruction Register} {next : SegmentId} (kind_eq : jump.kind = .jump)
      (jumps : (g.segment id).jumpTarget? = some jump.target)
      (linked : (g.segment id).link true = some next)
      (passes : interpreter.passes jump state) : EndsBy g interpreter id state [jump] true
  | skips {jump : Instruction Register} (kind_eq : jump.kind = .jump)
      (fails : interpreter.passes jump state = false) (falls : (g.segment id).fallsThrough) :
      EndsBy g interpreter id state [jump] false
  | exits {exit : Instruction Register} (kind_eq : exit.kind = .routine)
      (final : exit.isSuffix) (unlinked : (g.segment id).link false = none) :
      EndsBy g interpreter id state [exit] false

include tiled

theorem endsBy (mem : id ∈ g.order) (suffix : instr :: left <:+ (g.segment id).instructions)
    (final : instr.isSuffix) (state : State V E) :
    ∃ side, EndsBy g interp id state (instr :: left) side := by
  obtain ⟨rfl, last_eq⟩ := (base.wellPlaced tiled.arranged mem).last_of_isSuffix suffix final
  have last_eq : (g.segment id).last? = some instr := last_eq
  obtain ⟨inCode, -⟩ := base.mem_code mem (mem_of_mem_getLast? last_eq)
  have unguarded := tiled.arranged.unguarded instr inCode
  by_cases jump : instr.kind = .jump
  · have bySegment := tiled.arranged.named instr inCode jump
    have jumps : (g.segment id).jumpTarget? = some instr.target := by
      simp [jumpTarget?, last_eq, jump, bySegment]
    cases passes : interp.passes instr state with
    | true =>
      obtain ⟨next, found⟩ := Option.isSome_iff_exists.mp (base.leads mem _ jumps)
      have linked : (g.segment id).link true = some next := by
        rw [base.taken_eq mem, jumps, Option.bind_some, found]
      exact ⟨true, .jumps jump jumps linked passes⟩
    | false =>
      refine ⟨false, .skips jump passes ?_⟩
      have conditional : instr.guard ≠ .always := by
        intro always
        simp [Interpreter.passes, always] at passes
      simp [fallsThrough, last_eq, jump, bySegment, isUnconditionalJump, conditional]
  · have routine : instr.kind = .routine := by
      rw [isSuffix] at final
      split at final
      next kind_eq => exact absurd kind_eq jump
      next kind_eq => exact absurd kind_eq unguarded
      next kind_eq => exact kind_eq
      · cases final
    refine ⟨false, .exits routine final ?_⟩
    rw [base.notTaken_eq mem, if_neg]
    simp [fallsThrough, last_eq, final, jump]

theorem endsBy_of_ends (mem : id ∈ g.order) (suffix : left <:+ (g.segment id).instructions)
    (goesOn : left = [] → (g.segment id).fallsThrough) {after}
    (ends : interp.machine.Ends left state side shown after) :
    after = state ∧ shown = [] ∧ EndsBy g interp id state left side := by
  cases ends with
  | fall => exact ⟨rfl, rfl, .falls (goesOn rfl)⟩
  | decide rest final decides =>
    obtain ⟨_, endsBy⟩ := base.endsBy tiled interp mem suffix final state
    obtain ⟨rfl, decides⟩ := decides
    refine ⟨rfl, ?_⟩
    cases endsBy with
    | jumps kind_eq jumps linked passes =>
      rw [kind_eq] at decides
      obtain ⟨rfl, rfl⟩ := decides
      rw [passes]
      exact ⟨rfl, .jumps kind_eq jumps linked passes⟩
    | skips kind_eq fails falls =>
      rw [kind_eq] at decides
      obtain ⟨rfl, rfl⟩ := decides
      rw [fails]
      exact ⟨rfl, .skips kind_eq fails falls⟩
    | exits kind_eq final unlinked =>
      rw [kind_eq] at decides
      obtain ⟨rfl, rfl⟩ := decides
      exact ⟨rfl, .exits kind_eq final unlinked⟩

omit base tiled in
theorem EndsBy.ends (endsBy : EndsBy g interp id state left side) :
    interp.machine.Ends left state side [] state := by
  cases endsBy with
  | falls => exact .fall state
  | jumps kind_eq _ _ passes =>
    refine .decide [] (isSuffix_of_jump kind_eq) ⟨rfl, ?_⟩
    rw [kind_eq]
    exact ⟨passes.symm, rfl⟩
  | skips kind_eq fails _ =>
    refine .decide [] (isSuffix_of_jump kind_eq) ⟨rfl, ?_⟩
    rw [kind_eq]
    exact ⟨fails.symm, rfl⟩
  | exits kind_eq final _ =>
    refine .decide [] final ⟨rfl, ?_⟩
    rw [kind_eq]
    exact ⟨rfl, rfl⟩

omit base tiled in
theorem fallsThrough_of_performed (suffix : instr :: left <:+ (g.segment id).instructions)
    (inside : instr.isSuffix = false) (ended : left = []) : (g.segment id).fallsThrough = true := by
  subst ended
  obtain ⟨front, equal⟩ := suffix
  simp [fallsThrough, last?, ← equal, inside]

theorem stands_of_arrive (mem : id ∈ g.order) (inside : rest <:+ stream.instructions)
    (rest_eq : bodyOf rest = codeFrom (stream.trimmed list) id) (state : State V E) :
    Stands stream (stream.trimmed list) g (.running id (g.segment id).instructions state)
      (.before rest state) := by
  obtain ⟨run, found, -⟩ := base.exists_run mem
  refine .running state mem inside (suffix_refl _) ?_ ?_
  · intro empty
    rw [base.code_eq found] at empty
    exact absurd empty (isRun_of_mem tiled.arranged (mem_of_getElem? found)).ne_nil
  · rw [rest_eq, codeFrom_of_run found, base.code_eq found]

section

variable (mem : id ∈ g.order)
  (rest_eq : bodyOf rest = left ++ codeFrom (stream.trimmed list) (id + 1))
  (endsBy : EndsBy g interp id state left side)

include mem rest_eq endsBy

theorem stream_follows {next} (inside : rest <:+ stream.instructions)
    (link : (g.segment id).link side = some next) :
    ∃ further, Runs (stream.Step interp) (.before rest state) [] (.before further state) ∧
      further <:+ stream.instructions ∧ bodyOf further = codeFrom (stream.trimmed list) next := by
  cases endsBy with
  | falls falls =>
    obtain ⟨linked, -⟩ | ⟨unlinked, -⟩ := base.link_false_cases mem falls
    · cases linked.symm.trans link
      exact ⟨rest, .refl _, inside, rest_eq⟩
    · cases unlinked.symm.trans link
  | jumps kind_eq jumps linked passes =>
    obtain ⟨behind, -, -, run⟩ := stream.runs_to_instruction interp rest_eq state
    exact ⟨_, run.trans (.single (.jump behind state kind_eq passes)), dropWhile_suffix _,
      base.bodyOf_fromJumpmark tiled mem jumps link⟩
  | skips kind_eq fails falls =>
    obtain ⟨behind, suffix, behind_eq, run⟩ := stream.runs_to_instruction interp rest_eq state
    obtain ⟨linked, -⟩ | ⟨unlinked, -⟩ := base.link_false_cases mem falls
    · cases linked.symm.trans link
      exact ⟨behind, run.trans (.single (.skip behind state kind_eq fails)),
        (suffix_cons _ _).trans (suffix.trans inside), behind_eq⟩
    · cases unlinked.symm.trans link
  | exits _ _ unlinked => cases unlinked.symm.trans link

omit tiled in
theorem stream_leaves (link : (g.segment id).link side = none) :
    Runs (stream.Step interp) (.before rest state) (depart left state) .outside := by
  cases endsBy with
  | falls falls =>
    obtain ⟨linked, -⟩ | ⟨-, nothing⟩ := base.link_false_cases mem falls
    · cases linked.symm.trans link
    · rw [nothing] at rest_eq
      exact (stream.runs_to_end interp rest_eq state).trans (.single (.fall state))
  | jumps _ _ linked _ => cases linked.symm.trans link
  | skips kind_eq fails falls =>
    obtain ⟨behind, -, behind_eq, run⟩ := stream.runs_to_instruction interp rest_eq state
    obtain ⟨linked, -⟩ | ⟨-, nothing⟩ := base.link_false_cases mem falls
    · cases linked.symm.trans link
    · have ended := (run.trans (.single (.skip behind state kind_eq fails))).trans
        (stream.runs_to_end interp (behind_eq.trans nothing) state)
      rw [depart_of_jump kind_eq]
      exact ended.trans (.single (.fall state))
  | exits kind_eq final _ =>
    obtain ⟨behind, -, -, run⟩ := stream.runs_to_instruction interp rest_eq state
    rw [depart_of_routine kind_eq]
    exact run.trans (.single (.exit behind state kind_eq final))

end

theorem simulates_stream :
    Simulates (g.Step interp.machine) (stream.Step interp)
      (Stands stream (stream.trimmed list) g) := by
  constructor
  intro place follower shown next stands one
  cases stands with
  | outside => cases one
  | entering state mem inside rest_eq =>
    cases one with
    | arrive => exact ⟨_, .refl _, base.stands_of_arrive tiled mem inside rest_eq state⟩
  | running state mem inside suffix goesOn rest_eq =>
    cases one with
    | perform _ left _ nonfinal =>
      obtain ⟨behind, behindSuffix, behind_eq, run⟩ :=
        stream.runs_to_instruction interp rest_eq state
      refine ⟨_, run.trans (.single (.perform behind state nonfinal)), ?_⟩
      exact .running _ mem ((suffix_cons _ _).trans (behindSuffix.trans inside))
        ((suffix_cons _ _).trans suffix) (fallsThrough_of_performed suffix nonfinal)
        behind_eq
    | follow ends link =>
      obtain ⟨rfl, rfl, endsBy⟩ := base.endsBy_of_ends tiled interp mem suffix goesOn ends
      obtain ⟨further, run, further_inside, further_eq⟩ :=
        base.stream_follows tiled interp mem rest_eq endsBy inside link
      exact ⟨_, run, .entering _ (base.numbered.link_mem mem link) further_inside further_eq⟩
    | leave ends link =>
      obtain ⟨rfl, rfl, endsBy⟩ := base.endsBy_of_ends tiled interp mem suffix goesOn ends
      exact ⟨_, base.stream_leaves interp mem rest_eq endsBy link, .outside⟩

theorem runs_to_instruction
    (stands : Stands stream (stream.trimmed list) g place (.before (instr :: rest) state))
    (nonmark : instr.isPlaceholder = false) :
    ∃ id left, Runs (g.Step interp.machine) place [] (.running id (instr :: left) state) ∧
      id ∈ g.order ∧ rest <:+ stream.instructions ∧ instr :: left <:+ (g.segment id).instructions ∧
      bodyOf rest = left ++ codeFrom (stream.trimmed list) (id + 1) := by
  have body : bodyOf (instr :: rest) = instr :: bodyOf rest := by
    rw [bodyOf, filter_cons, if_pos (by simp [nonmark])]
    rfl
  have arriving {id} (mem : id ∈ g.order) (inside : instr :: rest <:+ stream.instructions)
      (rest_eq : bodyOf (instr :: rest) = codeFrom (stream.trimmed list) id) :
      ∃ left, Runs (g.Step interp.machine) (.entering id state) []
          (.running id (instr :: left) state) ∧
        instr :: left <:+ (g.segment id).instructions ∧
        bodyOf rest = left ++ codeFrom (stream.trimmed list) (id + 1) := by
    obtain ⟨run, found, -⟩ := base.exists_run mem
    obtain ⟨first, left, body_eq⟩ := exists_cons_of_ne_nil
      (isRun_of_mem tiled.arranged (mem_of_getElem? found)).ne_nil
    have code_eq := base.code_eq found
    rw [codeFrom_of_run found, body, body_eq] at rest_eq
    rw [body_eq] at code_eq
    injection rest_eq with first_eq left_eq
    subst first_eq
    have arrive : g.Step interp.machine _ _ _ := .arrive id state
    rw [code_eq] at arrive
    exact ⟨left, .single arrive, code_eq ▸ suffix_refl _, left_eq⟩
  cases stands with
  | @entering id _ _ mem inside rest_eq =>
    obtain ⟨left, run, suffix, left_eq⟩ := arriving mem inside rest_eq
    exact ⟨id, left, run, mem, (suffix_cons _ _).trans inside, suffix, left_eq⟩
  | @running id left _ _ mem inside suffix goesOn rest_eq =>
    cases left with
    | cons first left =>
      rw [body] at rest_eq
      injection rest_eq with first_eq left_eq
      subst first_eq
      exact ⟨id, left, .refl _, mem, (suffix_cons _ _).trans inside, suffix, left_eq⟩
    | nil =>
      obtain ⟨linked, nextMem⟩ | ⟨-, nothing⟩ := base.link_false_cases mem (goesOn rfl)
      · obtain ⟨left, run, nextSuffix, left_eq⟩ := arriving nextMem inside rest_eq
        exact ⟨id + 1, left, .head (.follow (.fall state) linked) run, nextMem,
          (suffix_cons _ _).trans inside, nextSuffix, left_eq⟩
      · rw [body, nothing] at rest_eq
        cases rest_eq

/-- A stream that is at its end and a graph that can show it. -/
def Departs (g : Graph) (interpreter : Interpreter V E) :
    Stream.Place (State V E) → Standing (State V E) → Prop
  | .before rest state, place => bodyOf rest = [] ∧
      Runs (g.Step interpreter.machine) place [.fell state] .outside
  | .outside, _ => False

theorem departs_of_stands
    (stands : Stands stream (stream.trimmed list) g place (.before rest state))
    (rest_eq : bodyOf rest = []) : Departs g interp (.before rest state) place := by
  refine ⟨rest_eq, ?_⟩
  have left_empty {id left} (stands : Stands stream (stream.trimmed list) g (.running id left state)
        (.before rest state)) :
      Runs (g.Step interp.machine) (.running id left state) [.fell state] .outside := by
    cases stands with
    | running _ mem inside suffix goesOn left_eq =>
      rw [rest_eq, eq_comm, append_eq_nil_iff] at left_eq
      obtain ⟨rfl, nothing⟩ := left_eq
      obtain ⟨-, nextMem⟩ | ⟨unlinked, -⟩ := base.link_false_cases mem (goesOn rfl)
      · obtain ⟨run, found, -⟩ := base.exists_run nextMem
        rw [codeFrom_of_run found, append_eq_nil_iff] at nothing
        exact absurd nothing.1 (isRun_of_mem tiled.arranged (mem_of_getElem? found)).ne_nil
      · exact .single (.leave (.fall state) unlinked)
  cases stands with
  | entering _ mem inside rest_eq =>
    exact .head (.arrive _ state)
      (left_empty (base.stands_of_arrive tiled mem inside rest_eq state))
  | running _ mem inside suffix goesOn rest_eq =>
    exact left_empty (.running state mem inside suffix goesOn rest_eq)

omit base tiled in
theorem stands_of_isPlaceholder (stands : Stands stream code g place (.before (mark :: rest) state))
    (placeholder : mark.isPlaceholder) : Stands stream code g place (.before rest state) := by
  have body : bodyOf (mark :: rest) = bodyOf rest := by
    rw [bodyOf, filter_cons, if_neg (by simp [placeholder])]
    rfl
  cases stands with
  | entering _ mem inside rest_eq =>
    exact .entering state mem ((suffix_cons _ _).trans inside) (body ▸ rest_eq)
  | running _ mem inside suffix goesOn rest_eq =>
    exact .running state mem ((suffix_cons _ _).trans inside) suffix goesOn (body ▸ rest_eq)

omit base tiled in
/-- A stream whose placeholders are passed at its end shows nothing but that it falls off. -/
theorem simulates_departing {place next}
    (departs : Departs g interp place standing) (one : stream.Step interp place shown next) :
    ∃ nextStanding, Runs (g.Step interp.machine) standing shown nextStanding ∧
      (Stands stream (stream.trimmed list) g nextStanding next ∨
        Departs g interp next nextStanding) := by
  cases place with
  | outside => exact departs.elim
  | before rest state =>
    obtain ⟨rest_eq, run⟩ := departs
    have marks {mark behind} (equal : rest = mark :: behind) :
        mark.isPlaceholder ∧ bodyOf behind = [] := by
      rw [equal, bodyOf, filter_eq_nil_iff] at rest_eq
      obtain ⟨placeholder, behind_eq⟩ := forall_mem_cons.mp rest_eq
      exact ⟨by simpa using placeholder, filter_eq_nil_iff.mpr behind_eq⟩
    cases one with
    | perform behind _ _ =>
      obtain ⟨placeholder, behind_eq⟩ := marks rfl
      rw [perform_of_isPlaceholder interp placeholder]
      exact ⟨standing, .refl _, .inr ⟨behind_eq, run⟩⟩
    | jump _ _ kind_eq =>
      cases (isPlaceholder_of_jump kind_eq).symm.trans (marks rfl).1
    | skip _ _ kind_eq =>
      cases (isPlaceholder_of_jump kind_eq).symm.trans (marks rfl).1
    | exit _ _ _ final =>
      cases (isSuffix_of_isPlaceholder (marks rfl).1).symm.trans final
    | fall => exact ⟨.outside, run, .inl .outside⟩

theorem simulates_graph :
    Simulates (stream.Step interp) (g.Step interp.machine) fun place standing =>
      Stands stream (stream.trimmed list) g standing place ∨ Departs g interp place standing := by
  constructor
  intro place follower shown next relation one
  rcases relation with stands | departs
  · cases one with
    | @perform instr rest state nonfinal =>
      cases placeholder : instr.isPlaceholder with
      | true =>
        rw [perform_of_isPlaceholder interp placeholder]
        exact ⟨follower, .refl _, .inl (stands_of_isPlaceholder stands placeholder)⟩
      | false =>
        obtain ⟨id, left, run, mem, inside, suffix, rest_eq⟩ :=
          base.runs_to_instruction tiled interp stands placeholder
        exact ⟨_, run.trans (.single (.perform id left state nonfinal)),
          .inl (.running _ mem inside ((suffix_cons _ _).trans suffix)
            (fallsThrough_of_performed suffix nonfinal) rest_eq)⟩
    | jump rest state kind_eq passes =>
      obtain ⟨id, left, run, mem, inside, suffix, rest_eq⟩ :=
        base.runs_to_instruction tiled interp stands
          (isPlaceholder_of_jump kind_eq)
      obtain ⟨side, endsBy⟩ := base.endsBy tiled interp mem suffix (isSuffix_of_jump kind_eq) state
      cases endsBy with
      | jumps _ jumps linked =>
        have ends := EndsBy.ends interp (.jumps kind_eq jumps linked passes)
        exact ⟨_, run.trans (.single (.follow ends linked)),
          .inl (.entering state (base.numbered.link_mem mem linked)
            (dropWhile_suffix _) (base.bodyOf_fromJumpmark tiled mem jumps linked))⟩
      | skips _ fails => cases fails.symm.trans passes
      | exits routine => cases routine.symm.trans kind_eq
    | skip rest state kind_eq fails =>
      obtain ⟨id, left, run, mem, inside, suffix, rest_eq⟩ :=
        base.runs_to_instruction tiled interp stands
          (isPlaceholder_of_jump kind_eq)
      obtain ⟨side, endsBy⟩ := base.endsBy tiled interp mem suffix (isSuffix_of_jump kind_eq) state
      cases endsBy with
      | jumps _ _ _ passes => cases passes.symm.trans fails
      | skips _ _ falls =>
        have ends := EndsBy.ends interp (.skips kind_eq fails falls)
        obtain ⟨linked, nextMem⟩ | ⟨unlinked, nothing⟩ := base.link_false_cases mem falls
        · exact ⟨_, run.trans (.single (.follow ends linked)),
            .inl (.entering state nextMem inside rest_eq)⟩
        · have leaves : g.Step interp.machine _ _ _ := .leave ends unlinked
          refine ⟨_, run, .inr ⟨rest_eq.trans nothing, ?_⟩⟩
          rw [← depart_of_jump kind_eq []]
          exact .single leaves
      | exits routine => cases routine.symm.trans kind_eq
    | exit rest state kind_eq final =>
      obtain ⟨id, left, run, mem, inside, suffix, rest_eq⟩ :=
        base.runs_to_instruction tiled interp stands
          (by simp [isPlaceholder, kind_eq])
      obtain ⟨side, endsBy⟩ := base.endsBy tiled interp mem suffix final state
      cases endsBy with
      | jumps jump => cases jump.symm.trans kind_eq
      | skips jump => cases jump.symm.trans kind_eq
      | exits _ _ unlinked =>
        have ends : interp.machine.Ends _ state false _ _ :=
          EndsBy.ends interp (.exits kind_eq final unlinked)
        rw [← depart_of_routine kind_eq []]
        exact ⟨_, run.trans (.single (.leave ends unlinked)), .inl .outside⟩
    | fall state =>
      obtain ⟨-, run⟩ := base.departs_of_stands tiled interp stands rfl
      exact ⟨.outside, run, .inl .outside⟩
  · exact simulates_departing interp departs one

end IsBase
end Graph
end Dynarec
