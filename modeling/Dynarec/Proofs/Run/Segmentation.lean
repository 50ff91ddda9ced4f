import Dynarec.Proofs.Graph.Resumption
import Dynarec.Proofs.Run.Expansion
import Dynarec.Proofs.Run.Flat
import Dynarec.Proofs.Run.Prepared

/-!
# Execution of the segments of a function

A graph that was built executes the stream that it was built from, from every
address at which the function is entered.  Where a check leaves, the stream
stands at the first instruction of the address at which it is resumed.
-/

namespace Dynarec

open Instruction List

namespace Stream.Tiled

variable {stream : Stream} (tiled : stream.Tiled list)

include tiled

/-- What stands in a stream. -/
theorem mem_instructions_cases (listed : instr ∈ stream.instructions) :
    (∃ piece ∈ list, instr = .jumpmark piece.address) ∨
      (∃ piece ∈ list, piece.enters ∧ instr = .enter piece.address) ∨
      (∃ piece ∈ list, instr ∈ piece.fragment) ∨ instr ∈ closing (targetsOf list) stream.stop
        (list.flatMap (Piece.code (targetsOf list))) := by
  rw [tiled.code_eq, mem_append, mem_flatMap] at listed
  rcases listed with ⟨piece, mem, inPiece⟩ | inClosing
  · rw [Piece.code, mem_append, mem_append] at inPiece
    rcases inPiece with (jumpmark | enter) | guest
    · split at jumpmark
      · exact .inl ⟨piece, mem, mem_singleton.mp jumpmark⟩
      · cases jumpmark
    · split at enter
      next enters => exact .inr (.inl ⟨piece, mem, enters, mem_singleton.mp enter⟩)
      · cases enter
    · exact .inr (.inr (.inl ⟨piece, mem, guest⟩))
  · exact .inr (.inr (.inr inClosing))

theorem origin_of_address_ne_zero (listed : instr ∈ stream.instructions)
    (decoded : instr.address ≠ 0) : instr.isPlaceholder = false ∧ instr.origin = instr.address := by
  rcases tiled.mem_instructions_cases listed with
    ⟨_, _, rfl⟩ | ⟨_, _, _, rfl⟩ | ⟨piece, member, guest⟩ | inClosing
  · exact absurd rfl decoded
  · exact absurd rfl decoded
  · have isGuest := tiled.isGuest member instr guest
    rw [isGuest.origin_eq, tiled.placed piece member instr guest]
    exact ⟨isGuest.inside, rfl⟩
  · unfold closing at inClosing
    split at inClosing
    · rcases mem_cons.mp inClosing with rfl | behind
      · exact absurd rfl decoded
      · rw [mem_singleton.mp behind] at decoded
        exact absurd rfl decoded
    · split at inClosing
      · cases inClosing
      · rw [mem_singleton.mp inClosing] at decoded
        exact absurd rfl decoded

theorem exists_of_enter_mem (listed : .enter addr ∈ stream.instructions) :
    ∃ piece ∈ list, piece.enters ∧ piece.address = addr := by
  rcases tiled.mem_instructions_cases listed with
    ⟨_, _, equal⟩ | ⟨piece, member, enters, equal⟩ | ⟨piece, member, guest⟩ | inClosing
  · cases congrArg kind equal
  · exact ⟨piece, member, enters, (congrArg origin equal).symm⟩
  · cases (tiled.isGuest member _ guest).inside
  · unfold closing at inClosing
    split at inClosing
    · rcases mem_cons.mp inClosing with equal | behind
      · cases congrArg kind equal
      · cases congrArg kind (mem_singleton.mp behind)
    · split at inClosing
      · cases inClosing
      · cases congrArg kind (mem_singleton.mp inClosing)

end Stream.Tiled

namespace Graph

variable {stream : Stream} {V E : Type} {interp : Interpreter V E} {id : SegmentId}

namespace IsBase

variable (isBase : IsBase (stream.trimmed list) base) (tiled : stream.Tiled list)

include isBase tiled

theorem exists_of_enteredAt (entry_eq : base.entry = stream.entry)
    (entered : stream.EnteredAt addr) :
    ∃ id ∈ base.order, (base.segment id).enterable ∧ (base.segment id).enterAddress = addr := by
  rcases entered with rfl | listed
  · have mem := isBase.zero_mem tiled.trimmed_ne_nil
    obtain ⟨run, found, -⟩ := isBase.exists_run mem
    exact ⟨0, mem, isBase.enterable_eq found, (isBase.enterAddress_eq found).trans entry_eq⟩
  · obtain ⟨piece, pieceMem, enters, rfl⟩ := tiled.exists_of_enter_mem listed
    obtain ⟨id, mem, enterable, start⟩ := isBase.exists_enterable tiled.arranged pieceMem enters
    have nonempty : list ≠ [] := ne_nil_of_mem pieceMem
    refine ⟨id, mem, enterable, ?_⟩
    rw [← start]
    exact isBase.enterAddress_of_head (fun _ => tiled.origin_head_of_ne_nil nonempty) entry_eq
      mem enterable

/-- In front of a segment that jumps, a stream stands at the first instruction that was decoded
from the address at which the segment begins. -/
theorem runs_to_address {target} (mem : id ∈ base.order)
    (jumps : (base.segment id).jumpTarget? = some target)
    (pos : startAt (stream.trimmed list) id ≠ 0) (inside : rest <:+ stream.instructions)
    (rest_eq : bodyOf rest = codeFrom (stream.trimmed list) id) (state : Interpreter.State V E) :
    stream.fromAddress (startAt (stream.trimmed list) id) ≠ [] ∧
      Runs (stream.Step interp) (.before rest state) []
        (.before (stream.fromAddress (startAt (stream.trimmed list) id)) state) := by
  obtain ⟨run, found, start⟩ := isBase.exists_run mem
  obtain ⟨first, head, addr⟩ := isBase.address_of_head tiled.arranged mem found jumps
  have origin := (isRun_of_mem tiled.arranged (mem_of_getElem? found)).origin_head first head
  obtain ⟨more, body_eq⟩ := head?_eq_some_iff.mp head
  have firstListed : first ∈ bodyOf run := body_eq ▸ mem_cons_self
  have first_eq : (bodyOf [first]) = [first] := by
    rw [bodyOf, filter_singleton, (mem_filter.mp firstListed).2]
    rfl
  have code_eq := codeFrom_of_run found
  rw [body_eq, cons_append] at code_eq
  obtain ⟨behind, suffix, behind_eq, reached⟩ :=
    stream.runs_to_instruction interp (rest_eq.trans code_eq) state
  suffices from_eq : stream.fromAddress (startAt (stream.trimmed list) id) = first :: behind by
    rw [from_eq]
    exact ⟨cons_ne_nil _ _, reached⟩
  obtain ⟨front, split⟩ := suffix.trans inside
  -- What stands in front of it belongs to the segments before, so to lower addresses.
  have front_eq : bodyOf front = ((runs (stream.trimmed list)).take id).flatMap bodyOf := by
    have whole := tiled.bodyOf_trimmed
    rw [← split, ← singleton_append, bodyOf_append, bodyOf_append, first_eq, behind_eq,
      singleton_append, ← code_eq, bodyOf_eq_append id] at whole
    exact (append_cancel_right whole).symm
  have before : ∀ instr ∈ front,
      decide (instr.address ≠ startAt (stream.trimmed list) id) = true := by
    intro instr listed
    rw [decide_eq_true_eq]
    intro same
    have inStream : instr ∈ stream.instructions := split ▸ mem_append_left _ listed
    obtain ⟨plain, origin_eq⟩ := tiled.origin_of_address_ne_zero inStream (same ▸ pos)
    have inBody : instr ∈ bodyOf front := mem_filter.mpr ⟨listed, by simp [plain]⟩
    rw [front_eq, mem_flatMap] at inBody
    obtain ⟨other, earlier, inOther⟩ := inBody
    obtain ⟨index, otherFound⟩ := mem_iff_getElem?.mp earlier
    rw [getElem?_take] at otherFound
    split at otherFound
    next less =>
      have lower := isBase.origin_lt tiled.arranged otherFound found less
        (by simp [Segment.opens, jumps]) instr (mem_of_mem_filter inOther) first
        (mem_of_mem_filter firstListed)
      rw [origin_eq, same, start, origin] at lower
      exact UInt32.lt_irrefl _ lower
    · cases otherFound
  rw [Stream.fromAddress, ← split, dropWhile_append_of_pos before,
    dropWhile_cons_of_neg (by simp [addr, start])]

end IsBase

/-- A graph whose loops are guarded and whose entries are isolated, with the graph before and the
stream that it was built from. -/
structure Segmented (stream : Stream) (list : List Stream.Piece) (base orig g : Graph) : Prop where
  tiled : stream.Tiled list
  isBase : IsBase (stream.trimmed list) base
  entry_eq : base.entry = stream.entry
  kept : base.LayoutKept orig
  expands : orig.Expands g
  admits : orig.Admits g
  valid : g.error? = none

theorem exists_segmented (generated : Stream.generate memory options = .ok stream)
    (built : build stream buildOptions = .ok g) :
    ∃ list base, Segmented stream list base (base.prepared buildOptions) g := by
  obtain ⟨base, made, rfl, valid⟩ := of_build_eq_ok built
  obtain ⟨list, tiled, isBase, entry_eq, -⟩ := isBase_of_generate generated made
  have kept := LayoutKept.prepared isBase.toTied
    (fun _ => isBase.wellPlaced tiled.arranged) buildOptions
  obtain ⟨expands, admits⟩ := expands_passes kept.toTied
  exact ⟨list, base, tiled, isBase, entry_eq, kept, expands, admits, valid⟩

/-- A place in a graph and the place in the stream that it stands for. -/
def Follows (stream : Stream) (list : List Stream.Piece) (base orig g : Graph)
    (related : Standing (Interpreter.State V E) → Standing (Interpreter.State V E) → Prop)
    (place : Standing (Interpreter.State V E)) (flat : Stream.Place (Interpreter.State V E)) :
    Prop :=
  ∃ other baseOther, Rerouted orig g place other ∧ related other baseOther ∧
    Stands stream (stream.trimmed list) base baseOther flat

namespace Segmented

variable (segmented : Segmented stream list base orig g)
  {related : Standing (Interpreter.State V E) → Standing (Interpreter.State V E) → Prop}
  (interchanges : Interchanges interp base orig related)
  {flat : Stream.Place (Interpreter.State V E)} {place : Standing (Interpreter.State V E)}

include segmented

theorem entersAt (entered : stream.EnteredAt addr) : g.EntersAt addr := by
  obtain ⟨id, mem, enterable, rfl⟩ :=
    segmented.isBase.exists_of_enteredAt segmented.tiled segmented.entry_eq entered
  have keeps := segmented.kept.each id mem
  exact segmented.admits.covers ⟨id, segmented.kept.order_eq ▸ mem,
    keeps.enterable_eq.trans enterable, keeps.enterAddress_eq⟩

theorem exists_way (entered : stream.EnteredAt addr) (mem : id ∈ g.order)
    (enterable : (g.segment id).enterable) (address_eq : (g.segment id).enterAddress = addr) :
    ∃ target, Way orig g id target ∧ target ∈ base.order ∧ (orig.segment target).opens ∧
      bodyOf (stream.fromEntry addr) = codeFrom (stream.trimmed list) target := by
  have isBase := segmented.isBase
  have tiled := segmented.tiled
  obtain ⟨target, way, entrance, admitted⟩ := segmented.admits.leads mem enterable
  have admitted : (orig.segment target).enterable ∨ target ∈ orig.loops :=
    admitted.imp_right fun needs => mem_filter.mpr ⟨way.target_mem, needs⟩
  have targetMem : target ∈ base.order := segmented.kept.order_eq ▸ way.target_mem
  have keeps := segmented.kept.each target targetMem
  have opens := opens_of_admitted admitted
  refine ⟨target, way, targetMem, opens, ?_⟩
  have targetEnterable : (orig.segment target).enterable := by
    -- A loop body at an address where the function is entered is entered itself.
    refine admitted.elim (fun enterable => enterable) fun loop => ?_
    obtain ⟨other, otherMem, otherEnterable, otherAddress⟩ :=
      isBase.exists_of_enteredAt tiled segmented.entry_eq entered
    obtain ⟨_, jumps⟩ := Option.isSome_iff_exists.mp (isSome_jumpTarget?_of_mem_loops loop)
    have nonempty := isBase.ne_nil_of_jump targetMem (keeps.jumps jumps).1
    have start := isBase.entrance_eq_start tiled segmented.kept segmented.entry_eq nonempty
      targetMem admitted
    have otherStart := isBase.enterAddress_of_head
      (fun _ => tiled.origin_head_of_ne_nil nonempty) segmented.entry_eq otherMem otherEnterable
    have same : startAt (stream.trimmed list) target = startAt (stream.trimmed list) other := by
      rw [← start, ← entrance, address_eq, ← otherAddress, otherStart]
    have otherOpens : (base.segment other).opens = true := by simp [Segment.opens, otherEnterable]
    obtain rfl : target = other := by
      rcases Nat.lt_trichotomy target other with less | equal | greater
      · have lower := isBase.start_lt tiled.arranged targetMem otherMem less otherOpens
        exact absurd lower (same ▸ UInt32.lt_irrefl _)
      · exact equal
      · have lower := isBase.start_lt tiled.arranged otherMem targetMem greater (keeps.opens opens)
        exact absurd lower (same ▸ UInt32.lt_irrefl _)
    exact keeps.enterable_eq.trans otherEnterable
  rw [Segment.entrance, if_pos targetEnterable, keeps.enterAddress_eq] at entrance
  rw [← address_eq, entrance]
  exact isBase.bodyOf_fromEntry tiled segmented.entry_eq targetMem
    (keeps.enterable_eq.symm.trans targetEnterable)

include interchanges

theorem follows_of_entry (entered : stream.EnteredAt addr) (mem : id ∈ g.order)
    (enterable : (g.segment id).enterable)
    (address_eq : (g.segment id).enterAddress = addr) (state : Interpreter.State V E) :
    Follows stream list base orig g related (.entering id state)
      (.before (stream.fromEntry addr) state) := by
  obtain ⟨target, way, targetMem, opens, rest_eq⟩ :=
    segmented.exists_way entered mem enterable address_eq
  have inside : stream.fromEntry addr <:+ stream.instructions := by
    rw [Stream.fromEntry]
    split
    · exact suffix_refl _
    · exact dropWhile_suffix _
  exact ⟨_, _, .entering state way, interchanges.enters targetMem opens state,
    .entering state targetMem inside rest_eq⟩

/-- A check that leaves does so where the stream stands at the address at which it resumes. -/
theorem runs_of_yields (mem : body ∈ orig.order) (yields : Yields orig g leave body)
    (relation : related (.entering body state) baseOther)
    (stands : Stands stream (stream.trimmed list) base baseOther flat) :
    stream.fromAddress (orig.segment body).lowest ≠ [] ∧ Runs (stream.Step interp) flat []
        (.before (stream.fromAddress (orig.segment body).lowest) state) := by
  have isBase := segmented.isBase
  have tiled := segmented.tiled
  have baseMem : body ∈ base.order := segmented.kept.order_eq ▸ mem
  have loop : body ∈ orig.loops := mem_filter.mpr ⟨mem, yields.closes⟩
  obtain ⟨_, jumps⟩ := Option.isSome_iff_exists.mp (isSome_jumpTarget?_of_mem_loops loop)
  have lowest := isBase.lowest_eq_start tiled segmented.kept segmented.entry_eq segmented.admits
    segmented.valid baseMem yields
  have pos := (isBase.lowest_of_loop segmented.kept baseMem loop).1
  rw [lowest] at pos ⊢
  cases interchanges.entered baseMem (opens_of_admitted (.inr loop)) relation
  cases stands with
  | entering _ _ inside rest_eq =>
    exact isBase.runs_to_address tiled baseMem
      ((segmented.kept.each body baseMem).jumps jumps).1 pos inside rest_eq state

section

variable (follows : Follows stream list base orig g related place flat)

include follows

theorem step_stream {next} (one : g.Step interp.machine place shown next) :
    (∃ nextFlat, Runs (stream.Step interp) flat shown nextFlat ∧
        Follows stream list base orig g related next nextFlat) ∨
      ∃ leave body state, shown = [.yielded] ∧ next = .entering leave state ∧
        Leaves orig g leave body ∧ stream.fromAddress (orig.segment body).lowest ≠ [] ∧
        Runs (stream.Step interp) flat []
          (.before (stream.fromAddress (orig.segment body).lowest) state) := by
  obtain ⟨other, baseOther, rerouted, relation, stands⟩ := follows
  rcases segmented.expands.step_original rerouted one with
    ⟨nextOther, run, nextRerouted⟩ | ⟨leave, body, state, rfl, rfl, rfl, mem, yields⟩
  · obtain ⟨nextBase, baseRun, nextRelation⟩ := interchanges.forth.runs relation run
    obtain ⟨nextFlat, flatRun, nextStands⟩ :=
      (segmented.isBase.simulates_stream segmented.tiled interp).runs stands baseRun
    exact .inl ⟨nextFlat, flatRun, nextOther, nextBase, nextRerouted, nextRelation, nextStands⟩
  · exact .inr ⟨leave, body, state, rfl, rfl, yields.leaves,
      segmented.runs_of_yields interchanges mem yields relation stands⟩

/-- The stream runs along with the graph until a check leaves. -/
theorem runs_stream (run : Runs (g.Step interp.machine) place shown last) :
    (∃ lastFlat, Runs (stream.Step interp) flat shown lastFlat) ∨
      ∃ front rest resume after, shown = front ++ .yielded :: rest ∧
        rest <+: [.exited .leave resume 0 after] ∧ stream.fromAddress resume ≠ [] ∧
        Runs (stream.Step interp) flat front (.before (stream.fromAddress resume) after) := by
  induction run generalizing flat with
  | refl => exact .inl ⟨flat, .refl flat⟩
  | head one more ih =>
    rcases segmented.step_stream interchanges follows one with
      ⟨nextFlat, run, nextFollows⟩ | ⟨leave, body, state, rfl, rfl, leaves, decoded, reached⟩
    · rcases ih nextFollows with
        ⟨lastFlat, rest⟩ | ⟨front, rest, resume, after, rfl, leaving, decoded, reached⟩
      · exact .inl ⟨lastFlat, run.trans rest⟩
      · exact .inr ⟨_, rest, resume, after, (append_assoc _ _ _).symm, leaving, decoded,
          run.trans reached⟩
    · exact .inr ⟨[], _, _, state, rfl, leaves.shown_prefix more, decoded, reached⟩

theorem runs_graph (run : Runs (stream.Step interp) flat shown last) :
    ∃ lastPlace, Runs (g.Step interp.machine) place shown lastPlace := by
  obtain ⟨other, baseOther, rerouted, relation, stands⟩ := follows
  obtain ⟨_, baseRun, -⟩ :=
    (segmented.isBase.simulates_graph segmented.tiled interp).runs (.inl stands) run
  obtain ⟨_, otherRun, -⟩ := interchanges.back.runs relation baseRun
  obtain ⟨lastPlace, graphRun, -⟩ := segmented.expands.simulates_original.runs rerouted otherRun
  exact ⟨lastPlace, graphRun⟩

end

end Segmented

/-- Wherever a generated stream is entered, the graph that was built from it can be entered, and
every run of the one shows what a run of the other shows.  Only a check of the graph may leave at
any time, and then the stream stands at the first instruction decoded from the address at which
control resumes. -/
theorem build_executes_stream
    {memory : Memory}
    {options : Stream.Options}
    {stream : Stream}
    (generated : Stream.generate memory options = .ok stream)
    {buildOptions : BuildOptions}
    {graph : Graph}
    (built : build stream buildOptions = .ok graph)
    {V E : Type}
    (interpreter : Interpreter V E)
    {address : Address}
    (entered : stream.EnteredAt address) :
    (∃ id ∈ graph.order, (graph.segment id).enterable = true ∧
      (graph.segment id).enterAddress = address) ∧
    ∀ id ∈ graph.order, (graph.segment id).enterable = true →
      (graph.segment id).enterAddress = address → ∀ state,
        (∀ shown place,
          Runs (stream.Step interpreter) (.before (stream.fromEntry address) state) shown place →
          ∃ standing, Runs (graph.Step interpreter.machine) (.entering id state) shown standing) ∧
        ∀ shown standing,
          Runs (graph.Step interpreter.machine) (.entering id state) shown standing →
          (∃ place, Runs (stream.Step interpreter) (.before (stream.fromEntry address) state) shown
            place) ∨
          ∃ front rest resume after, shown = front ++ .yielded :: rest ∧
            rest <+: [.exited .leave resume 0 after] ∧
            stream.fromAddress resume ≠ [] ∧
            Runs (stream.Step interpreter) (.before (stream.fromEntry address) state) front
              (.before (stream.fromAddress resume) after) := by
  obtain ⟨list, base, segmented⟩ := exists_segmented generated built
  obtain ⟨related, interchanges⟩ := exists_interchanges_prepared interpreter
    segmented.isBase.toTied
    (fun _ => segmented.isBase.wellPlaced segmented.tiled.arranged) buildOptions
  refine ⟨segmented.entersAt entered, fun id member enterable address_eq state => ?_⟩
  have follows := segmented.follows_of_entry interchanges entered member enterable address_eq state
  exact ⟨fun shown place run => segmented.runs_graph interchanges follows run,
    fun shown standing run => segmented.runs_stream interchanges follows run⟩

/-- Instructions that count themselves, and a condition that holds while the count is small. -/
def numbering : Interpreter Int32 Nat where
  effect _ state := { state with environment := state.environment + 1 }
  constant value := value
  bit count _ _ := decide (count < 40)

theorem saving_executes_stream :
    ∃ stream graph, Stream.generate saving { entry := 0x1000, count := 6 } = .ok stream ∧
      build stream {} = .ok graph ∧ stream.EnteredAt stream.entry ∧ 6 ∈ graph.order ∧
      (graph.segment 6).enterable = true ∧ (graph.segment 6).enterAddress = stream.entry ∧
      ∀ state,
        (∀ shown place,
          Runs (stream.Step numbering) (.before (stream.fromEntry stream.entry) state) shown place →
          ∃ standing, Runs (graph.Step numbering.machine) (.entering 6 state) shown standing) ∧
        ∀ shown standing,
          Runs (graph.Step numbering.machine) (.entering 6 state) shown standing →
          (∃ place, Runs (stream.Step numbering) (.before (stream.fromEntry stream.entry) state)
            shown place) ∨
          ∃ front rest resume after, shown = front ++ .yielded :: rest ∧
            rest <+: [.exited .leave resume 0 after] ∧ stream.fromAddress resume ≠ [] ∧
            Runs (stream.Step numbering) (.before (stream.fromEntry stream.entry) state) front
              (.before (stream.fromAddress resume) after) := by
  obtain ⟨stream, graph, generated, -, built, order_eq, -, -, enterable, enters⟩ := exists_saving
  have member : 6 ∈ graph.order := by simp [order_eq]
  exact ⟨stream, graph, generated, built, .inl rfl, member, enterable, enters,
    (build_executes_stream generated built numbering (.inl rfl)).2 6 member enterable enters⟩

end Graph
end Dynarec
