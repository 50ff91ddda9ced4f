import Dynarec.Proofs.Graph.Expansion
import Dynarec.Proofs.Guest.Reachability
import Dynarec.Proofs.Stream.Completeness
import Mathlib.Algebra.Order.BigOperators.Group.List
import Mathlib.Algebra.Order.Group.Nat
import Mathlib.Algebra.Ring.Nat

/-!
# The length of segments

A segment is no longer than the code of its function, and a word becomes few
instructions unless it moves many registers or is replaced by a callee.  The
place of an instruction is the number of a sentinel only in functions whose words
become more instructions than that.
-/

namespace Dynarec

open List

/-! ## Words -/

namespace Guest

/-- The most instructions that a word becomes. -/
def Operation.width (word : Word) : Operation → Nat
  | .loadMultiple | .storeMultiple => 32 - word.d
  | _ => 3

theorem Fragment.length_ofOperation_le (site : Site) (word : Word) (operation : Operation) :
    (ofOperation site word operation).length ≤ operation.width word := by
  cases operation with
  | loadMultiple | storeMultiple => simp [ofOperation, multiple, Operation.width]
  | compareImmediate signed | compareRegister signed =>
    cases signed <;> exact Nat.le_add_left 1 2
  | arithmetic op swapped => cases swapped <;> exact Nat.le_add_left 1 2
  | load | store => grind [ofOperation, load, store, Operation.width]
  | loadIndexed | storeIndexed => grind [ofOperation, loadIndexed, storeIndexed, Operation.width]
  | branchConditional => grind [ofOperation, branchConditional, Operation.width]
  | branchToLink | branchToCount => grind [ofOperation, branchToRegister, Operation.width]
  | _ => exact Nat.le_add_left 1 2

theorem Callee.length_le (callee : Callee memory site addr words code) :
    code.length ≤ 3 * words.length := by
  induction callee with
  | returns read => exact Nat.zero_le _
  | @cons addr word operation words code read decoded leaf behind ih =>
    have width : operation.width word = 3 := by
      cases operation <;> first | rfl | cases leaf
    have first := Fragment.length_ofOperation_le { site with address := addr } word operation
    rw [length_append, length_cons]
    omega

end Guest

namespace Stream

variable {stream : Stream}

/-- The most instructions that the word at an address becomes.  A call that is replaced by its
callee becomes the assignment of the link register and at most six words. -/
def width (memory : Memory) (inlines : Bool) (addr : Address) : Nat :=
  match memory.read addr with
  | .word word =>
      match Guest.Operation.decode word with
      | .ok operation =>
          if inlines && operation = .branch && word.links then 19 else operation.width word
      | .error _ => 0
  | _ => 0

/-- The addresses of the words of a function. -/
def addresses (stream : Stream) : List Address :=
  (List.range (stream.size.toNat / 4)).map fun index =>
    UInt32.ofNat (stream.entry.toNat + 4 * index)

/-- The most instructions that the words of a function become. -/
def expansion (memory : Memory) (inlines : Bool) (stream : Stream) : Nat :=
  (stream.addresses.map (width memory inlines)).sum

theorem expansion_le (few : ∀ addr ∈ stream.addresses, width memory inlines addr ≤ most) :
    stream.expansion memory inlines ≤ stream.size.toNat / 4 * most := by
  have bound := sum_le_card_nsmul (stream.addresses.map (width memory inlines)) most
    (forall_mem_map.mpr few)
  rw [length_map, addresses, length_map, length_range] at bound
  exact bound

theorem width_le (memory : Memory) (inlines : Bool) (addr : Address) :
    width memory inlines addr ≤ 32 := by
  have most word (operation : Guest.Operation) : operation.width word ≤ 32 := by
    cases operation with
    | loadMultiple | storeMultiple => exact Nat.sub_le _ _
    | _ => exact Nat.le_add_left 3 29
  unfold width
  split
  · split
    · split
      · exact Nat.le_add_left 19 13
      · exact most _ _
    · exact Nat.zero_le _
  · exact Nat.zero_le _

theorem width_le_of_single (single : ∀ word, memory.read addr = .word word →
      Guest.Operation.decode word ≠ .ok .loadMultiple ∧
        Guest.Operation.decode word ≠ .ok .storeMultiple) :
    width memory false addr ≤ 3 := by
  unfold width
  split
  next word read =>
    split
    next operation decoded =>
      obtain ⟨notLoad, notStore⟩ := single word read
      cases operation <;> first | exact Nat.le_refl 3 | contradiction
    · exact Nat.zero_le _
  · exact Nat.zero_le _

theorem size_le_of_tracked (generated : generate memory options = .ok stream)
    (tracked : options.count ≤ 0) (byDefault : options.limit ≤ 0) :
    stream.size.toNat ≤ 4 * 4096 := by
  have done := (ranges_of_generate generated).1
  rw [extent, if_neg (Int.not_lt.mpr tracked), if_neg (Int.not_lt.mpr byDefault)] at done
  obtain ⟨range, found, done⟩ := of_bind_eq_ok done
  rw [← Except.ok.inj done]
  exact Guest.Tracker.size_le_of_track found

theorem Piece.BoundIn.length_le {start stop} {piece : Piece}
    (bound : piece.BoundIn memory inlines start stop table) :
    piece.fragment.length ≤ width memory inlines piece.address := by
  obtain ⟨word, operation, lowered, read, decoded, done, -, fragment_eq⟩ := bound
  rw [fragment_eq, length_map, width, read]
  dsimp only
  rw [decoded]
  dsimp only
  have plain : (Guest.Fragment.ofOperation ⟨piece.address, start, stop⟩ word operation).length ≤
      if inlines && operation = .branch && word.links then 19 else operation.width word := by
    have short := Guest.Fragment.length_ofOperation_le ⟨piece.address, start, stop⟩ word operation
    split
    next calls =>
      simp only [Bool.and_eq_true, decide_eq_true_eq] at calls
      rw [calls.1.2] at short ⊢
      exact short.trans (Nat.le_add_left 3 16)
    · exact short
  unfold lower at done
  dsimp only at done
  split at done
  next calls =>
    obtain ⟨inlining, attempted, done⟩ := of_bind_eq_ok done
    cases inlining with
    | declined partway =>
      cases done
      exact plain
    | inlined fragment range =>
      cases done
      obtain ⟨words, code, callee, few, rfl, -⟩ := Guest.Inlining.exists_callee attempted
      have short := callee.length_le
      rw [Guest.maxInline] at few
      rw [if_pos (Bool.and_eq_true_iff.mp calls).1, length_map, length_cons]
      omega
  · cases done
    exact plain

namespace Tiled

variable (tiled : stream.Tiled list)

include tiled

theorem addresses_eq (nonempty : list ≠ []) : list.map Piece.address = stream.addresses := by
  have length : list.length = stream.size.toNat / 4 := by
    have length := tiled.length_eq
    rw [Stream.stop, UInt32.add_comm, UInt32.add_sub_cancel] at length
    split at length
    · exact length
    · exact absurd (length_eq_zero_iff.mp length) nonempty
  refine List.ext_getElem (by simp [addresses, length]) fun index inside _ => ?_
  rw [length_map] at inside
  simp only [addresses, getElem_map, getElem_range]
  rw [← tiled.address_eq (getElem?_eq_getElem inside), UInt32.ofNat_toNat]

theorem length_fragments_le {inlines : Bool}
    (bound : ∀ piece ∈ list, piece.BoundIn memory inlines stream.entry stream.stop stream.slots) :
    (list.flatMap Piece.fragment).length ≤ stream.expansion memory inlines := by
  by_cases nonempty : list = []
  · rw [nonempty]
    exact Nat.zero_le _
  · rw [expansion, ← tiled.addresses_eq nonempty, map_map, length_flatMap]
    exact sum_le_sum fun piece mem => (bound piece mem).length_le

theorem exists_ending : ∃ ending, ending.length ≤ 1 ∧
    Graph.bodyOf (stream.trimmed list) = list.flatMap Piece.fragment ++ ending := by
  refine ⟨_, ?_, (filter_append _ _).trans (congrArg (· ++ _) ?_)⟩
  · rcases filter_closing (targetsOf list) stream.stop
      (list.flatMap (Piece.code (targetsOf list))) with none | one
    · rw [none]
      exact Nat.zero_le _
    · rw [one]
      exact Nat.le_refl _
  · rw [filter_flatMap]
    refine flatMap_congr fun piece mem => ?_
    rw [Piece.kept, filter_append, filter_eq_nil_iff.mpr fun mark listed => ?_,
      filter_eq_self.mpr fun instr listed => ?_, nil_append]
    · simp [(tiled.isGuest mem instr listed).inside]
    · simp [(Piece.of_mem_marks listed).1]

end Tiled

end Stream

/-! ## Segments -/

namespace Graph

variable {g after : Graph}

theorem IsBase.length_segment_le (isBase : IsBase code base) {id}
    (mem : id ∈ base.order) : (base.segment id).length ≤ (bodyOf code).length := by
  obtain ⟨run, found, -⟩ := isBase.exists_run mem
  rw [Segment.length, isBase.code_eq found]
  have within := sublist_flatten_of_mem (mem_of_getElem? found)
  rw [runs, flatten_splitBy] at within
  exact (within.filter _).length_le

/-- Segments that are no longer than a bound, or that a few assignments were moved to and that do
not jump any more. -/
def Folding (g : Graph) (bound : Nat) : Prop :=
  ∀ id ∈ g.order, (g.segment id).length ≤ bound ∨
    (g.segment id).link true = none ∧ (g.segment id).length ≤ bound + 3

theorem Folding.fold {id skipped join} (foldable : g.IsFoldableBranch id skipped jump join)
    (folded : g.BranchFolded id skipped jump after) (holds : g.Folding bound) :
    after.Folding bound := by
  intro other mem
  have order : after.order = g.order := by rw [folded.shape_eq]
  rw [order] at mem
  by_cases source : other = id
  · subst source
    refine .inr ⟨by rw [folded.link_eq, if_pos ⟨rfl, rfl⟩], ?_⟩
    have short := (holds other mem).resolve_right fun unlinked => by
      rw [foldable.taken_eq] at unlinked
      cases unlinked.1
    have few := foldable.isFoldable
    simp only [isFoldable, Bool.and_eq_true, decide_eq_true_eq] at few
    have few : (g.segment skipped).instructions.length ≤ 4 := few.1.2
    have jumps := length_pos_of_mem (mem_of_getLast? foldable.last_eq)
    rw [Segment.length] at short
    rw [Segment.length, folded.instructions_source, length_append, length_dropLast, length_map]
    omega
  · by_cases isSkipped : other = skipped
    · subst isSkipped
      rw [Segment.length, folded.instructions_skipped]
      exact .inl (Nat.zero_le _)
    · rw [Segment.length, (folded.others_eq other source isSkipped).code_eq,
        folded.link_eq, if_neg fun both => source both.1]
      exact holds other mem

theorem length_prepared_le (tied : g.Tied)
    (short : ∀ id ∈ g.order, (g.segment id).length ≤ bound) (options : BuildOptions) :
    ∀ id ∈ (g.prepared options).order, ((g.prepared options).segment id).length ≤ bound + 4 := by
  obtain ⟨numbered, folded⟩ : (if options.foldMoves then g.foldConditionalMoves
      else g).Numbered ∧ (if options.foldMoves then g.foldConditionalMoves
      else g).Folding bound := by
    split
    · exact foldConditionalMoves_induction (motive := fun g =>
        g.Numbered ∧ g.Folding bound) tied
        ⟨tied.numbered, fun id mem => .inl (short id mem)⟩
        fun _ _ foldable folded holds => ⟨folded.numbered, holds.2.fold foldable folded⟩
    · exact ⟨tied.numbered, fun id mem => .inl (short id mem)⟩
  rw [prepared]
  generalize (if options.foldMoves then g.foldConditionalMoves else g) = middle at *
  have short {id} (mem : id ∈ middle.order) : (middle.segment id).length ≤ bound + 3 := by
    have cases := folded id mem
    omega
  split
  · intro id mem
    have mapped := mapped_mapOrdered numbered Segment.countCycles
    have mem : id ∈ middle.order := mapped.order_eq ▸ mem
    rw [countCycles, mapped.segment_eq, if_pos mem]
    have short := short mem
    rcases countCycles_cases (middle.segment id) with unchanged | ⟨-, cycles, points, counted⟩
    · rw [unchanged]
      omega
    · rw [counted]
      exact Nat.succ_le_succ short
  · exact fun id mem => (short mem).trans (Nat.le_add_right _ 1)

theorem length_expanded_le (tied : g.Tied) (pos : 1 ≤ bound)
    (short : ∀ id ∈ g.order, (g.segment id).length ≤ bound) :
    ∀ id ∈ g.guardLoops.isolateEntries.detectLoops.order,
      (g.guardLoops.isolateEntries.detectLoops.segment id).length ≤ bound := by
  refine (expansion_induction (motive := fun g => ∀ id ∈ g.order,
    (g.segment id).length ≤ bound) (fun g _ => ∀ id ∈ g.order,
    (g.segment id).length ≤ bound) tied short ?_ id ?_ ?_).2
  · intro before body number rest after _ _ guarded short id mem
    rcases guarded.mem_cases mem with old | rfl | rfl | rfl
    · rw [Segment.length, guarded.code_eq old]
      exact short id old
    · exact (congrArg length guarded.guard_eq.code_eq).trans_le pos
    · exact (congrArg length guarded.leave_eq.code_eq).trans_le pos
    · exact (congrArg length guarded.entry_eq.code_eq).trans_le pos
  · intro before entry after _ _ _ _ isolated short id mem
    rcases isolated.mem_order_iff.mp mem with old | rfl
    · rw [Segment.length, isolated.code_eq old]
      exact short id old
    · exact (congrArg length isolated.instructions_trampoline).trans_le pos
  · intro before after _ alike short id mem
    rw [Segment.length, (alike.content_eq id).code_eq]
    exact short id (alike.order_eq ▸ mem)

theorem length_passes_le (generated : Stream.generate memory options = .ok stream)
    (made : ofStream stream = .ok base) (buildOptions : BuildOptions) :
    ∀ id ∈ (base.passes buildOptions).order, ((base.passes buildOptions).segment id).length ≤
      stream.expansion memory options.inlines + 5 := by
  obtain ⟨list, tiled, -, -, _, final, pieced, slots_eq, -⟩ := Stream.exists_tiled generated
  have bound := slots_eq ▸ (Stream.bound_of_pieces pieced).2
  obtain ⟨isBase, -⟩ := isBase_of_tiled tiled made
  have kept : base.LayoutKept (base.prepared buildOptions) :=
    .prepared isBase.toTied (fun _ => isBase.wellPlaced tiled.arranged) buildOptions
  obtain ⟨ending, single, body_eq⟩ := tiled.exists_ending
  have short id (mem : id ∈ base.order) :
      (base.segment id).length ≤ stream.expansion memory options.inlines + 1 := by
    refine (isBase.length_segment_le mem).trans ?_
    rw [body_eq, length_append]
    exact Nat.add_le_add (tiled.length_fragments_le bound) single
  exact length_expanded_le kept.toTied (Nat.le_add_left 1 _)
    (length_prepared_le isBase.toTied short buildOptions)

/-- No segment is longer than the words of its function become, but for a few instructions.  So
no place in a segment is a sentinel in a function of less than 1024 words, nor in one that is
tracked under the default limit if no callee is decoded in place and no word moves several
registers. -/
theorem places_are_no_sentinels
    {memory : Memory}
    {options : Stream.Options}
    {stream : Stream}
    (generated : Stream.generate memory options = .ok stream)
    {buildOptions : BuildOptions}
    (built : build stream buildOptions = .ok graph) :
    ∀ id ∈ graph.order,
      (graph.segment id).length ≤ stream.expansion memory options.inlines + 5 ∧
      (stream.size.toNat < 4 * 1024 ∨
          options.count ≤ 0 ∧ options.limit ≤ 0 ∧ options.inlines = false ∧
            (∀ address ∈ stream.addresses, ∀ word, memory.read address = .word word →
              Guest.Operation.decode word ≠ .ok .loadMultiple ∧
                Guest.Operation.decode word ≠ .ok .storeMultiple) →
        ∀ index ≤ (graph.segment id).length, Position.isSentinel (index : Nat) = false) := by
  obtain ⟨base, made, rfl, -⟩ := of_build_eq_ok built
  intro id mem
  have short := length_passes_le generated made buildOptions id mem
  refine ⟨short, fun small index inside => ?_⟩
  have below : index < 0x7FFF := by
    rcases small with small | ⟨tracked, byDefault, alone, single⟩
    · have few : stream.expansion memory options.inlines ≤ stream.size.toNat / 4 * 32 :=
        Stream.expansion_le fun address _ => Stream.width_le memory options.inlines address
      omega
    · have size := Stream.size_le_of_tracked generated tracked byDefault
      rw [alone] at short
      have few := Stream.expansion_le fun address listed =>
        Stream.width_le_of_single (single address listed)
      omega
  have inside : (index : Int) ≠ -1 ∧ (index : Int) ≠ 0x7FFF := by omega
  exact Bool.or_eq_false_iff.mpr ⟨decide_eq_false inside.1, decide_eq_false inside.2⟩

theorem places_are_no_sentinels_saving :
    ∃ stream graph, Stream.generate saving { entry := 0x1000, count := 6 } = .ok stream ∧
      build stream {} = .ok graph ∧ ∀ id ∈ graph.order,
        (graph.segment id).length ≤ stream.expansion saving false + 5 ∧
        ∀ index ≤ (graph.segment id).length, Position.isSentinel (index : Nat) = false := by
  obtain ⟨stream, graph, generated, -, built, -⟩ := exists_saving
  have size_eq : 24 = stream.size := Except.ok.inj (Stream.ranges_of_generate generated).1
  refine ⟨stream, graph, generated, built, fun id mem => ?_⟩
  obtain ⟨short, places⟩ := places_are_no_sentinels generated built id mem
  exact ⟨short, places (.inl (by rw [← size_eq]; decide))⟩

end Graph

/-- Code of which every word stores all registers. -/
def storing : Memory where
  read _ := .word 0xBC000000
  slice _ _ := .ok []

namespace Stream

section

variable {stream : Stream} (tiled : stream.Tiled list)
  (plain : ∀ piece ∈ list, ∀ instr ∈ piece.fragment, instr.isPlain)

include plain in
theorem targetsOf_eq_nil : targetsOf list = [] := by
  refine flatMap_eq_nil_iff.mpr fun piece mem => ?_
  rw [Piece.targets, filter_eq_nil_iff.mpr fun instr listed jumps => ?_, map_nil]
  have plain := plain piece mem instr listed
  simp only [Bool.and_eq_true, decide_eq_true_eq] at jumps
  rw [Instruction.isPlain, jumps.1] at plain
  cases plain

include tiled plain

/-- Plain code that is entered only at its start is a single segment. -/
theorem runs_trimmed_of_plain
    (enters : ∀ piece ∈ list, piece.enters → piece.address = stream.entry) :
    Graph.runs (stream.trimmed list) = [stream.trimmed list] := by
  have targets := targetsOf_eq_nil plain
  have joins {piece first second} (mem : piece ∈ list)
      (listed : first ∈ piece.kept (targetsOf list)) (inside : second.isPlaceholder = false) :
      Graph.joins first second := by
    rcases mem_append.mp listed with mark | body
    · simp [Graph.joins, (Piece.of_mem_marks mark).1]
    · simp [Graph.joins, Instruction.isSuffix_of_isPlain (plain piece mem first body), inside]
  have closes : closing (targetsOf list) stream.stop (list.flatMap (Piece.code (targetsOf list))) ∈
      [[], [.ofRoutine .far stream.stop stream.stop]] := by
    rw [targets, closing, if_neg not_mem_nil]
    split <;> simp
  refine splitBy_of_isChain tiled.trimmed_ne_nil
    (Pairwise.isChain (pairwise_append.mpr ⟨pairwise_flatMap.mpr ⟨fun piece mem => ?_, ?_⟩, ?_, ?_⟩))
  · refine pairwise_append.mpr ⟨?_, ?_, ?_⟩
    · refine pairwise_of_forall_mem_list fun first mark second _ => ?_
      simp [Graph.joins, (Piece.of_mem_marks mark).1]
    · exact pairwise_of_forall_mem_list fun first body second other =>
        joins mem (mem_append_right _ body) (tiled.isGuest mem second other).inside
    · exact fun first mark second body =>
        joins mem (mem_append_left _ mark) (tiled.isGuest mem second body).inside
  · refine tiled.pairwise_address.imp_of_mem ?_
    intro piece next mem nextMem less first listed second other
    refine joins mem listed ?_
    rcases mem_append.mp other with mark | body
    · have later : next.enters = false := by
        refine Bool.eq_false_iff.mpr fun entered => ?_
        obtain ⟨index, found⟩ := mem_iff_getElem?.mp mem
        have place := tiled.address_eq found
        rw [enters next nextMem entered, UInt32.lt_iff_toNat_lt] at less
        omega
      simp [Piece.marks, targets, later] at mark
    · exact (tiled.isGuest nextMem second body).inside
  · rcases mem_pair.mp closes with none | one
    · rw [none]
      exact .nil
    · rw [one]
      exact pairwise_singleton _ _
  · intro first listed last ends
    obtain ⟨piece, mem, listed⟩ := mem_flatMap.mp listed
    refine joins mem listed ?_
    rcases mem_pair.mp closes with none | one
    · rw [none] at ends
      cases ends
    · rw [one, mem_singleton] at ends
      rw [ends]
      rfl

end

theorem lower_storing (read : storing.read s.address = .word word)
    (decoded : Guest.Operation.decode word = .ok operation)
    (done : lower storing false s word operation = .ok lowered) :
    word.isPlainBranch = false ∧ lowered.returns = false ∧ lowered.fragment.length = 32 ∧
      ∀ instr ∈ lowered.fragment, instr.isPlain := by
  cases read
  obtain rfl : .storeMultiple = operation := Except.ok.inj decoded
  cases done
  exact ⟨rfl, rfl, rfl, forall_mem_map.mpr fun _ _ => rfl⟩

theorem enters_of_pieces_storing {start stop count}
    (returned : progress.returned = false) (run : progress.branchRun = 0)
    (done : pieces storing false start stop isEntry count addr progress = .ok (list, final)) :
    ∀ piece ∈ list, piece.enters = isEntry piece.address := by
  induction count generalizing addr progress list with
  | zero =>
    cases done
    exact forall_mem_nil _
  | succ count ih =>
    obtain ⟨⟨word, operation⟩, fetched, done⟩ := of_bind_eq_ok done
    obtain ⟨lowered, lowers, done⟩ := of_bind_eq_ok done
    obtain ⟨⟨rest, last⟩, more, done⟩ := of_bind_eq_ok done
    cases done
    obtain ⟨read, decoded⟩ := of_fetch fetched
    obtain ⟨straight, falls, -⟩ := lower_storing (s := ⟨addr, start, stop⟩) read decoded lowers
    refine forall_mem_cons.mpr ⟨?_, ih falls (by simp [straight]) more⟩
    simp [returned, run]

/-- A thousand words become a single segment of more than 32 thousand instructions. -/
theorem exists_storing :
    ∃ stream list, generate storing { entry := 0x1000, count := 1024 } = .ok stream ∧
      stream.Tiled list ∧ stream.Fits ∧ Graph.runs (stream.trimmed list) = [stream.trimmed list] ∧
      32768 ≤ (Graph.bodyOf (stream.trimmed list)).length := by
  have sized : (replicate 1024 (0xBC000000 : Word)).length = 1024 := length_replicate
  obtain ⟨stream, generated⟩ :
      ∃ stream, generate storing { entry := 0x1000, count := 1024 } = .ok stream :=
    exists_generate rfl (by decide) (by decide) sized
      (fun _ _ found => congrArg _ (eq_of_mem_replicate (mem_of_getElem? found)).symm)
      (by simp [storing]) fun _ listed => eq_of_mem_replicate listed ▸ ⟨.storeMultiple, rfl⟩
  obtain ⟨list, tiled, (entry_eq : _ = 0x1000), -, _, final, pieced, -, entries⟩ :=
    exists_tiled generated
  have size_eq : 4096 = stream.size := Except.ok.inj (ranges_of_generate generated).1
  have each piece (mem : piece ∈ list) : piece.fragment.length = 32 ∧
      ∀ instr ∈ piece.fragment, instr.isPlain := by
    obtain ⟨word, operation, lowered, read, decoded, lowers, -, fragment_eq⟩ :=
      (bound_of_pieces pieced).2 piece mem
    obtain ⟨-, -, length, plain⟩ := lower_storing read decoded lowers
    rw [fragment_eq, length_map]
    refine ⟨length, forall_mem_map.mpr fun instr listed => ?_⟩
    unfold placeAt
    split <;> exact plain instr listed
  refine ⟨stream, list, generated, tiled, by constructor <;> simp [entry_eq, ← size_eq], ?_, ?_⟩
  · refine runs_trimmed_of_plain tiled (fun piece mem => (each piece mem).2) ?_
    intro piece mem enters
    rw [enters_of_pieces_storing rfl rfl pieced piece mem] at enters
    exact (entries _ enters).resolve_right nofun
  · obtain ⟨ending, -, body_eq⟩ := tiled.exists_ending
    have words : list.length = 1024 := by
      rw [tiled.length_eq, Stream.stop, entry_eq, ← size_eq]
      rfl
    have widths : list.map (fun piece => piece.fragment.length) = replicate 1024 32 := by
      rw [← words]
      exact map_eq_replicate_iff.mpr fun piece mem => (each piece mem).1
    rw [body_eq, length_append, length_flatMap, widths, sum_replicate]
    exact Nat.le_add_right _ _

end Stream

namespace Graph

/-- In a function of 1024 words, a place in a segment is a sentinel. -/
theorem storing_reaches_sentinel :
    ∃ stream graph, Stream.generate storing { entry := 0x1000, count := 1024 } = .ok stream ∧
      stream.size.toNat = 4 * 1024 ∧
      build stream { foldMoves := false, countCycles := false } = .ok graph ∧
      ∃ id ∈ graph.order, ∃ index < (graph.segment id).length,
        Position.isSentinel (index : Nat) = true := by
  obtain ⟨stream, list, generated, tiled, fits, runs_eq, long⟩ := Stream.exists_storing
  have size_eq : 4096 = stream.size := Except.ok.inj (Stream.ranges_of_generate generated).1
  obtain ⟨base, made, built, -⟩ :=
    build_of_fits tiled fits { foldMoves := false, countCycles := false }
  obtain ⟨isBase, -⟩ := isBase_of_tiled tiled made
  have found : (runs (stream.trimmed list))[0]? = some (stream.trimmed list) := by
    rw [runs_eq]
    rfl
  have kept := (expansion_induction (motive := fun g => 0 ∈ g.order ∧
    (g.segment 0).instructions = (base.segment 0).instructions) (fun g _ => 0 ∈ g.order ∧
    (g.segment 0).instructions = (base.segment 0).instructions) isBase.toTied ?_ ?_ id ?_ ?_).2
  · refine ⟨stream, _, generated, by simp [← size_eq], built, 0, kept.1, 0x7FFF, ?_, rfl⟩
    rw [Segment.length, passes_eq, prepared]
    exact (kept.2.trans (isBase.code_eq found)) ▸ long
  · exact ⟨by rw [isBase.order_eq, runs_eq]; exact mem_range.mpr Nat.one_pos, rfl⟩
  · rintro before body number rest after _ _ guarded ⟨mem, same⟩
    exact ⟨guarded.mem_order_iff.mpr (.inl mem), (guarded.code_eq mem).trans same⟩
  · rintro before entry after _ _ _ _ isolated ⟨mem, same⟩
    exact ⟨isolated.mem_order_iff.mpr (.inl mem), (isolated.code_eq mem).trans same⟩
  · rintro before after _ alike ⟨mem, same⟩
    exact ⟨alike.order_eq ▸ mem, (alike.content_eq 0).code_eq.trans same⟩

end Graph

end Dynarec
