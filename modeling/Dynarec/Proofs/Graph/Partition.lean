import Dynarec.Proofs.Graph.Relink
import Dynarec.Proofs.Stream.Order
import Mathlib.Data.List.SplitBy

/-!
# The segments of a stream

Each run of an arranged code is a few placeholders of one address and the code
that begins there.  The runs become segments in their order, and the segments
are linked by their last instructions.
-/

namespace Dynarec

open Instruction List Segment
variable {run : Code}

namespace Graph

def startOf (run : Code) : Address :=
  (run.head?.map origin).getD 0

theorem exists_of_startOf (ne_nil : run ≠ []) : ∃ first ∈ run, startOf run = first.origin := by
  cases run with
  | nil => exact absurd rfl ne_nil
  | cons first rest => exact ⟨first, mem_cons_self, rfl⟩

/-- The code of a run without its placeholders. -/
def bodyOf (run : Code) : Code :=
  run.filter (!·.isPlaceholder)

/-- Placeholders of one address, and the code that begins there. -/
structure IsRun (run : Code) : Prop where
  ne_nil : bodyOf run ≠ []
  origin_mark : ∀ mark ∈ run, mark.isPlaceholder → mark.origin = startOf run
  origin_head : ∀ first ∈ (bodyOf run).head?, first.origin = startOf run
  suffix_last : ∀ instr ∈ (bodyOf run).dropLast, instr.isSuffix = false

theorem joins_iff :
    joins previous instr ↔ previous.isPlaceholder ∨
      previous.isSuffix = false ∧ instr.isPlaceholder = false := by
  simp [joins]

theorem not_isPlaceholder_of_chain
    (joined : (first :: rest).IsChain fun previous next => joins previous next)
    (inside : first.isPlaceholder = false) :
    ∀ instr ∈ first :: rest, instr.isPlaceholder = false := by
  induction rest generalizing first with
  | nil => simpa using inside
  | cons second rest ih =>
    obtain ⟨joins, behind⟩ := isChain_cons_cons.mp joined
    rw [joins_iff, inside] at joins
    have next := ih behind (by simpa using joins.resolve_left (by simp) |>.2)
    exact forall_mem_cons.mpr ⟨inside, next⟩

theorem not_isSuffix_of_chain (joined : run.IsChain fun previous next => joins previous next)
    (inside : ∀ instr ∈ run, instr.isPlaceholder = false) :
    ∀ instr ∈ run.dropLast, instr.isSuffix = false := by
  induction run with
  | nil => simp
  | cons first rest ih =>
    cases rest with
    | nil => simp
    | cons second rest =>
      obtain ⟨joins, behind⟩ := isChain_cons_cons.mp joined
      obtain ⟨firstInside, inside⟩ := forall_mem_cons.mp inside
      rw [joins_iff, firstInside] at joins
      exact forall_mem_cons.mpr ⟨(joins.resolve_left (by simp)).1, ih behind inside⟩

theorem isRun_of_chain (ne_nil : run ≠ [])
    (joined : run.IsChain fun previous next => joins previous next)
    (chain : run.IsChain Instruction.Precedes)
    (last : ∀ last ∈ run.getLast?, last.isPlaceholder = false) : IsRun run := by
  induction run with
  | nil => exact absurd rfl ne_nil
  | cons first rest ih =>
    cases inside : first.isPlaceholder with
    | false =>
      -- Nothing is a placeholder, so the run is its own body.
      have all := not_isPlaceholder_of_chain joined inside
      have nonfinal := not_isSuffix_of_chain joined all
      have whole : bodyOf (first :: rest) = first :: rest := by
        rw [bodyOf, filter_eq_self]
        exact fun instr mem => by simp [all instr mem]
      refine ⟨by simp [whole], ?_, ?_, by rwa [whole]⟩
      · intro mark mem placeholder
        simp [all mark mem] at placeholder
      · rw [whole]
        rintro instr ⟨⟩
        rfl
    | true =>
      cases rest with
      | nil => simp [inside] at last
      | cons second rest =>
        obtain ⟨-, joinedBehind⟩ := isChain_cons_cons.mp joined
        obtain ⟨precedes, behind⟩ := isChain_cons_cons.mp chain
        have run := ih (cons_ne_nil _ _) joinedBehind behind last
        have body : bodyOf (first :: second :: rest) = bodyOf (second :: rest) := by
          rw [bodyOf, filter_cons, inside]
          rfl
        have start : startOf (first :: second :: rest) = startOf (second :: rest) :=
          precedes.origin_eq inside
        refine ⟨body ▸ run.ne_nil, ?_, ?_, body ▸ run.suffix_last⟩
        · rw [start]
          exact forall_mem_cons.mpr ⟨fun _ => precedes.origin_eq inside, run.origin_mark⟩
        · rw [start, body]
          exact run.origin_head

/-- A run and one behind it: the later one stands at later addresses, unless it is an exit that
a jump skips. -/
structure RunPrecedes (first second : Code) : Prop where
  ne_nil : first ≠ [] ∧ second ≠ []
  ascends : ∀ before ∈ first, ∀ behind ∈ second, before.origin ≤ behind.origin
  opens : (∃ exit, second = [exit] ∧ exit.isExit) ∨
    ∀ before ∈ first, ∀ behind ∈ second, before.origin < behind.origin

instance : Trans RunPrecedes RunPrecedes RunPrecedes where
  trans {first second third} one two := by
    obtain ⟨middle, listed⟩ := exists_mem_of_ne_nil second one.ne_nil.2
    refine ⟨⟨one.ne_nil.1, two.ne_nil.2⟩, ?_, ?_⟩
    · intro before firstListed behind thirdListed
      exact UInt32.le_trans (one.ascends before firstListed middle listed)
        (two.ascends middle listed behind thirdListed)
    · refine two.opens.imp_right fun strictly before firstListed behind thirdListed => ?_
      exact UInt32.lt_of_le_of_lt (one.ascends before firstListed middle listed)
        (strictly middle listed behind thirdListed)

theorem pairwise_origin {code : Code} (chain : code.IsChain Instruction.Precedes) :
    code.Pairwise fun before behind => before.origin ≤ behind.origin := by
  have origins : (code.map origin).IsChain (· ≤ ·) :=
    (isChain_map _).mpr (chain.imp fun _ _ => Instruction.Precedes.origin_le)
  rw [isChain_iff_pairwise, pairwise_map] at origins
  exact origins

theorem mem_iff_exists_run : instr ∈ code ↔ ∃ run ∈ runs code, instr ∈ run := by
  rw [← mem_flatten, runs, flatten_splitBy]

section

variable (arranged : Arranged stop code)

include arranged

theorem getLast_run (mem : run ∈ runs code) :
    ∀ last ∈ run.getLast?, last.isPlaceholder = false := by
  obtain ⟨front, back, split⟩ := append_of_mem mem
  intro last ends
  cases back with
  | nil =>
    apply arranged.last
    rw [← flatten_splitBy joins code]
    rw [runs] at split
    rw [split, flatten_append, flatten_singleton, getLast?_append, ends]
    rfl
  | cons next back =>
    have apart := isChain_getLast_head_splitBy joins code
    rw [runs] at split
    rw [split, isChain_append] at apart
    obtain ⟨nonempty, nextNonempty, parted⟩ := (isChain_cons_cons.mp apart.2.1).1
    rw [Option.mem_def, getLast?_eq_some_getLast nonempty, Option.some.injEq] at ends
    rw [← Bool.not_eq_true, joins_iff, ends, not_or, Bool.not_eq_true] at parted
    exact parted.1

theorem chain_run (mem : run ∈ runs code) : run.IsChain Instruction.Precedes := by
  have chain := arranged.chain
  rw [← flatten_splitBy joins code, isChain_flatten (nil_notMem_splitBy joins code)] at chain
  exact chain.1 run mem

theorem isRun_of_mem (mem : run ∈ runs code) : IsRun run :=
  isRun_of_chain (ne_nil_of_mem_splitBy mem) (isChain_of_mem_splitBy mem)
    (chain_run arranged mem) (getLast_run arranged mem)

theorem startOf_le (mem : run ∈ runs code) : ∀ instr ∈ run, startOf run ≤ instr.origin := by
  intro instr listed
  cases run with
  | nil => cases listed
  | cons first rest => exact (pairwise_origin (chain_run arranged mem)).rel_head listed

/-- A run stands at later addresses than the one before it, or it is an exit that is skipped. -/
theorem runPrecedes_of_parted {first second : Code} (firstMem : first ∈ runs code)
    (secondMem : second ∈ runs code)
    (precedes : (first.getLast (ne_nil_of_mem_splitBy firstMem)).Precedes
      (second.head (ne_nil_of_mem_splitBy secondMem)))
    (parted : joins (first.getLast (ne_nil_of_mem_splitBy firstMem))
      (second.head (ne_nil_of_mem_splitBy secondMem)) = false) : RunPrecedes first second := by
  have below {before} (listed : before ∈ first) :=
    (pairwise_origin (chain_run arranged firstMem)).rel_getLast listed
  have above {behind} (listed : behind ∈ second) :=
    (pairwise_origin (chain_run arranged secondMem)).rel_head listed
  rw [← Bool.not_eq_true, joins_iff, not_or, not_and] at parted
  refine ⟨⟨ne_nil_of_mem_splitBy firstMem, ne_nil_of_mem_splitBy secondMem⟩, ?_, ?_⟩
  · intro before beforeListed behind behindListed
    exact UInt32.le_trans (below beforeListed)
      (UInt32.le_trans precedes.origin_le (above behindListed))
  · cases precedes with
    | later _ ascends =>
      right
      intro before beforeListed behind behindListed
      exact UInt32.lt_of_le_of_lt (below beforeListed)
        (UInt32.lt_of_lt_of_le ascends (above behindListed))
    | marks placeholder => exact absurd placeholder parted.1
    | continues plain _ inside =>
      exact absurd inside (parted.2 (isSuffix_of_isPlain plain))
    | skips _ _ isExit =>
      left
      have joined := isChain_of_mem_splitBy secondMem
      cases second with
      | nil => exact absurd rfl (ne_nil_of_mem_splitBy secondMem)
      | cons exit rest =>
        cases rest with
        | nil => exact ⟨exit, rfl, isExit⟩
        | cons next rest =>
          have goesOn := (isChain_cons_cons.mp joined).1
          rw [head_cons] at isExit
          rw [joins_iff, isPlaceholder_of_isExit isExit, isSuffix_of_isExit isExit] at goesOn
          simp at goesOn

theorem pairwise_runs : (runs code).Pairwise RunPrecedes := by
  have chain := arranged.chain
  rw [← flatten_splitBy joins code, isChain_flatten (nil_notMem_splitBy joins code)] at chain
  have precedes := isChain_iff_getElem.mp chain.2
  have apart := isChain_iff_getElem.mp (isChain_getLast_head_splitBy joins code)
  rw [← isChain_iff_pairwise, isChain_iff_getElem]
  intro index inside
  obtain ⟨nonempty, nextNonempty, parted⟩ := apart index inside
  exact runPrecedes_of_parted arranged (getElem_mem _) (getElem_mem _)
    (precedes index inside _ (getLast?_eq_some_getLast nonempty) _
      (head?_eq_some_head nextNonempty)) parted

theorem runPrecedes_of_lt {index other : Nat} (found : (runs code)[index]? = some run)
    (otherFound : (runs code)[other]? = some otherRun) (earlier : index < other) :
    RunPrecedes run otherRun := by
  obtain ⟨inside, rfl⟩ := List.getElem?_eq_some_iff.mp found
  obtain ⟨otherInside, rfl⟩ := List.getElem?_eq_some_iff.mp otherFound
  exact pairwise_iff_getElem.mp (pairwise_runs arranged) index other inside otherInside earlier

end

/-- Whether a run is led by a placeholder of a kind. -/
def isMarked (kind : Kind) (run : Code) : Bool :=
  run.any (·.kind = kind)

/-- The segment that a run becomes, before its addresses are known. -/
def unplacedOf (id : SegmentId) (run : Code) : Segment :=
  { id
    position := id
    instructions := bodyOf run
    isDestination := isMarked .jumpmark run
    jumpAddress := if isMarked .jumpmark run then startOf run else 0
    enterable := isMarked .enter run
    enterAddress := if isMarked .enter run then startOf run else 0 }

def segmentOf (id : SegmentId) (run : Code) : Segment :=
  (unplacedOf id run).refreshAddresses

theorem foldl_marked
    (same : ∀ mark ∈ run, mark.isPlaceholder → mark.origin = addr) (seg : Segment) :
    run.foldl marked seg = { seg with
        isDestination := seg.isDestination || isMarked .jumpmark run
        jumpAddress := if isMarked .jumpmark run then addr else seg.jumpAddress
        enterable := seg.enterable || isMarked .enter run
        enterAddress := if isMarked .enter run then addr else seg.enterAddress } := by
  induction run generalizing seg with
  | nil => simp [isMarked]
  | cons first rest ih =>
    obtain ⟨here, same⟩ := forall_mem_cons.mp same
    rw [foldl_cons, ih same, marked]
    split
    next kind_eq =>
      have target_eq : first.target = addr := by
        simpa [isPlaceholder, origin, kind_eq] using here
      simp [isMarked, kind_eq, target_eq]
    next kind_eq =>
      have param_eq : first.param = addr := by
        simpa [isPlaceholder, origin, kind_eq] using here
      simp [isMarked, kind_eq, param_eq]
    next noMark noEnter =>
      have unmarked : first.kind ≠ .jumpmark := noMark
      have unentered : first.kind ≠ .enter := noEnter
      simp [isMarked, unmarked, unentered]

/-- A graph whose segments are the runs of a code, not yet linked. -/
structure IsCut (code : Code) (g : Graph) : Prop extends g.Tied where
  order_eq : g.order = List.range (runs code).length
  segment_eq : ∀ {id run}, (runs code)[id]? = some run → g.segment id = segmentOf id run

namespace IsCut

theorem exists_run (cut : IsCut code g) {id} (mem : id ∈ g.order) :
    ∃ run, (runs code)[id]? = some run := by
  rw [cut.order_eq, mem_range] at mem
  exact ⟨_, getElem?_eq_getElem mem⟩

theorem placed (cut : IsCut code g) : g.Placed := by
  intro id mem
  obtain ⟨run, found⟩ := cut.exists_run mem
  rw [cut.segment_eq found, cut.order_eq]
  exact getElem?_range (mem_range.mp (cut.order_eq ▸ mem))

theorem unlinked (cut : IsCut code g) {id} (mem : id ∈ g.order)
    (side : Bool) : (g.segment id).link side = none := by
  obtain ⟨run, found⟩ := cut.exists_run mem
  rw [cut.segment_eq found]
  cases side <;> rfl

end IsCut

theorem segment_appendSegment (g : Graph) (id : SegmentId) :
    g.appendSegment.segment id =
      if id = g.nextId then { id, position := g.order.length } else g.segment id := by
  simp only [segment, appendSegment, Array.getD_eq_getD_getElem?, Array.getElem?_push, nextId]
  split
  next equal => rw [equal, Option.getD_some]
  · rfl

theorem foldl_addRun (order_eq : g.order = []) (segments_eq : g.segments = #[]) (list : List Code) :
    let result := list.foldl addRun g
    result = { g with order := result.order, segments := result.segments } ∧
      result.order = List.range list.length ∧ result.segments.size = list.length ∧
      ∀ {id run}, list[id]? = some run → result.segment id =
          (run.foldl marked ({ id, position := id } : Segment)).append (bodyOf run) := by
  induction list using List.reverseRecOn with
  | nil =>
    rw [foldl_nil]
    exact ⟨rfl, order_eq, by rw [segments_eq]; rfl, by simp⟩
  | append_singleton front run ih =>
    obtain ⟨shape, order, size, segments⟩ := ih
    rw [foldl_append, foldl_cons, foldl_nil]
    generalize front.foldl addRun g = middle at shape order size segments
    have next : middle.nextId = front.length := size
    have inside : middle.nextId < middle.appendSegment.segments.size := by
      simp [appendSegment, nextId]
    refine ⟨?_, ?_, ?_, ?_⟩
    · rw [addRun, modify, appendSegment, shape]
    · rw [addRun, order_modify, appendSegment, order, next, length_append,
        length_singleton, range_succ]
    · rw [addRun, size_segments_modify, appendSegment, Array.size_push, size, length_append,
        length_singleton]
    · intro id other found
      rw [addRun, segment_modify inside, segment_appendSegment, next]
      rw [getElem?_append] at found
      split at found
      next old =>
        rw [if_neg (Nat.ne_of_gt old), if_neg (Nat.ne_of_lt old)]
        exact segments found
      next new =>
        rw [getElem?_singleton] at found
        split at found
        next first =>
          obtain rfl : id = front.length := by lia
          cases found
          rw [if_pos rfl, if_pos rfl, order, length_range]
          rfl
        · cases found

theorem tied_of_unlinked {g : Graph} (order_eq : g.order = List.range g.segments.size)
    (id_eq : ∀ id < g.segments.size, (g.segment id).id = id)
    (unlinked : ∀ id < g.segments.size, ∀ side, (g.segment id).link side = none)
    (sourceless : ∀ id < g.segments.size, (g.segment id).prev = []) : g.Tied := by
  have inside {id} (mem : id ∈ g.order) : id < g.segments.size := mem_range.mp (order_eq ▸ mem)
  refine ⟨⟨order_eq ▸ nodup_range, inside, fun mem => id_eq _ (inside mem), ?_, ?_⟩, ?_⟩
  · intro id side next mem linked
    rw [unlinked id (inside mem)] at linked
    cases linked
  · intro id source mem listed
    rw [sourceless id (inside mem)] at listed
    cases listed
  · intro id mem source sourceMem
    rw [sourceless id (inside mem), count_successors, unlinked source (inside sourceMem),
      unlinked source (inside sourceMem)]
    rfl

theorem sameLinks_foldl_marked (run : Code) (seg : Segment) :
    seg.SameLinks (run.foldl marked seg) := by
  refine List.foldlRecOn run marked ⟨rfl, rfl, rfl, rfl⟩ fun _ same instr _ => same.trans ?_
  rw [marked]
  split <;> exact ⟨rfl, rfl, rfl, rfl⟩

theorem cut_view (g : Graph) (order_eq : g.order = []) (segments_eq : g.segments = #[])
    (code : Code) :
    (g.cut code).Tied ∧ g.cut code =
        { g with order := (g.cut code).order, segments := (g.cut code).segments } ∧
      (g.cut code).order = List.range (runs code).length ∧
      (∀ id ∈ (g.cut code).order, ∀ side, ((g.cut code).segment id).link side = none) ∧
      ∀ {id run}, (runs code)[id]? = some run → (g.cut code).segment id =
        ((run.foldl marked { id, position := id }).append (bodyOf run)).refreshAddresses := by
  obtain ⟨shape, order, size, segments⟩ := foldl_addRun order_eq segments_eq (runs code)
  rw [cut]
  generalize (runs code).foldl addRun g = middle at shape order size segments
  have known id (inside : id < middle.segments.size) :
      Segment.SameLinks { id, position := id } (middle.segment id) := by
    rw [segments (getElem?_eq_getElem (size ▸ inside))]
    exact (sameLinks_foldl_marked _ _).trans ⟨rfl, rfl, rfl, rfl⟩
  have unlinked id (inside : id < middle.segments.size) side :
      (middle.segment id).link side = none := by
    rw [(known id inside).link_eq]
    cases side <;> rfl
  have tied : middle.Tied := tied_of_unlinked (by rw [order, size])
    (fun id inside => (known id inside).id_eq) unlinked fun id inside => (known id inside).prev_eq
  have mapped := mapped_mapOrdered tied.numbered refreshAddresses
  refine ⟨mapped.tied (fun _ => ⟨rfl, rfl, rfl, rfl⟩) tied, by rw [mapped.shape_eq, shape],
    mapped.order_eq.trans order, fun id mem side => ?_, fun {id run} found => ?_⟩
  · rw [mapped.order_eq] at mem
    rw [mapped.segment_eq, if_pos mem]
    exact unlinked id (tied.numbered.inside mem) side
  · have inside := (List.getElem?_eq_some_iff.mp found).1
    rw [mapped.segment_eq, if_pos (order ▸ mem_range.mpr inside), segments found]

theorem isCut_cut (arranged : Arranged stop code) (g : Graph) (order_eq : g.order = [])
    (segments_eq : g.segments = #[]) :
    IsCut code (g.cut code) ∧ g.cut code =
        { g with order := (g.cut code).order, segments := (g.cut code).segments } := by
  obtain ⟨tied, shape, order, -, segments⟩ := cut_view g order_eq segments_eq code
  refine ⟨⟨tied, order, fun {id run} found => ?_⟩, shape⟩
  rw [segments found, foldl_marked (isRun_of_mem arranged (mem_of_getElem? found)).origin_mark]
  simp [segmentOf, unplacedOf, append]

end Graph
end Dynarec
