import Dynarec.Graph.Build
import Dynarec.Proofs.Graph.Folding

/-!
# Layout of segments

The segments of a stream stand in the order of the addresses at which they
begin.  Two of them begin at the same address only if the later one is an exit
that a jump skips, and nothing leads there from elsewhere.  Folding branches and
counting cycles keep this.
-/

namespace Dynarec

open Bool Instruction List Option

/-- Code without placeholders in which only the last instruction ends a segment. -/
structure WellPlaced (code : Code) : Prop where
  inside : ∀ instr ∈ code, instr.isPlaceholder = false
  suffix_last : ∀ instr ∈ code.dropLast, instr.isSuffix = false

/-- Whether a segment is where a guest address begins: it is entered, jumps lead to it, or it ends
with a jump. -/
def Segment.opens (seg : Segment) : Bool :=
  seg.enterable || seg.isDestination || seg.jumpTarget?.isSome

namespace Graph

variable {g : Graph} {after : Segment} {id : SegmentId}

/-- The segments of a function, each with the address at which it begins. -/
structure Laid (g : Graph) (start : SegmentId → Address) : Prop extends g.Tied where
  placed : ∀ {id}, id ∈ g.order → WellPlaced (g.segment id).instructions
  ending : ∀ {id last}, id ∈ g.order → (g.segment id).last? = some last →
    last.kind ≠ .cycleCheck ∧ (last.kind = .jump → last.bySegment = false)
  jumps : ∀ {id target}, id ∈ g.order → (g.segment id).jumpTarget? = some target →
    ∃ next, (g.segment id).link true = some next
  taken : ∀ {id next}, id ∈ g.order → (g.segment id).link true = some next →
    (g.segment next).isDestination ∧ (g.segment id).jumpTarget? = some (start next)
  falls : ∀ {id next}, id ∈ g.order → (g.segment id).link false = some next → id < next
  named : ∀ {id}, id ∈ g.order → (g.segment id).isDestination →
    (g.segment id).jumpAddress = start id
  ascends : ∀ {id other}, id ∈ g.order → other ∈ g.order → id < other → start id ≤ start other
  opens : ∀ {id other}, id ∈ g.order → other ∈ g.order → id < other →
    (g.segment other).opens → start id < start other
  lowest : ∀ {id target}, id ∈ g.order → (g.segment id).jumpTarget? = some target →
    (g.segment id).lowest = start id ∧ start id ≠ 0

/-- The address at which the segment with a number begins. -/
def startAt (code : Code) (id : SegmentId) : Address :=
  startOf ((runs code)[id]?.getD [])

namespace IsBase

variable (base : IsBase code g)

include base

theorem exists_run (mem : id ∈ g.order) :
    ∃ run, (runs code)[id]? = some run ∧ startAt code id = startOf run := by
  rw [base.order_eq, mem_range] at mem
  refine ⟨_, getElem?_eq_getElem mem, ?_⟩
  rw [startAt, getElem?_eq_getElem mem, getD_some]

section

variable (found : (runs code)[id]? = some run)

include found

theorem code_eq : (g.segment id).instructions = bodyOf run := by
  have equal := congrArg Segment.instructions (base.face_eq found)
  split at equal <;> exact equal

theorem isDestination_eq : (g.segment id).isDestination = isMarked .jumpmark run := by
  have equal := congrArg Segment.isDestination (base.face_eq found)
  split at equal <;> exact equal

theorem jumpAddress_eq : (g.segment id).jumpAddress =
    if isMarked .jumpmark run then startOf run else 0 := by
  have equal := congrArg Segment.jumpAddress (base.face_eq found)
  split at equal <;> exact equal

theorem enterable_eq : (g.segment id).enterable = (decide (id = 0) || isMarked .enter run) := by
  have equal := congrArg Segment.enterable (base.face_eq found)
  split at equal
  next first =>
    rw [decide_eq_true first, Bool.true_or]
    exact equal
  next later =>
    rw [decide_eq_false later, Bool.false_or]
    exact equal

theorem enterAddress_eq : (g.segment id).enterAddress =
    if id = 0 then g.entry else if isMarked .enter run then startOf run else 0 := by
  have equal := congrArg Segment.enterAddress (base.face_eq found)
  split at equal
  next first =>
    rw [if_pos first]
    exact equal
  next later =>
    rw [if_neg later]
    exact equal

theorem lowest_eq : (g.segment id).lowest =
    ((((bodyOf run).map (·.address)).filter (· ≠ 0)).min?).getD 0 := by
  have equal := congrArg Segment.lowest (base.face_eq found)
  split at equal <;> exact equal

theorem highest_eq : (g.segment id).highest =
    ((((bodyOf run).map (·.address)).filter (· ≠ 0)).max?).getD 0 := by
  have equal := congrArg Segment.highest (base.face_eq found)
  split at equal <;> exact equal

end

theorem mem_code (mem : id ∈ g.order) (listed : instr ∈ (g.segment id).instructions) :
    instr ∈ code ∧ instr.isPlaceholder = false := by
  obtain ⟨run, found, -⟩ := base.exists_run mem
  rw [base.code_eq found] at listed
  exact ⟨mem_iff_exists_run.mpr ⟨run, mem_of_getElem? found, mem_of_mem_filter listed⟩,
    by simpa using (mem_filter.mp listed).2⟩

theorem jumpAddress_of_isDestination (mem : id ∈ g.order) (named : (g.segment id).isDestination) :
    (g.segment id).jumpAddress = startAt code id := by
  obtain ⟨run, found, start⟩ := base.exists_run mem
  rw [base.isDestination_eq found] at named
  rw [base.jumpAddress_eq found, if_pos named, start]

section

variable (arranged : Arranged stop code)

include arranged

theorem wellPlaced (mem : id ∈ g.order) : WellPlaced (g.segment id).instructions := by
  obtain ⟨run, found, -⟩ := base.exists_run mem
  rw [base.code_eq found]
  refine ⟨fun instr listed => ?_, (isRun_of_mem arranged (mem_of_getElem? found)).suffix_last⟩
  simpa using (mem_filter.mp listed).2

theorem start_le (mem : id ∈ g.order) (otherMem : other ∈ g.order)
    (earlier : id < other) : startAt code id ≤ startAt code other := by
  obtain ⟨run, found, start⟩ := base.exists_run mem
  obtain ⟨otherRun, otherFound, otherStart⟩ := base.exists_run otherMem
  have precedes := runPrecedes_of_lt arranged found otherFound earlier
  obtain ⟨first, listed, first_eq⟩ := exists_of_startOf precedes.ne_nil.1
  obtain ⟨otherFirst, otherListed, otherFirst_eq⟩ := exists_of_startOf precedes.ne_nil.2
  rw [start, otherStart, first_eq, otherFirst_eq]
  exact precedes.ascends first listed otherFirst otherListed

theorem origin_lt (found : (runs code)[id]? = some run)
    (otherFound : (runs code)[other]? = some otherRun) (earlier : id < other)
    (opens : (g.segment other).opens) :
    ∀ before ∈ run, ∀ behind ∈ otherRun, before.origin < behind.origin := by
  cases (runPrecedes_of_lt arranged found otherFound earlier).opens with
  | inl lone =>
    -- Nothing leads to a lone exit, and it does not jump.
    obtain ⟨exit, rfl, isExit⟩ := lone
    have kind_eq : exit.kind = .routine := by simp_all [Instruction.isExit]
    have later : other ≠ 0 := by lia
    have instructions := base.code_eq otherFound
    rw [bodyOf, filter_singleton, isPlaceholder_of_isExit isExit] at instructions
    simp [Segment.opens, base.enterable_eq otherFound, base.isDestination_eq otherFound, isMarked,
      later, kind_eq, Segment.jumpTarget?, Segment.last?, instructions] at opens
  | inr strictly => exact strictly

theorem start_lt (mem : id ∈ g.order) (otherMem : other ∈ g.order) (earlier : id < other)
    (opens : (g.segment other).opens) : startAt code id < startAt code other := by
  obtain ⟨run, found, start⟩ := base.exists_run mem
  obtain ⟨otherRun, otherFound, otherStart⟩ := base.exists_run otherMem
  have ne_nil := (runPrecedes_of_lt arranged found otherFound earlier).ne_nil
  obtain ⟨first, listed, first_eq⟩ := exists_of_startOf ne_nil.1
  obtain ⟨otherFirst, otherListed, otherFirst_eq⟩ := exists_of_startOf ne_nil.2
  rw [start, otherStart, first_eq, otherFirst_eq]
  exact base.origin_lt arranged found otherFound earlier opens first listed otherFirst otherListed

section

variable {target : Address} (mem : id ∈ g.order)

include mem

theorem address_of_jump (found : (runs code)[id]? = some run)
    (jumps : (g.segment id).jumpTarget? = some target) :
    ∀ instr ∈ bodyOf run, instr.address = instr.origin ∧ instr.isExit = false := by
  have isRun := isRun_of_mem arranged (mem_of_getElem? found)
  have instructions := base.code_eq found
  obtain ⟨jump, last_eq, kind_eq, -⟩ := Segment.exists_of_jumpTarget? jumps
  rw [Segment.last?, instructions] at last_eq
  intro instr listed
  obtain ⟨inCode, inside⟩ := base.mem_code mem (instructions ▸ listed)
  have notExit : instr.isExit = false := by
    rw [eq_false_iff]
    intro isExit
    rw [← dropLast_append_getLast? jump last_eq, mem_append, mem_singleton] at listed
    cases listed with
    | inl front =>
      have suffix := isSuffix_of_isExit isExit
      simp [isRun.suffix_last instr front] at suffix
    | inr final => simp [final, Instruction.isExit, kind_eq] at isExit
  refine ⟨(arranged.placed instr inCode inside).resolve_right ?_, notExit⟩
  simp [notExit]

theorem address_of_head (found : (runs code)[id]? = some run)
    (jumps : (g.segment id).jumpTarget? = some target) :
    ∃ first ∈ (bodyOf run).head?, first.address = startOf run := by
  have isRun := isRun_of_mem arranged (mem_of_getElem? found)
  obtain ⟨first, rest, body_eq⟩ := exists_cons_of_ne_nil isRun.ne_nil
  have head : first ∈ (bodyOf run).head? := by rw [body_eq]; rfl
  have addr := base.address_of_jump arranged mem found jumps first (mem_of_mem_head? head)
  exact ⟨first, head, addr.1.trans (isRun.origin_head first head)⟩

theorem lowest_of_jump (jumps : (g.segment id).jumpTarget? = some target)
    (pos : startAt code id ≠ 0) : (g.segment id).lowest = startAt code id := by
  obtain ⟨run, found, start⟩ := base.exists_run mem
  have listedRun := mem_of_getElem? found
  have addressed := base.address_of_jump arranged mem found jumps
  have above : ∀ instr ∈ bodyOf run, startOf run ≤ instr.address := by
    intro instr inBody
    rw [(addressed instr inBody).1]
    exact startOf_le arranged listedRun instr (mem_of_mem_filter inBody)
  have all : ((bodyOf run).map (·.address)).filter (· ≠ 0) = (bodyOf run).map (·.address) := by
    rw [filter_eq_self]
    intro addr listed
    obtain ⟨instr, inBody, rfl⟩ := mem_map.mp listed
    rw [decide_eq_true_eq]
    intro zero
    have lower := above instr inBody
    rw [zero, UInt32.le_zero_iff] at lower
    exact pos (start.trans lower)
  obtain ⟨first, head, first_eq⟩ := base.address_of_head arranged mem found jumps
  have least : ((bodyOf run).map (·.address)).min? = some (startOf run) := by
    rw [min?_eq_some_iff]
    refine ⟨first_eq ▸ mem_map_of_mem (mem_of_mem_head? head), ?_⟩
    intro addr listed
    obtain ⟨instr, inBody, rfl⟩ := mem_map.mp listed
    exact above instr inBody
  rw [base.lowest_eq found, all, least, start]
  rfl

end

theorem laid (nonzero : ∀ instr ∈ code, instr.isPlaceholder = false →
      instr.isExit = false → instr.address ≠ 0) : g.Laid (startAt code) where
  numbered := base.numbered
  backlinked := base.backlinked
  placed := base.wellPlaced arranged
  ending mem last_eq := by
    obtain ⟨inCode, -⟩ := base.mem_code mem (mem_of_mem_getLast? last_eq)
    exact ⟨arranged.unguarded _ inCode, arranged.named _ inCode⟩
  jumps mem jumps := by
    rw [base.taken_eq mem, jumps, bind_some]
    exact isSome_iff_exists.mp (base.leads mem _ jumps)
  taken {id next} mem linked := by
    rw [base.taken_eq mem] at linked
    obtain ⟨target, jumps, found⟩ := bind_eq_some_iff.mp linked
    obtain ⟨nextMem, named, addr⟩ := of_destination?_eq_some base.numbered found
    rw [base.jumpAddress_of_isDestination nextMem named] at addr
    exact ⟨named, addr ▸ jumps⟩
  falls {id next} mem linked := by
    rw [base.notTaken_eq mem] at linked
    split at linked
    · cases linked
      exact Nat.lt_succ_self id
    · cases linked
  named := base.jumpAddress_of_isDestination
  ascends := base.start_le arranged
  opens := base.start_lt arranged
  lowest {id target} mem jumps := by
    obtain ⟨run, found, start⟩ := base.exists_run mem
    obtain ⟨first, head, first_eq⟩ := base.address_of_head arranged mem found jumps
    have listed := mem_of_mem_head? head
    obtain ⟨inCode, inside⟩ := base.mem_code mem (base.code_eq found ▸ listed)
    have pos : startAt code id ≠ 0 := by
      rw [start, ← first_eq]
      exact nonzero first inCode inside
        (base.address_of_jump arranged mem found jumps first listed).2
    exact ⟨base.lowest_of_jump arranged mem jumps pos, pos⟩

end

end IsBase

/-- The passes before loops are guarded. -/
def prepared (options : BuildOptions) (g : Graph) : Graph :=
  let g := if options.foldMoves then g.foldConditionalMoves else g
  if options.countCycles then g.countCycles else g

/-- What every fold and counting cycles keep holds before loops are guarded. -/
theorem prepared_induction {motive : Graph → Prop} (tied : g.Tied) (initial : motive g)
    (fold : ∀ {before id skipped jump join after}, before.Tied →
      id ∈ before.order → before.IsFoldableBranch id skipped jump join →
      before.BranchFolded id skipped jump after → motive before → motive after)
    (count : ∀ {before}, before.Tied → motive before → motive before.countCycles)
    (options : BuildOptions) : motive (g.prepared options) := by
  obtain ⟨foldedTied, folded⟩ : (if options.foldMoves then g.foldConditionalMoves else g).Tied ∧
        motive (if options.foldMoves then g.foldConditionalMoves else g) := by
    split
    · exact foldConditionalMoves_induction (motive := fun g => g.Tied ∧ motive g) tied
        ⟨tied, initial⟩ fun tied mem foldable folded holds =>
          ⟨folded.toTied, fold tied mem foldable folded holds.2⟩
    · exact ⟨tied, initial⟩
  rw [prepared]
  split
  · exact count foldedTied folded
  · exact folded

/-- How a segment may change when the layout is to be kept: its end, its lowest address and its
taken link stay, or it does not jump any more. -/
structure KeepsLayout (before after : Segment) : Prop where
  placed : WellPlaced before.instructions → WellPlaced after.instructions
  isDestination_eq : after.isDestination = before.isDestination
  jumpAddress_eq : after.jumpAddress = before.jumpAddress
  enterable_eq : after.enterable = before.enterable
  enterAddress_eq : after.enterAddress = before.enterAddress
  notTaken_eq : after.link false = before.link false
  ending : after.last? = before.last? ∧ after.lowest = before.lowest ∧
      after.link true = before.link true ∨
    (∀ last ∈ after.last?, last.isSuffix = false) ∧ after.link true = none
  highest : ∀ target ∈ after.jumpTarget?, after.highest = before.highest

theorem jumpTarget?_of_not_isSuffix {seg : Segment}
    (plain : ∀ last ∈ seg.last?, last.isSuffix = false) : seg.jumpTarget? = none := by
  cases jumps : seg.jumpTarget? with
  | none => rfl
  | some target =>
    obtain ⟨jump, last_eq, kind_eq, -⟩ := Segment.exists_of_jumpTarget? jumps
    have notSuffix := plain jump last_eq
    rw [isSuffix_of_jump kind_eq] at notSuffix
    cases notSuffix

theorem KeepsLayout.jumps (keeps : KeepsLayout before after) {target : Address}
    (jumps : after.jumpTarget? = some target) :
    before.jumpTarget? = some target ∧ after.lowest = before.lowest ∧
      after.link true = before.link true := by
  cases keeps.ending with
  | inl same =>
    rw [Segment.jumpTarget?, same.1] at jumps
    exact ⟨jumps, same.2⟩
  | inr plain =>
    rw [jumpTarget?_of_not_isSuffix plain.1] at jumps
    cases jumps

theorem KeepsLayout.opens (keeps : KeepsLayout before after)
    (opens : after.opens) : before.opens := by
  rw [Segment.opens, keeps.enterable_eq, keeps.isDestination_eq, or_eq_true] at opens
  rw [Segment.opens, or_eq_true]
  refine opens.imp_right fun jumping => ?_
  obtain ⟨target, target_eq⟩ := isSome_iff_exists.mp jumping
  rw [(keeps.jumps target_eq).1]
  rfl

theorem KeepsLayout.of_content (same : after.SameFields before)
    (link_eq : ∀ side, after.link side = before.link side) : KeepsLayout before after := by
  refine ⟨fun placed => same.code_eq ▸ placed, same.isDestination_eq, same.jumpAddress_eq,
    same.enterable_eq, same.enterAddress_eq, link_eq false,
    .inl ⟨same.last?_eq, same.lowest_eq, link_eq true⟩,
    fun _ _ => (congrArg Segment.highest same :)⟩

section

variable {join : SegmentId} {jump : Instruction Register} {after : Graph}

theorem instructions_folded (seg other : Segment) :
    (folded jump other seg).instructions =
      seg.instructions.dropLast ++ other.instructions.map (conditionalMove jump) := by
  have removed : seg.instructions.drop (seg.length - 1 + 1) = [] :=
    drop_eq_nil_of_le (by rw [Segment.length]; lia)
  simp only [folded, Segment.refreshAddresses, Segment.append, Segment.remove]
  rw [removed, append_nil, dropLast_eq_take, Segment.length]

variable (folded : g.BranchFolded id skipped jump after)

include folded

theorem BranchFolded.instructions_source :
    (after.segment id).instructions = (g.segment id).instructions.dropLast ++
      (g.segment skipped).instructions.map (conditionalMove jump) := by
  exact folded.source_eq.code_eq.trans (instructions_folded _ _)

theorem BranchFolded.instructions_skipped : (after.segment skipped).instructions = [] :=
  folded.skipped_eq.code_eq

theorem keepsLayout_source (placed : WellPlaced (g.segment id).instructions) :
    KeepsLayout (g.segment id) (after.segment id) := by
  -- Neither what stood in front of the jump nor a conditional assignment ends a segment.
  have plain : ∀ instr ∈ (after.segment id).instructions,
      instr.isPlaceholder = false ∧ instr.isSuffix = false := by
    intro instr listed
    rw [folded.instructions_source, mem_append] at listed
    cases listed with
    | inl front => exact ⟨placed.inside _ (dropLast_subset _ front), placed.suffix_last _ front⟩
    | inr move =>
      obtain ⟨assignment, -, rfl⟩ := mem_map.mp move
      exact ⟨rfl, rfl⟩
  have final : ∀ last ∈ (after.segment id).last?, last.isSuffix = false :=
    fun last last_eq => (plain last (mem_of_mem_getLast? last_eq)).2
  refine ⟨fun _ => ⟨fun instr listed => (plain instr listed).1,
    fun instr listed => (plain instr (dropLast_subset _ listed)).2⟩,
    folded.source_eq.isDestination_eq, folded.source_eq.jumpAddress_eq,
    folded.source_eq.enterable_eq, folded.source_eq.enterAddress_eq, ?_, .inr ⟨final, ?_⟩, ?_⟩
  · rw [folded.link_eq, if_neg (by simp)]
  · rw [folded.link_eq, if_pos ⟨rfl, rfl⟩]
  · rw [jumpTarget?_of_not_isSuffix final]
    simp

theorem keepsLayout_skipped (foldable : g.IsFoldableBranch id skipped jump join) :
    KeepsLayout (g.segment skipped) (after.segment skipped) := by
  have code_eq := folded.instructions_skipped
  have isFoldable := foldable.isFoldable
  simp only [Graph.isFoldable, and_eq_true, decide_eq_true_eq] at isFoldable
  have final : ∀ last ∈ (after.segment skipped).last?, last.isSuffix = false := by
    simp [Segment.last?, code_eq]
  refine ⟨fun _ => ⟨by simp [code_eq], by simp [code_eq]⟩,
    folded.skipped_eq.isDestination_eq, folded.skipped_eq.jumpAddress_eq,
    folded.skipped_eq.enterable_eq, folded.skipped_eq.enterAddress_eq, ?_, .inr ⟨final, ?_⟩, ?_⟩
  · rw [folded.link_eq, if_neg (by simp)]
  · rw [folded.link_eq, if_neg fun both => foldable.ne both.1.symm]
    exact isFoldable.1.1.1.1.2
  · rw [jumpTarget?_of_not_isSuffix final]
    simp

end

theorem countCycles_cases (seg : Segment) :
    seg.countCycles = seg ∨ seg.instructions ≠ [] ∧ ∃ cycles points, seg.countCycles = { seg with
          instructions := .ofRoutine .countCycles cycles 0 :: seg.instructions
          points } := by
  rw [Segment.countCycles]
  split
  next counts =>
    refine .inr ⟨?_, _, _, rfl⟩
    rintro empty
    simp [Segment.addresses, empty] at counts
  · exact .inl rfl

theorem keepsLayout_countCycles (seg : Segment) : KeepsLayout seg seg.countCycles := by
  rcases countCycles_cases seg with unchanged | ⟨nonempty, cycles, points, counted⟩
  · rw [unchanged]
    exact .of_content rfl fun _ => rfl
  · rw [counted]
    refine ⟨fun placed => ⟨?_, ?_⟩, rfl, rfl, rfl, rfl, rfl, .inl ⟨?_, rfl, rfl⟩, fun _ _ => rfl⟩
    · exact forall_mem_cons.mpr ⟨rfl, placed.inside⟩
    · dsimp only
      rw [dropLast_cons_of_ne_nil nonempty]
      exact forall_mem_cons.mpr ⟨rfl, placed.suffix_last⟩
    · rw [Segment.last?, Segment.last?, getLast?_cons_of_ne_nil nonempty]

theorem KeepsLayout.trans (first : KeepsLayout before middle) (second : KeepsLayout middle after) :
    KeepsLayout before after := by
  refine ⟨fun placed => second.placed (first.placed placed),
    second.isDestination_eq.trans first.isDestination_eq,
    second.jumpAddress_eq.trans first.jumpAddress_eq, second.enterable_eq.trans first.enterable_eq,
    second.enterAddress_eq.trans first.enterAddress_eq, second.notTaken_eq.trans first.notTaken_eq,
    ?_, fun target jumps => ?_⟩
  · cases second.ending with
    | inr plain => exact .inr plain
    | inl same =>
      rw [same.1, same.2.1, same.2.2]
      exact first.ending
  · rw [second.highest target jumps, first.highest target (second.jumps jumps).1]

/-- A graph before and after passes that keep the layout. -/
structure LayoutKept (before after : Graph) : Prop extends after.Tied where
  shape_eq : after = { before with segments := after.segments }
  each : ∀ id ∈ before.order, KeepsLayout (before.segment id) (after.segment id)

namespace LayoutKept

theorem refl (tied : g.Tied) : g.LayoutKept g :=
  ⟨tied, rfl, fun _ _ => .of_content rfl fun _ => rfl⟩

variable {after : Graph}

theorem order_eq (kept : g.LayoutKept after) : after.order = g.order := by
  rw [kept.shape_eq]

theorem trans (first : g.LayoutKept middle) (second : middle.LayoutKept after) :
    g.LayoutKept after :=
  ⟨second.toTied, by rw [second.shape_eq, first.shape_eq], fun id mem =>
    (first.each id mem).trans (second.each id (first.order_eq ▸ mem))⟩

theorem wellPlaced (kept : g.LayoutKept after)
    (placed : ∀ id ∈ g.order, WellPlaced (g.segment id).instructions) :
    ∀ id ∈ after.order, WellPlaced (after.segment id).instructions := by
  rw [kept.order_eq]
  exact fun id mem => (kept.each id mem).placed (placed id mem)

section

variable (tied : g.Tied)

include tied

theorem countCycles : g.LayoutKept g.countCycles := by
  have mapped := mapped_mapOrdered tied.numbered Segment.countCycles
  have same (seg : Segment) : seg.SameLinks seg.countCycles := by
    rw [Segment.countCycles]
    split <;> exact ⟨rfl, rfl, rfl, rfl⟩
  refine ⟨mapped.tied same tied, mapped.shape_eq, ?_⟩
  intro id mem
  have counted := mapped.segment_eq id
  rw [if_pos mem] at counted
  rw [Graph.countCycles, counted]
  exact keepsLayout_countCycles _

variable (placed : ∀ id ∈ g.order, WellPlaced (g.segment id).instructions)

include placed

omit tied in
theorem of_branchFolded {skipped join jump}
    (mem : id ∈ g.order) (foldable : g.IsFoldableBranch id skipped jump join)
    (folded : g.BranchFolded id skipped jump after) : g.LayoutKept after := by
  refine ⟨folded.toTied, folded.shape_eq, ?_⟩
  intro other otherMem
  by_cases source : other = id
  · subst source
    exact keepsLayout_source folded (placed other mem)
  · by_cases isSkipped : other = skipped
    · subst isSkipped
      exact keepsLayout_skipped folded foldable
    · refine .of_content (folded.others_eq other source isSkipped) fun side => ?_
      rw [folded.link_eq, if_neg fun both => source both.1]

theorem prepared (options : BuildOptions) : g.LayoutKept (g.prepared options) :=
  prepared_induction (motive := g.LayoutKept) tied (refl tied)
    (fun _ mem foldable folded kept =>
      kept.trans (of_branchFolded (kept.wellPlaced placed) mem foldable folded))
    (fun tied kept => kept.trans (countCycles tied)) options

end

end LayoutKept

theorem Laid.of_layoutKept {after} (laid : g.Laid start)
    (kept : g.LayoutKept after) : after.Laid start := by
  refine ⟨kept.toTied, ?_, ?_, ?_, ?_, ?_, ?_, ?_, ?_, ?_⟩ <;> rw [kept.order_eq]
  · exact fun mem => (kept.each _ mem).placed (laid.placed mem)
  · intro id last mem last_eq
    cases (kept.each id mem).ending with
    | inl same => exact laid.ending mem (same.1 ▸ last_eq)
    | inr plain =>
      have notSuffix := plain.1 last last_eq
      refine ⟨?_, ?_⟩
      · intro kind_eq
        simp [isSuffix, kind_eq] at notSuffix
      · intro kind_eq
        simp [isSuffix, kind_eq] at notSuffix
  · intro id target mem target_eq
    obtain ⟨old, -, link⟩ := (kept.each id mem).jumps target_eq
    rw [link]
    exact laid.jumps mem old
  · intro id next mem linked
    cases (kept.each id mem).ending with
    | inl same =>
      rw [same.2.2] at linked
      obtain ⟨isDestination, target⟩ := laid.taken mem linked
      rw [(kept.each next (laid.numbered.link_mem mem linked)).isDestination_eq,
        Segment.jumpTarget?, same.1]
      exact ⟨isDestination, target⟩
    | inr plain =>
      rw [plain.2] at linked
      cases linked
  · intro id next mem linked
    exact laid.falls mem ((kept.each id mem).notTaken_eq ▸ linked)
  · intro id mem isDestination
    rw [(kept.each id mem).isDestination_eq] at isDestination
    rw [(kept.each id mem).jumpAddress_eq]
    exact laid.named mem isDestination
  · exact laid.ascends
  · intro id other mem otherMem earlier opens
    exact laid.opens mem otherMem earlier ((kept.each other otherMem).opens opens)
  · intro id target mem target_eq
    obtain ⟨old, lowest, -⟩ := (kept.each id mem).jumps target_eq
    rw [lowest]
    exact laid.lowest mem old

end Graph
end Dynarec
