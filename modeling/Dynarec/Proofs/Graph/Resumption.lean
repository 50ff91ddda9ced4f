import Dynarec.Proofs.Graph.Entries

/-!
# Where checks resume

A check leaves for an address at which the function is entered.  In a graph that
was built, the loop body behind the check begins there.
-/

namespace Dynarec

open List Option Segment
variable {id : SegmentId}

namespace Graph

variable {g : Graph}

theorem Yields.entersAt {leave body} (yields : Yields orig g leave body)
    (valid : g.error? = none) : g.EntersAt (orig.segment body).lowest := by
  obtain ⟨guard, mem, name, code_eq, declined⟩ := yields.guarded
  have notTaken : (g.segment guard).notTaken = some leave := declined
  rw [error?, or_eq_none_iff, or_eq_none_iff, findSome?_eq_none_iff,
    findSome?_eq_none_iff, findSome?_eq_none_iff] at valid
  have resumed := valid.2.2 _ (mem_map_of_mem mem)
  rw [misresumed?, last?, code_eq, getLast?_singleton, notTaken] at resumed
  simp only [last?, yields.leaves.code_eq] at resumed
  simpa [EntersAt, inOrder, Instruction.ofRoutine, Instruction.cycleCheck] using resumed

theorem opens_of_admitted (admitted : (g.segment id).enterable ∨ id ∈ g.loops) :
    (g.segment id).opens := by
  rcases admitted with enterable | loop
  · simp [opens, enterable]
  · simp [opens, isSome_jumpTarget?_of_mem_loops loop]

namespace IsBase

variable {stream : Stream} (isBase : IsBase (stream.trimmed list) base) (tiled : stream.Tiled list)

include isBase tiled

omit tiled in
theorem ne_nil_of_jump (mem : id ∈ base.order)
    (jumps : (base.segment id).jumpTarget? = some target) : list ≠ [] := by
  obtain ⟨jump, last_eq, kind_eq, -⟩ := exists_of_jumpTarget? jumps
  obtain ⟨inCode, -⟩ := isBase.mem_code mem (mem_of_mem_getLast? last_eq)
  rcases Stream.mem_trimmed_iff.mp inCode with ⟨piece, listed, -⟩ | ⟨piece, listed, -⟩ | closing
  · exact ne_nil_of_mem listed
  · exact ne_nil_of_mem listed
  · exact absurd kind_eq (Stream.of_mem_closing closing).2.2

variable (kept : base.LayoutKept orig)

include kept

omit tiled in
theorem lowest_of_loop {body} (mem : body ∈ base.order) (closes : body ∈ orig.loops) :
    (orig.segment body).lowest ≠ 0 ∧ ∃ run, (runs (stream.trimmed list))[body]? = some run ∧
        ∃ instr ∈ bodyOf run, instr.address = (orig.segment body).lowest := by
  obtain ⟨run, found, -⟩ := isBase.exists_run mem
  obtain ⟨target, jumps⟩ := isSome_iff_exists.mp (isSome_jumpTarget?_of_mem_loops closes)
  have lowest := ((kept.each body mem).jumps jumps).2.1
  have highest := (kept.each body mem).highest target jumps
  have covers : (orig.segment body).hasAddresses := by
    have needs := of_mem_filter closes
    rw [needsCycleCheck] at needs
    split at needs
    · cases needs
    · simp only [Bool.and_eq_true] at needs
      exact needs.1.1.2
  rw [isBase.lowest_eq found] at lowest
  rw [isBase.highest_eq found] at highest
  rw [hasAddresses, lowest, highest] at covers
  rw [lowest]
  cases least : (((bodyOf run).map (·.address)).filter (· ≠ 0)).min? with
  | none =>
    rw [min?_eq_none_iff.mp least] at covers
    cases covers
  | some addr =>
    have listed := min?_mem least
    obtain ⟨inBody, pos⟩ := mem_filter.mp listed
    obtain ⟨instr, mem, equal⟩ := mem_map.mp inBody
    exact ⟨by simpa using pos, run, found, instr, mem, equal⟩

theorem entrance_eq_start (entry_eq : base.entry = stream.entry) (nonempty : list ≠ [])
    (mem : id ∈ base.order) (admitted : (orig.segment id).enterable ∨ id ∈ orig.loops) :
    (orig.segment id).entrance = startAt (stream.trimmed list) id := by
  have keeps := kept.each id mem
  rw [entrance]
  split
  next enterable =>
    rw [keeps.enterable_eq] at enterable
    rw [keeps.enterAddress_eq]
    exact isBase.enterAddress_of_head (fun _ => tiled.origin_head_of_ne_nil nonempty) entry_eq
      mem enterable
  next closed =>
    obtain ⟨target, jumps⟩ := isSome_iff_exists.mp
      (isSome_jumpTarget?_of_mem_loops (admitted.resolve_left closed))
    obtain ⟨jumped, lowest, -⟩ := keeps.jumps jumps
    -- It is not the first segment, which is entered.
    have first := isBase.zero_mem tiled.trimmed_ne_nil
    have later : id ≠ 0 := by
      rintro rfl
      obtain ⟨run, found, -⟩ := isBase.exists_run mem
      rw [keeps.enterable_eq, isBase.enterable_eq found] at closed
      exact closed rfl
    have behind := isBase.start_lt tiled.arranged first mem (Nat.pos_of_ne_zero later)
      (by simp [opens, jumped])
    rw [lowest]
    refine isBase.lowest_of_jump tiled.arranged mem jumped ?_
    rintro zero
    rw [zero] at behind
    exact UInt32.not_lt_zero behind

theorem lowest_eq_start (entry_eq : base.entry = stream.entry) (admits : orig.Admits g)
    (valid : g.error? = none) {leave body} (mem : body ∈ base.order)
    (yields : Yields orig g leave body) :
    (orig.segment body).lowest = startAt (stream.trimmed list) body := by
  have closes : body ∈ orig.loops := mem_filter.mpr ⟨kept.order_eq ▸ mem, yields.closes⟩
  obtain ⟨target, jumps⟩ := isSome_iff_exists.mp (isSome_jumpTarget?_of_mem_loops closes)
  have jumped := ((kept.each body mem).jumps jumps).1
  have nonempty := isBase.ne_nil_of_jump mem jumped
  obtain ⟨entry, entryMem, enterable, addr⟩ := yields.entersAt valid
  obtain ⟨other, way, entered, admitted⟩ := admits.leads entryMem enterable
  have otherMem : other ∈ base.order := kept.order_eq ▸ way.target_mem
  have admitted : (orig.segment other).enterable ∨ other ∈ orig.loops :=
    admitted.imp_right fun needs => mem_filter.mpr ⟨way.target_mem, needs⟩
  have start := isBase.entrance_eq_start tiled kept entry_eq nonempty otherMem admitted
  rw [← entered, addr] at start
  suffices same : other = body by rw [start, same]
  -- Were it another segment, everything in the body would stand on one side of its start.
  obtain ⟨-, run, found, instr, inBody, lowest⟩ := isBase.lowest_of_loop kept mem closes
  have origin := (isBase.address_of_jump tiled.arranged mem found jumped instr inBody).1
  rw [lowest, start] at origin
  obtain ⟨otherRun, otherFound, otherStart⟩ := isBase.exists_run otherMem
  obtain ⟨first, firstListed, first_eq⟩ :=
    exists_of_startOf (ne_nil_of_mem_splitBy (mem_of_getElem? otherFound))
  rw [otherStart, first_eq] at origin
  have listed := mem_of_mem_filter inBody
  rcases Nat.lt_trichotomy other body with less | equal | greater
  · have before := isBase.origin_lt tiled.arranged otherFound found less
      (by simp [opens, jumped]) first firstListed instr listed
    rw [origin] at before
    exact absurd before (UInt32.lt_irrefl _)
  · exact equal
  · have opens := (kept.each other otherMem).opens (opens_of_admitted admitted)
    have before := isBase.origin_lt tiled.arranged found otherFound greater opens instr listed
      first firstListed
    rw [origin] at before
    exact absurd before (UInt32.lt_irrefl _)

end IsBase
end Graph
end Dynarec
