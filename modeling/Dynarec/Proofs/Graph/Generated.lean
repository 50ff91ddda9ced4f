import Dynarec.Proofs.Graph.Passes

/-!
# Graphs of generated streams

The segments of a stream that was generated begin at words of the function.
-/

namespace Dynarec

open List

namespace Stream.Tiled

variable {stream : Stream} (tiled : stream.Tiled list)

include tiled

theorem address_ne_zero (nonzero : AddressRange.contains ⟨stream.entry, stream.size⟩ 0 = false) :
    ∀ instr ∈ stream.trimmed list, instr.isPlaceholder = false →
      instr.isExit = false → instr.address ≠ 0 := by
  intro instr listed inside stays
  rcases mem_trimmed_iff.mp listed with ⟨_, _, mark⟩ | ⟨piece, mem, guest⟩ | closing
  · rw [(Piece.of_mem_marks mark).1] at inside
    cases inside
  · rw [tiled.placed piece mem instr guest]
    intro zero
    have bounds := tiled.address_bounds mem
    have first : stream.entry = 0 := by
      rw [zero] at bounds
      exact UInt32.toNat_inj.mp (Nat.le_zero.mp bounds.1)
    have sized : 0 < stream.size := by
      have stop : stream.stop = stream.size := by rw [Stream.stop, first, UInt32.zero_add]
      rw [UInt32.lt_iff_toNat_lt, ← stop]
      change 0 < stream.stop.toNat
      omega
    simp [AddressRange.contains, first, sized] at nonzero
  · rw [isExit_of_mem_closing closing inside] at stays
    cases stays

theorem origin_head_of_ne_nil (nonempty : list ≠ [])
    (head : (stream.trimmed list).head? = some instr) : instr.origin = stream.entry := by
  obtain ⟨piece, rest, rfl⟩ := exists_cons_of_ne_nil nonempty
  obtain ⟨first, behind, kept⟩ := exists_cons_of_ne_nil
    (append_ne_nil_of_right_ne_nil (piece.marks (targetsOf (piece :: rest)))
      (tiled.fragment_ne_nil mem_cons_self))
  have kept : piece.kept (targetsOf (piece :: rest)) = first :: behind := kept
  have origin := tiled.origin_of_mem_kept mem_cons_self (kept ▸ mem_cons_self)
  rw [trimmed, flatMap_cons, kept] at head
  cases head
  rw [origin, (tiled.head piece rfl).1]

end Stream.Tiled

namespace Graph

theorem IsBase.zero_mem (base : IsBase code g) (nonempty : code ≠ []) : 0 ∈ g.order := by
  rw [base.order_eq, mem_range, length_pos_iff]
  intro empty
  refine nonempty ?_
  rw [← flatten_splitBy joins code, ← runs, empty]
  rfl

theorem isBase_of_tiled (tiled : stream.Tiled list) (made : ofStream stream = .ok g) :
    IsBase (stream.trimmed list) g ∧ g.entry = stream.entry ∧
      g.ranges = stream.ranges ∧ g.slots = stream.slots := by
  have arranged := tiled.arranged
  have nonempty := tiled.trimmed_ne_nil
  rw [← tiled.dropUnusedJumpmarks_eq] at arranged nonempty
  obtain ⟨base, same⟩ := isBase_ofStream arranged nonempty made
  rw [tiled.dropUnusedJumpmarks_eq] at base
  exact ⟨base, same⟩

theorem isBase_of_generate (generated : Stream.generate memory options = .ok stream)
    (made : ofStream stream = .ok g) :
    ∃ list, stream.Tiled list ∧ IsBase (stream.trimmed list) g ∧ g.entry = stream.entry ∧
      g.ranges = stream.ranges ∧ g.slots = stream.slots := by
  obtain ⟨list, tiled, -⟩ := Stream.exists_tiled generated
  exact ⟨list, tiled, isBase_of_tiled tiled made⟩

end Graph

/-- A function that begins at a word behind the first one and ends inside the address space. -/
structure Stream.Bounded (stream : Stream) : Prop where
  aligned : stream.entry.toNat % 4 = 0
  first : 4 ≤ stream.entry.toNat
  last : stream.entry.toNat + stream.size.toNat < 2 ^ 32

/-- A function of less than `2 ^ 24` words that begins at a word, and that ends before the addresses
that name guarded loops. -/
structure Stream.Fits (stream : Stream) : Prop where
  aligned : stream.entry.toNat % 4 = 0
  first : 4 ≤ stream.entry.toNat
  last : stream.entry.toNat + stream.size.toNat < 0xFF000000
  words : stream.size.toNat < 4 * 2 ^ 24

namespace Stream

variable {stream : Stream}

theorem Fits.bounded (fits : stream.Fits) : stream.Bounded :=
  ⟨fits.aligned, fits.first, Nat.lt_trans fits.last (by decide)⟩

variable (bounded : stream.Bounded)

include bounded

theorem Bounded.toNat_stop : stream.stop.toNat = stream.entry.toNat + stream.size.toNat := by
  rw [Stream.stop, UInt32.toNat_add, Nat.mod_eq_of_lt bounded.last]

theorem Bounded.contains_zero : AddressRange.contains ⟨stream.entry, stream.size⟩ 0 = false := by
  have first := bounded.first
  have pos : ¬ stream.entry ≤ 0 := by
    rw [UInt32.le_iff_toNat_le, UInt32.toNat_zero]
    omega
  simp [AddressRange.contains, pos]

namespace Tiled

variable (tiled : stream.Tiled list)

include tiled

theorem size_eq : 4 * list.length = stream.size.toNat := by
  have length := tiled.length_eq
  have whole := tiled.size_mod
  have stop := bounded.toNat_stop
  split at length
  next nonempty =>
    rw [UInt32.toNat_sub_of_le _ _ (UInt32.le_of_lt nonempty)] at length
    omega
  next empty =>
    rw [UInt32.lt_iff_toNat_lt] at empty
    omega

theorem origin_head (head : (stream.trimmed list).head? = some instr) :
    instr.origin = stream.entry := by
  by_cases empty : list = []
  · subst empty
    have size := tiled.size_eq bounded
    have stop := bounded.toNat_stop
    rcases tiled.origin_cases (mem_of_mem_head? head) with ⟨_, none, -⟩ | origin
    · cases none
    · rw [length_nil] at size
      rw [origin, ← UInt32.toNat_inj]
      omega
  · exact tiled.origin_head_of_ne_nil empty head

end Tiled

end Stream

namespace Graph.IsBase

variable {stream : Stream} (base : IsBase (stream.trimmed list) g) (tiled : stream.Tiled list)
  {id : SegmentId}

include base tiled

theorem start_cases (mem : id ∈ g.order) :
    (∃ piece ∈ list, startAt (stream.trimmed list) id = piece.address) ∨
      startAt (stream.trimmed list) id = stream.stop := by
  obtain ⟨run, found, start⟩ := base.exists_run mem
  have listedRun := mem_of_getElem? found
  obtain ⟨first, listed, first_eq⟩ := exists_of_startOf (ne_nil_of_mem_splitBy listedRun)
  rw [start, first_eq]
  exact tiled.origin_cases (mem_iff_exists_run.mpr ⟨run, listedRun, listed⟩)

omit tiled in
theorem start_zero_of_head
    (leading : ∀ instr, (stream.trimmed list).head? = some instr → instr.origin = stream.entry)
    (mem : 0 ∈ g.order) : startAt (stream.trimmed list) 0 = stream.entry := by
  obtain ⟨run, found, start⟩ := base.exists_run mem
  obtain ⟨first, rest, rfl⟩ := exists_cons_of_ne_nil (ne_nil_of_mem_splitBy (mem_of_getElem? found))
  obtain ⟨others, runs_eq⟩ : ∃ others, runs (stream.trimmed list) = (first :: rest) :: others :=
    head?_eq_some_iff.mp (head?_eq_getElem?.trans found)
  have code_eq := flatten_splitBy joins (stream.trimmed list)
  rw [start]
  refine leading first ?_
  rw [← code_eq, ← runs, runs_eq]
  rfl

omit tiled in
theorem enterAddress_of_head
    (leading : ∀ instr, (stream.trimmed list).head? = some instr → instr.origin = stream.entry)
    (entry_eq : g.entry = stream.entry) (mem : id ∈ g.order) (enterable : (g.segment id).enterable)
    : (g.segment id).enterAddress = startAt (stream.trimmed list) id := by
  obtain ⟨run, found, start⟩ := base.exists_run mem
  rw [base.enterable_eq found] at enterable
  rw [base.enterAddress_eq found]
  split
  next first =>
    subst first
    rw [entry_eq, base.start_zero_of_head leading mem]
  next later =>
    rw [decide_eq_false later, Bool.false_or] at enterable
    rw [if_pos enterable, start]

theorem start_lt_syntheticBase (fits : stream.Fits) (mem : id ∈ g.order) :
    startAt (stream.trimmed list) id < syntheticBase := by
  have last := fits.last
  have stop := fits.bounded.toNat_stop
  have bound : syntheticBase.toNat = 0xFF000000 := rfl
  rw [UInt32.lt_iff_toNat_lt]
  rcases base.start_cases tiled mem with ⟨piece, listed, start⟩ | start
  · have bounds := tiled.address_bounds listed
    rw [start]
    omega
  · rw [start]
    omega

theorem start_zero (bounded : stream.Bounded) (mem : 0 ∈ g.order) :
    startAt (stream.trimmed list) 0 = stream.entry :=
  base.start_zero_of_head (fun _ => tiled.origin_head bounded) mem

theorem enterAddress_eq_start (bounded : stream.Bounded) (entry_eq : g.entry = stream.entry)
    (mem : id ∈ g.order) (enterable : (g.segment id).enterable) :
    (g.segment id).enterAddress = startAt (stream.trimmed list) id :=
  base.enterAddress_of_head (fun _ => tiled.origin_head bounded) entry_eq mem enterable

theorem length_le (fits : stream.Fits) {ids : List SegmentId} (members : ∀ id ∈ ids, id ∈ g.order)
    (nodup : (ids.map (startAt (stream.trimmed list))).Nodup) : ids.length ≤ 2 ^ 24 := by
  have size := tiled.size_eq fits.bounded
  have words := fits.words
  have within : ids.map (startAt (stream.trimmed list)) ⊆
      stream.stop :: list.map Stream.Piece.address := by
    intro addr listed
    obtain ⟨id, idListed, rfl⟩ := mem_map.mp listed
    rcases base.start_cases tiled (members id idListed) with ⟨piece, mem, start⟩ | start
    · exact mem_cons_of_mem _ (mem_map.mpr ⟨piece, mem, start.symm⟩)
    · exact start ▸ mem_cons_self
  have bound := (List.Nodup.subperm nodup within).length_le
  rw [length_map, length_cons, length_map] at bound
  omega

end Graph.IsBase

/-- Memory in which every word branches to itself. -/
def spinning : Memory where
  read _ := .word 0x48000000
  slice _ _ := .ok []

/-- A loop that counts and saves two registers until the count is zero, and a return. -/
def saving : Memory where
  read address :=
    .word ([0x38630001, 0xBFC10008, 0x2C030000, 0x41820008, 0x4BFFFFF0].getD
      ((address - 0x1000) / 4).toNat 0x4E800020)
  slice _ _ := .ok []

/-- The loop is guarded by segment 3, and the function is entered at segment 6. -/
theorem exists_saving :
    ∃ stream g, Stream.generate saving { entry := 0x1000, count := 6 } = .ok stream ∧
      stream.Fits ∧ Graph.build stream {} = .ok g ∧ g.order = [0, 3, 4, 1, 2, 5, 6] ∧
      (∃ last, (g.segment 0).last? = some last ∧ last.kind = .jump ∧ last.bySegment = false) ∧
      (∃ last, (g.segment 3).last? = some last ∧ last.kind = .cycleCheck) ∧
      (g.segment 6).enterable ∧ (g.segment 6).enterAddress = stream.entry := by
  have evaluated : ((Stream.generate saving { entry := 0x1000, count := 6 }).toOption.any
      fun stream => decide (stream.entry = 0x1000 ∧ stream.size = 24) &&
        (Graph.build stream {}).toOption.any fun g => g.order = [0, 3, 4, 1, 2, 5, 6] ∧
          (g.segment 0).last?.any (fun last => last.kind = .jump ∧ last.bySegment = false) ∧
          (g.segment 3).last?.any (·.kind = .cycleCheck) ∧
          (g.segment 6).enterable ∧ (g.segment 6).enterAddress = stream.entry) = true := by
    decide +kernel
  obtain ⟨stream, generated, evaluated⟩ := of_any_toOption evaluated
  rw [Bool.and_eq_true, decide_eq_true_eq] at evaluated
  obtain ⟨⟨entry, size⟩, evaluated⟩ := evaluated
  obtain ⟨g, built, facts⟩ := of_any_toOption evaluated
  simp only [Option.any_eq_true, decide_eq_true_eq] at facts
  refine ⟨stream, g, generated, ⟨?_, ?_, ?_, ?_⟩, built, facts⟩
  all_goals simp [entry, size]

end Dynarec
