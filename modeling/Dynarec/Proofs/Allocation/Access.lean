import Dynarec.Allocation.Window
import Dynarec.Proofs.Instruction.Operands

/-!
# Accesses of a register

The accesses of a register in a segment are the instructions before its end
that touch the register.  They are listed in the order of their places, each
place once.
-/

namespace Dynarec

open List Option

namespace Instruction

variable {ρ : Type} [DecidableEq ρ]

theorem find?_accesses (instr : Instruction ρ) (reg : ρ) :
    instr.accesses.find? (·.register = reg) = if reg ∈ instr.registers then some {
          register := reg
          read := reg ∈ instr.reads
          write := reg ∈ instr.writes }
      else none := by
  unfold accesses
  induction instr.registers with
  | nil => rfl
  | cons head rest ih =>
    by_cases equal : head = reg
    · simp [equal]
    · have ne : ¬reg = head := fun other => equal other.symm
      rw [map_cons, find?_cons_of_neg (by simpa using equal), ih]
      simp [ne]

end Instruction

variable {locations : List Location}

namespace Segment

variable (seg : Segment)

theorem length_body_le : seg.body.length ≤ seg.length := (List.takeWhile_prefix _).length_le

theorem mem_locations_iff :
    location ∈ seg.locations reg ↔ ∃ (index : Nat) (instr : Instruction Register),
        seg.body[index]? = some instr ∧ reg ∈ instr.registers ∧ location = {
            index := index
            read := reg ∈ instr.reads
            write := reg ∈ instr.writes } := by
  unfold locations
  simp only [mem_filterMap, Prod.exists, mem_zipIdx_iff_getElem?, Instruction.find?_accesses]
  constructor
  · rintro ⟨instr, index, found, mapped⟩
    by_cases touched : reg ∈ instr.registers
    · rw [if_pos touched, map_some, some.injEq] at mapped
      exact ⟨index, instr, found, touched, mapped.symm⟩
    · rw [if_neg touched] at mapped
      simp at mapped
  · rintro ⟨index, instr, found, touched, rfl⟩
    exact ⟨instr, index, found, by rw [if_pos touched, map_some]⟩

theorem pairwise_locations (reg : Register) :
    (seg.locations reg).Pairwise fun first second => first.index < second.index := by
  unfold locations
  rw [pairwise_filterMap]
  have increasing : seg.body.zipIdx.Pairwise fun first second => first.2 < second.2 := by
    rw [zipIdx_eq_zip_range', ← pairwise_map, map_snd_zip]
    · exact pairwise_lt_range'
    · simp
  refine increasing.imp ?_
  rintro ⟨left, leftIndex⟩ ⟨right, rightIndex⟩ less first firstEq second secondEq
  rw [map_eq_some_iff] at firstEq secondEq
  obtain ⟨_, _, rfl⟩ := firstEq
  obtain ⟨_, _, rfl⟩ := secondEq
  exact Int.ofNat_lt.mpr less

theorem nodup_locations (reg : Register) : (seg.locations reg).Nodup :=
  (seg.pairwise_locations reg).imp fun less => ne_of_apply_ne Location.index (Int.ne_of_lt less)

theorem index_nonneg_of_mem_locations (mem : location ∈ seg.locations reg) :
    0 ≤ location.index := by
  obtain ⟨index, _, _, _, rfl⟩ := (mem_locations_iff seg).mp mem
  exact Int.natCast_nonneg index

theorem index_lt_of_mem_locations (mem : location ∈ seg.locations reg) :
    location.index < seg.body.length := by
  obtain ⟨index, instr, found, _, rfl⟩ := (mem_locations_iff seg).mp mem
  obtain ⟨inside, _⟩ := List.getElem?_eq_some_iff.mp found
  exact Int.ofNat_lt.mpr inside

end Segment

theorem index_head_le (sorted : locations.Pairwise fun first second => first.index < second.index)
    (head : locations.head? = some first) (mem : loc ∈ locations) : first.index ≤ loc.index := by
  cases sorted with
  | nil => simp at mem
  | cons smaller _ =>
    rw [head?_cons, some.injEq] at head
    subst head
    rcases mem_cons.mp mem with rfl | inside
    · exact Int.le_refl _
    · exact Int.le_of_lt (smaller loc inside)

theorem index_le_getLast
    (sorted : locations.Pairwise fun first second => first.index < second.index)
    (final : locations.getLast? = some last) (mem : location ∈ locations) :
    location.index ≤ last.index := by
  obtain ⟨front, rfl⟩ := getLast?_eq_some_iff.mp final
  rcases mem_append.mp mem with inside | inside
  · exact Int.le_of_lt ((pairwise_append.mp sorted).2.2 location inside last (by simp))
  · exact Int.le_of_eq (congrArg Location.index (mem_singleton.mp inside))

end Dynarec
