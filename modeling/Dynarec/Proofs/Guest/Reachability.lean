import Dynarec.Proofs.Stream.Determinacy
import Mathlib.Order.Bounds.Basic

/-!
# What tracking finds

The words of a function are those that its entry leads to, step by step, inside
the window of the search.  Every visit is paid for by the entry or by one of the
two steps from a word visited before, so the budget always suffices, and the
words that are found do not depend on the order of the visits.
-/

namespace Dynarec.Guest

open List
namespace Tracker

variable {tracker : Tracker} {entry addr next : Address}

/-- An address in the window of the search that holds a word other than zero. -/
structure Usable (tracker : Tracker) (entry addr : Address) : Prop where
  lower : entry.toNat ≤ addr.toNat
  upper : addr.toNat < entry.toNat + 4 * tracker.effectiveLimit.toNat
  holds : ∃ word, tracker.memory.read addr = .word word ∧ word ≠ 0

/-- One step of a path: on to the next word unless the path ends, or along a branch that does
not link. -/
def LeadsTo (tracker : Tracker) (addr next : Address) : Prop :=
  ∃ word, tracker.memory.read addr = .word word ∧
    (tracker.stops addr word = .ok false ∧ next = addr + 4 ∨ next ∈ branchesTo addr word)

/-- The addresses of the words that the entry leads to inside the window. -/
inductive Reaches (tracker : Tracker) (entry : Address) : Address → Prop
  | entry (usable : tracker.Usable entry entry) : Reaches tracker entry entry
  | step {addr next : Address} (reached : Reaches tracker entry addr)
      (leads : tracker.LeadsTo addr next) (usable : tracker.Usable entry next) :
      Reaches tracker entry next

theorem Reaches.usable (reached : tracker.Reaches entry addr) : tracker.Usable entry addr := by
  cases reached with
  | entry usable => exact usable
  | step _ _ usable => exact usable

theorem target_mod (whole : offset &&& 3 = 0) (absolute : Bool) (aligned : addr.toNat % 4 = 0) :
    (if absolute then offset else addr + offset).toNat % 4 = 0 := by
  have words := Stream.toNat_mod_four whole
  split
  · exact words
  · rw [UInt32.toNat_add]
    omega

theorem conditionalTarget_mod (word : Word) (aligned : addr.toNat % 4 = 0) :
    (word.conditionalTarget addr).toNat % 4 = 0 := by
  refine target_mod ?_ word.absolute aligned
  apply UInt32.toBitVec_inj.mp
  simp only [UInt32.toBitVec_and, Int32.toBitVec_toUInt32, Int16.toBitVec_toInt32,
    UInt16.toBitVec_toInt16, UInt32.toBitVec_toUInt16, BitVec.setWidth_and, BitVec.signExtend_and]
  rw [BitVec.and_assoc]
  exact BitVec.and_zero

theorem branchTarget_mod (word : Word) (aligned : addr.toNat % 4 = 0) :
    (word.branchTarget addr).toNat % 4 = 0 := by
  have low : word &&& 0x03FFFFFC &&& 3 = 0 := by
    rw [UInt32.and_assoc]
    exact UInt32.and_zero
  refine target_mod ?_ word.absolute aligned
  split
  · apply UInt32.toBitVec_inj.mp
    rw [UInt32.toBitVec_and, UInt32.toBitVec_or, BitVec.and_or_distrib_right,
      ← UInt32.toBitVec_and, low]
    rfl
  · exact low

theorem LeadsTo.mod_four (leads : tracker.LeadsTo addr next) (aligned : addr.toNat % 4 = 0) :
    next.toNat % 4 = 0 := by
  obtain ⟨word, -, ⟨-, rfl⟩ | branches⟩ := leads
  · rw [UInt32.toNat_add]
    have four : (4 : UInt32).toNat = 4 := rfl
    omega
  · unfold branchesTo at branches
    split at branches
    · split at branches
      · cases branches
      · rw [mem_singleton.mp branches]
        exact conditionalTarget_mod word aligned
    · split at branches
      · cases branches
      · rw [mem_singleton.mp branches]
        exact branchTarget_mod word aligned
    · cases branches

section

variable (aligned : entry.toNat % 4 = 0)

include aligned

theorem Reaches.mod_four (reached : tracker.Reaches entry addr) : addr.toNat % 4 = 0 := by
  induction reached with
  | entry => exact aligned
  | step _ leads _ ih => exact leads.mod_four ih

theorem length_le_of_reaches {list : List Address} (nodup : list.Nodup)
    (reached : ∀ addr ∈ list, tracker.Reaches entry addr) :
    list.length ≤ tracker.effectiveLimit.toNat := by
  have index_lt : ∀ addr ∈ list, (addr.toNat - entry.toNat) / 4 < tracker.effectiveLimit.toNat := by
    intro addr mem
    have usable := (reached addr mem).usable
    have lower := usable.lower
    have upper := usable.upper
    omega
  have distinct : (list.map fun addr => (addr.toNat - entry.toNat) / 4).Nodup := by
    refine nodup.map_on ?_
    intro first firstMem second secondMem same
    have firstWhole := (reached first firstMem).mod_four aligned
    have secondWhole := (reached second secondMem).mod_four aligned
    have firstLower := (reached first firstMem).usable.lower
    have secondLower := (reached second secondMem).usable.lower
    exact UInt32.toNat_inj.mp (by omega)
  have inside : (list.map fun addr => (addr.toNat - entry.toNat) / 4) ⊆
      List.range tracker.effectiveLimit.toNat := by
    intro index mem
    obtain ⟨addr, listed, rfl⟩ := mem_map.mp mem
    exact mem_range.mpr (index_lt addr listed)
  simpa using (distinct.subperm inside).length_le

end

theorem contains_window_iff (small : tracker.effectiveLimit.toNat < 2 ^ 30) (addr : Address) :
    (tracker.window entry).contains addr ↔ entry.toNat ≤ addr.toNat ∧
        addr.toNat < entry.toNat + 4 * tracker.effectiveLimit.toNat := by
  have size : (tracker.effectiveLimit * 4).toNat = 4 * tracker.effectiveLimit.toNat := by
    have four : (4 : UInt32).toNat = 4 := rfl
    rw [UInt32.toNat_mul, four]
    omega
  simp only [window, AddressRange.contains, Bool.and_eq_true, decide_eq_true_eq,
    UInt32.le_iff_toNat_le, UInt32.lt_iff_toNat_lt, size]
  refine and_congr_right fun lower => ?_
  rw [UInt32.toNat_sub_of_le _ _ (UInt32.le_iff_toNat_le.mpr lower)]
  omega

/-- What is known of a search that is under way: the addresses visited were reached, those that
are pending are reached if they can be used, and no step is forgotten. -/
structure Underway (tracker : Tracker) (entry : Address) (work : List Address)
    (visited : Std.HashSet Address) : Prop where
  sound : ∀ addr ∈ visited, tracker.Reaches entry addr
  pending : ∀ addr ∈ work, tracker.Usable entry addr → tracker.Reaches entry addr
  entered : tracker.Usable entry entry → entry ∈ visited ∨ entry ∈ work
  closed : ∀ addr ∈ visited, ∀ next, tracker.LeadsTo addr next →
    tracker.Usable entry next → next ∈ visited ∨ next ∈ work

namespace Underway

theorem start : tracker.Underway entry [entry] ∅ where
  sound _ member := absurd member Std.HashSet.not_mem_empty
  pending addr member usable := by
    rw [mem_singleton.mp member] at usable ⊢
    exact .entry usable
  entered _ := .inr (mem_singleton_self entry)
  closed _ member := absurd member Std.HashSet.not_mem_empty

theorem mem_visited_iff (underway : tracker.Underway entry [] visited) :
    addr ∈ visited ↔ tracker.Reaches entry addr := by
  refine ⟨underway.sound addr, fun reached => ?_⟩
  induction reached with
  | entry usable => exact (underway.entered usable).resolve_right not_mem_nil
  | step _ leads usable ih =>
    exact (underway.closed _ ih _ leads usable).resolve_right not_mem_nil

theorem drop (underway : tracker.Underway entry (addr :: rest) visited)
    (useless : tracker.Usable entry addr → addr ∈ visited) :
    tracker.Underway entry rest visited where
  sound := underway.sound
  pending other mem := underway.pending other (mem_cons_of_mem addr mem)
  entered usable := by
    rcases underway.entered usable with before | here
    · exact .inl before
    · rcases mem_cons.mp here with rfl | behind
      · exact .inl (useless usable)
      · exact .inr behind
  closed other mem next leads usable := by
    rcases underway.closed other mem next leads usable with before | here
    · exact .inl before
    · rcases mem_cons.mp here with rfl | behind
      · exact .inl (useless usable)
      · exact .inr behind

theorem visit (underway : tracker.Underway entry (addr :: rest) visited)
    (usable : tracker.Usable entry addr)
    (steps_spec : ∀ next, tracker.Usable entry next → (next ∈ steps ↔ tracker.LeadsTo addr next)) :
    tracker.Underway entry (steps ++ rest) (visited.insert addr) := by
  have reached := underway.pending addr mem_cons_self usable
  have kept {other} (known : other ∈ visited ∨ other ∈ addr :: rest) :
      other ∈ visited.insert addr ∨ other ∈ steps ++ rest := by
    rcases known with before | here
    · exact .inl (Std.HashSet.mem_insert.mpr (.inr before))
    · rcases mem_cons.mp here with rfl | behind
      · exact .inl Std.HashSet.mem_insert_self
      · exact .inr (mem_append_right steps behind)
  refine ⟨fun other mem => ?_, fun other mem otherUsable => ?_,
    fun entryUsable => kept (underway.entered entryUsable),
    fun other mem next leads nextUsable => ?_⟩
  · rcases Std.HashSet.mem_insert.mp mem with same | before
    · rwa [← beq_iff_eq.mp same]
    · exact underway.sound other before
  · rcases mem_append.mp mem with step | behind
    · exact .step reached ((steps_spec other otherUsable).mp step) otherUsable
    · exact underway.pending other (mem_cons_of_mem addr behind) otherUsable
  · rcases Std.HashSet.mem_insert.mp mem with same | before
    · rw [← beq_iff_eq.mp same] at leads
      exact .inr (mem_append_left rest ((steps_spec next nextUsable).mpr leads))
    · exact kept (underway.closed other before next leads nextUsable)

end Underway

section

variable (steady : ∀ addr text, tracker.memory.read addr ≠ .crashed text)

include steady

/-- The steps from a word, of which there are at most two. -/
theorem exists_successors (small : tracker.effectiveLimit.toNat < 2 ^ 30) (entry : Address)
    (read : tracker.memory.read addr = .word word) :
    ∃ steps, tracker.successors (tracker.window entry) addr word = .ok steps ∧
      steps.length ≤ 2 ∧ ∀ next, tracker.Usable entry next →
        (next ∈ steps ↔ tracker.LeadsTo addr next) := by
  have few : (branchesTo addr word).length ≤ 1 := by
    unfold branchesTo
    split
    · split <;> simp
    · split <;> simp
    · simp
  have fewer := (length_filter_le (tracker.window entry).contains (branchesTo addr word)).trans few
  have branches {next} (usable : tracker.Usable entry next) :
      next ∈ (branchesTo addr word).filter (tracker.window entry).contains ↔
        next ∈ branchesTo addr word := by
    rw [mem_filter, contains_window_iff small next]
    exact and_iff_left ⟨usable.lower, usable.upper⟩
  have leads_iff next : tracker.LeadsTo addr next ↔
      tracker.stops addr word = .ok false ∧ next = addr + 4 ∨ next ∈ branchesTo addr word := by
    simp only [LeadsTo, read, ReadResult.word.injEq]
    exact ⟨fun ⟨_, same, leads⟩ => same ▸ leads, fun leads => ⟨word, rfl, leads⟩⟩
  unfold successors
  cases stops : tracker.stops addr word with
  | error interruption =>
    obtain ⟨_, _, crashed, -⟩ := crashes_of_stops stops
    exact absurd crashed (steady _ _)
  | ok ends =>
    cases ends with
    | true =>
      refine ⟨_, rfl, fewer.trans (by decide), fun next usable => ?_⟩
      rw [leads_iff, stops, if_pos rfl, branches usable]
      simp
    | false =>
      refine ⟨_, rfl, Nat.succ_le_succ fewer, fun next usable => ?_⟩
      rw [leads_iff, stops, if_neg Bool.false_ne_true, mem_cons, branches usable]
      simp

/-- A search that can pay for what is pending and for two steps from each word that is still to
be visited finds exactly the addresses that are reached. -/
theorem exists_walk (aligned : entry.toNat % 4 = 0) (small : tracker.effectiveLimit.toNat < 2 ^ 30)
    (underway : tracker.Underway entry work visited)
    (enough : work.length + 2 * (tracker.effectiveLimit.toNat - visited.size) ≤ budget) :
    ∃ found, tracker.walk (tracker.window entry) budget work visited = .ok found ∧
      ∀ addr, addr ∈ found ↔ tracker.Reaches entry addr := by
  fun_induction tracker.walk (tracker.window entry) budget work visited with
  | case1 work visited =>
    have nothing : work = [] := eq_nil_of_length_eq_zero (by omega)
    subst nothing
    exact ⟨visited, rfl, fun _ => underway.mem_visited_iff⟩
  | case2 budget visited => exact ⟨visited, rfl, fun _ => underway.mem_visited_iff⟩
  | case3 budget addr rest visited useless ih =>
    refine ih (underway.drop fun usable => ?_) ?_
    · have inside := (contains_window_iff small addr).mpr ⟨usable.lower, usable.upper⟩
      simpa [inside] using useless
    · rw [length_cons] at enough
      omega
  | case4 budget addr rest visited _ text read => exact absurd read (steady addr text)
  | case5 budget addr rest visited _ cause read ih =>
    refine ih (underway.drop fun usable => ?_) ?_
    · obtain ⟨word, there, -⟩ := usable.holds
      rw [read] at there
      cases there
    · rw [length_cons] at enough
      omega
  | case6 budget addr rest visited _ read ih =>
    refine ih (underway.drop fun usable => ?_) ?_
    · obtain ⟨word, there, nonzero⟩ := usable.holds
      rw [read] at there
      cases there
      exact absurd rfl nonzero
    · rw [length_cons] at enough
      omega
  | case7 budget addr rest visited fresh word read nonzero ih =>
    simp only [Bool.or_eq_true, Bool.not_eq_true', not_or, Bool.not_eq_false,
      contains_window_iff small addr, Std.HashSet.contains_iff_mem] at fresh
    obtain ⟨⟨lower, upper⟩, unvisited⟩ := fresh
    have usable : tracker.Usable entry addr := ⟨lower, upper, word, read, nonzero⟩
    obtain ⟨steps, done, few, steps_spec⟩ := exists_successors steady small entry read
    rw [bind_eq_of_eq_ok done]
    have room : visited.size < tracker.effectiveLimit.toNat := by
      have distinct : (addr :: visited.toList).Nodup := by
        refine nodup_cons.mpr ⟨mt Std.HashSet.mem_toList.mp unvisited, ?_⟩
        exact Std.HashSet.distinct_toList.imp fun ne => by simpa using ne
      have reached : ∀ other ∈ addr :: visited.toList, tracker.Reaches entry other := by
        intro other mem
        rcases mem_cons.mp mem with rfl | before
        · exact underway.pending other mem_cons_self usable
        · exact underway.sound other (Std.HashSet.mem_toList.mp before)
      have bound := length_le_of_reaches aligned distinct reached
      rw [length_cons, Std.HashSet.length_toList] at bound
      exact bound
    refine ih steps (underway.visit usable steps_spec) ?_
    rw [Std.HashSet.size_insert, if_neg unvisited, length_append]
    rw [length_cons] at enough
    omega

end

/-- The words that are counted were visited, and the one behind them was not, unless the count
reached its bound. -/
theorem run_spec (visited : Std.HashSet Address) (addr : Address) (bound : Nat) :
    run visited addr bound ≤ bound ∧
      (∀ index < run visited addr bound, addr + 4 * UInt32.ofNat index ∈ visited) ∧
      (run visited addr bound < bound →
        addr + 4 * UInt32.ofNat (run visited addr bound) ∉ visited) := by
  induction bound generalizing addr with
  | zero =>
    exact ⟨Nat.le_refl 0, fun _ inside => absurd inside (Nat.not_lt_zero _),
      fun less => absurd less (Nat.not_lt_zero 0)⟩
  | succ bound ih =>
    obtain ⟨within, counted, ends⟩ := ih (addr + 4)
    unfold run
    split
    next here =>
      refine ⟨Nat.succ_le_succ within, fun index inside => ?_, fun less => ?_⟩
      · cases index with
        | zero => simpa using here
        | succ index =>
          rw [Stream.address_succ]
          exact counted index (Nat.lt_of_succ_lt_succ inside)
      · rw [Stream.address_succ]
        exact ends (Nat.lt_of_succ_lt_succ less)
    next missing =>
      refine ⟨Nat.zero_le _, fun _ inside => absurd inside (Nat.not_lt_zero _), fun _ => ?_⟩
      simpa using missing

theorem contains_of_walk {window} (done : tracker.walk window budget work visited = .ok final)
    (inside : ∀ addr ∈ visited, window.contains addr) : ∀ addr ∈ final, window.contains addr := by
  fun_induction tracker.walk window budget work visited with
  | case1 | case2 =>
    cases done
    exact inside
  | case4 => cases done
  | case3 _ _ _ _ _ ih | case5 _ _ _ _ _ _ _ ih | case6 _ _ _ _ _ _ ih => exact ih done inside
  | case7 budget addr rest visited kept word read nonzero ih =>
    obtain ⟨steps, -, done⟩ := of_bind_eq_ok done
    refine ih steps done fun other mem => ?_
    rcases Std.HashSet.mem_insert.mp mem with same | before
    · simp only [Bool.or_eq_true, not_or, Bool.not_eq_true', Bool.not_eq_false] at kept
      exact beq_iff_eq.mp same ▸ kept.1
    · exact inside other before

theorem offset_lt_of_walk
    (walked : tracker.walk (tracker.window entry) budget [entry] ∅ = .ok visited)
    (early : index < run visited entry bound) :
    4 * UInt32.ofNat index < tracker.effectiveLimit * 4 := by
  have inside := contains_of_walk walked (fun _ mem => absurd mem Std.HashSet.not_mem_empty) _
    ((run_spec visited entry bound).2.1 index early)
  have offset : entry + 4 * UInt32.ofNat index - entry = 4 * UInt32.ofNat index := by grind
  rw [AddressRange.contains, Bool.and_eq_true, window, offset, decide_eq_true_eq,
    decide_eq_true_eq] at inside
  exact inside.2

theorem size_of_track {range} (tracked : tracker.track entry = .ok range) : range.size ≠ 0 := by
  obtain ⟨visited, walked, tracked⟩ := of_bind_eq_ok tracked
  split at tracked
  · cases tracked
  next nonzero =>
    cases tracked
    intro empty
    -- A run that fills the address space would end with the word before the entry.
    have long : 0x3FFFFFFF < run visited entry visited.size := by
      have zero : run visited entry visited.size * 4 % 2 ^ 32 = 0 :=
        (UInt32.toNat_ofNat' ..).symm.trans (congrArg UInt32.toNat empty)
      have pos := Nat.pos_of_ne_zero nonzero
      omega
    have last := UInt32.lt_iff_toNat_lt.mp (offset_lt_of_walk walked long)
    have four : (4 : UInt32).toNat = 4 := rfl
    have most : (4 * UInt32.ofNat 0x3FFFFFFF).toNat = 0xFFFFFFFC := rfl
    rw [most, UInt32.toNat_mul, four] at last
    omega

theorem size_le_of_track {range} (tracked : tracker.track entry = .ok range) :
    range.size.toNat ≤ 4 * tracker.effectiveLimit.toNat := by
  obtain ⟨visited, walked, tracked⟩ := of_bind_eq_ok tracked
  split at tracked
  · cases tracked
  · cases tracked
    by_contra long
    have early : tracker.effectiveLimit.toNat < run visited entry visited.size := by
      rw [UInt32.toNat_ofNat'] at long
      omega
    have behind := offset_lt_of_walk walked early
    rw [UInt32.ofNat_toNat, UInt32.mul_comm] at behind
    exact UInt32.lt_irrefl _ behind

/-- A branch over one word to a return: the word between them is not reached. -/
def skipping : Image where
  base := 0x1000
  data := #[0x48, 0, 0, 8, 0x38, 0x60, 0, 1, 0x4E, 0x80, 0, 0x20]

end Tracker
end Dynarec.Guest
