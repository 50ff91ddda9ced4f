import Dynarec.Proofs.Compiler.Classification

/-!
# What decoding depends on

Whether the words of a function can be decoded, and if not at which word and why
they are refused, depends on these words only: not on the memory around them, the
callees that are decoded in place, or the entries that were asked for.
-/

namespace Dynarec

open Array UInt32

namespace Image

variable {image : Image} {size : UInt32}

/-- The word whose bytes stand at an offset. -/
def wordIn (code : List UInt8) (offset : Nat) : Word :=
  VerdictRecord.wordOf (code.getD offset 0) (code.getD (offset + 1) 0) (code.getD (offset + 2) 0)
    (code.getD (offset + 3) 0)

theorem read_ne_crashed (image : Image) (addr : Address) (text : String) :
    image.memory.read addr ≠ .crashed text := by
  unfold memory
  dsimp only
  split <;> exact nofun

theorem slice_eq_ok_iff :
    image.memory.slice entry size = .ok code ↔ image.contains entry size.toNat ∧
        (image.data.extract (entry - image.base).toNat
          ((entry - image.base).toNat + size.toNat)).toList = code := by
  simp only [memory, slice]
  by_cases inside : image.contains entry size.toNat = true <;> simp [inside]

variable (sliced : image.memory.slice entry size = .ok code)

include sliced

theorem length_of_slice : code.length = size.toNat := by
  obtain ⟨inside, rfl⟩ := slice_eq_ok_iff.mp sliced
  simp only [contains, Bool.and_eq_true, decide_eq_true_eq] at inside
  simp only [length_toList, size_extract]
  omega

theorem getD_of_slice (inside : offset < size.toNat) :
    code.getD offset 0 = image.data.getD ((entry - image.base).toNat + offset) 0 := by
  have length := length_of_slice sliced
  obtain ⟨-, rfl⟩ := slice_eq_ok_iff.mp sliced
  simp only [length_toList, size_extract] at length
  rw [List.getD_eq_getElem?_getD, getElem?_toList, getElem?_extract, getD_eq_getD_getElem?]
  split
  · rfl
  · omega

theorem read_of_slice (lower : entry ≤ addr)
    (upper : addr.toNat + 4 ≤ entry.toNat + size.toNat) :
    image.memory.read addr = .word (wordIn code (addr.toNat - entry.toNat)) := by
  obtain ⟨inside, -⟩ := slice_eq_ok_iff.mp sliced
  simp only [contains, Bool.and_eq_true, decide_eq_true_eq] at inside
  have lowerNat := le_iff_toNat_le.mp lower
  have baseNat := le_iff_toNat_le.mp inside.1
  have entryOffset : (entry - image.base).toNat = entry.toNat - image.base.toNat :=
    UInt32.toNat_sub_of_le _ _ inside.1
  have base : image.base ≤ addr := UInt32.le_trans inside.1 lower
  have offset_eq : (addr - image.base).toNat =
      (entry - image.base).toNat + (addr.toNat - entry.toNat) := by
    rw [UInt32.toNat_sub_of_le _ _ base]
    omega
  have contained : image.contains addr 4 := by
    simp only [contains, Bool.and_eq_true, decide_eq_true_eq]
    exact ⟨base, by omega⟩
  have word_eq : image.wordAt (addr - image.base).toNat =
      wordIn code (addr.toNat - entry.toNat) := by
    have byte {index} (small : index < 4) : code.getD (addr.toNat - entry.toNat + index) 0 =
          image.data.getD ((addr - image.base).toNat + index) 0 := by
      rw [getD_of_slice sliced (by omega), offset_eq, Nat.add_assoc]
    rw [wordIn, byte (by decide : 1 < 4), byte (by decide : 2 < 4), byte (by decide : 3 < 4),
      ← Nat.add_zero (addr.toNat - entry.toNat), byte (by decide : 0 < 4)]
    rfl
  simp [memory, readWord, contained, word_eq]

end Image

namespace Stream

theorem fetch_congr (same : memory.read addr = other.read addr) :
    fetch memory addr = fetch other addr := by
  unfold fetch
  rw [same]

theorem address_succ (addr : Address) (index : Nat) :
    addr + 4 * ofNat (index + 1) = addr + 4 + 4 * ofNat index := by
  rw [ofNat_add]
  grind

theorem toNat_word_of_lt {entry size} (ahead : entry < entry + size)
    (inside : index < (entry + size - entry).toNat / 4) :
    (entry + 4 * ofNat index).toNat = entry.toNat + 4 * index ∧ 4 * index + 4 ≤ size.toNat := by
  have size_eq : entry + size - entry = size := by grind
  rw [size_eq] at inside
  have aheadNat := lt_iff_toNat_lt.mp ahead
  have sizeSmall := size.toNat_lt
  rw [UInt32.toNat_add] at aheadNat
  have four : (4 : UInt32).toNat = 4 := rfl
  rw [UInt32.toNat_add, UInt32.toNat_mul, UInt32.toNat_ofNat', four]
  omega

theorem lower_ne_error (steady : ∀ addr text, memory.read addr ≠ .crashed text) :
    lower memory inlines site word operation ≠ .error interruption := by
  intro failed
  obtain ⟨_, _, read, -⟩ := crashes_of_lower failed
  exact steady _ _ read

section

variable
  (firm : ∀ {site word operation}, lower memory inlines site word operation ≠ .error interruption)
  (otherFirm : ∀ {site word operation any},
    lower other otherInlines site word operation ≠ .error any)

include firm otherFirm

/-- Words that are refused are refused again, whatever is around them. -/
theorem pieces_refused_again {start stop otherStart otherStop addr count}
    (same : ∀ index < count, memory.read (addr + 4 * ofNat index) =
      other.read (addr + 4 * ofNat index))
    (failed : pieces memory inlines start stop isEntry count addr progress = .error interruption) :
    pieces other otherInlines otherStart otherStop otherIsEntry count addr otherProgress =
      .error interruption := by
  induction count generalizing addr progress otherProgress with
  | zero => cases failed
  | succ count ih =>
    have first : memory.read addr = other.read addr := by simpa using same 0 (by omega)
    have later index (inside : index < count) :
        memory.read (addr + 4 + 4 * ofNat index) = other.read (addr + 4 + 4 * ofNat index) := by
      rw [← address_succ]
      exact same (index + 1) (by omega)
    unfold pieces
    rw [← fetch_congr first]
    rcases of_bind_eq_error failed with failed | ⟨⟨word, operation⟩, fetched, failed⟩
    · rw [failed]
      rfl
    · rw [fetched]
      cases lowered : lower other otherInlines ⟨addr, otherStart, otherStop⟩ word
          operation with
      | error interruption => exact absurd lowered otherFirm
      | ok piece =>
        rcases of_bind_eq_error failed with failed | ⟨_, -, failed⟩
        · exact absurd failed firm
        · rcases of_bind_eq_error failed with failed | ⟨_, -, failed⟩
          · have again next : pieces other otherInlines otherStart otherStop
                otherIsEntry count (addr + 4) next = .error interruption :=
              ih later failed
            simp only [lowered, again, bind, Except.bind]
          · cases failed

/-- Code that is refused is refused again, whatever is around it. -/
theorem ofRange_refused_again (entry_eq : options.entry = otherOptions.entry)
    (inlines_eq : options.inlines = inlines) (otherInlines_eq : otherOptions.inlines = otherInlines)
    {size}
    (same : ∀ addr, options.entry ≤ addr → addr.toNat + 4 ≤ options.entry.toNat + size.toNat →
        memory.read addr = other.read addr)
    (failed : ofRange memory options size = .error interruption) :
    ofRange other otherOptions size = .error interruption := by
  obtain ⟨entry, count, entries, _, limit⟩ := options
  obtain ⟨otherEntry, otherCount, otherEntries, _, otherLimit⟩ := otherOptions
  dsimp only at entry_eq inlines_eq otherInlines_eq same
  subst entry_eq inlines_eq otherInlines_eq
  have words index
      (inside : index < if entry < entry + size then (entry + size - entry).toNat / 4 else 0) :
      memory.read (entry + 4 * ofNat index) = other.read (entry + 4 * ofNat index) := by
    split at inside
    next ahead =>
      have bounds := toNat_word_of_lt ahead inside
      exact same _ (le_iff_toNat_le.mpr (by omega)) (by omega)
    · exact absurd inside (Nat.not_lt_zero _)
  rcases of_bind_eq_error failed with failed | ⟨⟨list, progress⟩, done, failed⟩
  · unfold ofRange
    dsimp only
    rw [pieces_refused_again firm otherFirm words failed]
    rfl
  · have short : progress.slots.length ≤ maxRegisters :=
      Nat.le_trans (length_slots_of_pieces done) (by decide)
    dsimp only at failed
    rw [if_neg (Nat.not_lt.mpr short)] at failed
    cases failed

end

end Stream
end Dynarec
