import Dynarec.Proofs.Stream.Determinacy
import Dynarec.Proofs.Stream.Order

/-!
# Streams hold all words of their range

A range of an image that ends below the end of the address space is generated
word by word: either every word is decoded and its fragment stands in the stream,
or the first word that is not decoded is reported.  A range that ends where the
address space ends is taken for an empty one.
-/

namespace Dynarec

open List UInt32

namespace Image

def words (image : Image) (addr : Address) (count : Nat) : List Word :=
  (List.range count).map fun index => image.wordAt ((addr - image.base).toNat + 4 * index)

theorem read_of_words {image : Image} {count} (inside : image.contains addr (4 * count))
    (below : addr.toNat + 4 * count < 2 ^ 32) (found : (image.words addr count)[index]? = some word)
    : image.memory.read (addr + 4 * ofNat index) = .word word := by
  obtain ⟨bound, rfl⟩ := List.getElem?_eq_some_iff.mp found
  simp only [words, length_map, length_range] at bound
  simp only [contains, Bool.and_eq_true, decide_eq_true_eq] at inside
  obtain ⟨lower, upper⟩ := inside
  have place : (addr + 4 * ofNat index).toNat = addr.toNat + 4 * index := by
    have four : (4 : UInt32).toNat = 4 := rfl
    rw [UInt32.toNat_add, UInt32.toNat_mul, UInt32.toNat_ofNat', four]
    omega
  have base : image.base ≤ addr + 4 * ofNat index := by
    rw [le_iff_toNat_le] at lower ⊢
    omega
  have offset : (addr + 4 * ofNat index - image.base).toNat =
      (addr - image.base).toNat + 4 * index := by
    rw [UInt32.toNat_sub_of_le _ _ base, UInt32.toNat_sub_of_le _ _ lower, place]
    have := le_iff_toNat_le.mp lower
    omega
  have contained : image.contains (addr + 4 * ofNat index) 4 := by
    simp only [contains, Bool.and_eq_true, decide_eq_true_eq]
    exact ⟨base, by omega⟩
  simp [memory, readWord, contained, offset, words]

end Image

def Guest.Decodes (word : Word) : Prop :=
  ∃ operation, Operation.decode word = .ok operation

namespace Stream

/-- A piece that is the fragment of a word, bound to registers and placed at its address. -/
def Piece.Renders (memory : Memory) (inlines : Bool) (start stop : Address) (word : Word)
    (piece : Piece) : Prop :=
  ∃ operation lowered slots, Guest.Operation.decode word = .ok operation ∧
    lower memory inlines ⟨piece.address, start, stop⟩ word operation = .ok lowered ∧
    piece.fragment = (Instruction.bindAll slots lowered.fragment).1.map (placeAt piece.address)

theorem decodes_of_renders {start stop}
    (renders : List.Forall₂ (Piece.Renders memory inlines start stop) words list) :
    ∀ word ∈ words, Guest.Decodes word := by
  induction renders with
  | nil => exact forall_mem_nil _
  | cons first _ ih =>
    obtain ⟨operation, _, _, decoded, -⟩ := first
    exact forall_mem_cons.mpr ⟨⟨operation, decoded⟩, ih⟩

section

variable {memory : Memory} {stop : Address} {words : List Word} {count : Nat}
  (sized : words.length = count)
  (reads : ∀ (index : Nat) word, words[index]? = some word →
    memory.read (addr + 4 * ofNat index) = .word word)

include sized reads

theorem renders_of_pieces
    (done : pieces memory inlines start stop isEntry count addr progress = .ok (list, final)) :
    List.Forall₂ (Piece.Renders memory inlines start stop) words list := by
  subst sized
  induction words generalizing addr progress list with
  | nil =>
    cases done
    exact .nil
  | cons word words ih =>
    obtain ⟨⟨fetched, operation⟩, fetch, done⟩ := of_bind_eq_ok done
    obtain ⟨lowered, lowering, done⟩ := of_bind_eq_ok done
    obtain ⟨⟨rest, last⟩, more, done⟩ := of_bind_eq_ok done
    cases done
    have read : memory.read addr = .word word := by simpa using reads 0 word rfl
    obtain ⟨fetchedRead, decoded⟩ := of_fetch fetch
    rw [read] at fetchedRead
    cases fetchedRead
    refine .cons ⟨operation, lowered, _, decoded, lowering, rfl⟩ ?_
    refine ih (fun index other found => ?_) more
    rw [← address_succ]
    exact reads (index + 1) other found

/-- If there are no pieces, some word is not decoded, and the first such word is reported. -/
theorem refusal_of_pieces (steady : ∀ addr text, memory.read addr ≠ .crashed text)
    (failed : pieces memory inlines start stop isEntry count addr progress = .error interruption) :
    ∃ front word back refusal, words = front ++ word :: back ∧
      (∀ earlier ∈ front, Guest.Decodes earlier) ∧ Guest.Operation.decode word = .error refusal ∧
      interruption = .fault (.unsupported (addr + 4 * ofNat front.length) word
        refusal.message) := by
  subst sized
  induction words generalizing addr progress with
  | nil => cases failed
  | cons word words ih =>
    have read : memory.read addr = .word word := by simpa using reads 0 word rfl
    cases decoded : Guest.Operation.decode word with
    | error refusal =>
      refine ⟨[], word, words, refusal, rfl, forall_mem_nil _, decoded, ?_⟩
      have refused : fetch memory addr =
          .error (.fault (.unsupported addr word refusal.message)) := by
        simp [fetch, read, decoded]
      rw [length_cons, pieces, refused] at failed
      cases failed
      simp
    | ok operation =>
      have fetched : fetch memory addr = .ok (word, operation) := by
        simp [fetch, read, decoded]
      rw [length_cons, pieces, bind_eq_of_eq_ok fetched] at failed
      rcases of_bind_eq_error failed with failed | ⟨lowered, -, failed⟩
      · obtain ⟨_, _, crashed, -⟩ := crashes_of_lower failed
        exact absurd crashed (steady _ _)
      · rcases of_bind_eq_error failed with failed | ⟨_, -, failed⟩
        · obtain ⟨front, failing, back, refusal, rfl, others, refused, rfl⟩ :=
            ih (fun index other found => by
              rw [← address_succ]
              exact reads (index + 1) other found) failed
          refine ⟨word :: front, failing, back, refusal, rfl,
            forall_mem_cons.mpr ⟨⟨operation, decoded⟩, others⟩, refused, ?_⟩
          rw [length_cons, address_succ]
        · cases failed

end

theorem Piece.filter_code {piece : Piece} {start stop}
    (formed : Guest.Formed ⟨piece.address, start, stop⟩ piece.fragment)
    (placed : ∀ instr ∈ piece.fragment, instr.address = piece.address)
    (targets : List Address) : (piece.code targets).filter (!·.isPlaceholder) = piece.fragment := by
  have fragment : piece.fragment.filter (!·.isPlaceholder) = piece.fragment := by
    refine filter_eq_self.mpr fun instr mem => ?_
    simp [(formed.isGuest placed instr mem).inside]
  rw [code, filter_append, filter_append, fragment]
  split <;> split <;> rfl

theorem filter_closing (targets : List Address) (stop : Address) (code : Code) :
    (closing targets stop code).filter (!·.isPlaceholder) = [] ∨
      (closing targets stop code).filter (!·.isPlaceholder) = [.ofRoutine .far stop stop] := by
  unfold closing
  split
  · exact .inr rfl
  · split
    · exact .inl rfl
    · exact .inr rfl

theorem count_of_below {entry : Address} {count} (positive : 1 ≤ count)
    (below : entry.toNat + 4 * count < 2 ^ 32) :
    (if entry < entry + ofInt count * 4 then
      (entry + UInt32.ofInt count * 4 - entry).toNat / 4 else 0) = count := by
  have size : (ofInt count * 4).toNat = 4 * count := by
    have four : (4 : UInt32).toNat = 4 := rfl
    rw [UInt32.toNat_mul, UInt32.ofInt, UInt32.toNat_ofNat', four]
    omega
  have stop : (entry + ofInt count * 4).toNat = entry.toNat + 4 * count := by
    rw [UInt32.toNat_add, size]
    omega
  have ahead : entry < entry + ofInt count * 4 := by
    rw [lt_iff_toNat_lt, stop]
    omega
  rw [if_pos ahead, UInt32.toNat_sub_of_le _ _ (UInt32.le_of_lt ahead), stop]
  omega

theorem extent_of_count (memory : Memory) {options : Options} {count : Nat}
    (count_eq : options.count = count) (positive : 1 ≤ count) :
    extent memory options = .ok (ofInt count * 4) := by
  rw [extent, count_eq, if_pos (Int.natCast_pos.mpr positive)]
  rfl

section

variable {memory : Memory} {options : Options} {words : List Word} {count : Nat}
  (count_eq : options.count = count) (positive : 1 ≤ count)
  (below : options.entry.toNat + 4 * count < 2 ^ 32) (sized : words.length = count)
  (reads : ∀ (index : Nat) word, words[index]? = some word →
    memory.read (options.entry + 4 * ofNat index) = .word word)
  (steady : ∀ addr text, memory.read addr ≠ .crashed text)

include count_eq positive below sized reads steady

/-- Where generation fails, the first word that is not decoded is reported. -/
theorem refusal_of_generate (failed : generate memory options = .error interruption) :
    ∃ front word back refusal, words = front ++ word :: back ∧
      (∀ earlier ∈ front, Guest.Decodes earlier) ∧ Guest.Operation.decode word = .error refusal ∧
      interruption = .fault (.unsupported (options.entry + 4 * ofNat front.length) word
        refusal.message) := by
  rw [generate, bind_eq_of_eq_ok (extent_of_count _ count_eq positive)] at failed
  rcases of_bind_eq_error failed with failed | ⟨⟨list, final⟩, done, failed⟩
  · rw [count_of_below positive below] at failed
    exact refusal_of_pieces sized reads steady failed
  · dsimp only at failed
    rw [if_neg (Nat.not_lt.mpr (Nat.le_trans (length_slots_of_pieces done) (by decide)))] at failed
    cases failed

/-- Words that are all decoded give a stream. -/
theorem exists_generate (all : ∀ word ∈ words, Guest.Decodes word) :
    ∃ stream, generate memory options = .ok stream := by
  cases outcome : generate memory options with
  | ok stream => exact ⟨stream, rfl⟩
  | error interruption =>
    obtain ⟨front, word, back, refusal, rfl, -, refused, -⟩ :=
      refusal_of_generate count_eq positive below sized reads steady outcome
    obtain ⟨operation, decoded⟩ := all word (mem_append_right _ mem_cons_self)
    rw [refused] at decoded
    cases decoded

end

section

variable {image : Image} {options : Options} {count : Nat} (count_eq : options.count = count)
  (positive : 1 ≤ count) (inside : image.contains options.entry (4 * count))
  (below : options.entry.toNat + 4 * count < 2 ^ 32)

include count_eq positive inside below

/-- A stream consists of the fragments of all words of its range, in order. -/
theorem exists_fragments {stream : Stream} (done : generate image.memory options = .ok stream) :
    ∃ list closing, (closing = [] ∨ closing = [.ofRoutine .far stream.stop stream.stop]) ∧
      stream.instructions.filter (!·.isPlaceholder) = list.flatMap Piece.fragment ++ closing ∧
      List.Forall₂ (Piece.Renders image.memory options.inlines options.entry stream.stop)
        (image.words options.entry count) list ∧
      ∀ (index : Nat) piece, list[index]? = some piece → piece.fragment ≠ [] ∧
        piece.address.toNat = options.entry.toNat + 4 * index := by
  rw [generate, bind_eq_of_eq_ok (extent_of_count _ count_eq positive)] at done
  obtain ⟨⟨list, final⟩, pieced, done⟩ := of_bind_eq_ok done
  rw [count_of_below positive below] at pieced
  obtain ⟨length, fits, -, chain, head⟩ := pieces_spec pieced
  have renders := renders_of_pieces (by simp [Image.words])
    (fun _ _ => Image.read_of_words inside below) pieced
  dsimp only at done
  split at done
  · cases done
  · cases done
    refine ⟨list, _, filter_closing (list.flatMap Piece.targets) _
      (list.flatMap (Piece.code (list.flatMap Piece.targets))), ?_, renders,
      fun index piece found => ?_⟩
    · rw [filter_append, filter_flatMap]
      congr 1
      exact flatMap_congr fun piece mem =>
        Piece.filter_code (fits piece mem).formed (fits piece mem).placed _
    · refine ⟨(fits piece (mem_of_getElem? found)).formed.ne_nil, ?_⟩
      exact address_of_chain chain (fun piece first => (head piece first).1) (by omega) found

end

/-- A range that ends below the end of the address space is generated if and only if each of its
words is decoded.  Then the stream holds one fragment for each word, in order; else the first
word that is not decoded is reported. -/
theorem generation_is_complete
    (image : Image)
    (options : Options)
    {count : Nat}
    (count_eq : options.count = count)
    (positive : 1 ≤ count)
    (inside : image.contains options.entry (4 * count) = true)
    (below : options.entry.toNat + 4 * count < 2 ^ 32) :
    ((∃ stream, generate image.memory options = .ok stream) ↔
      ∀ word ∈ image.words options.entry count, Guest.Decodes word) ∧
    (∀ stream, generate image.memory options = .ok stream →
      ∃ list closing, (closing = [] ∨ closing = [.ofRoutine .far stream.stop stream.stop]) ∧
        stream.instructions.filter (!·.isPlaceholder) = list.flatMap Piece.fragment ++ closing ∧
        List.Forall₂ (Piece.Renders image.memory options.inlines options.entry stream.stop)
          (image.words options.entry count) list ∧
        ∀ (index : Nat) piece, list[index]? = some piece → piece.fragment ≠ [] ∧
          piece.address.toNat = options.entry.toNat + 4 * index) ∧
    ∀ interruption, generate image.memory options = .error interruption →
      ∃ front word back refusal, image.words options.entry count = front ++ word :: back ∧
        (∀ earlier ∈ front, Guest.Decodes earlier) ∧
        Guest.Operation.decode word = .error refusal ∧
        interruption = .fault (.unsupported (options.entry + 4 * UInt32.ofNat front.length) word
          refusal.message) := by
  have sized : (image.words options.entry count).length = count := by simp [Image.words]
  have reads : ∀ (index : Nat) word, (image.words options.entry count)[index]? = some word →
      image.memory.read (options.entry + 4 * UInt32.ofNat index) = .word word :=
    fun _ _ => Image.read_of_words inside below
  refine ⟨⟨?_, exists_generate count_eq positive below sized reads image.read_ne_crashed⟩,
    fun _ => exists_fragments count_eq positive inside below,
    fun _ => refusal_of_generate count_eq positive below sized reads image.read_ne_crashed⟩
  rintro ⟨stream, done⟩ word member
  obtain ⟨list, -, -, -, renders, -⟩ := exists_fragments count_eq positive inside below done
  exact decodes_of_renders renders word member

/-- The last words of the address space: two sums, a return, and a word that is not decoded. -/
def topmost : Image where
  base := 0xFFFFFFF0
  data := #[0x38, 0x63, 0, 1, 0x7C, 0x84, 0x1A, 0x14, 0x4E, 0x80, 0, 0x20, 0x44, 0, 0, 2]

theorem topmost_is_complete :
    (3 : Int) = (3 : Nat) ∧ topmost.contains 0xFFFFFFF0 (4 * 3) = true ∧
      (0xFFFFFFF0 : Address).toNat + 4 * 3 < 2 ^ 32 ∧
      ∃ stream list closing,
        generate topmost.memory { entry := 0xFFFFFFF0, count := 3 } = .ok stream ∧
        stream.instructions.filter (!·.isPlaceholder) = list.flatMap Piece.fragment ++ closing ∧
        List.Forall₂ (Piece.Renders topmost.memory false 0xFFFFFFF0 stream.stop)
          [0x38630001, 0x7C841A14, 0x4E800020] list := by
  have known : topmost.words 0xFFFFFFF0 3 = [0x38630001, 0x7C841A14, 0x4E800020] := by
    decide +kernel
  obtain ⟨complete, fragments, -⟩ := generation_is_complete topmost
    { entry := 0xFFFFFFF0, count := 3 } rfl (by decide) (by decide) (by decide)
  rw [known] at complete fragments
  obtain ⟨stream, generated⟩ := complete.mpr (List.forall_mem_cons.mpr
    ⟨⟨.addImmediate false, by decide +kernel⟩, List.forall_mem_cons.mpr
      ⟨⟨.arithmetic .add false, by decide +kernel⟩, List.forall_mem_singleton.mpr
        ⟨.branchToLink, by decide +kernel⟩⟩⟩)
  obtain ⟨list, closing, -, code_eq, renders, -⟩ := fragments stream generated
  exact ⟨rfl, by decide, by decide, stream, list, closing, generated, code_eq, renders⟩

/-- The word at the end of the address space is not decoded, yet the range that holds it alone
is generated, without it. -/
theorem topmost_is_dropped :
    topmost.contains 0xFFFFFFFC (4 * 1) = true ∧
      (0xFFFFFFFC : Address).toNat + 4 * 1 = 2 ^ 32 ∧
      topmost.words 0xFFFFFFFC 1 = [0x44000002] ∧
      Guest.Operation.decode 0x44000002 = .error (.primary 17) ∧
      (generate topmost.memory { entry := 0xFFFFFFFC, count := 1 }).toOption.map
        Stream.instructions = some [.ofRoutine .far 0 0] := by
  decide +kernel

end Stream
end Dynarec
