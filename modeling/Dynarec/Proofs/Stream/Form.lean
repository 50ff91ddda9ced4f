import Dynarec.Proofs.Compiler.Classification

/-!
# The form of streams

Every word that is decoded has a fragment of one of few forms, and every stream
that is generated has a table in which its registers stand for the slots that its
words name.  Guest code has so few slots that a table is never too long.
-/

namespace Dynarec

open List

namespace Guest

theorem Formed.target {ρ : Type} {fragment : List (Instruction ρ)} (formed : Formed site fragment) :
    ∀ jump ∈ fragment, jump.kind = .jump →
      site.inRange jump.target ∨ jump.target = site.address + 4 := by
  obtain ⟨⟨front, ending, rfl, plain, ends⟩, -⟩ := formed
  have exitKind {exit : Instruction ρ} (isExit : exit.isExit) : exit.kind ≠ .jump := by
    simp only [Instruction.isExit, Bool.and_eq_true, decide_eq_true_eq] at isExit
    simp [isExit.1]
  refine forall_mem_append.mpr ⟨fun jump mem isJump => ?_, ?_⟩
  · have isPlain := plain jump mem
    simp [Instruction.isPlain, isJump] at isPlain
  · cases ends with
    | falls => exact forall_mem_nil _
    | jumps _ _ near => exact forall_mem_singleton.mpr fun _ => .inl near
    | exits isExit => exact forall_mem_singleton.mpr fun isJump => absurd isJump (exitKind isExit)
    | skips _ _ _ target_eq isExit =>
      exact forall_mem_cons.mpr ⟨fun _ => .inr target_eq,
        forall_mem_singleton.mpr fun isJump => absurd isJump (exitKind isExit)⟩

end Guest

namespace Stream

theorem head?_tooMany (count : Nat) :
    (s!"function needs {count} virtual registers").toList.head? = some 'f' := by
  change ("function needs " ++ toString count ++ " virtual registers").toList.head? = some 'f'
  simp

theorem head?_message (refusal : Guest.Refusal) : refusal.message.toList.head? ≠ some 'f' := by
  have plain text : toString text = text := rfl
  cases refusal <;> simp [Guest.Refusal.message, plain]

theorem generate_ne_tooMany (memory : Memory) (options : Options) (count : Nat) :
    generate memory options ≠ .error (.fault (.unsupported options.entry 0
      s!"function needs {count} virtual registers")) := by
  intro failed
  have first := head?_tooMany count
  generalize s!"function needs {count} virtual registers" = text at failed first
  rcases generate_error_cases failed with ⟨_, _, -, crashed⟩ | ⟨addr, failed⟩ | none
  · cases crashed
  · unfold fetch at failed
    split at failed
    · cases failed
    · cases failed
    · split at failed
      next refusal refused =>
        cases failed
        exact head?_message refusal first
      · cases failed
  · cases none
    simp at first

/-- The fragment of a word is not empty: plain instructions, then nothing, or a jump or an exit, or
a conditional jump behind the word and an exit.  Jumps lead to a word of the function or behind
their own word.  The table of a stream has distinct slots, 43 at most, so no function needs too many
registers.  Every instruction of the stream that has operands belongs to a word: its operands are
missing where those of the fragment are, and else the places of the slots that the word names. -/
theorem streams_are_well_formed
    (memory : Memory) :
    (∀ inlines site word operation lowered, Guest.Operation.decode word = .ok operation →
      lower memory inlines site word operation = .ok lowered →
      Guest.Formed site lowered.fragment ∧
      ∀ jump ∈ lowered.fragment, jump.kind = .jump →
        site.inRange jump.target = true ∨ jump.target = site.address + 4) ∧
    (∀ options (count : Nat), generate memory options ≠ .error (.fault (.unsupported
      options.entry 0 s!"function needs {count} virtual registers"))) ∧
    ∀ options stream, generate memory options = .ok stream →
      stream.slots.Nodup ∧
      stream.slots.length ≤ 43 ∧
      ∀ instr ∈ stream.instructions,
        instr.operands = [] ∨
        ∃ address word operation lowered orig,
          memory.read address = .word word ∧
          Guest.Operation.decode word = .ok operation ∧
          lower memory options.inlines ⟨address, options.entry, options.entry + stream.size⟩ word
            operation = .ok lowered ∧
          orig ∈ lowered.fragment ∧
          instr = placeAt address (orig.mapRegisters (registerIn stream.slots)) ∧
          ∀ slot ∈ orig.operands, slot ∈ Guest.slots ∧ ∃ index : Nat,
            registerIn stream.slots slot = some (index : Int) ∧
            stream.slots[index]? = some slot := by
  refine ⟨fun inlines site word operation lowered decoded done => ?_, generate_ne_tooMany memory,
    fun options stream generated => ?_⟩
  · have formed := (fits_of_lower decoded done).formed
    exact ⟨formed, formed.target⟩
  · obtain ⟨nodup, guest, bound⟩ := bound_of_generate generated
    refine ⟨nodup, (nodup.subperm guest).length_le, fun instr mem => ?_⟩
    refine (bound instr mem).imp_right ?_
    rintro ⟨piece, here, word, operation, lowered, read, decoded, done, listed, fragment_eq⟩
    rw [fragment_eq] at here
    obtain ⟨orig, there, rfl⟩ := mem_map.mp here
    refine ⟨piece.address, word, operation, lowered, orig, read, decoded, done, there, rfl, ?_⟩
    intro slot named
    obtain ⟨register, place⟩ := exists_registerIn (listed orig there slot named)
    obtain ⟨index, rfl⟩ := Int.eq_ofNat_of_zero_le (getElem?_of_registerIn place).1
    exact ⟨guest (listed orig there slot named), index, place,
      (getElem?_of_registerIn place).2.2⟩

/-- Memory with a sum and conditional returns. -/
def summing : Memory where
  read address := if address = 0x1000 then .word 0x7C642A14 else .word 0x4C820020
  slice _ _ := .ok []

/-- The sum names three slots, and the return is skipped by a jump behind it. -/
theorem summing_is_well_formed :
    ∃ stream, generate summing { entry := 0x1000, count := 2 } = .ok stream ∧
      stream.slots = [.gpr 3, .gpr 4, .gpr 5] ∧ stream.slots.Nodup ∧ stream.slots.length ≤ 43 ∧
      Guest.Formed ⟨0x1004, 0x1000, 0x1008⟩
        ([.jumpIf 0x1008 { field := 0, bit := 2, isSet := true },
          .ofRoutine .toLink 0x1004 0] : Guest.Fragment) := by
  obtain ⟨formed, -, wellFormed⟩ := streams_are_well_formed summing
  have evaluated : ((generate summing { entry := 0x1000, count := 2 }).toOption.any
      fun stream => stream.slots = [.gpr 3, .gpr 4, .gpr 5]) = true := by
    decide +kernel
  obtain ⟨stream, generated, slots_eq⟩ := of_any_toOption evaluated
  obtain ⟨nodup, few, -⟩ := wellFormed _ stream generated
  exact ⟨stream, generated, by simpa using slots_eq, nodup, few,
    (formed false ⟨0x1004, 0x1000, 0x1008⟩ 0x4C820020 .branchToLink _ rfl rfl).1⟩

end Stream
end Dynarec
