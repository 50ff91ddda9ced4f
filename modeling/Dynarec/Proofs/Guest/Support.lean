import Dynarec.Proofs.Compiler.Classification

/-!
# Supported words

A word counts as supported if the tables have an operation for it.  It is decoded
only if its fields fit its opcode as well.  So support is necessary for decoding,
and the words that it promises too much of are those whose fields are refused.
-/

namespace Dynarec

open Guest Operation

namespace Word

/-- The refusal of words for which a requirement does not hold. -/
def require (holds : Bool) (refusal : Refusal) : Option Refusal :=
  if holds then none else some refusal

/-- Why the fields of a word do not fit a primary opcode. -/
def misfitPrimary (word : Word) : Nat → Option Refusal
  | 16 => require (word.ignoresCondition || word.ignoresCount) .countedCondition
  | 33 | 35 | 41 | 43 => require (word.a ≠ 0 && word.a ≠ word.d) .invalidUpdate
  | 37 | 39 | 45 => require (word.a ≠ 0) .invalidUpdate
  | 46 => require (word.a < word.d) .overwrittenBase
  | _ => none

/-- Why the fields of a word do not fit an extended opcode of primary opcode 19. -/
def misfit19 (word : Word) : Nat → Option Refusal
  | 16 | 528 => require word.ignoresCount .countedRegisterBranch
  | _ => none

/-- Why the fields of a word do not fit an extended opcode of primary opcode 31. -/
def misfit31 (word : Word) : Nat → Option Refusal
  | 4 => require (word.d = 31) .conditionalTrap
  | 26 | 200 | 202 | 232 | 234 | 922 | 954 => require (word.b = 0) .reservedOperand
  | 55 | 119 | 311 | 375 => require (word.a ≠ 0 && word.a ≠ word.d) .invalidUpdate
  | 183 | 247 | 439 => require (word.a ≠ 0) .invalidUpdate
  | 339 => require (isMovable word.special) .unreadableSpecial
  | 467 => require (isMovable word.special) .unwritableSpecial
  | _ => none

/-- Why the fields of a word do not fit its opcode. -/
def misfit? (word : Word) : Option Refusal :=
  if word.primary = 19 then word.misfit19 word.extended
  else if word.primary = 31 then word.misfit31 word.extended
  else word.misfitPrimary word.primary

end Word

namespace Guest

/-- A table whose operations refuse exactly the words that do not fit, and that has all opcodes
which words may fail to fit. -/
structure Covers (table : List (Nat × Operation)) (misfit : Nat → Option Refusal) (word : Word) :
    Prop where
  refusals : table.map (fun entry => entry.2.refusal? word) = table.map fun entry => misfit entry.1
  knows : ∀ {opcode}, misfit opcode ≠ none → (table.lookup opcode).isSome

namespace Covers

theorem primary (word : Word) : Covers primaryTable word.misfitPrimary word where
  refusals := rfl
  knows {opcode} misfits := by
    unfold Word.misfitPrimary at misfits
    split at misfits <;> first | rfl | exact absurd rfl misfits

theorem group19 (word : Word) : Covers group19 word.misfit19 word where
  refusals := rfl
  knows {opcode} misfits := by
    unfold Word.misfit19 at misfits
    split at misfits <;> first | rfl | exact absurd rfl misfits

theorem group31 (word : Word) : Covers group31 word.misfit31 word where
  refusals := rfl
  knows {opcode} misfits := by
    unfold Word.misfit31 at misfits
    split at misfits <;> first | rfl | exact absurd rfl misfits

/-- An opcode of the table has an operation that refuses what does not fit; any other opcode fits
whatever the fields are. -/
theorem known_or_unknown (covers : Covers table misfit word) {outcome : Except Refusal Operation}
    (found : ∀ operation, table.lookup opcode = some operation → outcome = .ok operation)
    (missing : table.lookup opcode = none → ∃ unknown, outcome = .error unknown) :
    (∃ operation, outcome = .ok operation ∧ operation.refusal? word = misfit opcode) ∨
      (∃ unknown, outcome = .error unknown) ∧ misfit opcode = none := by
  cases entry : table.lookup opcode with
  | none =>
    refine .inr ⟨missing entry, ?_⟩
    by_contra misfits
    have known := covers.knows misfits
    rw [entry] at known
    cases known
  | some operation =>
    obtain ⟨front, back, table_eq, -⟩ := List.lookup_eq_some_iff.mp entry
    refine .inl ⟨operation, found operation entry, ?_⟩
    exact List.map_inj_left.mp covers.refusals (opcode, operation) (by simp [table_eq])

end Covers

theorem known_or_unknown (word : Word) :
    (∃ operation, ofWord word = .ok operation ∧ operation.refusal? word = word.misfit?) ∨
      (∃ unknown, ofWord word = .error unknown) ∧ word.misfit? = none := by
  unfold Word.misfit?
  split
  next nineteen =>
    simp only [ofWord, nineteen]
    exact (Covers.group19 word).known_or_unknown (fun _ found => by rw [found])
      fun missing => ⟨_, by rw [missing]⟩
  · split
    next thirtyOne =>
      simp only [ofWord, thirtyOne]
      exact (Covers.group31 word).known_or_unknown (fun _ found => by rw [found])
        fun missing => ⟨_, by rw [missing]⟩
    · simp only [ofWord]
      exact (Covers.primary word).known_or_unknown (fun _ found => by rw [found])
        fun missing => ⟨_, by rw [missing]⟩

/-- What support says of a word and what comes of decoding it. -/
theorem supports_and_decode_cases (word : Word) :
    (supports word ∧ word.misfit? = none ∧ ∃ operation, decode word = .ok operation) ∨
    (supports word ∧ ∃ refusal, word.misfit? = some refusal ∧ decode word = .error refusal) ∨
    (supports word = false ∧ word.misfit? = none ∧ ∃ unknown, decode word = .error unknown) := by
  rcases known_or_unknown word with ⟨operation, known, refusal_eq⟩ | ⟨⟨unknown, failed⟩, fits⟩
  · have supported : supports word = true := by rw [supports, known]; rfl
    rw [decode_eq known, refusal_eq]
    cases misfit : word.misfit? with
    | none => exact .inl ⟨supported, rfl, operation, rfl⟩
    | some refusal => exact .inr (.inl ⟨supported, refusal, rfl, rfl⟩)
  · have unsupported : supports word = false := by rw [supports, failed]; rfl
    exact .inr (.inr ⟨unsupported, fits, unknown, by rw [decode, failed]; rfl⟩)

/-- A word is decoded if and only if it is supported and its fields fit its opcode.  A word that
does not fit is supported all the same, and refused for the reason that it does not fit.  Nothing
else about the place of a word keeps it from being decoded. -/
theorem supports_unless_misfit
    (word : Word) :
    ((∃ operation, decode word = .ok operation) ↔ supports word = true ∧ word.misfit? = none) ∧
    (∀ refusal, word.misfit? = some refusal →
      supports word = true ∧ decode word = .error refusal) ∧
    ∀ memory inlines site operation fault, decode word = .ok operation →
      Stream.lower memory inlines site word operation ≠ .error (.fault fault) := by
  refine ⟨?_, ?_, fun _ _ _ _ _ _ failed => ?_⟩
  · rcases supports_and_decode_cases word with ⟨supported, fits, decoded⟩ |
      ⟨-, refusal, misfit, refused⟩ | ⟨unsupported, -, unknown, refused⟩
    · exact iff_of_true decoded ⟨supported, fits⟩
    · simp [misfit, refused]
    · simp [unsupported, refused]
  · rcases supports_and_decode_cases word with
      ⟨-, fits, -⟩ | ⟨supported, refusal, misfit, refused⟩ | ⟨-, fits, -⟩
    · simp [fits]
    · simp [misfit, supported, refused]
    · simp [fits]
  · obtain ⟨_, _, -, crash⟩ := Stream.crashes_of_lower failed
    cases crash

/-- A trap that depends on a comparison is supported, but it is not decoded. -/
theorem conditionalTrap_is_supported :
    supports 0x7C000008 = true ∧ decode 0x7C000008 = .error .conditionalTrap := by
  exact ⟨rfl, rfl⟩

end Guest
end Dynarec
