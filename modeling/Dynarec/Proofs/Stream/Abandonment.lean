import Dynarec.Proofs.Stream.Determinacy

/-!
# Abandoned attempts

A call is decoded in place before it is known whether all words of the callee can
be decoded.  An attempt that is abandoned leaves its slots in the table, and with
them the numbers of the registers that come later; it leaves nothing else.
-/

namespace Dynarec

open Instruction List

/-- The register that stands for the same slot in another table. -/
def renumber (table other : List Slot) (reg : Register) : Option Register :=
  table[reg.toNat]?.bind (registerIn other)

theorem bind_renumber {slot} (listed : slot ∈ table) :
    (registerIn table slot).bind (renumber table other) = registerIn other slot := by
  obtain ⟨reg, bound⟩ := exists_registerIn listed
  rw [bound, Option.bind_some, renumber, (getElem?_of_registerIn bound).2.2, Option.bind_some]

theorem Instruction.mapRegisters_renumber {instr : Instruction Slot}
    (listed : ∀ slot ∈ instr.operands, slot ∈ table) :
    (instr.mapRegisters (registerIn table)).mapRegisters (renumber table other) =
      instr.mapRegisters (registerIn other) := by
  have same {operand : Option Slot} (named : ∀ slot ∈ operand, slot ∈ instr.operands) :
      (operand.bind (registerIn table)).bind (renumber table other) =
        operand.bind (registerIn other) := by
    cases operand with
    | none => rfl
    | some slot => exact bind_renumber (listed slot (named slot rfl))
  unfold mapRegisters
  simp only [mk.injEq, true_and, and_true]
  refine ⟨same ?_, same ?_, same ?_, same ?_⟩ <;>
  · intro slot found
    simp [operands, Option.mem_def.mp found]

namespace Stream

/-- A piece whose registers are numbered in another way. -/
def Piece.renamed (rename : Register → Option Register) (piece : Piece) : Piece :=
  { piece with fragment := piece.fragment.map (·.mapRegisters rename) }

theorem mapRegisters_placeAt (addr : Address) (instr : Instruction Register) :
    (placeAt addr instr).mapRegisters rename = placeAt addr (instr.mapRegisters rename) := by
  unfold placeAt
  by_cases unplaced : instr.address = 0
  · rw [if_pos unplaced, if_pos (show (instr.mapRegisters rename).address = 0 from unplaced)]
    rfl
  · rw [if_neg unplaced, if_neg (show (instr.mapRegisters rename).address ≠ 0 from unplaced)]

/-! ## Streams of renamed pieces -/

@[simp] theorem Piece.targets_renamed (piece : Piece) :
    (piece.renamed rename).targets = piece.targets := by
  simp only [targets, renamed, filter_map, map_map]
  rfl

@[simp] theorem Piece.code_renamed (targets : List Address) (piece : Piece) :
    (piece.renamed rename).code targets = (piece.code targets).map (·.mapRegisters rename) := by
  simp only [code, renamed, map_append, apply_ite (List.map _), map_cons, map_nil]
  rfl

theorem closing_map (targets : List Address) (stop : Address) (code : Code) :
    closing targets stop (code.map (·.mapRegisters rename)) =
      (closing targets stop code).map (·.mapRegisters rename) := by
  have ends : endsFlow (code.map (·.mapRegisters rename)) = endsFlow code := by
    unfold endsFlow
    rw [getLast?_map]
    cases code.getLast? <;> rfl
  unfold closing
  rw [ends]
  split
  · rfl
  · split <;> rfl

/-! ## Attempts that are abandoned -/

/-- No attempt to decode a callee is given up once words of it were decoded. -/
def DecodesCallees (memory : Memory) : Prop :=
  ∀ {site target partway}, Guest.Inlining.attempt memory site target = .ok (.declined partway) →
    partway = []

theorem lower_without_callees (done : lower memory true site word operation = .ok lowered)
    (stays : lowered.callee = none) :
    lower memory false site word operation = .ok { lowered with abandoned := [] } ∧
      (DecodesCallees memory → lowered.abandoned = []) := by
  unfold lower at done ⊢
  dsimp only at done ⊢
  split at done
  · obtain ⟨inlining, attempted, done⟩ := of_bind_eq_ok done
    cases inlining with
    | declined partway =>
      cases done
      exact ⟨rfl, fun decodes => decodes attempted⟩
    | inlined fragment range =>
      cases done
      cases stays
  · cases done
    exact ⟨rfl, fun _ => rfl⟩

section

variable {stop : Address} {count : Nat}

theorem prefix_of_pieces
    (done : pieces memory inlines start stop isEntry count addr progress = .ok (list, final)) :
    progress.slots <+: final.slots := by
  obtain ⟨⟨named, -, final_eq⟩, -⟩ := bound_of_pieces done
  exact final_eq ▸ prefix_foldl_extend _ _

/-- Words of which none is replaced by a callee give the pieces that they give without callees, in
registers that are numbered in another way. -/
theorem pieces_without_callees
    (done : pieces memory true start stop isEntry count addr progress = .ok (list, final))
    (alone : final.callees = progress.callees) (other : Progress)
    (branchRun_eq : other.branchRun = progress.branchRun)
    (returned_eq : other.returned = progress.returned) (subset : other.slots ⊆ progress.slots) :
    ∃ plain last, pieces memory false start stop isEntry count addr other = .ok (plain, last) ∧
      last.callees = other.callees ∧ last.slots ⊆ final.slots ∧
      list = plain.map (Piece.renamed (renumber last.slots final.slots)) ∧
      (DecodesCallees memory → other = progress → plain = list ∧ last = final) := by
  induction count generalizing addr progress other list with
  | zero =>
    cases done
    exact ⟨[], other, rfl, rfl, subset, rfl, fun _ same => ⟨rfl, same⟩⟩
  | succ count ih =>
    obtain ⟨⟨word, operation⟩, fetched, done⟩ := of_bind_eq_ok done
    obtain ⟨lowered, loweredDone, done⟩ := of_bind_eq_ok done
    obtain ⟨⟨rest, final⟩, more, done⟩ := of_bind_eq_ok done
    cases done
    obtain ⟨new, callees_eq, -⟩ := (pieces_spec more).2.2.1
    have stays : lowered.callee = none := by
      rw [alone] at callees_eq
      exact (show lowered.callee = none ∧ new = [] by simpa using callees_eq).1
    obtain ⟨plainDone, decoded⟩ := lower_without_callees loweredDone stays
    have grows : (bindAll other.slots lowered.fragment).2 ⊆
        (bindAll (bindAll progress.slots lowered.abandoned).2 lowered.fragment).2 := by
      intro slot listed
      simp only [bindAll_snd, mem_foldl_extend_iff] at listed ⊢
      exact listed.imp_left fun before => .inl (subset before)
    let next : Progress :=
      { slots := (bindAll other.slots lowered.fragment).2
        callees := other.callees ++ lowered.callee.toList
        branchRun := if word.isPlainBranch then other.branchRun + 1 else 0
        returned := lowered.returns }
    obtain ⟨plain, last, plainMore, lastCallees, lastSlots, rest_eq, same⟩ := ih more
      (by rw [alone, stays]; simp) next (by simp only [next, branchRun_eq]) rfl grows
    let piece : Piece :=
      { address := addr
        fragment := (bindAll other.slots lowered.fragment).1.map (placeAt addr)
        enters := isEntry addr || other.returned || 2 ≤ other.branchRun }
    refine ⟨piece :: plain, last, ?_, ?_, lastSlots, ?_, fun decodes equal => ?_⟩
    · refine (bind_eq_of_eq_ok fetched _).trans ((bind_eq_of_eq_ok plainDone _).trans ?_)
      exact bind_eq_of_eq_ok plainMore _
    · refine lastCallees.trans ?_
      simp [next, stays]
    · have bound {slots table} (continues : (bindAll slots lowered.fragment).2 <+: table) :
          (bindAll slots lowered.fragment).1.map (placeAt addr) = lowered.fragment.map fun instr =>
              placeAt addr (instr.mapRegisters (registerIn table)) :=
        (congrArg (List.map _) (bindAll_fst continues)).trans map_map
      have plainPrefix := prefix_of_pieces plainMore
      rw [map_cons, ← rest_eq]
      simp only [Piece.renamed, piece, bound (prefix_of_pieces more), bound plainPrefix, map_map,
        returned_eq, branchRun_eq, List.cons.injEq, Piece.mk.injEq, true_and, and_true]
      refine map_congr_left fun instr mem => ?_
      rw [Function.comp_apply, mapRegisters_placeAt, mapRegisters_renumber]
      exact fun slot named => plainPrefix.subset (mem_bindAll mem named)
    · subst equal
      have nothing := decoded decodes
      obtain ⟨rfl, rfl⟩ := same decodes (by simp [next, nothing, bindAll])
      simp [piece, nothing, bindAll]

end

theorem ofRange_without_callees {options : Options} {size}
    (done : ofRange memory { options with inlines := true } size = .ok stream)
    (alone : stream.ranges = [⟨options.entry, stream.size⟩]) :
    ∃ plain, ofRange memory { options with inlines := false } size = .ok plain ∧
      plain.slots ⊆ stream.slots ∧ stream = { plain with
        slots := stream.slots
        instructions := plain.instructions.map
          (·.mapRegisters (renumber plain.slots stream.slots)) } ∧
      (DecodesCallees memory → plain = stream) := by
  obtain ⟨⟨list, final⟩, pieced, done⟩ := of_bind_eq_ok done
  dsimp only at done
  split at done
  · cases done
  · cases done
    obtain ⟨plain, last, plainPieced, callees_eq, subset, rfl, same⟩ :=
      pieces_without_callees pieced (cons.inj alone).2 {} rfl rfl (Subset.refl _)
    have short : ¬last.slots.length > maxRegisters :=
      Nat.not_lt.mpr (Nat.le_trans (length_slots_of_pieces plainPieced) (by decide))
    refine ⟨_, (bind_eq_of_eq_ok plainPieced _).trans (if_neg short), subset, ?_, fun decodes => ?_⟩
    · simp only [flatMap_map, Piece.targets_renamed, Piece.code_renamed, map_append, filter_map,
        map_map, ← closing_map, map_flatMap, (cons.inj alone).2, callees_eq]
      rfl
    · obtain ⟨plain_eq, rfl⟩ := same decodes rfl
      rw [← plain_eq]

/-- Whatever the memory and the options are: code that is refused while callees are looked for is
refused without them, for the same reason.  Code in which none is found gives the same stream but
for the registers, which are numbered by a table that may hold slots of abandoned attempts; if no
attempt is abandoned, the streams are the same. -/
theorem abandoned_attempts_leave_slots_only (memory : Memory) (options : Options) :
    (∀ fault, generate memory { options with inlines := true } = .error (.fault fault) →
      generate memory { options with inlines := false } = .error (.fault fault)) ∧
    ∀ stream, generate memory { options with inlines := true } = .ok stream →
      stream.ranges = [⟨options.entry, stream.size⟩] →
      ∃ plain, generate memory { options with inlines := false } = .ok plain ∧
        plain.slots ⊆ stream.slots ∧
        stream = { plain with
          slots := stream.slots
          instructions := plain.instructions.map
            (·.mapRegisters (renumber plain.slots stream.slots)) } ∧
        (DecodesCallees memory → plain = stream) := by
  have extent_eq (inlines : Bool) : extent memory { options with inlines } =
      extent memory options := rfl
  refine ⟨fun fault failed => ?_, fun stream generated alone => ?_⟩
  · rcases of_bind_eq_error failed with failed | ⟨size, known, failed⟩
    · rw [extent_eq] at failed
      rw [generate, extent_eq, failed]
      rfl
    · have firm {site word operation} :
          lower memory true site word operation ≠ .error (.fault fault) := by
        intro failed
        obtain ⟨_, _, -, crash⟩ := crashes_of_lower failed
        cases crash
      have plainFirm {site word operation any} :
          lower memory false site word operation ≠ .error any := nofun
      refine (bind_eq_of_eq_ok known _).trans ?_
      exact ofRange_refused_again firm plainFirm (by rfl) rfl rfl (fun _ _ _ => rfl) failed
  · obtain ⟨size, known, done⟩ := of_bind_eq_ok generated
    obtain ⟨plain, plainDone, rest⟩ := ofRange_without_callees done alone
    exact ⟨plain, (bind_eq_of_eq_ok known _).trans plainDone, rest⟩

/-- A call of an addition that is followed by a load with update, which has no register to
update. -/
def brokenCallee : Memory where
  read addr :=
    if addr = 0x1000 then .word 0x48001001
    else if addr = 0x1004 then .word 0x38A50001
    else if addr = 0x2000 then .word 0x38630001
    else if addr = 0x2004 then .word 0x84600000
    else .word 0x4E800020
  slice _ _ := .error (.plain "no bytes")

theorem brokenCallee_without_callees :
    ∃ stream plain,
      generate brokenCallee { entry := 0x1000, count := 3, inlines := true } = .ok stream ∧
      generate brokenCallee { entry := 0x1000, count := 3, inlines := false } = .ok plain ∧
      plain.entries = stream.entries := by
  have evaluated :
      (generate brokenCallee { entry := 0x1000, count := 3, inlines := true }).toOption.any
        (fun stream => decide (stream.ranges = [⟨0x1000, stream.size⟩])) = true := by
    decide +kernel
  obtain ⟨stream, generated, alone⟩ := of_any_toOption evaluated
  obtain ⟨plain, plainGenerated, -, stream_eq, -⟩ :=
    (abandoned_attempts_leave_slots_only brokenCallee { entry := 0x1000, count := 3 }).2 stream
      generated (of_decide_eq_true alone)
  exact ⟨stream, plain, generated, plainGenerated, (congrArg Stream.entries stream_eq).symm⟩

/-- The slots of the call whose attempt is abandoned come first. -/
theorem abandoned_attempt_leaves_slots :
    ∃ stream plain,
      generate brokenCallee { entry := 0x1000, count := 3, inlines := true } = .ok stream ∧
      stream.ranges = [⟨0x1000, stream.size⟩] ∧
      generate brokenCallee { entry := 0x1000, count := 3, inlines := false } = .ok plain ∧
      stream.slots ≠ plain.slots ∧ stream.instructions ≠ plain.instructions := by
  have evaluated : (generate brokenCallee
      { entry := 0x1000, count := 3, inlines := true }).toOption.any
      (fun stream => (generate brokenCallee
        { entry := 0x1000, count := 3, inlines := false }).toOption.any fun plain =>
          decide (stream.ranges = [⟨0x1000, stream.size⟩] ∧ stream.slots ≠ plain.slots ∧
            stream.instructions ≠ plain.instructions)) = true := by
    decide +kernel
  obtain ⟨stream, generated, evaluated⟩ := of_any_toOption evaluated
  obtain ⟨plain, plainGenerated, evaluated⟩ := of_any_toOption evaluated
  obtain ⟨alone, slots, instructions⟩ := of_decide_eq_true evaluated
  exact ⟨stream, plain, generated, alone, plainGenerated, slots, instructions⟩

end Stream
end Dynarec
