import Dynarec.Assembly.Program
import Dynarec.Guest.Field
import Dynarec.Proofs.Except
import Mathlib.Algebra.Group.Nat.Defs

/-!
# Branches of assembled programs

The distance of a branch is put into its word when all labels are known.  The
word of a conditional branch is refused if the distance does not fit; that of an
unconditional branch leads elsewhere then.
-/

namespace Dynarec
namespace Assembly

open List

/-! ## Words and their fields -/

theorem and_mask (number shift width : Nat) :
    number &&& (2 ^ width - 1) <<< shift = number / 2 ^ shift % 2 ^ width * 2 ^ shift := by
  rw [← Nat.shiftLeft_eq, ← Nat.and_two_pow_sub_one_eq_mod, ← Nat.shiftRight_eq_div_pow]
  apply Nat.eq_of_testBit_eq
  intro index
  by_cases low : shift ≤ index <;> simp [low, Bool.and_comm]

theorem toNat_or {high low : Word} (high_eq : high.toNat = upper) (low_eq : low.toNat = lower)
    (width : Nat) (whole : 2 ^ width ∣ upper) (small : lower < 2 ^ width) :
    (high ||| low).toNat = upper + lower := by
  obtain ⟨digit, rfl⟩ := whole
  rw [UInt32.toNat_or, high_eq, low_eq, Nat.two_pow_add_eq_or_of_lt small]

theorem bne_zero_iff {word : Word} : (word != 0) = true ↔ word.toNat ≠ 0 :=
  bne_iff_ne.trans (not_congr UInt32.toNat_inj.symm)

theorem fields_eq (word : Word) :
    word.primary = word.toNat / 67108864 ∧ word.d = word.toNat / 2097152 % 32 ∧
      word.a = word.toNat / 65536 % 32 ∧ (word.absolute ↔ word.toNat / 2 % 2 * 2 ≠ 0) ∧
      (word.links ↔ word.toNat % 2 ≠ 0) := by
  have shifted shift : (word >>> shift).toNat = word.toNat / 2 ^ (shift.toNat % 32) :=
    (UInt32.toNat_shiftRight ..).trans (Nat.shiftRight_eq_div_pow ..)
  have reg shift : word.field shift 31 = word.toNat / 2 ^ (shift.toNat % 32) % 32 :=
    (Nat.and_two_pow_sub_one_eq_mod _ 5).trans (congrArg (· % 32) (shifted shift))
  have absolute : (word &&& 2).toNat = word.toNat / 2 % 2 * 2 := and_mask _ 1 1
  have link : (word &&& 1).toNat = word.toNat % 2 := Nat.and_two_pow_sub_one_eq_mod _ 1
  exact ⟨shifted 26, reg 21, reg 16, absolute ▸ bne_zero_iff, link ▸ bne_zero_iff⟩

/-- The word of an unconditional branch over a distance. -/
def branchWord (distance : Word) (links : Bool) : Word :=
  (18 : Word) <<< 26 ||| (if links then 1 else 0) ||| (distance &&& 0x03FFFFFC)

/-- The word of a conditional branch over a distance. -/
def branchIfWord (distance : Word) (option bit : Int) : Word :=
  (16 : Word) <<< 26 ||| bits 5 option <<< 21 ||| bits 5 bit <<< 16 ||| (distance &&& 0xFFFC)

theorem toNat_branchWord (distance : Word) (links : Bool) :
    (branchWord distance links).toNat =
      1207959552 + distance.toNat / 4 % 16777216 * 4 + links.toNat := by
  have low : (distance &&& 0x03FFFFFC).toNat = distance.toNat / 4 % 16777216 * 4 := and_mask _ 2 24
  have link : (if links then 1 else 0 : Word).toNat = links.toNat := by cases links <;> rfl
  have small := Bool.toNat_lt links
  rw [branchWord, UInt32.or_assoc, UInt32.or_comm (if links then 1 else 0), ← UInt32.or_assoc]
  exact toNat_or (toNat_or rfl low 26 ⟨18, rfl⟩ (by lia)) link 2 (by lia) (by lia)

theorem toNat_branchIfWord (distance : Word) (option bit : Int) :
    (branchIfWord distance option bit).toNat =
      1073741824 + (option % 32).toNat * 2097152 + (bit % 32).toNat * 65536 +
        distance.toNat / 4 % 16384 * 4 := by
  have low : (distance &&& 0xFFFC).toNat = distance.toNat / 4 % 16384 * 4 := and_mask _ 2 14
  have field value shift (room : 31 * 2 ^ (shift.toNat % 32) < 2 ^ 32) :
      (bits 5 value <<< shift).toNat = (value % 32).toNat * 2 ^ (shift.toNat % 32) := by
    have cut : (bits 5 value).toNat = (value % 32).toNat :=
      UInt32.toNat_ofNat'.trans (Nat.mod_eq_of_lt (show (value % 32).toNat < 4294967296 by lia))
    have most : (value % 32).toNat ≤ 31 := by lia
    rw [UInt32.toNat_shiftLeft, cut, Nat.shiftLeft_eq]
    exact Nat.mod_eq_of_lt (Nat.lt_of_le_of_lt (Nat.mul_le_mul_right _ most) room)
  have high : ((16 : Word) <<< 26).toNat = 1073741824 := rfl
  have options := toNat_or high (field option 21 (by decide)) 26 ⟨16, rfl⟩ (by simp; lia)
  have operands := toNat_or options (field bit 16 (by decide)) 21 (by simp; lia) (by simp; lia)
  exact toNat_or operands low 16 (by simp; lia) (by lia)

/-- A distance that the word of an unconditional branch has room for. -/
def IsNear (distance : Word) : Prop :=
  distance.toNat % 4 = 0 ∧ -0x2000000 ≤ distance.toInt32.toInt ∧
    distance.toInt32.toInt < 0x2000000
deriving Decidable

theorem toInt_toInt32 (distance : Word) : distance.toInt32.toInt =
    if 2 * distance.toNat < 4294967296 then (distance.toNat : Int) else
      distance.toNat - 4294967296 :=
  distance.toBitVec.toInt_eq_toNat_cond

theorem toNat_signed (half : UInt16) : half.toInt16.toInt32.toUInt32.toNat =
    half.toNat + if 32768 ≤ half.toNat then 4294901760 else 0 := by
  have extended := half.toBitVec.toNat_signExtend (v := 32)
  rw [BitVec.msb_eq_decide, BitVec.toNat_setWidth_of_le (by decide)] at extended
  simp only [decide_eq_true_eq] at extended
  exact extended

theorem add_eq_iff {addr offset target : Word} :
    addr + offset = target ↔ offset.toNat = (target - addr).toNat := by
  rw [UInt32.toNat_inj, UInt32.add_comm, UInt32.eq_sub_iff_add_eq]

/-- A word that branches from an address to a target if it has room for the distance. -/
structure Branches (word : Word) (links : Bool) (addr target : Address) : Prop where
  primary_eq : word.primary = 18
  links_eq : word.links = links
  target_iff : word.branchTarget addr = target ↔ IsNear (target - addr)

theorem branches_branchWord (links : Bool) (addr target : Address) :
    Branches (branchWord (target - addr) links) links addr target := by
  obtain ⟨primary, -, -, absolute, linking⟩ := fields_eq (branchWord (target - addr) links)
  have low : (branchWord (target - addr) links &&& 0x03FFFFFC).toNat =
      (branchWord (target - addr) links).toNat / 4 % 16777216 * 4 := and_mask _ 2 24
  rw [toNat_branchWord] at primary absolute linking low
  have small := Bool.toNat_lt links
  have bound := (target - addr).toNat_lt
  refine ⟨by lia, ?_, ?_⟩
  · cases links <;> simp only [Bool.toNat_true, Bool.toNat_false] at linking <;> lia
  · rw [Word.branchTarget, if_neg (mt absolute.mp (by lia)), add_eq_iff, IsNear, toInt_toInt32]
    generalize branchWord (target - addr) links &&& 0x03FFFFFC = offset at *
    have sign : (offset &&& 0x02000000).toNat = offset.toNat / 33554432 % 2 * 33554432 :=
      and_mask _ 25 1
    split
    · next negative =>
      have high : (0xFC000000 : Word).toNat = 4227858432 := rfl
      rw [UInt32.or_comm, toNat_or high rfl 26 ⟨63, rfl⟩ (by lia)]
      rw [bne_zero_iff, sign] at negative
      split <;> lia
    · next pos =>
      rw [bne_zero_iff, sign] at pos
      split <;> lia

/-- A word that branches from an address to a target on a condition. -/
structure BranchesIf (word : Word) (option bit : Int) (addr target : Address) : Prop where
  primary_eq : word.primary = 16
  option_eq : word.d = option % 32
  bit_eq : word.a = bit % 32
  links_eq : word.links = false
  target_eq : word.conditionalTarget addr = target

theorem branchesIf_branchIfWord (option bit : Int) {addr target : Address}
    (whole : (target - addr).toNat % 4 = 0) (near : Program.fits (target - addr)) :
    BranchesIf (branchIfWord (target - addr) option bit) option bit addr target := by
  obtain ⟨primary, d, a, absolute, links⟩ := fields_eq (branchIfWord (target - addr) option bit)
  have low : (branchIfWord (target - addr) option bit &&& 0xFFFC).toNat =
      (branchIfWord (target - addr) option bit).toNat / 4 % 16384 * 4 := and_mask _ 2 14
  rw [toNat_branchIfWord] at primary d a absolute links low
  have bound := (target - addr).toNat_lt
  refine ⟨by lia, by lia, by lia, Bool.eq_false_iff.mpr (mt links.mp (by lia)), ?_⟩
  rw [Program.fits, Bool.and_eq_true, decide_eq_true_eq, decide_eq_true_eq, toInt_toInt32] at near
  rw [Word.conditionalTarget, if_neg (mt absolute.mp (by lia)), add_eq_iff, toNat_signed,
    UInt32.toNat_toUInt16]
  split at near <;> split <;> lia

/-! ## Programs -/

/-- The calls that make up a program. -/
inductive Call where
  | label (name : String)
  | emit (mnemonic : String) (operands : List Int) (label : String)
  | branchTo (target : Address) (links : Bool)

namespace Program

def call (program : Program) : Call → Program
  | .label name => program.label name
  | .emit mnemonic operands label => program.emit mnemonic operands label
  | .branchTo target links => program.branchTo target links

def ofCalls (base : Address) (calls : List Call) : Program :=
  calls.foldl call { base }

/-- Labels stand at words of the program. -/
def IsLabelled (program : Program) : Prop :=
  ∀ {name target}, program.labels.lookup name = some target →
    ∃ index, target = program.addressOf index

/-- What calls keep of a program. -/
structure Continues (program : Program) (calls : List Call) (later : Program) : Prop where
  base_eq : later.base = program.base
  lines_continue : program.lines <+: later.lines
  labelled : program.IsLabelled → later.IsLabelled
  lookup_eq : ∀ {name}, .label name ∉ calls → later.labels.lookup name = program.labels.lookup name

theorem continues_append (program : Program) (calls : List Call) (line : Line) :
    program.Continues calls (program.append line) :=
  ⟨rfl, prefix_append _ _, fun labelled => labelled, fun _ => rfl⟩

theorem continues_call (program : Program) (made : Call) :
    program.Continues [made] (program.call made) := by
  cases made with
  | label set =>
    refine ⟨rfl, prefix_rfl, fun labelled name target found => ?_, fun {name} other => ?_⟩
    · rw [call, label, lookup_cons] at found
      split at found
      · exact ⟨_, (Option.some.inj found).symm⟩
      · exact labelled found
    · have ne : name ≠ set := fun same => other (same ▸ .head _)
      rw [call, label, lookup_cons, beq_eq_false_iff_ne.mpr ne]
  | branchTo target links => exact continues_append ..
  | emit mnemonic operands label =>
    change program.Continues _ (program.emit ..)
    unfold emit
    repeat' split
    all_goals first
      | exact continues_append ..
      | exact ⟨rfl, prefix_rfl, fun all => all, fun _ => rfl⟩

theorem continues_foldl (program : Program) (calls : List Call) :
    program.Continues calls (calls.foldl call program) := by
  induction calls generalizing program with
  | nil => exact ⟨rfl, prefix_rfl, fun labelled => labelled, fun _ => rfl⟩
  | cons made calls ih =>
    have step := program.continues_call made
    have rest := ih (program.call made)
    refine ⟨rest.base_eq.trans step.base_eq, step.lines_continue.trans rest.lines_continue,
      fun labelled => rest.labelled (step.labelled labelled), fun unset => ?_⟩
    rw [mem_cons, not_or] at unset
    exact (rest.lookup_eq unset.2).trans (step.lookup_eq (mt mem_singleton.mp unset.1))

theorem continues_ofCalls (base : Address) (before : List Call) (made : Call) (after : List Call) :
    ((ofCalls base before).call made).Continues after (ofCalls base (before ++ made :: after)) := by
  rw [show ofCalls base (before ++ made :: after) = after.foldl call _ from foldl_append]
  exact continues_foldl ..

/-- A call that appends a line puts it where the program ended. -/
theorem line_of_call
    (appends : (ofCalls start before).call made = (ofCalls start before).append line)
    (after : List Call) :
    let program := ofCalls start (before ++ made :: after)
    program.lines[(ofCalls start before).lines.length]? = some line ∧
      program.addressOf (ofCalls start before).lines.length = (ofCalls start before).here := by
  have continues := continues_ofCalls start before made after
  rw [appends] at continues
  obtain ⟨behind, lines_eq⟩ := continues.lines_continue
  refine ⟨?_, congrArg (· + _) continues.base_eq⟩
  rw [← lines_eq, getElem?_append_left (by simp [append])]
  exact getElem?_concat_length

/-- The lines of the mnemonics that branch to a label. -/
def branchLines (operands : List Int) (label : String) : List (String × Line) :=
  [("b", .branch label false), ("bl", .branch label true),
    ("bc", .branchIf label (operands.getD 0 0) (operands.getD 1 0)),
    ("bdnz", .branchIf label unlessDone 0)] ++
  conditionBranches.map fun (mnemonic, option, bit) =>
    (mnemonic, .branchIf label option (conditionBit (operands.getD 0 0) bit))

theorem emit_of_mem_branchLines (listed : (mnemonic, line) ∈ branchLines operands name)
    (program : Program) : program.emit mnemonic operands name = program.append line := by
  simp only [branchLines, conditionBranches, map_cons, map_nil, cons_append, nil_append, mem_cons,
    Prod.mk.injEq, not_mem_nil, or_false] at listed
  rcases listed with ⟨rfl, rfl⟩ | ⟨rfl, rfl⟩ | ⟨rfl, rfl⟩ | ⟨rfl, rfl⟩ | ⟨rfl, rfl⟩ | ⟨rfl, rfl⟩ |
    ⟨rfl, rfl⟩ | ⟨rfl, rfl⟩ <;> rfl

variable {program : Program} {words : List Word}

theorem resolve_of_words (resolved : program.words = .ok words)
    (found : program.lines[index]? = some line) :
    ∃ word, words[index]? = some word ∧ program.resolve line index = .ok word := by
  have general (items : List (Line × Nat)) (results) (place : Nat)
      (done : items.mapM (fun item => program.resolve item.1 item.2) = .ok results)
      {item} (listed : items[place]? = some item) :
      ∃ word, results[place]? = some word ∧ program.resolve item.1 item.2 = .ok word := by
    induction items generalizing results place with
    | nil => cases listed
    | cons first items ih =>
      rw [mapM_cons] at done
      obtain ⟨head, here, done⟩ := of_bind_eq_ok done
      obtain ⟨tail, behind, done⟩ := of_bind_eq_ok done
      cases done
      cases place with
      | zero =>
        cases listed
        exact ⟨head, rfl, here⟩
      | succ place => exact ih _ place behind listed
  exact general _ words index resolved (show _ = some (line, index) by simp [found])

theorem target_of_distance {label distance} (done : program.distance index label = .ok distance) :
    ∃ target, program.labels.lookup label = some target ∧
      distance = target - program.addressOf index := by
  rw [Program.distance] at done
  split at done
  next target found => exact ⟨target, found, (Except.ok.inj done).symm⟩
  · cases done

theorem distance_mod (program : Program) (place index : Nat) :
    (program.addressOf place - program.addressOf index).toNat % 4 = 0 := by
  simp only [addressOf, UInt32.toNat_sub, UInt32.toNat_add, UInt32.toNat_mul, UInt32.reduceToNat]
  omega

/-- The words of a program that was assembled without an error.  Its labels are where they were set
last.  A call that branches to a label puts its line where the program ended.  A conditional branch
leads to its label, with its option and bit.  An unconditional branch to a label or an address leads
there if and only if its word has room for the distance. -/
theorem branches_lead_to_targets
    {base : Address}
    {calls : List Call}
    (resolved : (ofCalls base calls).words = .ok words) :
    let program := ofCalls base calls
    (∀ before name after, calls = before ++ .label name :: after → .label name ∉ after →
      program.labels.lookup name = some (ofCalls base before).here) ∧
    (∀ before mnemonic operands label after line,
      calls = before ++ .emit mnemonic operands label :: after →
      (mnemonic, line) ∈ branchLines operands label →
      program.lines[(ofCalls base before).lines.length]? = some line ∧
        program.addressOf (ofCalls base before).lines.length = (ofCalls base before).here) ∧
    (∀ (index : Nat) label option bit,
      program.lines[index]? = some (.branchIf label option bit) →
      ∃ word target, words[index]? = some word ∧ program.labels.lookup label = some target ∧
        BranchesIf word option bit (program.addressOf index) target) ∧
    (∀ (index : Nat) label links, program.lines[index]? = some (.branch label links) →
      ∃ word target, words[index]? = some word ∧ program.labels.lookup label = some target ∧
        Branches word links (program.addressOf index) target) ∧
    (∀ before target links after, calls = before ++ .branchTo target links :: after →
      ∃ word, words[(ofCalls base before).lines.length]? = some word ∧
        Branches word links (ofCalls base before).here target) := by
  intro program
  have labelled : program.IsLabelled := (continues_foldl { base } calls).labelled nofun
  refine ⟨?_, ?_, ?_, ?_, ?_⟩
  · rintro before name after rfl unset
    exact ((continues_ofCalls ..).lookup_eq unset).trans lookup_cons_self
  · rintro before mnemonic operands label after line rfl listed
    have appends : (ofCalls base before).call (.emit mnemonic operands label) = _ :=
      emit_of_mem_branchLines listed _
    exact line_of_call appends after
  · intro index label option bit found
    obtain ⟨word, listed, done⟩ := resolve_of_words resolved found
    obtain ⟨distance, known, done⟩ := of_bind_eq_ok done
    obtain ⟨target, labels, rfl⟩ := target_of_distance known
    obtain ⟨place, rfl⟩ := labelled labels
    split at done
    · next near =>
      cases done
      exact ⟨_, _, listed, labels,
        branchesIf_branchIfWord option bit (program.distance_mod place index) near⟩
    · cases done
  · intro index label links found
    obtain ⟨word, listed, done⟩ := resolve_of_words resolved found
    obtain ⟨distance, known, done⟩ := of_bind_eq_ok done
    obtain ⟨target, labels, rfl⟩ := target_of_distance known
    cases done
    exact ⟨_, target, listed, labels, branches_branchWord links _ target⟩
  · rintro before target links after rfl
    have appends : (ofCalls base before).call (.branchTo target links) = _ := rfl
    obtain ⟨word, listed, done⟩ := resolve_of_words resolved (line_of_call appends after).1
    cases done
    rw [UInt32.or_assoc, UInt32.or_comm (_ &&& _), ← UInt32.or_assoc] at listed
    exact ⟨_, listed, branches_branchWord links _ target⟩

/-- A branch back to a label that was set twice, and a branch to an address. -/
theorem repeated_label_leads_to_target :
    ∃ words word jump, (ofCalls 0x02000000 [.label "top", .emit "nop" [] "", .label "top",
        .emit "bne" [1] "top", .branchTo 0x02000100 true]).words = .ok words ∧
      words[1]? = some word ∧ word.conditionalTarget 0x02000004 = 0x02000004 ∧
      words[2]? = some jump ∧ jump.branchTarget 0x02000008 = 0x02000100 := by
  have resolved : (ofCalls 0x02000000 [.label "top", .emit "nop" [] "", .label "top",
      .emit "bne" [1] "top", .branchTo 0x02000100 true]).words =
      .ok [0x60000000, 0x40860000, 0x480000F9] := rfl
  obtain ⟨-, places, conditional, -, absolute⟩ := branches_lead_to_targets resolved
  obtain ⟨line, -⟩ := places [.label "top", .emit "nop" [] "", .label "top"] "bne" [1] "top" _
    (.branchIf "top" 4 6) rfl (by decide)
  obtain ⟨word, target, listed, labels, leads⟩ := conditional 1 "top" 4 6 line
  obtain ⟨jump, found, branches⟩ := absolute [.label "top", .emit "nop" [] "", .label "top",
    .emit "bne" [1] "top"] _ _ [] rfl
  cases labels
  exact ⟨_, word, jump, resolved, listed, leads.target_eq, found, branches.target_iff.mpr (by decide)⟩

/-- A branch to an address that is too far away leads to another one. -/
theorem far_branch_leads_elsewhere :
    ∃ word, (ofCalls 0x10000000 [.branchTo 0x100 false]).words = .ok [word] ∧
      word.branchTarget 0x10000000 = 0x10000100 :=
  ⟨0x48000100, rfl, rfl⟩

end Program
end Assembly
end Dynarec
