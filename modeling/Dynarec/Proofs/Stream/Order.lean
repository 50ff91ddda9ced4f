import Dynarec.Graph.Partition
import Dynarec.Proofs.Stream.Pieces

/-!
# The order of the instructions of a stream

Every instruction of a stream belongs to a guest address, its origin.  Origins
never go down, placeholders stand in front of the code of their address, and the
code of an address is interrupted only in front of an exit that a jump skips.
-/

namespace Dynarec

open Dynarec.Graph Instruction List UInt32

namespace Instruction

def origin {ρ : Type} (instr : Instruction ρ) : Address :=
  match instr.kind with
  | .jumpmark => instr.target
  | .enter | .routine => instr.param
  | _ => instr.address

section

variable {ρ : Type} {instr : Instruction ρ}

theorem isPlaceholder_of_isPlain (plain : instr.isPlain) : instr.isPlaceholder = false := by
  unfold isPlain at plain
  unfold isPlaceholder
  split at plain <;> simp_all

theorem origin_of_isPlain (plain : instr.isPlain) : instr.origin = instr.address := by
  unfold isPlain at plain
  unfold origin
  split at plain <;> simp_all

theorem isSuffix_of_isExit (isExit : instr.isExit) : instr.isSuffix := by
  simp_all [Instruction.isExit, isSuffix]

theorem isPlaceholder_of_isExit (isExit : instr.isExit) : instr.isPlaceholder = false := by
  simp_all [Instruction.isExit, isPlaceholder]

theorem origin_of_isExit (isExit : instr.isExit) : instr.origin = instr.param := by
  simp_all [Instruction.isExit, origin]

theorem isSuffix_of_jump (kind_eq : instr.kind = .jump) : instr.isSuffix = true := by
  simp [isSuffix, kind_eq]

theorem isPlaceholder_of_jump (kind_eq : instr.kind = .jump) : instr.isPlaceholder = false := by
  simp [isPlaceholder, kind_eq]

theorem origin_of_jump (kind_eq : instr.kind = .jump) : instr.origin = instr.address := by
  simp [origin, kind_eq]

end

inductive Precedes (first second : Instruction Register) : Prop
  | later (inside : first.isPlaceholder = false) (ascends : first.origin < second.origin)
  /-- A placeholder stands in front of the code of its address. -/
  | marks (placeholder : first.isPlaceholder) (same : first.origin = second.origin)
  | continues (plain : first.isPlain) (same : first.origin = second.origin)
      (inside : second.isPlaceholder = false)
  | skips (kind_eq : first.kind = .jump) (same : first.origin = second.origin)
      (isExit : second.isExit)

theorem Precedes.origin_le {first second : Instruction Register}
    (precedes : first.Precedes second) : first.origin ≤ second.origin := by
  cases precedes with
  | later _ ascends => exact UInt32.le_of_lt ascends
  | marks _ same => exact UInt32.le_of_eq same
  | continues _ same _ => exact UInt32.le_of_eq same
  | skips _ same _ => exact UInt32.le_of_eq same

theorem Precedes.origin_eq {first second : Instruction Register} (precedes : first.Precedes second)
    (placeholder : first.isPlaceholder) : first.origin = second.origin := by
  cases precedes with
  | later inside => simp [placeholder] at inside
  | marks _ same => exact same
  | continues _ same => exact same
  | skips _ same => exact same

end Instruction

/-- An instruction of a stream that marks no place. -/
structure Instruction.IsGuest (addr : Address) (instr : Instruction Register) : Prop where
  inside : instr.isPlaceholder = false
  origin_eq : instr.origin = addr
  unguarded : instr.kind ≠ .cycleCheck
  named : instr.kind = .jump → instr.bySegment = false

namespace Guest

theorem Ending.isGuest (ends : Ending site ending)
    (placed : ∀ instr ∈ ending, instr.address = site.address) :
    ∀ instr ∈ ending, instr.IsGuest site.address := by
  have jumps {jump : Instruction Register} (kind_eq : jump.kind = .jump)
      (named : jump.bySegment = false) (addr : jump.address = site.address) :
      jump.IsGuest site.address :=
    ⟨isPlaceholder_of_jump kind_eq, (origin_of_jump kind_eq).trans addr,
      by simp [kind_eq], fun _ => named⟩
  have exits {exit : Instruction Register} (isExit : exit.isExit)
      (param_eq : exit.param = site.address) : exit.IsGuest site.address := by
    have kind_eq : exit.kind = .routine := by simp_all [Instruction.isExit]
    exact ⟨isPlaceholder_of_isExit isExit,
      (origin_of_isExit isExit).trans param_eq, by simp [kind_eq], by simp [kind_eq]⟩
  cases ends with
  | falls => simp
  | jumps kind_eq named _ => simpa using jumps kind_eq named (placed _ mem_cons_self)
  | exits isExit param_eq => simpa using exits isExit param_eq
  | skips kind_eq named _ _ isExit param_eq =>
    simpa using ⟨jumps kind_eq named (placed _ mem_cons_self), exits isExit param_eq⟩

theorem Ending.chain (ends : Ending site ending)
    (placed : ∀ instr ∈ ending, instr.address = site.address) :
    ending.IsChain Instruction.Precedes := by
  have guests := ends.isGuest placed
  cases ends with
  | falls => exact .nil
  | jumps => exact .singleton _
  | exits => exact .singleton _
  | skips kind_eq _ _ _ isExit _ =>
    refine .cons_cons (.skips kind_eq ?_ isExit) (.singleton _)
    rw [(guests _ (by simp)).origin_eq, (guests _ (by simp)).origin_eq]

theorem Formed.isGuest (formed : Formed site fragment)
    (placed : ∀ instr ∈ fragment, instr.address = site.address) :
    ∀ instr ∈ fragment, instr.IsGuest site.address := by
  obtain ⟨⟨front, ending, rfl, plain, ends⟩, -⟩ := formed
  obtain ⟨frontPlaced, endingPlaced⟩ := forall_mem_append.mp placed
  refine forall_mem_append.mpr ⟨fun instr mem => ?_, ends.isGuest endingPlaced⟩
  have isPlain := plain instr mem
  refine ⟨Instruction.isPlaceholder_of_isPlain isPlain,
    (Instruction.origin_of_isPlain isPlain).trans (frontPlaced instr mem), ?_, ?_⟩
  · intro kind_eq
    simp [Instruction.isPlain, kind_eq] at isPlain
  · intro kind_eq
    simp [Instruction.isPlain, kind_eq] at isPlain

theorem Formed.chain (formed : Formed site fragment)
    (placed : ∀ instr ∈ fragment, instr.address = site.address) :
    fragment.IsChain Instruction.Precedes := by
  have guests := formed.isGuest placed
  obtain ⟨⟨front, ending, rfl, plain, ends⟩, -⟩ := formed
  have goesOn {first second} (firstListed : first ∈ front)
      (secondListed : second ∈ front ++ ending) : first.Precedes second :=
    .continues (plain first firstListed)
      ((guests first (mem_append_left _ firstListed)).origin_eq.trans
        (guests second secondListed).origin_eq.symm) (guests second secondListed).inside
  refine isChain_append.mpr ⟨?_, ends.chain (forall_mem_append.mp placed).2, ?_⟩
  · refine List.Pairwise.isChain (pairwise_of_forall_mem_list ?_)
    exact fun first firstListed second secondListed =>
      goesOn firstListed (mem_append_left _ secondListed)
  · exact fun first last second head =>
      goesOn (mem_of_mem_getLast? last) (mem_append_right _ (mem_of_mem_head? head))

end Guest

structure Arranged (stop : Address) (code : Code) : Prop where
  chain : code.IsChain Instruction.Precedes
  last : ∀ last ∈ code.getLast?, last.isPlaceholder = false
  placed : ∀ instr ∈ code, instr.isPlaceholder = false →
    instr.address = instr.origin ∨ instr.isExit = true ∧ instr.origin = stop
  unguarded : ∀ instr ∈ code, instr.kind ≠ .cycleCheck
  named : ∀ instr ∈ code, instr.kind = .jump → instr.bySegment = false

namespace Stream

variable {targets : List Address}

/-- The placeholders in front of a piece, where jumps lead to `targets`. -/
def Piece.marks (targets : List Address) (piece : Piece) : Code :=
  (if piece.address ∈ targets then [.jumpmark piece.address] else []) ++
    if piece.enters then [.enter piece.address] else []

/-- A piece with those of its placeholders that are needed. -/
def Piece.kept (targets : List Address) (piece : Piece) : Code :=
  piece.marks targets ++ piece.fragment

theorem Piece.of_mem_marks {piece : Piece} (mem : mark ∈ piece.marks targets) :
    mark.isPlaceholder ∧ mark.origin = piece.address ∧ mark.kind ≠ .cycleCheck ∧
      mark.kind ≠ .jump := by
  rcases mem_append.mp mem with jumpmark | enter
  · split at jumpmark
    · rw [mem_singleton.mp jumpmark]
      exact ⟨rfl, rfl, by simp [Instruction.jumpmark], by simp [Instruction.jumpmark]⟩
    · cases jumpmark
  · split at enter
    · rw [mem_singleton.mp enter]
      exact ⟨rfl, rfl, by simp [Instruction.enter], by simp [Instruction.enter]⟩
    · cases enter

theorem of_mem_closing {stop} (mem : instr ∈ closing targets stop code) :
    instr.origin = stop ∧ instr.kind ≠ .cycleCheck ∧ instr.kind ≠ .jump := by
  unfold closing at mem
  split at mem
  · rcases mem_cons.mp mem with rfl | behind
    · exact ⟨rfl, by simp [jumpmark], by simp [jumpmark]⟩
    · rw [mem_singleton.mp behind]
      exact ⟨rfl, by simp [ofRoutine], by simp [ofRoutine]⟩
  · split at mem
    · cases mem
    · rw [mem_singleton.mp mem]
      exact ⟨rfl, by simp [ofRoutine], by simp [ofRoutine]⟩

theorem isExit_of_mem_closing {stop} (mem : instr ∈ closing targets stop code)
    (inside : instr.isPlaceholder = false) : instr.isExit = true := by
  unfold closing at mem
  split at mem
  · rcases mem_cons.mp mem with rfl | behind
    · cases inside
    · rw [mem_singleton.mp behind]
      rfl
  · split at mem
    · cases mem
    · rw [mem_singleton.mp mem]
      rfl

theorem chain_closing (targets : List Address) (stop : Address) (code : Code) :
    (closing targets stop code).IsChain Instruction.Precedes ∧
      ∀ last ∈ (closing targets stop code).getLast?, last.isPlaceholder = false := by
  unfold closing
  split
  · refine ⟨.cons_cons (.marks rfl rfl) (.singleton _), ?_⟩
    rintro last ⟨⟩
    rfl
  · split
    · exact ⟨.nil, by simp⟩
    · refine ⟨.singleton _, ?_⟩
      rintro last ⟨⟩
      rfl

namespace Tiled

variable {stream : Stream} (tiled : stream.Tiled list)

include tiled

theorem isGuest (mem : piece ∈ list) : ∀ instr ∈ piece.fragment, instr.IsGuest piece.address :=
  (tiled.formed piece mem).isGuest (tiled.placed piece mem)

theorem fragment_ne_nil (mem : piece ∈ list) : piece.fragment ≠ [] :=
  (tiled.formed piece mem).ne_nil

theorem origin_of_mem_kept (mem : piece ∈ list) (listed : instr ∈ piece.kept targets) :
    instr.origin = piece.address := by
  cases mem_append.mp listed with
  | inl mark => exact (Piece.of_mem_marks mark).2.1
  | inr guest => exact (tiled.isGuest mem instr guest).origin_eq

theorem getLast_kept (mem : piece ∈ list) :
    ∀ last ∈ (piece.kept targets).getLast?, last.isPlaceholder = false := by
  intro last ends
  rw [Piece.kept, getLast?_append_of_ne_nil _ (tiled.fragment_ne_nil mem)] at ends
  exact (tiled.isGuest mem last (mem_of_mem_getLast? ends)).inside

theorem chain_kept (targets : List Address) (mem : piece ∈ list) :
    (piece.kept targets).IsChain Instruction.Precedes := by
  have marks {first second : Instruction Register} (mark : first ∈ piece.marks targets)
      (listed : second ∈ piece.kept targets) : first.Precedes second :=
    .marks (Piece.of_mem_marks mark).1
      ((Piece.of_mem_marks mark).2.1.trans (tiled.origin_of_mem_kept mem listed).symm)
  refine isChain_append.mpr ⟨?_, (tiled.formed piece mem).chain (tiled.placed piece mem), ?_⟩
  · refine List.Pairwise.isChain (pairwise_of_forall_mem_list ?_)
    exact fun first mark second other => marks mark (mem_append_left _ other)
  · exact fun first last second head => marks (mem_of_mem_getLast? last)
      (mem_append_right _ (mem_of_mem_head? head))

theorem chain_pieces (targets : List Address) :
    (list.flatMap (Piece.kept targets)).IsChain Instruction.Precedes := by
  have nonempty : [] ∉ list.map (Piece.kept targets) := by
    intro empty
    obtain ⟨piece, mem, equal⟩ := mem_map.mp empty
    exact tiled.fragment_ne_nil mem (append_eq_nil_iff.mp equal).2
  rw [flatMap_def, isChain_flatten nonempty]
  constructor
  · intro code listed
    obtain ⟨piece, mem, rfl⟩ := mem_map.mp listed
    exact tiled.chain_kept targets mem
  · rw [isChain_map]
    refine (List.Pairwise.isChain tiled.pairwise_address).imp_of_mem_imp ?_
    intro piece next mem nextMem ascends first last second head
    refine .later (tiled.getLast_kept mem first last) ?_
    rwa [tiled.origin_of_mem_kept mem (mem_of_mem_getLast? last),
      tiled.origin_of_mem_kept nextMem (mem_of_mem_head? head)]

theorem getLast_pieces (targets : List Address) :
    ∀ last ∈ (list.flatMap (Piece.kept targets)).getLast?, last.isPlaceholder = false := by
  intro last ends
  rw [getLast?_flatMap] at ends
  obtain ⟨piece, listed, final⟩ := exists_of_findSome?_eq_some ends
  exact tiled.getLast_kept (mem_reverse.mp listed) last final

end Tiled

/-- The code of a stream without the placeholders that are not needed. -/
def trimmed (stream : Stream) (list : List Piece) : Code :=
  list.flatMap (Piece.kept (targetsOf list)) ++
    closing (targetsOf list) stream.stop (list.flatMap (Piece.code (targetsOf list)))

theorem mem_trimmed_iff {stream : Stream} :
    instr ∈ stream.trimmed list ↔ (∃ piece ∈ list, instr ∈ piece.marks (targetsOf list)) ∨
      (∃ piece ∈ list, instr ∈ piece.fragment) ∨ instr ∈ closing (targetsOf list) stream.stop
        (list.flatMap (Piece.code (targetsOf list))) := by
  simp only [trimmed, Piece.kept, mem_append, mem_flatMap]
  grind

namespace Tiled

variable {stream : Stream} (tiled : stream.Tiled list) {jump : Instruction Register}

include tiled

theorem arranged : Arranged stream.stop (stream.trimmed list) := by
  obtain ⟨closingChain, closingLast⟩ := chain_closing (targetsOf list) stream.stop
    (list.flatMap (Piece.code (targetsOf list)))
  refine ⟨?_, ?_, ?_, ?_, ?_⟩
  · refine isChain_append.mpr ⟨tiled.chain_pieces _, closingChain, ?_⟩
    intro first last second head
    obtain ⟨piece, mem, kept⟩ := mem_flatMap.mp (mem_of_mem_getLast? last)
    refine .later (tiled.getLast_pieces _ first last) ?_
    rw [tiled.origin_of_mem_kept mem kept, (of_mem_closing (mem_of_mem_head? head)).1,
      lt_iff_toNat_lt]
    have bounds := tiled.address_bounds mem
    omega
  · intro last ends
    rw [trimmed, getLast?_append, Option.mem_def, Option.or_eq_some_iff] at ends
    cases ends with
    | inl closing => exact closingLast last closing
    | inr pieces => exact tiled.getLast_pieces _ last pieces.2
  · intro instr mem inside
    rcases mem_trimmed_iff.mp mem with ⟨_, _, mark⟩ | ⟨_, listed, guest⟩ | closing
    · rw [(Piece.of_mem_marks mark).1] at inside
      cases inside
    · left
      rw [tiled.placed _ listed _ guest, (tiled.isGuest listed _ guest).origin_eq]
    · exact .inr ⟨isExit_of_mem_closing closing inside, (of_mem_closing closing).1⟩
  · intro instr mem
    rcases mem_trimmed_iff.mp mem with ⟨_, _, mark⟩ | ⟨_, listed, guest⟩ | closing
    · exact (Piece.of_mem_marks mark).2.2.1
    · exact (tiled.isGuest listed instr guest).unguarded
    · exact (of_mem_closing closing).2.1
  · intro instr mem kind_eq
    rcases mem_trimmed_iff.mp mem with ⟨_, _, mark⟩ | ⟨_, listed, guest⟩ | closing
    · exact absurd kind_eq (Piece.of_mem_marks mark).2.2.2
    · exact (tiled.isGuest listed instr guest).named kind_eq
    · exact absurd kind_eq (of_mem_closing closing).2.2

theorem jumpTargets_eq : jumpTargets stream.instructions = targetsOf list := by
  have none code (others : ∀ instr ∈ code, instr.kind ≠ .jump) : jumpTargets code = [] := by
    rw [jumpTargets, map_eq_nil_iff, filter_eq_nil_iff]
    intro instr mem
    simp [others instr mem]
  have append front back : jumpTargets (front ++ back) = jumpTargets front ++ jumpTargets back := by
    rw [jumpTargets, filter_append, map_append]
    rfl
  have pieces targets list : jumpTargets (list.flatMap (Piece.code targets)) = targetsOf list := by
    induction list with
    | nil => rfl
    | cons piece rest ih =>
      rw [flatMap_cons, append, ih, Piece.code, append, none, nil_append]
      · rfl
      · grind [jumpmark, enter]
  rw [tiled.code_eq, append, pieces, none, append_nil]
  exact fun instr mem => (of_mem_closing mem).2.2

theorem dropUnusedJumpmarks_eq : dropUnusedJumpmarks stream.instructions = stream.trimmed list := by
  rw [dropUnusedJumpmarks, tiled.jumpTargets_eq, tiled.code_eq, trimmed, filter_append]
  congr 1
  · rw [filter_flatMap]
    refine flatMap_congr fun piece mem => ?_
    have guests : piece.fragment.filter (fun instr =>
        !(instr.kind = .jumpmark && instr.target ∉ targetsOf list)) =
        piece.fragment := by
      rw [filter_eq_self]
      intro instr listed
      have inside := (tiled.isGuest mem instr listed).inside
      simp only [isPlaceholder, Bool.or_eq_false_iff, decide_eq_false_iff_not] at inside
      simp [inside.1]
    rw [Piece.kept, Piece.code, filter_append, guests, Piece.marks]
    by_cases needed : piece.address ∈ targetsOf list <;> cases piece.enters <;>
      simp [needed, jumpmark, enter]
  · rw [filter_eq_self]
    intro instr mem
    unfold closing at mem
    split at mem
    · rename_i reached
      rcases mem_cons.mp mem with rfl | behind
      · simp [jumpmark, reached]
      · simp [mem_singleton.mp behind, ofRoutine]
    · split at mem
      · cases mem
      · simp [mem_singleton.mp mem, ofRoutine]

theorem origin_cases (listed : instr ∈ stream.trimmed list) :
    (∃ piece ∈ list, instr.origin = piece.address) ∨ instr.origin = stream.stop := by
  rcases mem_trimmed_iff.mp listed with ⟨piece, mem, mark⟩ | ⟨piece, mem, guest⟩ | closing
  · exact .inl ⟨piece, mem, (Piece.of_mem_marks mark).2.1⟩
  · exact .inl ⟨piece, mem, (tiled.isGuest mem instr guest).origin_eq⟩
  · exact .inr (of_mem_closing closing).1

theorem trimmed_ne_nil : stream.trimmed list ≠ [] := by
  intro empty
  obtain ⟨noPieces, noClosing⟩ := append_eq_nil_iff.mp empty
  cases list with
  | nil => cases noClosing
  | cons piece rest =>
    rw [flatMap_cons, append_eq_nil_iff, Piece.kept, append_eq_nil_iff] at noPieces
    exact tiled.fragment_ne_nil mem_cons_self noPieces.1.2

theorem target_of_jump (mem : piece ∈ list) (listed : jump ∈ piece.fragment)
    (kind_eq : jump.kind = .jump) :
    Guest.Site.inRange ⟨piece.address, stream.entry, stream.stop⟩ jump.target ∨
      jump.target = piece.address + 4 := by
  obtain ⟨⟨front, ending, equal, plain, ends⟩, -⟩ := tiled.formed piece mem
  rw [equal] at listed
  cases mem_append.mp listed with
  | inl inFront =>
    have isPlain := plain jump inFront
    simp [Instruction.isPlain, kind_eq] at isPlain
  | inr inEnding =>
    cases ends with
    | falls => cases inEnding
    | jumps _ _ near =>
      rw [mem_singleton.mp inEnding]
      exact .inl near
    | exits isExit =>
      rw [mem_singleton.mp inEnding] at kind_eq
      simp [Instruction.isExit, kind_eq] at isExit
    | skips _ _ _ target_eq isExit =>
      rcases mem_cons.mp inEnding with rfl | behind
      · exact .inr target_eq
      · rw [mem_singleton.mp behind] at kind_eq
        simp [Instruction.isExit, kind_eq] at isExit

theorem marked (aligned : stream.entry.toNat % 4 = 0) (listed : jump ∈ stream.trimmed list)
    (kind_eq : jump.kind = .jump) : .jumpmark jump.target ∈ stream.trimmed list := by
  rcases mem_trimmed_iff.mp listed with ⟨_, _, mark⟩ | ⟨piece, mem, guest⟩ | closing
  · exact absurd kind_eq (Piece.of_mem_marks mark).2.2.2
  · have targeted : jump.target ∈ targetsOf list := by
      refine mem_flatMap.mpr ⟨piece, mem, mem_map_of_mem ?_⟩
      rw [mem_filter]
      exact ⟨guest, by simp [kind_eq, (tiled.isGuest mem jump guest).named kind_eq]⟩
    have bounds := tiled.address_bounds mem
    have reached addr (marked : addr ∈ targetsOf list)
        (lower : stream.entry ≤ addr) (upper : addr < stream.stop)
        (whole : addr.toNat % 4 = 0) : .jumpmark addr ∈ stream.trimmed list := by
      obtain ⟨other, otherMem, rfl⟩ := tiled.exists_piece lower upper (by omega)
      refine mem_trimmed_iff.mpr (.inl ⟨other, otherMem, mem_append_left _ ?_⟩)
      rw [if_pos marked]
      exact mem_singleton_self _
    cases tiled.target_of_jump mem guest kind_eq with
    | inl near =>
      simp only [Guest.Site.inRange, Bool.and_eq_true, decide_eq_true_eq] at near
      exact reached jump.target targeted near.1.1 near.1.2 (toNat_mod_four near.2)
    | inr next =>
      obtain ⟨index, found⟩ := mem_iff_getElem?.mp mem
      have addr := tiled.address_eq found
      have bound := stream.stop.toNat_lt
      have sum : jump.target.toNat = (piece.address.toNat + 4) % 2 ^ 32 := by
        rw [next]
        exact UInt32.toNat_add _ _
      by_cases inside : jump.target < stream.stop
      · have forward := lt_iff_toNat_lt.mp inside
        exact reached jump.target targeted (le_iff_toNat_le.mpr (by omega)) inside (by omega)
      · have final : jump.target = stream.stop := by
          rw [lt_iff_toNat_lt] at inside
          rw [← UInt32.toNat_inj]
          omega
        refine mem_trimmed_iff.mpr (.inr (.inr ?_))
        rw [closing, if_pos (final ▸ targeted), final]
        exact mem_cons_self
  · exact absurd kind_eq (of_mem_closing closing).2.2

end Tiled
end Stream
end Dynarec
