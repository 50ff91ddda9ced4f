import Dynarec.Proofs.Guest.Fragment
import Dynarec.Proofs.Run.Execution
import Dynarec.Stream.Generate

/-!
# Inlined calls

A call of a short leaf function is replaced by an assignment of the link register
and the fragments of the callee.  A processor that makes the call instead, executes
the callee and returns, ends in the same state behind the call.
-/

namespace Dynarec

open Dynarec.Stream Execution List State UInt32

namespace Guest

variable {memory : Memory}

/-! ## Leaf functions -/

/-- Whether an operation is an immediate addition or a memory access with a displacement. -/
def Operation.isLeaf : Operation → Bool
  | .addImmediate _ | .load _ _ _ | .store _ _ => true
  | _ => false

theorem isLeaf_of_isInlinable (inlinable : isInlinable word)
    (decoded : Operation.decode word = .ok operation) : operation.isLeaf = true := by
  have listed : word.primary ∈ 14 :: 15 :: List.range' 32 14 := by
    simp only [isInlinable, Bool.or_eq_true, Bool.and_eq_true, decide_eq_true_eq] at inlinable
    simp only [mem_cons, mem_range'_1]
    lia
  have leaves : ∀ opcode ∈ 14 :: 15 :: List.range' 32 14, opcode ≠ 19 ∧ opcode ≠ 31 ∧
      (Operation.primaryTable.lookup opcode).all Operation.isLeaf := by
    decide
  obtain ⟨notNineteen, notThirtyOne, all⟩ := leaves _ listed
  have known := (Operation.of_decode decoded).1
  unfold Operation.ofWord at known
  dsimp only at known
  split at known
  · contradiction
  · contradiction
  · split at known
    next found =>
      cases known
      rwa [found] at all
    · cases known

/-- A plain instruction that changes general purpose registers and memory at most. -/
structure IsLeaf (instr : Instruction Slot) : Prop extends OfGuest instr where
  plain : instr.isPlain
  writes : ∀ slot ∈ instr.writes, slot.isGpr
  touches : ∀ field, touches instr field = false

theorem isLeaf_of_mem_ofOperation (decoded : Operation.decode word = .ok operation)
    (leaf : operation.isLeaf) (mem : instr ∈ Fragment.ofOperation site word operation) :
    IsLeaf instr := by
  have emitted := Fragment.emitted_of_mem_ofOperation decoded mem
  have straight : operation.isStraight := by
    cases operation <;> first | rfl | cases leaf
  suffices changes : (∀ slot ∈ instr.writes, slot.isGpr = true) ∧
      ∀ field, touches instr field = false from
    ⟨emitted.toOfGuest, emitted.plain straight, changes.1, changes.2⟩
  have isGpr {index} (small : index < 32) {slot}
      (mem : slot ∈ [Fragment.gpr index].filterMap id) : slot.isGpr := by
    have all : ∀ index < 32, (Slot.gpr (ofNat index)).isGpr = true := by decide
    obtain rfl : slot = .gpr (ofNat index) := by simpa [Fragment.gpr] using mem
    exact all index small
  have d : word.d < 32 := word.field_lt 21
  have a : word.a < 32 := word.field_lt 16
  cases operation with
  | addImmediate shifted =>
    rw [mem_singleton.mp mem]
    unfold Fragment.addImmediate
    split
    · exact ⟨fun _ => isGpr d, fun _ => rfl⟩
    · split <;> exact ⟨fun _ => isGpr d, fun _ => rfl⟩
  | load width signExtend update =>
    rcases mem_cons.mp mem with rfl | behind
    · exact ⟨fun _ => isGpr d, fun _ => rfl⟩
    · split at behind
      · rw [mem_singleton.mp behind]
        exact ⟨fun _ => isGpr a, fun _ => rfl⟩
      · cases behind
  | store width update =>
    rcases mem_cons.mp mem with rfl | behind
    · exact ⟨forall_mem_nil _, fun _ => rfl⟩
    · split at behind
      · rw [mem_singleton.mp behind]
        exact ⟨fun _ => isGpr a, fun _ => rfl⟩
      · cases behind
  | _ => cases leaf

/-- The words of a leaf function from an address up to its return, with their fragments. -/
inductive Callee (memory : Memory) (site : Site) : Address → List Word → Fragment → Prop
  | returns {address : Address} (read : memory.read address = .word returnWord) :
      Callee memory site address [] []
  | cons {address : Address} {word : Word} {operation : Operation} {words : List Word}
      {code : Fragment} (read : memory.read address = .word word)
      (decoded : Operation.decode word = .ok operation) (leaf : operation.isLeaf)
      (behind : Callee memory site (address + 4) words code) :
      Callee memory site address (word :: words)
        (Fragment.ofOperation { site with address } word operation ++ code)

namespace Callee

theorem isLeaf (callee : Callee memory site addr words code) : ∀ instr ∈ code, IsLeaf instr := by
  induction callee with
  | returns read => exact forall_mem_nil _
  | cons read decoded leaf behind ih =>
    exact forall_mem_append.mpr ⟨fun _ => isLeaf_of_mem_ofOperation decoded leaf, ih⟩

theorem of_calleeWords (found : calleeWords memory reads addr = .ok (some words))
    (decoded : Inlining.body site words = .ok code) :
    Callee memory site addr words code ∧ words.length < reads := by
  induction reads generalizing addr words code with
  | zero => cases found
  | succ reads ih =>
    unfold calleeWords at found
    split at found
    · cases found
    · cases found
    next word read =>
      split at found
      next isReturn =>
        cases found
        cases decoded
        exact ⟨.returns (isReturn ▸ read), Nat.succ_pos reads⟩
      · split at found
        · cases found
        next inlinable =>
          obtain ⟨behind, rest, found⟩ := of_bind_eq_ok found
          cases behind with
          | none => cases found
          | some behind =>
            cases found
            unfold Inlining.body at decoded
            split at decoded
            · cases decoded
            next operation known =>
              split at decoded
              · cases decoded
              next following others =>
                cases decoded
                obtain ⟨callee, few⟩ := ih rest others
                have leaf := isLeaf_of_isInlinable (by simpa using inlinable) known
                have placed : Fragment.ofOperation site word operation =
                    Fragment.ofOperation { site with address := addr } word operation := by
                  cases operation <;> first | rfl | cases leaf
                exact ⟨placed ▸ .cons read known leaf callee, Nat.succ_lt_succ few⟩

end Callee

theorem Inlining.ofGuest_linkAssignment (addr : Address) : OfGuest (linkAssignment addr) :=
  ⟨.spr (show Operation.isMovable 8 = true by decide), .none, .none, .none, rfl⟩

/-- What replaces a call, and the range that it covers. -/
theorem Inlining.exists_callee {range}
    (inlined : attempt memory site target = .ok (.inlined fragment range)) :
    ∃ words code, Callee memory site target words code ∧ words.length ≤ maxInline ∧
      fragment = (linkAssignment site.address :: code).map
        (fun instr => { instr with address := site.address }) ∧
      range = ⟨target, ofNat (words.length * 4 + 4)⟩ := by
  obtain ⟨words, found, inlined⟩ := of_bind_eq_ok inlined
  cases words with
  | none => cases inlined
  | some words =>
    dsimp only at inlined
    split at inlined
    · cases inlined
    next code decoded =>
      cases inlined
      obtain ⟨callee, few⟩ := Callee.of_calleeWords found decoded
      exact ⟨words, code, callee, Nat.le_of_lt_succ few, rfl, rfl⟩

theorem Inlining.plain_of_attempt {range}
    (inlined : attempt memory site target = .ok (.inlined fragment range)) :
    fragment ≠ [] ∧ range.size ≠ 0 ∧ ∀ instr ∈ fragment, instr.isPlain ∧
      instr.address = site.address ∧ OfGuest instr := by
  obtain ⟨words, code, callee, few, rfl, rfl⟩ := exists_callee inlined
  refine ⟨cons_ne_nil _ _, fun empty => ?_, forall_mem_map.mpr (forall_mem_cons.mpr ⟨?_, ?_⟩)⟩
  · have few : words.length ≤ 6 := few
    have zero : (words.length * 4 + 4) % 2 ^ 32 = 0 :=
      (toNat_ofNat' ..).symm.trans (congrArg toNat empty)
    omega
  · exact ⟨rfl, rfl, (ofGuest_linkAssignment site.address).place _⟩
  · intro original mem
    have leaf := callee.isLeaf original mem
    exact ⟨leaf.plain, rfl, leaf.toOfGuest.place _⟩

theorem Inlining.ofGuest_of_body (failed : body site words = .error code) :
    ∀ instr ∈ code, OfGuest instr := by
  induction words generalizing code with
  | nil => cases failed
  | cons word rest ih =>
    unfold body at failed
    split at failed
    · cases failed
      exact forall_mem_nil _
    next operation decoded =>
      split at failed
      next partway behind =>
        cases failed
        exact forall_mem_append.mpr ⟨fun _ mem =>
          (Fragment.emitted_of_mem_ofOperation decoded mem).toOfGuest, ih behind⟩
      · cases failed

theorem Inlining.ofGuest_of_declined (declined : attempt memory site target = .ok (.declined code))
    : ∀ instr ∈ code, OfGuest instr := by
  obtain ⟨words, found, declined⟩ := of_bind_eq_ok declined
  cases words with
  | none =>
    cases declined
    exact forall_mem_nil _
  | some words =>
    dsimp only at declined
    split at declined
    next partway failed =>
      cases declined
      exact forall_mem_cons.mpr ⟨ofGuest_linkAssignment _, ofGuest_of_body failed⟩
    · cases declined

/-! ## Calls -/

/-- A guest processor: the address of its next word, and what its words change. -/
structure Processor where
  counter : Address
  state : State Slot

namespace Processor

/-- Where a host routine continues, if it stays in guest code.  Calls put the address behind their
word into the link register. -/
def leave (state : State Slot) (exit : Instruction Slot) : Option Processor :=
  let linked := state.set (some .link) (exit.param + 4)
  match exit.routine with
  | .call => some ⟨exit.param2, linked⟩
  | .far => some ⟨exit.param2, state⟩
  | .toLink => some ⟨state.get (some .link), state⟩
  | .callLink => some ⟨state.get (some .link), linked⟩
  | .toCount => some ⟨state.get (some .count), state⟩
  | .callCount => some ⟨state.get (some .count), linked⟩
  | _ => none

/-- What the fragment of a word does, where `next` is the address behind the word. -/
def follow (next : Address) : Fragment → State Slot → Option Processor
  | [], state => some ⟨next, state⟩
  | instr :: rest, state =>
      match instr.kind with
      | .jump =>
          if state.passes instr then some ⟨instr.target, state⟩ else follow next rest state
      | .routine => leave state instr
      | _ => follow next rest (state.execute instr)

/-- What the next word of a function does. -/
def step (memory : Memory) (start stop : Address) (processor : Processor) : Option Processor :=
  let addr := processor.counter
  match memory.read addr with
  | .word word =>
      match Operation.decode word with
      | .ok operation =>
          follow (addr + 4) (.ofOperation ⟨addr, start, stop⟩ word operation) processor.state
      | .error _ => none
  | _ => none

/-- What a number of words do. -/
def run (memory : Memory) (start stop : Address) : Nat → Processor → Option Processor
  | 0, processor => some processor
  | count + 1, processor => (step memory start stop processor).bind (run memory start stop count)

theorem follow_of_plain (next : Address) (state : State Slot)
    (plain : ∀ instr ∈ code, instr.isPlain) :
    follow next code state = some ⟨next, state.run code⟩ := by
  induction code generalizing state with
  | nil => rfl
  | cons instr rest ih =>
    obtain ⟨first, others⟩ := forall_mem_cons.mp plain
    unfold Instruction.isPlain at first
    unfold follow
    split
    · simp_all
    · simp_all
    · exact ih _ others

theorem run_succ {processor after} (read : memory.read processor.counter = .word word)
    (decoded : Operation.decode word = .ok operation) (followed : follow (processor.counter + 4)
      (.ofOperation ⟨processor.counter, start, stop⟩ word operation) processor.state = some after)
    (count : Nat) :
    run memory start stop (count + 1) processor = run memory start stop count after := by
  simp only [run, step, read, decoded, followed, Option.bind_some]

end Processor

theorem Callee.run_eq (callee : Callee memory site addr words code)
    (linked : state.get (some .link) = back) :
    Processor.run memory site.start site.stop (words.length + 1) ⟨addr, state⟩ =
      some ⟨back, state.run code⟩ := by
  induction callee generalizing state with
  | returns read =>
    have decoded : Operation.decode returnWord = .ok .branchToLink := rfl
    rw [Processor.run_succ read decoded rfl]
    exact congrArg some (congrArg (Processor.mk · state) linked)
  | @cons addr word operation words code read decoded leaf behind ih =>
    have leaves {instr : Instruction Slot}
        (mem : instr ∈ Fragment.ofOperation { site with address := addr } word operation) :=
      isLeaf_of_mem_ofOperation decoded leaf mem
    have kept (state : State Slot) :
        (state.run (Fragment.ofOperation { site with address := addr } word operation)).get (some .link) =
          state.get (some .link) :=
      state.registers_run fun instr mem written => by
        cases (leaves mem).writes _ written
    rw [length_cons, Processor.run_succ read decoded
      (Processor.follow_of_plain _ state fun _ mem => (leaves mem).plain),
      ih ((kept state).trans linked), run, run, run, foldl_append]

/-- An unconditional branch that calls a target. -/
structure IsCall (site : Site) (target : Address) (word : Word) : Prop where
  decoded : Operation.decode word = .ok .branch
  links : word.links
  target_eq : word.branchTarget site.address = target

namespace IsCall

variable (call : IsCall site target word)

include call

theorem run_succ (read : memory.read site.address = .word word) (state : State Slot) (count : Nat) :
    Processor.run memory site.start site.stop (count + 1) ⟨site.address, state⟩ =
      Processor.run memory site.start site.stop count
        ⟨target, state.set (some .link) (site.address + 4)⟩ := by
  refine Processor.run_succ read call.decoded ?_ count
  simp only [Fragment.ofOperation, Fragment.branch, call.links, call.target_eq, if_true]
  rfl

/-- A call that is decoded in place records the range of its callee. -/
theorem pieces_eq {range} (read : memory.read site.address = .word word)
    (outside : site.inRange target = false)
    (inlined : Inlining.attempt memory site target = .ok (.inlined fragment range))
    (isEntry : Address → Bool) (progress : Stream.Progress) :
    ∃ piece final, pieces memory true site.start site.stop isEntry 1 site.address progress =
        .ok ([piece], final) ∧
      final.callees = progress.callees ++ [range] := by
  have fetched : fetch memory site.address = .ok (word, .branch) := by
    simp only [fetch, read, call.decoded]
  have lowered : lower memory true site word .branch =
      .ok { fragment, callee := some range, returns := false } := by
    rw [lower, call.target_eq, call.links, outside]
    exact bind_eq_of_eq_ok inlined _
  exact ⟨_, _, (bind_eq_of_eq_ok fetched _).trans (bind_eq_of_eq_ok lowered _), rfl⟩

end IsCall

theorem run_map_address (state : State Slot) (code : Fragment) (addr : Address) :
    state.run (code.map fun instr => { instr with address := addr }) = state.run code := by
  rw [run, run, foldl_map]
  rfl

/-- Inlining a call equals making it.  What replaces the call assigns the link register and does
what the words of the callee do, in order: nothing of it ends a segment, writes the link register
again, the count register or the carry, or touches a condition register field.  From every state it
leads to the one in which the processor comes back behind the call, after the call itself, the words
of the callee and the return.  The range of the callee, its return included, is recorded. -/
theorem inlining_equals_calling
    {memory : Memory}
    {site : Site}
    {target : Address}
    {fragment : Fragment}
    {range : AddressRange}
    (inlined : Inlining.attempt memory site target = .ok (.inlined fragment range)) :
    ∃ words code,
      Callee memory site target words code ∧
      words.length ≤ maxInline ∧
      fragment = (Inlining.linkAssignment site.address :: code).map
        (fun instr => { instr with address := site.address }) ∧
      (∀ instr ∈ fragment,
        instr.isSuffix = false ∧
        instr.address = site.address ∧
        ∀ field, State.touches instr field = false) ∧
      (∀ instr ∈ code, ∀ slot ∈ [Slot.link, .count, .carry], slot ∉ instr.writes) ∧
      range = ⟨target, UInt32.ofNat (words.length * 4 + 4)⟩ ∧
      (∀ word, memory.read site.address = .word word → IsCall site target word →
        (∀ state, Processor.run memory site.start site.stop (words.length + 2)
            ⟨site.address, state⟩ =
          some ⟨site.address + 4, state.run fragment⟩) ∧
        (site.inRange target = false → ∀ isEntry progress, ∃ piece final,
          Stream.pieces memory true site.start site.stop isEntry 1 site.address progress =
            .ok ([piece], final) ∧
          final.callees = progress.callees ++ [range])) := by
  obtain ⟨words, code, callee, few, placed, range_eq⟩ := Inlining.exists_callee inlined
  have plain := (Inlining.plain_of_attempt inlined).2.2
  have untouched : ∀ instr ∈ fragment, ∀ field, State.touches instr field = false := by
    rw [placed]
    refine forall_mem_map.mpr (forall_mem_cons.mpr ⟨fun _ => rfl, ?_⟩)
    exact fun instr mem => (callee.isLeaf instr mem).touches
  refine ⟨words, code, callee, few, placed, ?_, ?_, range_eq, ?_⟩
  · intro instr mem
    exact ⟨Instruction.isSuffix_of_isPlain (plain instr mem).1,
      (plain instr mem).2.1, untouched instr mem⟩
  · have special : ∀ slot ∈ [Slot.link, .count, .carry], slot.isGpr = false := by decide
    intro instr mem slot listed written
    have isGpr := (callee.isLeaf instr mem).writes slot written
    rw [special slot listed] at isGpr
    cases isGpr
  · intro word read call
    refine ⟨fun state => ?_, fun outside => call.pieces_eq read outside inlined⟩
    have linked : (state.set (some .link) (site.address + 4)).get (some .link) =
        site.address + 4 := by
      simp [State.set, State.get]
    rw [call.run_succ read, callee.run_eq linked, placed, run_map_address]
    rfl

/-- Memory with a call of a function that loads a word and adds one to it. -/
def incrementing : Memory where
  read address :=
    if address = 0x1000 then .word 0x48000011
    else if address = 0x1010 then .word 0x80630000
    else if address = 0x1014 then .word 0x38630001
    else .word 0x4E800020
  slice _ _ := .ok []

/-- The call is replaced by three instructions, which do what it, the two words of the callee and
the return do. -/
theorem incrementing_is_inlined :
    ∃ fragment, Inlining.attempt incrementing ⟨0x1000, 0x1000, 0x1004⟩ 0x1010 =
        .ok (.inlined fragment ⟨0x1010, 12⟩) ∧
      fragment.length = 3 ∧
      (∀ state, Processor.run incrementing 0x1000 0x1004 4 ⟨0x1000, state⟩ =
        some ⟨0x1004, state.run fragment⟩) ∧
      ∃ piece final, Stream.pieces incrementing true 0x1000 0x1004 (· = 0x1000) 1 0x1000 {} =
          .ok ([piece], final) ∧
        final.callees = [⟨0x1010, 12⟩] := by
  have inlined : Inlining.attempt incrementing ⟨0x1000, 0x1000, 0x1004⟩ 0x1010 =
      .ok (.inlined _ ⟨0x1010, 12⟩) := rfl
  refine ⟨_, inlined, rfl, ?_⟩
  obtain ⟨words, code, -, few, -, -, -, range_eq, called⟩ := inlining_equals_calling inlined
  have two : words.length = 2 := by
    have size := congrArg (fun range => range.size.toNat) range_eq
    simp only [maxInline] at few
    simp at size
    omega
  obtain ⟨runs, recorded⟩ := called 0x48000011 rfl ⟨rfl, rfl, rfl⟩
  rw [two] at runs
  exact ⟨runs, recorded rfl _ _⟩

end Guest
end Dynarec
