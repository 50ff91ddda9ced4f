import Dynarec.Proofs.Guest.Inlining
import Dynarec.Proofs.Stream.Binding
import Mathlib.Algebra.Group.Nat.Defs
import Mathlib.Data.List.Chain
import Mathlib.Data.List.Perm.Subperm

/-!
# Pieces of a stream

Every word of a function becomes one piece of its stream.  The pieces follow
each other without gaps, each has the form of a fragment, and all instructions of
a piece carry its address.
-/

namespace Dynarec

open Instruction List UInt32

variable {addr : Address}

namespace Stream

/-- What is known of the fragment of a word before its slots are bound. -/
structure Lowered.Fits (site : Guest.Site) (lowered : Lowered) : Prop where
  formed : Guest.Formed site lowered.fragment
  unplaced : ∀ instr ∈ lowered.fragment, instr.address = 0 ∨ instr.address = site.address
  returns : ∀ instr ∈ lowered.fragment, instr.comesBack → lowered.returns
  guest : ∀ instr ∈ lowered.fragment, Guest.OfGuest instr
  abandoned : ∀ instr ∈ lowered.abandoned, Guest.OfGuest instr
  callee : ∀ range ∈ lowered.callee, range.size ≠ 0

theorem fits_of_lower (decoded : Guest.Operation.decode word = .ok operation)
    (done : lower memory inlines site word operation = .ok lowered) : lowered.Fits site := by
  have plain {abandoned} (guest : ∀ instr ∈ abandoned, Guest.OfGuest instr) : Lowered.Fits site
      { fragment := .ofOperation site word operation, abandoned,
        returns := operation.returns word } := by
    have emitted {instr} (mem : instr ∈ Guest.Fragment.ofOperation site word operation) :=
      Guest.Fragment.emitted_of_mem_ofOperation decoded mem
    exact ⟨Guest.Fragment.formed_ofOperation site decoded,
      fun _ mem => .inl (emitted mem).unplaced, fun _ mem => (emitted mem).returns,
      fun _ mem => (emitted mem).toOfGuest, guest, nofun⟩
  unfold lower at done
  dsimp only at done
  split at done
  · obtain ⟨inlining, attempted, done⟩ := of_bind_eq_ok done
    cases inlining with
    | declined partway =>
      cases done
      exact plain (Guest.Inlining.ofGuest_of_declined attempted)
    | inlined fragment range =>
      cases done
      obtain ⟨ne_nil, size, inside⟩ := Guest.Inlining.plain_of_attempt attempted
      refine ⟨.of_plain ne_nil fun _ mem => (inside _ mem).1,
        fun _ mem => .inr (inside _ mem).2.1, ?_, fun _ mem => (inside _ mem).2.2,
        forall_mem_nil _, fun _ same => Option.mem_some.mp same ▸ size⟩
      intro instr mem comesBack
      rw [comesBack_of_isPlain (inside instr mem).1] at comesBack
      cases comesBack
  · cases done
    exact plain (forall_mem_nil _)

theorem of_fetch (fetched : fetch memory addr = .ok (word, operation)) :
    memory.read addr = .word word ∧ Guest.Operation.decode word = .ok operation := by
  unfold fetch at fetched
  split at fetched
  · cases fetched
  · cases fetched
  next read =>
    split at fetched
    · cases fetched
    next known =>
      cases fetched
      exact ⟨read, known⟩

/-- What is known of a piece by itself. -/
structure Piece.Fits (start stop : Address) (isEntry : Address → Bool) (piece : Piece) : Prop where
  formed : Guest.Formed ⟨piece.address, start, stop⟩ piece.fragment
  placed : ∀ instr ∈ piece.fragment, instr.address = piece.address
  enters : isEntry piece.address → piece.enters

/-- A piece and the one behind it.  Where control comes back, the function can be entered. -/
structure Piece.Precedes (piece next : Piece) : Prop where
  address_eq : next.address = piece.address + 4
  enters : ∀ instr ∈ piece.fragment, instr.comesBack → next.enters

theorem form_placeAt (addr : Address) (instr : Instruction Register) :
    (placeAt addr instr).form = instr.form := by
  unfold placeAt
  split <;> rfl

theorem Lowered.Fits.placed {lowered : Lowered} (fits : lowered.Fits site) (slots : List Slot) :
    let code := (bindAll slots lowered.fragment).1.map (placeAt site.address)
    Guest.Formed site code ∧ ∀ instr ∈ code,
      instr.address = site.address ∧ (instr.comesBack = true → lowered.returns = true) := by
  intro code
  have code_eq : code = lowered.fragment.map fun instr => placeAt site.address
      (instr.mapRegisters (registerIn (bindAll slots lowered.fragment).2)) :=
    (congrArg (List.map _) (bindAll_fst prefix_rfl)).trans map_map
  have form_eq : ∀ orig ∈ lowered.fragment, (placeAt site.address (orig.mapRegisters
      (registerIn (bindAll slots lowered.fragment).2))).form = orig.form := by
    intro orig mem
    rw [form_placeAt, form, shape_registerIn fun _ => mem_bindAll mem]
    rfl
  rw [code_eq]
  refine ⟨fits.formed.of_form (map_map.trans (map_congr_left form_eq)),
    forall_mem_map.mpr fun orig mem => ⟨?_, fun comesBack => ?_⟩⟩
  · unfold placeAt
    split
    · rfl
    next given => exact (fits.unplaced orig mem).resolve_left given
  · exact fits.returns orig mem
      ((congrArg Instruction.comesBack (form_eq orig mem)).symm.trans comesBack)

section

variable {count : Nat}

/-- The pieces of some words. -/
theorem pieces_spec
    (done : pieces memory inlines start stop isEntry count addr progress = .ok (list, final)) :
    list.length = count ∧ (∀ piece ∈ list, piece.Fits start stop isEntry) ∧
      (∃ new, final.callees = progress.callees ++ new ∧ ∀ range ∈ new, range.size ≠ 0) ∧
      list.IsChain Piece.Precedes ∧
      ∀ piece ∈ list.head?, piece.address = addr ∧ (progress.returned → piece.enters) := by
  induction count generalizing addr progress list with
  | zero =>
    cases done
    exact ⟨rfl, nofun, ⟨[], by simp⟩, .nil, nofun⟩
  | succ count ih =>
    obtain ⟨⟨word, operation⟩, fetched, done⟩ := of_bind_eq_ok done
    obtain ⟨lowered, lower, done⟩ := of_bind_eq_ok done
    obtain ⟨⟨rest, last⟩, more, done⟩ := of_bind_eq_ok done
    cases done
    obtain ⟨length, restFits, ⟨new, callees_eq, nonempty⟩, chain, head⟩ := ih more
    have fits := fits_of_lower (of_fetch fetched).2 lower
    obtain ⟨formed, placed⟩ := fits.placed _
    refine ⟨congrArg (· + 1) length, forall_mem_cons.mpr ⟨⟨formed, ?_, ?_⟩, restFits⟩,
      ⟨lowered.callee.toList ++ new, ?_, forall_mem_append.mpr ⟨?_, nonempty⟩⟩,
      isChain_cons.mpr ⟨?_, chain⟩, ?_⟩
    · exact fun instr mem => (placed instr mem).1
    · intro entry
      simp [entry]
    · exact callees_eq.trans (append_assoc ..)
    · exact fun range mem => fits.callee range (Option.mem_toList.mp mem)
    · intro next first
      exact ⟨(head next first).1, fun instr mem comesBack =>
        (head next first).2 ((placed instr mem).2 comesBack)⟩
    · rintro piece ⟨⟩
      refine ⟨rfl, fun returned => ?_⟩
      simp [returned]

/-- A piece with the fragment of the word at its address, whose operands are the places of their
slots in a table. -/
def Piece.BoundIn (memory : Memory) (inlines : Bool) (start stop : Address) (table : List Slot)
    (piece : Piece) : Prop :=
  ∃ word operation lowered, memory.read piece.address = .word word ∧
    Guest.Operation.decode word = .ok operation ∧
    lower memory inlines ⟨piece.address, start, stop⟩ word operation = .ok lowered ∧
    (∀ instr ∈ lowered.fragment, ∀ slot ∈ instr.operands, slot ∈ table) ∧
    piece.fragment = lowered.fragment.map fun instr =>
      placeAt piece.address (instr.mapRegisters (registerIn table))

theorem bound_of_pieces
    (done : pieces memory inlines start stop isEntry count addr progress = .ok (list, final)) :
    (∃ named ⊆ Guest.slots, final.slots = named.foldl extend progress.slots) ∧
      ∀ piece ∈ list, piece.BoundIn memory inlines start stop final.slots := by
  induction count generalizing addr progress list with
  | zero =>
    cases done
    exact ⟨⟨[], nil_subset _, rfl⟩, forall_mem_nil _⟩
  | succ count ih =>
    obtain ⟨⟨word, operation⟩, fetched, done⟩ := of_bind_eq_ok done
    obtain ⟨lowered, loweredDone, done⟩ := of_bind_eq_ok done
    obtain ⟨⟨rest, last⟩, more, done⟩ := of_bind_eq_ok done
    cases done
    obtain ⟨read, decoded⟩ := of_fetch fetched
    have fits := fits_of_lower decoded loweredDone
    obtain ⟨⟨named, guest, final_eq⟩, others⟩ := ih more
    have operands {code : Guest.Fragment} (all : ∀ instr ∈ code, Guest.OfGuest instr) :
        code.flatMap operands ⊆ Guest.slots := by
      intro slot listed
      obtain ⟨instr, mem, named⟩ := mem_flatMap.mp listed
      exact (all instr mem).mem_slots slot named
    have continues : (bindAll (bindAll progress.slots lowered.abandoned).2
        lowered.fragment).2 <+: final.slots :=
      final_eq ▸ prefix_foldl_extend _ _
    refine ⟨⟨lowered.abandoned.flatMap Instruction.operands ++
      lowered.fragment.flatMap Instruction.operands ++ named, ?_, ?_⟩,
      forall_mem_cons.mpr ⟨⟨word, operation, lowered, read, decoded, loweredDone, ?_, ?_⟩, others⟩⟩
    · exact append_subset.mpr
        ⟨append_subset.mpr ⟨operands fits.abandoned, operands fits.guest⟩, guest⟩
    · rw [final_eq, bindAll_snd, bindAll_snd, foldl_append, foldl_append]
    · exact fun instr mem slot listed =>
        continues.subset (mem_bindAll mem listed)
    · exact (congrArg (List.map _) (bindAll_fst continues)).trans map_map

variable (done : pieces memory inlines start stop isEntry count addr {} = .ok (list, final))

include done

theorem nodup_of_pieces : final.slots.Nodup := by
  obtain ⟨⟨named, -, final_eq⟩, -⟩ := bound_of_pieces done
  rw [final_eq]
  exact nodup_foldl_extend nodup_nil named

theorem subset_of_pieces : final.slots ⊆ Guest.slots := by
  obtain ⟨⟨named, guest, final_eq⟩, -⟩ := bound_of_pieces done
  intro slot listed
  rw [final_eq, mem_foldl_extend_iff] at listed
  exact listed.elim nofun fun mem => guest mem

theorem length_slots_of_pieces : final.slots.length ≤ 43 :=
  ((nodup_of_pieces done).subperm (subset_of_pieces done)).length_le

end

variable {stream : Stream}

/-- The table of a stream holds slots of guest code, each once, and its code is bound in it. -/
theorem bound_of_generate (generated : generate memory options = .ok stream) :
    stream.slots.Nodup ∧ stream.slots ⊆ Guest.slots ∧
      ∀ instr ∈ stream.instructions, instr.operands = [] ∨
        ∃ piece : Piece, instr ∈ piece.fragment ∧ piece.BoundIn memory options.inlines
          options.entry (options.entry + stream.size) stream.slots := by
  obtain ⟨size, -, done⟩ := of_bind_eq_ok generated
  obtain ⟨⟨list, final⟩, pieced, done⟩ := of_bind_eq_ok done
  have bound := (bound_of_pieces pieced).2
  dsimp only at done
  split at done
  · cases done
  · cases done
    refine ⟨nodup_of_pieces pieced, subset_of_pieces pieced, forall_mem_append.mpr
      ⟨forall_mem_flatMap.mpr fun piece mem => forall_mem_append.mpr
        ⟨fun instr mark => .inl ?_, fun instr here => .inr ⟨piece, here, ?_⟩⟩,
      fun instr closed => .inl ?_⟩⟩
    · revert instr
      refine forall_mem_append.mpr ⟨?_, ?_⟩ <;>
        split <;> simp [jumpmark, enter, operands]
    · exact bound piece mem
    · unfold closing at closed
      revert instr
      split
      · simp [jumpmark, ofRoutine, operands]
      · split <;> simp [ofRoutine, operands]

theorem ranges_of_generate (generated : generate memory options = .ok stream) :
    extent memory options = .ok stream.size ∧ ∃ callees,
      stream.ranges = ⟨options.entry, stream.size⟩ :: callees ∧
        ∀ range ∈ callees, range.size ≠ 0 := by
  obtain ⟨size, extent, done⟩ := of_bind_eq_ok generated
  obtain ⟨⟨list, final⟩, pieced, done⟩ := of_bind_eq_ok done
  obtain ⟨callees, callees_eq, nonempty⟩ := (pieces_spec pieced).2.2.1
  dsimp only at done
  split at done
  · cases done
  · cases done
    exact ⟨extent, callees, congrArg (List.cons _) callees_eq, nonempty⟩

theorem toNat_mod_four (whole : addr &&& 3 = 0) : addr.toNat % 4 = 0 := by
  have low := congrArg toNat whole
  exact (Nat.and_two_pow_sub_one_eq_mod _ 2).symm.trans low

/-- The first address behind a function. -/
def stop (stream : Stream) : Address :=
  stream.entry + stream.size

/-- The addresses that the jumps of some pieces lead to. -/
def targetsOf (list : List Piece) : List Address :=
  list.flatMap Piece.targets

structure Tiled (stream : Stream) (list : List Piece) : Prop where
  formed : ∀ piece ∈ list, Guest.Formed ⟨piece.address, stream.entry, stream.stop⟩ piece.fragment
  placed : ∀ piece ∈ list, ∀ instr ∈ piece.fragment, instr.address = piece.address
  chain : list.IsChain Piece.Precedes
  head : ∀ piece ∈ list.head?, piece.address = stream.entry ∧ piece.enters
  size_mod : stream.size.toNat % 4 = 0
  length_eq : list.length =
    if stream.entry < stream.stop then (stream.stop - stream.entry).toNat / 4 else 0
  code_eq : stream.instructions = list.flatMap (Piece.code (targetsOf list)) ++
      closing (targetsOf list) stream.stop (list.flatMap (Piece.code (targetsOf list)))

theorem size_mod_of_extent {size}
    (done : extent memory options = .ok size) : size.toNat % 4 = 0 := by
  have whole (words : UInt32) : (words * 4).toNat % 4 = 0 := by
    rw [UInt32.toNat_mul]
    have four : (4 : UInt32).toNat = 4 := rfl
    rw [four]
    omega
  unfold extent at done
  split at done
  · cases done
    exact whole _
  · obtain ⟨range, tracked, done⟩ := of_bind_eq_ok done
    cases done
    obtain ⟨visited, -, tracked⟩ := of_bind_eq_ok tracked
    split at tracked
    · cases tracked
    · cases tracked
      rw [toNat_ofNat']
      omega

theorem address_of_chain {list : List Piece} (chain : list.IsChain Piece.Precedes)
    (head : ∀ piece ∈ list.head?, piece.address = start)
    (room : start.toNat + 4 * list.length ≤ 2 ^ 32) (found : list[index]? = some piece) :
    piece.address.toNat = start.toNat + 4 * index := by
  induction list generalizing start index with
  | nil => cases found
  | cons first rest ih =>
    have here := head first rfl
    rw [length_cons] at room
    cases index with
    | zero =>
      cases found
      rw [here, Nat.mul_zero, Nat.add_zero]
    | succ index =>
      obtain ⟨next, behind⟩ := isChain_cons.mp chain
      have further : start.toNat + 4 < 2 ^ 32 := by
        have inside := (List.getElem?_eq_some_iff.mp found).1
        rw [length_cons] at inside
        omega
      have sum : (start + 4).toNat = start.toNat + 4 := by
        exact Nat.mod_eq_of_lt further
      have later := ih behind
        (fun piece first => here ▸ (next piece first).address_eq) (by omega) found
      omega

theorem room_of_length {entry size : UInt32} {length} (whole : size.toNat % 4 = 0)
    (length_eq : length = if entry < entry + size then (entry + size - entry).toNat / 4 else 0) :
    length = 0 ∨ entry.toNat + 4 * length = (entry + size).toNat := by
  split at length_eq
  next inside =>
    right
    have forward := lt_iff_toNat_lt.mp inside
    rw [UInt32.toNat_sub_of_le _ _ (UInt32.le_of_lt inside)] at length_eq
    rw [UInt32.toNat_add] at forward length_eq ⊢
    omega
  · exact .inl length_eq

namespace Tiled

variable (tiled : stream.Tiled list)

include tiled

theorem fills : list.length = 0 ∨ stream.entry.toNat + 4 * list.length = stream.stop.toNat :=
  room_of_length tiled.size_mod tiled.length_eq

theorem address_eq {index : Nat} (found : list[index]? = some piece) :
    piece.address.toNat = stream.entry.toNat + 4 * index := by
  have inside := (List.getElem?_eq_some_iff.mp found).1
  have bound := stream.stop.toNat_lt
  refine address_of_chain tiled.chain (fun piece first => (tiled.head piece first).1) ?_ found
  have filled := tiled.fills
  omega

theorem address_bounds (mem : piece ∈ list) :
    stream.entry.toNat ≤ piece.address.toNat ∧ piece.address.toNat + 4 ≤ stream.stop.toNat := by
  obtain ⟨index, found⟩ := mem_iff_getElem?.mp mem
  have inside := (List.getElem?_eq_some_iff.mp found).1
  have addr := tiled.address_eq found
  have filled := tiled.fills
  omega

theorem pairwise_address : list.Pairwise fun first second => first.address < second.address := by
  rw [pairwise_iff_getElem]
  intro i j insideI insideJ smaller
  rw [lt_iff_toNat_lt, tiled.address_eq (getElem?_eq_getElem insideI),
    tiled.address_eq (getElem?_eq_getElem insideJ)]
  omega

theorem exists_piece (lower : stream.entry ≤ addr) (upper : addr < stream.stop)
    (whole : (addr.toNat - stream.entry.toNat) % 4 = 0) : ∃ piece ∈ list, piece.address = addr := by
  have lower := le_iff_toNat_le.mp lower
  have upper := lt_iff_toNat_lt.mp upper
  have nonempty : stream.entry < stream.stop := lt_iff_toNat_lt.mpr (by omega)
  have filled : stream.entry.toNat + 4 * list.length = stream.stop.toNat := by
    have length := tiled.length_eq
    have size := tiled.size_mod
    rw [if_pos nonempty, UInt32.toNat_sub_of_le _ _ (UInt32.le_of_lt nonempty)] at length
    have sum : stream.stop.toNat = (stream.entry.toNat + stream.size.toNat) % 2 ^ 32 :=
      UInt32.toNat_add _ _
    omega
  have inside : (addr.toNat - stream.entry.toNat) / 4 < list.length := by omega
  refine ⟨list[(addr.toNat - stream.entry.toNat) / 4], getElem_mem inside, ?_⟩
  rw [← UInt32.toNat_inj, tiled.address_eq (getElem?_eq_getElem inside)]
  omega

end Tiled

/-- Every stream that is generated is made of the pieces of its words, and the addresses that were
asked for can be entered. -/
theorem exists_tiled (done : generate memory options = .ok stream) :
    ∃ list : List Piece, stream.Tiled list ∧ stream.entry = options.entry ∧
      (∀ piece ∈ list, piece.address ∈ options.entries → piece.address &&& 3 = 0 → piece.enters) ∧
      ∃ isEntry final, pieces memory options.inlines stream.entry stream.stop isEntry list.length
        stream.entry {} = .ok (list, final) ∧ final.slots = stream.slots ∧
        ∀ addr, isEntry addr → addr = stream.entry ∨ addr ∈ options.entries := by
  obtain ⟨size, extent, done⟩ := of_bind_eq_ok done
  obtain ⟨⟨list, final⟩, pieced, done⟩ := of_bind_eq_ok done
  dsimp only at done
  split at done
  · cases done
  · obtain ⟨length, fits, -, chain, head⟩ := pieces_spec pieced
    have tiled : stream.Tiled list := by
      cases done
      exact {
        formed := fun piece mem => (fits piece mem).formed
        placed := fun piece mem => (fits piece mem).placed
        chain
        head := fun piece first => ⟨(head piece first).1,
          (fits piece (mem_of_mem_head? first)).enters (by simp [(head piece first).1])⟩
        size_mod := size_mod_of_extent extent
        length_eq := length
        code_eq := rfl }
    have ends : stream.entry = options.entry ∧ stream.stop = options.entry + size ∧
        stream.slots = final.slots := by
      cases done
      exact ⟨rfl, rfl, rfl⟩
    rw [ends.1, ends.2.1, ends.2.2]
    refine ⟨list, tiled, rfl, ?_, _, final, length ▸ pieced, rfl, fun addr asked => ?_⟩
    rotate_left
    · rw [Bool.or_eq_true, Bool.and_eq_true, decide_eq_true_eq, decide_eq_true_eq] at asked
      exact asked.imp_right And.left
    intro piece mem requested aligned
    have bounds := tiled.address_bounds mem
    rw [ends.1, ends.2.1] at bounds
    have lower : options.entry ≤ piece.address := le_iff_toNat_le.mpr bounds.1
    have upper : piece.address < options.entry + size :=
      lt_iff_toNat_lt.mpr (Nat.lt_of_lt_of_le (Nat.lt_add_of_pos_right (by decide)) bounds.2)
    refine (fits piece mem).enters ?_
    simp [requested, Guest.Site.inRange, lower, upper, aligned]

end Stream
end Dynarec
