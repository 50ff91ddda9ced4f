import Dynarec.Proofs.Graph.Expansion

/-!
# Entries

A function is entered at its own address, at the words that were asked for, and
behind everything that control comes back from.  Each of these addresses keeps
exactly one segment at which it is entered, however often the passes move it,
and so does each address that a cycle check leaves for.
-/

namespace Dynarec

open Dynarec.Stream List Option

/-! ## Entries of a stream -/

variable {id : SegmentId}

namespace Stream

/-- Whether an address is a word of the function. -/
def inRange (stream : Stream) (addr : Address) : Bool :=
  Guest.Site.inRange ⟨addr, stream.entry, stream.stop⟩ addr

/-- The addresses at which a function has to be entered. -/
inductive IsEntry (options : Options) (stream : Stream) : Address → Prop where
  | first : IsEntry options stream stream.entry
  | requested {addr : Address}
      (listed : addr ∈ options.entries)
      (inside : stream.inRange addr) :
      IsEntry options stream addr
  /-- The word behind a call, an escape or a trap. -/
  | behind {instr}
      (listed : instr ∈ stream.instructions)
      (comesBack : instr.comesBack)
      (inside : stream.inRange (instr.address + 4)) :
      IsEntry options stream (instr.address + 4)

namespace Tiled

variable {stream : Stream} (tiled : stream.Tiled list)

include tiled

theorem exists_piece_of_inRange (aligned : stream.entry.toNat % 4 = 0)
    (inside : stream.inRange addr) : addr &&& 3 = 0 ∧ ∃ piece ∈ list, piece.address = addr := by
  simp only [inRange, Guest.Site.inRange, Bool.and_eq_true, decide_eq_true_eq] at inside
  obtain ⟨⟨lower, upper⟩, whole⟩ := inside
  have rest := toNat_mod_four whole
  exact ⟨whole, tiled.exists_piece lower upper (by omega)⟩

theorem enters_of_comesBack (aligned : stream.entry.toNat % 4 = 0)
    (listed : instr ∈ stream.instructions) (comesBack : instr.comesBack)
    (inside : stream.inRange (instr.address + 4)) :
    ∃ piece ∈ list, piece.address = instr.address + 4 ∧ piece.enters = true := by
  -- Neither placeholders nor the exit at the end of the stream come back.
  obtain ⟨piece, mem, guest⟩ : ∃ piece ∈ list, instr ∈ piece.fragment := by
    rw [tiled.code_eq, mem_append] at listed
    cases listed with
    | inl inPiece =>
      obtain ⟨piece, mem, inCode⟩ := mem_flatMap.mp inPiece
      refine ⟨piece, mem, ?_⟩
      rw [Piece.code, mem_append, mem_append] at inCode
      refine inCode.resolve_left ?_
      rintro (mark | mark) <;> split at mark <;>
        simp_all [Instruction.comesBack, Instruction.jumpmark, Instruction.enter]
    | inr closing =>
      unfold Stream.closing at closing
      split at closing <;> grind [Instruction.comesBack, Instruction.jumpmark,
        Instruction.ofRoutine]
  obtain ⟨index, found⟩ := mem_iff_getElem?.mp mem
  obtain ⟨-, next, nextMem, next_eq⟩ := tiled.exists_piece_of_inRange aligned inside
  obtain ⟨nextIndex, nextFound⟩ := mem_iff_getElem?.mp nextMem
  refine ⟨next, nextMem, next_eq, ?_⟩
  rw [tiled.placed piece mem instr guest] at next_eq
  have behind : nextIndex = index + 1 := by
    have addr := tiled.address_eq found
    have nextAddress := tiled.address_eq nextFound
    have bounds := tiled.address_bounds mem
    have bound := stream.stop.toNat_lt
    have sum : next.address.toNat = (piece.address.toNat + 4) % 2 ^ 32 := by
      rw [next_eq]
      exact UInt32.toNat_add _ _
    omega
  subst behind
  obtain ⟨inBounds, nextGet⟩ := List.getElem?_eq_some_iff.mp nextFound
  obtain ⟨_, get⟩ := List.getElem?_eq_some_iff.mp found
  have precedes := isChain_iff_getElem.mp tiled.chain index inBounds
  rw [get, nextGet] at precedes
  exact precedes.enters instr guest comesBack

end Tiled

theorem IsEntry.cases (generated : generate memory options = .ok stream)
    (aligned : stream.entry.toNat % 4 = 0) :
    ∃ list, stream.Tiled list ∧ ∀ addr, IsEntry options stream addr →
      addr = stream.entry ∨ ∃ piece ∈ list, piece.address = addr ∧ piece.enters = true := by
  obtain ⟨list, tiled, -, requested, -⟩ := exists_tiled generated
  refine ⟨list, tiled, fun addr isEntry => ?_⟩
  cases isEntry with
  | first => exact .inl rfl
  | requested listed inside =>
    obtain ⟨whole, piece, mem, rfl⟩ := tiled.exists_piece_of_inRange aligned inside
    exact .inr ⟨piece, mem, rfl, requested piece mem listed whole⟩
  | behind listed comesBack inside =>
    exact .inr (tiled.enters_of_comesBack aligned listed comesBack inside)

end Stream

namespace Graph

variable {g : Graph}

/-! ## Where segments begin -/

/-- The segment begins with the first instruction of a guest address. -/
def BeginsAt (g : Graph) (id : SegmentId) (addr : Address) : Prop :=
  id ∈ g.order ∧
    (g.segment id).instructions.head?.map Instruction.origin = some addr ∧
    ∀ earlier ∈ g.order, earlier < id →
      ∀ instr ∈ (g.segment earlier).instructions, instr.origin ≠ addr

theorem BeginsAt.address_eq (begins : g.BeginsAt id addr)
    (otherBegins : g.BeginsAt id other) : addr = other :=
  some.inj (begins.2.1.symm.trans otherBegins.2.1)

theorem BeginsAt.id_eq (begins : g.BeginsAt id addr)
    (otherBegins : g.BeginsAt other addr) : id = other := by
  have listed {id} (begins : g.BeginsAt id addr) :
      ∃ first ∈ (g.segment id).instructions, first.origin = addr := by
    obtain ⟨first, head, origin⟩ := map_eq_some_iff.mp begins.2.1
    exact ⟨first, mem_of_mem_head? head, origin⟩
  rcases Nat.lt_trichotomy id other with less | equal | greater
  · obtain ⟨first, mem, origin⟩ := listed begins
    exact absurd origin (otherBegins.2.2 id begins.1 less first mem)
  · exact equal
  · obtain ⟨first, mem, origin⟩ := listed otherBegins
    exact absurd origin (begins.2.2 other otherBegins.1 greater first mem)

theorem IsBase.beginsAt (isBase : IsBase code base) {stop} (arranged : Arranged stop code)
    (mem : id ∈ base.order) (opens : (base.segment id).opens) :
    base.BeginsAt id (startAt code id) := by
  obtain ⟨run, found, start⟩ := isBase.exists_run mem
  have isRun := isRun_of_mem arranged (mem_of_getElem? found)
  refine ⟨mem, ?_, fun earlier earlierMem before instr listed origin => ?_⟩
  · obtain ⟨first, rest, body_eq⟩ := exists_cons_of_ne_nil isRun.ne_nil
    rw [isBase.code_eq found, start, body_eq]
    exact congrArg some (isRun.origin_head first (by rw [body_eq]; rfl))
  · obtain ⟨earlierRun, earlierFound, -⟩ := isBase.exists_run earlierMem
    obtain ⟨first, firstListed, first_eq⟩ :=
      exists_of_startOf (ne_nil_of_mem_splitBy (mem_of_getElem? found))
    rw [isBase.code_eq earlierFound] at listed
    have less := isBase.origin_lt arranged earlierFound found before opens instr
      (mem_of_mem_filter listed) first firstListed
    rw [origin, start, first_eq] at less
    exact UInt32.lt_irrefl _ less

theorem IsBase.exists_enterable {stream : Stream} (isBase : IsBase (stream.trimmed list) g)
    (arranged : Arranged stream.stop (stream.trimmed list)) (mem : piece ∈ list)
    (enters : piece.enters) :
    ∃ id ∈ g.order, (g.segment id).enterable ∧
      startAt (stream.trimmed list) id = piece.address := by
  have mark : .enter piece.address ∈ stream.trimmed list := by
    refine mem_trimmed_iff.mpr (.inl ⟨piece, mem, mem_append_right _ ?_⟩)
    rw [if_pos enters]
    exact mem_singleton_self _
  obtain ⟨run, runListed, markListed⟩ := mem_iff_exists_run.mp mark
  obtain ⟨id, found⟩ := mem_iff_getElem?.mp runListed
  have idMem : id ∈ g.order := by
    rw [isBase.order_eq, mem_range]
    exact (List.getElem?_eq_some_iff.mp found).1
  refine ⟨id, idMem, ?_, ?_⟩
  · have marked : isMarked .enter run :=
      any_eq_true.mpr ⟨_, markListed, by simp [Instruction.enter]⟩
    rw [isBase.enterable_eq found, marked, Bool.or_true]
  · rw [startAt, found]
    exact ((isRun_of_mem arranged runListed).origin_mark _ markListed rfl).symm

/-! ## Segments that lead to others -/

inductive Leads (start g : Graph) : SegmentId → SegmentId → Prop where
  | direct {id : SegmentId}
      (orig : id ∈ start.order) :
      Leads start g id id
  | trampoline {entry id}
      (orig : id ∈ start.order)
      (entryNew : entry ∉ start.order)
      (entry_eq : (g.segment entry).instructions = [.segmentJump])
      (entered : (g.segment entry).taken = some id) :
      Leads start g entry id
  | guarded {entry guard id}
      {name}
      (orig : id ∈ start.order)
      (entryNew : entry ∉ start.order)
      (guardNew : guard ∉ start.order)
      (entry_eq : (g.segment entry).instructions = [.segmentJump])
      (entered : (g.segment entry).taken = some guard)
      (guard_eq : (g.segment guard).instructions = [.cycleCheck name])
      (continues : (g.segment guard).taken = some id) :
      Leads start g entry id

theorem Leads.eq_of_original {entry} (leads : Leads base g entry id)
    (orig : entry ∈ base.order) : entry = id := by
  cases leads with
  | direct => rfl
  | trampoline _ entryNew => exact absurd orig entryNew
  | guarded _ entryNew => exact absurd orig entryNew

/-- What leads to a segment does so in a graph that keeps the segments in between. -/
theorem Leads.congr {after entry} (leads : Leads base g entry id)
    (numbered : g.Numbered) (mem : entry ∈ g.order)
    (code_eq : ∀ {source}, source ∈ g.order →
      (after.segment source).instructions = (g.segment source).instructions)
    (taken : ∀ {source next}, source ∈ g.order → next = id ∨ next ∉ base.order →
      (g.segment source).link true = some next →
      (after.segment source).link true = some next) : Leads base after entry id := by
  cases leads with
  | direct orig => exact .direct orig
  | trampoline orig entryNew entry_eq entered =>
    exact .trampoline orig entryNew ((code_eq mem).trans entry_eq) (taken mem (.inl rfl) entered)
  | guarded orig entryNew guardNew entry_eq entered guard_eq continues =>
    have linked : (g.segment entry).link true = some _ := entered
    have guardMem := numbered.link_mem mem linked
    exact .guarded orig entryNew guardNew ((code_eq mem).trans entry_eq)
      (taken mem (.inr guardNew) entered) ((code_eq guardMem).trans guard_eq)
      (taken guardMem (.inl rfl) continues)

/-- The entries of a graph are apart, and each leads to the segment that begins at its address. -/
structure EntriesKept (start g : Graph) : Prop where
  originals : ∀ {id}, id ∈ start.order → id ∈ g.order
  distinct : ∀ {id other}, id ∈ g.order → other ∈ g.order →
    (g.segment id).enterable → (g.segment other).enterable →
    (g.segment id).enterAddress = (g.segment other).enterAddress → id = other
  leads : ∀ {id}, id ∈ g.order → (g.segment id).enterable →
    ∃ begun, start.BeginsAt begun (g.segment id).enterAddress ∧ Leads start g id begun
  alone : ∀ {id}, id ∈ g.order → id ∉ start.order → (g.segment id).enterable → g.IsUnreached id

/-- Loop bodies that nothing but their own entries leads to. -/
structure Unguarded (start g : Graph) (pending : List (SegmentId × Nat)) : Prop where
  nodup : (pending.map Prod.fst).Nodup
  entered : ∀ loop ∈ pending, (g.segment loop.1).enterable →
    (g.segment loop.1).enterAddress = (g.segment loop.1).lowest
  begins : ∀ loop ∈ pending, start.BeginsAt loop.1 (g.segment loop.1).lowest
  own : ∀ loop ∈ pending, ∀ id ∈ g.order, (g.segment id).enterable →
    (g.segment id).enterAddress = (g.segment loop.1).lowest → id = loop.1

theorem EntriesKept.not_original (kept : EntriesKept base g) (numbered : g.Numbered)
    (new : g.nextId ≤ id) : id ∉ base.order :=
  fun orig => absurd (numbered.inside (kept.originals orig)) (Nat.not_lt.mpr new)

/-- Entries stay apart if the one that was moved keeps an address of its own. -/
theorem EntryMoved.distinct {after}
    (moved : g.EntryMoved after old new address) (kept : EntriesKept base g)
    (own : ∀ id ∈ g.order, (g.segment id).enterable →
      (g.segment id).enterAddress = address → id = old) {id other}
    (mem : id ∈ after.order) (otherMem : other ∈ after.order)
    (enterable : (after.segment id).enterable) (otherEnterable : (after.segment other).enterable)
    (same : (after.segment id).enterAddress = (after.segment other).enterAddress) : id = other := by
  rcases moved mem enterable with ⟨stays, different, known, here⟩ | ⟨rfl, here⟩ <;>
    rcases moved otherMem otherEnterable with
      ⟨otherStays, otherDifferent, otherKnown, there⟩ | ⟨rfl, there⟩
  · exact kept.distinct stays otherStays known otherKnown (here.symm.trans (same.trans there))
  · exact absurd (own id stays known (here.symm.trans (same.trans there))) different
  · exact absurd (own other otherStays otherKnown (there.symm.trans (same.symm.trans here)))
      otherDifferent
  · rfl

namespace LoopGuarded

variable {after : Graph} (guarded : g.LoopGuarded body (loopName number) after)

include guarded

/-- The entries after a loop body was put behind a guard. -/
theorem entryMoved (entered : (g.segment body).enterable →
      (g.segment body).enterAddress = (g.segment body).lowest) :
    g.EntryMoved after body (g.nextId + 2) (g.segment body).lowest := by
  intro id mem enterable
  rcases guarded.mem_cases mem with old | rfl | rfl | rfl
  · by_cases same : id = body
    · subst same
      rw [guarded.body_eq.enterable_eq] at enterable
      cases enterable
    · have fields := guarded.others_eq id old same
      exact .inl ⟨old, same, fields.enterable_eq ▸ enterable, fields.enterAddress_eq⟩
  · rw [guarded.guard_eq.enterable_eq] at enterable
    cases enterable
  · rw [guarded.leave_eq.enterable_eq] at enterable
    cases enterable
  · refine .inr ⟨rfl, guarded.entry_eq.enterAddress_eq.trans ?_⟩
    cases wasEnterable : (g.segment body).enterable with
    | false => simp [asLoopEntry, wasEnterable]
    | true => simp [asLoopEntry, wasEnterable, entered wasEnterable]

theorem entriesKept (numbered : g.Numbered)
    (unguarded : base.Unguarded g ((body, number) :: rest)) (kept : EntriesKept base g) :
    EntriesKept base after := by
  have moved := guarded.entryMoved (unguarded.entered (body, number) mem_cons_self)
  have begins := unguarded.begins (body, number) mem_cons_self
  have own := unguarded.own (body, number) mem_cons_self
  refine ⟨fun orig => guarded.mem_order_iff.mpr (.inl (kept.originals orig)),
    moved.distinct kept own, ?_, ?_⟩
  · intro id mem enterable
    rcases moved mem enterable with ⟨old, different, known, addr⟩ | ⟨rfl, addr⟩
    · obtain ⟨begun, begunThere, leads⟩ := kept.leads old known
      refine ⟨begun, addr ▸ begunThere, leads.congr numbered old guarded.code_eq ?_⟩
      intro source next sourceMem next_eq linked
      have elsewhere : next ≠ body := by
        rintro rfl
        cases next_eq with
        | inl same =>
          subst same
          exact different (own id old known (begunThere.address_eq begins))
        | inr new => exact new begins.1
      rw [guarded.link_eq source sourceMem, linked, if_neg (by simpa using elsewhere)]
    · have guard : (after.segment g.nextId).instructions = [.cycleCheck (loopName number)] :=
        guarded.guard_eq.code_eq
      exact ⟨body, addr ▸ begins, .guarded begins.1 (kept.not_original numbered (by lia))
        (kept.not_original numbered (Nat.le_refl _))
        guarded.entry_eq.code_eq (guarded.entry_link true)
        guard (guarded.guard_link true)⟩
  · intro id mem new enterable source sourceMem side linked
    rcases moved mem enterable with ⟨old, different, known, -⟩ | ⟨rfl, -⟩
    · have inside : id < g.nextId := numbered.inside old
      cases guarded.link_cases sourceMem linked with
      | continues => exact different rfl
      | kept before linked _ => exact kept.alone old new known source before side linked
      | _ => lia
    · generalize entry_eq : g.nextId + 2 = entry at linked
      cases guarded.link_cases sourceMem linked with
      | continues => exact new (entry_eq ▸ begins.1)
      | kept before linked _ =>
        have inside : entry < g.nextId := numbered.inside (numbered.link_mem before linked)
        lia
      | _ => lia

theorem unguarded (kept : EntriesKept base g)
    (unguarded : base.Unguarded g ((body, number) :: rest)) : base.Unguarded after rest := by
  have begins {loop} (listed : loop ∈ rest) := unguarded.begins loop (mem_cons_of_mem _ listed)
  have apart {loop} (listed : loop ∈ rest) : loop.1 ≠ body := ne_of_nodup_fst unguarded.nodup listed
  have same {loop} (listed : loop ∈ rest) :=
    guarded.others_eq loop.1 (kept.originals (begins listed).1) (apart listed)
  refine ⟨(nodup_cons.mp unguarded.nodup).2, fun loop listed enterable => ?_,
    fun loop listed => ?_, fun loop listed id mem enterable equal => ?_⟩
  · rw [(same listed).enterAddress_eq, (same listed).lowest_eq]
    exact unguarded.entered loop (mem_cons_of_mem _ listed)
      ((same listed).enterable_eq.symm.trans enterable)
  · rw [(same listed).lowest_eq]
    exact begins listed
  · rw [(same listed).lowest_eq] at equal
    have moved := guarded.entryMoved (unguarded.entered (body, number) mem_cons_self)
    rcases moved mem enterable with ⟨old, -, known, addr⟩ | ⟨-, addr⟩
    · exact unguarded.own loop (mem_cons_of_mem _ listed) id old known (addr.symm.trans equal)
    · -- Both loop bodies would begin at one address.
      have both := begins listed
      rw [← equal, addr] at both
      exact absurd (both.id_eq (unguarded.begins (body, number) mem_cons_self)) (apart listed)

end LoopGuarded

namespace EntryIsolated

variable {entry : SegmentId} {after : Graph} (isolated : g.EntryIsolated entry after)

include isolated

theorem entriesKept (tied : g.Tied) (mem : entry ∈ g.order)
    (enterable : (g.segment entry).enterable) (reached : (g.segment entry).prev ≠ [])
    (kept : EntriesKept base g) : EntriesKept base after := by
  -- What is not there from the start is not reached, and gets no trampoline.
  have orig : entry ∈ base.order := by
    by_contra new
    exact reached ((kept.alone mem new enterable).prev_eq_nil tied mem)
  refine ⟨fun orig => isolated.mem_order_iff.mpr (.inl (kept.originals orig)),
    isolated.entryMoved.distinct kept fun id old known => kept.distinct old mem known enterable,
    ?_, ?_⟩
  · intro id idMem idEnterable
    rcases isolated.entryMoved idMem idEnterable with ⟨old, -, known, addr⟩ | ⟨rfl, addr⟩
    · obtain ⟨begun, begunThere, leads⟩ := kept.leads old known
      exact ⟨begun, addr ▸ begunThere, leads.congr tied.numbered old isolated.code_eq
        fun sourceMem _ linked => (isolated.link_eq _ sourceMem true).trans linked⟩
    · obtain ⟨begun, begunThere, leads⟩ := kept.leads mem enterable
      obtain rfl := leads.eq_of_original orig
      exact ⟨entry, addr ▸ begunThere, .trampoline orig
        (kept.not_original tied.numbered (Nat.le_refl _)) isolated.instructions_trampoline
        (isolated.trampoline_link true)⟩
  · intro id idMem new idEnterable source sourceMem side linked
    rcases isolated.entryMoved idMem idEnterable with ⟨old, different, known, -⟩ | ⟨rfl, -⟩
    · rcases isolated.link_cases sourceMem linked with ⟨sourceOld, before⟩ | ⟨-, -, toEntry⟩
      · exact kept.alone old new known source sourceOld side before
      · exact different toEntry
    · rcases isolated.link_cases sourceMem linked with ⟨sourceOld, before⟩ | ⟨-, -, toEntry⟩
      · exact absurd (tied.numbered.inside (tied.numbered.link_mem sourceOld before))
          (Nat.lt_irrefl _)
      · exact new (toEntry ▸ orig)

end EntryIsolated

theorem Alike.entriesKept (alike : g.Alike other) (numbered : g.Numbered)
    (kept : EntriesKept base g) : EntriesKept base other := by
  have same id := alike.content_eq id
  refine ⟨fun orig => alike.order_eq ▸ kept.originals orig, ?_, ?_, ?_⟩
  · intro id second mem secondMem enterable secondEnterable equal
    rw [(same id).enterAddress_eq, (same second).enterAddress_eq] at equal
    exact kept.distinct (alike.order_eq ▸ mem) (alike.order_eq ▸ secondMem)
      ((same id).enterable_eq ▸ enterable) ((same second).enterable_eq ▸ secondEnterable) equal
  · intro id mem enterable
    rw [(same id).enterable_eq] at enterable
    obtain ⟨begun, begins, leads⟩ := kept.leads (alike.order_eq ▸ mem) enterable
    exact ⟨begun, (same id).enterAddress_eq ▸ begins,
      leads.congr numbered (alike.order_eq ▸ mem) (fun _ => (same _).code_eq)
        fun _ _ linked => (alike.link_eq _ true).trans linked⟩
  · intro id mem new enterable source sourceMem side
    rw [alike.link_eq]
    rw [(same id).enterable_eq] at enterable
    exact kept.alone (alike.order_eq ▸ mem) new enterable source (alike.order_eq ▸ sourceMem) side

theorem EntriesKept.passes (kept : EntriesKept base g) (tied : g.Tied)
    (unguarded : base.Unguarded g g.loops.zipIdx) :
    EntriesKept base g.guardLoops.isolateEntries.detectLoops := by
  let Guarding (g : Graph) (pending : List (SegmentId × Nat)) : Prop :=
    base.Unguarded g pending ∧ EntriesKept base g
  refine (expansion_induction Guarding tied ⟨unguarded, kept⟩ ?_ (·.2)
    (fun tied mem enterable reached isolated kept =>
      isolated.entriesKept tied mem enterable reached kept)
    fun numbered alike kept => alike.entriesKept numbered kept).2
  intro before id number rest after numbered mem guarded ⟨unguarded, kept⟩
  exact ⟨guarded.unguarded kept unguarded, guarded.entriesKept numbered unguarded kept⟩

namespace Prepared

variable (prepared : Prepared stream list base g) (tiled : stream.Tiled list)

include prepared tiled

theorem beginsAt (mem : id ∈ g.order) (opens : (g.segment id).opens) :
    base.BeginsAt id (startAt (stream.trimmed list) id) := by
  rw [prepared.kept.order_eq] at mem
  exact prepared.isBase.beginsAt tiled.arranged mem ((prepared.kept.each id mem).opens opens)

theorem entriesKept : EntriesKept base g := by
  have order_eq := prepared.kept.order_eq
  have opens {id} (enterable : (g.segment id).enterable) : (g.segment id).opens := by
    rw [Segment.opens, enterable, Bool.true_or, Bool.true_or]
  refine ⟨fun orig => order_eq ▸ orig, ?_, ?_, ?_⟩
  · intro id other mem otherMem enterable otherEnterable same
    rw [prepared.entered id mem enterable, prepared.entered other otherMem otherEnterable] at same
    exact eq_of_opens prepared.laid.opens mem otherMem (opens enterable) (opens otherEnterable) same
  · intro id mem enterable
    rw [prepared.entered id mem enterable]
    exact ⟨id, prepared.beginsAt tiled mem (opens enterable), .direct (order_eq ▸ mem)⟩
  · intro id mem new
    exact absurd (order_eq ▸ mem) new

theorem entersAt (bounded : stream.Bounded) (covered : addr = stream.entry ∨
      ∃ piece ∈ list, piece.address = addr ∧ piece.enters) : g.EntersAt addr := by
  obtain ⟨id, mem, enterable, rfl⟩ : ∃ id ∈ base.order,
      (base.segment id).enterable ∧ startAt (stream.trimmed list) id = addr := by
    rcases covered with rfl | ⟨piece, pieceMem, rfl, enters⟩
    · have mem := prepared.isBase.zero_mem tiled.trimmed_ne_nil
      obtain ⟨run, found, -⟩ := prepared.isBase.exists_run mem
      exact ⟨0, mem, prepared.isBase.enterable_eq found,
        prepared.isBase.start_zero tiled bounded mem⟩
    · exact prepared.isBase.exists_enterable tiled.arranged pieceMem enters
  have graphMem : id ∈ g.order := prepared.kept.order_eq ▸ mem
  have graphEnterable := (prepared.kept.each id mem).enterable_eq.trans enterable
  exact ⟨id, graphMem, graphEnterable, prepared.entered id graphMem graphEnterable⟩

theorem unguarded : base.Unguarded g g.loops.zipIdx := by
  have loop {loop} (pending : loop ∈ g.loops.zipIdx) : loop.1 ∈ g.order ∧ (g.segment loop.1).opens ∧
        (g.segment loop.1).lowest = startAt (stream.trimmed list) loop.1 := by
    have listed := mem_of_getElem? (mem_zipIdx_iff_getElem?.mp pending)
    have mem := mem_of_mem_filter listed
    have jumps := isSome_jumpTarget?_of_mem_loops listed
    obtain ⟨target, target_eq⟩ := isSome_iff_exists.mp jumps
    exact ⟨mem, by rw [Segment.opens, jumps, Bool.or_true], (prepared.laid.lowest mem target_eq).1⟩
  refine ⟨?_, fun first pending enterable => ?_, fun first pending => ?_,
    fun first pending id mem enterable same => ?_⟩
  · rw [zipIdx_map_fst]
    exact prepared.laid.numbered.nodup_order.filter _
  · obtain ⟨mem, -, lowest⟩ := loop pending
    rw [lowest, prepared.entered _ mem enterable]
  · obtain ⟨mem, opens, lowest⟩ := loop pending
    rw [lowest]
    exact prepared.beginsAt tiled mem opens
  · obtain ⟨loopMem, opens, lowest⟩ := loop pending
    rw [prepared.entered id mem enterable, lowest] at same
    exact eq_of_opens prepared.laid.opens mem loopMem (by simp [Segment.opens, enterable]) opens same

end Prepared

/-- An address that a cycle check leaves for. -/
def IsResumed (g : Graph) (addr : Address) : Prop :=
  ∃ guard ∈ g.order, ∃ last leave, (g.segment guard).last? = some last ∧
    last.kind = .cycleCheck ∧ (g.segment guard).notTaken = some leave ∧
    (g.segment leave).instructions = [.ofRoutine .leave addr 0]

/-- No two entries of a graph that was built have one address.  Wherever the function has to be
entered, and wherever a cycle check leaves for, exactly one segment is entered, nothing else leads
there, and it leads to the segment of the stream that begins at the address. -/
theorem entries_survive
    {memory : Memory}
    {options : Stream.Options}
    {stream : Stream}
    (generated : Stream.generate memory options = .ok stream)
    (bounded : stream.Bounded)
    {buildOptions : BuildOptions}
    {graph : Graph}
    (built : build stream buildOptions = .ok graph) :
    (∀ id ∈ graph.order, ∀ other ∈ graph.order, (graph.segment id).enterable = true →
      (graph.segment other).enterable = true →
      (graph.segment id).enterAddress = (graph.segment other).enterAddress → id = other) ∧
    ∃ base, ofStream stream = .ok base ∧
      ∀ address, stream.IsEntry options address ∨ graph.IsResumed address →
        ∃ entry ∈ graph.order, (graph.segment entry).enterable = true ∧
          (graph.segment entry).enterAddress = address ∧
          (∀ other ∈ graph.order, (graph.segment other).enterable = true →
            (graph.segment other).enterAddress = address → other = entry) ∧
          (graph.segment entry).prev = [] ∧ graph.IsUnreached entry ∧
          ∃ begun, base.BeginsAt begun address ∧ Leads base graph entry begun := by
  obtain ⟨list, tiled, cases⟩ := Stream.IsEntry.cases generated bounded.aligned
  have tied := tied_of_build built
  obtain ⟨base, made, rfl, valid⟩ := of_build_eq_ok built
  have checked := (error?_eq_none_iff tied).mp valid
  have prepared := prepared_of_bounded tiled bounded made buildOptions
  have kept := (prepared.entriesKept tiled).passes prepared.laid.toTied (prepared.unguarded tiled)
  obtain ⟨-, admits⟩ := expands_passes prepared.laid.toTied
  rw [← passes_eq] at kept admits
  refine ⟨fun id member other otherMember => kept.distinct member otherMember, base, made, ?_⟩
  intro address required
  obtain ⟨entry, member, enterable, entered⟩ : (base.passes buildOptions).EntersAt address := by
    cases required with
    | inl isEntry => exact admits.covers (prepared.entersAt tiled bounded (cases address isEntry))
    | inr isResumed =>
        obtain ⟨guard, member, last, leave, last_eq, kind_eq, linked, leave_eq⟩ := isResumed
        obtain ⟨other, final, otherLinked, final_eq, -, -, entered⟩ :=
          checked.resumes member last last_eq kind_eq
        cases Option.some.inj (linked.symm.trans otherLinked)
        rw [Segment.last?, leave_eq] at final_eq
        cases final_eq
        exact entered
  have unreached := checked.entered member enterable
  obtain ⟨begun, begins, leads⟩ := kept.leads member enterable
  rw [entered] at begins
  refine ⟨entry, member, enterable, entered, fun other otherMember otherEnterable same => ?_,
    unreached.prev_eq_nil tied member, unreached, begun, begins, leads⟩
  exact kept.distinct otherMember member otherEnterable enterable (same.trans entered.symm)

theorem saving_is_entered :
    ∃ stream graph, Stream.generate saving { entry := 0x1000, count := 6 } = .ok stream ∧
      stream.Bounded ∧ build stream {} = .ok graph ∧
      ∃ base, ofStream stream = .ok base ∧ ∃ entry ∈ graph.order,
        (graph.segment entry).enterAddress = stream.entry ∧ (graph.segment entry).prev = [] ∧
        ∃ begun, base.BeginsAt begun stream.entry ∧ Leads base graph entry begun := by
  obtain ⟨stream, graph, generated, fits, built, -⟩ := exists_saving
  obtain ⟨-, base, made, each⟩ := entries_survive generated fits.bounded built
  obtain ⟨entry, member, -, address, -, alone, -, leads⟩ := each stream.entry (.inl .first)
  exact ⟨stream, graph, generated, fits.bounded, built, base, made, entry, member, address, alone,
    leads⟩

end Graph
end Dynarec
