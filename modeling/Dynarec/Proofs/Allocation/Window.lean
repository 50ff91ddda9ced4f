import Dynarec.Proofs.Allocation.Coherence
import Dynarec.Proofs.Graph.Links
import Mathlib.Data.List.Chain

/-!
# Windows of a register

The windows of a graph are only ever extended to the exit of a segment that
has links or to the entry of a segment that a link leads to.  So every window
keeps fitting the accesses of its register, and a register that is kept from the
entry of a segment on is kept up to the exit of all sources of the segment.
-/

namespace Dynarec

open List Option Position Segment Window

namespace Window

variable {locations : List Location} {window : Window}

/-- How a window fits the accesses of its register in a segment. -/
inductive Frames (window : Window) (locations : List Location) : Prop
  | absent (undefined : window = .undefined) (unused : locations = [])
  | present (defined : window.isDefined) (fits : Fits window.start window.stop locations)

theorem isDefined_of_entry (entry : window.start = .atEntry) : window.isDefined = true := by
  rw [isDefined, entry]
  rfl

theorem Frames.isDefined_of_exit (frames : window.Frames locations) (exit : window.stop = .atExit) :
    window.isDefined := by
  cases frames with
  | absent undefined _ =>
    rw [undefined] at exit
    exact absurd exit (by decide)
  | present defined _ => exact defined

theorem Frames.toExit (frames : window.Frames locations) : window.toExit.Frames locations := by
  cases frames with
  | absent undefined unused =>
    subst undefined
    exact .present rfl ⟨Or.inr (Or.inl ⟨rfl, rfl, unused⟩), Or.inl rfl⟩
  | present defined fits =>
    rw [Window.toExit, if_pos defined]
    refine .present defined ⟨?_, Or.inl rfl⟩
    rcases fits.start_fits with entry | ⟨exit, _, unused⟩ | first
    · exact Or.inl entry
    · exact Or.inr (Or.inl ⟨exit, rfl, unused⟩)
    · exact Or.inr (Or.inr first)

theorem Frames.fromEntry (frames : window.Frames locations) :
    window.fromEntry.Frames locations := by
  cases frames with
  | absent undefined unused =>
    subst undefined
    exact .present rfl ⟨Or.inl rfl, Or.inr (Or.inl ⟨rfl, unused, Or.inl rfl⟩)⟩
  | present defined fits =>
    rw [Window.fromEntry, if_pos defined]
    refine .present rfl ⟨Or.inl rfl, ?_⟩
    rcases fits.stop_fits with exit | ⟨_, unused, zero⟩ | last
    · exact Or.inl exit
    · exact Or.inr (Or.inl ⟨rfl, unused, zero⟩)
    · exact Or.inr (Or.inr last)

@[simp] theorem toExit_toExit (window : Window) : window.toExit.toExit = window.toExit := by
  cases defined : window.isDefined <;> simp_all [toExit, isDefined]

theorem entry_toExit_iff : window.toExit.start = .atEntry ↔ window.start = .atEntry := by
  unfold toExit
  split
  · rfl
  next absent =>
    exact ⟨fun entry => absurd entry (by decide), fun entry =>
      absurd (isDefined_of_entry entry) absent⟩

theorem Frames.exit_fromEntry_iff (frames : window.Frames locations) :
    window.fromEntry.stop = .atExit ↔ window.stop = .atExit := by
  unfold Window.fromEntry
  split
  · rfl
  next absent =>
    exact ⟨fun exit => absurd exit (by decide), fun exit =>
      absurd (frames.isDefined_of_exit exit) absent⟩

theorem ofLocations_cases (locations : List Location) :
    (locations = [] ∧ ofLocations locations = undefined) ∨
      ∃ first last, locations.head? = some first ∧ locations.getLast? = some last ∧
        ofLocations locations = ⟨first.index, last.index + 1⟩ := by
  cases head : locations.head? with
  | none =>
    have unused := head?_eq_none_iff.mp head
    subst unused
    exact Or.inl ⟨rfl, rfl⟩
  | some first =>
    have accesses : locations ≠ [] := by
      rintro rfl
      simp at head
    obtain ⟨last, final⟩ := isSome_iff_exists.mp (getLast?_isSome.mpr accesses)
    exact Or.inr ⟨first, last, rfl, final, by simp only [ofLocations, head, final]⟩

theorem frames_ofLocations (bounds : ∀ loc ∈ locations, 0 ≤ loc.index ∧ loc.index + 1 < atExit) :
    (ofLocations locations).Frames locations ∧
      (ofLocations locations).start ≠ .atEntry ∧ (ofLocations locations).stop ≠ .atExit := by
  rcases ofLocations_cases locations with ⟨unused, equal⟩ | ⟨first, last, head, final, equal⟩
  · rw [equal]
    exact ⟨.absent rfl unused, by decide, by decide⟩
  · have firstBounds := bounds first (mem_of_mem_head? head)
    have lastBounds := bounds last (mem_of_getLast? final)
    rw [equal]
    refine ⟨.present ?_ ?_, ?_, Int.ne_of_lt lastBounds.2⟩
    · simp only [isDefined, undefined, ne_eq]
      simp only [atExit] at firstBounds
      lia
    · exact ⟨Or.inr (Or.inr ⟨first, head, rfl⟩), Or.inr (Or.inr ⟨last, final, rfl⟩)⟩
    · simp only [atEntry]
      lia

end Window

namespace Liveness

variable {liveness : Liveness}

/-- Every segment has a window for every register of the table. -/
structure Shaped (liveness : Liveness) : Prop where
  size_eq : liveness.windows.size = liveness.graph.segments.size
  row_size : ∀ {id : Nat} {row}, liveness.windows[id]? = some row →
    row.size = liveness.graph.slots.length

theorem Shaped.modify (shaped : liveness.Shaped) (id : SegmentId) (reg : Nat)
    (change : Window → Window) : (liveness.modify id reg change).Shaped where
  size_eq := by
    simp [Liveness.modify, shaped.size_eq]
  row_size := by
    intro other row found
    rw [Liveness.modify, Array.getElem?_modify] at found
    split at found
    · rw [map_eq_some_iff] at found
      obtain ⟨old, found, rfl⟩ := found
      rw [Array.size_modify]
      exact shaped.row_size found
    · exact shaped.row_size found

/-- The windows after one of them was changed. -/
theorem window_modify (shaped : liveness.Shaped) {id}
    (inside : id < liveness.graph.segments.size) (listed : reg < liveness.graph.slots.length)
    (change : Window → Window) (other : SegmentId) (otherReg : Nat) :
    (liveness.modify id reg change).window other otherReg =
      if id = other ∧ reg = otherReg then change (liveness.window other otherReg)
      else liveness.window other otherReg := by
  simp only [window, modify, Array.getD_eq_getD_getElem?, Array.getElem?_modify]
  by_cases same : id = other
  · subst same
    have bound : id < liveness.windows.size := shaped.size_eq ▸ inside
    obtain ⟨row, found⟩ : ∃ row, liveness.windows[id]? = some row :=
      ⟨_, Array.getElem?_eq_getElem bound⟩
    have size := shaped.row_size found
    rw [if_pos rfl, found]
    simp only [map_some, getD_some, Array.getElem?_modify, true_and]
    by_cases equal : reg = otherReg
    · subst equal
      rw [if_pos rfl, if_pos rfl, Array.getElem?_eq_getElem (size ▸ listed)]
      rfl
    · rw [if_neg equal, if_neg equal]
  · simp [same]

theorem window_foldl_extendToExit (shaped : liveness.Shaped)
    (listed : reg < liveness.graph.slots.length) {ids : List SegmentId}
    (inside : ∀ id ∈ ids, id < liveness.graph.segments.size) :
    let result := ids.foldl (·.extendToExit reg ·) liveness
    result.graph = liveness.graph ∧ result.Shaped ∧ ∀ other otherReg, result.window other otherReg =
        if reg = otherReg ∧ other ∈ ids then (liveness.window other otherReg).toExit
        else liveness.window other otherReg := by
  induction ids generalizing liveness with
  | nil => simp [shaped]
  | cons id ids ih =>
    have here := inside id mem_cons_self
    obtain ⟨g, shaped', windows⟩ := ih (shaped.modify id reg toExit) listed
      (fun other mem => inside other (mem_cons_of_mem id mem))
    refine ⟨g, shaped', ?_⟩
    intro other otherReg
    refine (windows other otherReg).trans ?_
    rw [window_modify shaped here listed]
    by_cases same : reg = otherReg
    · by_cases first : id = other
      · subst first
        by_cases again : id ∈ ids <;> simp [same, again]
      · have ne : ¬other = id := fun equal => first equal.symm
        simp [same, first, ne]
    · simp [same]

theorem window_extendToEntry (shaped : liveness.Shaped) {id : SegmentId}
    (listed : reg < liveness.graph.slots.length)
    (sources : ∀ source ∈ (liveness.graph.segment id).prev, source < liveness.graph.segments.size) :
    let result := liveness.extendToEntry reg id
    result.graph = liveness.graph ∧ result.Shaped ∧ ∀ other otherReg, result.window other otherReg =
        if reg = otherReg ∧ other ∈ (liveness.graph.segment id).prev then
          ((liveness.modify id reg fromEntry).window other otherReg).toExit
        else (liveness.modify id reg fromEntry).window other otherReg :=
  window_foldl_extendToExit (shaped.modify id reg fromEntry) listed sources

/-- The windows of a graph fit the accesses, and those that meet a boundary meet others there, but
for some that are still to meet others behind the exit. -/
structure Framing (g : Graph) (pending : SegmentId → Nat → Prop) (liveness : Liveness) : Prop where
  graph_eq : liveness.graph = g
  shaped : liveness.Shaped
  /-- Every window fits the accesses of its register. -/
  frames : ∀ {id reg}, id ∈ g.order → reg < g.slots.length →
    (liveness.window id reg).Frames ((g.segment id).locations (Int.ofNat reg))
  entry_linked : ∀ {id reg}, id ∈ g.order → reg < g.slots.length →
    (liveness.window id reg).start = .atEntry →
    ∃ source ∈ g.order, id ∈ (g.segment source).successors
  /-- A register kept from the entry of a segment on is kept up to the exit of its sources. -/
  source_exit : ∀ {id reg source}, id ∈ g.order → reg < g.slots.length →
    (liveness.window id reg).start = .atEntry → source ∈ (g.segment id).prev →
    (liveness.window source reg).stop = .atExit
  /-- A register kept up to the exit of a segment is kept from the entry of a linked one on. -/
  exit_met : g.Backlinked → ∀ {id reg}, id ∈ g.order →
    reg < g.slots.length → (liveness.window id reg).stop = .atExit →
    pending id reg ∨ ∃ next ∈ (g.segment id).successors, (liveness.window next reg).start = .atEntry

/-- All windows that meet a boundary meet others there. -/
abbrev Framed (g : Graph) (liveness : Liveness) : Prop :=
  Framing g (fun _ _ => False) liveness

section

variable {g : Graph} (numbered : g.Numbered) {id : SegmentId}

include numbered

namespace Framing

variable (framing : Framing g pending liveness)

include framing

/-- Windows may come to start at the entry along with their sources, which come to stop at the
exit. -/
theorem extend {after}
    (entered left : SegmentId → Nat → Prop) (graph_eq : after.graph = g) (shaped : after.Shaped)
    (windows : ∀ {id reg}, id ∈ g.order → reg < g.slots.length →
      (after.window id reg).Frames ((g.segment id).locations (Int.ofNat reg)) ∧
      ((after.window id reg).start = .atEntry ↔
        entered id reg ∨ (liveness.window id reg).start = .atEntry) ∧
      ((after.window id reg).stop = .atExit ↔
        left id reg ∨ (liveness.window id reg).stop = .atExit))
    (enters : ∀ {id reg}, entered id reg →
      (∃ source ∈ g.order, id ∈ (g.segment source).successors) ∧
        ∀ source ∈ (g.segment id).prev, left source reg)
    (leaves : g.Backlinked → ∀ {id reg}, id ∈ g.order → left id reg ∨ pending id reg →
      later id reg ∨ ∃ next ∈ (g.segment id).successors, entered next reg) :
    Framing g later after := by
  constructor
  · exact graph_eq
  · exact shaped
  · exact fun mem listed => (windows mem listed).1
  · intro id reg mem listed entry
    rcases (windows mem listed).2.1.mp entry with new | old
    · exact (enters new).1
    · exact framing.entry_linked mem listed old
  · intro id reg source mem listed entry isSource
    refine (windows (numbered.prev_mem mem isSource) listed).2.2.mpr ?_
    rcases (windows mem listed).2.1.mp entry with new | old
    · exact .inl ((enters new).2 source isSource)
    · exact .inr (framing.source_exit mem listed old isSource)
  · intro backlinked id reg mem listed exit
    have begins {next} (follows : next ∈ (g.segment id).successors)
        (entry : entered next reg ∨ (liveness.window next reg).start = .atEntry) :
        (after.window next reg).start = .atEntry := by
      obtain ⟨side, linked⟩ := mem_successors_iff.mp follows
      exact (windows (numbered.link_mem mem linked) listed).2.1.mpr entry
    obtain cause | ⟨next, follows, entry⟩ : (left id reg ∨ pending id reg) ∨
        ∃ next ∈ (g.segment id).successors, (liveness.window next reg).start = .atEntry := by
      rcases (windows mem listed).2.2.mp exit with leaving | old
      · exact .inl (.inl leaving)
      · exact (framing.exit_met backlinked mem listed old).imp_left .inr
    · refine (leaves backlinked mem cause).imp_right fun ⟨next, follows, entry⟩ => ?_
      exact ⟨next, follows, begins follows (.inl entry)⟩
    · exact .inr ⟨next, follows, begins follows (.inr entry)⟩

variable (listed : reg < g.slots.length) (mem : id ∈ g.order)

include listed mem

theorem extendToExit : Framing g (fun other number => id = other ∧ reg = number ∨
    pending other number) (liveness.extendToExit reg id) := by
  obtain rfl := framing.graph_eq
  have shaped := framing.shaped
  refine framing.extend numbered (fun _ _ => False)
    (fun other number => id = other ∧ reg = number) rfl (shaped.modify id reg toExit)
    (fun {other number} otherMem otherListed => ?_) False.elim (fun _ _ _ _ => .inl)
  have old := framing.frames otherMem otherListed
  rw [extendToExit, window_modify shaped (numbered.inside mem) listed]
  split
  next same =>
    exact ⟨old.toExit, entry_toExit_iff.trans (or_iff_right not_false).symm,
      iff_of_true rfl (.inl same)⟩
  next ne =>
    exact ⟨old, (or_iff_right not_false).symm, (or_iff_right ne).symm⟩

/-- A register may be kept from the entry of a segment on that links lead to. -/
theorem extendToEntry (linked : ∃ source ∈ g.order, id ∈ (g.segment source).successors)
    (settled : ∀ {other number}, pending other number →
      later other number ∨ id ∈ (g.segment other).successors ∧ reg = number) :
    Framing g later (liveness.extendToEntry reg id) := by
  obtain rfl := framing.graph_eq
  have shaped := framing.shaped
  obtain ⟨graph_eq, shaped', windows⟩ := window_extendToEntry shaped listed
    fun source isSource => numbered.inside (numbered.prev_mem mem isSource)
  refine framing.extend numbered (fun other number => id = other ∧ reg = number)
    (fun other number => reg = number ∧ other ∈ (liveness.graph.segment id).prev) graph_eq shaped'
    (fun {other number} otherMem otherListed => ?_) ?_ ?_
  · have old := framing.frames otherMem otherListed
    obtain ⟨fits, entry, exit⟩ : ((liveness.modify id reg fromEntry).window other number).Frames
          ((liveness.graph.segment other).locations (Int.ofNat number)) ∧
        (((liveness.modify id reg fromEntry).window other number).start = .atEntry ↔
          id = other ∧ reg = number ∨ (liveness.window other number).start = .atEntry) ∧
        (((liveness.modify id reg fromEntry).window other number).stop = .atExit ↔
          (liveness.window other number).stop = .atExit) := by
      rw [window_modify shaped (numbered.inside mem) listed]
      split
      next same => exact ⟨old.fromEntry, iff_of_true rfl (.inl same), old.exit_fromEntry_iff⟩
      next ne => exact ⟨old, (or_iff_right ne).symm, .rfl⟩
    rw [windows, ← entry, ← exit]
    split
    next source => exact ⟨fits.toExit, entry_toExit_iff, iff_of_true rfl (.inl source)⟩
    next distant => exact ⟨fits, .rfl, (or_iff_right distant).symm⟩
  · rintro _ _ ⟨rfl, rfl⟩
    exact ⟨linked, fun source isSource => ⟨rfl, isSource⟩⟩
  · rintro backlinked other number otherMem (⟨rfl, isSource⟩ | waiting)
    · exact .inr ⟨id, (backlinked.mem_prev_iff mem otherMem).mp isSource, rfl, rfl⟩
    · exact (settled waiting).imp_right fun follows => ⟨id, follows.1, rfl, follows.2⟩

end Framing

namespace Framed

variable (framed : Framed g liveness)

section

variable (listed : reg < g.slots.length)

include listed

theorem connectRest (mem : previous ∈ g.order)
    (framing : Framing g (fun other number => previous = other ∧ reg = number) liveness)
    (ne_nil : route ≠ [])
    (chain : (previous :: route).IsChain fun source id => id ∈ (g.segment source).successors) :
    Framed g (liveness.connectRest reg route) := by
  induction route generalizing previous liveness with
  | nil => contradiction
  | cons id rest ih =>
    obtain ⟨follows, chain⟩ := isChain_cons_cons.mp chain
    obtain ⟨side, linked⟩ := mem_successors_iff.mp follows
    have here := numbered.link_mem mem linked
    have entered : ∃ source ∈ g.order, id ∈ (g.segment source).successors :=
      ⟨previous, mem, follows⟩
    cases rest with
    | nil =>
      exact framing.extendToEntry numbered listed here entered
        fun {_ _} ⟨same, number⟩ => .inr ⟨same ▸ follows, number⟩
    | cons next rest =>
      refine ih here ((framing.extendToExit numbered listed here).extendToEntry numbered listed here
        entered fun {_ _} waiting => ?_) (cons_ne_nil next rest) chain
      exact waiting.imp_right fun ⟨same, number⟩ => ⟨same ▸ follows, number⟩

include framed

theorem connect (mem : first ∈ g.order) (chain : (first :: second :: route).IsChain fun source id =>
      id ∈ (g.segment source).successors) :
    Framed g (liveness.connect reg (first :: second :: route)) := by
  have pending := framed.extendToExit numbered listed mem
  simp only [or_false] at pending
  exact connectRest numbered listed mem pending (cons_ne_nil second route) chain

end

omit numbered

/-- The route of a search item follows links from a segment of the graph. -/
structure Routed (g : Graph) (item : RouteItem) : Prop where
  start : ∃ first rest, item.route = first :: rest ∧ first ∈ g.order
  chain : (item.route ++ [item.segment]).IsChain fun source id =>
    id ∈ (g.segment source).successors

theorem routed_behind (route : List SegmentId)
    (start : ∃ first rest, route ++ [id] = first :: rest ∧ first ∈ g.order)
    (chain : (route ++ [id]).IsChain fun source id => id ∈ (g.segment source).successors)
    (left : Int) (mem : item ∈ behind (g.segment id) left (route ++ [id])) : Routed g item := by
  rw [behind, List.mem_map] at mem
  obtain ⟨next, follows, rfl⟩ := mem
  refine ⟨start, ?_⟩
  refine isChain_append.mpr ⟨chain, isChain_singleton next, ?_⟩
  intro last final other head
  rw [getLast?_concat, mem_some] at final
  rw [head?_singleton, mem_some] at head
  subst final head
  rw [successors, mem_append]
  rw [mem_append] at follows
  exact follows.symm

include numbered framed

theorem search (listed : reg < g.slots.length) (steps : Nat) (routed : ∀ item ∈ work, Routed g item)
    : Framed g (search reg steps work liveness) := by
  fun_induction Liveness.search reg steps work liveness with
  | case1 => exact framed
  | case2 => exact framed
  | case3 steps item work liveness deep ih =>
    exact ih framed (forall_mem_cons.mp routed).2
  | case4 steps item work liveness shallow seg route window absent left far
      ih =>
      obtain ⟨here, rest⟩ := forall_mem_cons.mp routed
      obtain ⟨first, tail, equal, mem⟩ := here.start
      refine ih framed ?_
      intro other inside
      rcases mem_append.mp inside with new | old
      · refine routed_behind item.route ⟨first, tail ++ [item.segment], ?_, mem⟩ here.chain left ?_
        · rw [equal, cons_append]
        · rw [← framed.graph_eq]
          exact new
      · exact rest other old
  | case5 steps item work liveness shallow seg window absent left near
      ih =>
      exact ih framed (forall_mem_cons.mp routed).2
  | case6 steps item work liveness shallow seg route window present close
      ih =>
      obtain ⟨here, rest⟩ := forall_mem_cons.mp routed
      obtain ⟨first, tail, equal, mem⟩ := here.start
      refine ih ?_ rest
      have chain := here.chain
      cases tail with
      | nil =>
        simp only [route, equal, cons_append, nil_append] at chain ⊢
        exact framed.connect numbered listed mem chain
      | cons second tail =>
        simp only [route, equal, cons_append] at chain ⊢
        exact framed.connect numbered listed mem chain
  | case7 steps item work liveness shallow seg window present distant
      ih =>
      exact ih framed (forall_mem_cons.mp routed).2

theorem tryExtend (listed : reg < g.slots.length) (mem : id ∈ g.order) :
    Framed g (liveness.tryExtend id reg) := by
  unfold Liveness.tryExtend
  extract_lets segment window tail left
  split
  · exact framed
  · apply framed.search numbered listed
    intro item inside
    refine routed_behind [] ⟨id, [], rfl, mem⟩ (isChain_singleton id) left ?_
    rw [← framed.graph_eq]
    exact inside

theorem mergeSegment (mem : id ∈ g.order) : Framed g (liveness.mergeSegment id) := by
  refine List.foldlRecOn _ _ framed ?_
  intro liveness framed' reg listed
  rw [registers, mem_range, framed.graph_eq] at listed
  split
  · exact framed'.tryExtend numbered listed mem
  · exact framed'

theorem leaveLoop (mem : id ∈ g.order) : Framed g (liveness.leaveLoop id) := by
  refine List.foldlRecOn _ _ framed ?_
  intro liveness framed' reg listed
  rw [registers, mem_range, framed.graph_eq] at listed
  split
  · refine List.foldlRecOn _ _ framed' ?_
    intro liveness framed'' next exits
    rw [framed.graph_eq] at exits
    have follows := mem_of_mem_filter exits
    obtain ⟨side, linked⟩ := mem_successors_iff.mp follows
    exact framed''.extendToEntry numbered listed (numbered.link_mem mem linked) ⟨id, mem, follows⟩
      False.elim
  · exact framed'

omit framed

theorem breadthFirst_mem (bound : Nat) (queued : ∀ id ∈ queue, id ∈ g.order)
    (mem : ∀ id ∈ met, id ∈ g.order) : ∀ id ∈ breadthFirst g bound queue met, id ∈ g.order := by
  fun_induction breadthFirst g bound queue met with
  | case1 => exact mem
  | case2 => exact mem
  | case3 bound id queue met seg fresh ih =>
    obtain ⟨here, rest⟩ := forall_mem_cons.mp queued
    have new : ∀ next ∈ fresh, next ∈ g.order := by
      intro next inside
      have follows := mem_of_mem_filter (mem_eraseDups.mp inside)
      rw [mem_append, mem_toList, mem_toList] at follows
      have successor : next ∈ seg.successors := by
        rw [successors, mem_append, mem_toList, mem_toList]
        exact follows.symm
      obtain ⟨side, linked⟩ := mem_successors_iff.mp successor
      exact numbered.link_mem here linked
    apply ih
    · exact forall_mem_append.mpr ⟨rest, new⟩
    · exact forall_mem_append.mpr ⟨mem, new⟩

theorem reachable_mem : ∀ id ∈ reachable g, id ∈ g.order := by
  refine List.foldlRecOn (motive := fun met => ∀ id ∈ met, id ∈ g.order) _ _ ?_ ?_
  · exact forall_mem_nil _
  intro met mem id listed
  split
  · apply breadthFirst_mem numbered
    · exact forall_mem_singleton.mpr listed
    · exact forall_mem_append.mpr ⟨mem, forall_mem_singleton.mpr listed⟩
  · exact mem

include framed

theorem mergeClose : Framed g liveness.mergeClose := by
  refine List.foldlRecOn _ _ framed ?_
  intro liveness framed' id listed
  rw [framed.graph_eq] at listed
  exact framed'.mergeSegment numbered (reachable_mem numbered id listed)

theorem extendOutOfLoops : Framed g liveness.extendOutOfLoops := by
  refine List.foldlRecOn _ _ framed ?_
  intro liveness framed' id listed
  rw [framed.graph_eq] at listed
  exact framed'.leaveLoop numbered listed

end Framed

end

theorem framed_ofGraph (numbered : g.Numbered) (short : g.IsShort) : Framed g (ofGraph g) := by
  have windows : ∀ {id reg}, id ∈ g.order → reg < g.slots.length → (ofGraph g).window id reg =
        ofLocations ((g.segment id).locations (Int.ofNat reg)) := by
    intro id reg mem listed
    have inside := numbered.inside mem
    simp [window, ofGraph, Array.getD_eq_getD_getElem?, inside, listed, Graph.segment]
  have bounds : ∀ {id reg}, id ∈ g.order → ∀ loc ∈ (g.segment id).locations (Int.ofNat reg),
      0 ≤ loc.index ∧ loc.index + 1 < atExit := by
    intro id reg mem loc inside
    exact short.index_bounds mem inside
  constructor
  · rfl
  · constructor
    · simp [ofGraph]
    · intro id row found
      simp only [ofGraph, Array.getElem?_map, map_eq_some_iff] at found
      obtain ⟨seg, _, rfl⟩ := found
      simp [ofGraph]
  · intro id reg mem listed
    rw [windows mem listed]
    exact (frames_ofLocations (bounds mem)).1
  · intro id reg mem listed entry
    rw [windows mem listed] at entry
    exact absurd entry (frames_ofLocations (bounds mem)).2.1
  · intro id reg source mem listed entry
    rw [windows mem listed] at entry
    exact absurd entry (frames_ofLocations (bounds mem)).2.1
  · intro _ id reg mem listed exit
    rw [windows mem listed] at exit
    exact absurd exit (frames_ofLocations (bounds mem)).2.2

end Liveness
end Dynarec
