import Dynarec.Proofs.Graph.Edge
import Mathlib.Data.List.Chain
import Mathlib.Data.List.Perm.Subperm

/-!
# Loop depths

A segment has a loop depth only if it lies on a cycle.  The loops that a short
search from their header can find are found, and every taken link backward counts
once at most.
-/

namespace Dynarec.Graph

open List Segment

variable {g : Graph} {id next tail : SegmentId}

/-- One segment is linked to the other. -/
def HasLink (g : Graph) (id next : SegmentId) : Prop :=
  next ∈ (g.segment id).successors

theorem nodup_eraseDups : (ids : List SegmentId) → ids.eraseDups.Nodup
  | [] => nodup_nil
  | first :: rest => by
    rw [eraseDups_cons, nodup_cons, mem_eraseDups]
    exact ⟨by simp, nodup_eraseDups _⟩
termination_by ids => ids.length
decreasing_by exact Nat.lt_succ_of_le (length_filter_le ..)

theorem mem_forwardLinks_iff :
    next ∈ g.forwardLinks tail (g.segment id) ↔ g.HasLink id next ∧
      (next = tail ∨ (g.segment id).position < (g.segment next).position) := by
  simp [forwardLinks, HasLink]

/-- A search of which some segments are done, each with its distance from the header, and some
wait in the queue. -/
structure Searching (g : Graph) (tail header : SegmentId) (done queue : List (SegmentId × Nat))
    (search : LoopSearch) : Prop where
  met_eq : search.met = (done ++ queue).map Prod.fst
  starts : (header, 0) ∈ done ++ queue
  nodup : search.met.Nodup
  met_mem : ∀ id ∈ search.met, id ∈ g.order ∧ Relation.ReflTransGen g.HasLink header id
  sorted : queue.Pairwise fun item later => item.2 ≤ later.2
  near : ∀ item ∈ done ++ queue, ∀ waiting ∈ queue, item.2 ≤ waiting.2 + 1
  searched_eq : search.searched = (done.map Prod.fst).filter (· ≠ tail)
  reached_iff : search.reached = true ↔ tail ∈ done.map Prod.fst
  leads : ∀ link ∈ search.links, g.HasLink link.1 link.2
  followed : ∀ item ∈ done, item.1 ≠ tail → item.2 < maxLoopSearch →
    (g.segment item.1).uncertain = false →
    ∀ next ∈ g.forwardLinks tail (g.segment item.1), (item.1, next) ∈ search.links ∧
      ∃ depth ≤ item.2 + 1, (next, depth) ∈ done ++ queue

namespace Searching

/-- The first segment of the queue is done, some of its links are followed and some segments are
met for the first time. -/
theorem advance (numbered : g.Numbered)
    (searching : g.Searching tail header done ((id, depth) :: queue) search) {reached : Bool}
    (reached_iff : reached ↔ search.reached ∨ tail = id)
    (links_subset : links ⊆ g.forwardLinks tail (g.segment id))
    (fresh_subset : fresh ⊆ links) (nodup : fresh.Nodup) (new : ∀ next ∈ fresh, next ∉ search.met)
    (all : id ≠ tail → depth < maxLoopSearch → (g.segment id).uncertain = false →
      ∀ next ∈ g.forwardLinks tail (g.segment id),
        next ∈ links ∧ (next ∈ search.met ∨ next ∈ fresh)) :
    g.Searching tail header (done ++ [(id, depth)]) (queue ++ fresh.map (·, depth + 1))
      { met := search.met ++ fresh
        searched := search.searched ++ [id].filter (· ≠ tail)
        links := search.links ++ links.map (id, ·)
        reached } := by
  obtain ⟨first_le, sorted⟩ := pairwise_cons.mp searching.sorted
  have near_first : ∀ item ∈ done ++ (id, depth) :: queue, item.2 ≤ depth + 1 :=
    fun item listed => searching.near item listed _ mem_cons_self
  have here : id ∈ search.met := by simp [searching.met_eq]
  have known : ∀ next ∈ fresh, g.HasLink id next := fun next listed =>
    (mem_forwardLinks_iff.mp (links_subset (fresh_subset listed))).1
  have items_eq : done ++ [(id, depth)] ++ (queue ++ fresh.map (·, depth + 1)) =
      done ++ (id, depth) :: queue ++ fresh.map (·, depth + 1) := by simp
  constructor
  · rw [items_eq, map_append, ← searching.met_eq, map_map]
    exact congrArg _ (map_id' fresh).symm
  · exact items_eq ▸ mem_append_left _ searching.starts
  · exact nodup_append.mpr ⟨searching.nodup, nodup, fun _ met _ listed same =>
      new _ listed (same ▸ met)⟩
  · refine forall_mem_append.mpr ⟨searching.met_mem, fun next listed => ?_⟩
    obtain ⟨mem, path⟩ := searching.met_mem id here
    obtain ⟨side, linked⟩ := mem_successors_iff.mp (known next listed)
    exact ⟨numbered.link_mem mem linked, path.tail (known next listed)⟩
  · refine pairwise_append.mpr ⟨sorted, pairwise_map.mpr
      (pairwise_of_forall fun _ _ => Nat.le_refl _), ?_⟩
    rintro item listed _ added
    obtain ⟨next, -, rfl⟩ := mem_map.mp added
    exact near_first item (mem_append_right _ (mem_cons_of_mem _ listed))
  · rw [items_eq]
    refine forall_mem_append.mpr ⟨fun item listed => forall_mem_append.mpr
      ⟨fun waiting waits => ?_, forall_mem_map.mpr fun next _ => ?_⟩,
      forall_mem_map.mpr fun next _ => forall_mem_append.mpr
        ⟨fun waiting waits => ?_, forall_mem_map.mpr fun next _ => ?_⟩⟩
    · exact searching.near item listed waiting (mem_cons_of_mem _ waits)
    · exact Nat.le_succ_of_le (near_first item listed)
    · exact Nat.succ_le_succ (first_le waiting waits)
    · exact Nat.le_succ _
  · rw [searching.searched_eq, map_append, filter_append]
    rfl
  · rw [map_append, mem_append, map_singleton, mem_singleton, ← searching.reached_iff]
    exact reached_iff
  · refine forall_mem_append.mpr ⟨searching.leads, forall_mem_map.mpr fun next listed => ?_⟩
    exact (mem_forwardLinks_iff.mp (links_subset listed)).1
  · rw [items_eq]
    refine forall_mem_append.mpr ⟨fun item listed apart close certain next linked => ?_,
      forall_mem_singleton.mpr fun apart close certain next linked => ?_⟩
    · obtain ⟨followed, depth, le, met⟩ :=
        searching.followed item listed apart close certain next linked
      exact ⟨mem_append_left _ followed, depth, le, mem_append_left _ met⟩
    · obtain ⟨followed, met | added⟩ := all apart close certain next linked
      · rw [searching.met_eq] at met
        obtain ⟨item, listed, rfl⟩ := mem_map.mp met
        exact ⟨mem_append_right _ (mem_map_of_mem followed), item.2, near_first item listed,
          mem_append_left _ listed⟩
      · exact ⟨mem_append_right _ (mem_map_of_mem followed), depth + 1, Nat.le_refl _,
          mem_append_right _ (mem_map_of_mem added)⟩

theorem length_le (numbered : g.Numbered) (searching : g.Searching tail header done queue search) :
    done.length + queue.length ≤ g.segments.size := by
  have inside : search.met ⊆ List.range g.segments.size := fun id met =>
    mem_range.mpr (numbered.inside (searching.met_mem id met).1)
  have few := (searching.nodup.subperm inside).length_le
  rwa [searching.met_eq, length_map, length_append, length_range] at few

theorem finish (numbered : g.Numbered) (searching : g.Searching tail header done queue search)
    (enough : g.segments.size < bound + done.length) :
    ∃ done, g.Searching tail header done [] (g.searchLoop tail bound queue search) := by
  induction bound generalizing done queue search with
  | zero => exact absurd (searching.length_le numbered) (by omega)
  | succ bound ih =>
    cases queue with
    | nil => exact ⟨done, searching⟩
    | cons item queue =>
      obtain ⟨id, depth⟩ := item
      have more queue search
          (searching : g.Searching tail header (done ++ [(id, depth)]) queue search) :=
        ih searching (by rw [length_append, length_singleton]; omega)
      have ends reached (reached_iff : reached = true ↔ search.reached = true ∨ tail = id)
          (ends : id ≠ tail → depth < maxLoopSearch → (g.segment id).uncertain) :=
        searching.advance numbered reached_iff (nil_subset _) (nil_subset _) nodup_nil
          (forall_mem_nil _) fun apart close certain => by
            rw [ends apart close] at certain
            cases certain
      rw [searchLoop]
      split
      next same =>
        have found := ends true (by simp [same]) fun apart => absurd same apart
        simp only [same, map_nil, append_nil, ne_eq, not_true_eq_false, decide_false,
          filter_cons_of_neg, filter_nil, Bool.false_eq_true, not_false_eq_true] at found
        exact more _ _ (same ▸ found)
      next apart =>
        have single : [id].filter (· ≠ tail) = [id] := by simp [apart]
        have kept : search.reached = true ↔ search.reached = true ∨ tail = id := by
          simp [Ne.symm apart]
        dsimp only
        split
        next stops =>
          have skipped := ends search.reached kept fun _ close => by
            simpa [Nat.not_le.mpr close] using stops
          rw [single, map_nil, map_nil, append_nil, append_nil, append_nil] at skipped
          exact more _ _ skipped
        · let fresh := ((g.forwardLinks tail (g.segment id)).filter (· ∉ search.met)).eraseDups
          have mem_fresh {next} : next ∈ fresh ↔
              next ∈ g.forwardLinks tail (g.segment id) ∧ next ∉ search.met := by
            simp [fresh]
          have expanded := searching.advance numbered kept (List.Subset.refl _)
            (fun _ listed => (mem_fresh.mp listed).1) (nodup_eraseDups _)
            (fun _ listed => (mem_fresh.mp listed).2)
            fun _ _ _ next linked => ⟨linked, by simp [mem_fresh, linked, em]⟩
          rw [single] at expanded
          exact more _ _ expanded

end Searching

/-- Some segments, and all candidates from which links lead to them. -/
structure Traced (links : List (SegmentId × SegmentId)) (candidates found result : List SegmentId) :
    Prop where
  subset : found ⊆ result
  nodup : result.Nodup
  closed : ∀ {id next}, id ∈ candidates → (id, next) ∈ links → next ∈ result → id ∈ result
  sound : ∀ id ∈ result, ∃ last ∈ found,
    Relation.ReflTransGen (fun id next => id ∈ candidates ∧ (id, next) ∈ links) id last

theorem traced_leadingTo (nodup : candidates.Nodup) (foundNodup : found.Nodup)
    (enough : (candidates.filter (· ∉ found)).length ≤ rounds) :
    Traced links candidates found (leadingTo links candidates rounds found) := by
  induction rounds generalizing found with
  | zero =>
    rw [leadingTo]
    refine ⟨List.Subset.refl _, foundNodup, fun {id next} listed _ _ => ?_,
      fun id known => ⟨id, known, .refl⟩⟩
    have none := filter_eq_nil_iff.mp (length_eq_zero_iff.mp (Nat.le_zero.mp enough)) id listed
    simpa using none
  | succ rounds ih =>
    let more := candidates.filter fun id =>
      id ∉ found && links.any fun link => link.1 = id && link.2 ∈ found
    have mem_more {id} : id ∈ more ↔
        id ∈ candidates ∧ id ∉ found ∧ ∃ next ∈ found, (id, next) ∈ links := by
      simp [more, and_comm]
    rw [leadingTo]
    split
    next none =>
      refine ⟨List.Subset.refl _, foundNodup, fun {id next} listed linked known => ?_,
        fun id known => ⟨id, known, .refl⟩⟩
      by_contra unknown
      have new : id ∈ more := mem_more.mpr ⟨listed, unknown, next, known, linked⟩
      exact not_mem_nil ((show more = [] from none) ▸ new)
    next some =>
      have fewer : (candidates.filter (· ∉ found ++ more)).length ≤ rounds := by
        obtain ⟨first, new⟩ := exists_mem_of_ne_nil more some
        obtain ⟨listed, unknown, -⟩ := mem_more.mp new
        have split_eq : candidates.filter (· ∉ found ++ more) =
            (candidates.filter (· ∉ found)).filter (· ∉ more) := by
          simp [filter_filter, Bool.and_comm]
        have shorter : ((candidates.filter (· ∉ found)).filter (· ∉ more)).length <
            (candidates.filter (· ∉ found)).length :=
          length_filter_lt_length_iff_exists.mpr
            ⟨first, mem_filter.mpr ⟨listed, by simpa using unknown⟩, by simpa using new⟩
        rw [split_eq]
        omega
      have traced := ih (nodup_append.mpr ⟨foundNodup, nodup.filter _, fun _ known _ new same =>
        (mem_more.mp new).2.1 (same ▸ known)⟩) fewer
      refine ⟨fun id known => traced.subset (mem_append_left _ known), traced.nodup,
        traced.closed, fun id inside => ?_⟩
      obtain ⟨last, known, path⟩ := traced.sound id inside
      rcases mem_append.mp known with known | new
      · exact ⟨last, known, path⟩
      · obtain ⟨listed, -, next, known, linked⟩ := mem_more.mp new
        exact ⟨next, known, path.tail ⟨listed, linked⟩⟩

theorem exists_traced (numbered : g.Numbered) (mem : header ∈ g.order) (tail : SegmentId) :
    ∃ done search result, g.Searching tail header done [] search ∧
      Traced search.links search.searched [tail] result ∧
      g.loopSegments tail header = if search.reached then result else [] := by
  have begun : g.Searching tail header [] [(header, 0)] { met := [header] } :=
    ⟨rfl, mem_singleton_self _, nodup_singleton _, forall_mem_singleton.mpr ⟨mem, .refl⟩,
      pairwise_singleton .., by simp, rfl, by simp, nofun, nofun⟩
  obtain ⟨done, searching⟩ := begun.finish numbered (Nat.lt_succ_self g.segments.size)
  refine ⟨done, _, _, searching, traced_leadingTo ?_ (nodup_singleton tail) ?_, rfl⟩
  · rw [searching.searched_eq]
    have nodup := searching.nodup
    rw [searching.met_eq, append_nil] at nodup
    exact nodup.filter _
  · exact length_filter_le ..

namespace Searching

variable (searching : g.Searching tail header done [] search)
  (traced : Traced search.links search.searched [tail] result)

include searching traced

theorem cycle (closes : g.HasLink tail header)
    (reached : search.reached) (inside : id ∈ result) : Relation.TransGen g.HasLink id id := by
  obtain ⟨_, last, path⟩ := traced.sound id inside
  cases mem_singleton.mp last
  have back : Relation.ReflTransGen g.HasLink id tail :=
    path.lift _ fun _ _ link => searching.leads _ link.2
  refine (Relation.TransGen.tail' back closes).trans_left (searching.met_mem id ?_).2
  rw [searching.met_eq, append_nil]
  rcases path.cases_head with rfl | ⟨_, ⟨searched, -⟩, -⟩
  · exact searching.reached_iff.mp reached
  · rw [searching.searched_eq] at searched
    exact mem_of_mem_filter searched

/-- Short ways to the tail are found. -/
theorem covers (certain : ∀ id ∈ way, (g.segment id).uncertain = false) (apart : tail ∉ way)
    (chain : (way ++ [tail]).IsChain fun id next => next ∈ g.forwardLinks tail (g.segment id))
    (head : way.head? = some first) (listed : (first, depth) ∈ done)
    (short : depth + way.length ≤ maxLoopSearch) : search.reached ∧ ∀ id ∈ way, id ∈ result := by
  induction way generalizing first depth with
  | nil => cases head
  | cons id rest ih =>
    cases head
    obtain ⟨here, certain⟩ := forall_mem_cons.mp certain
    rw [mem_cons, not_or] at apart
    rw [length_cons] at short
    obtain ⟨linked, chain⟩ := isChain_cons.mp chain
    have followed := searching.followed _ listed (Ne.symm apart.1) (by dsimp only; omega) here
    have searched : id ∈ search.searched := by
      rw [searching.searched_eq, mem_filter]
      exact ⟨mem_map_of_mem listed, by simpa using Ne.symm apart.1⟩
    cases rest with
    | nil =>
      obtain ⟨link, depth, -, found⟩ := followed tail (linked tail rfl)
      rw [append_nil] at found
      exact ⟨searching.reached_iff.mpr (mem_map_of_mem found), forall_mem_singleton.mpr
        (traced.closed searched link (traced.subset (mem_singleton_self _)))⟩
    | cons next rest =>
      obtain ⟨link, further, le, found⟩ := followed next (linked next rfl)
      rw [append_nil] at found
      obtain ⟨reached, inside⟩ := ih certain apart.2 chain rfl found (by omega)
      exact ⟨reached, forall_mem_cons.mpr
        ⟨traced.closed searched link (inside next mem_cons_self), inside⟩⟩

end Searching

/-- A taken link to the same or an earlier segment. -/
def closesLoop (g : Graph) (tail : SegmentId) : Bool :=
  (g.segment tail).taken.any fun header =>
    g.order.idxOf header ≤ g.order.idxOf tail

/-- A loop of which a short search finds a way from its header to its tail: links that lead forward
or to the tail, through segments that are certain, to a tail that is met at the end only. -/
structure ShortLoop (g : Graph) (header tail : SegmentId) (way : List SegmentId) : Prop where
  closes : (g.segment tail).taken = some header
  before : g.order.idxOf header < g.order.idxOf tail
  head : way.head? = some header
  short : way.length ≤ 8
  apart : tail ∉ way
  certain : ∀ id ∈ way ++ [tail], (g.segment id).uncertain = false
  chain : (way ++ [tail]).IsChain fun id next => g.HasLink id next ∧
    (next = tail ∨ g.order.idxOf id < g.order.idxOf next)

section

variable (numbered : g.Numbered)

include numbered

theorem loopDepth_detectLoops (mem : id ∈ g.order) :
    (g.detectLoops.segment id).loopDepth = (g.order.flatMap g.placed.closedLoop).count id := by
  rw [(mapped_detectLoops numbered).segment_eq, if_pos mem]
  rw [(mapped_placed numbered).order_eq, numbered.segment_id mem]

theorem placed_segment (id : SegmentId) :
    (g.placed.segment id).taken = (g.segment id).taken ∧
      (g.placed.segment id).successors = (g.segment id).successors ∧
      (g.placed.segment id).uncertain = (g.segment id).uncertain ∧
      (id ∈ g.order → (g.placed.segment id).position = g.order.idxOf id) := by
  rw [(mapped_placed numbered).segment_eq]
  split
  next mem => exact ⟨rfl, rfl, rfl, fun _ => by rw [numbered.segment_id mem]⟩
  next unlisted => exact ⟨rfl, rfl, rfl, fun mem => absurd mem unlisted⟩

theorem placed_leads : g.placed.HasLink = g.HasLink := by
  funext id next
  rw [HasLink, (placed_segment numbered id).2.1, HasLink]

theorem taken_mem (mem : tail ∈ g.order) (closes : (g.segment tail).taken = some header) :
    header ∈ g.order :=
  have linked : (g.segment tail).link true = some header := closes
  numbered.link_mem mem linked

/-- The loop that the taken link of a segment closes. -/
theorem closedLoop_eq (mem : tail ∈ g.order) (closes : (g.segment tail).taken = some header)
    (certain : (g.segment tail).uncertain = false) :
    g.placed.closedLoop tail = if header = tail then [tail]
      else if g.order.idxOf header < g.order.idxOf tail then
        g.placed.loopSegments tail header
      else [] := by
  have headerMem := taken_mem numbered mem closes
  rw [closedLoop, (placed_segment numbered tail).1, closes]
  dsimp only
  rw [(placed_segment numbered tail).2.2.1, if_neg (by simp [certain]),
    (placed_segment numbered tail).2.2.2 mem, (placed_segment numbered header).2.2.2 headerMem]

theorem closedLoop_spec (mem : tail ∈ g.order) :
    (g.placed.closedLoop tail).Nodup ∧ ∀ id ∈ g.placed.closedLoop tail, g.closesLoop tail ∧
        Relation.TransGen g.HasLink id id := by
  have none (empty : g.placed.closedLoop tail = []) : (g.placed.closedLoop tail).Nodup ∧
      ∀ id ∈ g.placed.closedLoop tail, g.closesLoop tail ∧ Relation.TransGen g.HasLink id id := by
    rw [empty]
    exact ⟨nodup_nil, forall_mem_nil _⟩
  obtain ⟨taken_eq, -, uncertain_eq, -⟩ := placed_segment numbered tail
  cases closes : (g.segment tail).taken with
  | none => exact none (by rw [closedLoop, taken_eq, closes])
  | some header =>
    cases certain : (g.segment tail).uncertain with
    | true => exact none (by simp [closedLoop, taken_eq, closes, uncertain_eq, certain])
    | false =>
      have leads : g.HasLink tail header := by simp [HasLink, successors, closes]
      rw [closedLoop_eq numbered mem closes certain]
      split
      next same =>
        subst same
        refine ⟨nodup_singleton _, forall_mem_singleton.mpr ⟨?_, .single leads⟩⟩
        simp [closesLoop, closes]
      · split
        next before =>
          obtain ⟨done, search, result, searching, traced, loop_eq⟩ :=
            exists_traced (placed_numbered numbered)
              ((mapped_placed numbered).order_eq ▸ taken_mem numbered mem closes) tail
          rw [loop_eq]
          split
          next reached =>
            refine ⟨traced.nodup, fun id inside => ⟨?_, ?_⟩⟩
            · simp [closesLoop, closes, Nat.le_of_lt before]
            · rw [← placed_leads numbered] at leads ⊢
              exact searching.cycle traced leads reached inside
          · exact ⟨nodup_nil, forall_mem_nil _⟩
        · exact ⟨nodup_nil, forall_mem_nil _⟩

theorem ShortLoop.subset_closedLoop (loop : g.ShortLoop header tail way) :
    tail ∈ g.order ∧ way ++ [tail] ⊆ g.placed.closedLoop tail := by
  have headerMem : header ∈ g.order :=
    idxOf_lt_length_iff.mp (Nat.lt_of_lt_of_le loop.before idxOf_le_length)
  have inside : ∀ id ∈ way ++ [tail], id ∈ g.order := by
    refine loop.chain.induction _ _ (fun id next linked mem => ?_) fun nonempty => ?_
    · obtain ⟨side, link⟩ := mem_successors_iff.mp linked.1
      exact numbered.link_mem mem link
    · obtain ⟨rest, rfl⟩ := head?_eq_some_iff.mp loop.head
      exact headerMem
  have mem := inside tail (by simp)
  obtain ⟨certain, tailCertain⟩ := forall_mem_append.mp loop.certain
  obtain ⟨done, search, result, searching, traced, loop_eq⟩ :=
    exists_traced (placed_numbered numbered) ((mapped_placed numbered).order_eq ▸ headerMem) tail
  obtain ⟨reached, found⟩ := searching.covers traced
    (fun id listed => (placed_segment numbered id).2.2.1.trans (certain id listed)) loop.apart
    (loop.chain.imp_of_mem_imp fun id next listed nextListed linked => by
      rw [mem_forwardLinks_iff, placed_leads numbered, (placed_segment numbered id).2.2.2
        (inside id listed), (placed_segment numbered next).2.2.2 (inside next nextListed)]
      exact linked) loop.head (append_nil done ▸ searching.starts) (by
        rw [Nat.zero_add]; exact loop.short)
  rw [closedLoop_eq numbered mem loop.closes (tailCertain tail (mem_singleton_self _)),
    if_neg (fun same => Nat.lt_irrefl _ (same ▸ loop.before)), if_pos loop.before, loop_eq,
    if_pos reached]
  exact ⟨mem, append_subset.mpr ⟨found, traced.subset⟩⟩

end

/-- Every segment with a loop depth lies on a cycle.  A segment that is certain and whose taken link
leads to itself has one, and so has every segment of a loop with a way of eight links at most.  No
segment has a greater loop depth than there are taken links to the same or an earlier segment. -/
theorem loopDepth_counts_loops
    (graph : Graph)
    (numbered : graph.Numbered)
    (id : SegmentId)
    (mem : id ∈ graph.order) :
    (0 < (graph.detectLoops.segment id).loopDepth → Relation.TransGen graph.HasLink id id) ∧
    ((graph.segment id).uncertain = false → (graph.segment id).taken = some id →
      1 ≤ (graph.detectLoops.segment id).loopDepth) ∧
    (∀ header tail way, graph.ShortLoop header tail way → id ∈ way ++ [tail] →
      1 ≤ (graph.detectLoops.segment id).loopDepth) ∧
    (graph.detectLoops.segment id).loopDepth ≤ graph.order.countP graph.closesLoop := by
  have found {tail : SegmentId} (tailMem : tail ∈ graph.order)
      (inside : id ∈ graph.placed.closedLoop tail) :
      1 ≤ (graph.detectLoops.segment id).loopDepth := by
    rw [loopDepth_detectLoops numbered mem]
    exact List.count_pos_iff.mpr (List.mem_flatMap.mpr ⟨tail, tailMem, inside⟩)
  refine ⟨fun positive => ?_, fun certain closes => ?_, fun header tail way loop inside => ?_, ?_⟩
  · rw [loopDepth_detectLoops numbered mem, List.count_pos_iff, List.mem_flatMap] at positive
    obtain ⟨tail, tailMem, inside⟩ := positive
    exact ((closedLoop_spec numbered tailMem).2 id inside).2
  · refine found mem ?_
    rw [closedLoop_eq numbered mem closes certain, if_pos rfl]
    exact List.mem_singleton_self _
  · obtain ⟨tailMem, subset⟩ := loop.subset_closedLoop numbered
    exact found tailMem (subset inside)
  · rw [loopDepth_detectLoops numbered mem]
    have each : ∀ tail ∈ graph.order, _ := fun tail tailMem => closedLoop_spec numbered tailMem
    generalize graph.order = tails at each
    induction tails with
    | nil => exact Nat.le_refl 0
    | cons tail rest ih =>
      obtain ⟨⟨nodup, closes⟩, each⟩ := List.forall_mem_cons.mp each
      rw [List.flatMap_cons, List.count_append, List.countP_cons, Nat.add_comm]
      refine Nat.add_le_add (ih each) ?_
      split
      · exact List.nodup_iff_count_le_one.mp nodup id
      next forward =>
        rw [List.count_eq_zero.mpr fun inside => forward (closes id inside).1]

/-- A loop with two ways from its header to its tail. -/
def branching : Graph :=
  { entry := 0x1000
    size := 16
    order := [0, 1, 2, 3]
    segments := #[
      { id := 0, taken := some 2, notTaken := some 1, prev := [3] },
      { id := 1, taken := some 3, prev := [0] },
      { id := 2, notTaken := some 3, prev := [0] },
      { id := 3, taken := some 0, prev := [1, 2] }] }

theorem branching_counts_loops :
    branching.ShortLoop 0 3 [0, 2] ∧ (branching.detectLoops.segment 2).loopDepth = 1 ∧
      Relation.TransGen branching.HasLink 2 2 := by
  have loop : branching.ShortLoop 0 3 [0, 2] :=
    ⟨rfl, by decide, rfl, by decide, by decide, by decide, by
      simp only [HasLink]
      decide⟩
  obtain ⟨cycle, -, short, bound⟩ :=
    loopDepth_counts_loops branching (by decide) 2 (by decide)
  have positive := short 0 3 [0, 2] loop (by decide)
  exact ⟨loop, Nat.le_antisymm (Nat.le_trans bound (by decide)) positive, cycle positive⟩

end Dynarec.Graph
