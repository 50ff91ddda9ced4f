import Dynarec.Proofs.Allocation.Affordability
import Dynarec.Proofs.Allocation.Soundness
import Dynarec.Proofs.Allocation.Weight

/-!
# Settling

Every conflict is resolved by a split or by replacing a range that touches a
boundary, and both make the allocation lighter.  So an assignment settles after
no more restarts than the allocation weighed at first.
-/

namespace Dynarec.Allocation

open List

variable {alloc : Allocation} {least : Int} {id : SubrangeId} {live : List Subrange}
  {sub : Subrange}

theorem restarts_split {after tail} (done : alloc.split id place trim = .ok (after, tail)) :
    after.stats.restarts = alloc.stats.restarts := by
  have kept sub start locs :
      (alloc.addTail sub start locs).1.stats.restarts = alloc.stats.restarts := by
    unfold addTail
    split <;> rfl
  unfold split at done
  extract_lets sub before behind headStop tailStart at done
  split at done
  · cases done
  · cases done
    exact kept sub tailStart behind

theorem restarts_explode (alloc : Allocation) (id : RangeId) :
    (alloc.explode id).stats.restarts = alloc.stats.restarts := by
  unfold explode
  extract_lets range replaced
  obtain ⟨_, _, shape, -⟩ := replaced.exists_dropRange_eq id
  rw [shape]
  refine List.foldlRecOn (motive := fun after => after.stats.restarts = alloc.stats.restarts)
    range.subranges (addLocal range) rfl fun after kept id _ => ?_
  unfold addLocal
  extract_lets sub
  split <;> exact kept

/-- An outcome that is lighter than what it came from, without a restart counted. -/
def Lightens (before : Allocation) (result : Except Error Allocation) : Prop :=
  ∃ after, result = .ok after ∧ after.weight < before.weight ∧
    after.stats.restarts = before.stats.restarts

theorem exists_split (coherent : alloc.Coherent) (found : alloc.subrange? id = some sub)
    (splits : sub.Splits place) :
    ∃ after tail, alloc.split id place true = .ok (after, tail) ∧
      alloc.SplitAt after id sub place ∧ after.weight < alloc.weight ∧
      after.stats.restarts = alloc.stats.restarts := by
  obtain ⟨after, done, view⟩ := split_eq_ok coherent found splits
  exact ⟨after, _, done, view, view.weight_lt coherent, restarts_split done⟩

theorem splits_ahead (stays : sub.stop ≠ .atExit) (positive : 1 ≤ distance)
    (reaches : distance < sub.stop - sub.start) : sub.Splits (sub.start + distance) :=
  ⟨stays, by lia, by lia⟩

section

variable (coherent : alloc.Coherent)

include coherent

theorem weight_explode_of_boundary (found : alloc.subrange? id = some sub)
    (boundary : sub.start = .atEntry ∨ sub.stop = .atExit) :
    (alloc.explode sub.range).weight < alloc.weight := by
  obtain ⟨range, live⟩ := coherent.range_live found
  refine weight_explode_lt coherent live ((coherent.mem_subranges live).mpr ⟨sub, found, rfl⟩) ?_
  rw [subrange_eq_of_some found]
  exact boundary

variable (found : alloc.subrange? sub.id = some sub)

include found

theorem lightens_explodeCheapest (affordable : alloc.Affordable) (exit : sub.stop = .atExit)
    (present : ∀ other ∈ live, alloc.subrange? other.id = some other) :
    alloc.Lightens (alloc.explodeCheapest sub live) := by
  rcases explodeCheapest_eq coherent found exit present with
    ⟨other, id, otherFound, leaves, equal⟩ | ⟨costs, -⟩
  · exact ⟨_, equal, weight_explode_of_boundary coherent otherFound (.inr leaves),
      restarts_explode _ _⟩
  · obtain ⟨range, live⟩ := coherent.range_live found
    rw [range_eq_of_some live] at costs
    exact absurd (affordable.replacement live) (Int.not_lt.mpr costs)

variable (stays : sub.stop ≠ .atExit)

include stays

theorem exists_splitAhead (positive : 1 ≤ distance) :
    ∃ after, alloc.splitAhead sub distance = .ok after ∧
      after.weight ≤ alloc.weight ∧ after.stats.restarts = alloc.stats.restarts := by
  rw [splitAhead]
  split
  next reaches =>
    obtain ⟨after, tail, done, -, lighter, restarts⟩ :=
      exists_split coherent found (splits_ahead stays positive reaches)
    rw [done]
    exact ⟨after, rfl, Nat.le_of_lt lighter, restarts⟩
  · exact ⟨alloc, rfl, Nat.le_refl _, rfl⟩

theorem lightens_useAvailable (positive : 1 ≤ least)
    (chosen : alloc.availableStrategy sub unused least = some strategy) :
    alloc.Lightens (alloc.useAvailable sub strategy) := by
  obtain ⟨far, reaches⟩ := distance_of_availableStrategy chosen
  obtain ⟨after, tail, done, -, lighter, restarts⟩ :=
    exists_split coherent found (splits_ahead stays (Int.le_trans positive far) reaches)
  exact ⟨after, by rw [useAvailable, done]; rfl, lighter, restarts⟩

/-- Splitting another subrange and then this one makes an allocation lighter. -/
theorem lightens_splitBoth (otherFound : alloc.subrange? other.id = some other)
    (ne : other.id ≠ sub.id) (positive : 1 ≤ distance)
    (splits : other.Splits (sub.start + distance)) :
    alloc.Lightens (do
      let (alloc, _) ← alloc.split other.id (sub.start + distance) true
      alloc.splitAhead sub distance) := by
  obtain ⟨middle, tail, done, view, lighter, restarts⟩ := exists_split coherent otherFound splits
  have kept : middle.subrange? sub.id = some sub := by
    rw [view.subrange?_eq, if_neg (Ne.symm ne),
      if_neg (Nat.ne_of_lt (lt_nextSubrange_of_subrange? found))]
    exact found
  obtain ⟨after, ahead, notHeavier, restarts'⟩ :=
    exists_splitAhead ((view.refines coherent).coherent_after coherent) kept stays positive
  refine ⟨after, ?_, by lia, restarts'.trans restarts⟩
  rw [done]
  exact ahead

variable (present : ∀ other ∈ live, alloc.subrange? other.id = some other)
  (beside : ∀ other ∈ live,
    other.id ≠ sub.id ∧ other.start ≤ sub.start ∧ other.segment = sub.segment)
  (positive : 1 ≤ least)

include present beside positive

theorem lightens_cutHole (chosen : alloc.holeStrategy sub live least = some strategy) :
    alloc.Lightens (alloc.cutHole sub strategy) := by
  obtain ⟨other, listed, victim, otherStays, distance, far, needed⟩ := victim_of_holeStrategy chosen
  have otherFound := present other listed
  obtain ⟨ne, earlier, -⟩ := beside other listed
  have positive := Int.le_trans positive far
  have bounds := coherent.start_bounds found
  -- The hole ends at an access of the other subrange.
  have splits : other.Splits (sub.start + strategy.distance) := by
    rcases coherent.untilNextUse_cases otherFound bounds.1 bounds.2 with
      ⟨loc, accessed, -, ahead⟩ | ⟨never, -⟩
    · have covered := (coherent.ordered otherFound).covered accessed
      exact ⟨otherStays, by lia, by lia⟩
    · exact absurd (distance.trans never) needed
  unfold cutHole
  extract_lets counted
  rw [victim]
  have reassigns : alloc.Reassigns counted := reassigns_tally coherent.lists _
  have weight : counted.weight = alloc.weight := weight_tally _ _
  obtain ⟨after, done, lighter, restarts⟩ := lightens_splitBoth
    (reassigns.adjusts.coherent coherent) found stays otherFound ne positive splits
  exact ⟨after, done, weight ▸ lighter, restarts⟩

theorem lightens_explodeFor (chosen : alloc.explodeStrategy sub live least = some strategy) :
    alloc.Lightens (alloc.explodeFor sub strategy) := by
  obtain ⟨other, listed, victim, exit, far⟩ := victim_of_explodeStrategy chosen
  have otherFound := present other listed
  obtain ⟨ne, -, same⟩ := beside other listed
  obtain ⟨range, live⟩ := coherent.range_live otherFound
  have view := explodeAt_of_found coherent live
  have elsewhere : sub.id ∉ range.subranges := by
    intro listed
    obtain ⟨part, partFound, inside⟩ := (coherent.mem_subranges live).mp listed
    cases found.symm.trans partFound
    exact ne (coherent.alone otherFound found inside.symm same)
  have kept : (alloc.explode other.range).subrange? sub.id = some sub := by
    rw [view.subrange?_old (lt_nextSubrange_of_subrange? found), if_neg elsewhere, found]
  obtain ⟨after, ahead, notHeavier, restarts⟩ :=
    exists_splitAhead ((view.refines coherent).coherent_after coherent) kept stays
      (Int.le_trans positive far)
  have lighter := weight_explode_of_boundary coherent otherFound (.inr exit)
  refine ⟨after, ?_, by lia, restarts.trans (restarts_explode _ _)⟩
  rw [explodeFor, victim]
  exact ahead

end

theorem Stuck.lightens {live} (stuck : Stuck seg id sub rest live alloc)
    (affordable : alloc.Affordable) (few : alloc.registers ≤ 32)
    (accepted : operandError? alloc.graph alloc.registers = none) :
    alloc.Lightens (alloc.resolveStuck seg sub live) := by
  have coherent := stuck.scanning.sound.coherent
  obtain ⟨found, present⟩ := stuck.present
  have beside : ∀ other ∈ live.reverse.map (·.subrange), other.id ≠ sub.id ∧
      other.start ≤ sub.start ∧ other.segment = sub.segment := by
    intro other listed
    obtain ⟨holder, mem, rfl⟩ := mem_map.mp listed
    have mem := mem_reverse.mp mem
    have visited := subrange_eq_of_some stuck.found
    have number := coherent.subrange_id stuck.found
    refine ⟨?_, ?_, ?_⟩
    · intro same
      exact stuck.scanning.visited holder mem (same ▸ number ▸ mem_cons_self)
    · rw [← visited]
      exact stuck.scanning.earlier holder mem id mem_cons_self
    · rw [← visited, stuck.scanning.found.2]
      exact (stuck.scanning.holds holder mem).here
  have resolution := resolution_resolveConflict alloc seg sub
    (live.reverse.map (·.subrange)) (alloc.unusedBeside live)
  rw [resolveStuck]
  generalize alloc.resolveConflict seg sub (live.reverse.map (·.subrange))
    (alloc.unusedBeside live) = result at resolution
  cases resolution with
  | replace exit => exact lightens_explodeCheapest coherent found affordable exit present
  | explode stays positive chosen =>
    exact lightens_explodeFor coherent found stays present beside positive chosen
  | use stays positive chosen => exact lightens_useAvailable coherent found stays positive chosen
  | cut stays positive chosen =>
    exact lightens_cutHole coherent found stays present beside positive chosen
  | yield stays entry =>
    exact ⟨_, rfl, weight_explode_of_boundary coherent found (.inl entry), restarts_explode _ _⟩
  | fail stays inside noHole noneAvailable noExplosion =>
    exact absurd ⟨stuck, affordable, stays, inside, noHole, noneAvailable, noExplosion⟩
      (not_cornered few accepted)

theorem Progress.weight_eq {before after} (progress : Progress before after) :
    after.weight = before.weight :=
  weight_congr progress.reassigns.subrange?_eq progress.reassigns.nextSubrange_eq

section

variable (sound : alloc.Sound) (few : alloc.registers ≤ 32)
  (accepted : operandError? alloc.graph alloc.registers = none)
  (affordable : ∀ reached, Steps alloc reached → reached.Affordable)

include sound few accepted affordable

theorem pass_lightens :
    ∃ after, after.stats.restarts = alloc.stats.restarts ∧ Steps alloc after ∧
      (assignSegments (hottestFirst alloc.graph) alloc = .ok (.complete after) ∨
        after.weight < alloc.weight ∧
          assignSegments (hottestFirst alloc.graph) alloc = .ok (.changed after)) := by
  have members : ∀ seg ∈ hottestFirst alloc.graph, seg ∈ alloc.graph.order :=
    fun _ => mem_hottestFirst_iff.mp
  have outcome := outcome_assignSegments sound members
  generalize pass_eq : assignSegments (hottestFirst alloc.graph) alloc = pass at outcome
  cases outcome with
  | @complete after =>
    obtain ⟨progress, -⟩ := completed_assignSegments sound.coherent members pass_eq
    exact ⟨after, progress.restarts_eq, progress.steps, .inl rfl⟩
  | @stuck middle segment id sub rest live progress stuck =>
    have target := progress.steps.target_eq sound.coherent
    rw [← target.2] at few
    rw [← target.1, ← target.2] at accepted
    obtain ⟨after, done, lighter, restarts⟩ :=
      stuck.lightens (affordable middle progress.steps) few accepted
    rw [done] at pass_eq ⊢
    have changes := changes_assignSegments members pass_eq
    refine ⟨after, restarts.trans progress.restarts_eq, changes.steps sound.coherent,
      .inr ⟨?_, rfl⟩⟩
    rw [← progress.weight_eq]
    exact lighter

/-- More passes than an allocation weighs settle it, with at most as many restarts. -/
theorem settle_eq_ok (limit : Int) (enough : alloc.weight < passes) :
    ∃ after, settle limit passes alloc = .ok after ∧
      after.stats.restarts ≤ alloc.stats.restarts + alloc.weight := by
  induction passes generalizing alloc with
  | zero => exact absurd enough (Nat.not_lt_zero _)
  | succ passes ih =>
    obtain ⟨after, restarts, steps, outcome⟩ := pass_lightens sound few accepted affordable
    rw [settle]
    rcases outcome with complete | ⟨lighter, changed⟩
    · rw [complete]
      exact ⟨after, rfl, by lia⟩
    · rw [changed]
      have restart : Steps alloc (after.tally fun stats =>
          { stats with restarts := stats.restarts + 1 }) := steps.tail (.tally _)
      have target := restart.target_eq sound.coherent
      have weight := weight_tally after fun stats =>
        { stats with restarts := stats.restarts + 1 }
      obtain ⟨final, settled, bound⟩ := ih (restart.sound sound)
        (by rwa [target.2]) (by rwa [target.1, target.2])
        (fun reached more => affordable reached (restart.trans more)) (by lia)
      have counted : (after.tally fun stats =>
          { stats with restarts := stats.restarts + 1 }).stats.restarts =
            after.stats.restarts + 1 := rfl
      exact ⟨final, settled, by lia⟩

end

/-- If no instruction needs more registers than the host has and no strategy is too expensive,
every pass of an assignment completes or leaves a lighter allocation.  So the assignment settles
within one more pass than three for each subrange and one for each access at first. -/
theorem assignment_settles
    {graph : Graph}
    (numbered : graph.Numbered)
    (short : graph.IsShort)
    {registers : Int}
    (positive : 1 ≤ registers)
    (few : registers ≤ 32)
    (accepted : operandError? graph registers = none)
    (affordable : ∀ reached, Steps (ofGraph graph registers) reached → reached.Affordable) :
    (∀ reached, Steps (ofGraph graph registers) reached →
      ∃ after, Steps reached after ∧
        (assignSegments (hottestFirst graph) reached = .ok (.complete after) ∨
          after.weight < reached.weight ∧
            assignSegments (hottestFirst graph) reached = .ok (.changed after))) ∧
    ∀ limit : Int, 3 * (ofGraph graph registers).liveSubranges.length +
        ((ofGraph graph registers).liveSubranges.map (·.locations.length)).sum < limit →
      ∃ after, (ofGraph graph registers).assignRegisters limit = .ok after ∧
        after.stats.restarts ≤ 3 * (ofGraph graph registers).liveSubranges.length +
          ((ofGraph graph registers).liveSubranges.map (·.locations.length)).sum := by
  have sound := sound_ofGraph numbered short (Int.le_trans (by decide) positive)
  have start := registers_ofGraph graph registers
  have same := graph_ofGraph graph registers
  constructor
  · intro reached steps
    have target := steps.target_eq sound.coherent
    rw [start, same] at target
    obtain ⟨after, -, more, outcome⟩ := pass_lightens (steps.sound sound) (by rwa [target.2])
      (by rwa [target.1, target.2]) fun later more => affordable later (steps.trans more)
    rw [target.1] at outcome
    exact ⟨after, more, outcome⟩
  · intro limit enough
    have weight := (ofGraph graph registers).weight_le
    obtain ⟨after, settled, restarts⟩ := settle_eq_ok sound (by rwa [start])
      (by rwa [same, start]) affordable limit
      (show (ofGraph graph registers).weight < limit.toNat by lia)
    rw [restarts_ofGraph, Nat.zero_add] at restarts
    exact ⟨after, settled, Nat.le_trans restarts weight⟩

theorem summingLoop_settles :
    summingLoop.Numbered ∧ summingLoop.IsShort ∧ operandError? summingLoop 3 = none ∧
      (∀ reached, Steps (ofGraph summingLoop 3) reached → reached.Affordable) ∧
      ∃ after, (ofGraph summingLoop 3).assignRegisters 49 = .ok after ∧
        after.stats.restarts ≤ 48 := by
  have numbered : summingLoop.Numbered := by decide
  have short : summingLoop.IsShort := by decide
  have accepted : operandError? summingLoop 3 = none := by decide
  have affordable : ∀ reached, Steps (ofGraph summingLoop 3) reached → reached.Affordable := by
    intro reached steps
    have start := coherent_ofGraph numbered short 3
    refine (steps.coherent start).affordable ?_
    rw [(steps.target_eq start).1, graph_ofGraph]
    decide
  have bound : 3 * (ofGraph summingLoop 3).liveSubranges.length +
      ((ofGraph summingLoop 3).liveSubranges.map (·.locations.length)).sum = 48 := by
    decide +kernel
  have settles := assignment_settles numbered short (by decide) (by decide) accepted affordable
  obtain ⟨after, settled, restarts⟩ := settles.2 49 (by lia)
  exact ⟨numbered, short, accepted, affordable, after, settled, bound ▸ restarts⟩

example : ((ofGraph summingLoop 3).assignRegisters 2).isOk = false := by decide +kernel

end Dynarec.Allocation
