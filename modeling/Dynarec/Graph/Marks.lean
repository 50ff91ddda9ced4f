import Dynarec.Graph.Segment

/-!
# Marks for graph walks

Marks remember for each segment the walk that saw it last.  A new walk needs no
clearing, it only takes the next number.
-/

namespace Dynarec

/-- The walk that saw each segment last. -/
structure Marks where
  walk : Nat := 0
  seen : List (SegmentId × Nat) := []
deriving Repr

namespace Marks

/-- The walk that saw a segment last, zero if none did. -/
def lastSeen (marks : Marks) (id : SegmentId) : Nat :=
  (marks.seen.lookup id).getD 0

/-- Begins a new walk. -/
def next (marks : Marks) : Marks :=
  { marks with walk := marks.walk + 1 }

/-- A segment seen by the current walk, and whether it was new to it. -/
def visit (marks : Marks) (id : SegmentId) : Bool × Marks :=
  if marks.lastSeen id = marks.walk then (false, marks)
  else (true, { marks with seen := (id, marks.walk) :: marks.seen })

end Marks
end Dynarec
