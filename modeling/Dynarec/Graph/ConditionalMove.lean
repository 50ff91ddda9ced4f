import Dynarec.Graph.Basic

/-!
# Conditional assignments

A branch on the first condition register field that only skips a few immediate
assignments is folded: the assignments become conditional and move into the
branching segment.  The skipped segment is left empty and still falls through.
-/

namespace Dynarec
namespace Graph

/-- The most assignments that are folded into one segment. -/
def maxConditionalMoves : Nat := 4

/-- Whether an instruction assigns an immediate and does nothing else. -/
def isPlainAssignment (instr : Instruction Register) : Bool :=
  instr.kind = .immediate && instr.op = .assign && instr.conditionField = none

/-- Whether a skipped segment only assigns immediates before it reaches `join`. -/
def isFoldable (seg : Segment) (join : SegmentId) : Bool :=
  seg.prev.length = 1 && !seg.enterable && !seg.isDestination &&
    seg.taken = none && seg.notTaken = some join &&
    0 < seg.length && seg.length ≤ maxConditionalMoves &&
    seg.instructions.all isPlainAssignment

/-- Whether an instruction is a jump that tests the first condition register field. -/
def isFoldableJump (instr : Instruction Register) : Bool :=
  instr.kind = .jump && instr.guard = .conditionBit &&
    instr.guardField = 0 && !instr.bySegment

/-- An assignment that takes effect when a jump is not taken. -/
def conditionalMove (jump assignment : Instruction Register) : Instruction Register :=
  { (Instruction.conditionalImmediate .assign assignment.result assignment.imm
      ⟨jump.guardField, jump.guardBit, !jump.guardSet⟩ : Instruction Register) with
    address := assignment.address }

/-- The branch at the end of a segment folded, if it only skips assignments. -/
def foldBranch (graph : Graph) (id : SegmentId) : Graph :=
  let seg := graph.segment id
  match seg.last?, seg.taken, seg.notTaken with
  | some jump, some join, some skippedId =>
      let skipped := graph.segment skippedId
      if isFoldableJump jump && isFoldable skipped join then
        let moves := skipped.instructions.map (conditionalMove jump)
        let graph := graph.modify id fun seg =>
          ((seg.remove (seg.length - 1) 1).append moves).refreshAddresses
        let graph := graph.setTaken id none
        graph.modify skippedId fun skipped => { skipped with instructions := [] }.refreshAddresses
      else graph
  | _, _, _ => graph

/-- Folds all branches that can be folded. -/
def foldConditionalMoves (graph : Graph) : Graph :=
  graph.order.foldl foldBranch graph

end Graph
end Dynarec
