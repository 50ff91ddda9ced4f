import Dynarec.Graph.Basic
import Dynarec.Instruction.Text

/-!
# Listings

The readable listing of a segment graph, line by line.
-/

namespace Dynarec

/-- The number of a linked segment, a negative one if there is none. -/
def linkText : Option SegmentId → String
  | none => "-1"
  | some id => toString id

/-- The line of an instruction. -/
def instructionLine (index : Nat) (instr : Instruction Register) : String :=
  "  " ++ Hex.padLeft '0' 4 (toString index) ++ " " ++ instr.text

namespace Segment

/-- The line above a segment. -/
def heading (seg : Segment) : String :=
  let part (shown : Bool) (text : String) := if shown then text else ""
  let sources := " ".intercalate (seg.prev.map toString)
  s!"segment {seg.id} [{seg.position}]" ++
    part seg.hasAddresses s!" {Hex.word seg.lowest}-{Hex.word seg.highest}" ++
    part seg.enterable s!" enter={Hex.word seg.enterAddress}" ++
    part seg.isDestination s!" dest={Hex.word seg.jumpAddress}" ++
    part (seg.loopDepth > 0) s!" loop={seg.loopDepth}" ++
    part seg.uncertain " uncertain" ++
    s!" taken={linkText seg.taken} nottaken={linkText seg.notTaken} prev=[{sources}]"

/-- The lines of a segment. -/
def listing (seg : Segment) : List String :=
  seg.heading ::
    seg.instructions.zipIdx.map fun (instr, index) => instructionLine index instr

end Segment

namespace Graph

/-- The lines of a graph. -/
def listing (graph : Graph) : List String :=
  let size := Hex.short graph.size
  s!"function {Hex.word graph.entry} size {size} vregs {graph.slots.length}" ::
    graph.inOrder.flatMap Segment.listing ++ [""]

/-- The listing of a graph as a text. -/
def listingText (graph : Graph) : String :=
  String.join (graph.listing.map (· ++ "\n"))

end Graph
end Dynarec
