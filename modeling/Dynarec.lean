import Dynarec.Files.Workspace
import Dynarec.Graph.Ledger
import Dynarec.Graph.Marks
import Dynarec.Main
import Dynarec.Proofs.Allocation.Boundary
import Dynarec.Proofs.Allocation.Components
import Dynarec.Proofs.Allocation.Division
import Dynarec.Proofs.Allocation.Settling
import Dynarec.Proofs.Assembly.Branches
import Dynarec.Proofs.Compiler.Transparency
import Dynarec.Proofs.Graph.Editing
import Dynarec.Proofs.Graph.Length
import Dynarec.Proofs.Graph.LoopDepth
import Dynarec.Proofs.Graph.LoopGuards
import Dynarec.Proofs.Graph.LoopNames
import Dynarec.Proofs.Graph.Points
import Dynarec.Proofs.Graph.Sources
import Dynarec.Proofs.Graph.Succession
import Dynarec.Proofs.Graph.TightLoops
import Dynarec.Proofs.Guest.Shortcuts
import Dynarec.Proofs.Guest.Support
import Dynarec.Proofs.Guest.Update
import Dynarec.Proofs.JumpTable.Confluence
import Dynarec.Proofs.JumpTable.Invalidation
import Dynarec.Proofs.Run.Preservation
import Dynarec.Proofs.Run.Segmentation
import Dynarec.Proofs.Stream.Abandonment
import Dynarec.Proofs.Stream.Form
