import Dynarec.Graph.JoinEdge

/-!
# The ledger of source lists

Source lists are kept on pages.  Striking an entry moves the later ones up, and
an entry beyond the end of a full page moves the whole list to a page twice as
long.  A reading names a page and a number of entries: it shows whatever stands
there when it is looked up, not what stood there when it was taken.
-/

namespace Dynarec

namespace Graph

/-- The changes made by steps on a graph, in order. -/
def changesOf {α : Type} (step : Graph → α → Graph) (changes : Graph → α → List SourceChange)
    (graph : Graph) (items : List α) : List SourceChange :=
  (items.foldl (fun (state : Graph × List SourceChange) item =>
    (step state.1 item, state.2 ++ changes state.1 item)) (graph, [])).2

/-- What happens to source lists when a taken link is set or cleared. -/
def takenChanges (graph : Graph) (source : SegmentId) (destination : Option SegmentId) :
    List SourceChange :=
  moveChanges source (graph.segment source).taken destination

/-- What setting a link does to source lists. -/
def notTakenChanges (graph : Graph) (source : SegmentId) (destination : Option SegmentId) :
    List SourceChange :=
  moveChanges source (graph.segment source).notTaken destination

/-- What happens to source lists when the links that lead to `old` move to `new`. -/
def relinkChanges (graph : Graph) (old new : SegmentId) : List SourceChange :=
  changesOf (relinkSource old new) (fun graph source =>
    let segment := graph.segment source
    (if segment.taken = some old then moveChanges source (some old) (some new) else []) ++
      (if segment.notTaken = some old then moveChanges source (some old) (some new) else []))
    graph (graph.segment old).prev

/-- What splitting edges does to source lists. -/
def joinEdgeChanges (graph : Graph) : List SourceChange :=
  changesOf splitJoinEdge (fun graph id =>
    let segment := graph.segment id
    if graph.fallsIntoJoin segment then
      moveChanges id segment.notTaken (some graph.nextId) ++
        moveChanges graph.nextId none segment.notTaken
    else []) graph graph.order

end Graph

/-- Where a source list stands in a ledger. -/
structure LedgerEntry where
  page : Nat
  count : Nat
  /-- The number of entries that the page has room for. -/
  room : Nat
deriving DecidableEq, Repr

/-- The pages, and where the source lists are on them. -/
structure Ledger where
  /-- The pages, struck entries included. -/
  pages : Array (List SegmentId) := #[]
  entries : List (SegmentId × LedgerEntry) := []
deriving Repr

namespace Ledger

/-- The entries that a reading shows. -/
def read (ledger : Ledger) (reading : Option LedgerEntry) : List SegmentId :=
  match reading with
  | none => []
  | some entry => (ledger.pages.getD entry.page []).take entry.count

/-- A reading of the source list of a segment. -/
def reading (ledger : Ledger) (seg : SegmentId) : Option LedgerEntry :=
  ledger.entries.lookup seg

/-- Puts a source list on a new page. -/
def newPage (ledger : Ledger) (seg : SegmentId) (list : List SegmentId) (room : Nat) :
    Ledger :=
  { pages := ledger.pages.push list
    entries := (seg, ⟨ledger.pages.size, list.length, room⟩) :: ledger.entries }

/-- The entries of a page changed, and the number of them that count. -/
def changePage (ledger : Ledger) (seg : SegmentId) (entry : LedgerEntry)
    (list : List SegmentId) (count : Nat) : Ledger :=
  { pages := ledger.pages.setIfInBounds entry.page list
    entries := (seg, { entry with count }) :: ledger.entries }

/-- Enters a source. -/
def enter (ledger : Ledger) (seg source : SegmentId) : Ledger :=
  match ledger.reading seg with
  | none => ledger.newPage seg [source] 2
  | some entry =>
      let page := ledger.pages.getD entry.page []
      if entry.count < entry.room then
        ledger.changePage seg entry
          (page.take entry.count ++ source :: page.drop (entry.count + 1)) (entry.count + 1)
      else ledger.newPage seg (page.take entry.count ++ [source]) (2 * entry.room)

/-- The first entry of a source struck from the list of a segment. -/
def strike (ledger : Ledger) (seg source : SegmentId) : Ledger :=
  match ledger.reading seg with
  | none => ledger
  | some entry =>
      let page := ledger.pages.getD entry.page []
      match (page.take entry.count).idxOf? source with
      | none => ledger
      | some index =>
          let kept := (page.take entry.count).eraseIdx index
          ledger.changePage seg entry (kept ++ page.drop (entry.count - 1))
            (entry.count - 1)

/-- Changes a source list. -/
def apply (ledger : Ledger) : SourceChange → Ledger
  | .strike destination source => ledger.strike destination source
  | .enter destination source => ledger.enter destination source

/-- Changes source lists, one by one. -/
def applyAll (ledger : Ledger) (changes : List SourceChange) : Ledger :=
  changes.foldl apply ledger

/-- Writes a source list anew. -/
def replace (ledger : Ledger) (seg : SegmentId) (list : List SegmentId) : Ledger :=
  list.foldl (·.enter seg ·)
    { ledger with entries := ledger.entries.filter (·.1 ≠ seg) }

end Ledger
end Dynarec
