import StoryManifest.Watch.Session

/-!
Comparing two observations of the files: what differs between them happened in the meantime, and what
differs between the files before and after a command is what the command changed.
-/

namespace StoryManifest.Watch

/-- A node of one tree that another one has otherwise or not at all. -/
def isNews (other : FileTree) (entry : Location × FileNode) : Bool :=
  other.get? entry.1 ≠ some entry.2

/-- The nodes that are new or different. -/
def news (earlier later : FileTree) : List (Location × FileNode) :=
  later.nodes.filter (isNews earlier)

/-- The event for a node that is new or different. -/
def eventOf (earlier : FileTree) (entry : Location × FileNode) : Event :=
  let change := if (earlier.get? entry.1).isSome then .modified else .created
  ⟨some change, [entry.1.toPath]⟩

/-- What happened between two observations. -/
def eventsBetween (earlier later : FileTree) : List Event :=
  (news earlier later).map (eventOf earlier) ++
    (earlier.nodes.filter fun entry => (later.get? entry.1).isNone).map fun entry =>
      ⟨some .deleted, [entry.1.toPath]⟩

/-- The files are seen anew, and what happened to them in the meantime is collected. -/
def Session.observe (s : Session) (later : FileTree) : Session :=
  { (eventsBetween s.tree later).foldl add s with tree := later }

end StoryManifest.Watch
