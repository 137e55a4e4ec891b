import StoryManifest.Manifest.Record

/-!
Comparing a manifest with the one that is expected, component by component. Components are told apart
by name; where a manifest has a name several times, the last component of the name stands for it.
-/

namespace StoryManifest

/-- How a manifest differs from the expected one, by names of components. -/
structure Comparison where
  added : List String
  removed : List String
  changed : List String
  deriving DecidableEq, Repr

namespace Comparison

/-- No component differs. -/
def isEmpty (c : Comparison) : Bool := c.added.isEmpty && c.removed.isEmpty && c.changed.isEmpty

/-- The last component of a name. -/
def last? (m : Manifest) (name : String) : Option ComponentRecord :=
  m.components.reverse.find? (·.name == name)

/-- The component has no counterpart in another manifest. -/
def isNew (other : Manifest) (r : ComponentRecord) : Bool := (last? other r.name).isNone

/-- The component differs from its counterpart in another manifest. -/
def isChanged (other : Manifest) (r : ComponentRecord) : Bool :=
  match last? other r.name with
  | some s => !s.same r
  | none => false

/-- What differs between a manifest and the one that is expected. -/
def of (current expected : Manifest) : Comparison :=
  { added := (expected.components.filter (isNew current)).map (·.name)
    removed := (current.components.filter (isNew expected)).map (·.name)
    changed := (expected.components.filter (isChanged current)).map (·.name) }

end Comparison

end StoryManifest
