import StoryManifest.Ignore.Exclusion
import StoryManifest.Story.File

/-!
Finding the stories below a directory of components. They come in the order of their paths, step by
step.
-/

namespace StoryManifest

/-- Names from a directory on lead to a story that is not left out. -/
def reachesStory (t : FileTree) (x : Ignore.Exclusion) (base : Location) (names : List String) : Bool :=
  (names.getLast?.any Story.isStoryName) && Ignore.reaches t x base [] names

/-- The path that names lead to from a directory. -/
def Path.descend (directory : Path) (names : List String) : Path := names.foldl Path.join directory

/-- The stories below a directory; none where there is no directory. -/
def discover? (t : FileTree) (x : Ignore.Exclusion) (directory : Path) : Option (List Path) :=
  match t.locate directory with
  | .error _ => none
  | .ok base =>
    if t.get? base = some .directory then
      some (Path.sort (((Ignore.filesBelow t base).filter (reachesStory t x base)).map
        (Path.descend directory)))
    else none

end StoryManifest
