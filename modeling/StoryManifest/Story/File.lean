import StoryManifest.Path

/-!
Names of files. A story is told by the end of its file name; the implementation of a component has the
name of the directory and one of a few extensions.
-/

namespace StoryManifest.Story

/-- The extensions of stories. -/
def storyExtensions : List String := ["js", "jsx", "mjs", "cjs", "ts", "tsx"]

/-- The extensions of implementations, in the order in which they are looked for. -/
def sourceExtensions : List String := ["js", "jsx", "ts", "tsx"]

/-- The name before an ending, if it has that ending. -/
def beforeEnding? (ending name : List Char) : Option (List Char) :=
  if ending.isSuffixOf name then some (name.take (name.length - ending.length)) else none

/-- A name may stand before the ending of a story. -/
def isStoryStem (stem : List Char) : Bool := !stem.isEmpty && '/' ∉ stem && '\\' ∉ stem

/-- The name of a story. -/
def isStoryName (name : String) : Bool :=
  storyExtensions.any fun extension =>
    (beforeEnding? (".stories." ++ extension).toList name.toList).any isStoryStem

/-- The path of a story. -/
def isStoryFile (p : Path) : Bool := (Path.fileName? p).any isStoryName

/-- The path has the extension of an implementation. -/
def isSourceFile (p : Path) : Bool := (Path.extension? p).any (· ∈ sourceExtensions)

end StoryManifest.Story
