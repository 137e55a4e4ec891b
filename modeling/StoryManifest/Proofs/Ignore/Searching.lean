import Mathlib.Data.List.Basic
import StoryManifest.Ignore.Exclusion

/-!
Where a search goes. It never goes to a name of a directory that holds no sources, at any depth and
whatever else is left out. Beyond the patterns it depends on the files with rules alone: in trees with the
same files it takes the same steps.
-/

namespace StoryManifest.Glob

variable {separated : Bool} {r : List UInt8}

theorem bytesOfText_append (s t : String) : bytesOfText (s ++ t) = bytesOfText s ++ bytesOfText t := by
  simp [bytesOfText]

theorem rowRests_mono : ∀ {ps : List Part} {starts more : List (List UInt8)}, starts ⊆ more →
    r ∈ rowRests separated ps starts → r ∈ rowRests separated ps more
  | [], _, _, h, hr => by
    rw [rowRests] at hr ⊢
    exact h hr
  | p :: ps, starts, more, h, hr => by
    rw [rowRests] at hr ⊢
    refine rowRests_mono (fun s hs => ?_) hr
    rw [List.mem_eraseDups, List.mem_flatMap] at hs ⊢
    obtain ⟨start, hstart, hs⟩ := hs
    exact ⟨start, h hstart, hs⟩

/-- Bytes match themselves. -/
theorem rowRests_bytes (bs cs : List UInt8) : rowRests separated (bs.map .byte) [bs ++ cs] = [cs] := by
  induction bs with
  | nil => rw [List.map_nil, rowRests, List.nil_append]
  | cons b bs ih => simpa [rowRests, Part.rests, afterByte, List.eraseDups_cons] using ih

theorem mem_tailsAfterSlash (before after : List UInt8) :
    after ∈ tailsAfterSlash (before ++ slash :: after) := by
  induction before with
  | nil => simp [tailsAfterSlash]
  | cons b before ih =>
    rw [List.cons_append, tailsAfterSlash]
    split
    · exact List.mem_cons_of_mem _ ih
    · exact ih

/-- Behind any directories, a literal pattern matches the paths that end in its name. -/
theorem covers_leading (above : List String) (name : String) :
    covers true (.leading :: (bytesOfText name).map .byte) ("/".intercalate (above ++ [name])) = true := by
  have hrests :
      bytesOfText name ∈ Part.rests true .leading (bytesOfText ("/".intercalate (above ++ [name]))) := by
    rw [Part.rests]
    cases above with
    | nil => simp
    | cons first above =>
      have hslash : bytesOfText "/" = [slash] := rfl
      rw [String.intercalate_append_of_ne_nil (by simp) (by simp), String.intercalate_singleton,
        bytesOfText_append, bytesOfText_append, hslash, List.append_assoc, List.singleton_append]
      exact List.mem_cons_of_mem _ (mem_tailsAfterSlash _ _)
  -- Once the directories are passed, the bytes of the name use up what is left.
  unfold covers
  split
  · rfl
  · rw [List.contains_iff_mem, rowRests, List.flatMap_singleton]
    have hself : rowRests true ((bytesOfText name).map .byte) [bytesOfText name] = [[]] := by
      simpa using rowRests_bytes (bytesOfText name) []
    have hstart : [bytesOfText name] ⊆
        (Part.rests true .leading (bytesOfText ("/".intercalate (above ++ [name])))).eraseDups := by
      simpa [List.mem_eraseDups] using hrests
    exact rowRests_mono hstart (by simp [hself])

end StoryManifest.Glob

namespace StoryManifest.Ignore

/-! ### Directories without sources -/

theorem ofPattern?_generated {name : String} (h : name ∈ generatedDirectories) :
    Rule.ofPattern? name = some ⟨false, false, .leading :: (Glob.bytesOfText name).map .byte⟩ := by
  have hall : ∀ name ∈ generatedDirectories,
      Rule.ofPattern? name = some ⟨false, false, .leading :: (Glob.bytesOfText name).map .byte⟩ := by
    simp only [generatedDirectories, List.forall_mem_cons]
    exact ⟨rfl, rfl, rfl, rfl, rfl, rfl, rfl, rfl, rfl, rfl, by simp⟩
  exact hall name h

theorem omits_generated (x : Exclusion) (isDirectory : Bool) (above : List String) {name : String}
    (h : name ∈ generatedDirectories) :
    x.omits isDirectory ("/".intercalate (above ++ [name])) = true := by
  have hpattern : name ∈ Exclusion.generatedPatterns := List.mem_flatMap.mpr ⟨name, h, by simp⟩
  refine List.any_eq_true.mpr ⟨_, List.mem_filterMap.mpr
    ⟨name, List.mem_append_left _ hpattern, ofPattern?_generated h⟩, ?_⟩
  simp [Rule.covers, Glob.covers_leading]

/-- A search never goes to a directory without sources. -/
theorem notMem_generated_of_reaches {t : FileTree} {x : Exclusion} {base : Location} :
    ∀ {names above : List String}, reaches t x base above names = true →
      ∀ name ∈ names, name ∉ generatedDirectories
  | [], _, _ => by simp
  | first :: names, above, h => by
    rw [reaches, Bool.and_eq_true, enters, Bool.and_eq_true, Bool.not_eq_true'] at h
    obtain ⟨⟨hfirst, -⟩, hrest⟩ := h
    refine List.forall_mem_cons.mpr ⟨fun hgenerated => ?_, notMem_generated_of_reaches hrest⟩
    rw [omits_generated x _ above hgenerated] at hfirst
    cases hfirst

/-! ### Files with rules -/

/-- Both trees have the same text in all files with rules. -/
def SameRules (t t' : FileTree) : Prop :=
  ∀ (s : Source) (directory : Location), t'.intactText? (s.location directory) =
    t.intactText? (s.location directory)

section

variable {t t' : FileTree} (h : SameRules t t')

include h

theorem verdictAt?_eq (s : Source) (isDirectory : Bool) (directory : Location) (names : List String) :
    verdictAt? t' s isDirectory directory names = verdictAt? t s isDirectory directory names := by
  rw [verdictAt?, verdictAt?, rulesAt, rulesAt, h s directory]

theorem nearestVerdict?_eq (s : Source) (isDirectory : Bool) : ∀ outer names : List String,
    nearestVerdict? t' s isDirectory outer names = nearestVerdict? t s isDirectory outer names
  | [], names => verdictAt?_eq h s isDirectory [] names
  | name :: outer, names => by
    rw [nearestVerdict?, nearestVerdict?, verdictAt?_eq h, nearestVerdict?_eq s isDirectory outer]

theorem ignores_eq (x : Exclusion) (isDirectory : Bool) (k : Location) :
    ignores t' x isDirectory k = ignores t x isDirectory k := by
  rw [ignores, ignores]
  cases k.reverse with
  | nil => rfl
  | cons name outer => simp only [nearestVerdict?_eq h]

/-- A search takes the same steps. -/
theorem reaches_eq (x : Exclusion) (base : Location) : ∀ names above : List String,
    reaches t' x base above names = reaches t x base above names
  | [], _ => rfl
  | name :: names, above => by
    rw [reaches, reaches, enters, enters, ignores_eq h, reaches_eq x base names]

end

end StoryManifest.Ignore
