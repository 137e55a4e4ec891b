import StoryManifest.CommandLine.Arguments
import StoryManifest.Configuration
import StoryManifest.Component

/-!
Commands with their options, as arguments ask for them. Options of a command go before the settings of
the project, and these before the defaults.
-/

namespace StoryManifest.CommandLine

/-- Options about what a manifest is made from and where it goes. -/
structure CommonOptions where
  componentsDir : Option Path := none
  output : Option Path := none
  exclude : List String := []
  noGitignore : Bool := false
  deriving DecidableEq, Repr

/-- The commands. -/
inductive Command where
  | generate (dryRun strict : Bool) (common : CommonOptions)
  | inspect (story : Path)
  | check (strict : Bool) (common : CommonOptions)
  | watch (debounce : Nat) (clear : Bool) (common : CommonOptions)
  deriving DecidableEq, Repr

/-- A command with the options that all commands have. -/
structure Invocation where
  root : Option Path
  verbose : Bool
  quiet : Bool
  command : Command
  deriving DecidableEq, Repr

/-! ### Options and settings -/

namespace CommonOptions

/-- What a manifest is made from. -/
def settings (o : CommonOptions) (root : Path) (c : Configuration) : BuildSettings :=
  { directory := Path.join root (o.componentsDir.getD c.componentsDir)
    version := c.version
    baseDir := c.baseDir
    exclusion := ⟨c.exclude ++ o.exclude, !o.noGitignore⟩ }

/-- Where a manifest goes. -/
def outputPath (o : CommonOptions) (root : Path) (c : Configuration) : Path :=
  Path.join root (o.output.getD c.output)

end CommonOptions

/-! ### The options of commands -/

/-- Options that all commands have. -/
def globalSpecs : List Spec :=
  [⟨.root, "root", some 'r', .path⟩, ⟨.verbose, "verbose", some 'v', .nothing⟩,
    ⟨.quiet, "quiet", some 'q', .nothing⟩, ⟨.help, "help", some 'h', .answer .help⟩,
    ⟨.version, "version", some 'V', .answer .version⟩]

/-- Options about what a manifest is made from and where it goes. -/
def commonSpecs : List Spec :=
  [⟨.componentsDir, "components-dir", none, .path⟩, ⟨.output, "output", some 'o', .path⟩,
    ⟨.exclude, "exclude", none, .texts⟩, ⟨.noGitignore, "no-gitignore", none, .nothing⟩]

/-- Fails when a component was skipped. -/
def strictSpec : Spec := ⟨.strict, "strict", none, .nothing⟩

/-- What may come before a subcommand. -/
def topGrammar : Grammar := { specs := globalSpecs, hasSubcommands := true }

/-- What may come after a subcommand. -/
def grammarOf (subcommand : String) : Grammar :=
  if subcommand = "generate" then
    { specs := globalSpecs ++ [⟨.dryRun, "dry-run", none, .nothing⟩, strictSpec] ++ commonSpecs }
  else if subcommand = "inspect" then { specs := globalSpecs, positional := some .story }
  else if subcommand = "check" then { specs := globalSpecs ++ [strictSpec] ++ commonSpecs }
  else
    { specs := globalSpecs ++ [⟨.debounce, "debounce", none, .number⟩,
        ⟨.clear, "clear", none, .nothing⟩] ++ commonSpecs }

/-- The delay after a change when none is given, in milliseconds. -/
def defaultDebounce : Nat := 200

/-- The common options that were given. -/
def commonOf (g : Given) : CommonOptions :=
  { componentsDir := g.value? .componentsDir
    output := g.value? .output
    exclude := g.all .exclude
    noGitignore := g.has .noGitignore }

/-- The command of a subcommand with what was given to it. -/
def commandOf (subcommand : String) (g : Given) : Except UsageFault Command :=
  if subcommand = "generate" then .ok (.generate (g.has .dryRun) (g.has .strict) (commonOf g))
  else if subcommand = "inspect" then
    match g.value? .story with
    | some story => .ok (.inspect story)
    | none => .error .missingArgument
  else if subcommand = "check" then .ok (.check (g.has .strict) (commonOf g))
  else
    .ok (.watch (((g.value? .debounce).bind numberOf?).getD defaultDebounce) (g.has .clear)
      (commonOf g))

/-! ### Whole command lines -/

/-- Asking for more and for less at one place contradict each other. -/
def checkConflict (g : Given) : Except UsageFault Unit :=
  if g.has .verbose ∧ g.has .quiet then .error .conflict else .ok ()

/-- The answer to a question for help about a subcommand. -/
def helpAbout : List String → UsageFault
  | [] => .help
  | [subcommand] => if subcommand ∈ subcommands then .help else .invalidSubcommand
  | _ => .invalidSubcommand

/-- Reads what comes after a subcommand. -/
def readSubcommand (subcommand : String) (arguments : List String) :
    Except UsageFault (Given × Command) := do
  let (g, _) ← readArguments (grammarOf subcommand) { } arguments
  let g ← g.settle
  checkConflict g
  return (g, ← commandOf subcommand g)

/-- What a command line asks for. A root after the subcommand goes before one in front of it. -/
def parse (arguments : List String) : Except UsageFault Invocation := do
  let (top, rest) ← readArguments topGrammar { } arguments
  match rest with
  | none =>
    let top ← top.settle
    .error (if top.values.isEmpty then .nothingAsked else .missingSubcommand)
  | some (subcommand, arguments) =>
    if subcommand = "help" then .error (helpAbout arguments)
    else
      let (g, command) ← readSubcommand subcommand arguments
      let top ← top.settle
      checkConflict top
      return {
        root := (g.value? .root).or (top.value? .root)
        verbose := g.has .verbose || top.has .verbose
        quiet := g.has .quiet || top.has .quiet
        command }

end StoryManifest.CommandLine
