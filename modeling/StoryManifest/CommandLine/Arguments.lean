/-!
Reading the arguments of a command line into values of options. An option may be asked for by a long
name, or by a letter, of which several may share a dash; its value is attached to it or is the next
argument. What an option was given is settled when the next one starts, so that of two faults the first
one counts.
-/

namespace StoryManifest.CommandLine

/-- Why arguments do not make up a command, or ask for help or the version instead. -/
inductive UsageFault where
  | unknownArgument
  | invalidSubcommand
  | missingArgument
  | missingSubcommand
  | nothingAsked
  | invalidValue
  | malformedValue
  | conflict
  | needlessValue
  | help
  | version
  deriving DecidableEq, Repr

/-- The exit code; asking for help is no failure. -/
def UsageFault.exitCode : UsageFault → Nat
  | .help => 0
  | .version => 0
  | _ => 2

/-- Everything that may be given. -/
inductive Slot where
  | root
  | verbose
  | quiet
  | dryRun
  | strict
  | componentsDir
  | output
  | exclude
  | noGitignore
  | debounce
  | clear
  | story
  | help
  | version
  deriving DecidableEq, Repr

/-- What an option takes. -/
inductive Taking where
  | nothing
  | path
  | number
  | texts
  | answer (fault : UsageFault)
  deriving DecidableEq, Repr

/-- An option. -/
structure Spec where
  slot : Slot
  long : String
  short : Option Char
  taking : Taking

/-- A value comes with the option. -/
def Spec.takesValue (s : Spec) : Bool :=
  match s.taking with
  | .nothing => false
  | .answer _ => false
  | _ => true

/-- The names of the subcommands. -/
def subcommands : List String := ["generate", "inspect", "check", "watch", "help"]

/-- What may be given at one place: options, and either subcommands or at most one further argument. -/
structure Grammar where
  specs : List Spec
  hasSubcommands : Bool := false
  positional : Option Slot := none

/-! ### Numbers -/

/-- A number without a sign, or with a plus sign. -/
def numberOf? (text : String) : Option Nat :=
  let digits := match text.toList with
    | '+' :: rest => rest
    | cs => cs
  if digits.isEmpty || !digits.all Char.isDigit then none
  else
    let n := digits.foldl (fun n c => n * 10 + (c.toNat - '0'.toNat)) 0
    if n < Nat.pow 2 64 then some n else none

/-! ### Values -/

/-- An option that waits to be settled, with its value if that has come. -/
structure Pending where
  slot : Slot
  taking : Taking
  value : Option String

/-- What was given so far. -/
structure Given where
  values : List (Slot × String) := []
  pending : Option Pending := none
  trailing : Bool := false

namespace Given

/-- Something was given. -/
def has (g : Given) (slot : Slot) : Bool := g.values.any (·.1 = slot)

/-- The value that was given. -/
def value? (g : Given) (slot : Slot) : Option String := g.values.lookup slot

/-- All values that were given. -/
def all (g : Given) (slot : Slot) : List String :=
  (g.values.filter (·.1 = slot)).map (·.2)

/-- The pending option still waits for its value. -/
def expecting (g : Given) : Bool := g.pending.any (·.value.isNone)

/-- Adds a value. Only an option for several texts may be given again. -/
def add (g : Given) (slot : Slot) (taking : Taking) (value : String) : Except UsageFault Given :=
  if taking ≠ .texts ∧ g.has slot then .error .conflict
  else if taking = .path ∧ value = "" then .error .invalidValue
  else if taking = .number ∧ numberOf? value = none then .error .malformedValue
  else .ok { g with values := g.values ++ [(slot, value)] }

/-- Settles the pending option. -/
def settle (g : Given) : Except UsageFault Given :=
  match g.pending with
  | none => .ok g
  | some ⟨_, _, none⟩ => .error .invalidValue
  | some ⟨slot, taking, some value⟩ => { g with pending := none }.add slot taking value

/-- Gives an option that takes no value. -/
def giveFlag (g : Given) (s : Spec) : Except UsageFault Given := do
  let g ← g.settle
  match s.taking with
  | .answer fault => .error fault
  | _ => g.add s.slot .nothing ""

/-- Gives an option that takes a value, which may be attached to it. -/
def giveOption (g : Given) (s : Spec) (attached : Option String) : Except UsageFault Given := do
  let g ← g.settle
  match attached with
  | some value => g.add s.slot s.taking value
  | none => return { g with pending := some ⟨s.slot, s.taking, none⟩ }

/-- Gives an argument that is no option. -/
def givePositional (g : Given) (slot : Slot) (value : String) : Except UsageFault Given := do
  let g ← g.settle
  return { g with pending := some ⟨slot, .path, some value⟩ }

/-- Gives the pending option its value. -/
def fill (g : Given) (value : String) : Given :=
  { g with pending := g.pending.map fun p => { p with value := some value } }

end Given

/-! ### Arguments -/

/-- Reads an option by its long name. -/
def readLong (grammar : Grammar) (g : Given) (body : List Char) : Except UsageFault Given :=
  let name := String.ofList (body.takeWhile (· ≠ '='))
  let attached := match body.dropWhile (· ≠ '=') with
    | _ :: value => some (String.ofList value)
    | [] => none
  match grammar.specs.find? (·.long = name) with
  | none => .error .unknownArgument
  | some s =>
    if s.takesValue then g.giveOption s attached
    else if attached.isSome then .error .needlessValue
    else g.giveFlag s

/-- Reads options by their letters. -/
def readLetters (grammar : Grammar) : Given → List Char → Except UsageFault Given
  | g, [] => .ok g
  | g, letter :: rest =>
    match grammar.specs.find? (·.short = some letter) with
    | none => .error .unknownArgument
    | some s =>
      if s.takesValue then
        match rest with
        | [] => g.giveOption s none
        | '=' :: value => g.giveOption s (some (String.ofList value))
        | value => g.giveOption s (some (String.ofList value))
      else
        match g.giveFlag s with
        | .ok g => readLetters grammar g rest
        | .error e => .error e

/-- Reads an argument that is no option. -/
def readPositional (grammar : Grammar) (g : Given) (argument : String) : Except UsageFault Given :=
  if grammar.hasSubcommands then
    .error (if g.trailing ∧ argument ∈ subcommands then .unknownArgument else .invalidSubcommand)
  else
    match grammar.positional with
    | some slot =>
      if g.has slot || g.pending.any (·.slot = slot) then .error .unknownArgument
      else g.givePositional slot argument
    | none => .error .unknownArgument

/-- Reads an argument. After two dashes none is an option. -/
def readArgument (grammar : Grammar) (g : Given) (argument : String) : Except UsageFault Given :=
  if g.trailing then readPositional grammar g argument
  else
    match argument.toList with
    | ['-', '-'] => .ok { g with trailing := true }
    | '-' :: '-' :: body => readLong grammar g body
    | '-' :: letter :: letters => readLetters grammar g (letter :: letters)
    | _ => if g.expecting then .ok (g.fill argument) else readPositional grammar g argument

/-- Reads arguments up to the name of a subcommand, which comes back with the arguments after it. -/
def readArguments (grammar : Grammar) : Given → List String →
    Except UsageFault (Given × Option (String × List String))
  | g, [] => .ok (g, none)
  | g, argument :: rest =>
    if grammar.hasSubcommands && !g.trailing && !g.expecting && subcommands.contains argument then
      .ok (g, some (argument, rest))
    else
      match readArgument grammar g argument with
      | .ok g => readArguments grammar g rest
      | .error e => .error e

end StoryManifest.CommandLine
