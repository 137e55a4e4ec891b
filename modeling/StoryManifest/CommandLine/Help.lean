import StoryManifest.CommandLine.Invocation

/-!
What a command line is answered when it asks for help or the version, or cannot be understood.
-/

namespace StoryManifest.CommandLine

/-- The name of the program. -/
def programName : String := "prefab-manifest"

/-- The version of the program. -/
def programVersion : String := "0.1.0"

/-- What each subcommand does. -/
def subcommandTexts : List (String × String) :=
  [("generate", "Generate the manifest from all story files"),
    ("inspect", "Print the properties extracted from one story file"),
    ("check", "Check that the manifest on disk is up to date"),
    ("watch", "Watch story files and regenerate the manifest on change"),
    ("help", "Print this message or the help of the given subcommand(s)")]

/-- A name in a column of its own. -/
def column (name : String) : String := name ++ String.ofList (List.replicate (10 - name.length) ' ')

/-- The help. -/
def helpText : String :=
  "Extract component props from story files into a prefab manifest\n\n" ++
  "Usage: " ++ programName ++ " [OPTIONS] <COMMAND>\n\nCommands:\n" ++
  String.join (subcommandTexts.map fun (name, text) => "  " ++ column name ++ text ++ "\n")

/-- What is wrong with a command line. -/
def UsageFault.describe : UsageFault → String
  | .unknownArgument => "unexpected argument"
  | .invalidSubcommand => "unrecognized subcommand"
  | .missingArgument => "a required argument was not provided"
  | .missingSubcommand => "a subcommand is required"
  | .nothingAsked => "a subcommand is required"
  | .invalidValue => "a value is required"
  | .malformedValue => "invalid value"
  | .conflict => "an argument cannot be used with another one"
  | .needlessValue => "unexpected value"
  | .help => ""
  | .version => ""

/-- What a command line that runs no command is answered. -/
def UsageFault.answer : UsageFault → String
  | .help => helpText
  | .nothingAsked => helpText
  | .version => programName ++ " " ++ programVersion ++ "\n"
  | fault =>
    "error: " ++ fault.describe ++ "\n\nFor more information, try '--help'.\n"

end StoryManifest.CommandLine
