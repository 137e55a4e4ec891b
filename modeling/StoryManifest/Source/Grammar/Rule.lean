import StoryManifest.Source.Lexeme

/-!
The rules of the grammar that refer to one another. Each rule is a parser that is given a parser for
every rule; `Setting` says what an expression may take in where it stands.
-/

namespace StoryManifest.Source

/-- How tightly an operator binds; an operand that needs a level takes in operators of that level and
tighter ones. -/
abbrev Level := Nat

namespace Level

/-- Everything but sequences. -/
def whole : Level := 0

/-- Conditionals and defaults for absent values. -/
def choice : Level := 1

/-- Powers, which group to the right. -/
def power : Level := 12

/-- Operands of operators in front. -/
def unary : Level := 13

/-- Operands of increments. -/
def update : Level := 14

/-- What can be assigned to. -/
def target : Level := 16

/-- What can be constructed: member accesses without calls. -/
def constructed : Level := 17

end Level

/-- What an expression may take in. -/
structure Setting where
  /-- The weakest operators it may hold. -/
  level : Level := Level.whole
  /-- The end of a line may end the statement that it ends. -/
  ends : Bool := false
  /-- It takes in the type operators after it; else they go to the whole expression around it. -/
  adopts : Bool := true
  /-- A colon must follow, as between the two values of a conditional. -/
  branch : Bool := false
  /-- A brace after it opens a body. -/
  beforeBody : Bool := false
  deriving DecidableEq, Repr

namespace Setting

/-- The setting of an operand under an operator that groups to the left. -/
def under (s : Setting) (level : Level) : Setting := { s with level, adopts := false }

/-- The setting of a whole expression after an operator that groups to the right. -/
def rightOf (s : Setting) (level : Level) : Setting := { s with level, adopts := true }

/-- Assignments, arrow functions and increments may be read at this level. -/
def isOpen (s : Setting) : Bool := s.level ≤ Level.update

end Setting

/-- The rules that refer to one another. -/
inductive Rule where
  | expression (setting : Setting)
  | sequence (ends : Bool)
  | pattern
  | statement
  | element
  | type (ends afterOperand : Bool)
  deriving DecidableEq, Repr

/-- A parser for every rule. -/
abbrev Grammar := Rule → Parser Node

namespace Grammar

open StoryManifest.Source.Parser

/-- One item of a list and the comma after it. With `holes`, an item may be left out. -/
def listStep (closer : String) (holes : Bool) (item : Parser Unit) : Parser Bool := do
  wideGap
  if ← sees closer then pure false
  else if holes && (← sees ",") then
    mark ","
    pure true
  else
    item
    if ← sees "," then
      mark ","
      pure true
    else pure false

/-- A list between brackets. -/
def bracketed (opener closer : String) (holes : Bool) (item : Parser Unit) : Parser Unit := do
  mark opener
  loop (listStep closer holes item)
  mark closer

/-- A list of at least one item between brackets. -/
def bracketedSome (opener closer : String) (item : Parser Unit) : Parser Unit := do
  mark opener
  require (!(← sees closer))
  loop (listStep closer false item)
  mark closer

/-- One or more items with commas between them. -/
def commaSeparated (item : Parser Unit) : Parser Unit := do
  item
  loop do
    if ← sees "," then
      mark ","
      item
      pure true
    else pure false

/-- Appends the token when it comes next. -/
def optionalMark (text : String) : Parser Unit := do
  if ← sees text then mark text

/-- Appends the word when it comes next. -/
def optionalWord (text : String) : Parser Unit := do
  if ← seesWord text then keyword text

/-- The text after the rest of a string, past its closing quote. -/
def afterQuote (quote : Char) : List Char → List Char
  | '\\' :: _ :: rest => afterQuote quote rest
  | c :: rest => if c = quote then rest else afterQuote quote rest
  | [] => []

/-- The text after the bracket that closes so many open ones, told apart by shape alone. -/
def afterBrackets? : Nat → Nat → List Char → Option (List Char)
  | 0, _, _ => none
  | n + 1, depth, cs =>
    match commentLength? cs with
    | some length => afterBrackets? n depth (cs.drop length)
    | none =>
      match cs with
      | [] => none
      | c :: rest =>
        if c = '"' || c = '\'' || c = '\x60' then afterBrackets? n depth (afterQuote c rest)
        else if c = '(' || c = '[' || c = '\x7b' then afterBrackets? n (depth + 1) rest
        else if c = ')' || c = ']' || c = '\x7d' then
          if depth ≤ 1 then some rest else afterBrackets? n (depth - 1) rest
        else afterBrackets? n depth rest

/-- The text from the next token on after the bracketed text that starts here. -/
def beyondBrackets (cs : List Char) : List Char :=
  match afterBrackets? (cs.length + 1) 0 cs with
  | some rest => afterTrivia rest
  | none => []

/-- The operators, each before its own beginnings. -/
def operators : List String :=
  [">>>=", "===", "!==", "**=", "<<=", ">>=", ">>>", "&&=", "||=", "??=", "=>", "==", "!=", "<=",
    ">=", "&&", "||", "??", "**", "<<", ">>", "++", "--", "+=", "-=", "*=", "/=", "%=", "&=", "|=",
    "^=", "+", "-", "*", "/", "%", "<", ">", "&", "|", "^", "=", "!"]

/-- The longest operator that starts here. -/
def operatorOf (cs : List Char) : String :=
  (operators.find? (·.toList.isPrefixOf cs)).getD ""

/-- The name of a member may start here. -/
def startsName (cs : List Char) : Bool :=
  match cs with
  | [] => false
  | c :: _ => startsWord cs || isDigit c || c = '"' || c = '\'' || c = '[' || c = '#'

end Grammar

end StoryManifest.Source
