import StoryManifest.Source.Cursor

/-!
Parsers that build syntax trees. A parser works on the rest of the text and on the node that is open:
it appends children to that node, and `node` opens one of its own. A parser that fails gives back
only the furthest place that any token reached; the text it had read is read again by the parser
tried next.
-/

namespace StoryManifest.Source

/-- Where a parser is: the rest of the text, the children of the open node with the last one first,
and the furthest place where a token ended. -/
structure State where
  cursor : Cursor
  made : List Node
  reach : Place
  deriving Inhabited

/-- What became of a parser. -/
inductive Outcome (α : Type) where
  | done (value : α) (state : State)
  | failed (reach : Place)

/-- Reads a part of the text. -/
def Parser (α : Type) := State → Outcome α

namespace Parser

variable {α β : Type}

/-- Goes on with what a parser returned. -/
def andThen (p : Parser α) (f : α → Parser β) : Parser β := fun s =>
  match p s with
  | .done a t => f a t
  | .failed reach => .failed reach

instance : Monad Parser where
  pure a := fun s => .done a s
  bind := andThen

/-- No text fits. -/
def fail : Parser α := fun s => .failed s.reach

/-- The second parser reads the same text when the first one fails. -/
def orElse (p q : Parser α) : Parser α := fun s =>
  match p s with
  | .done a t => .done a t
  | .failed reach => q { s with reach := Cursor.furthest s.reach reach }

/-- The first of several parsers that fits. -/
def firstOf : List (Parser α) → Parser α
  | [] => fail
  | [p] => p
  | p :: rest => orElse p (firstOf rest)

/-- What a parser returns, if it fits. -/
def attempt (p : Parser α) : Parser (Option α) := orElse (do return some (← p)) (pure none)

/-- Reads what a parser fits to, or nothing. -/
def optional (p : Parser Unit) : Parser Unit := orElse p (pure ())

/-- Requires a condition. -/
def require (holds : Bool) : Parser Unit := if holds then pure () else fail

/-- Where the parser is. -/
def here : Parser State := fun s => .done s s

/-- Goes back to where the parser was, to read the same text again. -/
def back (start : State) : Parser Unit := fun s => .done () { start with reach := s.reach }

/-- The rest of the characters. -/
def rest : Parser (List Char) := fun s => .done s.cursor.rest s

/-- Repeats a parser until it returns false, at most once and once more for each character of a text. -/
def repeatOver : List Char → Parser Bool → Parser Unit
  | [], p => fun s =>
    match p s with
    | .done _ t => .done () t
    | .failed reach => .failed reach
  | _ :: text, p => fun s =>
    match p s with
    | .done true t => repeatOver text p t
    | .done false t => .done () t
    | .failed reach => .failed reach

/-- Repeats a parser until it returns false. A parser that reads something each time is stopped by the
end of the text at the latest. -/
def loop (p : Parser Bool) : Parser Unit := fun s => repeatOver s.cursor.rest p s

/-- Rewrites a value until a step returns none, at most once and once more for each character of a
text. -/
def iterateOver (step : α → Parser (Option α)) : List Char → α → Parser α
  | [], a => fun s =>
    match step a s with
    | .done b t => .done (b.getD a) t
    | .failed reach => .failed reach
  | _ :: text, a => fun s =>
    match step a s with
    | .done (some b) t => iterateOver step text b t
    | .done none t => .done a t
    | .failed reach => .failed reach

/-- Rewrites a value until a step returns none. -/
def iterate (step : α → Parser (Option α)) (a : α) : Parser α := fun s =>
  iterateOver step s.cursor.rest a s

/-! ### Building nodes -/

/-- Appends a child to the open node. -/
def push (n : Node) : Parser Unit := fun s => .done () { s with made := n :: s.made }

/-- Reads so many characters as a leaf. -/
def take (label : Label) (count : Nat) : Parser Node := fun s =>
  let after := s.cursor.advance count
  .done (.leaf label s.cursor.place after.place (String.ofList (s.cursor.rest.take count)))
    ⟨after, s.made, Cursor.furthest s.reach after.place⟩

/-- Moves past so many characters without a leaf. -/
def skip (count : Nat) : Parser Unit := fun s =>
  .done () { s with cursor := s.cursor.advance count }

/-- The node of a kind over some children; without any it is empty and stands at a place. -/
def build (kind : Kind) (place : Place) (children : List Node) : Node :=
  { label := .named kind
    role := none
    start := (children.head?.map (·.start)).getD place
    stop := (children.getLast?.map (·.stop)).getD place
    text := ""
    children }

/-- Opens a node, lets a parser append its children and tell the kind, and closes it. -/
def nodeOf (body : Parser Kind) : Parser Node := fun s =>
  match body { s with made := [] } with
  | .done kind t => .done (build kind s.cursor.place t.made.reverse) { t with made := s.made }
  | .failed reach => .failed reach

/-- Opens a node of a kind, lets a parser append its children, and closes it. -/
def node (kind : Kind) (body : Parser Unit) : Parser Node := nodeOf do
  body
  pure kind

end Parser

end StoryManifest.Source
