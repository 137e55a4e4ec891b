import StoryManifest.Toml.Document
import StoryManifest.Toml.Lexeme

/-!
Reading a settings file: keys with values on lines of their own, under headers of tables.
-/

namespace StoryManifest.Toml

/-! ### Keys -/

/-- A character of a key without quotes. -/
def isKeyChar (c : Char) : Bool := c.isAlphanum || c = '-' || c = '_'

/-- A key without dots. -/
def readSimpleKey : Reader String := fun cs =>
  match cs with
  | '"' :: rest => readLineText '"' true (rest.length + 1) [] rest
  | '\'' :: rest => readLineText '\'' false (rest.length + 1) [] rest
  | _ =>
    let key := cs.takeWhile isKeyChar
    if key.isEmpty then none else some (String.ofList key, cs.drop key.length)

/-- How many parts a key may have, and how deep values may be nested, less one. -/
def depthLimit : Nat := 79

/-- A key with dots between its parts, of which there may be so many. -/
def readKey : Nat → Reader (List String)
  | 0, _ => none
  | n + 1, cs =>
    match readSimpleKey (skipBlanks cs) with
    | none => none
    | some (key, rest) =>
      match skipBlanks rest with
      | '.' :: rest => (readKey n rest).map fun (keys, rest) => (key :: keys, rest)
      | rest => some ([key], rest)

/-! ### Values -/

/-- The values of a list up to its closing bracket, given a reader for one value, what was read, the
last value first, and how many there may be. -/
def readItems (readItem : Reader Item) : Nat → List Item → Reader (List Item)
  | 0, _, _ => none
  | n + 1, done, cs =>
    match skipLines cs.length cs with
    | ']' :: rest => some (done.reverse, rest)
    | cs =>
      match readItem cs with
      | none => none
      | some (item, rest) =>
        match skipLines rest.length rest with
        | ',' :: rest => readItems readItem n (item :: done) rest
        | ']' :: rest => some ((item :: done).reverse, rest)
        | _ => none

/-- A key with its value. -/
def readPairWith (readItem : Reader Item) : Reader (List String × Item) := fun cs =>
  match readKey depthLimit cs with
  | some (keys, '=' :: rest) =>
    (readItem (skipBlanks rest)).map fun (item, rest) => ((keys, item), skipBlanks rest)
  | _ => none

/-- Adds a value under a key with dots. -/
def Table.defineKey (keys : List String) (item : Item) (t : Table) : Option Table :=
  match keys.getLast? with
  | some key => t.define keys.dropLast key item
  | none => none

/-- The pairs of a table on one line up to its closing brace. -/
def readFields (readItem : Reader Item) : Nat → Table → Reader Table
  | 0, _, _ => none
  | n + 1, t, cs =>
    match readPairWith readItem cs with
    | none => none
    | some ((keys, item), rest) =>
      match t.defineKey keys item with
      | none => none
      | some t =>
        match rest with
        | ',' :: rest => readFields readItem n t rest
        | '\x7d' :: rest => some (t, rest)
        | _ => none

/-- A value, with brackets nested so many times at most. -/
def readItem : Nat → Reader Item
  | depth, cs =>
    match cs with
    | '"' :: _ => (readText cs).map fun (s, rest) => (.text s, rest)
    | '\'' :: _ => (readText cs).map fun (s, rest) => (.text s, rest)
    | '[' :: rest =>
      match depth with
      | 0 => none
      | inner + 1 =>
        (readItems (readItem inner) (rest.length + 1) [] rest).map fun (items, rest) =>
          (.list items, rest)
    | '\x7b' :: rest =>
      match depth with
      | 0 => none
      | inner + 1 =>
        match skipBlanks rest with
        | '\x7d' :: rest => some (.other, rest)
        | rest =>
          (readFields (readItem inner) (rest.length + 1) [] rest).map fun (_, rest) => (.other, rest)
    | _ =>
      match (skipWord? "true" cs).or (skipWord? "false" cs) with
      | some rest => some (.other, rest)
      | none => (skipScalar cs).map (.other, ·)

/-! ### Documents -/

/-- A document while it is read: its tables, and the path of the header that the next lines are under.
-/
structure Draft where
  root : Table := []
  header : List String := []

/-- Adds a value under the current header. -/
def Draft.define (d : Draft) (keys : List String) (item : Item) : Option Draft :=
  (d.root.update false d.header (Table.defineKey keys item)).map fun root => { d with root := root }

/-- Moves to a header, opening its table. -/
def Draft.moveTo (d : Draft) (keys : List String) (opening : String → Table → Option Table) :
    Option Draft :=
  match keys.getLast? with
  | some key => (d.root.update false keys.dropLast (opening key)).map fun root => ⟨root, keys⟩
  | none => none

/-- Reads a line that is not blank. -/
def readLine (d : Draft) (cs : List Char) : Option (Draft × List Char) :=
  match cs with
  | '[' :: '[' :: rest =>
    match readKey depthLimit rest with
    | some (keys, ']' :: ']' :: rest) => do return (← d.moveTo keys Table.openRow, ← finishLine rest)
    | _ => none
  | '[' :: rest =>
    match readKey depthLimit rest with
    | some (keys, ']' :: rest) => do return (← d.moveTo keys Table.openTable, ← finishLine rest)
    | _ => none
  | _ =>
    match readPairWith (readItem depthLimit) cs with
    | some ((keys, item), rest) => do return (← d.define keys item, ← finishLine rest)
    | none => none

/-- Reads lines, of which there may be so many. -/
def readLines : Nat → Draft → List Char → Option Draft
  | 0, _, _ => none
  | n + 1, d, cs =>
    match skipLines (cs.length + 1) cs with
    | [] => some d
    | rest =>
      match skipComment rest with
      | [] => some d
      | _ =>
        match readLine d rest with
        | some (d, rest) => readLines n d rest
        | none => none

/-- The tables of a settings file. A mark of the byte order at its start does not count. -/
def parse? (text : String) : Option Table :=
  let cs := match text.toList with
    | '\uFEFF' :: rest => rest
    | cs => cs
  (readLines (cs.length + 1) { } cs).map (·.root)

end StoryManifest.Toml
