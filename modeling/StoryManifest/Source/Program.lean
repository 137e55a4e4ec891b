import StoryManifest.Source.Grammar.Statement
import StoryManifest.Source.Walk
import StoryManifest.Text.Space

/-!
Whole programs. Text becomes a syntax tree in any case: where the grammar does not fit, the tree holds
a missing bracket or is one error node. A program is a tree without such faults together with its
text; otherwise the first fault is reported.
-/

namespace StoryManifest.Source

/-! ### Trees -/

/-- The length of the first line when it only names an interpreter. -/
def hashBangLength : List Char → Nat
  | '#' :: '!' :: rest => 2 + (rest.takeWhile (· ≠ '\n')).length
  | _ => 0

/-- How deep rules may be applied to one another in a text. -/
def depthFor (text : List Char) : Nat := 4 * text.length + 16

/-- Reads all the statements of a text. -/
def wholeProgram (v : Variant) (depth : Nat) : Parser Node := Parser.node .program do
  Parser.skip (hashBangLength (← Parser.rest))
  Parser.loop (Grammar.statementStep (Grammar.derive v depth) (fun _ => false))
  Parser.require ((← Parser.rest) = [])

/-- What became of reading a text from its start. -/
def readProgram (v : Variant) (text : List Char) : Outcome Node :=
  if '\x00' ∈ text then .failed .origin
  else wholeProgram v (depthFor text) ⟨.ofText text, [], .origin⟩

/-- The grammar fits to a text. -/
def accepts (v : Variant) (text : List Char) : Bool :=
  match readProgram v text with
  | .done _ _ => true
  | .failed _ => false

/-- The text with a character put in after so many bytes. -/
def insertAt (x : Char) : Nat → List Char → List Char
  | 0, cs => x :: cs
  | _ + 1, [] => [x]
  | n + 1, c :: cs => c :: insertAt x (n + 1 - c.utf8Size) cs

/-- The text after so many bytes. -/
def dropBytes : Nat → List Char → List Char
  | 0, cs => cs
  | _ + 1, [] => []
  | n + 1, c :: cs => dropBytes (n + 1 - c.utf8Size) cs

/-- The text of so many bytes. -/
def takeBytes : Nat → List Char → List Char
  | 0, _ => []
  | _ + 1, [] => []
  | n + 1, c :: cs => c :: takeBytes (n + 1 - c.utf8Size) cs

/-- The brackets that may be missing. -/
def closers : List Char := [')', ']', '\x7d']

/-- A bracket that makes the text fit where reading stopped. At the end of the text none does. -/
def missingCloser? (v : Variant) (text : List Char) (reach : Place) : Option Char :=
  if (dropBytes reach.byte text).all isBlank then none
  else closers.find? fun c => accepts v (insertAt c reach.byte text)

/-- The text as one error, from its first token on. -/
def errorTree (text : List Char) : Node :=
  let blanks := (text.takeWhile isBlank).length
  let body := ((text.drop blanks).reverse.dropWhile isBlank).reverse
  let start := (Cursor.ofText text).advance blanks
  .leaf .error start.place (start.advance body.length).place (String.ofList body)

/-- The syntax tree of a text. -/
def treeOf (v : Variant) (text : List Char) : Node :=
  match readProgram v text with
  | .done n _ => n
  | .failed reach =>
    match missingCloser? v text reach with
    | some c => Parser.build .program reach
        [.leaf (.missing (String.singleton c)) reach reach ""]
    | none => errorTree text

/-! ### Faults -/

/-- Why a text is no program: where, and what is wrong there. -/
structure SyntaxFault where
  line : Nat
  column : Nat
  detail : String
  deriving DecidableEq, Repr

/-- What is reported of a fault. -/
def SyntaxFault.message (f : SyntaxFault) : String :=
  "Syntax error at line " ++ toString f.line ++ ", column " ++ toString f.column ++ ": " ++ f.detail

/-- How many characters of a broken text are shown. -/
def snippetLength : Nat := 40

/-- The beginning of the first line of a broken text. -/
def snippet (text : String) : String :=
  String.ofList (Text.trim ((text.toList.takeWhile (· ≠ '\n')).take snippetLength))

/-- The text that a node covers. -/
def Node.textIn (text : List Char) (n : Node) : String :=
  String.ofList (takeBytes (n.stop.byte - n.start.byte) (dropBytes n.start.byte text))

/-- What is wrong with a faulty node of a text. -/
def Node.faultDetail (text : List Char) (n : Node) : String :=
  if n.isMissing then "missing \x60" ++ n.kindName ++ "\x60"
  else "unexpected \x60" ++ snippet (n.textIn text) ++ "\x60"

/-- A fault of a tree: a faulty node, or the tree as a whole where it is marked as faulty and no such node is
found. -/
inductive TreeFault where
  | node (n : Node)
  | whole (root : Node)

namespace TreeFault

/-- The place that is reported. -/
def place : TreeFault → Place
  | .node n => n.start
  | .whole root => root.start

/-- What is wrong there. -/
def detail (text : List Char) : TreeFault → String
  | .node n => n.faultDetail text
  | .whole _ => "invalid syntax"

/-- The report of a fault in the tree of a text. Lines and columns are counted from one. -/
def report (text : List Char) (f : TreeFault) : SyntaxFault :=
  ⟨f.place.row + 1, f.place.column + 1, f.detail text⟩

end TreeFault

/-- The first fault of a tree, by what is marked as faulty. -/
def markedFault? (marked : Node → Bool) (root : Node) : Option TreeFault :=
  if marked root then
    match (Walk.start root).search? marked with
    | some n => some (.node n)
    | none => some (.whole root)
  else none

/-- A tree that is not marked is not searched. -/
theorem markedFault?_eq_none {marked : Node → Bool} {root : Node} (h : marked root = false) :
    markedFault? marked root = none := by rw [markedFault?, h, if_neg Bool.false_ne_true]

/-- A tree that is marked always has a fault. -/
theorem isSome_markedFault? {marked : Node → Bool} {root : Node} (h : marked root = true) :
    (markedFault? marked root).isSome = true := by
  rw [markedFault?, if_pos h]
  split <;> rfl

/-- The first fault of a tree. -/
def syntaxFault? (root : Node) : Option TreeFault := markedFault? Node.hasFault root

/-! ### Programs -/

/-- A program: a text with its tree. -/
structure Program where
  variant : Variant
  text : List Char
  root : Node

namespace Program

/-- The program that a text is. -/
def ofText (v : Variant) (text : String) : Except SyntaxFault Program :=
  let root := treeOf v text.toList
  match syntaxFault? root with
  | some fault => .error (fault.report text.toList)
  | none => .ok ⟨v, text.toList, root⟩

/-- The text that a node covers. -/
def textOf (p : Program) (n : Node) : String := n.textIn p.text

end Program

end StoryManifest.Source
