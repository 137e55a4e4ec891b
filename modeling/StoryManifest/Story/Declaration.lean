import StoryManifest.Literal.Evaluation
import StoryManifest.Source.Program

/-!
The declarations of a story that carry metadata. Five rules find them among the top-level statements:
the value exported by default, the variable exported by default, the variable named `meta`, exported
objects with metadata, and assignments to the metadata of a variable. A declaration that several rules
find counts once, for the first of them.
-/

namespace StoryManifest.Story

open Source (Node Program)
open Literal (Entry)

/-- The rule that found a declaration. -/
inductive Provenance where
  | defaultExport
  | defaultExportedVariable
  | metaVariable
  | namedExport
  | memberAssignment
  deriving DecidableEq, Repr

/-- The name of a rule. -/
def Provenance.name : Provenance → String
  | .defaultExport => "default-export"
  | .defaultExportedVariable => "default-exported-variable"
  | .metaVariable => "meta-variable"
  | .namedExport => "named-export"
  | .memberAssignment => "member-assignment"

/-- The two parts of metadata: values of properties, and descriptions of properties. -/
inductive Part where
  | args
  | argTypes
  deriving DecidableEq, Repr

namespace Part

/-- The key of a part. -/
def key : Part → String
  | .args => "args"
  | .argTypes => "argTypes"

/-- The part of a key. -/
def ofKey? (key : String) : Option Part :=
  if key = "args" then some .args else if key = "argTypes" then some .argTypes else none

end Part

/-- A declaration of metadata. Its node is the value, unwrapped; an assignment gives only one part. -/
structure Declaration where
  provenance : Provenance
  name : Option String
  node : Node
  part : Option Part
  deriving Repr

namespace Declaration

/-- The value is an object literal. -/
def isObject (d : Declaration) : Bool := d.node.is .object

/-- How messages call the declaration. -/
def label (d : Declaration) : String :=
  match d.name, d.part with
  | some name, some part => name ++ "." ++ part.key
  | some name, none => name
  | none, _ => "default export"

end Declaration

/-! ### The top level -/

/-- An assignment to the metadata of a variable. -/
structure Assignment where
  target : String
  part : Part
  value : Node
  deriving Repr

/-- What the top-level statements say. -/
structure TopLevel where
  bindings : Fields Node := []
  defaultValue : Option Node := none
  defaultName : Option String := none
  namedExports : List (String × Node) := []
  assignments : List Assignment := []

/-- The name and the unwrapped initial value of a variable that has both. -/
def bindingOf? (n : Node) : Option (String × Node) :=
  if n.is .variableDeclarator then
    match n.child? .name, n.child? .value with
    | some name, some value =>
      if name.is .identifier then some (name.text, value.unwrap) else none
    | _, _ => none
  else none

/-- The variables of a declaration with their initial values. -/
def bindingsOf (n : Node) : List (String × Node) := n.namedChildren.filterMap bindingOf?

/-- The node declares variables. -/
def isVariables (n : Node) : Bool := n.is .lexicalDeclaration || n.is .variableDeclaration

/-- The assignment to a part of metadata that a statement is. -/
def assignmentOf? (statement : Node) : Option Assignment :=
  match statement.namedChildren.head? with
  | none => none
  | some expression =>
    if expression.is .assignmentExpression then
      match expression.child? .left, expression.child? .right with
      | some left, some right =>
        if left.is .memberExpression then
          match left.child? .object, left.child? .property with
          | some object, some property =>
            if object.is .identifier then
              (Part.ofKey? property.text).map fun part => ⟨object.text, part, right.unwrap⟩
            else none
          | _, _ => none
        else none
      | _, _ => none
    else none

/-- Variables bound again take the later value. -/
def bindAll (bindings : Fields Node) (more : List (String × Node)) : Fields Node :=
  more.foldl (fun bs (name, value) => bs.insert name value) bindings

/-- The local name that a specifier exports by default. -/
def defaultAlias? (specifier : Node) : Option String :=
  match specifier.child? .alias with
  | some renamed => if renamed.text = "default" then (specifier.child? .name).map Node.text else none
  | none => none

/-- The names that export clauses export by default, in order. -/
def defaultAliases (statement : Node) : List String :=
  ((statement.namedChildren.filter (·.is .exportClause)).flatMap
    (·.namedChildren)).filterMap defaultAlias?

/-- The export exports by default. -/
def isDefaultExport (statement : Node) : Bool := statement.children.any (·.isToken "default")

/-- What an export adds. -/
def TopLevel.addExport (top : TopLevel) (statement : Node) : TopLevel :=
  if isDefaultExport statement then
    match (statement.child? .value).map Node.unwrap with
    | none => top
    | some value =>
      if value.is .identifier then { top with defaultName := some value.text }
      else { top with defaultValue := some value }
  else
    match statement.child? .declaration with
    | some declaration =>
      if isVariables declaration then
        { top with
          bindings := bindAll top.bindings (bindingsOf declaration)
          namedExports := top.namedExports ++ bindingsOf declaration }
      else top
    | none =>
      match (defaultAliases statement).getLast? with
      | some name => { top with defaultName := some name }
      | none => top

/-- What a statement adds. -/
def TopLevel.add (top : TopLevel) (statement : Node) : TopLevel :=
  if isVariables statement then
    { top with bindings := bindAll top.bindings (bindingsOf statement) }
  else if statement.is .exportStatement then top.addExport statement
  else if statement.is .expressionStatement then
    match assignmentOf? statement with
    | some assignment => { top with assignments := top.assignments ++ [assignment] }
    | none => top
  else top

/-- What the statements of a program say. -/
def topLevelOf (program : Node) : TopLevel := program.namedChildren.foldl TopLevel.add { }

/-! ### The five rules -/

/-- The variable that carries metadata by its name alone. -/
def metaName : String := "meta"

/-- The object literal has a member for a part of metadata. -/
def hasPart (object : Node) : Bool :=
  (Literal.entries object).any fun e => ((e.key.name?).bind Part.ofKey?).isSome

/-- What each rule finds, in the order of the rules. -/
def found (top : TopLevel) : List Declaration :=
  (top.defaultValue.map fun n => ⟨.defaultExport, none, n, none⟩).toList ++
  (top.defaultName.bind fun name => (top.bindings.find? name).map fun n =>
    ⟨.defaultExportedVariable, some name, n, none⟩).toList ++
  ((top.bindings.find? metaName).map fun n =>
    ⟨.metaVariable, some metaName, n, none⟩).toList ++
  ((top.namedExports.filter fun (_, n) => n.is .object && hasPart n).map fun (name, n) =>
    ⟨.namedExport, some name, n, none⟩) ++
  ((top.assignments.filter fun a => (top.bindings.find? a.target).isSome).map fun a =>
    ⟨.memberAssignment, some a.target, a.value, some a.part⟩)

/-- Both declarations have the same node. -/
def Declaration.sameNode (a b : Declaration) : Bool :=
  a.node.start = b.node.start && a.node.stop = b.node.stop

/-- The first declaration of every node. -/
def distinctNodes : List Declaration → List Declaration → List Declaration
  | _, [] => []
  | seen, d :: rest =>
    if seen.any d.sameNode then distinctNodes seen rest else d :: distinctNodes (d :: seen) rest

/-- A declaration starts no later than another one. -/
def Declaration.startsLe (a b : Declaration) : Bool := a.node.start.byte ≤ b.node.start.byte

/-- The declarations of a program in the order of the text. -/
def declarations (program : Node) : List Declaration :=
  (distinctNodes [] (found (topLevelOf program))).mergeSort Declaration.startsLe

end StoryManifest.Story
