/-!
Syntax trees of story source. A node covers a stretch of the text; its children cover parts of it, in
order. Tokens and comments are nodes too, and a tree of broken source has an error node or a missing
token. `Node.hasFault` tells whether a node or anything below it is one of these two.
-/

namespace StoryManifest.Source

/-- A point of the text: how many bytes, line ends and bytes of the last line come before it. -/
structure Place where
  byte : Nat
  row : Nat
  column : Nat
  deriving DecidableEq, Repr, Inhabited

/-- The start of the text. -/
def Place.origin : Place := ⟨0, 0, 0⟩

/-- What a node is. -/
inductive Kind where
  | program
  | comment
  | htmlComment
  | statement
  | block
  | expressionStatement
  | lexicalDeclaration
  | variableDeclaration
  | variableDeclarator
  | declaration
  | exportStatement
  | exportClause
  | exportSpecifier
  | identifier
  | propertyIdentifier
  | privatePropertyIdentifier
  | undefinedWord
  | thisWord
  | superWord
  | importWord
  | trueWord
  | falseWord
  | nullWord
  | number
  | string
  | stringFragment
  | escapeSequence
  | templateString
  | templateSubstitution
  | regex
  | array
  | object
  | pair
  | shorthandPropertyIdentifier
  | methodDefinition
  | spreadElement
  | computedPropertyName
  | parenthesizedExpression
  | sequenceExpression
  | asExpression
  | satisfiesExpression
  | nonNullExpression
  | typeAssertion
  | instantiationExpression
  | unaryExpression
  | updateExpression
  | binaryExpression
  | ternaryExpression
  | assignmentExpression
  | augmentedAssignmentExpression
  | awaitExpression
  | yieldExpression
  | callExpression
  | newExpression
  | memberExpression
  | subscriptExpression
  | metaProperty
  | arrowFunction
  | functionExpression
  | generatorFunction
  | classExpression
  | internalModule
  | jsxElement
  | jsxSelfClosingElement
  | objectPattern
  | arrayPattern
  | arguments
  | parameters
  | classBody
  | type
  | typeArguments
  | clause
  deriving DecidableEq, Repr, Inhabited

/-- The name of a kind, as messages show it. -/
def Kind.name : Kind → String
  | .program => "program"
  | .comment => "comment"
  | .htmlComment => "html_comment"
  | .statement => "statement"
  | .block => "statement_block"
  | .expressionStatement => "expression_statement"
  | .lexicalDeclaration => "lexical_declaration"
  | .variableDeclaration => "variable_declaration"
  | .variableDeclarator => "variable_declarator"
  | .declaration => "declaration"
  | .exportStatement => "export_statement"
  | .exportClause => "export_clause"
  | .exportSpecifier => "export_specifier"
  | .identifier => "identifier"
  | .propertyIdentifier => "property_identifier"
  | .privatePropertyIdentifier => "private_property_identifier"
  | .undefinedWord => "undefined"
  | .thisWord => "this"
  | .superWord => "super"
  | .importWord => "import"
  | .trueWord => "true"
  | .falseWord => "false"
  | .nullWord => "null"
  | .number => "number"
  | .string => "string"
  | .stringFragment => "string_fragment"
  | .escapeSequence => "escape_sequence"
  | .templateString => "template_string"
  | .templateSubstitution => "template_substitution"
  | .regex => "regex"
  | .array => "array"
  | .object => "object"
  | .pair => "pair"
  | .shorthandPropertyIdentifier => "shorthand_property_identifier"
  | .methodDefinition => "method_definition"
  | .spreadElement => "spread_element"
  | .computedPropertyName => "computed_property_name"
  | .parenthesizedExpression => "parenthesized_expression"
  | .sequenceExpression => "sequence_expression"
  | .asExpression => "as_expression"
  | .satisfiesExpression => "satisfies_expression"
  | .nonNullExpression => "non_null_expression"
  | .typeAssertion => "type_assertion"
  | .instantiationExpression => "instantiation_expression"
  | .unaryExpression => "unary_expression"
  | .updateExpression => "update_expression"
  | .binaryExpression => "binary_expression"
  | .ternaryExpression => "ternary_expression"
  | .assignmentExpression => "assignment_expression"
  | .augmentedAssignmentExpression => "augmented_assignment_expression"
  | .awaitExpression => "await_expression"
  | .yieldExpression => "yield_expression"
  | .callExpression => "call_expression"
  | .newExpression => "new_expression"
  | .memberExpression => "member_expression"
  | .subscriptExpression => "subscript_expression"
  | .metaProperty => "meta_property"
  | .arrowFunction => "arrow_function"
  | .functionExpression => "function_expression"
  | .generatorFunction => "generator_function"
  | .classExpression => "class"
  | .internalModule => "internal_module"
  | .jsxElement => "jsx_element"
  | .jsxSelfClosingElement => "jsx_self_closing_element"
  | .objectPattern => "object_pattern"
  | .arrayPattern => "array_pattern"
  | .arguments => "arguments"
  | .parameters => "formal_parameters"
  | .classBody => "class_body"
  | .type => "type"
  | .typeArguments => "type_arguments"
  | .clause => "clause"

/-- How a node is labelled: a part of the grammar, a token of fixed text, text that could not be read,
or a token that should have been there. -/
inductive Label where
  | named (kind : Kind)
  | token (text : String)
  | error
  | missing (text : String)
  deriving DecidableEq, Repr, Inhabited

/-- What a child is to its parent. -/
inductive Role where
  | name
  | value
  | key
  | alias
  | declaration
  | left
  | right
  | object
  | property
  | operator
  | argument
  deriving DecidableEq, Repr

/-- A node of a syntax tree. The text is that of a leaf. -/
structure Node where
  label : Label
  role : Option Role
  start : Place
  stop : Place
  text : String
  children : List Node
  deriving Repr, Inhabited

namespace Node

/-- A node without children. -/
def leaf (label : Label) (start stop : Place) (text : String) : Node :=
  ⟨label, none, start, stop, text, []⟩

/-- The node is of a kind. -/
def is (kind : Kind) (n : Node) : Bool := n.label = .named kind

/-- The node is a token of a fixed text. -/
def isToken (text : String) (n : Node) : Bool := n.label = .token text

/-- The node stands for a part of the grammar, not for a token. -/
def isNamed (n : Node) : Bool :=
  match n.label with
  | .named _ => true
  | .error => true
  | _ => false

/-- What the node is called in messages. -/
def kindName (n : Node) : String :=
  match n.label with
  | .named kind => kind.name
  | .token text => text
  | .error => "ERROR"
  | .missing text => text

/-- The children that stand for parts of the grammar. -/
def namedChildren (n : Node) : List Node := n.children.filter isNamed

/-- The first child with a role. -/
def child? (role : Role) (n : Node) : Option Node := n.children.find? (·.role = some role)

/-- The same node in a role. -/
def inRole (role : Role) (n : Node) : Node := { n with role := some role }

/-- The line of the node's first byte, counted from one. -/
def line (n : Node) : Nat := n.start.row + 1

/-- The node is text that could not be read. -/
def isError (n : Node) : Bool := n.label = .error

/-- The node is a token that should have been there. -/
def isMissing (n : Node) : Bool :=
  match n.label with
  | .missing _ => true
  | _ => false

/-- The node is text that could not be read, or a token that should have been there. -/
def isFaulty (n : Node) : Bool := n.isError || n.isMissing

mutual

/-- The node, or one below it, is an error or is missing. -/
def hasFault : Node → Bool
  | ⟨label, role, start, stop, text, children⟩ =>
    isError ⟨label, role, start, stop, text, children⟩ ||
      isMissing ⟨label, role, start, stop, text, children⟩ || anyFault children

def anyFault : List Node → Bool
  | [] => false
  | n :: rest => hasFault n || anyFault rest

end

end Node

end StoryManifest.Source
