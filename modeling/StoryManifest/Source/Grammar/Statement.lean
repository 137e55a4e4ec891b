import StoryManifest.Source.Grammar.Expression

/-!
Statements and declarations. Those that story metadata can stand in (variable declarations, exports
and expression statements) have nodes of their own kinds; all others share a few.
-/

namespace StoryManifest.Source.Grammar

open StoryManifest.Source.Parser

/-! ### Variables -/

/-- One variable of a declaration. It tells whether the variable has an initial value. -/
def declarator (v : Variant) (self : Grammar) : Parser Node := node .variableDeclarator do
  field .name (binding self)
  if v.typed then
    if operatorOf (← ahead) = "!" then mark "!"
    optionalColonType v self true
  optionalInitializer self true

/-- The last child of the open node is a variable with an initial value. -/
def endsWithValue : Parser Bool := fun s =>
  .done ((s.made.head?.bind (·.child? .value)).isSome) s

/-- Appends the variables of a declaration up to its end. -/
def declarators (v : Variant) (self : Grammar) : Parser Unit := do
  commaSeparated (add (declarator v self))
  semicolon v (← endsWithValue)

/-- A variable declaration that starts with a word. -/
def variableStatement (v : Variant) (self : Grammar) (kind : Kind) (w : String) : Parser Node := node kind do
  keyword w
  declarators v self

/-- The word opens a declaration of a variable here, and is not a name itself. -/
def opensVariables (v : Variant) (cs : List Char) : Bool :=
  let next := afterWord cs
  (startsWord next && wordOf next ∉ ["in", "instanceof", "of", "as", "satisfies"] ||
    next.head? = some '[' || next.head? = some '\x7b') &&
    !endsSoon v true false (cs.drop (wordLength cs))

/-! ### Expressions as statements -/

/-- An expression as a statement. -/
def expressionStatement (v : Variant) (self : Grammar) : Parser Node := node .expressionStatement do
  push (← self (.sequence true))
  semicolon v true

/-! ### Functions and classes -/

/-- A function declaration, or in typed source a mere signature of one. -/
def functionDeclaration (v : Variant) (self : Grammar) : Parser Node := node .declaration do
  optionalWord "async"
  keyword "function"
  optionalMark "*"
  field .name (word .identifier)
  signature v self true
  if v.typed && !(← sees "\x7b") then semicolon v false
  else
    add (block v self false)

/-- A class declaration. -/
def classDeclaration (v : Variant) (self : Grammar) : Parser Node := node .declaration do
  decorators v self
  if v.typed then optionalWord "abstract"
  classTail v self
  softEnd v false

/-- A function with a name starts here. -/
def opensFunction (v : Variant) (cs : List Char) : Bool :=
  let opener :=
    wordOf cs = "function" ||
      (wordOf cs = "async" && wordOf (afterWord cs) = "function" &&
        !endsSoon v true false (cs.drop (wordLength cs)))
  let after := afterFunctionWords cs
  let after := if after.head? = some '*' then afterTrivia (after.drop 1) else after
  opener && startsWord after

/-- A class with a name starts here. -/
def opensClass (v : Variant) (cs : List Char) : Bool :=
  let next := afterWord cs
  wordOf cs = "class" && startsWord next && wordOf next ≠ "extends" &&
    !(v.typed && wordOf next = "implements")

/-! ### Declarations of typed source -/

/-- A name given to a type. -/
def typeAlias (v : Variant) (self : Grammar) : Parser Node := node .declaration do
  keyword "type"
  field .name (word .identifier)
  optionalTypeParameters v self
  mark "="
  add (self (.type true false))
  semicolon v false

/-- An interface. -/
def interface (v : Variant) (self : Grammar) : Parser Node := node .declaration do
  keyword "interface"
  field .name (word .identifier)
  optionalTypeParameters v self
  if ← seesWord "extends" then
    keyword "extends"
    commaSeparated (add (self (.type false false)))
  add (objectType v self)

/-- A member of an enumeration. -/
def enumMember (self : Grammar) : Parser Node := node .clause do
  add (propertyName self)
  optionalInitializer self false

/-- An enumeration. -/
def enumeration (self : Grammar) : Parser Node := node .declaration do
  optionalWord "const"
  keyword "enum"
  field .name (word .identifier)
  bracketed "\x7b" "\x7d" false (add (enumMember self))

/-- A further name of a path of modules. -/
def moduleStep : Parser Bool := do
  if ← sees "." then
    mark "."
    add (word .identifier)
    pure true
  else pure false

/-- A module inside the file, opened by a word. Its body may be missing. -/
def module (v : Variant) (self : Grammar) (w : String) : Parser Node := node .declaration do
  keyword w
  wideGap
  if (← sees "\"") || (← sees "'") then add string
  else
    add (word .identifier)
    loop moduleStep
  if ← sees "\x7b" then add (block v self false) else semicolon v false

/-- A module path, with a body, starts after this word. -/
def opensModule (v : Variant) (cs : List Char) : Bool :=
  let next := afterWord cs
  (wordOf cs = "namespace" || wordOf cs = "module") &&
    (startsWord next || (wordOf cs = "module" && (next.head? = some '"' || next.head? = some '\''))) &&
    wordOf next ∉ ["in", "instanceof", "as", "satisfies"] &&
    !endsSoon v true false (cs.drop (wordLength cs))

/-- A type alias starts here, and not a name. -/
def opensAlias (v : Variant) (cs : List Char) : Bool :=
  let next := afterWord cs
  let last := afterWord next
  wordOf cs = "type" && startsWord next && (last.head? = some '<' || operatorOf last = "=") &&
    !endsSoon v true false (cs.drop (wordLength cs))

/-- A declaration of typed source that starts with a word, if this is one. -/
def typedDeclaration? (v : Variant) (self : Grammar) (cs : List Char) : Option (Parser Node) :=
  let w := wordOf cs
  let next := wordOf (afterWord cs)
  if w = "interface" then some (interface v self)
  else if w = "enum" || (w = "const" && next = "enum") then some (enumeration self)
  else if w = "abstract" && next = "class" then some (classDeclaration v self)
  else if opensAlias v cs then some (typeAlias v self)
  else if opensModule v cs then some (module v self w)
  else none

/-- A declaration of something that exists elsewhere. -/
def ambient (v : Variant) (self : Grammar) : Parser Node := node .declaration do
  keyword "declare"
  wideGap
  if (← seesWord "global") && (afterWord (← ahead)).head? = some '\x7b' then
    keyword "global"
    add (block v self false)
  else add (self .statement)

/-- A declaration of something that exists elsewhere starts here. -/
def opensAmbient (v : Variant) (cs : List Char) : Bool :=
  let next := afterWord cs
  let w := wordOf next
  wordOf cs = "declare" && !endsSoon v true false (cs.drop (wordLength cs)) &&
    (w ∈ ["var", "let", "const", "function", "class", "interface", "enum", "abstract", "async"] ||
      opensAlias v next || opensModule v next ||
      (w = "global" && (afterWord next).head? = some '\x7b'))

/-! ### Imports and exports -/

/-- Appends the source of an import or an export. -/
def sourceClause : Parser Unit := do
  keyword "from"
  add string

/-- A name of a module: a word or a string. -/
def moduleName : Parser Node := do
  match ← rest with
  | '"' :: _ => string
  | '\'' :: _ => string
  | _ => word .identifier

/-- Appends the word that limits a name to types, when another name follows it. -/
def optionalTypeWord (v : Variant) : Parser Unit := do
  let cs ← ahead
  let next := afterWord cs
  if v.typed && (wordOf cs = "type" || wordOf cs = "typeof") &&
      (startsWord next && wordOf next ≠ "as" || next.head? = some '"' || next.head? = some '\'' ||
        (wordOf next = "as" && startsWord (afterWord next) &&
          wordOf (afterWord next) = "as")) then
    keyword (wordOf cs)

/-- A name and the name it goes by outside. -/
def exportSpecifier (v : Variant) : Parser Node := node .exportSpecifier do
  optionalTypeWord v
  field .name moduleName
  if ← seesWord "as" then
    keyword "as"
    field .alias moduleName

/-- The names of an export between braces. -/
def exportClause (v : Variant) : Parser Node :=
  node .exportClause (bracketed "\x7b" "\x7d" false (add (exportSpecifier v)))

/-- A name that an import brings in. -/
def importSpecifier (v : Variant) : Parser Node := node .clause do
  optionalTypeWord v
  add moduleName
  if ← seesWord "as" then
    keyword "as"
    add (word .identifier)

/-- Appends all of a module under one name, or names of it between braces. -/
def importNames (v : Variant) : Parser Unit := do
  if ← sees "*" then
    mark "*"
    keyword "as"
    add (word .identifier)
  else bracketed "\x7b" "\x7d" false (add (importSpecifier v))

/-- Appends attributes of an import. -/
def importAttributes (v : Variant) (self : Grammar) : Parser Unit := do
  let cs ← ahead
  let opens := wordOf cs = "with" || (v.typed && wordOf cs = "assert")
  if opens && (afterWord cs).head? = some '\x7b' then
    keyword (wordOf cs)
    add (object v self)

/-- Appends what an import takes from where. -/
def importBody (v : Variant) (self : Grammar) : Parser Unit := do
  wideGap
  if (← sees "\"") || (← sees "'") then add string
  else if (← sees "*") || (← sees "\x7b") then
    importNames v
    sourceClause
  else
    add (word .identifier)
    if v.typed && (← seesAssign) then
      mark "="
      if (← seesWord "require") && (afterWord (← ahead)).head? = some '(' then
        keyword "require"
        mark "("
        add string
        mark ")"
      else
        add (word .identifier)
        loop moduleStep
    else
      if ← sees "," then
        mark ","
        importNames v
      sourceClause
  importAttributes v self
  semicolon v false

/-- An import. -/
def importStatement (v : Variant) (self : Grammar) : Parser Node := node .statement do
  keyword "import"
  let cs ← ahead
  let next := afterWord cs
  let limited := v.typed && (wordOf cs = "type" || wordOf cs = "typeof") &&
    (next.head? = some '\x7b' || next.head? = some '*' ||
      (startsWord next && (wordOf next ≠ "from" || wordOf (afterWord next) = "from")))
  if limited then keyword (wordOf cs)
  importBody v self

/-- Appends what is exported by default. -/
def exportDefault (v : Variant) (self : Grammar) : Parser Unit := do
  keyword "default"
  wideGap
  let cs ← ahead
  let value : Parser Unit := do
    field .value (self (.expression { ends := true }))
    semicolon v true
  if opensFunction v cs then field .declaration (functionDeclaration v self)
  else if opensClass v cs || cs.head? = some '@' then
    orElse (field .declaration (classDeclaration v self)) value
  else if v.typed then
    match typedDeclaration? v self cs with
    | some p => if wordOf cs = "enum" then fail else orElse (field .declaration p) value
    | none => value
  else value

/-- Appends an export that names what it takes from another module, or names of this one. -/
def exportNames (v : Variant) (self : Grammar) : Parser Unit := do
  if ← sees "*" then
    mark "*"
    if ← seesWord "as" then
      keyword "as"
      add moduleName
    sourceClause
  else
    add (exportClause v)
    if ← seesWord "from" then sourceClause
  if v.typed then importAttributes v self
  semicolon v false

/-- Appends an export of typed source that no other variant has. -/
def typedExport (v : Variant) (self : Grammar) : Parser Unit := do
  let cs ← ahead
  let next := afterWord cs
  if wordOf cs = "type" && (next.head? = some '\x7b' || next.head? = some '*') then
    keyword "type"
    exportNames v self
  else if operatorOf cs = "=" then
    mark "="
    add (self (.expression { ends := true }))
    semicolon v true
  else if wordOf cs = "as" && wordOf next = "namespace" then
    keyword "as"
    keyword "namespace"
    add (word .identifier)
    semicolon v false
  else if wordOf cs = "import" then
    add (node .declaration do
      keyword "import"
      optionalTypeWord v
      add (word .identifier)
      mark "="
      add (word .identifier)
      loop moduleStep
      if ← sees "(" then add (arguments self)
      semicolon v false)
  else fail

/-- Words that open a declaration. -/
def declarationWords : List String := ["var", "let", "const", "function", "async", "class"]

/-- Appends an exported declaration. -/
def exportDeclaration (v : Variant) (self : Grammar) : Parser Unit := do
  let cs ← ahead
  let opens := wordOf cs ∈ declarationWords || cs.head? = some '@' ||
    (v.typed && (opensAmbient v cs || (typedDeclaration? v self cs).isSome))
  require opens
  wideGap
  let n ← self .statement
  require (n.is .lexicalDeclaration || n.is .variableDeclaration || n.is .declaration)
  push (n.inRole .declaration)

/-- An export. -/
def exportStatement (v : Variant) (self : Grammar) : Parser Node := node .exportStatement do
  decorators v self
  keyword "export"
  let cs ← ahead
  if wordOf cs = "default" then exportDefault v self
  else if cs.head? = some '*' || cs.head? = some '\x7b' then exportNames v self
  else if v.typed then orElse (exportDeclaration v self) (typedExport v self)
  else exportDeclaration v self

/-! ### Control -/

/-- Appends a statement. -/
def body (self : Grammar) : Parser Unit := add (self .statement)

/-- A condition with two statements, or one. -/
def ifStatement (v : Variant) (self : Grammar) : Parser Node := node .statement do
  keyword "if"
  add (parenthesized v self)
  body self
  if ← seesWord "else" then
    keyword "else"
    body self

/-- The next case of a switch starts here, or the switch is over. -/
def endsCase (cs : List Char) : Bool :=
  closesBlock cs || wordOf cs = "case" || wordOf cs = "default"

/-- A case of a switch, unless the switch is over. -/
def caseStep (self : Grammar) : Parser Bool := do
  wideGap
  if ← sees "\x7d" then pure false
  else
    push (← node .clause do
      if ← seesWord "case" then
        keyword "case"
        add (self (.sequence false))
      else keyword "default"
      mark ":"
      loop (statementStep self endsCase))
    pure true

/-- A choice between cases. -/
def switchStatement (v : Variant) (self : Grammar) : Parser Node := node .statement do
  keyword "switch"
  add (parenthesized v self)
  mark "\x7b"
  loop (caseStep self)
  mark "\x7d"

/-- Appends the header of a loop over the members or the items of a value. -/
def eachHeader (v : Variant) (self : Grammar) : Parser Unit := do
  let w := wordOf (← ahead)
  if w = "var" || w = "const" || (w = "let" && opensVariables v (← ahead)) then
    keyword w
    add (binding self)
    optionalColonType v self false
    if w = "var" then optionalInitializer self false
  else if ← sees "(" then add (parenthesized v self)
  else add (self .pattern)
  if ← seesWord "in" then keyword "in" else keyword "of"
  add (self (.sequence false))

/-- Appends the header of a loop with a start, a condition and a step. -/
def countingHeader (v : Variant) (self : Grammar) : Parser Unit := do
  wideGap
  let cs ← ahead
  if ← sees ";" then mark ";"
  else if wordOf cs = "var" || wordOf cs = "const" || (wordOf cs = "let" && opensVariables v cs) then
    keyword (wordOf cs)
    declarators v self
  else add (expressionStatement v self)
  wideGap
  if ← sees ";" then mark ";" else add (expressionStatement v self)
  wideGap
  if !(← sees ")") then add (self (.sequence false))

/-- A loop with a header. -/
def forStatement (v : Variant) (self : Grammar) : Parser Node := node .statement do
  keyword "for"
  optionalWord "await"
  mark "("
  wideGap
  orElse (do
    eachHeader v self
    mark ")")
    (do
      countingHeader v self
      mark ")")
  body self

/-- A loop whose condition comes first, or a statement in the scope of a value. -/
def guardedStatement (v : Variant) (self : Grammar) (w : String) : Parser Node := node .statement do
  keyword w
  add (parenthesized v self)
  body self

/-- A loop whose condition comes last. -/
def doStatement (v : Variant) (self : Grammar) : Parser Node := node .statement do
  keyword "do"
  body self
  keyword "while"
  add (parenthesized v self)
  if ← sees ";" then mark ";" else softEnd v false

/-- A block with a handler for what it throws, or a block to run last. -/
def tryStatement (v : Variant) (self : Grammar) : Parser Node := node .statement do
  keyword "try"
  add (block v self false)
  if ← seesWord "catch" then
    keyword "catch"
    if ← sees "(" then
      mark "("
      add (binding self)
      optionalColonType v self false
      mark ")"
    add (block v self false)
  if ← seesWord "finally" then
    keyword "finally"
    add (block v self false)

/-- A jump out of a loop or on to its next round. -/
def jump (v : Variant) (w : String) : Parser Node := node .statement do
  keyword w
  if !endsSoon v false false (← rest) && startsWord (← ahead) then add (word .identifier)
  semicolon v false

/-- A pause for whoever traces the program. -/
def debuggerStatement (v : Variant) : Parser Node := node .statement do
  keyword "debugger"
  semicolon v false

/-- A word with a value after it that may be left out. -/
def returnStatement (v : Variant) (self : Grammar) : Parser Node := node .statement do
  keyword "return"
  if endsSoon v false false (← rest) || (← sees ";") then semicolon v false
  else
    add (self (.sequence true))
    semicolon v true

/-- A word with a value after it. -/
def throwStatement (v : Variant) (self : Grammar) : Parser Node := node .statement do
  keyword "throw"
  add (self (.sequence true))
  semicolon v true

/-- A statement with a label. -/
def labelled (self : Grammar) : Parser Node := node .statement do
  add (word .identifier)
  mark ":"
  body self

/-! ### Statements -/

/-- A colon follows the word that comes first. -/
def isLabelled (cs : List Char) : Bool := (afterWord cs).head? = some ':'

/-- A statement that starts with a word. -/
def wordStatement (v : Variant) (self : Grammar) : Parser Node := do
  let cs ← rest
  let w := wordOf cs
  let plain := expressionStatement v self
  if w = "export" then exportStatement v self
  else if w = "import" then
    if (afterWord cs).head? = some '(' || (afterWord cs).head? = some '.' then plain
    else importStatement v self
  else if v.typed && w = "const" && wordOf (afterWord cs) = "enum" then enumeration self
  else if w = "const" then variableStatement v self .lexicalDeclaration w
  else if w = "var" then variableStatement v self .variableDeclaration w
  else if w = "let" && opensVariables v cs then variableStatement v self .lexicalDeclaration w
  else if opensFunction v cs then functionDeclaration v self
  else if opensClass v cs then classDeclaration v self
  else if w = "if" then ifStatement v self
  else if w = "switch" then switchStatement v self
  else if w = "for" then forStatement v self
  else if w = "while" || w = "with" then guardedStatement v self w
  else if w = "do" then doStatement v self
  else if w = "try" then tryStatement v self
  else if w = "break" || w = "continue" then jump v w
  else if w = "debugger" then debuggerStatement v
  else if w = "return" then returnStatement v self
  else if w = "throw" then throwStatement v self
  else if v.typed && opensAmbient v cs then ambient v self
  else if v.typed && isLabelled cs = false then
    match typedDeclaration? v self cs with
    | some p => p
    | none => plain
  else if isLabelled cs && (fixedWord? w).isNone then labelled self
  else plain

/-- A statement. -/
def statement (v : Variant) (self : Grammar) : Parser Node := do
  match ← rest with
  | '\x7b' :: _ => orElse (block v self false) (expressionStatement v self)
  | ';' :: _ => node .statement (mark ";")
  | '@' :: _ => orElse (exportStatement v self) (classDeclaration v self)
  | _ => wordStatement v self

/-- Every rule, in terms of every rule. -/
def rules (v : Variant) (self : Grammar) : Grammar
  | .expression setting => expression v self setting
  | .sequence ends => sequence self ends
  | .pattern => pattern v self
  | .statement => statement v self
  | .element => element v self
  | .type ends afterOperand => type v self ends afterOperand

/-- The rules, applied to one another at most so deep. -/
def derive (v : Variant) : Nat → Grammar
  | 0, _ => fail
  | depth + 1, rule => rules v (derive v depth) rule

end StoryManifest.Source.Grammar
