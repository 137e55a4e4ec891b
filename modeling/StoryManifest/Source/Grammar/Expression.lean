import StoryManifest.Source.Grammar.Markup

/-!
Expressions. An expression is an operand, after which operators, calls and member accesses are taken
in for as long as they bind tightly enough; each of them makes a node over what was read before.
-/

namespace StoryManifest.Source.Grammar

open StoryManifest.Source.Parser

/-! ### Functions with an arrow -/

/-- An arrow comes first. -/
def startsArrow (cs : List Char) : Bool := operatorOf cs = "=>"

/-- Appends the arrow of a function and its body. -/
def arrowTail (v : Variant) (self : Grammar) (s : Setting) : Parser Unit := do
  mark "=>"
  wideGap
  let value : Parser Unit := do push (← self (.expression (s.rightOf Level.whole)))
  if ← sees "\x7b" then orElse (do push (← block v self true)) value else value

/-- A function with an arrow and one bare parameter. -/
def bareArrow (v : Variant) (self : Grammar) (s : Setting) (isAsync : Bool) : Parser Node :=
  node .arrowFunction do
    if isAsync then keyword "async"
    add (word .identifier)
    arrowTail v self s

/-- A function with an arrow and a parameter list. -/
def arrow (v : Variant) (self : Grammar) (s : Setting) : Parser Node := node .arrowFunction do
  if ← seesWord "async" then keyword "async"
  signature v self false
  arrowTail v self s

/-- A function with an arrow; before a colon it must leave the colon. -/
def arrowInBranch (v : Variant) (self : Grammar) (s : Setting) : Parser Node := do
  let n ← arrow v self s
  require (!s.branch || (← sees ":"))
  pure n

/-- An expression in parentheses, or a function with an arrow. -/
def parenthesesOrArrow (v : Variant) (self : Grammar) (s : Setting) : Parser Node := do
  let start ← here
  match ← attempt (parenthesized v self) with
  | some n =>
    let cs ← ahead
    if s.isOpen && startsArrow cs then
      back start
      arrow v self s
    else if v.typed && s.isOpen && cs.head? = some ':' then
      let after ← here
      back start
      orElse (arrowInBranch v self s) do
        back after
        pure n
    else pure n
  | none =>
    let cs := beyondBrackets (← rest)
    require (s.isOpen && (startsArrow cs || (v.typed && cs.head? = some ':')))
    arrow v self s

/-! ### Assignments to patterns -/

/-- An assignment whose left side takes the value apart. -/
def patternAssignment (self : Grammar) (s : Setting) (target : Parser Node) : Parser Node :=
  node .assignmentExpression do
    push ((← target).inRole .left)
    require (← seesAssign)
    mark "="
    field .right (self (.expression (s.rightOf Level.whole)))

/-- A literal, or the assignment that it turns out to be the left side of. -/
def literalOrTarget (self : Grammar) (s : Setting) (literal target : Parser Node) : Parser Node := do
  let start ← here
  match ← attempt literal with
  | some n =>
    if s.isOpen && (← seesAssign) then
      back start
      patternAssignment self s target
    else pure n
  | none =>
    require (s.isOpen && operatorOf (beyondBrackets (← rest)) = "=")
    patternAssignment self s target

/-- An array literal. -/
def array (self : Grammar) : Parser Node :=
  node .array (bracketed "[" "]" true (spreadOr self))

/-! ### Operands -/

/-- Words that are operators before an operand. -/
def unaryWords : List String := ["typeof", "void", "delete"]

/-- An operator before its operand. -/
def unary (self : Grammar) (s : Setting) (operator : Parser Node) : Parser Node :=
  node .unaryExpression do
    push ((← operator).inRole .operator)
    field .argument (self (.expression (s.under Level.unary)))

/-- An increment or a decrement before its operand. -/
def prefixUpdate (self : Grammar) (s : Setting) (operator : String) : Parser Node :=
  node .updateExpression do
    push ((← exactly operator).inRole .operator)
    field .argument (self (.expression (s.under Level.update)))

/-- An operand may start here. -/
def startsOperand (s : Setting) (cs : List Char) : Bool :=
  match cs with
  | [] => false
  | c :: _ =>
    if startsWord cs then wordOf cs ∉ ["in", "instanceof", "as", "satisfies", "of", "implements"]
    else if c = '\x7b' then !s.beforeBody
    else isDigit c || c ∈ "\"'\x60[(</@#+-~\\".toList || (c = '!' && operatorOf cs = "!")

/-- The value that a generator hands out, if any. -/
def yieldExpression (v : Variant) (self : Grammar) (s : Setting) : Parser Node :=
  node .yieldExpression do
    keyword "yield"
    if ← sees "*" then
      mark "*"
      add (self (.expression (s.rightOf Level.whole)))
    else if s.ends && endsSoon v true false (← rest) then pure ()
    else if startsOperand s (← ahead) then
      add (self (.expression (s.rightOf Level.whole)))

/-- Appends the types given to a call or a constructor, when they come next and no operand follows that
would make the bracket a comparison. -/
def callTypes (v : Variant) (self : Grammar) (s : Setting) : Parser Unit := do
  add (typeArguments self)
  let cs ← ahead
  require (cs.head? = some '(' || cs.head? = some '\x60' || !startsOperand s cs ||
    (s.ends && endsSoon v true false (← rest)))

/-- A construction, or the word for what was constructed. -/
def newExpression (v : Variant) (self : Grammar) (s : Setting) : Parser Node := do
  if (afterWord (← rest)).head? = some '.' then
    node .metaProperty do
      keyword "new"
      mark "."
      keyword "target"
  else
    node .newExpression do
      keyword "new"
      add (self (.expression { s with level := Level.constructed, adopts := false }))
      if v.typed && (← sees "<") then optional (callTypes v self s)
      if s.ends && endsSoon v true false (← rest) then pure ()
      else if ← sees "(" then add (arguments self)

/-- A word for a fixed value. -/
def fixedWord? (w : String) : Option Kind :=
  if w = "this" then some .thisWord
  else if w = "super" then some .superWord
  else if w = "true" then some .trueWord
  else if w = "false" then some .falseWord
  else if w = "null" then some .nullWord
  else if w = "undefined" then some .undefinedWord
  else none

/-- A name, or a function with an arrow whose one parameter it is. -/
def nameOrArrow (v : Variant) (self : Grammar) (s : Setting) : Parser Node := do
  if s.isOpen && startsArrow (afterWord (← rest)) then bareArrow v self s false
  else word .identifier

/-- Parentheses come first, and after them an arrow or what may come between it and them. -/
def startsParameters (v : Variant) (cs : List Char) : Bool :=
  let after := beyondBrackets cs
  cs.head? = some '(' && (startsArrow after || (v.typed && after.head? = some ':'))

/-- What the word for asynchronous functions opens, which may be a mere name. -/
def asyncOperand (v : Variant) (self : Grammar) (s : Setting) : Parser Node := do
  let cs ← rest
  let next := afterWord cs
  if s.ends && endsSoon v true false (cs.drop (wordLength cs)) then word .identifier
  else if wordOf next = "function" then functionExpression v self
  else if s.isOpen && startsWord next && startsArrow (afterWord next) then bareArrow v self s true
  else if s.isOpen && (startsParameters v next || (v.typed && next.head? = some '<')) then
    orElse (arrowInBranch v self s) (word .identifier)
  else nameOrArrow v self s

/-- An operand that starts with a word. -/
def wordOperand (v : Variant) (self : Grammar) (s : Setting) : Parser Node := do
  let cs ← rest
  let w := wordOf cs
  match fixedWord? w with
  | some kind => word kind
  | none =>
    if w = "function" then functionExpression v self
    else if w = "async" then asyncOperand v self s
    else if w = "class" then classExpression v self
    else if w = "new" then newExpression v self s
    else if w = "await" then
      node .awaitExpression do
        keyword "await"
        add (self (.expression (s.rightOf Level.unary)))
    else if w = "yield" then yieldExpression v self s
    else if w ∈ unaryWords then unary self s (keywordToken w)
    else if w = "import" then
      require ((afterWord cs).head? = some '(' || (afterWord cs).head? = some '.')
      word .importWord
    else nameOrArrow v self s

/-- A cast in angle brackets before its operand. -/
def castExpression (self : Grammar) (s : Setting) : Parser Node := node .typeAssertion do
  push (← typeArguments self)
  add (self (.expression (s.under Level.unary)))

/-- What an angle bracket opens: a generic function with an arrow, a markup element, or a cast. -/
def angleOperand (v : Variant) (self : Grammar) (s : Setting) : Parser Node :=
  if v.typed then
    orElse (do
      require s.isOpen
      arrow v self s)
      (if v.markup then self .element else castExpression self s)
  else self .element

/-- A private name before the word that asks whether an object has it. -/
def privateOperand : Parser Node := do
  let n ← privateName
  require (← seesWord "in")
  pure n

/-- An operand. -/
def operand (v : Variant) (self : Grammar) (s : Setting) : Parser Node := do
  let cs ← rest
  match cs with
  | [] => fail
  | c :: more =>
    if c = '"' || c = '\'' then string
    else if isDigit c || c = '.' && (more.head?.map isDigit).getD false then number
    else if c = '[' then literalOrTarget self s (array self) (arrayPattern self)
    else if c = '\x7b' then literalOrTarget self s (object v self) (objectPattern self)
    else if c = '(' then parenthesesOrArrow v self s
    else if c = '\x60' then template (self (.sequence false))
    else if c = '/' then regex
    else if c = '<' then angleOperand v self s
    else if c = '+' || c = '-' then
      if more.head? = some c then prefixUpdate self s (String.ofList [c, c])
      else unary self s (exactly (String.singleton c))
    else if c = '!' || c = '~' then unary self s (exactly (String.singleton c))
    else if c = '#' then privateOperand
    else if c = '@' then classExpression v self
    else wordOperand v self s

/-! ### What follows an operand -/

/-- Operators between two operands, with how tightly they bind. -/
def binaryLevels : List (String × Level) :=
  [("*", 11), ("/", 11), ("%", 11), ("+", 10), ("-", 10), ("<<", 9), (">>", 9), (">>>", 9), ("<", 8),
    ("<=", 8), (">", 8), (">=", 8), ("==", 7), ("===", 7), ("!=", 7), ("!==", 7), ("&", 6), ("^", 5),
    ("|", 4), ("&&", 3), ("||", 2), ("??", Level.choice)]

/-- Operators that combine a value with what they assign it to. -/
def augmentedOperators : List String :=
  [">>>=", "**=", "<<=", ">>=", "&&=", "||=", "??=", "+=", "-=", "*=", "/=", "%=", "&=", "|=", "^="]

/-- Words that are operators between two operands. -/
def relationWords : List String := ["in", "instanceof"]

/-- How tightly the words of relations bind. -/
def relationLevel : Level := 8

/-- An operator between two operands that groups to the left. -/
def binary (self : Grammar) (s : Setting) (left : Node) (operator : Parser Unit) (level : Level) :
    Parser Node := node .binaryExpression do
  push (left.inRole .left)
  operator
  field .right (self (.expression (s.under (level + 1))))

/-- A power, which groups to the right. -/
def powerOf (self : Grammar) (s : Setting) (left : Node) : Parser Node := node .binaryExpression do
  push (left.inRole .left)
  mark "**"
  field .right (self (.expression (s.rightOf Level.power)))

/-- An assignment to what was read. -/
def assignment (self : Grammar) (s : Setting) (kind : Kind) (left : Node) (operator : String) :
    Parser Node := node kind do
  push (left.inRole .left)
  mark operator
  field .right (self (.expression (s.rightOf Level.whole)))

/-- A choice between two values. -/
def conditional (self : Grammar) (s : Setting) (left : Node) : Parser Node :=
  node .ternaryExpression do
    push left
    mark "?"
    add (self (.expression { branch := true }))
    mark ":"
    add (self (.expression (s.rightOf Level.choice)))

/-- A member of what was read, by name. -/
def memberAccess (left : Node) (dot : String) : Parser Node := do
  let isMeta := left.is .importWord && wordOf (afterTrivia ((← ahead).drop 1)) = "meta"
  node (if isMeta then .metaProperty else .memberExpression) do
    push (left.inRole .object)
    mark dot
    wideGap
    if ← sees "#" then push ((← privateName).inRole .property)
    else push ((← word .propertyIdentifier).inRole .property)

/-- Appends an expression in square brackets. -/
def indexTail (self : Grammar) : Parser Unit := do
  mark "["
  add (self (.sequence false))
  mark "]"

/-- What follows a question mark and a dot. -/
def optionalAccess (v : Variant) (self : Grammar) (left : Node) : Parser Node := do
  let next := afterTrivia ((← ahead).drop 2)
  if next.head? = some '(' || (v.typed && next.head? = some '<') then
    node .callExpression do
      push left
      mark "?."
      if v.typed && (← sees "<") then add (typeArguments self)
      add (arguments self)
  else if next.head? = some '[' then
    node .subscriptExpression do
      push (left.inRole .object)
      mark "?."
      indexTail self
  else memberAccess left "?."

/-- A call of what was read, or the same with types given to it. -/
def typedCall (v : Variant) (self : Grammar) (s : Setting) (left : Node) : Parser Node := nodeOf do
  push left
  callTypes v self s
  if ← sees "(" then
    add (arguments self)
    pure .callExpression
  else if ← sees "\x60" then
    add (template (self (.sequence false)))
    pure .callExpression
  else pure .instantiationExpression

/-- A question mark that opens the first of two values. In typed source one before a closing sign marks
something optional. -/
def opensChoice (v : Variant) (cs : List Char) : Bool :=
  match cs with
  | '?' :: '?' :: _ => false
  | '?' :: '.' :: rest => (rest.head?.map isDigit).getD false
  | '?' :: rest =>
    let next := (rest.dropWhile isPlainBlank).head?
    !(v.typed && (next = some ':' || next = some ')' || next = some ','))
  | _ => false

/-- Expressions that an operator may combine with a value in place. -/
def isAugmentable (v : Variant) (n : Node) : Bool :=
  n.is .parenthesizedExpression || (isTarget v n && !n.is .undefinedWord)

/-- What an operator sign after an operand makes of it. -/
def extendBySign (v : Variant) (self : Grammar) (s : Setting) (left : Node) (cs : List Char) :
    Parser (Option Node) := do
  let operator := operatorOf cs
  if operator = "**" then
    if s.level ≤ Level.power then return some (← powerOf self s left) else return none
  else if operator = "++" || operator = "--" then
    if s.isOpen then
      return some (← node .updateExpression do
        push (left.inRole .argument)
        mark operator)
    else return none
  else if operator = "=" then
    if s.isOpen && (isTarget v left || left.is .parenthesizedExpression) then
      return some (← assignment self s .assignmentExpression left operator)
    else return none
  else if operator ∈ augmentedOperators then
    if s.isOpen && isAugmentable v left then
      return some (← assignment self s .augmentedAssignmentExpression left operator)
    else return none
  else if operator = "!" then
    if v.typed && s.adopts then
      return some (← node .nonNullExpression do
        push left
        mark "!")
    else return none
  else
    match binaryLevels.lookup operator with
    | some level =>
      if s.level ≤ level then return some (← binary self s left (mark operator) level) else return none
    | none => return none

/-- What a word after an operand makes of it. -/
def extendByWord (v : Variant) (self : Grammar) (s : Setting) (left : Node) (w : String) :
    Parser (Option Node) := do
  if w ∈ relationWords then
    if s.level ≤ relationLevel then
      return some (← binary self s left (keyword w) relationLevel)
    else return none
  else if v.typed && s.adopts && (w = "as" || w = "satisfies") then
    return some (← node (if w = "as" then .asExpression else .satisfiesExpression) do
      push left
      keyword w
      if w = "as" && (← seesWord "const") then keyword "const"
      else add (self (.type s.ends true)))
  else return none

/-- What comes after an operand and makes a larger expression of it, if anything does. -/
def extend (v : Variant) (self : Grammar) (s : Setting) (left : Node) : Parser (Option Node) := do
  let here ← rest
  if s.ends && endsSoon v true false here then return none
  else
    let cs := afterTrivia here
    match cs with
    | [] => return none
    | c :: more =>
      if c = '.' then return some (← memberAccess left ".")
      else if c = '[' then
        return some (← node .subscriptExpression do
          push (left.inRole .object)
          indexTail self)
      else if c = '(' then
        if s.level ≤ Level.target then
          return some (← node .callExpression do
            push left
            add (arguments self))
        else return none
      else if c = '\x60' then
        return some (← node .callExpression do
          push left
          add (template (self (.sequence false))))
      else if opensChoice v cs then
        if s.level ≤ Level.choice then return some (← conditional self s left) else return none
      else if c = '?' && more.head? = some '.' then return some (← optionalAccess v self left)
      else if v.typed && c = '<' && s.level ≤ Level.target then
        match ← attempt (typedCall v self s left) with
        | some n => return some n
        | none => extendBySign v self s left cs
      else if startsWord cs then extendByWord v self s left (wordOf cs)
      else extendBySign v self s left cs

/-- An expression. -/
def expression (v : Variant) (self : Grammar) (s : Setting) : Parser Node := do
  let first ← operand v self s
  iterate (extend v self s) first

/-- A further expression of a sequence. -/
def sequenceStep (self : Grammar) (ends : Bool) : Parser Bool := do
  if ← sees "," then
    mark ","
    add (self (.expression { ends }))
    pure true
  else pure false

/-- One expression, or several with commas between them. -/
def sequence (self : Grammar) (ends : Bool) : Parser Node := do
  let first ← self (.expression { ends })
  if ← sees "," then
    node .sequenceExpression do
      push first
      loop (sequenceStep self ends)
  else pure first

end StoryManifest.Source.Grammar
