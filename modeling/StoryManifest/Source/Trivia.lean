import StoryManifest.Source.Parser
import StoryManifest.Source.Variant

/-!
What stands between tokens: blanks, which no tree shows, and comments, which become nodes of their
own. A statement may end without a semicolon where a line ends, before a closing brace and at the end
of the text; `endsStatement` says when.
-/

namespace StoryManifest.Source

/-! ### Comments -/

/-- How many characters are left of a block comment, its closing mark included. -/
def blockLength? : List Char → Option Nat
  | '*' :: '/' :: _ => some 2
  | _ :: rest => (blockLength? rest).map (· + 1)
  | [] => none

/-- The length of the comment that starts here. -/
def commentLength? : List Char → Option Nat
  | '/' :: '/' :: rest => some (2 + (rest.takeWhile (!isLineEndOrReturn ·)).length)
  | '/' :: '*' :: rest => (blockLength? rest).map (· + 2)
  | _ => none

/-- The length of the HTML comment that starts here. -/
def htmlCommentLength? : List Char → Option Nat
  | '<' :: '!' :: '-' :: '-' :: rest => some (4 + (rest.takeWhile (!isLineEnd ·)).length)
  | '-' :: '-' :: '>' :: rest => some (3 + (rest.takeWhile (!isLineEnd ·)).length)
  | _ => none

/-- How many blanks come first. -/
def blankLength (cs : List Char) : Nat := (cs.takeWhile isBlank).length

/-- A blank that may stand before an HTML comment. -/
def isHtmlBlank (c : Char) : Bool := isPlainBlank c || c = '\u2028' || c = '\u2029'

/-- The text from the next token on, comments passed over, at most one for each character of a bound. -/
def afterTriviaOver : List Char → List Char → List Char
  | [], cs => cs.dropWhile isBlank
  | _ :: bound, cs =>
    let cs := cs.dropWhile isBlank
    match commentLength? cs with
    | some length => afterTriviaOver bound (cs.drop length)
    | none => cs

/-- The text from the next token on. -/
def afterTrivia (cs : List Char) : List Char := afterTriviaOver cs cs

/-! ### The end of a statement -/

/-- How a run of blanks and comments ended. -/
inductive Gap where
  | broken
  | lineEnd (rest : List Char)
  | sameLine (rest : List Char)

/-- Passes over blanks and comments. With `stops`, it stops after the first block comment and tells
whether a line ended within it. A slash that opens no comment breaks the run. -/
def passGap (stops : Bool) : Nat → Bool → List Char → Gap
  | 0, _, cs => .lineEnd cs
  | n + 1, sawLineEnd, cs =>
    match cs.dropWhile isPlainBlank with
    | '/' :: '/' :: rest => passGap stops n sawLineEnd (rest.dropWhile (!isLineEnd ·))
    | '/' :: '*' :: rest =>
      match blockLength? rest with
      | none => .lineEnd []
      | some length =>
        let saw := sawLineEnd || (rest.take length).any isLineEnd
        let after := rest.drop length
        if stops && after.head? ≠ some '/' then
          if saw then .lineEnd after else .sameLine after
        else passGap stops n saw after
    | '/' :: _ => .broken
    | rest => .lineEnd rest

/-- After a line end: the next characters do not go on with the statement as a binary `in` or
`instanceof`. -/
def startsOwnWord : List Char → Bool
  | 'i' :: 'n' :: rest =>
    match rest with
    | c :: _ =>
      if !isPlainLetter c then false
      else if "stanceof".toList.isPrefixOf rest then
        match rest.drop 8 with
        | d :: _ => isPlainLetter d
        | [] => false
      else true
    | [] => false
  | _ => true

/-- After a line end: the next token starts a statement of its own. -/
def startsStatement (v : Variant) (afterOperand signature : Bool) (cs : List Char) : Bool :=
  match cs with
  | [] => true
  | c :: rest =>
    if c ∈ "\x60,;*%><=?^|&/:".toList then false
    else if c = '.' then !v.typed && (rest.head?.map isDigit).getD false
    else if c = '(' || c = '[' then v.typed && !afterOperand
    else if c = '\x7b' then !signature
    else if c = '+' then rest.head? = some '+'
    else if c = '-' then rest.head? = some '-'
    else if c = '!' then rest.head? ≠ some '='
    else startsOwnWord (c :: rest)

/-- After a line end: passes over comments, then asks for the next token. -/
def startsAfterGap (v : Variant) (afterOperand signature : Bool) (cs : List Char) : Bool :=
  match passGap false (cs.length + 1) false cs with
  | .broken => false
  | .lineEnd rest => startsStatement v afterOperand signature rest
  | .sameLine rest => startsStatement v afterOperand signature rest

/-- A statement may end here in an untyped variant. -/
def endsPlain (v : Variant) (afterOperand signature : Bool) : Nat → List Char → Bool
  | 0, _ => false
  | _ + 1, [] => true
  | n + 1, c :: rest =>
    if c = '/' then
      match passGap true ((c :: rest).length + 1) false (c :: rest) with
      | .broken => false
      | .lineEnd after =>
        if !afterOperand && after.head? ≠ some ',' && after.head? ≠ some '=' then true
        else after ≠ [] && endsPlain v afterOperand signature n after
      | .sameLine after => after ≠ [] && endsPlain v afterOperand signature n after
    else if c = '\x7d' then true
    else if isLineEnd c then startsAfterGap v afterOperand signature rest
    else isPlainBlank c && endsPlain v afterOperand signature n rest

/-- A statement may end here in a typed variant. A brace that a colon follows closes the pattern of a
parameter. -/
def endsTyped (v : Variant) (afterOperand signature : Bool) : List Char → Bool
  | [] => true
  | c :: rest =>
    if c = '\x7d' then
      if (rest.dropWhile isPlainBlank).head? = some ':' then afterOperand else true
    else if c = '\n' then startsAfterGap v afterOperand signature rest
    else isPlainBlank c && endsTyped v afterOperand signature rest

/-- A statement may end right here without a semicolon. `afterOperand` tells that an operator could
follow, `signature` that a function body could. -/
def endsStatement (v : Variant) (afterOperand signature : Bool) (cs : List Char) : Bool :=
  if v.typed then endsTyped v afterOperand signature cs
  else endsPlain v afterOperand signature (cs.length + 1) cs

/-- A statement may end here, or after one of the comments that follow. -/
def endsSoonUpTo (v : Variant) (afterOperand signature : Bool) : Nat → List Char → Bool
  | 0, _ => false
  | n + 1, cs =>
    if endsStatement v afterOperand signature cs then true
    else
      let cs := cs.dropWhile isBlank
      match commentLength? cs with
      | some length => endsSoonUpTo v afterOperand signature n (cs.drop length)
      | none => false

/-- A statement may end before the next token. -/
def endsSoon (v : Variant) (afterOperand signature : Bool) (cs : List Char) : Bool :=
  endsSoonUpTo v afterOperand signature (cs.length + 1) cs

namespace Parser

/-! ### Reading what stands between tokens -/

/-- Reads the comment that comes next, if one does, and the blanks before it. -/
def gapStep (html : Bool) : Parser Bool := do
  let cs ← rest
  let early := (cs.takeWhile isHtmlBlank).length
  match if html then htmlCommentLength? (cs.drop early) else none with
  | some length =>
    skip early
    push (← take (.named .htmlComment) length)
    pure true
  | none =>
    skip (blankLength cs)
    match commentLength? (← rest) with
    | some length =>
      push (← take (.named .comment) length)
      pure true
    | none => pure false

/-- Reads up to the next token. Comments become children of the open node. -/
def gap : Parser Unit := loop (gapStep false)

/-- Reads up to the next token where an operand or a statement may start, so that HTML comments count
as comments too. -/
def wideGap : Parser Unit := loop (gapStep true)

/-- The text from the next token on. -/
def ahead : Parser (List Char) := do return afterTrivia (← rest)

/-- Appends what a parser reads from the next token on, where an operand or a name may start. -/
def add (p : Parser Node) : Parser Unit := do
  wideGap
  push (← p)

/-- Appends what a parser reads from the next token on, in a role. -/
def field (role : Role) (p : Parser Node) : Parser Unit := do
  wideGap
  push ((← p).inRole role)

/-- The text that comes next, whatever follows it. -/
def exactly (text : String) : Parser Node := do
  require (text.toList.isPrefixOf (← rest))
  take (.token text) text.length

/-- Appends a punctuation token. -/
def mark (text : String) : Parser Unit := do
  gap
  push (← exactly text)

/-- The punctuation token comes next. -/
def sees (text : String) : Parser Bool := do return text.toList.isPrefixOf (← ahead)

/-- The end of a statement: a semicolon, or none where none is needed. -/
def semicolonStep (v : Variant) (afterOperand signature : Bool) : Parser Bool := do
  if endsStatement v afterOperand signature (← rest) then pure false
  else
    skip (blankLength (← rest))
    match commentLength? (← rest) with
    | some length =>
      push (← take (.named .comment) length)
      pure true
    | none =>
      push (← exactly ";")
      pure false

/-- Reads the end of a statement. -/
def semicolon (v : Variant) (afterOperand : Bool) : Parser Unit :=
  loop (semicolonStep v afterOperand false)

/-- Reads the end of a declaration or a block that needs no semicolon: comments before the end of the
line still belong to it. -/
def softEnd (v : Variant) (afterOperand : Bool) : Parser Unit := do
  if endsSoon v afterOperand false (← rest) then
    loop do
      if endsStatement v afterOperand false (← rest) then pure false
      else gapStep false
  else pure ()

end Parser

end StoryManifest.Source
