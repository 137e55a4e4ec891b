import StoryManifest.Source.Grammar.Member

/-!
Markup elements inside expressions: tags with attributes, and between an opening and a closing tag
text, character references, inserted expressions and further elements. The names of the two tags need
not agree.
-/

namespace StoryManifest.Source.Grammar

open StoryManifest.Source.Parser

/-- A letter, digit or sign of the name of a character reference. -/
def referenceLength? (cs : List Char) : Option Nat :=
  match cs with
  | '&' :: '#' :: x :: rest =>
    if x = 'x' || x = 'X' then
      let digits := hexLength rest
      if 1 ≤ digits ∧ digits ≤ 6 ∧ (rest.drop digits).head? = some ';' then some (digits + 4) else none
    else
      let digits := ((x :: rest).takeWhile isDigit).length
      if 1 ≤ digits ∧ digits ≤ 5 ∧ ((x :: rest).drop digits).head? = some ';' then some (digits + 3)
      else none
  | '&' :: rest =>
    let letters := (rest.takeWhile isPlainLetter).length
    if 1 ≤ letters ∧ letters ≤ 30 ∧ (rest.drop letters).head? = some ';' then some (letters + 2)
    else none
  | _ => none

/-- Reads a character reference. -/
def reference : Parser Node := do
  match referenceLength? (← rest) with
  | some length => take (.named .clause) length
  | none => fail

/-- A character that ends the text between tags. -/
def endsMarkupText (c : Char) : Bool := c ∈ "<>\x7b\x7d&".toList

/-- The text has more than line ends and the indentation after them. -/
def hasMarkupText : Bool → List Char → Bool
  | _, [] => false
  | atLineStart, c :: rest =>
    if c = '\n' then hasMarkupText true rest
    else if atLineStart && isPlainBlank c then hasMarkupText true rest
    else true

/-- A name with dashes, or a word. -/
def tagWord : Parser Node := do
  let cs ← rest
  let isTagChar (c : Char) : Bool := isPlainLetter c || isDigit c || c = '_' || c = '$' || c = '-'
  let dashed := (cs.takeWhile isTagChar).length
  if dashed ≤ wordLength cs then word .identifier
  else
    require (startsWord cs)
    take (.named .identifier) dashed

/-- A further part of the name of a tag. -/
def tagNameStep : Parser Bool := do
  if ← sees "." then
    mark "."
    add (word .propertyIdentifier)
    pure true
  else pure false

/-- The name of a tag or an attribute: a word, a path of words, or a word in a namespace. -/
def tagName : Parser Node := node .clause do
  push (← tagWord)
  if ← sees ":" then
    mark ":"
    add tagWord
  else loop tagNameStep

/-- A piece of a string that is the value of an attribute. -/
def attributeStringStep (quote : Char) : Parser Bool := do
  let cs ← rest
  match cs with
  | [] => fail
  | c :: more =>
    if c = quote then pure false
    else if c = '&' then
      match referenceLength? cs, more with
      | some length, _ =>
        push (← take (.named .clause) length)
        pure true
      | none, d :: _ =>
        require (!(d = '#' || isPlainLetter d || d = quote))
        push (← take (.named .stringFragment) 2)
        pure true
      | none, [] => fail
    else
      push (← take (.named .stringFragment) (cs.takeWhile (fun c => c ≠ quote && c ≠ '&')).length)
      pure true

/-- A string that is the value of an attribute. It has no escapes. -/
def attributeString (quote : Char) : Parser Node := node .string do
  push (← exactly (String.singleton quote))
  loop (attributeStringStep quote)
  push (← exactly (String.singleton quote))

/-- An inserted expression between braces, or none. -/
def insertion (self : Grammar) : Parser Node := node .clause do
  mark "\x7b"
  wideGap
  if !(← sees "\x7d") then
    if ← sees "..." then spreadOr self else add (self (.sequence false))
  mark "\x7d"

/-- The value of an attribute. -/
def attributeValue (self : Grammar) : Parser Node := do
  match ← rest with
  | '"' :: _ => attributeString '"'
  | '\'' :: _ => attributeString '\''
  | '\x7b' :: _ => insertion self
  | _ => self .element

/-- An attribute of a tag, unless the tag is over. -/
def attributeStep (self : Grammar) : Parser Bool := do
  wideGap
  match ← rest with
  | '>' :: _ => pure false
  | '/' :: _ => pure false
  | '\x7b' :: _ =>
    push (← insertion self)
    pure true
  | _ =>
    push (← node .clause do
      push (← tagWord)
      if ← sees ":" then
        mark ":"
        add tagWord
      if ← sees "=" then
        mark "="
        add (attributeValue self))
    pure true

/-- A piece of what stands between two tags. -/
def markupStep (self : Grammar) : Parser Bool := do
  let cs ← rest
  let text := cs.takeWhile (!endsMarkupText ·)
  if hasMarkupText false text then
    push (← take (.named .clause) text.length)
    pure true
  else
    wideGap
    match ← rest with
    | '<' :: '/' :: _ => pure false
    | '<' :: _ =>
      push (← self .element)
      pure true
    | '\x7b' :: _ =>
      push (← insertion self)
      pure true
    | '&' :: _ =>
      push (← reference)
      pure true
    | _ => fail

/-- Appends the tag that opens an element up to its closing sign. -/
def openTag (v : Variant) (self : Grammar) : Parser Unit := do
  mark "<"
  wideGap
  if !(← sees ">") then
    push (← tagName)
    if v.typed && (← sees "<") then add (typeArguments self)
    loop (attributeStep self)

/-- Appends the tag that closes an element. -/
def closeTag : Parser Unit := do
  mark "</"
  wideGap
  if !(← sees ">") then push (← tagName)
  mark ">"

/-- An element. -/
def element (v : Variant) (self : Grammar) : Parser Node := nodeOf do
  openTag v self
  if ← sees "/>" then
    mark "/>"
    pure .jsxSelfClosingElement
  else
    mark ">"
    loop (markupStep self)
    closeTag
    pure .jsxElement

end StoryManifest.Source.Grammar
