import JsxLoops.Surface.Types

/-!
Elements and fragments. Between tags the text is scanned differently from code, so every sign that
ends a tag or a braced expression is told whether the inside of an element follows it.
-/

namespace JsxLoops.Surface

open Parse

variable (g : Grammar)

def tagWord : Parse Token := do
  if !(← token).isWord then fail
  modify fun s =>
    let (t, rest) := extendTag s.token s.rest
    { s with token := t, rest := rest }
  let t ← token
  step
  return t

/-- The name of an element: how its words are joined, its words, its span, and the name it uses. -/
structure TagName where
  joint : String
  words : List String
  span : Span
  uses : List Phrase

/-- A plain element name stands for itself if it starts in lower case or holds a hyphen, and for a
name in scope otherwise. -/
def isIntrinsic (name : String) : Bool :=
  name.toList.contains '-' || name.toList.head?.any fun c => 'a' ≤ c && c ≤ 'z'

/-- The name of an element. After a point there are no hyphens. -/
def tagName : Parse TagName := do
  let start ← here
  let first ← tagWord
  let self : Phrase := .leaf first.span (.use first.text)
  if ← eat ":" then
    let second ← tagWord
    return ⟨":", [first.text, second.text], ⟨start, (← get).lastStop⟩, []⟩
  let more ← many (do
    if !(← eat ".") then return none
    let word ← tagWord
    if word.text.toList.contains '-' then fail
    return some word.text)
  let span : Span := ⟨start, (← get).lastStop⟩
  if more.isEmpty then
    return ⟨"", [first.text], span, if isIntrinsic first.text then [] else [self]⟩
  return ⟨".", first.text :: more, span, if first.text == "this" then [] else [self]⟩

/-- A braced expression whose opening brace is the current token. Only between tags may it be
empty. -/
def container (inChild : Bool) : Parse Phrase := do
  let start ← here
  advance
  if ← isAt "\x7d" then
    if !inChild then fail
    stepChild
    return ← close start .emptyContainer []
  let value ← within ({ · with allowIn := true }) (g .expression)
  expectThen "\x7d" inChild
  close start .container [value]

def attributeValue : Parse Phrase := do
  let t ← token
  match t.kind with
  | .quoted =>
    step
    return .leaf t.span .quotedValue
  | _ =>
    if t.is "\x7b" then container g false
    else if t.is "<" then g (.element false)
    else fail

def attributeItem : Parse Phrase := do
  let start ← here
  if ← eat "\x7b" then
    expect "..."
    let value ← g .expression
    expect "\x7d"
    return ← close start .spreadAttribute [value]
  discard tagWord
  if ← eat ":" then discard tagWord
  let name : Span := ⟨start, (← get).lastStop⟩
  if ← isAt "=" then
    stepValue
    let value ← attributeValue g
    close start (.attribute name) [value]
  else close start (.attribute name) []

/-- What stands between two tags, up to the opening angle of a closing tag. -/
def children : Parse (List Phrase) :=
  many (do
    let t ← token
    if t.kind == .text then
      stepChild
      return some (.leaf t.span .text)
    if t.is "<" then
      if ← nextIs "/" then return none
      return some (← g (.element true))
    if t.is "\x7b" then
      if ← nextIs "..." then
        let start ← here
        advance
        advance
        let value ← g .expression
        expectThen "\x7d" true
        return some (← close start .spreadChild [value])
      return some (← container g true)
    fail)

def element (inChild : Bool) : Parse Phrase := do
  let start ← here
  expect "<"
  if ← isAt ">" then
    stepChild
    let inner ← children g
    expect "<"
    expect "/"
    expectThen ">" inChild
    return ← close start .fragment inner
  let tag ← tagName
  let generics ← attempt (do
    if ← isAtAny ["<", "<<"] then typeArguments g else fail)
  let attributes ← many (do
    if (← isAtAny ["<", ">", "/"]) || (← isAtKind .eof) then return none
    return some (← attributeItem g))
  let head := [.group (tag.uses ++ generics.toList), .group attributes]
  if ← eat "/" then
    expectThen ">" inChild
    return ← close start (.element tag.span true) (head ++ [.group [], .group []])
  expectThen ">" true
  let inner ← children g
  expect "<"
  expect "/"
  let closing ← tagName
  expectThen ">" inChild
  flawIf (tag.joint != closing.joint || tag.words != closing.words)
  close start (.element tag.span false) (head ++ [.group inner, .group closing.uses])

end JsxLoops.Surface
