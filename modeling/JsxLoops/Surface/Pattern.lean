import JsxLoops.Surface.Parse

/-!
Binding patterns, property names and parameter lists.
-/

namespace JsxLoops.Surface

open Parse

variable (g : Grammar)

/-! ### Words and keys in front of things -/

def atModifier : Parse Bool := do
  let t ← token
  if !t.isModifier then return false
  let next ← nextToken
  if t.is "const" then return next.is "enum"
  if t.isAny ["export", "default"] then return false
  if t.is "static" then return next.followsModifier
  return !next.newline && next.followsModifier

/-- The modifiers in front of a member, a parameter or a declaration. A second `static`, and a
`static` that opens a block, are not modifiers. -/
def modifiersFrom : Nat → Bool → Parse (List String)
  | 0, _ => return []
  | fuel + 1, seenStatic => do
    let t ← token
    if t.is "static" then
      if seenStatic || (← nextIs "\x7b") then return []
    if ← atModifier then
      advance
      return t.text :: (← modifiersFrom fuel (seenStatic || t.is "static"))
    return []

def modifiers : Parse (List String) := do modifiersFrom (← read).bound false

def decorators : Parse (List Phrase) :=
  many (do
    if ← eat "@" then return some (← within ({ · with decorating := true }) (g .access))
    return none)

def propertyKey : Parse (KeyForm × List Phrase) := do
  let t ← token
  match t.kind with
  | .word =>
    step
    return (.named t.text, [])
  | .quoted =>
    step
    return (.quoted t.span, [])
  | .number =>
    step
    return (if t.text == "n" then .special else .quoted t.span, [])
  | .privateName =>
    step
    return (.special, [])
  | _ =>
    expect "["
    let key ← within ({ · with allowIn := true }) (g (.assignment true))
    expect "]"
    return (.computed, [key])

/-! ### Annotations -/

def annotation : Parse (List Phrase) := do
  if ← eat ":" then return [← g .type]
  return []

def resultAnnotation : Parse (List Phrase) := do
  if ← eat ":" then return [← g .resultType]
  return []

/-! ### Patterns -/

def initializer : Parse (List Phrase) := do
  if ← eat "=" then return [← within ({ · with allowIn := true }) (g (.assignment true))]
  return []

def patternWithDefault : Parse Phrase := do
  let start ← here
  let p ← g .pattern
  match ← initializer g with
  | [] => return p
  | value => close start .other (p :: value)

/-- Items up to `closing`, the last of which may be a rest item. Nothing follows a rest item. -/
def listedWithRest (closing : String) (item restItem : Parse Phrase) : Parse (List Phrase) := do
  let (items, _) ← listed closing (do
    if ← isAt "..." then
      let p ← restItem
      flawIf (← isAt ",")
      return p
    item)
  return items

def restPattern : Parse Phrase := do
  let start ← here
  expect "..."
  let p ← g .pattern
  flawIf (← isAt "=")
  let value ← initializer g
  close start .rest (p :: value)

def arrayPattern : Parse Phrase := do
  let start ← here
  expect "["
  let items ← listedWithRest "]"
    (do
      if ← isAt "," then return .leaf ⟨start, start⟩ .hole
      patternWithDefault g)
    (restPattern g)
  expect "]"
  close start .other items

def objectPatternEntry : Parse Phrase := do
  let start ← here
  let t ← token
  let (_, key) ← propertyKey g
  if t.isBindable && !(← isAt ":") then
    let value ← initializer g
    close start .other (.leaf t.span (.bind t.text) :: value)
  else
    expect ":"
    let value ← patternWithDefault g
    close start .other (key ++ [value])

def objectPattern : Parse Phrase := do
  let start ← here
  expect "\x7b"
  let items ← listedWithRest "\x7d" (objectPatternEntry g) (do
    let p ← restPattern g
    match p.parts with
    | ⟨_, .bind _, _⟩ :: _ => return p
    | _ => fail)
  expect "\x7d"
  close start .other items

def pattern : Parse Phrase := do
  if ← isAt "[" then arrayPattern g
  else if ← isAt "\x7b" then objectPattern g
  else bound

/-! ### Parameters -/

/-- A parameter. Only the parameters of a constructor take modifiers. -/
def parameter (constructing : Bool) : Parse Phrase := do
  let start ← here
  let decorations ← decorators g
  let mods ← modifiers
  flawIf (!constructing && !mods.isEmpty)
  let p ← g .pattern
  discard (eat "?")
  let type ← annotation g
  let value ← initializer g
  let name := match p.shape with
    | .bind name => some name
    | _ => none
  close start (.param name) (decorations ++ p :: type ++ value)

/-- A rest parameter. Its span leaves out the annotation. -/
def restParameter : Parse Phrase := do
  let start ← here
  expect "..."
  let p ← g .pattern
  let rest ← close start .rest [p]
  discard (eat "?")
  let type ← annotation g
  flawIf (← isAt "=")
  let value ← initializer g
  return { rest with parts := p :: type ++ value }

def parameters (constructing : Bool) : Parse (Phrase × List Phrase) := do
  let start ← here
  expect "("
  let mut receiver := []
  if ← eat "this" then
    receiver ← annotation g
    if !(← isAt ")") then expect ","
  let items ← listedWithRest ")" (parameter g constructing) (restParameter g)
  expect ")"
  return (← close start .params items, receiver)

end JsxLoops.Surface
