import JsxLoops.Surface.Lambda

/-!
Classes.
-/

namespace JsxLoops.Surface

open Parse

variable (g : Grammar)

def superclass : Parse (List Phrase) := do
  let base ← g .access
  let args ← if base.shape == .instantiated then pure [] else optionalTypeArguments g
  return base :: args

/-- The clauses between the name of a class and its body. -/
def heritage : Parse (List Phrase) := do
  let clauses ← many (do
    if ← eat "extends" then return some (← superclass g)
    if ← eat "implements" then
      let first ← typeReference g
      let more ← many (do
        if ← eat "," then return some (← typeReference g)
        return none)
      return some (first :: more)
    return none)
  return clauses.flatten

def field : Parse (List Phrase) := do
  let type ← annotation g
  let value ← if ← eat "=" then
      pure [← within ({ · with allowIn := true, awaits := false, yields := false })
        (g (.assignment true))]
    else pure []
  endStatement
  return type ++ value

def staticBlock : Parse Phrase := do
  let start ← here
  advance
  expect "\x7b"
  let body ← within ({ · with allowIn := true, awaits := true, yields := false, returns := false })
    (statements g)
  expect "\x7d"
  close start .other body

/-- A method or a field whose modifiers and star have been read. -/
def member (start : Nat) (lead : List Phrase) (isAsync generator : Bool) : Parse Phrase := do
  let t ← token
  let (_, key) ← propertyKey g
  if !(← onNewLine) then
    if ← isAt "!" then advance
  discard (eat "?")
  if generator || (← isAtAny ["(", "<"]) then
    let constructing := t.is "constructor"
    let f ← method g isAsync generator constructing .optional
    close start .other (lead ++ key ++ [f])
  else
    let parts ← field g
    close start .other (lead ++ key ++ parts)

def classMember : Parse Phrase := do
  let start ← here
  let decorations ← decorators g
  if ← isAt "static" then
    if ← nextIs "\x7b" then return ← staticBlock g
  let mods ← modifiers
  let t ← token
  let next ← nextToken
  if t.isAny ["get", "set"] && (next.isPropertyName || next.is "[") then
    advance
    let (_, key) ← propertyKey g
    let f ← method g false false false .optional
    checkAccessor t.text f
    return ← close start .other (decorations ++ key ++ [f])
  if t.is "[" then
    if ← lookahead opensIndexSignature false then
      let parts ← indexSignature g
      endMember
      return ← close start .other parts
  let generator ← eat "*"
  member g start decorations (mods.contains "async") generator

def classTail (start : Nat) (decorations : List Phrase) : Parse Phrase := do
  expect "class"
  let t ← token
  let name ← if t.isBindable && !t.is "implements" then pure [← bound] else pure []
  let generics ← typeParameters g
  let bases ← heritage g
  expect "\x7b"
  let members ← within ({ · with decorating := false }) <| many (do
    let _ ← many (do return if ← eat ";" then some () else none)
    if (← isAt "\x7d") || (← isAtKind .eof) then return none
    return some (← classMember g))
  expect "\x7d"
  close start .other (decorations ++ name ++ generics ++ bases ++ members)

end JsxLoops.Surface
