import JsxLoops.Surface.Class
import JsxLoops.Surface.Markup

/-!
Operands: literals, names, object and array literals, parentheses, and the chains of members and
calls built on them.
-/

namespace JsxLoops.Surface

open Parse

variable (g : Grammar)

def oneExpression : Parse Phrase := within ({ · with allowIn := true }) (g (.assignment true))

def spreadable : Parse Phrase := do
  let start ← here
  if ← eat "..." then
    let value ← oneExpression g
    close start .spread [value]
  else oneExpression g

/-! ### Literals built of expressions -/

def arrayLiteral : Parse Phrase := do
  let start ← here
  expect "["
  let (items, trailing) ← listed "]" (do
    if ← isAt "," then return .leaf ⟨← here, ← here⟩ .hole
    spreadable g)
  expect "]"
  close start (.array trailing) items

def methodEntry (start : Nat) (isAsync generator : Bool) : Parse Phrase := do
  let (_, key) ← propertyKey g
  let f ← method g isAsync generator false .required
  close start .other (key ++ [f])

def objectEntry : Parse Phrase := do
  let start ← here
  let t ← token
  if t.is "..." then return ← spreadable g
  let next ← nextToken
  let namesProperty := next.isPropertyName || next.is "["
  if t.isAny ["get", "set"] && namesProperty then
    advance
    let (_, key) ← propertyKey g
    let f ← method g false false false .required
    checkAccessor t.text f
    return ← close start .other (key ++ [f])
  if t.is "async" && (namesProperty || next.is "*") && !next.newline then
    advance
    let generator ← eat "*"
    return ← methodEntry g start true generator
  if ← eat "*" then return ← methodEntry g start false true
  let (form, key) ← propertyKey g
  if ← isAtAny ["(", "<", "<<"] then
    let f ← method g false false false .required
    close start .other (key ++ [f])
  else if t.isUsable false false && !(← isAt ":") then
    checkName t
    let name : Phrase := .leaf t.span (.use t.text)
    if ← eat "=" then
      let value ← oneExpression g
      modify fun s => { s with looseDefaults := start :: s.looseDefaults }
      close start .defaulted [name, value]
    else close start (.entry form true) [name]
  else
    expect ":"
    let value ← oneExpression g
    close start (.entry form false) (key ++ [value])

def objectLiteral : Parse Phrase := do
  let start ← here
  expect "\x7b"
  let (entries, trailing) ← listed "\x7d" (objectEntry g)
  expect "\x7d"
  close start (.object trailing) entries

def parenthesized : Parse Phrase := do
  let start ← here
  expect "("
  let inside ← here
  let (items, trailing) ← within ({ · with allowIn := true, decorating := false })
    (listed ")" (g (.assignment true)))
  flawIf trailing
  let inner ← match items with
    | [] => fail
    | [item] => pure item
    | items => close inside .other items
  expect ")"
  close start .paren [inner]

def arguments : Parse (List Phrase) := do
  expect "("
  let (items, _) ← within ({ · with decorating := false }) (listed ")" (spreadable g))
  expect ")"
  return items

def regularExpression : Parse Phrase := do
  let t ← token
  modify fun s =>
    let next := scanPattern t.span.start t.newline (t.text.toList.drop 1 ++ s.rest)
    { s with token := next.token, rest := next.rest, sound := s.sound && next.sound }
  if ← isAtKind .bad then fail
  let pattern ← token
  step
  return .leaf pattern.span (.literal false)

/-! ### Primary operands -/

def importExpression : Parse Phrase := do
  let start ← here
  advance
  if ← eat "." then
    if ← isAt "meta" then
      step
      return ← close start .other []
    if !(← isAtAny ["source", "defer"]) then fail
    step
  expect "("
  let (items, _) ← listed ")" (oneExpression g)
  if items.isEmpty || 2 < items.length then fail
  expect ")"
  close start .other items

def newExpression : Parse Phrase := do
  let start ← here
  advance
  if ← eat "." then
    if !(← isAt "target") then fail
    step
    return ← close start .other []
  let callee ← g .callee
  flawIf (← isAt "?.")
  let args ← if ← isAt "(" then arguments g else pure []
  close start .other (callee :: args)

/-- `super`, which only a member or a call may follow. -/
def superExpression : Parse Phrase := do
  let t ← token
  advance
  flawIf !(← isAtAny [".", "[", "("])
  return .leaf t.span .other

def wordOperand : Parse Phrase := do
  let t ← token
  if ← atFunction then function g false
  else if t.is "class" then classTail g t.span.start []
  else if t.is "this" then
    advance
    return .leaf t.span .this
  else if t.isAny ["null", "true", "false"] then
    advance
    return .leaf t.span (.literal false)
  else if t.is "new" then newExpression g
  else if t.is "super" then superExpression
  else if t.is "import" then importExpression g
  else used

def primary : Parse Phrase := do
  let t ← token
  match t.kind with
  | .word => wordOperand g
  | .quoted =>
    step
    return .leaf t.span (.literal true)
  | .number =>
    step
    return .leaf t.span (.literal false)
  | .template | .templateHead => template false (g .expression)
  | .sign =>
    if t.is "(" then parenthesized g
    else if t.is "[" then arrayLiteral g
    else if t.is "\x7b" then objectLiteral g
    else if t.is "<" then g (.element false)
    else if t.isAny ["/", "/="] then regularExpression
    else if t.is "@" then
      let decorations ← decorators g
      classTail g t.span.start decorations
    else fail
  | _ => fail

/-! ### Members and calls -/

def memberLink (start : Nat) (object : Phrase) (optional : Bool) : Parse Phrase := do
  let t ← token
  if t.kind == .privateName then
    step
    close start .privateMember [object]
  else
    let name ← propertyWord
    close start (.member name.text optional) [object]

def indexLink (start : Nat) (object : Phrase) (optional : Bool) : Parse Phrase := do
  expect "["
  let index ← within ({ · with allowIn := true }) (g .expression)
  expect "]"
  close start (.index optional) [object, index]

/-- A call. Type arguments read before it belong to it. -/
def callLink (start : Nat) (callee : Phrase) (generics : List Phrase) (optional : Bool) :
    Parse Phrase := do
  let args ← arguments g
  if callee.shape == .instantiated then close start .other (callee.parts ++ args)
  else if generics.isEmpty then close start (.call optional) (callee :: args)
  else close start .other (callee :: generics ++ args)

def optionalLink (start : Nat) (object : Phrase) : Parse Phrase := do
  advance
  let t ← token
  if t.kind == .privateName || t.isWord then memberLink start object true
  else if t.is "[" then indexLink g start object true
  else
    let generics ← expressionTypeArguments g
    if !(← isAt "(") then fail
    callLink g start object generics.toList true

/-- One more link of a chain, if there is one, and whether it is optional. `calls` tells whether
calls and optional links belong to the chain. -/
def link (start : Nat) (e : Phrase) (calls chained : Bool) : Parse (Option (Phrase × Bool)) := do
  let t ← token
  match t.kind with
  | .template | .templateHead =>
    flawIf chained
    let quasi ← template true (g .expression)
    return some (← close start .other [e, quasi], false)
  | .sign =>
    if t.is "." then
      advance
      return some (← memberLink start e false, false)
    if t.is "[" && !(← read).decorating then return some (← indexLink g start e false, false)
    if t.is "!" && !t.newline then
      advance
      return some (← close start .asserted [e], false)
    if t.isAny ["<", "<<"] then
      match ← expressionTypeArguments g with
      | some args => return some (← close start .instantiated [e, args], false)
      | none => return none
    if calls && t.is "?." then return some (← optionalLink g start e, true)
    if calls && t.is "(" then return some (← callLink g start e [] false, false)
    return none
  | _ => return none

/-- Links until there are no more, and whether one of them was optional. -/
def links (start : Nat) (calls : Bool) : Nat → Phrase → Bool → Parse (Phrase × Bool)
  | 0, e, chained => return (e, chained)
  | fuel + 1, e, chained => do
    match ← link g start e calls chained with
    | some (e, optional) => links start calls fuel e (chained || optional)
    | none => return (e, chained)

def callee : Parse Phrase := do
  let start ← here
  let e ← primary g
  let (e, _) ← links g start false (← read).bound e false
  return e

/-- Rule `access`. A chain with an optional link is one phrase of its own. -/
def access : Parse Phrase := do
  let start ← here
  let e ← primary g
  let (e, chained) ← links g start true (← read).bound e false
  return if chained then ⟨e.span, .chain, [e]⟩ else e

end JsxLoops.Surface
