import JsxLoops.Surface.Types

/-!
Functions, methods and arrows. Each is a `lambda` phrase with four parts: what stands before its
parameters, the parameters, its result type, and its body. A function without a body has three.
-/

namespace JsxLoops.Surface

open Parse

variable (g : Grammar)

/-! ### Bodies -/

/-- Statements up to a closing brace, which is left standing. -/
def statements : Parse (List Phrase) :=
  many (do
    if (← isAt "\x7d") || (← isAtKind .eof) then return none
    return some (← g (.statement false)))

def isDirective (p : Phrase) : Bool :=
  match p.shape, p.parts with
  | .exprStatement, [⟨_, .literal true, _⟩] => true
  | _, _ => false

/-- A braced function body. The strings that lead it are directives and not statements. -/
def functionBody : Parse Phrase := do
  let start ← here
  expect "\x7b"
  let all ← within ({ · with allowIn := true, returns := true, decorating := false }) (statements g)
  expect "\x7d"
  let lead := all.takeWhile isDirective
  close start (.body (!lead.isEmpty)) (all.drop lead.length)

/-! ### Functions and methods -/

/-- How a function may lack a body. -/
inductive BodyRule where
  | required
  /-- Without a body it ends like a statement. -/
  | optional
deriving DecidableEq

/-- A function from its type parameters on. `lead` holds what was read before them. -/
def functionTail (start : Nat) (isAsync generator constructing : Bool) (name : Option String)
    (lead : List Phrase) (rule : BodyRule) : Parse Phrase :=
  within ({ · with allowIn := true, awaits := isAsync, yields := generator }) do
    let generics ← typeParameters g
    let (params, receiver) ← parameters g constructing
    let result ← resultAnnotation g
    let head := [.group (lead ++ generics ++ receiver), params, .group result]
    let shape := .lambda false isAsync generator name
    if ← isAt "\x7b" then
      let body ← functionBody g
      close start shape (head ++ [body])
    else if rule == .required then fail
    else
      endStatement
      close start shape head

def method (isAsync generator constructing : Bool) (rule : BodyRule) : Parse Phrase := do
  functionTail g (← here) isAsync generator constructing none [] rule

def Phrase.parameterList (p : Phrase) : List Phrase :=
  match p.parts with
  | _ :: params :: _ => params.parts
  | _ => []

/-- A getter takes no parameter, a setter exactly one, which is not a rest parameter. -/
def checkAccessor (word : String) (accessor : Phrase) : Parse Unit :=
  flawIf <| match word, accessor.parameterList with
    | "get", params => !params.isEmpty
    | _, [⟨_, .rest, _⟩] => true
    | _, params => params.length != 1

/-- A function, from its first word on; `named` where it must have a name. -/
def function (named : Bool) : Parse Phrase := do
  let start ← here
  let isAsync ← eat "async"
  expect "function"
  let generator ← eat "*"
  let t ← token
  if t.isBindable then
    let name ← if named then bound
      else within ({ · with awaits := isAsync, yields := generator }) bound
    functionTail g start isAsync generator false (some t.text) [name] .optional
  else
    flawIf named
    functionTail g start isAsync generator false none [] .optional

def atFunction : Parse Bool := do
  let t ← token
  if t.is "function" then return true
  if t.is "async" then
    let next ← nextToken
    return next.is "function" && !next.newline
  return false

/-! ### Arrows -/

structure ArrowHead where
  start : Nat
  isAsync : Bool
  generics : List Phrase
  params : Phrase
  result : List Phrase

def arrowBody (head : ArrowHead) (typedArrows : Bool) : Parse Phrase :=
  within ({ · with awaits := head.isAsync, yields := false }) do
    let body ← if ← isAt "\x7b" then functionBody g else do
      let value ← g (.assignment typedArrows)
      pure ⟨value.span, .concise, [value]⟩
    close head.start (.lambda true head.isAsync false none)
      [.group head.generics, head.params, .group head.result, body]

/-- The arrow sign, which may not start a line. -/
def arrowSign : Parse Unit := do
  flawIf (← onNewLine)
  expect "=>"

def arrowHead : Parse ArrowHead := do
  let start ← here
  let isAsync ← eat "async"
  let (generics, params, result) ←
    within (fun ctx => { ctx with awaits := ctx.awaits || isAsync }) do
      let generics ← typeParameters g
      flawIf (← isAt "(" <&&> nextIs "this")
      let (params, _) ← parameters g false
      let result ← resultAnnotation g
      pure (generics, params, result)
  arrowSign
  return ⟨start, isAsync, generics, params, result⟩

/-- How surely an arrow starts here. -/
inductive Likelihood where
  | no
  | maybe
  | yes

def likelihoodInParens : Parse Likelihood := do
  advance
  let t ← token
  if t.is ")" then
    step
    return if ← isAtAny ["=>", ":", "\x7b"] then .yes else .no
  if t.isAny ["[", "\x7b"] then return .maybe
  if t.is "..." then
    step
    let t ← token
    return if t.isBindable || t.isAny ["[", "\x7b"] then .yes else .no
  step
  let next ← token
  if t.isModifier && !t.is "async" && next.isBindable then
    return if next.is "as" then .no else .yes
  if !t.isBindable && !t.is "this" then return .no
  if next.is ":" then return .yes
  if next.is "?" then
    step
    return if ← isAtAny [":", ",", "=", ")"] then .yes else .no
  return if next.isAny [",", "=", ")"] then .maybe else .no

/-- Judges by the tokens after an opening angle, which may also open an element. -/
def likelihoodInAngles : Parse Likelihood := do
  advance
  let t ← token
  if !t.isBindable && !t.is "const" then return .no
  if t.is "const" then
    step
    return if (← token).isBindable then .yes else .no
  step
  let t ← token
  if t.is "extends" then
    step
    return if ← isAtAny ["=", ">", "/"] then .no else .yes
  return if t.isAny [",", "="] then .yes else .no

def arrowLikelihood : Parse Likelihood := do
  if !(← isAtAny ["(", "<", "async"]) then return .no
  lookahead (do
    if ← eat "async" then
      if (← onNewLine) || !(← isAtAny ["(", "<"]) then return .no
    if ← isAt "(" then likelihoodInParens else likelihoodInAngles) .no

/-- An arrow with parenthesised parameters, if one starts here. Where `typedArrows` is false, an
arrow with a result type counts only if a colon follows it. -/
def parenthesizedArrow (typedArrows : Bool) : Parse (Option Phrase) := do
  match ← arrowLikelihood with
  | .no => return none
  | .yes => return some (← arrowBody g (← arrowHead g) true)
  | .maybe =>
    let saved ← get
    match ← attempt (arrowHead g) with
    | none => return none
    | some head =>
      let arrow ← arrowBody g head typedArrows
      if !typedArrows && !head.result.isEmpty && !(← isAt ":") then
        set saved
        return none
      return some arrow

def nameArrow (start : Nat) (isAsync : Bool) (span : Span) (name : String) (typedArrows : Bool) :
    Parse Phrase := do
  arrowSign
  let param : Phrase := ⟨span, .param (some name), [.leaf span (.bind name)]⟩
  arrowBody g ⟨start, isAsync, [], ⟨span, .params, [param]⟩, []⟩ typedArrows

def asyncNameArrow (typedArrows : Bool) : Parse (Option Phrase) := do
  if !(← isAt "async") then return none
  let next ← nextToken
  if next.newline || !next.isBindable then return none
  let arrowFollows ← lookahead (do
    step
    step
    return (← isAt "=>") && !(← onNewLine)) false
  if !arrowFollows then return none
  let start ← here
  advance
  step
  return some (← nameArrow g start true next.span next.text typedArrows)

end JsxLoops.Surface
