import JsxLoops.Surface.Pattern

/-!
Types. Only the names used and declared inside a type matter later on, so every type is `other`.
-/

namespace JsxLoops.Surface

open Parse

variable (g : Grammar)

/-! ### Arguments and parameters of types -/

def typeArguments : Parse Phrase := do
  let start ← here
  splitAngle
  expect "<"
  let (types, _) ← listed ">" (g .type)
  flawIf types.isEmpty
  expect ">"
  close start .other types

def optionalTypeArguments : Parse (List Phrase) := do
  if ← onNewLine then return []
  if ← isAtAny ["<", "<<"] then return [← typeArguments g]
  return []

def typeParameter : Parse Phrase := do
  let start ← here
  discard <| many (do
    let t ← token
    if t.isAny ["const", "in", "out"] && (← nextToken).isBindable then
      advance
      return some ()
    return none)
  let name ← bound
  let mut parts := [name]
  if ← eat "extends" then parts := parts ++ [← g .type]
  if ← eat "=" then parts := parts ++ [← g .type]
  close start .other parts

def typeParameters : Parse (List Phrase) := do
  if !(← isAt "<") then return []
  advance
  let (items, _) ← listed ">" (typeParameter g)
  flawIf items.isEmpty
  expect ">"
  return items

/-! ### Names of types -/

def typeName : Parse Phrase := do
  let start ← here
  let t ← propertyWord
  let first : Phrase := .leaf t.span (if t.text == "this" then .this else .use t.text)
  let more ← many (do
    if ← eat "." then
      discard propertyWord
      return some ()
    return none)
  if more.isEmpty then return first
  close start .other [first]

def typeReference : Parse Phrase := do
  let start ← here
  let name ← typeName
  let args ← optionalTypeArguments g
  close start .other (name :: args)

def importType : Parse Phrase := do
  let start ← here
  discard (eat "typeof")
  expect "import"
  expect "("
  let (parts, _) ← listed ")" (do
    if ← isAt "\x7b" then g (.assignment true) else g .type)
  expect ")"
  let _ ← many (do
    if ← eat "." then
      discard propertyWord
      return some ()
    return none)
  let args ← optionalTypeArguments g
  close start .other (parts ++ args)

def typeQuery : Parse Phrase := do
  let start ← here
  expect "typeof"
  let name ← typeName
  let args ← optionalTypeArguments g
  close start .other (name :: args)

/-! ### Function types -/

def skipParameterStart : Parse Bool := do
  discard modifiers
  let t ← token
  if t.isPlainName || t.is "this" then
    step
    return true
  if t.isAny ["[", "\x7b"] then
    let before := (← get).sound
    discard (g .pattern)
    return (← get).sound == before
  return false

def opensFunctionType : Parse Bool := do
  advance
  if ← isAtAny [")", "..."] then return true
  if !(← skipParameterStart g) then return false
  if ← isAtAny [":", ",", "?", "="] then return true
  if ← eat ")" then return ← isAt "=>"
  return false

def atFunctionType : Parse Bool := do
  let t ← token
  if t.isAny ["<", "new"] then return true
  if t.is "(" then return ← lookahead (opensFunctionType g) false
  if t.is "abstract" then return ← nextIs "new"
  return false

def functionType : Parse Phrase := do
  let start ← here
  discard (eat "abstract")
  discard (eat "new")
  let generics ← typeParameters g
  let (params, receiver) ← parameters g false
  expect "=>"
  let result ← g .resultType
  close start .other (generics ++ receiver ++ [params, result])

/-! ### Members of object types -/

def endMember : Parse Unit := do
  if ← eat "," then return
  endStatement

def signature : Parse (List Phrase) := do
  let generics ← typeParameters g
  let (params, receiver) ← parameters g false
  let result ← resultAnnotation g
  return generics ++ receiver ++ params :: result

/-- Whether a bracket opens an index signature rather than a computed key. -/
def opensIndexSignature : Parse Bool := do
  advance
  let t ← token
  if t.isAny ["...", "]"] then return true
  if t.isModifier then
    step
    if (← token).isPlainName then return true
  else if !t.isPlainName then return false
  else step
  if ← isAtAny [":", ","] then return true
  if !(← eat "?") then return false
  isAtAny [":", ",", "]"]

def indexSignature : Parse (List Phrase) := do
  expect "["
  discard modifiers
  discard propertyWord
  expect ":"
  let key ← g .type
  expect "]"
  let type ← annotation g
  return key :: type

def typeMember : Parse Phrase := do
  let start ← here
  if ← isAtAny ["(", "<"] then
    let parts ← signature g
    endMember
    return ← close start .other parts
  if ← isAt "new" then
    if (← nextToken).isAny ["(", "<"] then
      advance
      let parts ← signature g
      endMember
      return ← close start .other parts
  discard modifiers
  let t ← token
  let next ← nextToken
  if t.isAny ["get", "set"] && (next.isPropertyName || next.is "[") then
    advance
    let (_, key) ← propertyKey g
    let parts ← signature g
    endMember
    return ← close start .other (key ++ parts)
  if t.is "[" then
    if ← lookahead opensIndexSignature false then
      let parts ← indexSignature g
      endMember
      return ← close start .other parts
  let (_, key) ← propertyKey g
  discard (eat "?")
  let parts ← if ← isAtAny ["(", "<"] then signature g else annotation g
  endMember
  close start .other (key ++ parts)

def typeMembers : Parse Phrase := do
  let start ← here
  expect "\x7b"
  let members ← many (do
    if (← isAt "\x7d") || (← isAtKind .eof) then return none
    return some (← typeMember g))
  expect "\x7d"
  close start .other members

def opensMappedType : Parse Bool := do
  advance
  if ← isAtAny ["+", "-"] then
    advance
    return ← isAt "readonly"
  discard (eat "readonly")
  if !(← eat "[") then return false
  if !(← token).isWord then return false
  step
  isAt "in"

def mappedType : Parse Phrase := do
  let start ← here
  expect "\x7b"
  if ← isAtAny ["+", "-"] then advance
  discard (eat "readonly")
  expect "["
  let key ← propertyWord
  expect "in"
  let domain ← g .type
  let mut parts : List Phrase := [.leaf key.span (.bind key.text), domain]
  if ← eat "as" then parts := parts ++ [← g .type]
  expect "]"
  if ← isAtAny ["+", "-"] then advance
  discard (eat "?")
  parts := parts ++ (← annotation g)
  discard (eat ";")
  discard (eat ",")
  expect "\x7d"
  close start .other parts

/-! ### Tuples, templates, literals -/

def atNamedMember : Parse Bool := do
  if !(← token).isWord then return false
  step
  if ← isAt ":" then return true
  if ← eat "?" then return ← isAt ":"
  return false

def tupleMember : Parse Phrase := do
  let start ← here
  let spread ← eat "..."
  if ← lookahead atNamedMember false then
    step
    discard (eat "?")
    expect ":"
    let type ← g .type
    return ← close start .other [type]
  let type ← g .type
  if !spread then discard (eat "?")
  close start .other [type]

def tupleType : Parse Phrase := do
  let start ← here
  expect "["
  let (items, _) ← listed "]" (tupleMember g)
  expect "]"
  close start .other items

/-- The holes of a template, whose head is the current token, read by `hole`. Unless `tagged`, a
malformed escape is a flaw. -/
def templateHoles (tagged : Bool) (hole : Parse Phrase) : Nat → Parse (List Phrase)
  | 0 => fail
  | fuel + 1 => do
    let t ← token
    flawIf (!tagged && t.escaped)
    match t.kind with
    | .template =>
      step
      return []
    | .templateHead =>
      step
      let p ← hole
      if !(← isAt "\x7d") then fail
      modify fun s => put s (scanTemplate s.token.span.stop s.rest)
      return p :: (← templateHoles tagged hole fuel)
    | _ => fail

def template (tagged : Bool) (hole : Parse Phrase) : Parse Phrase := do
  let start ← here
  let holes ← templateHoles tagged hole (← read).bound
  close start .other holes

def keywordTypes : List String :=
  ["any", "unknown", "string", "number", "bigint", "symbol", "boolean", "undefined", "never",
   "object", "null", "void", "intrinsic"]

def startsType (t : Token) : Bool :=
  match t.kind with
  | .word => !t.isReserved || t.isAny ["void", "null", "this", "typeof", "new", "true", "false",
      "import", "function"]
  | .quoted | .number | .template | .templateHead => true
  | .sign => t.isAny ["\x7b", "[", "<", "|", "&", "*", "?", "!", "...", "-", "("]
  | _ => false

def plainType : Parse Phrase := do
  let start ← here
  let t ← token
  match t.kind with
  | .quoted | .number =>
    step
    close start .other []
  | .template | .templateHead => template false (g .type)
  | .sign =>
    if t.is "-" then
      step
      if !(← isAtKind .number) then fail
      step
      close start .other []
    else if t.is "\x7b" then
      if ← lookahead opensMappedType false then mappedType g else typeMembers g
    else if t.is "[" then tupleType g
    else if t.is "(" then
      advance
      let inner ← g .type
      expect ")"
      close start .other [inner]
    else fail
  | .word =>
    let next ← nextToken
    if t.isAny keywordTypes && !next.is "." then
      step
      close start .other []
    else if t.isAny ["true", "false"] then
      step
      close start .other []
    else if t.is "this" then
      step
      if (← isAt "is") && !(← onNewLine) then
        advance
        return ← close start .other [← g .type]
      close start .other []
    else if t.is "typeof" then
      if next.is "import" then importType g else typeQuery g
    else if t.is "import" then importType g
    else if t.is "asserts" && !next.newline && (next.isPlainName || next.is "this") then
      step
      step
      let type ← if ← eat "is" then pure [← g .type] else pure []
      close start .other type
    else typeReference g
  | _ => fail

/-- What may follow a type on the same line: brackets. -/
def arrayTypes (start : Nat) (type : Phrase) : Nat → Parse Phrase
  | 0 => return type
  | fuel + 1 => do
    if (← onNewLine) || !(← isAt "[") then return type
    advance
    if ← isAt "]" then
      advance
      arrayTypes start (← close start .other [type]) fuel
    else
      let index ← g .type
      expect "]"
      arrayTypes start (← close start .other [type, index]) fuel

/-- The bound of an inferred type, unless it turns out to open a conditional type. -/
def inferBound : Parse (List Phrase) := do
  if !(← isAt "extends") then return []
  let bound? ← attempt (do
    advance
    let type ← within ({ · with conditionals := false }) (g .type)
    if (← read).conditionals && (← isAt "?") then fail
    return type)
  return bound?.toList

def typeOperand : Parse Phrase := do
  let start ← here
  let t ← token
  if t.isAny ["keyof", "unique", "readonly"] && startsType (← nextToken) then
    advance
    let inner ← g .typeOperand
    close start .other [inner]
  else if t.is "infer" && (← nextToken).isBindable then
    advance
    let name ← bound
    let limit ← inferBound g
    close start .other (name :: limit)
  else
    within ({ · with conditionals := true }) (do
      arrayTypes g start (← plainType g) (← read).bound)

/-- Constituents joined by `sign`, which may also stand before the first. -/
def joinedTypes (sign : String) (constituent : Parse Phrase) : Parse Phrase := do
  let start ← here
  discard (eat sign)
  let first ← constituent
  let more ← many (do
    if ← eat sign then return some (← constituent)
    return none)
  if more.isEmpty then return first
  close start .other (first :: more)

/-- A constituent of a union or an intersection, where function types may stand unparenthesised. -/
def constituent : Parse Phrase := do
  if ← atFunctionType g then functionType g else g .typeOperand

def type : Parse Phrase := do
  if ← atFunctionType g then return ← functionType g
  let start ← here
  let subject ← joinedTypes "|" (joinedTypes "&" (constituent g))
  if !(← read).conditionals then return subject
  if ← onNewLine then return subject
  if !(← eat "extends") then return subject
  let limit ← within ({ · with conditionals := false }) (g .type)
  expect "?"
  let yes ← g .type
  expect ":"
  let no ← g .type
  close start .other [subject, limit, yes, no]

def resultType : Parse Phrase := do
  let start ← here
  if (← token).isWord then
    let next ← nextToken
    if next.is "is" && !next.newline && !(← isAtAny ["asserts", "this"]) then
      step
      advance
      let type ← g .type
      return ← close start .other [type]
  g .type

/-! ### Type arguments in expressions -/

/-- Whether the current token can begin an expression. -/
def startsExpression (t : Token) : Bool :=
  match t.kind with
  | .word =>
    !t.isReserved || t.isAny ["this", "super", "null", "true", "false", "function", "class", "new",
      "import", "delete", "typeof", "void", "await", "yield"]
  | .quoted | .number | .template | .templateHead | .privateName => true
  | .sign => t.isAny ["(", "[", "\x7b", "/", "/=", "+", "-", "~", "!", "++", "--", "<", "@"]
  | _ => false

def joinsOperands (t : Token) : Bool :=
  t.isAny ["??", "||", "&&", "|", "^", "&", "==", "!=", "===", "!==", "<", ">", "<=", ">=", "in",
    "instanceof", "as", "satisfies", "<<", ">>", ">>>", "+", "-", "*", "/", "%", "**"]

def endsTypeArguments (t : Token) : Bool :=
  match t.kind with
  | .template | .templateHead => true
  | _ =>
    if t.is "(" then true
    else if t.isAny ["<", ">", "+", "-"] then false
    else t.newline || joinsOperands t || !startsExpression t

def expressionTypeArguments : Parse (Option Phrase) := do
  if !(← isAtAny ["<", "<<"]) then return none
  attempt (do
    let start ← here
    splitAngle
    expect "<"
    let (types, _) ← listed ">" (g .type)
    flawIf types.isEmpty
    let s ← get
    if s.token.is ">" && s.rest.head? == some '=' then fail
    expect ">"
    if endsTypeArguments (← token) then close start .other types else fail)

end JsxLoops.Surface
